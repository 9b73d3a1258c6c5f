import Sglang.PagedAlloc.Allocator
import Sglang.Radix.Run

/-!
# The pages behind the cache

With the pool's allocator behind the cache, every page is on the allocator's lists, in the
value of a node, or owed to someone outside. Each elementary step of the cache moves
pages between these.
-/

namespace Sglang.Radix

open Sglang.Support Sglang.PagedAlloc RadixKey RadixCache

variable {Digest : Type}

/-- A cache in front of a KV pool. -/
structure CacheConfig (Digest : Type) where
  pool : PoolConfig
  isEagle : Bool
  enableKvCacheEvents : Bool
  enableSessionRadixCache : Bool
  disableFinishedInsert : Bool
  nativeHash : Option Digest → List Gram → Digest
  leadingBits : Digest → ℕ

/-- The parameters of the cache itself; evicted indices are freed in the pool. -/
def CacheConfig.params (C : CacheConfig Digest) : RadixParams Digest KVAllocator where
  pageSize := C.pool.pageSize
  pageSize_pos := C.pool.pageSize_pos
  isEagle := C.isEagle
  enableKvCacheEvents := C.enableKvCacheEvents
  enableSessionRadixCache := C.enableSessionRadixCache
  disableFinishedInsert := C.disableFinishedInsert
  nativeHash := C.nativeHash
  leadingBits := C.leadingBits
  free := KVAllocator.free C.pool

variable {C : CacheConfig Digest} {X Y : Tree Digest KVAllocator}
  {T : RadixCache Digest KVAllocator} {owed : Multiset ℤ} {n m : NodeId} {l : List ℤ}

/-- The pages of a node. -/
def nodePages (C : CacheConfig Digest) (X : Tree Digest KVAllocator) (n : NodeId) : Multiset ℤ :=
  (pageIds C.pool.pageSize (X.cache.node n).indices : Multiset ℤ)

def treePages (C : CacheConfig Digest) (X : Tree Digest KVAllocator) : Multiset ℤ :=
  ∑ n ∈ X.inner, nodePages C X n

/-- The pool is divided between the allocator, the tree and the pages owed to others. -/
structure Stock (C : CacheConfig Digest) (X : Tree Digest KVAllocator) (owed : Multiset ℤ) :
    Prop where
  run : ∀ n ∈ X.inner, PageRun C.pool.pageSize (X.cache.node n).indices
  ready : X.cache.allocator.isNotInFreeGroup = true
  conserve : X.cache.allocator.avail + treePages C X + owed = (C.pool.pool : Multiset ℤ)

theorem nodup_pool (c : PoolConfig) : (c.pool : Multiset ℤ).Nodup :=
  Multiset.coe_nodup.mpr (MultiEnded.nodup_pageRange _ _)

theorem Stock.nodup (K : Stock C X owed) : owed.Nodup :=
  Multiset.nodup_of_le (by rw [← K.conserve]; exact Multiset.le_add_left _ _) (nodup_pool C.pool)

/-- Nothing moves while tree and allocator stay. -/
theorem Stock.congr (K : Stock C X owed) (h : Agree X T)
    (halloc : T.allocator = X.cache.allocator) : Stock C { X with cache := T } owed := by
  have hstock : Stock C { X with cache := { X.cache with allocator := T.allocator } } owed := by
    rw [halloc]
    exact K
  rw [h]
  exact ⟨hstock.run, hstock.ready, hstock.conserve⟩

/-! ## Steps of the tree -/

theorem Cut.stock {c : NodeId} {k : ℕ} (h : Cut C.params X c k) (S : Shape C.params X)
    (K : Stock C X owed) : Stock C (X.cut C.params c k) owed := by
  have hdvd : C.pool.pageSize ∣ ((X.cache.node c).indices.take k).length := by
    rw [List.length_take, ← S.len_eq h.mem, min_eq_left h.lt.le]
    exact h.dvd
  have hrun := K.run c h.mem
  rw [← List.take_append_drop k (X.cache.node c).indices] at hrun
  obtain ⟨hupper, hlower⟩ := (pageRun_append C.pool.pageSize_pos hdvd).mp hrun
  have hpages : treePages C (X.cut C.params c k) = treePages C X := by
    refine h.sum_inner S ?_ fun n hn hnc => ?_
    · rw [nodePages, nodePages, nodePages, h.indices_new S, h.indices_cut S, Multiset.coe_add,
        ← pageIds_append C.pool.pageSize_pos hdvd, List.take_append_drop]
    · rw [nodePages, nodePages, node_kept S (mem_live hn) hnc]
      rfl
  refine ⟨fun n hn => ?_, K.ready, by rw [hpages]; exact K.conserve⟩
  rcases (mem_inner_iff S).mp hn with rfl | hn
  · rw [h.indices_new S]
    exact hupper
  · by_cases hnc : n = c
    · rw [hnc, h.indices_cut S]
      exact hlower
    · rw [node_kept S (mem_live hn) hnc]
      exact K.run n hn

theorem Refined.stock (h : Refined C.params X Y) (S : Shape C.params X) (K : Stock C X owed) :
    Stock C Y owed := by
  rcases h with rfl | ⟨c, k, hcut, rfl⟩
  · exact K
  · exact hcut.stock S K

theorem Refined.allocator (h : Refined C.params X Y) : Y.cache.allocator = X.cache.allocator := by
  rcases h with rfl | ⟨c, k, -, rfl⟩ <;> rfl

theorem allocator_graft (X : Tree Digest KVAllocator) (p : NodeId) (key : RadixKey)
    (value : List ℤ) : (X.graft C.params p key value).cache.allocator = X.cache.allocator := by
  simp [Tree.graft, attachLeaf, setNode]

theorem allocator_attach (X : Tree Digest KVAllocator) (p : NodeId) (key : RadixKey)
    (value : List ℤ) : (X.attach C.params p key value).cache.allocator = X.cache.allocator := by
  rw [← allocator_graft X p key value]
  change ((X.graft C.params p key value).cache.withStoreEvent _ _).allocator = _
  rw [withStoreEvent]
  split <;> rfl

/-- A new leaf takes over owed pages. -/
theorem Graft.stock {p : NodeId} {key : RadixKey} {value : List ℤ}
    (h : Graft C.params X p key value) (S : Shape C.params X) (hrun : PageRun C.pool.pageSize value)
    (K : Stock C X ((pageIds C.pool.pageSize value : Multiset ℤ) + owed)) :
    Stock C (X.attach C.params p key value) owed := by
  have hkept : ∀ n ∈ X.inner, ((X.graft C.params p key value).cache.node n).indices =
      (X.cache.node n).indices := by
    intro n hn
    rw [h.node_kept S (mem_live hn)]
    rfl
  have hnew : ((X.graft C.params p key value).cache.node X.cache.counter).indices = value := by
    rw [h.node_new S]
    rfl
  have halloc := allocator_graft (C := C) X p key value
  have hpages : treePages C (X.graft C.params p key value) =
      (pageIds C.pool.pageSize value : Multiset ℤ) + treePages C X := by
    rw [treePages, sum_inner S (f := nodePages C X) fun n hn => by
      rw [nodePages, nodePages, hkept n hn], nodePages, hnew, treePages]
  have KG : Stock C (X.graft C.params p key value) owed := by
    refine ⟨fun n hn => ?_, by rw [halloc]; exact K.ready, ?_⟩
    · rcases (mem_inner_iff S).mp hn with rfl | hn
      · rw [hnew]
        exact hrun
      · rw [hkept n hn]
        exact K.run n hn
    · rw [hpages, halloc, ← K.conserve]
      abel
  exact KG.congr (same_attach X p key value).agree
    ((allocator_attach X p key value).trans halloc.symm)

/-- The allocator's lists grow by the pages of the slots. -/
theorem Stock.avail_free (hrun : PageRun C.pool.pageSize l)
    (K : Stock C X ((pageIds C.pool.pageSize l : Multiset ℤ) + owed)) :
    (X.cache.allocator.free C.pool l).avail =
      X.cache.allocator.avail + (pageIds C.pool.pageSize l : Multiset ℤ) := by
  have hnodup : (pageIds C.pool.pageSize l).Nodup :=
    Multiset.coe_nodup.mp (Multiset.nodup_of_le (Multiset.le_add_right _ _) K.nodup)
  have hperm : (KVAllocator.freedPages C.pool l : Multiset ℤ) =
      (pageIds C.pool.pageSize l : Multiset ℤ) :=
    Multiset.coe_eq_coe.mpr (KVAllocator.freedPages_perm hrun hnodup)
  rw [(KVAllocator.free_spec K.ready).1, hperm, add_comm]

/-- Owed pages are freed. -/
theorem Stock.free (hrun : PageRun C.pool.pageSize l)
    (K : Stock C X ((pageIds C.pool.pageSize l : Multiset ℤ) + owed)) :
    Stock C { X with cache := { X.cache with
      allocator := X.cache.allocator.free C.pool l } } owed := by
  refine ⟨K.run, (KVAllocator.free_spec K.ready).2, ?_⟩
  change (X.cache.allocator.free C.pool l).avail + treePages C X + owed = _
  rw [K.avail_free hrun, ← K.conserve]
  abel

/-- Pages are taken from the allocator. -/
theorem Stock.take {a : KVAllocator} {taken : Multiset ℤ} (K : Stock C X owed)
    (havail : X.cache.allocator.avail = taken + a.avail)
    (hready : a.isNotInFreeGroup = X.cache.allocator.isNotInFreeGroup) :
    Stock C { X with cache := { X.cache with allocator := a } } (taken + owed) := by
  refine ⟨K.run, hready.trans K.ready, ?_⟩
  change a.avail + treePages C X + (taken + owed) = _
  rw [← K.conserve, havail]
  abel

theorem Leaf.stock_evictOne (h : Leaf X n) (S : Shape C.params X) (K : Stock C X owed) :
    Stock C (X.evictOne C.params n) owed := by
  have hpages : treePages C X = nodePages C X n + treePages C (X.prune C.params n) := by
    refine h.sum_inner fun m _ hm => ?_
    rw [nodePages, nodePages, h.node_kept S hm]
    rfl
  have halloc : (X.prune C.params n).cache.allocator = X.cache.allocator := by
    simp [Tree.prune, unlink, discardSessionLeaf, setNode]
  have KP : Stock C (X.prune C.params n) (nodePages C X n + owed) := by
    refine ⟨fun m hm => ?_, by rw [halloc]; exact K.ready, ?_⟩
    · obtain ⟨hm, hmn⟩ := mem_inner_iff.mp hm
      rw [h.node_kept S hmn]
      exact K.run m hm
    · rw [halloc, ← K.conserve, hpages]
      abel
  have KF : Stock C (X.freed C.params n) owed := by
    have := KP.free (K.run n h.mem)
    rw [halloc] at this
    exact this
  refine KF.congr (same_evictOne X n).agree ?_
  rw [withRemoveEvent]
  split <;> rfl

theorem Lifted.stock {δ : ℤ} (h : Lifted X n δ T) (K : Stock C X owed) :
    Stock C { X with cache := T } owed :=
  K.congr h.agree (by rw [h]; rfl)

theorem Retagged.stock (h : Retagged X T) (K : Stock C X owed) :
    Stock C { X with cache := T } owed :=
  K.congr h.same.agree (by rw [h]; rfl)

end Sglang.Radix
