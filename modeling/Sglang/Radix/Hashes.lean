import Sglang.Radix.Locks

/-!
# Page hashes of the tree

With events on, the hashes of a node are the digests of its pages in the chain that starts at
the root: a function of the word of the node, whatever edges the word was
cut into and whenever the hashes were computed. With events off no node holds hashes.
-/

namespace Sglang.Radix

open Sglang.Support RadixKey RadixCache List

variable {Digest A : Type} {P : RadixParams Digest A} {X Y : Tree Digest A}
  {T : RadixCache Digest A} {held : Multiset NodeId} {n m : NodeId}

/-- The chained digests of the pages of a word. -/
def digests (P : RadixParams Digest A) (w : List (Letter × ℤ)) : List Digest :=
  chain P.nativeHash none (pages P.pageSize (w.map fun e => e.1.2))

theorem digests_nil (P : RadixParams Digest A) : digests P [] = [] := by
  rw [digests, map_nil, pages_nil _ P.pageSize_pos]
  rfl

theorem length_digests {w : List (Letter × ℤ)} (h : P.pageSize ∣ w.length) :
    (digests P w).length = w.length / P.pageSize := by
  rw [digests, length_chain, length_pages_of_dvd P.pageSize_pos (by rwa [length_map]), length_map]

/-- Whole pages hash alone; what follows them chains on their last digest. -/
theorem digests_append {u v : List (Letter × ℤ)} (h : P.pageSize ∣ u.length) :
    digests P (u ++ v) = digests P u ++
      chain P.nativeHash (digests P u).getLast? (pages P.pageSize (v.map fun e => e.1.2)) := by
  rw [digests, map_append, pages_append P.pageSize_pos (by rwa [length_map]),
    chain_append, Option.or_none]
  rfl

theorem length_pages_units {key : RadixKey} (h : P.pageSize ∣ key.len) :
    (pages P.pageSize key.units).length = key.len / P.pageSize := by
  rw [length_pages_of_dvd P.pageSize_pos (by rwa [length_units]), length_units]

/-- The digests of the pages of a node. -/
def nodeDigests (P : RadixParams Digest A) (X : Tree Digest A) (n : NodeId) : List Digest :=
  (digests P (X.path n)).drop ((X.path (X.cache.parentOf n)).length / P.pageSize)

theorem Shape.units_entries (S : Shape P X) (hn : n ∈ X.inner) :
    (X.cache.entries n).map (fun e => e.1.2) = (X.cache.node n).key.units := by
  have hmap : (X.cache.entries n).map (fun e => e.1.2) =
      ((X.cache.entries n).map Prod.fst).map Prod.snd := by
    rw [map_map]
    rfl
  rw [hmap, S.map_fst_entries hn, RadixKey.letters, map_map]
  exact map_id _

theorem Shape.nodeDigests_eq (S : Shape P X) (hn : n ∈ X.inner) : nodeDigests P X n =
      chain P.nativeHash (digests P (X.path (X.cache.parentOf n))).getLast?
        (pages P.pageSize (X.cache.node n).key.units) := by
  have hin := Tree.mem_inner.mp hn
  have hdvd := S.tree.page_dvd_path (S.parent_mem hn)
  rw [nodeDigests, S.tree.path_eq hin.1 hin.2, digests_append hdvd, S.units_entries hn,
    ← length_digests hdvd, drop_left]

theorem Shape.length_nodeDigests (S : Shape P X) (hn : n ∈ X.inner) :
    (nodeDigests P X n).length = (X.cache.node n).key.len / P.pageSize := by
  rw [S.nodeDigests_eq hn, length_chain, length_pages_units (S.page_dvd hn)]

/-- The last digest of a word below the root is the last one of its node. -/
theorem Shape.getLast_nodeDigests (S : Shape P X) (hn : n ∈ X.inner) :
    (nodeDigests P X n).getLast? = (digests P (X.path n)).getLast? := by
  have hpos : 0 < (nodeDigests P X n).length := by
    rw [S.length_nodeDigests hn]
    exact Nat.div_pos (S.page_le hn) P.pageSize_pos
  have hsplit : (digests P (X.path n)).take
      ((X.path (X.cache.parentOf n)).length / P.pageSize) ++ nodeDigests P X n =
        digests P (X.path n) := take_append_drop _ _
  rw [← hsplit, List.getLast?_append_of_ne_nil _ (ne_nil_of_length_pos hpos)]

/-! ## The invariant -/

/-- The hashes a node keeps. -/
def RadixParams.hashes (P : RadixParams Digest A) (ds : List Digest) : Option (List Digest) :=
  if P.enableKvCacheEvents then some ds else none

theorem hashes_eq_some {ds hashes : List Digest} :
    P.hashes ds = some hashes ↔ P.enableKvCacheEvents = true ∧ ds = hashes := by
  simp [RadixParams.hashes]

theorem splitNodeHashValue_hashes (P : RadixParams Digest A) (ds : List Digest) (k : ℕ) :
    splitNodeHashValue (P.hashes ds) k P.pageSize =
      (P.hashes (ds.take (k / P.pageSize)), P.hashes (ds.drop (k / P.pageSize))) := by
  have hpages : (if P.pageSize = 1 then k else k / P.pageSize) = k / P.pageSize := by
    split
    · rename_i hone
      rw [hone, Nat.div_one]
    · rfl
  unfold RadixParams.hashes
  split
  · simp [splitNodeHashValue, hpages]
  · rfl

/-- Every node below the root holds the digests of its pages. -/
structure Hashed (P : RadixParams Digest A) (X : Tree Digest A) : Prop where
  root_key : (X.cache.node X.cache.rootNode).key.len = 0
  hash_eq : ∀ n ∈ X.inner, (X.cache.node n).hashValue = P.hashes (nodeDigests P X n)

/-- Hashes survive changes of anything else. -/
theorem Hashed.congr (H : Hashed P X) (h : Agree X T)
    (hhash : ∀ n ∈ X.inner, (T.node n).hashValue = (X.cache.node n).hashValue) :
    Hashed P { X with cache := T } := by
  refine ⟨?_, fun n hn => ?_⟩
  · rw [h]
    exact H.root_key
  · rw [h.inner_eq] at hn
    refine ((hhash n hn).trans (H.hash_eq n hn)).trans ?_
    rw [h]
    rfl

/-- `compute_node_hash_values` on the stored parent hashes. -/
theorem Hashed.parentHash_eq (H : Hashed P X) (hon : P.enableKvCacheEvents = true)
    (hp : m ∈ X.live) {x : TreeNode Digest} (S : Shape P X) (hx : x.parent = some m)
    (hkey : (T.node m).key = (X.cache.node m).key)
    (hhash : (T.node m).hashValue = (X.cache.node m).hashValue) :
    T.parentHash x = (digests P (X.path m)).getLast? := by
  unfold RadixCache.parentHash
  rw [hx]
  simp only [hkey, hhash]
  by_cases hr : m = X.cache.rootNode
  · have hlen : ¬(X.cache.node m).key.len > 0 := by
      rw [hr, H.root_key]
      exact lt_irrefl 0
    rw [hr, S.tree.path_root, digests_nil, ← hr]
    cases (X.cache.node m).hashValue with
    | none => rfl
    | some hashes => simp [hlen]
  · have hin := Tree.mem_inner.mpr ⟨hp, hr⟩
    rw [H.hash_eq m hin, RadixParams.hashes, if_pos hon]
    simp only [if_pos (S.len_pos hin)]
    exact S.getLast_nodeDigests hin

/-- Computing the hashes of a node afresh gives the stored ones. -/
theorem Hashed.compute_eq (H : Hashed P X) (hon : P.enableKvCacheEvents = true) (S : Shape P X)
    (hn : n ∈ X.inner) :
    X.cache.computeNodeHashValues P (X.cache.node n) = nodeDigests P X n := by
  rw [RadixCache.computeNodeHashValues, S.nodeDigests_eq hn,
    H.parentHash_eq hon (S.parent_mem hn) S (S.parent_some hn) rfl rfl]

/-! ## Cutting an edge -/

namespace Cut

variable {c : NodeId} {k : ℕ}

theorem length_path_new (h : Cut P X c k) (S : Shape P X) :
    ((X.cut P c k).path X.cache.counter).length = (X.path (X.cache.parentOf c)).length + k := by
  rw [path_new, length_append, length_take, S.length_entries h.mem, min_eq_left h.lt.le]

theorem div_path_new (h : Cut P X c k) (S : Shape P X) :
    ((X.path (X.cache.parentOf c)).length + k) / P.pageSize =
      (X.path (X.cache.parentOf c)).length / P.pageSize + k / P.pageSize := by
  obtain ⟨a, ha⟩ := S.tree.page_dvd_path (S.parent_mem h.mem)
  rw [ha, Nat.mul_add_div P.pageSize_pos, Nat.mul_div_cancel_left _ P.pageSize_pos]

/-- The upper part of a cut edge takes the first digests of the edge. -/
theorem nodeDigests_new (h : Cut P X c k) (S : Shape P X) :
    nodeDigests P (X.cut P c k) X.cache.counter = (nodeDigests P X c).take (k / P.pageSize) := by
  have hc := Tree.mem_inner.mp h.mem
  have hdvd : P.pageSize ∣ ((X.cut P c k).path X.cache.counter).length := by
    rw [h.length_path_new S]
    exact Nat.dvd_add (S.tree.page_dvd_path (S.parent_mem h.mem)) h.dvd
  have hword : X.path c =
      (X.cut P c k).path X.cache.counter ++ (X.cache.entries c).drop k := by
    rw [path_new, append_assoc, take_append_drop, S.tree.path_eq hc.1 hc.2]
  have hlen : (digests P ((X.cut P c k).path X.cache.counter)).length =
      (X.path (X.cache.parentOf c)).length / P.pageSize + k / P.pageSize := by
    rw [length_digests hdvd, h.length_path_new S, h.div_path_new S]
  rw [nodeDigests, nodeDigests, h.parentOf_new S, path_kept S (S.parent_mem h.mem), hword,
    digests_append hdvd,
    drop_append_of_le_length (by rw [hlen]; exact Nat.le_add_right _ _),
    take_append_of_le_length]
  · rw [take_of_length_le]
    rw [length_drop, hlen, Nat.add_sub_cancel_left]
  · rw [length_drop, hlen, Nat.add_sub_cancel_left]

/-- The lower part keeps the rest. -/
theorem nodeDigests_cut (h : Cut P X c k) (S : Shape P X) :
    nodeDigests P (X.cut P c k) c = (nodeDigests P X c).drop (k / P.pageSize) := by
  have hc := Tree.mem_inner.mp h.mem
  rw [nodeDigests, nodeDigests, h.parentOf_cut S, h.length_path_new S, h.div_path_new S,
    path_kept S hc.1, drop_drop]

theorem nodeDigests_kept (S : Shape P X) (hn : n ∈ X.inner) (hnc : n ≠ c) :
    nodeDigests P (X.cut P c k) n = nodeDigests P X n := by
  rw [nodeDigests, nodeDigests, parentOf_kept S (mem_live hn) hnc,
    path_kept S (mem_live hn), path_kept S (S.parent_mem hn)]

theorem hashed (h : Cut P X c k) (S : Shape P X) (H : Hashed P X) : Hashed P (X.cut P c k) := by
  have hc := Tree.mem_inner.mp h.mem
  refine ⟨?_, fun n hn => ?_⟩
  · rw [root_eq, node_kept S S.root_mem fun heq => hc.2 heq.symm]
    exact H.root_key
  · rcases (mem_inner_iff S).mp hn with rfl | hn
    · rw [h.nodeDigests_new S, h.node_new S]
      simp [splitNodeHashValue_hashes, H.hash_eq c h.mem]
    · by_cases hnc : n = c
      · rw [hnc, h.nodeDigests_cut S, h.node_cut S]
        simp [splitNodeHashValue_hashes, H.hash_eq c h.mem]
      · rw [nodeDigests_kept S hn hnc, node_kept S (mem_live hn) hnc]
        exact H.hash_eq n hn

end Cut

/-! ## Leaves -/

namespace Graft

variable {p : NodeId} {key : RadixKey} {value : List ℤ}

theorem nodeDigests_kept (h : Graft P X p key value) (S : Shape P X) (hn : n ∈ X.inner) :
    nodeDigests P (X.graft P p key value) n = nodeDigests P X n := by
  rw [nodeDigests, nodeDigests, h.parentOf_kept S (mem_live hn),
    path_kept S (mem_live hn), path_kept S (S.parent_mem hn)]

/-- The hashes computed for a new leaf chain on those of its parent. -/
theorem compute_new (h : Graft P X p key value) (S : Shape P X) (H : Hashed P X)
    (hon : P.enableKvCacheEvents = true) : (X.graft P p key value).cache.computeNodeHashValues P
        ((X.graft P p key value).cache.node X.cache.counter) =
      nodeDigests P (X.graft P p key value) X.cache.counter := by
  have hin : X.cache.counter ∈ (X.graft P p key value).inner := (mem_inner_iff S).mpr (Or.inl rfl)
  have hparent : (X.graft P p key value).cache.parentHash
      ((X.graft P p key value).cache.node X.cache.counter) = (digests P (X.path p)).getLast? :=
    H.parentHash_eq hon h.mem S (by rw [h.node_new S]) (by rw [h.node_kept S h.mem])
      (by rw [h.node_kept S h.mem])
  rw [computeNodeHashValues, (h.shape S).nodeDigests_eq hin, h.parentOf_new S,
    path_kept S h.mem, hparent]

/-- The store event changes nothing but hashes. -/
theorem same_attach (X : Tree Digest A) (p : NodeId) (key : RadixKey) (value : List ℤ) :
    Same (X.graft P p key value) (X.attach P p key value).cache := by
  simp only [Tree.attach, withStoreEvent]
  split
  · exact same_setNode _ _ _ _
  · rfl

theorem hashed (h : Graft P X p key value) (S : Shape P X) (H : Hashed P X) :
    Hashed P (X.attach P p key value) := by
  have hagree := (same_attach (P := P) X p key value).agree
  have hdig : ∀ n, nodeDigests P (X.attach P p key value) n =
      nodeDigests P (X.graft P p key value) n := by
    intro n
    change nodeDigests P { X.graft P p key value with cache := (X.attach P p key value).cache }
      n = _
    rw [hagree]
    rfl
  refine ⟨?_, fun n hn => ?_⟩
  · rw [hagree]
    change ((X.graft P p key value).cache.node (X.graft P p key value).cache.rootNode).key.len = 0
    rw [root_eq, h.node_kept S S.root_mem]
    exact H.root_key
  · rw [hdig]
    rcases (mem_inner_iff S).mp (hagree.inner_eq ▸ hn) with rfl | hold
    · simp only [Tree.attach, withStoreEvent, RadixParams.hashes]
      split
      · rename_i hon
        rw [← h.compute_new S H hon]
        simp [setNode]
      · rw [h.node_new S]
    · have hne : n ≠ X.cache.counter := fun heq => Cut.counter_notMem_inner S (heq ▸ hold)
      have hkept : ((X.attach P p key value).cache.node n).hashValue =
          ((X.graft P p key value).cache.node n).hashValue := by
        simp only [Tree.attach, withStoreEvent]
        split
        · simp [setNode, hne]
        · rfl
      rw [hkept, h.nodeDigests_kept S hold, h.node_kept S (mem_live hold)]
      exact H.hash_eq n hold

end Graft

theorem Leaf.hashed_prune (h : Leaf X n) (S : Shape P X) (H : Hashed P X) :
    Hashed P (X.prune P n) := by
  refine ⟨?_, fun m hm => ?_⟩
  · rw [root_eq, h.node_kept S fun heq => (Tree.mem_inner.mp h.mem).2 heq.symm]
    exact H.root_key
  · obtain ⟨hm, hmn⟩ := mem_inner_iff.mp hm
    have hdig : nodeDigests P (X.prune P n) m = nodeDigests P X m := by
      rw [nodeDigests, nodeDigests, h.parentOf_kept S hmn]
      rfl
    rw [hdig, h.node_kept S hmn]
    exact H.hash_eq m hm

end Sglang.Radix
