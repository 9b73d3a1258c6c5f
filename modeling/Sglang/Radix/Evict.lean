import Mathlib.Logic.Relation
import Mathlib.Order.Lattice.Nat
import Sglang.Radix.Hashes

/-!
# Deleting leaves

`evict` and `release_radix_session` free and unlink leaves from the bottom up.
`Inv` collects what every operation keeps.
-/

namespace Sglang.Radix

open Sglang.Support RadixKey RadixCache

variable {Digest A : Type} {P : RadixParams Digest A} {X Y : Tree Digest A}
  {T : RadixCache Digest A} {held : Multiset NodeId} {n m : NodeId} {k : ℕ}

/-! ## The invariant -/

structure Inv (P : RadixParams Digest A) (X : Tree Digest A) (held : Multiset NodeId) : Prop where
  shape : Shape P X
  locked : Locked X held
  accounts : Accounts X
  hashed : Hashed P X

theorem Cut.inv {c : NodeId} (h : Cut P X c k) (I : Inv P X held) : Inv P (X.cut P c k) held :=
  ⟨h.shape I.shape, h.locked I.shape I.locked, h.accounts I.shape I.accounts,
    h.hashed I.shape I.hashed⟩

theorem Refined.inv (h : Refined P X Y) (I : Inv P X held) : Inv P Y held := by
  rcases h with rfl | ⟨c, k, hcut, rfl⟩
  · exact I
  · exact hcut.inv I

/-- The invariant survives changes of anything it does not depend on. -/
theorem Same.inv (h : Same X T) (I : Inv P X held)
    (hhash : ∀ n ∈ X.inner, (T.node n).hashValue = (X.cache.node n).hashValue) :
    Inv P { X with cache := T } held :=
  ⟨h.agree.shape I.shape, h.locked I.locked, h.accounts I.accounts, I.hashed.congr h.agree hhash⟩

/-! ## Inserting -/

/-- Attaching a leaf keeps the invariant. -/
theorem Graft.inv {p : NodeId} {key : RadixKey} {value : List ℤ} (h : Graft P X p key value)
    (I : Inv P X held) : Inv P (X.attach P p key value) held := by
  have hsame := same_attach (P := P) X p key value
  exact ⟨hsame.agree.shape (h.shape I.shape), hsame.locked (h.locked I.shape I.locked),
    hsame.accounts (h.accounts I.shape I.locked I.accounts), h.hashed I.shape I.hashed⟩

theorem Inserted.inv {key : RadixKey} {value : List ℤ} {Z : Tree Digest A}
    {last : NodeId} (h : Inserted P X key value Y m k Z last) (I : Inv P X held) :
    Inv P Z held := by
  have IY := h.reached.refined.inv I
  rcases h.done with ⟨_, rfl, _⟩ | ⟨_, _, rest, hgraft, _, rfl⟩
  · exact IY
  · exact hgraft.inv IY

/-! ## Freeing a leaf -/

/-- The tree after `free(node.value)` and `_delete_leaf(node)`. -/
def Tree.freed (P : RadixParams Digest A) (X : Tree Digest A) (n : NodeId) : Tree Digest A :=
  { X.prune P n with
    cache := { (X.prune P n).cache with
      allocator := P.free X.cache.allocator (X.cache.node n).indices } }

theorem unlink_allocator (P : RadixParams Digest A) (T : RadixCache Digest A) (n p : NodeId)
    (a : A) :
    ({ T with allocator := a }).unlink P n p = { T.unlink P n p with allocator := a } := by
  rw [unlink, unlink, updateLeafStatus_eq, updateLeafStatus_eq]
  rfl

namespace Leaf

theorem freeLeaf_eq (h : Leaf X n) (S : Shape P X) :
    X.cache.freeLeaf P n = .ok (X.freed P n).cache := by
  have hlook := (S.child_iff (S.parent_mem h.mem)).mpr ⟨h.mem, rfl, rfl⟩
  rw [freeLeaf, deleteLeaf]
  simp only [S.parent_some h.mem, hlook, if_true]
  rw [unlink_allocator]
  rfl

/-- Freeing an unlocked leaf keeps the invariant. -/
theorem inv_freed (h : Leaf X n) (I : Inv P X held) (hlock : (X.cache.node n).lockRef = 0) :
    Inv P (X.freed P n) held := by
  have hprune : Inv P (X.prune P n) held :=
    ⟨h.shape I.shape, h.locked I.shape I.locked hlock,
      h.accounts I.shape I.locked I.accounts hlock, h.hashed_prune I.shape I.hashed⟩
  exact Same.inv rfl hprune fun _ _ => rfl

/-- The unlinked node itself only loses its session ids. -/
theorem node_freed (h : Leaf X n) (S : Shape P X) :
    (X.freed P n).cache.node n = { X.cache.node n with sessionIds := ∅ } := by
  simp [Tree.freed, Tree.prune, unlink, discardSessionLeaf, setNode, (S.parentOf_ne h.mem).symm]

end Leaf

/-! ## Eviction -/

/-- The cache after the remove event of a node. -/
def RadixCache.withRemoveEvent (P : RadixParams Digest A) (T : RadixCache Digest A)
    (n : NodeId) : RadixCache Digest A :=
  if P.enableKvCacheEvents then
    { T.setNode n { T.node n with hashValue := some (T.hashValues P (T.node n)) } with
      kvEventQueue := T.kvEventQueue ++
        if T.hashValues P (T.node n) = [] then []
        else [.blockRemoved ((T.hashValues P (T.node n)).map (hashStrToInt64 P))] }
  else T

theorem recordRemoveEvent_eq {T : RadixCache Digest A}
    (h : (T.hashValues P (T.node n)).length = (pages P.pageSize (T.node n).key.units).length) :
    T.recordRemoveEvent P n = .ok (T.withRemoveEvent P n) := by
  rw [recordRemoveEvent, withRemoveEvent]
  split
  · have htake : (T.hashValues P (T.node n)).take
        (pages P.pageSize (T.node n).key.units).length = T.hashValues P (T.node n) :=
      List.take_of_length_le h.le
    simp only [htake, List.map_eq_nil_iff]
    rw [if_neg (not_lt.mpr h.ge)]
  · rfl

/-- The tree after `evict` took one leaf. -/
def Tree.evictOne (P : RadixParams Digest A) (X : Tree Digest A) (n : NodeId) : Tree Digest A :=
  { X.freed P n with cache := (X.freed P n).cache.withRemoveEvent P n }

namespace Leaf

theorem length_hashValues (h : Leaf X n) (I : Inv P X held) :
    ((X.freed P n).cache.hashValues P ((X.freed P n).cache.node n)).length =
      (pages P.pageSize ((X.freed P n).cache.node n).key.units).length := by
  rw [h.node_freed I.shape, hashValues]
  cases hsome : (X.cache.node n).hashValue with
  | none => exact length_computeNodeHashValues _ _ _
  | some hashes =>
    rw [I.hashed.hash_eq n h.mem, hashes_eq_some] at hsome
    rw [Option.getD_some, length_pages_units (I.shape.page_dvd h.mem), ← hsome.2,
      I.shape.length_nodeDigests h.mem]

theorem same_evictOne (X : Tree Digest A) (n : NodeId) :
    Same (X.freed P n) (X.evictOne P n).cache := by
  simp only [Tree.evictOne, withRemoveEvent]
  split
  · exact same_setNode _ _ _ _
  · rfl

theorem node_evictOne (X : Tree Digest A) (hm : m ≠ n) :
    (X.evictOne P n).cache.node m = (X.freed P n).cache.node m := by
  change ((X.freed P n).cache.withRemoveEvent P n).node m = _
  rw [withRemoveEvent]
  split
  · simp [setNode, hm]
  · rfl

theorem mem_inner_freed : m ∈ (X.freed P n).inner ↔ m ∈ X.inner ∧ m ≠ n := by
  rw [← mem_inner_iff]
  rfl

theorem notMem_freed (X : Tree Digest A) (n : NodeId) : n ∉ (X.freed P n).inner :=
  fun hmem => (mem_inner_freed.mp hmem).2 rfl

theorem inv_evictOne (h : Leaf X n) (I : Inv P X held)
    (hlock : (X.cache.node n).lockRef = 0) : Inv P (X.evictOne P n) held := by
  refine (same_evictOne X n).inv (h.inv_freed I hlock) fun m hm => ?_
  rw [node_evictOne X fun heq => notMem_freed X n (heq ▸ hm)]

end Leaf

/-- An order in which `heappop` returns nodes that are on the heap. -/
def Picks (pick : ℕ → Finset NodeId → NodeId) : Prop := ∀ k heap, heap ≠ ∅ → pick k heap ∈ heap

theorem picks_sup : Picks fun _ heap => heap.sup id := by
  intro _ heap hne
  obtain ⟨x, hx, heq⟩ := heap.exists_mem_eq_sup (Finset.nonempty_iff_ne_empty.mpr hne) id
  change heap.sup id ∈ heap
  rwa [heq]

theorem leaf_of_mem (I : Inv P X held) (h : n ∈ X.cache.evictableLeaves) :
    Leaf X n ∧ (X.cache.node n).lockRef = 0 := by
  obtain ⟨hin, hlock, hnil⟩ := (I.accounts.mem_leaves n).mp h
  exact ⟨⟨hin, hnil⟩, hlock⟩

/-- The heap holds exactly the evictable leaves again after a round. -/
theorem heapAfter_eq (I : Inv P X held) (h : Leaf X n) (hlock : (X.cache.node n).lockRef = 0) :
    (X.freed P n).cache.heapAfter X.cache.evictableLeaves n (X.cache.parentOf n) =
      (X.evictOne P n).cache.evictableLeaves := by
  have IF := h.inv_freed I hlock
  have hp : X.cache.parentOf n ∈ (X.freed P n).live := h.parent_live I.shape
  have hchild : X.cache.parentOf n ∉ X.cache.evictableLeaves := fun hmem =>
    (I.shape.children_nil_iff (I.shape.parent_mem h.mem)).mp (leaf_of_mem I hmem).1.childless n
      h.mem rfl
  rw [Leaf.same_evictOne X n]
  change _ = (X.freed P n).cache.evictableLeaves
  ext m
  rw [IF.accounts.mem_leaves m, heapAfter]
  by_cases hmp : m = X.cache.parentOf n
  · subst hmp
    by_cases hc : ((X.freed P n).cache.node (X.cache.parentOf n)).children.entries = [] ∧
        ((X.freed P n).cache.node (X.cache.parentOf n)).lockRef = 0
    · rw [if_pos hc]
      refine iff_of_true (Finset.mem_insert_self _ _) ⟨Tree.mem_inner.mpr ⟨hp, fun hr => ?_⟩,
        hc.2, hc.1⟩
      have hroot := IF.locked.root_lock
      rw [← hr, hc.2] at hroot
      exact absurd hroot (by decide)
    · rw [if_neg hc]
      exact iff_of_false (fun hm => hchild (Finset.mem_of_mem_erase hm)) fun hm =>
        hc ⟨hm.2.2, hm.2.1⟩
  · have hleft : m ∈ (if ((X.freed P n).cache.node (X.cache.parentOf n)).children.entries = [] ∧
        ((X.freed P n).cache.node (X.cache.parentOf n)).lockRef = 0 then
        insert (X.cache.parentOf n) (X.cache.evictableLeaves.erase n)
        else X.cache.evictableLeaves.erase n) ↔ m ∈ X.cache.evictableLeaves.erase n := by
      split
      · rw [Finset.mem_insert, or_iff_right hmp]
      · rfl
    rw [hleft, Finset.mem_erase, I.accounts.mem_leaves, Leaf.mem_inner_freed]
    by_cases hmn : m = n
    · exact iff_of_false (fun hm => hm.1 hmn) fun hm => hm.1.2 hmn
    · have hnode : (X.freed P n).cache.node m = X.cache.node m := Leaf.node_other hmn hmp
      rw [and_iff_right hmn, and_iff_left hmn, hnode]

/-- Rounds of the loop of `evict`, with the leaves they take. -/
inductive Evicts (P : RadixParams Digest A) : Tree Digest A → List NodeId → Tree Digest A → Prop
  | nil {X : Tree Digest A} : Evicts P X [] X
  | cons {X Y : Tree Digest A} {n : NodeId} {xs : List NodeId} (hleaf : Leaf X n)
      (hlock : (X.cache.node n).lockRef = 0) (h : Evicts P (X.evictOne P n) xs Y) :
      Evicts P X (n :: xs) Y

/-- What every round keeps. -/
theorem Evicts.keep {xs : List NodeId} {J : Tree Digest A → Prop} (h : Evicts P X xs Y)
    (I : Inv P X held) (H : J X)
    (hstep : ∀ {X n}, Inv P X held → J X → Leaf X n → J (X.evictOne P n)) : Inv P Y held ∧ J Y := by
  induction h with
  | nil => exact ⟨I, H⟩
  | cons hleaf hlock _ ih => exact ih (hleaf.inv_evictOne I hlock) (hstep I H hleaf)

/-- The slots of some nodes. -/
def Tree.slots (X : Tree Digest A) (xs : List NodeId) : ℕ :=
  (xs.map fun x => (X.cache.node x).indices.length).sum

theorem Leaf.inner_evictOne (X : Tree Digest A) (n : NodeId) :
    (X.evictOne P n).inner = X.inner.erase n := by
  rw [← Leaf.inner_eq]
  exact (Leaf.same_evictOne X n).agree.inner_eq

/-- Every other node keeps all but its child dict. -/
theorem Leaf.evictOne_kept (h : Leaf X n) (S : Shape P X) (hm : m ≠ n) :
    (X.evictOne P n).cache.node m =
      { X.cache.node m with children := ((X.evictOne P n).cache.node m).children } := by
  rw [node_evictOne X hm]
  exact h.node_kept S hm

theorem Evicts.mem_inner {xs : List NodeId} (h : Evicts P X xs Y) (hx : n ∈ xs) :
    n ∈ X.inner := by
  induction h with
  | nil => cases hx
  | cons hleaf _ _ ih =>
    rcases List.mem_cons.mp hx with rfl | hx
    · exact hleaf.mem
    · have hin := ih hx
      rw [Leaf.inner_evictOne] at hin
      exact Finset.mem_of_mem_erase hin

theorem Leaf.indices_evictOne (h : Leaf X n) (S : Shape P X) (hm : m ∈ (X.evictOne P n).inner) :
    ((X.evictOne P n).cache.node m).indices = (X.cache.node m).indices := by
  rw [inner_evictOne] at hm
  rw [h.evictOne_kept S (Finset.ne_of_mem_erase hm)]
  rfl

theorem Leaf.slots_evictOne (h : Leaf X n) (S : Shape P X) {xs : List NodeId}
    (hxs : ∀ x ∈ xs, x ∈ (X.evictOne P n).inner) : (X.evictOne P n).slots xs = X.slots xs := by
  unfold Tree.slots
  congr 1
  exact List.map_congr_left fun x hx => congrArg List.length (h.indices_evictOne S (hxs x hx))

/-- The loop of `evict` takes evictable leaves until it has enough or there are none. -/
theorem evictLoop_spec {pick : ℕ → Finset NodeId → NodeId} (hpick : Picks pick)
    {numTokens fuel : ℕ} (numEvicted : ℕ) (I : Inv P X held) (hfuel : X.inner.card < fuel) :
    ∃ xs Y, evictLoop P pick numTokens fuel X.cache X.cache.evictableLeaves numEvicted =
        .ok (numEvicted + X.slots xs, Y.cache) ∧ Evicts P X xs Y ∧
      (numEvicted + X.slots xs < numTokens → Y.cache.evictableLeaves = ∅) ∧
      ∀ r x, xs = r ++ [x] → numEvicted + X.slots r < numTokens := by
  induction fuel generalizing X numEvicted with
  | zero => omega
  | succ fuel ih =>
    rw [evictLoop]
    by_cases hgo : numEvicted < numTokens ∧ X.cache.evictableLeaves ≠ ∅
    · rw [if_pos hgo]
      set n := pick fuel X.cache.evictableLeaves with hn
      obtain ⟨hleaf, hlock⟩ := leaf_of_mem I (hpick fuel _ hgo.2)
      rw [← hn] at hleaf hlock
      have hparent : ((X.freed P n).cache.node n).parent = some (X.cache.parentOf n) := by
        rw [hleaf.node_freed I.shape]
        exact I.shape.parent_some hleaf.mem
      have hcard : (X.evictOne P n).inner.card < fuel := by
        rw [Leaf.inner_evictOne, Finset.card_erase_of_mem hleaf.mem]
        have := Finset.card_pos.mpr ⟨n, hleaf.mem⟩
        omega
      obtain ⟨xs, Y, hloop, hev, hdone, hstop⟩ := ih
        (numEvicted + (X.cache.node n).indices.length) (hleaf.inv_evictOne I hlock) hcard
      have hslots : ∀ r, (∀ x ∈ r, x ∈ xs) → numEvicted + X.slots (n :: r) =
          numEvicted + (X.cache.node n).indices.length + (X.evictOne P n).slots r := by
        intro r hr
        rw [hleaf.slots_evictOne I.shape fun x hx => hev.mem_inner (hr x hx), Nat.add_assoc]
        rfl
      rw [← hslots xs fun _ => id] at hloop hdone
      refine ⟨n :: xs, Y, ?_, .cons hleaf hlock hev, hdone, fun r x hr => ?_⟩
      · simp only [hleaf.freeLeaf_eq I.shape, bind, Except.bind, hparent,
          recordRemoveEvent_eq (hleaf.length_hashValues I), heapAfter_eq I hleaf hlock]
        exact hloop
      · cases r with
        | nil => exact hgo.1
        | cons y r =>
          obtain ⟨rfl, rfl⟩ : n = y ∧ xs = r ++ [x] := by simpa using hr
          rw [hslots r fun z hz => List.mem_append_left _ hz]
          exact hstop r x rfl
    · rw [if_neg hgo]
      exact ⟨[], X, rfl, .nil, fun h => not_not.mp fun hne => hgo ⟨h, hne⟩, by simp⟩

theorem card_inner_lt (S : Shape P X) : X.inner.card < X.cache.counter + 1 := by
  refine Nat.lt_succ_of_le ?_
  rw [← Finset.card_range X.cache.counter]
  exact Finset.card_le_card fun m hm => Finset.mem_range.mpr (S.fresh (mem_live hm))

theorem evict_spec {pick : ℕ → Finset NodeId → NodeId} (hpick : Picks pick) (numTokens : ℕ)
    (I : Inv P X held) :
    ∃ k Y xs, X.cache.evict P pick numTokens = .ok (k, Y.cache) ∧ Evicts P X xs Y := by
  obtain ⟨xs, Y, hloop, hev, -, -⟩ := evictLoop_spec hpick 0 I (card_inner_lt I.shape)
  exact ⟨_, Y, xs, hloop, hev⟩

/-! ## Session close -/

/-- The cache `X` with the session data of `T`. -/
def RadixCache.retag (T X : RadixCache Digest A) : RadixCache Digest A :=
  { X with
    node := fun n => { X.node n with sessionIds := (T.node n).sessionIds }
    sessionLeaves := T.sessionLeaves
    closedSessionIds := T.closedSessionIds }

/-- The heaps differ in session data only. -/
abbrev Retagged (X : Tree Digest A) (T : RadixCache Digest A) : Prop := T = T.retag X.cache

theorem Retagged.same (h : Retagged X T) : Same X T := by
  rw [Same, h]
  rfl

theorem Retagged.inv (h : Retagged X T) (I : Inv P X held) : Inv P { X with cache := T } held :=
  h.same.inv I fun _ _ => by rw [h]; rfl

theorem Retagged.trans (h : Retagged X Y.cache) (h' : Retagged Y T) : Retagged X T := by
  refine Eq.trans h' ?_
  rw [h]
  rfl

theorem retagged_setNode (X : Tree Digest A) (n : NodeId) (sessionIds : Finset String)
    (leaves : String → Finset NodeId) : Retagged X
      { X.cache.setNode n { X.cache.node n with sessionIds := sessionIds } with
        sessionLeaves := leaves } := by
  simp only [Retagged, retag, setNode]
  congr 1
  funext m
  by_cases hm : m = n
  · rw [hm, Function.update_self]
  · rw [Function.update_of_ne hm]

/-- One step of `release_radix_session`: session data changes, or an unlocked leaf is
freed without an event. -/
inductive ReleaseStep (P : RadixParams Digest A) : Tree Digest A → Tree Digest A → Prop
  | retag {X : Tree Digest A} {T : RadixCache Digest A} (h : Retagged X T) :
      ReleaseStep P X { X with cache := T }
  | free {X : Tree Digest A} {n : NodeId} (hleaf : Leaf X n)
      (hlock : (X.cache.node n).lockRef = 0) : ReleaseStep P X (X.freed P n)

theorem ReleaseStep.inv (h : ReleaseStep P X Y) (I : Inv P X held) : Inv P Y held := by
  cases h with
  | retag h => exact h.inv I
  | free hleaf hlock => exact hleaf.inv_freed I hlock

abbrev ReleaseSteps (P : RadixParams Digest A) : Tree Digest A → Tree Digest A → Prop :=
  Relation.ReflTransGen (ReleaseStep P)

theorem ReleaseSteps.inv (h : ReleaseSteps P X Y) (I : Inv P X held) : Inv P Y held := by
  induction h with
  | refl => exact I
  | tail _ hstep ih => exact hstep.inv ih

theorem dropHolder_retagged (X : Tree Digest A) (sid : String) (n : NodeId) :
    Retagged X (X.cache.dropHolder sid n) :=
  retagged_setNode X n _ _

theorem rank_erase_le (live : Finset NodeId) (path : NodeId → List (Letter × ℤ)) (x y : NodeId) :
    PathTree.rank (live.erase x) path y ≤ PathTree.rank live path y :=
  Finset.card_le_card (Finset.filter_subset_filter _ (Finset.erase_subset _ _))

/-- The inner loop of `release_radix_session`. -/
theorem releaseUpward_spec (sid : String) {fuel : ℕ} (n : NodeId) (freed : ℕ)
    (I : Inv P X held) (hpos : 0 < fuel)
    (hfuel : n ∈ X.live → PathTree.rank X.live X.path n < fuel) :
    ∃ k Y, releaseUpward P sid fuel X.cache n freed = .ok (k, Y.cache) ∧ ReleaseSteps P X Y ∧
      freed ≤ k ∧ (k = freed → Retagged X Y.cache) := by
  induction fuel generalizing X n freed with
  | zero => omega
  | succ fuel ih =>
    have hretag := dropHolder_retagged X sid n
    set X' : Tree Digest A := { X with cache := X.cache.dropHolder sid n } with hX'
    have I' : Inv P X' held := hretag.inv I
    have hfirst : ReleaseSteps P X X' := Relation.ReflTransGen.single (.retag hretag)
    rw [releaseUpward]
    change ∃ k Y, (if X'.cache.Retained n then _ else _) = _ ∧ _
    by_cases hret : X'.cache.Retained n
    · rw [if_pos hret]
      exact ⟨freed, X', rfl, hfirst, le_rfl, fun _ => hretag⟩
    · rw [if_neg hret]
      have hleaves : n ∈ X'.cache.evictableLeaves := by
        by_contra hnot
        exact hret (Or.inr (Or.inr (Or.inr (Or.inl hnot))))
      obtain ⟨hleaf, hlock⟩ := leaf_of_mem I' hleaves
      have hn := Tree.mem_inner.mp hleaf.mem
      have hrank := I'.shape.tree.rank_parent_lt hn.1 hn.2
      have hfuel' := hfuel hn.1
      change PathTree.rank X'.live X'.path n < fuel + 1 at hfuel'
      have herase := rank_erase_le X'.live X'.path n (X'.cache.parentOf n)
      obtain ⟨k, Y, hloop, hsteps, hle, -⟩ := ih (X'.cache.parentOf n)
        (freed + 1) (hleaf.inv_freed I' hlock) (by omega) fun _ => by
          change PathTree.rank (X'.live.erase n) X'.path (X'.cache.parentOf n) < fuel
          omega
      refine ⟨k, Y, ?_, hfirst.trans (Relation.ReflTransGen.head (.free hleaf hlock) hsteps),
        by omega, fun heq => absurd hle (by omega)⟩
      have hparent : ((X.cache.dropHolder sid n).node n).parent = _ :=
        I'.shape.parent_some hleaf.mem
      rw [hparent]
      simp only
      change (X'.cache.freeLeaf P n >>= _) = _
      rw [hleaf.freeLeaf_eq I'.shape]
      exact hloop

theorem releaseLeaves_spec (sid : String) (leaves : List NodeId) (freed : ℕ) (I : Inv P X held) :
    ∃ k Y, releaseLeaves P sid leaves X.cache freed = .ok (k, Y.cache) ∧ ReleaseSteps P X Y ∧
      freed ≤ k ∧ (k = freed → Retagged X Y.cache) := by
  induction leaves generalizing X freed with
  | nil => exact ⟨freed, X, rfl, Relation.ReflTransGen.refl, le_rfl, fun _ => rfl⟩
  | cons leaf rest ih =>
    rw [releaseLeaves]
    by_cases hmem : sid ∈ (X.cache.node leaf).sessionIds
    · rw [if_pos hmem]
      obtain ⟨k, Y, hup, hsteps, hle, htag⟩ := releaseUpward_spec sid leaf freed I
        (Nat.succ_pos X.cache.counter) fun _ => rank_lt_fuel I.shape leaf
      obtain ⟨k', Z, hrest, hsteps', hle', htag'⟩ := ih k (hsteps.inv I)
      refine ⟨k', Z, ?_, hsteps.trans hsteps', hle.trans hle', fun heq =>
        (htag (by omega)).trans (htag' (by omega))⟩
      simp only [hup, bind, Except.bind]
      exact hrest
    · rw [if_neg hmem]
      exact ih freed I

theorem releaseRadixSession_spec (order : Finset NodeId → List NodeId) (sid : String)
    (I : Inv P X held) : ∃ k Y, X.cache.releaseRadixSession P order sid = .ok (k, Y.cache) ∧
      ReleaseSteps P X Y ∧ (k = 0 → Retagged X Y.cache) := by
  unfold releaseRadixSession rememberClosedSession
  generalize rememberClosed X.cache.closedSessionIds sid = closed
  have hretag : Retagged X { X.cache with
    closedSessionIds := closed
    sessionLeaves := Function.update X.cache.sessionLeaves sid ∅ } := rfl
  obtain ⟨k, Y, hloop, hsteps, -, htag⟩ :=
    releaseLeaves_spec sid (order (X.cache.sessionLeaves sid)) 0 (hretag.inv I)
  exact ⟨k, Y, hloop, Relation.ReflTransGen.head (.retag hretag) hsteps,
    fun hk => Retagged.trans hretag (htag hk)⟩

theorem tagNode_retagged (X : Tree Digest A) (sid : String) (n : NodeId) :
    Retagged X (X.cache.tagNode sid n) := by
  rw [tagNode]
  split
  · rfl
  · exact retagged_setNode X n _ _

end Sglang.Radix
