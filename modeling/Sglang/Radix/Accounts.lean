import Mathlib.Algebra.BigOperators.Group.Finset.Basic
import Mathlib.Data.Multiset.Count
import Sglang.Radix.Walk

/-!
# Lock counts and size counters

`Locked` says that a node is locked once for every holder at or below it, and
`Accounts` that the running counters and the set of evictable leaves are what a
traversal of the tree would compute. Cutting an edge, attaching a leaf and unlinking one
keep both.
-/

namespace Sglang.Radix

open Sglang.Support RadixKey RadixCache Finset TreeNode

variable {Digest A : Type}

/-- `held` lists the nodes that are currently locked, with repetition. -/
structure Locked (X : Tree Digest A) (held : Multiset NodeId) : Prop where
  held_live : ∀ m ∈ held, m ∈ X.live
  lock_eq : ∀ n ∈ X.inner, (X.cache.node n).lockRef = held.countP fun m => X.path n <+: X.path m
  root_lock : (X.cache.node X.cache.rootNode).lockRef = 1

/-- The share of a node in `evictable_size_`. -/
def TreeNode.evictableLen (x : TreeNode Digest) : ℤ := if x.lockRef = 0 then x.key.len else 0

/-- The share of a node in `protected_size_`. -/
def TreeNode.protectedLen (x : TreeNode Digest) : ℤ := if x.lockRef = 0 then 0 else x.key.len

/-- The counters are what a traversal of the tree would compute. -/
structure Accounts (X : Tree Digest A) : Prop where
  evictable_eq : X.cache.evictableSize = ∑ n ∈ X.inner, (X.cache.node n).evictableLen
  protected_eq : X.cache.protectedSize = ∑ n ∈ X.inner, (X.cache.node n).protectedLen
  mem_leaves : ∀ n, n ∈ X.cache.evictableLeaves ↔
    n ∈ X.inner ∧ (X.cache.node n).lockRef = 0 ∧ (X.cache.node n).children.entries = []

/-- A sum whose terms change at one index only. -/
theorem sum_change {s : Finset NodeId} {f g : NodeId → ℤ} {c : NodeId} (hc : c ∈ s)
    (h : ∀ n ∈ s, n ≠ c → g n = f n) : ∑ n ∈ s, g n = ∑ n ∈ s, f n + (g c - f c) := by
  rw [← add_sum_erase s g hc, ← add_sum_erase s f hc,
    sum_congr rfl fun n hn => h n (mem_of_mem_erase hn) (ne_of_mem_erase hn)]
  ring

variable {P : RadixParams Digest A} {X : Tree Digest A} {held : Multiset NodeId} {n m c : NodeId}

theorem Locked.lock_nonneg (L : Locked X held) (hn : n ∈ X.live) :
    0 ≤ (X.cache.node n).lockRef := by
  by_cases hr : n = X.cache.rootNode
  · rw [hr, L.root_lock]
    exact zero_le_one
  · rw [L.lock_eq n (Tree.mem_inner.mpr ⟨hn, hr⟩)]
    exact Int.natCast_nonneg _

/-- A node without locks has no holder at or below it. -/
theorem Locked.not_prefix_of_unlocked (L : Locked X held) (hn : n ∈ X.inner)
    (h : (X.cache.node n).lockRef = 0) (hm : m ∈ held) : ¬X.path n <+: X.path m := by
  intro hpre
  rw [L.lock_eq n hn, Int.natCast_eq_zero] at h
  exact (Multiset.countP_eq_zero.mp h) m hm hpre

/-- A held node is locked, and so is everything above it. -/
theorem Locked.lock_pos (L : Locked X held) (hn : n ∈ X.inner) (hm : m ∈ held)
    (hpre : X.path n <+: X.path m) : 0 < (X.cache.node n).lockRef := by
  rw [L.lock_eq n hn]
  exact Int.natCast_pos.mpr (Multiset.countP_pos_of_mem hm hpre)

/-! ## Leaf status -/

/-- `_update_leaf_status` decides the membership of one node. -/
theorem mem_updateLeafStatus {T : RadixCache Digest A} (S : Shape P X)
    (hnode : T.node = X.cache.node) (hn : n ∈ X.live) (hlock : 0 ≤ (X.cache.node n).lockRef) :
    m ∈ (T.updateLeafStatus n).evictableLeaves ↔
      if m = n then (X.cache.node n).lockRef = 0 ∧ (X.cache.node n).children.entries = []
      else m ∈ T.evictableLeaves := by
  have hchild : T.hasResidentChild n = X.cache.hasResidentChild n := by
    unfold hasResidentChild
    rw [hnode]
  have hiff := S.hasResidentChild_iff hn
  rw [updateLeafStatus, hnode, S.resident hn, Bool.false_or, hchild]
  by_cases hm : m = n
  · rw [if_pos hm, hm]
    by_cases hpos : (X.cache.node n).lockRef > 0
    · rw [if_pos (decide_eq_true hpos)]
      exact iff_of_false (notMem_erase _ _) fun h => hpos.ne' h.1
    · have hzero : (X.cache.node n).lockRef = 0 := le_antisymm (not_lt.mp hpos) hlock
      rw [if_neg (by simpa using hpos)]
      by_cases hres : X.cache.hasResidentChild n = true
      · rw [if_pos hres]
        exact iff_of_false (notMem_erase _ _) fun h => hiff.mp hres h.2
      · rw [if_neg hres]
        exact iff_of_true (mem_insert_self _ _) ⟨hzero, not_not.mp fun h => hres (hiff.mpr h)⟩
  · rw [if_neg hm]
    split
    · simp [hm]
    · split <;> simp [hm]

/-! ## Cutting an edge -/

namespace Cut

variable {k : ℕ}

theorem locked (h : Cut P X c k) (S : Shape P X) (L : Locked X held) :
    Locked (X.cut P c k) held := by
  have hc := Tree.mem_inner.mp h.mem
  have hheld : ∀ m ∈ held, (X.cut P c k).path m = X.path m :=
    fun m hm => path_kept S (L.held_live m hm)
  refine ⟨fun m hm => mem_insert_of_mem (L.held_live m hm), ?_, ?_⟩
  · intro n hn
    rcases (mem_inner_iff S).mp hn with rfl | hn
    · -- the upper part is above exactly what the edge was above
      rw [h.node_new S, L.lock_eq c h.mem, path_new]
      congr 1
      refine Multiset.countP_congr rfl fun m hm => ?_
      rw [hheld m hm]
      exact propext (S.tree.prefix_split_iff hc.1 hc.2 h.dvd h.pos
        (by rw [S.length_entries h.mem]; exact h.lt) (L.held_live m hm)).symm
    · have hlock : ((X.cut P c k).cache.node n).lockRef = (X.cache.node n).lockRef := by
        by_cases hnc : n = c
        · rw [hnc, h.node_cut S]
        · rw [node_kept S (mem_live hn) hnc]
      rw [hlock, L.lock_eq n hn, path_kept S (mem_live hn)]
      congr 1
      exact Multiset.countP_congr rfl fun m hm => by rw [hheld m hm]
  · rw [root_eq, node_kept S S.root_mem (fun heq => hc.2 heq.symm)]
    exact L.root_lock

theorem counter_notMem_inner (S : Shape P X) : X.cache.counter ∉ X.inner :=
  fun hmem => S.counter_notMem (mem_live hmem)

theorem inner_eq (S : Shape P X) : (X.cut P c k).inner = insert X.cache.counter X.inner := by
  ext n
  rw [mem_inner_iff S, mem_insert]

/-- What the two parts of a cut edge share between them sums up as before. -/
theorem sum_inner {M : Type*} [AddCommMonoid M] (h : Cut P X c k) (S : Shape P X)
    {f g : NodeId → M} (hparts : g X.cache.counter + g c = f c)
    (hkept : ∀ n ∈ X.inner, n ≠ c → g n = f n) :
    ∑ n ∈ (X.cut P c k).inner, g n = ∑ n ∈ X.inner, f n := by
  rw [inner_eq S, sum_insert (counter_notMem_inner S), ← add_sum_erase _ g h.mem,
    ← add_sum_erase _ f h.mem, ← add_assoc, hparts]
  congr 1
  exact sum_congr rfl fun n hn => hkept n (mem_of_mem_erase hn) (ne_of_mem_erase hn)

/-- A share of the tree that depends on the lock and is additive in the key
length is the same after a cut. -/
theorem sum_eq (h : Cut P X c k) (S : Shape P X) (f : ℤ → ℕ → ℤ)
    (hf : ∀ l a b, f l (a + b) = f l a + f l b) :
    ∑ n ∈ (X.cut P c k).inner, f ((X.cut P c k).cache.node n).lockRef
        ((X.cut P c k).cache.node n).key.len =
      ∑ n ∈ X.inner, f (X.cache.node n).lockRef (X.cache.node n).key.len := by
  refine h.sum_inner S ?_ fun n hn hnc => ?_
  · have hsplit := hf (X.cache.node c).lockRef k ((X.cache.node c).key.len - k)
    rw [Nat.add_sub_cancel' h.lt.le] at hsplit
    rw [h.node_new S, h.node_cut S, len_upto _ h.lt.le, len_since _ h.lt.le, hsplit]
  · rw [node_kept S (mem_live hn) hnc]

theorem accounts (h : Cut P X c k) (S : Shape P X) (C : Accounts X) : Accounts (X.cut P c k) := by
  have hc := Tree.mem_inner.mp h.mem
  refine ⟨?_, ?_, ?_⟩
  · refine C.evictable_eq.trans (h.sum_eq S (fun l a => if l = 0 then (a : ℤ) else 0) ?_).symm
    intro l a b
    split
    · exact Nat.cast_add a b
    · rfl
  · refine C.protected_eq.trans (h.sum_eq S (fun l a => if l = 0 then 0 else (a : ℤ)) ?_).symm
    intro l a b
    split
    · rfl
    · exact Nat.cast_add a b
  · intro n
    change n ∈ X.cache.evictableLeaves ↔ _
    rw [C.mem_leaves, mem_inner_iff S]
    have SY := h.shape S
    by_cases hz : n = X.cache.counter
    · -- the new node has the cut one as its child
      rw [hz]
      refine iff_of_false (fun hn => counter_notMem_inner S hn.1) fun hn => ?_
      exact (SY.children_nil_iff (mem_insert_self _ _)).mp hn.2.2 c
        ((mem_inner_iff S).mpr (Or.inr h.mem)) (h.parentOf_cut S)
    · rw [or_iff_right hz]
      refine and_congr_right fun hn => ?_
      by_cases hnc : n = c
      · rw [hnc, h.node_cut S]
      · by_cases hp : n = X.cache.parentOf c
        · refine iff_of_false (fun h' => ?_) fun h' => ?_
          · exact (S.children_nil_iff (mem_live hn)).mp h'.2 c h.mem hp.symm
          · exact (SY.children_nil_iff (mem_insert_of_mem (mem_live hn))).mp
              h'.2 X.cache.counter ((mem_inner_iff S).mpr (Or.inl rfl))
              ((h.parentOf_new S).trans hp.symm)
        · rw [node_other hz hnc hp]

end Cut

/-! ## Leaves -/

namespace Leaf

theorem prefix_iff (h : Leaf X n) (S : Shape P X) (hm : m ∈ X.live) :
    X.path n <+: X.path m ↔ n = m := by
  have hn := Tree.mem_inner.mp h.mem
  refine ⟨fun hpre => ?_, fun heq => heq ▸ List.prefix_rfl⟩
  rcases hpre.length_le.lt_or_eq with hlt | hlen
  · obtain ⟨d, hd, hdr, hdp, _⟩ := S.tree.child_of_prefix_keys hn.1 hm (hpre.map _) hlt
    exact absurd hdp (h.parentOf_ne S (Tree.mem_inner.mpr ⟨hd, hdr⟩))
  · apply S.tree.eq_of_keys hn.1 hm
    rw [hpre.eq_of_length hlen]

theorem locked (h : Leaf X n) (S : Shape P X) (L : Locked X held)
    (hlock : (X.cache.node n).lockRef = 0) : Locked (X.prune P n) held := by
  have hne : ∀ m ∈ held, m ≠ n := by
    rintro m hm rfl
    exact L.not_prefix_of_unlocked h.mem hlock hm List.prefix_rfl
  refine ⟨fun m hm => mem_erase.mpr ⟨hne m hm, L.held_live m hm⟩, ?_, ?_⟩
  · intro m hm
    obtain ⟨hm, hmn⟩ := mem_inner_iff.mp hm
    rw [h.node_kept S hmn]
    exact L.lock_eq m hm
  · rw [root_eq, h.node_kept S (fun heq => (Tree.mem_inner.mp h.mem).2 heq.symm)]
    exact L.root_lock

theorem inner_eq : (X.prune P n).inner = X.inner.erase n := by
  ext m
  rw [mem_inner_iff, mem_erase, and_comm]

theorem sum_inner {M : Type*} [AddCommMonoid M] (h : Leaf X n) {f g : NodeId → M}
    (hkept : ∀ m ∈ X.inner, m ≠ n → g m = f m) :
    ∑ m ∈ X.inner, f m = f n + ∑ m ∈ (X.prune P n).inner, g m := by
  rw [inner_eq, ← add_sum_erase _ f h.mem]
  congr 1
  exact sum_congr rfl fun m hm => (hkept m (mem_of_mem_erase hm) (ne_of_mem_erase hm)).symm

/-- The counters after unlinking an unlocked leaf. -/
theorem accounts (h : Leaf X n) (S : Shape P X) (L : Locked X held) (C : Accounts X)
    (hlock : (X.cache.node n).lockRef = 0) : Accounts (X.prune P n) := by
  have hsum : ∀ f : TreeNode Digest → ℤ, (∀ x kids, f { x with children := kids } = f x) →
      ∑ m ∈ (X.prune P n).inner, f ((X.prune P n).cache.node m) =
        ∑ m ∈ X.inner, f (X.cache.node m) - f (X.cache.node n) := by
    intro f hf
    have hkept : ∀ m ∈ X.inner, m ≠ n →
        f ((X.prune P n).cache.node m) = f (X.cache.node m) := by
      intro m _ hm
      rw [h.node_kept S hm]
      exact hf _ _
    rw [h.sum_inner hkept, add_sub_cancel_left]
  refine ⟨?_, ?_, ?_⟩
  · rw [hsum evictableLen fun _ _ => rfl, ← C.evictable_eq,
      evictableLen, if_pos hlock]
    simp [Tree.prune, unlink]
  · rw [hsum protectedLen fun _ _ => rfl, ← C.protected_eq,
      protectedLen, if_pos hlock, sub_zero]
    simp [Tree.prune, unlink, discardSessionLeaf, setNode]
  · intro m
    have SY := h.shape S
    have LY := h.locked S L hlock
    have hp := h.parent_live S
    change m ∈ (X.cache.unlink P n (X.cache.parentOf n)).evictableLeaves ↔ _
    rw [unlink, mem_updateLeafStatus SY ?_ hp (LY.lock_nonneg hp)]
    · by_cases hmp : m = X.cache.parentOf n
      · rw [if_pos hmp, hmp]
        refine ⟨fun h' => ⟨Tree.mem_inner.mpr ⟨hp, fun hr => ?_⟩, h'⟩, fun h' => h'.2⟩
        have hroot := LY.root_lock
        rw [← hr, h'.1] at hroot
        exact absurd hroot (by decide)
      · rw [if_neg hmp]
        simp only [mem_erase]
        rw [C.mem_leaves]
        by_cases hmn : m = n
        · rw [hmn]
          exact iff_of_false (fun h' => h'.1 rfl) fun h' => (mem_inner_iff.mp h'.1).2 rfl
        · have hnode : (X.prune P n).cache.node m = X.cache.node m := node_other hmn hmp
          rw [and_iff_right hmn, hnode, mem_inner_iff, and_iff_left hmn]
    · simp [Tree.prune, unlink]

end Leaf

namespace Graft

variable {p : NodeId} {key : RadixKey} {value : List ℤ}

theorem leaf (h : Graft P X p key value) (S : Shape P X) :
    Leaf (X.graft P p key value) X.cache.counter :=
  ⟨(mem_inner_iff S).mpr (Or.inl rfl), by rw [h.node_new S]; rfl⟩

theorem locked (h : Graft P X p key value) (S : Shape P X) (L : Locked X held) :
    Locked (X.graft P p key value) held := by
  have hheld : ∀ m ∈ held, (X.graft P p key value).path m = X.path m :=
    fun m hm => path_kept S (L.held_live m hm)
  refine ⟨fun m hm => mem_insert_of_mem (L.held_live m hm), ?_, ?_⟩
  · intro n hn
    rcases (mem_inner_iff S).mp hn with rfl | hn
    · -- nobody can hold the new leaf yet
      rw [h.node_new S]
      refine (Int.natCast_eq_zero.mpr (Multiset.countP_eq_zero.mpr fun m hm hpre => ?_)).symm
      have hmz := ((h.leaf S).prefix_iff (h.shape S) (mem_insert_of_mem (L.held_live m hm))).mp hpre
      exact S.counter_notMem (hmz ▸ L.held_live m hm)
    · rw [h.node_kept S (mem_live hn), path_kept S (mem_live hn)]
      refine (L.lock_eq n hn).trans ?_
      congr 1
      exact Multiset.countP_congr rfl fun m hm => by rw [hheld m hm]
  · rw [root_eq, h.node_kept S S.root_mem]
    exact L.root_lock

theorem inner_eq (S : Shape P X) :
    (X.graft P p key value).inner = insert X.cache.counter X.inner := by
  ext n
  rw [mem_inner_iff S, mem_insert]

theorem sum_inner {M : Type*} [AddCommMonoid M] (S : Shape P X) {f g : NodeId → M}
    (hkept : ∀ n ∈ X.inner, g n = f n) :
    ∑ n ∈ (X.graft P p key value).inner, g n = g X.cache.counter + ∑ n ∈ X.inner, f n := by
  rw [inner_eq S, sum_insert (Cut.counter_notMem_inner S)]
  congr 1
  exact sum_congr rfl hkept

theorem accounts (h : Graft P X p key value) (S : Shape P X) (L : Locked X held)
    (C : Accounts X) : Accounts (X.graft P p key value) := by
  have SY := h.shape S
  have LY := h.locked S L
  have hsum : ∀ f : TreeNode Digest → ℤ, (∀ x kids, f { x with children := kids } = f x) →
      ∑ m ∈ (X.graft P p key value).inner, f ((X.graft P p key value).cache.node m) =
        f ((X.graft P p key value).cache.node X.cache.counter) +
          ∑ m ∈ X.inner, f (X.cache.node m) := by
    intro f hf
    refine sum_inner S fun m hm => ?_
    rw [h.node_kept S (mem_live hm)]
    exact hf _ _
  refine ⟨?_, ?_, ?_⟩
  · rw [hsum evictableLen fun _ _ => rfl, ← C.evictable_eq,
      h.node_new S, evictableLen, if_pos rfl]
    simp [Tree.graft, attachLeaf, add_comm]
  · rw [hsum protectedLen fun _ _ => rfl, ← C.protected_eq,
      h.node_new S, protectedLen, if_pos rfl, zero_add]
    simp [Tree.graft, attachLeaf, setNode]
  · intro m
    have hz : X.cache.counter ∈ (X.graft P p key value).live := mem_insert_self _ _
    have hp : p ∈ (X.graft P p key value).live := mem_insert_of_mem h.mem
    change m ∈ (X.cache.attachLeaf P p key value).evictableLeaves ↔ _
    rw [attachLeaf, mem_updateLeafStatus SY ?_ hz (LY.lock_nonneg hz)]
    · by_cases hmz : m = X.cache.counter
      · rw [if_pos hmz, hmz]
        exact (and_iff_right ((mem_inner_iff S).mpr (Or.inl rfl))).symm
      · rw [if_neg hmz, mem_updateLeafStatus SY ?_ hp (LY.lock_nonneg hp)]
        · by_cases hmp : m = p
          · rw [if_pos hmp, hmp]
            -- the place of the new leaf is not childless any more
            have hne : ((X.graft P p key value).cache.node p).children.entries ≠ [] := fun hnil =>
              (SY.children_nil_iff hp).mp hnil X.cache.counter
                ((mem_inner_iff S).mpr (Or.inl rfl)) (h.parentOf_new S)
            exact iff_of_false (fun h' => hne h'.2) fun h' => hne h'.2.2
          · rw [if_neg hmp, node_other hmz hmp, mem_inner_iff S, or_iff_right hmz]
            exact C.mem_leaves m
        · simp [Tree.graft, attachLeaf]
    · simp [Tree.graft, attachLeaf]

end Graft

/-! ## Bookkeeping -/

/-- The cache `T` on the tree, the locks and the counters of `X`. -/
def RadixCache.recount (T X : RadixCache Digest A) : RadixCache Digest A :=
  { X with
    node := fun n => { X.node n with
      hashValue := (T.node n).hashValue
      sessionIds := (T.node n).sessionIds }
    sessionLeaves := T.sessionLeaves
    closedSessionIds := T.closedSessionIds
    kvEventQueue := T.kvEventQueue
    allocator := T.allocator }

/-- The heaps agree on the tree, the locks and the counters. -/
abbrev Same (X : Tree Digest A) (T : RadixCache Digest A) : Prop := T = T.recount X.cache

namespace Same

variable {T : RadixCache Digest A}

theorem agree (h : Same X T) : Agree X T := by
  rw [Agree, h]
  rfl

theorem locked (h : Same X T) (L : Locked X held) : Locked { X with cache := T } held := by
  rw [h]
  exact ⟨L.held_live, L.lock_eq, L.root_lock⟩

theorem accounts (h : Same X T) (C : Accounts X) : Accounts { X with cache := T } := by
  rw [h]
  exact ⟨C.evictable_eq, C.protected_eq, C.mem_leaves⟩

end Same

/-- Setting the hashes of one node leaves tree, locks and counters alone. -/
theorem same_setNode (X : Tree Digest A) (n : NodeId) (hashValue : Option (List Digest))
    (queue : List KVEvent) : Same X
      { X.cache.setNode n { X.cache.node n with hashValue := hashValue } with
        kvEventQueue := queue } := by
  simp only [Same, recount, setNode]
  congr 1
  funext m
  by_cases hm : m = n
  · rw [hm, Function.update_self]
  · rw [Function.update_of_ne hm]

end Sglang.Radix
