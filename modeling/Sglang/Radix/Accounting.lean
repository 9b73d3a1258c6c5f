import Mathlib.Algebra.BigOperators.Ring.Finset
import Mathlib.Algebra.Order.BigOperators.Group.Finset
import Mathlib.Data.Finset.Max
import Sglang.Radix.Run

/-!
# Accounting over whole runs

In every state a run reaches, the size counters, the set of evictable leaves and
the lock counts agree with the tree.
-/

namespace Sglang.Radix

open Sglang.Support RadixKey RadixCache

variable {Digest A : Type}

variable {P : RadixParams Digest A} {X : Tree Digest A} {held : Multiset NodeId} {n : NodeId}

/-! ## Locks of siblings -/

/-- The children of a node in dict order. -/
def TreeNode.childIds (x : TreeNode Digest) : List NodeId := x.children.entries.map fun e => e.2

theorem Shape.mem_childIds (S : Shape P X) (hn : n ∈ X.live) {c : NodeId} :
    c ∈ (X.cache.node n).childIds ↔ c ∈ X.inner ∧ X.cache.parentOf c = n := by
  rw [TreeNode.childIds, List.mem_map]
  constructor
  · rintro ⟨⟨k, c⟩, hc, rfl⟩
    have := (S.child_iff hn).mp (AList.mem_lookup_iff.mpr hc)
    exact ⟨this.1, this.2.1⟩
  · rintro ⟨hc, hp⟩
    exact ⟨⟨_, c⟩, AList.mem_lookup_iff.mp ((S.child_iff hn).mpr ⟨hc, hp, rfl⟩), rfl⟩

theorem Shape.nodup_childIds (S : Shape P X) (hn : n ∈ X.live) :
    (X.cache.node n).childIds.Nodup := by
  refine List.Nodup.map_on ?_ (X.cache.node n).children.nodupKeys.nodup
  rintro ⟨k, c⟩ hc ⟨k', c'⟩ hc' rfl
  have hk := ((S.child_iff hn).mp (AList.mem_lookup_iff.mpr hc)).2.2
  have hk' := ((S.child_iff hn).mp (AList.mem_lookup_iff.mpr hc')).2.2
  rw [← hk, ← hk']

/-- Each holder below a node is below at most one of its children. -/
theorem sum_countP_le (S : Shape P X) {s : Finset NodeId}
    (hs : ∀ c ∈ s, c ∈ X.inner ∧ X.cache.parentOf c = n) (held : Multiset NodeId) :
    ∑ c ∈ s, held.countP (fun m => X.path c <+: X.path m) ≤
      held.countP fun m => X.path n <+: X.path m := by
  induction held using Multiset.induction_on with
  | empty => simp
  | cons m held ih =>
    have hone : (∑ c ∈ s, if X.path c <+: X.path m then 1 else 0) ≤
        if X.path n <+: X.path m then 1 else 0 := by
      rw [Finset.sum_boole]
      by_cases hpre : X.path n <+: X.path m
      · rw [if_pos hpre]
        refine Nat.cast_le_one.mpr (Finset.card_le_one.mpr fun c hc d hd => ?_)
        obtain ⟨hcs, hcm⟩ := Finset.mem_filter.mp hc
        obtain ⟨hds, hdm⟩ := Finset.mem_filter.mp hd
        obtain ⟨hcin, hcp⟩ := hs c hcs
        obtain ⟨hdin, hdp⟩ := hs d hds
        exact S.tree.child_eq_of_prefixes (mem_live hcin) (Tree.mem_inner.mp hcin).2
          (mem_live hdin) (Tree.mem_inner.mp hdin).2 (hcp.trans hdp.symm) hcm hdm
      · rw [if_neg hpre, Nat.cast_id, Nat.le_zero, Finset.card_eq_zero, Finset.filter_eq_empty_iff]
        intro c hc hcm
        obtain ⟨hcin, hcp⟩ := hs c hc
        have hup := S.tree.prefix_of_parent (mem_live hcin) (Tree.mem_inner.mp hcin).2
        exact hpre ((hcp ▸ hup).trans hcm)
    simp only [Multiset.countP_cons, Finset.sum_add_distrib]
    exact Nat.add_le_add ih hone

theorem Inv.sum_children_le (I : Inv P X held) (hn : n ∈ X.inner) :
    ((X.cache.node n).childIds.map fun c => (X.cache.node c).lockRef).sum ≤
      (X.cache.node n).lockRef := by
  have hlive := mem_live hn
  have hmem : ∀ c ∈ (X.cache.node n).childIds.toFinset,
      c ∈ X.inner ∧ X.cache.parentOf c = n := fun c hc =>
    (I.shape.mem_childIds hlive).mp (List.mem_toFinset.mp hc)
  rw [← List.sum_toFinset _ (I.shape.nodup_childIds hlive),
    Finset.sum_congr rfl fun c hc => I.locked.lock_eq c (hmem c hc).1, ← Nat.cast_sum,
    I.locked.lock_eq n hn]
  exact Nat.cast_le.mpr (sum_countP_le I.shape hmem held)

/-! ## The accounting invariant -/

/-- The summaries of a cache agree with its tree, whose nodes below the root are
`nodes`. -/
structure Accounted (P : RadixParams Digest A) (T : RadixCache Digest A)
    (nodes : Finset NodeId) : Prop where
  mem_nodes : ∀ n, n ∈ nodes ↔ T.InTree n ∧ n ≠ T.rootNode
  evictable : T.evictableSize = ∑ n ∈ nodes with (T.node n).lockRef = 0, ((T.node n).key.len : ℤ)
  guarded : T.protectedSize = ∑ n ∈ nodes with (T.node n).lockRef > 0, ((T.node n).key.len : ℤ)
  leaves : ∀ n, n ∈ T.evictableLeaves ↔
    n ∈ nodes ∧ (T.node n).lockRef = 0 ∧ (T.node n).children.entries = []
  aligned : ∀ n ∈ nodes, ∃ value, (T.node n).value = some value ∧
    (T.node n).key.len = value.length ∧ P.pageSize ∣ (T.node n).key.len ∧
    0 < (T.node n).key.len
  stored : ∀ p k n, T.InTree p → (T.node p).children.lookup k = some n →
    (T.node n).key.childKey P.pageSize = k
  locks : ∀ n ∈ nodes, ((T.node n).childIds.map fun c => (T.node c).lockRef).sum ≤
    (T.node n).lockRef

theorem Inv.accounted (I : Inv P X held) : Accounted P X.cache X.inner := by
  have hlive : ∀ {n}, n ∈ X.inner → n ∈ X.live := fun hn => mem_live hn
  refine ⟨?_, ?_, ?_, I.accounts.mem_leaves, ?_, ?_, fun n hn => I.sum_children_le hn⟩
  · intro n
    rw [Tree.mem_inner, I.shape.inTree_iff]
  · rw [I.accounts.evictable_eq, Finset.sum_filter]
    rfl
  · rw [I.accounts.protected_eq, Finset.sum_filter]
    refine Finset.sum_congr rfl fun n hn => ?_
    have hnonneg := I.locked.lock_nonneg (hlive hn)
    rw [TreeNode.protectedLen]
    by_cases hzero : (X.cache.node n).lockRef = 0
    · rw [if_pos hzero, if_neg (by omega)]
    · rw [if_neg hzero, if_pos (by omega)]
  · intro n hn
    have hres := I.shape.resident (hlive hn)
    rw [TreeNode.evicted, Option.isNone_eq_false_iff, Option.isSome_iff_exists] at hres
    obtain ⟨value, hvalue⟩ := hres
    refine ⟨value, hvalue, ?_, I.shape.page_dvd hn, I.shape.len_pos hn⟩
    rw [I.shape.len_eq hn, TreeNode.indices, hvalue, Option.getD_some]
  · intro p k n hp hlook
    exact ((I.shape.child_iff (I.shape.inTree_iff.mp hp)).mp hlook).2.2

/-- In every state a run reaches, the counters, the evictable leaves, the node
lengths, the child dicts and the locks below the root are consistent, and no operation
raises. -/
theorem accounted_of_run {T : RadixCache Digest A} (h : CacheRun P T held) :
    (∃ nodes, Accounted P T nodes) ∧
      ∀ op : CacheOp, op.Legal P T held → ∃ T', op.run P T = .ok T' := by
  obtain ⟨X, rfl, I⟩ := h.inv
  refine ⟨⟨X.inner, I.accounted⟩, fun op hop => ?_⟩
  obtain ⟨Y, hY, _, _⟩ := CacheOp.spec I hop
  exact ⟨Y.cache, hY⟩

theorem accounted_twiceLocked : CacheRun plainParams twiceLocked {1, 1} ∧
    ∃ nodes, Accounted plainParams twiceLocked nodes :=
  ⟨run_twiceLocked, (accounted_of_run run_twiceLocked).1⟩

/-- The root keeps its own lock count of one and its empty key, whatever is locked
below it. -/
theorem twiceLocked_root : CacheRun plainParams twiceLocked {1, 1} ∧
    (¬∀ n, twiceLocked.InTree n → ((twiceLocked.node n).childIds.map
      fun c => (twiceLocked.node c).lockRef).sum ≤ (twiceLocked.node n).lockRef) ∧
    ¬∀ n, twiceLocked.InTree n → 0 < (twiceLocked.node n).key.len := by
  refine ⟨run_twiceLocked, fun h => ?_, fun h => ?_⟩
  · exact absurd (h twiceLocked.rootNode ⟨_, .root⟩) (by decide +kernel)
  · exact absurd (h twiceLocked.rootNode ⟨_, .root⟩) (by decide +kernel)

/-- A lock is held along a whole path from the root, so a deepest unlocked node is a leaf. -/
theorem Inv.evictableSize_eq_zero (I : Inv P X held) (h : X.cache.evictableLeaves = ∅) :
    X.cache.evictableSize = 0 := by
  rw [I.accounts.evictable_eq]
  refine Finset.sum_eq_zero fun n hn => if_neg fun hlock => ?_
  obtain ⟨m, hm, hmax⟩ := Finset.exists_max_image
    (X.inner.filter fun m => (X.cache.node m).lockRef = 0) (fun m => (X.path m).length)
    ⟨n, Finset.mem_filter.mpr ⟨hn, hlock⟩⟩
  obtain ⟨hm, hfree⟩ := Finset.mem_filter.mp hm
  refine Finset.ne_empty_of_mem ((I.accounts.mem_leaves m).mpr ⟨hm, hfree, ?_⟩) h
  refine (I.shape.children_nil_iff (mem_live hm)).mpr fun c hc hp => ?_
  obtain ⟨hlive, hroot⟩ := Tree.mem_inner.mp hc
  have hpre := I.shape.tree.prefix_of_parent hlive hroot
  have hlt := I.shape.tree.length_parent_lt hlive hroot
  rw [hp] at hpre hlt
  have hunlocked : (X.cache.node c).lockRef = 0 := by
    rw [I.locked.lock_eq c hc, Int.natCast_eq_zero, Multiset.countP_eq_zero]
    exact fun h hh hch => I.locked.not_prefix_of_unlocked hm hfree hh (hpre.trans hch)
  exact absurd (hmax c (Finset.mem_filter.mpr ⟨hc, hunlocked⟩)) (not_le.mpr hlt)

theorem Evicts.adds_up {xs : List NodeId} (h : Evicts P X xs Y) (I : Inv P X held) :
    Y.cache.evictableSize + X.slots xs = X.cache.evictableSize ∧
      ∀ n ∈ X.inner, (X.cache.node n).lockRef ≠ 0 →
        n ∈ Y.inner ∧ (Y.cache.node n).indices = (X.cache.node n).indices := by
  induction h with
  | nil => exact ⟨add_zero _, fun n hn _ => ⟨hn, rfl⟩⟩
  | @cons X Y x xs hleaf hlock hrest ih =>
    obtain ⟨hsize, hkept⟩ := ih (hleaf.inv_evictOne I hlock)
    refine ⟨?_, fun n hn hheld => ?_⟩
    · have hone : (X.evictOne P x).cache.evictableSize =
          X.cache.evictableSize - (X.cache.node x).key.len := by
        rw [Leaf.same_evictOne X x]
        simp [recount, Tree.freed, Tree.prune, unlink, discardSessionLeaf, setNode]
      have hlen : X.slots (x :: xs) = (X.cache.node x).indices.length + X.slots xs := rfl
      rw [hleaf.slots_evictOne I.shape fun _ hx => hrest.mem_inner hx, hone] at hsize
      rw [hlen, Nat.cast_add, ← I.shape.len_eq hleaf.mem]
      omega
    · have hne : n ≠ x := fun heq => hheld (heq ▸ hlock)
      have hin : n ∈ (X.evictOne P x).inner := by
        rw [Leaf.inner_evictOne]
        exact Finset.mem_erase.mpr ⟨hne, hn⟩
      have hnode := hleaf.evictOne_kept I.shape hne
      rw [← hleaf.indices_evictOne I.shape hin]
      exact hkept n hin (by rwa [hnode])

/-- `evict` reports what it takes off `evictable_size_`, leaves what is locked, and falls short
of its target only when nothing evictable is left. -/
theorem evict_reaches {T : RadixCache Digest A} (h : CacheRun P T held)
    {pick : ℕ → Finset NodeId → NodeId} (hpick : Picks pick) (numTokens : ℕ) :
    ∃ numEvicted T', T.evict P pick numTokens = .ok (numEvicted, T') ∧
      T'.evictableSize + numEvicted = T.evictableSize ∧
      (numEvicted < numTokens → T'.evictableSize = 0) ∧
      ∀ n, T.InTree n → n ≠ T.rootNode → (T.node n).lockRef ≠ 0 →
        T'.InTree n ∧ (T'.node n).indices = (T.node n).indices := by
  obtain ⟨X, rfl, I⟩ := h.inv
  obtain ⟨xs, Y, hloop, hev, hdone, -⟩ := evictLoop_spec hpick 0 I (card_inner_lt I.shape)
  have IY : Inv P Y held := (hev.keep (J := fun _ => True) I trivial fun _ _ _ => trivial).1
  obtain ⟨hsize, hkept⟩ := hev.adds_up I
  rw [Nat.zero_add] at hloop hdone
  refine ⟨_, Y.cache, hloop, hsize, fun hlt => IY.evictableSize_eq_zero (hdone hlt), ?_⟩
  intro n hn hroot hheld
  obtain ⟨hin, hindices⟩ := hkept n (Tree.mem_inner.mpr ⟨I.shape.inTree_iff.mp hn, hroot⟩) hheld
  exact ⟨IY.shape.inTree_iff.mpr (mem_live hin), hindices⟩

/-- The end of the second word is evicted, that of the first one is locked and stays. -/
theorem evict_reaches_twiceLocked : ∃ pick numEvicted T',
    twiceLocked.evict plainParams pick 5 = .ok (numEvicted, T') ∧
      T'.evictableSize + numEvicted = 1 ∧ T'.InTree 1 ∧ (T'.node 1).indices = [4] := by
  obtain ⟨numEvicted, T', hevict, hsize, -, hkept⟩ := evict_reaches run_twiceLocked picks_sup 5
  obtain ⟨hin, hindices⟩ := hkept 1
    (inTree_firstWord (by decide +kernel) (by decide +kernel))
      (by decide +kernel) (by decide +kernel)
  exact ⟨_, numEvicted, T', hevict, hsize, hin, hindices⟩

end Sglang.Radix
