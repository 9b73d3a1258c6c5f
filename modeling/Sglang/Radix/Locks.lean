import Sglang.Radix.Accounts

/-!
# Taking and releasing locks

`inc_lock_ref` and `dec_lock_ref` walk from a node to the root and change every
lock on the way by one.
-/

namespace Sglang.Radix

open Sglang.Support RadixKey Function RadixCache

variable {Digest A : Type} {P : RadixParams Digest A} {X : Tree Digest A}
  {T : RadixCache Digest A} {held : Multiset NodeId} {n m : NodeId} {δ : ℤ}

/-! ## One node -/

namespace RadixCache

/-- A node whose lock changed by `δ`. -/
def relocked (T : RadixCache Digest A) (n : NodeId) (δ : ℤ) : TreeNode Digest :=
  { T.node n with lockRef := (T.node n).lockRef + δ }

/-- The lock of `n` changes by `δ`, and the counters by what moved between them. -/
def relock (T : RadixCache Digest A) (δ : ℤ) (n : NodeId) : RadixCache Digest A :=
  ({ T.setNode n (T.relocked n δ) with
      evictableSize := T.evictableSize + ((T.relocked n δ).evictableLen - (T.node n).evictableLen)
      protectedSize := T.protectedSize + ((T.relocked n δ).protectedLen - (T.node n).protectedLen)
    }).updateLeafStatus n

theorem incLockNode_eq (h : 0 ≤ (T.node n).lockRef) : T.incLockNode n = T.relock 1 n := by
  have hne : (T.node n).lockRef + 1 ≠ 0 := by omega
  unfold incLockNode relock
  by_cases hzero : (T.node n).lockRef = 0
  · simp [setNode, relocked, TreeNode.evictableLen, TreeNode.protectedLen, hzero, sub_eq_add_neg]
  · simp [setNode, relocked, TreeNode.evictableLen, TreeNode.protectedLen, hzero, hne]

theorem decLockNode_eq (h : 0 ≤ (T.node n).lockRef + -1) : T.decLockNode n = T.relock (-1) n := by
  have hne : (T.node n).lockRef ≠ 0 := by omega
  unfold decLockNode relock
  by_cases hone : (T.node n).lockRef = 1
  · simp [setNode, relocked, TreeNode.evictableLen, TreeNode.protectedLen, hone, sub_eq_add_neg]
  · have hne' : (T.node n).lockRef + -1 ≠ 0 := by omega
    simp [setNode, relocked, TreeNode.evictableLen, TreeNode.protectedLen, hone, hne, hne',
      sub_eq_add_neg]

theorem relock_eq (T : RadixCache Digest A) (δ : ℤ) (n : NodeId) : ∃ size size' leaves,
    T.relock δ n = { T with
      node := update T.node n (T.relocked n δ)
      evictableSize := size
      protectedSize := size'
      evictableLeaves := leaves } :=
  ⟨_, _, _, updateLeafStatus_eq _ n⟩

theorem relock_node (T : RadixCache Digest A) (δ : ℤ) (n : NodeId) :
    (T.relock δ n).node = update T.node n (T.relocked n δ) := by
  rw [relock, updateLeafStatus_eq]
  rfl

end RadixCache

theorem agree_relock (X : Tree Digest A) (δ : ℤ) (n : NodeId) : Agree X (X.cache.relock δ n) := by
  obtain ⟨size, size', leaves, h⟩ := X.cache.relock_eq δ n
  simp only [Agree, h, reshape]
  congr 1
  funext m
  by_cases hm : m = n
  · rw [hm, update_self]
    rfl
  · rw [update_of_ne hm]

theorem sum_relock {f : TreeNode Digest → ℤ} (hn : n ∈ X.inner) :
    ∑ m ∈ X.inner, f ((X.cache.relock δ n).node m) = ∑ m ∈ X.inner, f (X.cache.node m) +
      (f (X.cache.relocked n δ) - f (X.cache.node n)) := by
  rw [relock_node, sum_change (f := fun m => f (X.cache.node m)) hn fun m _ hmn => by
    rw [update_of_ne hmn], update_self]

theorem accounts_relock (S : Shape P X) (C : Accounts X) (hn : n ∈ X.inner)
    (hlock : 0 ≤ (X.cache.node n).lockRef + δ) :
    Accounts { X with cache := X.cache.relock δ n } := by
  have hagree := agree_relock X δ n
  have hself : (X.cache.relock δ n).node n = X.cache.relocked n δ := by
    rw [relock_node, update_self]
  refine ⟨?_, ?_, ?_⟩
  · rw [hagree.inner_eq, sum_relock hn, ← C.evictable_eq]
    simp [relock]
  · rw [hagree.inner_eq, sum_relock hn, ← C.protected_eq]
    simp [relock]
  · intro m
    rw [hagree.inner_eq]
    change m ∈ (X.cache.relock δ n).evictableLeaves ↔ _
    conv_lhs => rw [relock]
    rw [mem_updateLeafStatus (hagree.shape S) (by rw [relock_node]; rfl)
      (Tree.mem_inner.mp hn).1 (by simp only [hself]; exact hlock)]
    by_cases hmn : m = n
    · rw [if_pos hmn, hmn]
      exact (and_iff_right hn).symm
    · rw [if_neg hmn, relock_node, update_of_ne hmn]
      exact C.mem_leaves m

/-! ## The walk to the root -/

/-- The cache of `X` with every lock from `n` up to the root changed by `δ` and the counters
of `T`. -/
def RadixCache.lift (T : RadixCache Digest A) (X : Tree Digest A) (n : NodeId) (δ : ℤ) :
    RadixCache Digest A :=
  { X.cache with
    node := fun m => { X.cache.node m with lockRef :=
      (X.cache.node m).lockRef + if m ∈ X.inner ∧ X.path m <+: X.path n then δ else 0 }
    evictableSize := T.evictableSize
    protectedSize := T.protectedSize
    evictableLeaves := T.evictableLeaves }

/-- Every lock from `n` up to the root changed by `δ`. -/
abbrev Lifted (X : Tree Digest A) (n : NodeId) (δ : ℤ) (T : RadixCache Digest A) : Prop :=
  T = T.lift X n δ

theorem Lifted.agree (h : Lifted X n δ T) : Agree X T := by
  rw [Agree, h]
  rfl

theorem Lifted.refl (S : Shape P X) : Lifted X X.cache.rootNode δ X.cache := by
  have hnode : X.cache.node = (X.cache.lift X X.cache.rootNode δ).node := by
    funext m
    simp only [lift]
    rw [if_neg, add_zero]
    rintro ⟨hm, hpre⟩
    rw [S.tree.path_root, List.prefix_nil] at hpre
    have := S.tree.eq_root_of_path_nil (mem_live hm) (by rw [hpre]; rfl)
    exact (Tree.mem_inner.mp hm).2 this
  exact congrArg (fun node => { X.cache with node := node }) hnode

/-- The nodes above `n` are `n` and those above its parent. -/
theorem Lifted.trans (S : Shape P X) (hn : n ∈ X.inner)
    (h : Lifted { X with cache := X.cache.relock δ n } (X.cache.parentOf n) δ T) :
    Lifted X n δ T := by
  have hn' := Tree.mem_inner.mp hn
  have hinner := (agree_relock X δ n).inner_eq
  obtain ⟨size, size', leaves, heq⟩ := X.cache.relock_eq δ n
  refine Eq.trans h ?_
  simp only [lift, hinner]
  simp only [heq]
  congr 1
  funext m
  by_cases hmn : m = n
  · subst hmn
    have hlt := S.tree.length_parent_lt hn'.1 hn'.2
    rw [update_self, if_neg fun hc => absurd hc.2.length_le (not_le.mpr hlt),
      if_pos ⟨hn, List.prefix_rfl⟩, add_zero]
    rfl
  · have hiff : (m ∈ X.inner ∧ X.path m <+: X.path (X.cache.parentOf n)) ↔
        (m ∈ X.inner ∧ X.path m <+: X.path n) := by
      refine and_congr_right fun hm => ?_
      rw [S.tree.prefix_iff_parent (mem_live hm) hn'.1 hn'.2, or_iff_right hmn]
    simp only [update_of_ne hmn, hiff]

/-- The loop of `inc_lock_ref` and `dec_lock_ref`. -/
theorem upward_spec {body : RadixCache Digest A → NodeId → RadixCache Digest A}
    (hbody : ∀ T n, 0 ≤ (T.node n).lockRef → 0 ≤ (T.node n).lockRef + δ → body T n = T.relock δ n)
    {fuel : ℕ} (S : Shape P X) (hn : n ∈ X.live) (hlock : ∀ m ∈ X.inner, X.path m <+: X.path n →
      0 ≤ (X.cache.node m).lockRef ∧ 0 ≤ (X.cache.node m).lockRef + δ)
    (hfuel : PathTree.rank X.live X.path n < fuel) :
    ∃ T, upward body fuel X.cache n = .ok T ∧ Lifted X n δ T ∧
      (Accounts X → Accounts { X with cache := T }) := by
  induction fuel generalizing X n with
  | zero => omega
  | succ fuel ih =>
    rw [upward]
    by_cases hr : n = X.cache.rootNode
    · rw [if_pos hr]
      exact ⟨X.cache, rfl, hr ▸ Lifted.refl S, id⟩
    · have hin : n ∈ X.inner := Tree.mem_inner.mpr ⟨hn, hr⟩
      rw [if_neg hr, S.parent_some hin]
      obtain ⟨hnonneg, hnonneg'⟩ := hlock n hin List.prefix_rfl
      simp only [hbody _ _ hnonneg hnonneg']
      have hagree := agree_relock X δ n
      have hrank := S.tree.rank_parent_lt hn hr
      have habove : ∀ m ∈ X.inner, X.path m <+: X.path (X.cache.parentOf n) →
          0 ≤ ((X.cache.relock δ n).node m).lockRef ∧
            0 ≤ ((X.cache.relock δ n).node m).lockRef + δ := by
        intro m hm hpre
        have hlt := S.tree.length_parent_lt hn hr
        have hmn : m ≠ n := by
          rintro rfl
          exact absurd hpre.length_le (not_le.mpr hlt)
        rw [relock_node, update_of_ne hmn]
        exact hlock m hm (hpre.trans (S.tree.prefix_of_parent hn hr))
      obtain ⟨T, hT, hlift, hacc⟩ := ih
        (hagree.shape S) (S.parent_mem hin) (hagree.inner_eq ▸ habove)
        (by simp only; omega)
      exact ⟨T, hT, hlift.trans S hin, fun C => hacc (accounts_relock S C hin hnonneg')⟩

theorem rank_lt_fuel (S : Shape P X) (n : NodeId) :
    PathTree.rank X.live X.path n < X.cache.counter + 1 := by
  refine Nat.lt_succ_of_le ((PathTree.rank_le_card _ _ _).trans ?_)
  rw [← Finset.card_range X.cache.counter]
  exact Finset.card_le_card fun m hm => Finset.mem_range.mpr (S.fresh hm)

/-! ## Holders -/

theorem Lifted.locked {held' : Multiset NodeId} (h : Lifted X n δ T) (L : Locked X held)
    (hlive : ∀ m ∈ held', m ∈ X.live)
    (hcount : ∀ m, (held'.countP fun x => X.path m <+: X.path x : ℕ) =
      (held.countP fun x => X.path m <+: X.path x : ℕ) +
        if X.path m <+: X.path n then δ else 0) :
    Locked { X with cache := T } held' := by
  refine ⟨hlive, fun m hm => ?_, ?_⟩
  · rw [h.agree.inner_eq] at hm
    rw [hcount, ← L.lock_eq m hm, h]
    simp [lift, hm]
  · rw [h]
    change (X.cache.node X.cache.rootNode).lockRef + _ = 1
    rw [if_neg fun hc => (Tree.mem_inner.mp hc.1).2 rfl, add_zero]
    exact L.root_lock

theorem incLockRef_spec (S : Shape P X) (L : Locked X held) (hn : n ∈ X.live) :
    ∃ T, X.cache.incLockRef n = .ok T ∧ Lifted X n 1 T ∧
      Locked { X with cache := T } (n ::ₘ held) ∧
      (Accounts X → Accounts { X with cache := T }) := by
  obtain ⟨T, hT, hlift, hacc⟩ := upward_spec
    (fun T n h _ => incLockNode_eq h) S hn
    (fun m hm _ => by
      have := L.lock_nonneg (mem_live hm)
      exact ⟨this, by omega⟩) (rank_lt_fuel S n)
  refine ⟨T, hT, hlift, hlift.locked L (fun m hm => ?_) fun m => ?_, hacc⟩
  · rcases Multiset.mem_cons.mp hm with rfl | hm
    · exact hn
    · exact L.held_live m hm
  · rw [Multiset.countP_cons]
    split <;> simp

theorem decLockRef_spec (S : Shape P X) (L : Locked X (n ::ₘ held)) :
    ∃ T, X.cache.decLockRef n = .ok T ∧ Lifted X n (-1) T ∧
      Locked { X with cache := T } held ∧ (Accounts X → Accounts { X with cache := T }) := by
  have hmem : n ∈ n ::ₘ held := Multiset.mem_cons_self _ _
  obtain ⟨T, hT, hlift, hacc⟩ := upward_spec
    (fun T n _ h => decLockNode_eq h) S (L.held_live n hmem)
    (fun m hm hpre => by
      have := L.lock_pos hm hmem hpre
      exact ⟨by omega, by omega⟩) (rank_lt_fuel S n)
  refine ⟨T, hT, hlift, hlift.locked L (fun m hm => ?_) fun m => ?_, hacc⟩
  · exact L.held_live m (Multiset.mem_cons_of_mem hm)
  · rw [Multiset.countP_cons]
    split <;> simp

end Sglang.Radix
