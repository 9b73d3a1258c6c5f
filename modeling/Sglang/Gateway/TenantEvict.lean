import Sglang.Gateway.TenantWalk
import Mathlib.Data.Finset.Max
import Mathlib.Algebra.Order.BigOperators.Group.List

/-!
# Eviction and removal of tenants

Both peel a tenant off the tree, one node at a time, from nodes at which the tenant is a
leaf. Other tenants keep everything. An eviction ends with every counter within the
limit, a removal with no node that carries the tenant.
-/

namespace Sglang.Gateway

open Sglang.Support List Gateway.Tree
open Finset (erase_subset mem_erase mem_filter sum_subset)

variable {T T' : Tree} {live live' : Finset NodeId} {path : NodeId → List Char}
  {n m : NodeId} {tenant u : String} {maxSize : ℕ}

/-- The tenant is at the node and at none of its children. -/
structure IsLeaf (T : Tree) (live : Finset NodeId) (n : NodeId) (tenant : String) : Prop where
  mem : tenant ∈ T.tenants n
  children : ∀ c ∈ live, c ≠ rootId → T.parentOf c = n → tenant ∉ T.tenants c

theorem Shape.childHas_eq_false_iff (S : Shape T live path) (O : HashOrder Char) (hn : n ∈ live) :
    T.childHas O n tenant = false ↔
      ∀ c ∈ live, c ≠ rootId → T.parentOf c = n → tenant ∉ T.tenants c := by
  rw [← Bool.not_eq_true, S.childHas_iff O hn]
  push Not
  rfl

theorem Shape.isStillLeaf_iff (S : Shape T live path) (O : HashOrder Char) (hn : n ∈ live) :
    T.isStillLeaf O n tenant = true ↔ IsLeaf T live n tenant := by
  rw [isStillLeaf, Bool.and_eq_true, decide_eq_true_eq, Bool.not_eq_true',
    S.childHas_eq_false_iff O hn]
  exact ⟨fun h => ⟨h.1, h.2⟩, fun h => ⟨h.mem, h.children⟩⟩

/-- A tenant that carries a node is a leaf somewhere. -/
theorem Shape.exists_isLeaf (S : Shape T live path) (hn : n ∈ live)
    (hmem : tenant ∈ T.tenants n) : ∃ m ∈ live, IsLeaf T live m tenant := by
  obtain ⟨m, hm, hmax⟩ := (live.filter fun n => tenant ∈ T.tenants n).exists_max_image
    (fun n => (path n).length) ⟨n, mem_filter.mpr ⟨hn, hmem⟩⟩
  obtain ⟨hm, hmt⟩ := mem_filter.mp hm
  refine ⟨m, hm, hmt, fun c hc hr hparent hct => ?_⟩
  have hlt := S.tree.length_parent_lt hc hr
  have hle := hmax c (mem_filter.mpr ⟨hc, hct⟩)
  rw [hparent] at hlt
  omega

/-! ## Taking a tenant off a node -/

/-- The tree after a tenant was taken off a node. -/
structure Peeled (T : Tree) (live : Finset NodeId) (path : NodeId → List Char) (n : NodeId)
    (tenant : String) (T' : Tree) (live' : Finset NodeId) : Prop where
  shape : Shape T' live' path
  tenanted : Tenanted T' live'
  subset : live' ⊆ live
  kept : ∀ {m}, m ∈ live → T'.tenants m ≠ ∅ → m ∈ live'
  tenants : ∀ m, T'.tenants m = if m = n then (T.tenants n).erase tenant else T.tenants m
  label : ∀ m, T'.label m = T.label m
  parentOf : ∀ m, T'.parentOf m = T.parentOf m
  parent : ∀ m, (T'.node m).parent = (T.node m).parent
  tenantCharCount : T'.tenantCharCount = T.tenantCharCount

theorem dropTenant_spec (S : Shape T live path) (N : Tenanted T live) (hn : n ∈ live)
    (hleaf : ∀ c ∈ live, c ≠ rootId → T.parentOf c = n → tenant ∉ T.tenants c) :
    ∃ live', Peeled T live path n tenant (T.dropTenant n tenant) live' := by
  set U := T.modifyNode n fun x =>
    { x with tenantLastAccessTime := x.tenantLastAccessTime.erase tenant } with hU
  have hagree : Agree T U := Agree.modifyNode T n fun _ => rfl
  have SU := hagree.shape S
  have htenants : ∀ m, U.tenants m = if m = n then (T.tenants n).erase tenant else T.tenants m := by
    intro m
    split
    · rename_i h
      rw [h, Tree.tenants, modifyNode_self, Finmap.keys_erase]
      rfl
    · rename_i h
      rw [Tree.tenants, modifyNode_of_ne _ h, Tree.tenants]
  have hsub : ∀ m, U.tenants m ⊆ T.tenants m := by
    intro m
    rw [htenants]
    split
    · rename_i h
      rw [h]
      exact erase_subset _ _
    · exact Finset.Subset.refl _
  have hcarried : ∀ {m}, m ∈ live → m ≠ rootId → U.tenants m ⊆ U.tenants (U.parentOf m) := by
    intro m hm hr u hu
    have hmem := (N m hm hr).1 (hsub m hu)
    rw [hagree.parentOf, htenants]
    split
    · rename_i h
      refine mem_erase.mpr ⟨?_, h ▸ hmem⟩
      rintro rfl
      exact hleaf m hm hr h (hsub m hu)
    · exact hmem
  have hother : ∀ {m}, m ∈ live → m ≠ rootId → m ≠ n → U.tenants m ≠ ∅ := by
    intro m hm hr hmn
    rw [htenants, if_neg hmn]
    exact (N m hm hr).2
  unfold dropTenant
  rw [← hU]
  by_cases hcond : (U.node n).children = ∅ ∧ (U.node n).tenantLastAccessTime = ∅
  · have hempty : U.tenants n = ∅ := Dict.keys_eq_empty_iff.mpr hcond.2
    by_cases hr : n = rootId
    · have hnone : (U.node n).parent = none := by rw [hr, hagree.parent, S.root_parent]
      simp only [if_pos hcond, hnone]
      exact ⟨live, SU, fun m hm hmr => ⟨hcarried hm hmr, hother hm hmr (hr ▸ hmr)⟩,
        Finset.Subset.refl _, fun hm _ => hm, htenants, hagree.label, hagree.parentOf,
        hagree.parent, rfl⟩
    · obtain ⟨a, ha⟩ := SU.exists_head hn hr
      have hfirst : (U.node n).text.firstChar = some a := ha
      simp only [if_pos hcond, SU.parent_some hn hr, hfirst]
      set V := U.modifyNode (U.parentOf n) fun p => { p with children := p.children.erase a }
      have hkept : ∀ m, V.node m = { U.node m with children := (V.node m).children } :=
        U.node_modifyChildren _ fun d => d.erase a
      have hVt : ∀ m, V.tenants m = U.tenants m := fun m => by
        rw [Tree.tenants, hkept, Tree.tenants]
      have hVp : ∀ m, V.parentOf m = U.parentOf m := fun m => by
        rw [Tree.parentOf, hkept, Tree.parentOf]
      refine ⟨live.erase n, SU.unlink hn hr hcond.1 ha, fun m hm hmr => ?_, erase_subset _ _,
        fun {m} hm hne => ?_, fun m => ?_, fun m => ?_, fun m => ?_, fun m => ?_, rfl⟩
      · rw [hVt, hVt, hVp]
        exact ⟨hcarried (Finset.mem_of_mem_erase hm) hmr,
          hother (Finset.mem_of_mem_erase hm) hmr (Finset.ne_of_mem_erase hm)⟩
      · rw [hVt] at hne
        exact mem_erase.mpr ⟨fun heq => hne (heq ▸ hempty), hm⟩
      · rw [hVt, htenants]
      · rw [label, hkept]
        exact hagree.label m
      · rw [hVp, hagree.parentOf]
      · rw [hkept]
        exact hagree.parent m
  · rw [if_neg hcond]
    refine ⟨live, SU, fun m hm hr => ⟨hcarried hm hr, fun hempty => ?_⟩, Finset.Subset.refl _,
      fun hm _ => hm, htenants, hagree.label, hagree.parentOf, hagree.parent, rfl⟩
    by_cases hmn : m = n
    · -- a node without tenants has no children
      subst hmn
      refine hcond ⟨(SU.children_eq_empty_iff hm).mpr fun c hc hcr hparent => ?_,
        Dict.keys_eq_empty_iff.mp hempty⟩
      have hcn : c ≠ m := fun heq => SU.parentOf_ne hc hcr (heq ▸ hparent)
      exact hother hc hcr hcn (Finset.subset_empty.mp (hempty ▸ hparent ▸ hcarried hc hcr))
    · exact hother hm hr hmn hempty

namespace Peeled

variable (h : Peeled T live path n tenant T' live')

include h

theorem mem_tenants : u ∈ T'.tenants m ↔ u ∈ T.tenants m ∧ ¬(m = n ∧ u = tenant) := by
  rw [h.tenants]
  split
  · rename_i hm
    rw [hm]
    simp [and_comm]
  · rename_i hm
    simp [hm]

theorem mem_live (hm : m ∈ live) (hu : u ∈ T'.tenants m) : m ∈ live' :=
  h.kept hm fun hempty => absurd hu (hempty ▸ Finset.notMem_empty u)

/-- The other tenants hold what they held. -/
theorem holds_iff (hu : u ≠ tenant) {w : List Char} :
    T'.Holds live' path u w ↔ T.Holds live path u w := by
  constructor
  · rintro ⟨m, hm, hmem, hw⟩
    exact ⟨m, h.subset hm, (h.mem_tenants.mp hmem).1, hw⟩
  · rintro ⟨m, hm, hmem, hw⟩
    have hmem' := h.mem_tenants.mpr ⟨hmem, fun hand => hu hand.2⟩
    exact ⟨m, h.mem_live hm hmem', hmem', hw⟩

theorem holds_of_holds {w : List Char} (hholds : T'.Holds live' path u w) :
    T.Holds live path u w := by
  obtain ⟨m, hm, hmem, hw⟩ := hholds
  exact ⟨m, h.subset hm, (h.mem_tenants.mp hmem).1, hw⟩

/-- The sizes over the old nodes: a node that was unlinked counts for nobody. -/
theorem used_live : T'.used live' u = T'.used live u := by
  refine sum_subset h.subset fun m hm hnot => ?_
  rw [weight, if_neg fun hmem => hnot (h.mem_live hm hmem)]

theorem used_add (hn : n ∈ live) (hmem : tenant ∈ T.tenants n) :
    T.used live u = T'.used live' u + if u = tenant then (T.label n).length else 0 := by
  rw [h.used_live]
  refine sum_eq_add hn ?_ fun m _ hm => ?_
  · simp only [weight, h.tenants, if_true, h.label, mem_erase]
    by_cases hu : u = tenant
    · simp [hu, hmem]
    · simp [hu]
  · rw [weight, weight, h.tenants, if_neg hm, h.label]

/-- Where the tenants become leaves: the parent of the node, for the tenant taken off. -/
theorem isLeaf_cases (hleaf : IsLeaf T' live' m u) :
    IsLeaf T live m u ∨ u = tenant ∧ m = T.parentOf n := by
  by_contra hcon
  push Not at hcon
  obtain ⟨hnot, hne⟩ := hcon
  have hmem := (h.mem_tenants.mp hleaf.mem).1
  refine hnot ⟨hmem, fun c hc hr hparent hcu => ?_⟩
  have hgone : u ∉ T'.tenants c := by
    intro hcu'
    exact hleaf.children c (h.mem_live hc hcu') hr (by rw [h.parentOf, hparent]) hcu'
  rw [h.mem_tenants] at hgone
  push Not at hgone
  obtain ⟨rfl, rfl⟩ := hgone hcu
  exact hne rfl hparent.symm

/-- The parent is queued exactly if it has become a leaf. -/
theorem newLeaf_iff (S : Shape T live path) (hn : n ∈ live) (O : HashOrder Char) {p : NodeId} :
    T'.newLeaf O n tenant = some p ↔ n ≠ rootId ∧ p = T.parentOf n ∧ IsLeaf T' live' p tenant := by
  unfold newLeaf
  rw [h.parent]
  by_cases hr : n = rootId
  · rw [hr, S.root_parent]
    simp
  · have hp := S.tree.parent_mem hn hr
    have hleaf : tenant ∈ T'.tenants (T.parentOf n) ∧
        T'.childHas O (T.parentOf n) tenant = false ↔ IsLeaf T' live' (T.parentOf n) tenant := by
      constructor
      · rintro ⟨hmem, hnone⟩
        exact ⟨hmem, (h.shape.childHas_eq_false_iff O (h.mem_live hp hmem)).mp hnone⟩
      · intro hl
        exact ⟨hl.mem, (h.shape.childHas_eq_false_iff O (h.mem_live hp hl.mem)).mpr hl.children⟩
    rw [S.parent_some hn hr]
    constructor
    · intro hite
      dsimp only at hite
      split at hite
      · rename_i hl
        obtain rfl := Option.some.inj hite
        exact ⟨hr, rfl, hleaf.mp hl⟩
      · cases hite
    · rintro ⟨_, rfl, hl⟩
      exact if_pos (hleaf.mpr hl)

/-- The leaves of the tenant: the old ones but the node, and perhaps its parent. -/
theorem isLeaf_iff (S : Shape T live path) (hn : n ∈ live) : m ∈ live' ∧ IsLeaf T' live' m tenant ↔
      m ≠ n ∧ m ∈ live ∧ IsLeaf T live m tenant ∨
        n ≠ rootId ∧ m = T.parentOf n ∧ IsLeaf T' live' m tenant := by
  constructor
  · rintro ⟨hm, hl⟩
    have hne : m ≠ n := fun heq => (h.mem_tenants.mp hl.mem).2 ⟨heq, rfl⟩
    rcases h.isLeaf_cases hl with hold | ⟨_, hparent⟩
    · exact Or.inl ⟨hne, h.subset hm, hold⟩
    · refine Or.inr ⟨fun hr => hne ?_, hparent, hl⟩
      rw [hparent, hr, Tree.parentOf, S.root_parent, Option.getD_none]
  · rintro (⟨hne, hm, hl⟩ | ⟨hr, rfl, hl⟩)
    · have hmem := h.mem_tenants.mpr ⟨hl.mem, fun hand => hne hand.1⟩
      refine ⟨h.mem_live hm hmem, hmem, fun c hc hr hparent hct => ?_⟩
      rw [h.parentOf] at hparent
      exact hl.children c (h.subset hc) hr hparent (h.mem_tenants.mp hct).1
    · exact ⟨h.mem_live (S.tree.parent_mem hn hr) hl.mem, hl⟩

/-- Taking a tenant off a node makes up for the entry of the parent. -/
theorem measure_le (hn : n ∈ live) (hmem : tenant ∈ T.tenants n) (O : HashOrder Char)
    (rest : List EvictionEntry) :
    ∑ m ∈ live', (T'.tenants m).card + ((T'.parentEntry O n tenant).toList ++ rest).length ≤
      ∑ m ∈ live, (T.tenants m).card + rest.length := by
  have hsub : ∑ m ∈ live', (T'.tenants m).card = ∑ m ∈ live, (T'.tenants m).card := by
    refine sum_subset h.subset fun m hm hnot => Finset.card_eq_zero.mpr ?_
    by_contra hne
    exact hnot (h.kept hm hne)
  have hcard : ∑ m ∈ live, (T.tenants m).card = ∑ m ∈ live, (T'.tenants m).card + 1 := by
    refine sum_eq_add hn ?_ fun m _ hm => ?_
    · rw [h.tenants, if_pos rfl]
      exact (Finset.card_erase_add_one hmem).symm
    · rw [h.tenants, if_neg hm]
  have hpush : (T'.parentEntry O n tenant).toList.length ≤ 1 := Option.length_toList_le
  rw [length_append]
  omega

/-- The entries stay at nodes of the tree, or stale. -/
theorem stale (S : Shape T live path) (hn : n ∈ live) (O : HashOrder Char)
    {rest : List EvictionEntry}
    (hrest : ∀ e ∈ rest, e.node ∈ live ∨ e.tenant ∉ T.tenants e.node) :
    ∀ e ∈ (T'.parentEntry O n tenant).toList ++ rest,
      e.node ∈ live' ∨ e.tenant ∉ T'.tenants e.node := by
  intro e he
  rcases mem_append.mp he with hnew | hold
  · obtain ⟨p, hp, hsome⟩ := Option.bind_eq_some_iff.mp (Option.mem_toList.mp hnew)
    obtain ⟨ts, _, rfl⟩ := Option.map_eq_some_iff.mp hsome
    obtain ⟨hr, rfl, hleaf⟩ := (h.newLeaf_iff S hn O).mp hp
    exact Or.inl (h.mem_live (S.tree.parent_mem hn hr) hleaf.mem)
  · by_cases hmem : e.tenant ∈ T'.tenants e.node
    · have hin : e.node ∈ live := (hrest e hold).resolve_right fun hnot =>
        hnot (h.mem_tenants.mp hmem).1
      exact Or.inl (h.mem_live hin hmem)
    · exact Or.inr hmem

end Peeled

/-! ## Eviction -/

/-- A tenant that is a leaf at the root holds no characters. -/
theorem Inv.used_eq_zero (I : Inv T live path) (h : IsLeaf T live rootId tenant) :
    T.used live tenant = 0 := by
  refine Finset.sum_eq_zero fun m hm => ?_
  rw [weight]
  split
  · rename_i hmem
    by_cases hr : m = rootId
    · rw [hr, I.shape.root_label, length_nil]
    · -- the first node on the way to `m` carries the tenant
      have hlt : (path rootId).length < (path m).length := by
        rw [I.shape.tree.path_root]
        exact lt_of_le_of_lt (Nat.zero_le _) (I.shape.tree.length_parent_lt hm hr)
      have hkeys : (path rootId).map id <+: (path m).map id := by
        rw [I.shape.tree.path_root]
        exact nil_prefix
      obtain ⟨c, hc, hcr, hparent, hcm⟩ :=
        I.shape.tree.child_of_prefix_keys I.shape.root_mem hm hkeys hlt
      exact absurd (I.tenanted.tenants_mono I.shape hc hm hcm hmem) (h.children c hc hcr hparent)
  · rfl

/-- What an eviction with the limit `maxSize` may do. -/
structure Evicted (T : Tree) (live : Finset NodeId) (path : NodeId → List Char) (maxSize : ℕ)
    (T' : Tree) (live' : Finset NodeId) : Prop where
  inv : Inv T' live' path
  root : T'.tenants rootId = T.tenants rootId
  shrinks : ∀ u w, T'.Holds live' path u w → T.Holds live path u w
  untouched : ∀ u, T.count u ≤ maxSize → T'.count u = T.count u ∧
    ∀ w, T'.Holds live' path u w ↔ T.Holds live path u w

theorem Evicted.refl (I : Inv T live path) (maxSize : ℕ) : Evicted T live path maxSize T live :=
  ⟨I, rfl, fun _ _ h => h, fun _ _ => ⟨rfl, fun _ => Iff.rfl⟩⟩

theorem Evicted.trans {T'' : Tree} {live'' : Finset NodeId}
    (h : Evicted T live path maxSize T' live') (h' : Evicted T' live' path maxSize T'' live'') :
    Evicted T live path maxSize T'' live'' := by
  refine ⟨h'.inv, h'.root.trans h.root, fun u w hw => h.shrinks u w (h'.shrinks u w hw),
    fun u hu => ?_⟩
  obtain ⟨hcount, hholds⟩ := h.untouched u hu
  obtain ⟨hcount', hholds'⟩ := h'.untouched u (hcount ▸ hu)
  exact ⟨hcount'.trans hcount, fun w => (hholds' w).trans (hholds w)⟩

/-- One eviction: the tree of the loop body. -/
def Tree.evictAt (T : Tree) (n : NodeId) (tenant : String) : Tree :=
  (T.subtractChars n tenant).dropTenant n tenant

theorem evictAt_spec (I : Inv T live path) (hn : n ∈ live)
    (hleaf : IsLeaf T live n tenant) (hover : maxSize < T.count tenant) :
    n ≠ rootId ∧ ∃ live', Evicted T live path maxSize (T.evictAt n tenant) live' ∧
      Peeled (T.subtractChars n tenant) live path n tenant (T.evictAt n tenant) live' := by
  set U := T.subtractChars n tenant with hU
  have hagree : Agree T U := rfl
  have hr : n ≠ rootId := by
    rintro rfl
    rw [I.count_eq, I.used_eq_zero hleaf] at hover
    exact absurd hover (Nat.not_lt_zero _)
  obtain ⟨live', hpeel⟩ := dropTenant_spec (hagree.shape I.shape)
    I.tenanted hn hleaf.children
  refine ⟨hr, live', ?_, hpeel⟩
  have hcountU : ∀ u, U.count u =
      if u = tenant then T.count tenant - (T.label n).length else T.count u := by
    intro u
    rw [Tree.count, hU, subtractChars, Dict.lookup_modify_eq, I.shape.count_eq hn]
    split
    · rw [Tree.count]
      cases T.tenantCharCount.lookup tenant with
      | none => rw [Option.map_none, Option.getD_none, Nat.zero_sub]
      | some v => rfl
    · rfl
  have hcount : ∀ u, (T.evictAt n tenant).count u = U.count u := fun u => by
    rw [Tree.count, evictAt, hpeel.tenantCharCount]
    rfl
  have hroot : (T.evictAt n tenant).tenants rootId = T.tenants rootId := by
    refine (hpeel.tenants rootId).trans ?_
    rw [if_neg fun heq => hr heq.symm]
    rfl
  have hother : ∀ u, u ≠ tenant → ∀ w,
      (T.evictAt n tenant).Holds live' path u w ↔ T.Holds live path u w := fun u hu w =>
    hpeel.holds_iff hu
  refine ⟨⟨hpeel.shape, hpeel.tenanted, ?_, fun u => ?_⟩, hroot,
    fun u w hw => hpeel.holds_of_holds hw, fun u hu => ?_⟩
  · rw [hroot, evictAt, hpeel.tenantCharCount, hU, subtractChars, Dict.keys_modify, I.keys_eq]
  · have hused := hpeel.used_add (u := u) hn hleaf.mem
    have hsame : U.used live u = T.used live u := rfl
    have hcountT := I.count_eq u
    rw [hcount, hcountU]
    split
    · rename_i heq
      rw [if_pos heq] at hused
      subst heq
      change U.used live u = (T.evictAt n u).used live' u + (T.label n).length at hused
      omega
    · rename_i hne
      rw [if_neg hne] at hused
      change U.used live u = (T.evictAt n tenant).used live' u at hused
      omega
  · have hne : u ≠ tenant := by
      rintro rfl
      omega
    exact ⟨by rw [hcount, hcountU, if_neg hne], hother u hne⟩

/-- The heap has an entry for every leaf of a tenant over the limit; entries of unlinked
nodes are stale. -/
structure Cover (T : Tree) (live : Finset NodeId) (maxSize : ℕ) (pq : List EvictionEntry) :
    Prop where
  leaves : ∀ u, maxSize < T.count u → ∀ m ∈ live, IsLeaf T live m u →
    ∃ e ∈ pq, e.tenant = u ∧ e.node = m
  stale : ∀ e ∈ pq, e.node ∈ live ∨ e.tenant ∉ T.tenants e.node

namespace Cover

variable {maxSize : ℕ} {pq rest : List EvictionEntry} {entry : EvictionEntry}

/-- An entry that is no leaf over the limit can be dropped. -/
theorem skip (C : Cover T live maxSize pq) (hperm : pq.Perm (entry :: rest))
    (hskip : ¬(maxSize < T.count entry.tenant ∧ IsLeaf T live entry.node entry.tenant)) :
    Cover T live maxSize rest := by
  refine ⟨fun u hu m hm hleaf => ?_, fun e he => ?_⟩
  · obtain ⟨e, he, rfl, rfl⟩ := C.leaves u hu m hm hleaf
    rcases mem_cons.mp (hperm.mem_iff.mp he) with rfl | hrest
    · exact absurd ⟨hu, hleaf⟩ hskip
    · exact ⟨e, hrest, rfl, rfl⟩
  · exact C.stale e (hperm.mem_iff.mpr (mem_cons_of_mem _ he))

/-- After an eviction the parent may be a new leaf, and it then has an entry. -/
theorem evictAt (C : Cover T live maxSize pq) (hperm : pq.Perm (entry :: rest))
    (S : Shape T live path) (hn : entry.node ∈ live) (hr : entry.node ≠ rootId) (O : HashOrder Char)
    (hevict : Evicted T live path maxSize (T.evictAt entry.node entry.tenant) live')
    (hpeel : Peeled (T.subtractChars entry.node entry.tenant) live path entry.node entry.tenant
      (T.evictAt entry.node entry.tenant) live') :
    Cover (T.evictAt entry.node entry.tenant) live' maxSize
      (((T.evictAt entry.node entry.tenant).parentEntry O entry.node entry.tenant).toList ++
        rest) := by
  have SU : Shape (T.subtractChars entry.node entry.tenant) live path :=
    Agree.shape rfl S
  refine ⟨fun u hu m hm hleaf' => ?_, hpeel.stale SU hn O fun e he =>
    C.stale e (hperm.mem_iff.mpr (mem_cons_of_mem _ he))⟩
  · rcases hpeel.isLeaf_cases hleaf' with hold | ⟨rfl, hparent⟩
    · -- an old leaf keeps its entry
      have hover : maxSize < T.count u := by
        by_contra hle
        have hsame := (hevict.untouched u (not_lt.mp hle)).1
        omega
      obtain ⟨e, he, rfl, rfl⟩ := C.leaves u hover m (hpeel.subset hm) ⟨hold.mem, hold.children⟩
      rcases mem_cons.mp (hperm.mem_iff.mp he) with rfl | hrest
      · exact absurd ⟨rfl, rfl⟩ (hpeel.mem_tenants.mp hleaf'.mem).2
      · exact ⟨e, mem_append_right _ hrest, rfl, rfl⟩
    · have hnew := (hpeel.newLeaf_iff SU hn O).mpr ⟨hr, hparent, hleaf'⟩
      obtain ⟨ts, hts⟩ := Dict.mem_keys_iff.mp hleaf'.mem
      refine ⟨⟨ts, entry.tenant, m⟩, mem_append_left _ ?_, rfl, rfl⟩
      rw [parentEntry, hnew, Option.bind_some, hts]
      exact mem_singleton_self _

end Cover

/-- With all entries processed no tenant is over the limit. -/
theorem Inv.count_le_of_cover (I : Inv T live path)
    (C : Cover T live maxSize []) (u : String) : T.count u ≤ maxSize := by
  by_contra hover
  have hzero : T.used live u = 0 := by
    refine Finset.sum_eq_zero fun m hm => ?_
    rw [weight, if_neg fun hmem => ?_]
    obtain ⟨l, hl, hleaf⟩ := I.shape.exists_isLeaf hm hmem
    obtain ⟨e, he, _⟩ := C.leaves u (not_le.mp hover) l hl hleaf
    exact absurd he not_mem_nil
  rw [I.count_eq, hzero] at hover
  exact hover (Nat.zero_le _)

/-- A tenant of a node has a counter. -/
theorem Inv.lookup_count (I : Inv T live path) (hn : n ∈ live) (hmem : tenant ∈ T.tenants n) :
    T.tenantCharCount.lookup tenant = some (T.count tenant) := by
  have hkey : tenant ∈ T.tenantCharCount.keys := I.keys_eq ▸ I.tenanted.tenants_root I.shape hn hmem
  obtain ⟨v, hv⟩ := Dict.mem_keys_iff.mp hkey
  rw [Tree.count, hv, Option.getD_some]

theorem evictLoop_spec {fuel : ℕ} {pq : List EvictionEntry} (O : MapOrders)
    (I : Inv T live path) (C : Cover T live maxSize pq)
    (hfuel : ∑ m ∈ live, (T.tenants m).card + pq.length < fuel) :
    ∃ T' live', evictLoop O maxSize fuel pq T = some T' ∧
      Evicted T live path maxSize T' live' ∧ ∀ u, T'.count u ≤ maxSize := by
  induction fuel generalizing T live pq with
  | zero => omega
  | succ fuel ih =>
    rw [evictLoop]
    by_cases hnil : pq = []
    · subst hnil
      rw [O.heap.pop_nil]
      exact ⟨T, live, rfl, Evicted.refl I maxSize, I.count_le_of_cover C⟩
    · obtain ⟨entry, rest, hpop, hperm, _⟩ := O.heap.pop_of_ne hnil
      have hlen := hperm.length_eq
      rw [length_cons] at hlen
      simp only [hpop]
      have hskip : ¬(maxSize < T.count entry.tenant ∧ IsLeaf T live entry.node entry.tenant) →
          ∃ T' live', evictLoop O maxSize fuel rest T = some T' ∧
            Evicted T live path maxSize T' live' ∧ ∀ u, T'.count u ≤ maxSize :=
        fun hno => ih I (C.skip hperm hno) (by omega)
      have hin : entry.tenant ∈ T.tenants entry.node → entry.node ∈ live := fun hmem =>
        (C.stale entry (hperm.mem_iff.mpr mem_cons_self)).resolve_right fun hnot => hnot hmem
      by_cases hany : (T.tenantCharCount.lookup entry.tenant).any (· ≤ maxSize) = true
      · rw [if_pos hany]
        refine hskip fun hand => ?_
        rw [I.lookup_count (hin hand.2.mem) hand.2.mem, Option.any_some, decide_eq_true_eq]
          at hany
        omega
      · rw [if_neg hany]
        by_cases hstill : T.isStillLeaf O.children entry.node entry.tenant = true
        · rw [if_pos hstill]
          have hmem : entry.tenant ∈ T.tenants entry.node :=
            of_decide_eq_true (Bool.and_eq_true_iff.mp hstill).1
          have hn := hin hmem
          have hleaf := (I.shape.isStillLeaf_iff O.children hn).mp hstill
          rw [I.lookup_count hn hmem, Option.any_some, decide_eq_true_eq] at hany
          obtain ⟨hr, live', hevict, hpeel⟩ := evictAt_spec I hn hleaf (not_le.mp hany)
          have hlt : ∑ m ∈ live, (T.tenants m).card + rest.length < fuel := by omega
          obtain ⟨T', live'', hrun, hrest, hcount⟩ := ih hevict.inv
            (C.evictAt hperm I.shape hn hr O.children hevict hpeel)
            (lt_of_le_of_lt (hpeel.measure_le hn hmem O.children rest) hlt)
          exact ⟨T', live'', hrun, hevict.trans hrest, hcount⟩
        · rw [if_neg hstill]
          refine hskip fun hand => hstill ?_
          exact (I.shape.isStillLeaf_iff O.children (hin hand.2.mem)).mpr hand.2

/-! ## The entries of the heap -/

theorem lookup_foldl_insert {β : Type} (l : List String) (d : Dict String β) (b : β) (a : String) :
    (l.foldl (fun d t => d.insert t b) d).lookup a = if a ∈ l then some b else d.lookup a := by
  induction l generalizing d with
  | nil => simp
  | cons t l ih =>
    rw [foldl_cons, ih, Dict.lookup_insert_eq]
    by_cases hmem : a ∈ l
    · simp [hmem]
    · by_cases hat : a = t <;> simp [hmem, hat]

theorem lookup_foldl_children (T : Tree) (O : HashOrder String) (kids : List NodeId)
    (d : Dict String Bool) (a : String) :
    (kids.foldl (fun d child => (O.list (T.tenants child)).foldl
      (fun d tenant => d.insert tenant false) d) d).lookup a =
        if ∃ c ∈ kids, a ∈ T.tenants c then some false else d.lookup a := by
  induction kids generalizing d with
  | nil => simp
  | cons c kids ih =>
    rw [foldl_cons, ih, lookup_foldl_insert]
    by_cases hrest : ∃ c ∈ kids, a ∈ T.tenants c
    · rw [if_pos hrest, if_pos]
      obtain ⟨e, he, hae⟩ := hrest
      exact ⟨e, mem_cons_of_mem _ he, hae⟩
    · rw [if_neg hrest]
      simp only [O.mem_list, exists_mem_cons_iff, hrest, or_false]

theorem mem_leafOf (T : Tree) (O : MapOrders) (n : NodeId) : tenant ∈ T.leafOf O n ↔
      tenant ∈ T.tenants n ∧ ∀ c ∈ T.kids O.children n, tenant ∉ T.tenants c := by
  simp only [leafOf, mem_filter, decide_eq_true_eq]
  rw [and_iff_right_of_imp fun h => O.tenants.mem_list.mpr (Dict.mem_keys_iff.mpr ⟨_, h⟩),
    lookup_foldl_children, lookup_foldl_insert]
  by_cases hchild : ∃ c ∈ T.kids O.children n, tenant ∈ T.tenants c
  · rw [if_pos hchild]
    obtain ⟨c, hc, hmem⟩ := hchild
    exact ⟨fun h => absurd h (by simp), fun h => absurd hmem (h.2 c hc)⟩
  · rw [if_neg hchild]
    push Not at hchild
    rw [and_iff_left hchild]
    simp [O.tenants.mem_list]

theorem length_leafEntries_le (T : Tree) (O : MapOrders) (n : NodeId) :
    (T.leafEntries O n).length ≤ (T.tenants n).card := by
  have hnodup : (T.leafOf O n).Nodup := (O.tenants.nodup _).filter _
  refine (length_filterMap_le _ _).trans ?_
  rw [← toFinset_card_of_nodup hnodup]
  refine Finset.card_le_card fun t ht => ?_
  exact ((mem_leafOf T O n).mp (mem_toFinset.mp ht)).1

/-- The heap an eviction starts with. -/
theorem Shape.cover (S : Shape T live path) (O : MapOrders) (maxSize : ℕ) {nodes : List NodeId}
    (hnodes : ∀ n, n ∈ nodes ↔ n ∈ live) :
    Cover T live maxSize (nodes.flatMap (T.leafEntries O)) := by
  refine ⟨fun u _ m hm hleaf => ?_, fun e he => ?_⟩
  · obtain ⟨ts, hts⟩ := Dict.mem_keys_iff.mp hleaf.mem
    refine ⟨⟨ts, u, m⟩, mem_flatMap.mpr ⟨m, (hnodes m).mpr hm, ?_⟩, rfl, rfl⟩
    refine mem_filterMap.mpr ⟨u, (mem_leafOf T O m).mpr ⟨hleaf.mem, fun c hc => ?_⟩, ?_⟩
    · obtain ⟨hcl, hr, hparent⟩ := (S.mem_kids O.children hm).mp hc
      exact hleaf.children c hcl hr hparent
    · rw [hts, Option.map_some]
  · obtain ⟨n, hn, hentry⟩ := mem_flatMap.mp he
    obtain ⟨t, _, hsome⟩ := mem_filterMap.mp hentry
    obtain ⟨ts, _, rfl⟩ := Option.map_eq_some_iff.mp hsome
    exact Or.inl ((hnodes n).mp hn)

theorem sum_map_eq_sum {nodes : List NodeId} (hnodup : nodes.Nodup)
    (hnodes : ∀ n, n ∈ nodes ↔ n ∈ live) (f : NodeId → ℕ) :
    (nodes.map f).sum = ∑ n ∈ live, f n := by
  have hlive : nodes.toFinset = live := by
    ext n
    rw [mem_toFinset, hnodes]
  rw [← hlive, sum_toFinset f hnodup]

/-- An eviction is a run of the loop with enough fuel from a heap that covers the leaves. -/
theorem Shape.evictTenantBySize_eq (S : Shape T live path) (O : MapOrders) (maxSize : ℕ) :
    ∃ fuel pq, T.evictTenantBySize O maxSize = evictLoop O maxSize fuel pq T ∧
      Cover T live maxSize pq ∧ ∑ m ∈ live, (T.tenants m).card + pq.length < fuel := by
  obtain ⟨nodes, hvisited, hnodup, hnodes⟩ := S.visited_spec O.children
  have hsum := sum_map_eq_sum hnodup hnodes fun n => (T.tenants n).card
  have hlen : (nodes.flatMap (T.leafEntries O)).length ≤
      (nodes.map fun n => (T.tenants n).card).sum := by
    rw [length_flatMap]
    exact sum_le_sum fun n _ => length_leafEntries_le T O n
  refine ⟨2 * (nodes.map fun n => (T.tenants n).card).sum + 1, nodes.flatMap (T.leafEntries O), ?_,
    S.cover O maxSize hnodes, by omega⟩
  rw [evictTenantBySize, hvisited]
  rfl

/-- `evict_tenant_by_size` ends with every tenant within the limit, and touches no tenant
that was. -/
theorem evictTenantBySize_spec (I : Inv T live path) (O : MapOrders) (maxSize : ℕ) :
    ∃ T' live', T.evictTenantBySize O maxSize = some T' ∧
      Evicted T live path maxSize T' live' ∧ ∀ u, T'.count u ≤ maxSize := by
  obtain ⟨fuel, pq, hloop, hcover, hfuel⟩ := I.shape.evictTenantBySize_eq O maxSize
  rw [hloop]
  exact evictLoop_spec O I hcover hfuel

/-! ## Removal -/

/-- A tenant was taken off some nodes. -/
structure Removed (T : Tree) (live : Finset NodeId) (path : NodeId → List Char)
    (tenant : String) (T' : Tree) (live' : Finset NodeId) : Prop where
  shape : Shape T' live' path
  tenanted : Tenanted T' live'
  tenants : ∀ m, ∀ u, u ≠ tenant → (u ∈ T'.tenants m ↔ u ∈ T.tenants m)
  tenantCharCount : T'.tenantCharCount = T.tenantCharCount
  used_eq : ∀ u, u ≠ tenant → T'.used live' u = T.used live u
  holds_iff : ∀ u, u ≠ tenant → ∀ w, T'.Holds live' path u w ↔ T.Holds live path u w

theorem Peeled.removed (h : Peeled T live path n tenant T' live') (hn : n ∈ live)
    (hmem : tenant ∈ T.tenants n) : Removed T live path tenant T' live' where
  shape := h.shape
  tenanted := h.tenanted
  tenants m u hu := by
    rw [h.mem_tenants]
    exact ⟨And.left, fun hold => ⟨hold, fun hand => hu hand.2⟩⟩
  tenantCharCount := h.tenantCharCount
  used_eq u hu := by
    rw [h.used_add hn hmem, if_neg hu, Nat.add_zero]
  holds_iff u hu w := h.holds_iff hu

theorem Removed.trans {T'' : Tree} {live'' : Finset NodeId}
    (h : Removed T live path tenant T' live') (h' : Removed T' live' path tenant T'' live'') :
    Removed T live path tenant T'' live'' where
  shape := h'.shape
  tenanted := h'.tenanted
  tenants m u hu := (h'.tenants m u hu).trans (h.tenants m u hu)
  tenantCharCount := h'.tenantCharCount.trans h.tenantCharCount
  used_eq u hu := (h'.used_eq u hu).trans (h.used_eq u hu)
  holds_iff u hu w := (h'.holds_iff u hu w).trans (h.holds_iff u hu w)

/-- The queue holds the leaves of the tenant, each once. -/
theorem removeLoop_spec {fuel : ℕ} {queue : List NodeId} (O : HashOrder Char)
    (S : Shape T live path) (N : Tenanted T live) (hnodup : queue.Nodup)
    (hqueue : ∀ n, n ∈ queue ↔ n ∈ live ∧ IsLeaf T live n tenant)
    (hfuel : (live.filter fun n => tenant ∈ T.tenants n).card < fuel) :
    ∃ T' live', removeLoop O tenant fuel queue T = some T' ∧
      Removed T live path tenant T' live' ∧ ∀ m ∈ live', tenant ∉ T'.tenants m := by
  induction fuel generalizing T live queue with
  | zero => omega
  | succ fuel ih =>
    cases queue with
    | nil =>
      refine ⟨T, live, rfl, ⟨S, N, fun _ _ _ => Iff.rfl, rfl, fun _ _ => rfl,
        fun _ _ _ => Iff.rfl⟩, fun m hm hmem => ?_⟩
      obtain ⟨l, hl, hleaf⟩ := S.exists_isLeaf hm hmem
      exact absurd ((hqueue l).mpr ⟨hl, hleaf⟩) not_mem_nil
    | cons curr queue =>
      obtain ⟨hn, hleaf⟩ := (hqueue curr).mp mem_cons_self
      obtain ⟨live', hpeel⟩ := dropTenant_spec S N hn hleaf.children
      set U := T.dropTenant curr tenant
      have hnew : ∀ p, U.newLeaf O curr tenant = some p ↔
          curr ≠ rootId ∧ p = T.parentOf curr ∧ IsLeaf U live' p tenant :=
        fun p => hpeel.newLeaf_iff S hn O
      have hcard : (live'.filter fun n => tenant ∈ U.tenants n).card <
          (live.filter fun n => tenant ∈ T.tenants n).card := by
        refine Finset.card_lt_card ⟨fun m hm => ?_, fun hsub => ?_⟩
        · obtain ⟨hm, hmem⟩ := mem_filter.mp hm
          exact mem_filter.mpr ⟨hpeel.subset hm, (hpeel.mem_tenants.mp hmem).1⟩
        · have hgone := (mem_filter.mp
            (hsub (mem_filter.mpr ⟨hn, hleaf.mem⟩))).2
          exact (hpeel.mem_tenants.mp hgone).2 ⟨rfl, rfl⟩
      have hnodup' : (queue ++ (U.newLeaf O curr tenant).toList).Nodup := by
        refine nodup_append.mpr ⟨hnodup.of_cons, ?_, ?_⟩
        · cases U.newLeaf O curr tenant <;> simp
        · rintro p hp _ hp' rfl
          -- the parent was no leaf while the node had the tenant
          obtain ⟨hr, rfl, _⟩ := (hnew _).mp (Option.mem_toList.mp hp')
          exact ((hqueue _).mp (mem_cons_of_mem _ hp)).2.children curr hn hr rfl hleaf.mem
      have hqueue' : ∀ n, n ∈ queue ++ (U.newLeaf O curr tenant).toList ↔
          n ∈ live' ∧ IsLeaf U live' n tenant := by
        intro n
        have hrest : n ∈ queue ↔ n ≠ curr ∧ n ∈ curr :: queue := by
          refine ⟨fun hq => ⟨?_, mem_cons_of_mem _ hq⟩, fun hand =>
            (mem_cons.mp hand.2).resolve_left hand.1⟩
          rintro rfl
          exact (nodup_cons.mp hnodup).1 hq
        rw [mem_append, Option.mem_toList, hnew, hpeel.isLeaf_iff S hn, ← hqueue, hrest]
      obtain ⟨T', live'', hrun, hremoved, hgone⟩ :=
        ih hpeel.shape hpeel.tenanted hnodup' hqueue' (by omega)
      exact ⟨T', live'', hrun, (hpeel.removed hn hleaf.mem).trans hremoved, hgone⟩

/-- The tree that `remove_tenant` leaves, but for the counter of the tenant. -/
theorem removeTenant_removed (S : Shape T live path) (N : Tenanted T live) (O : HashOrder Char)
    (tenant : String) : ∃ U live', T.removeTenant O tenant =
        some { U with tenantCharCount := U.tenantCharCount.erase tenant } ∧
      Removed T live path tenant U live' ∧ ∀ m ∈ live', tenant ∉ U.tenants m := by
  obtain ⟨nodes, hvisited, hnodup, hnodes⟩ := S.visited_spec O
  have hqueue : ∀ n, n ∈ nodes.filter (fun n => T.isStillLeaf O n tenant) ↔
      n ∈ live ∧ IsLeaf T live n tenant := by
    intro n
    rw [mem_filter, hnodes]
    exact and_congr_right fun hn => S.isStillLeaf_iff O hn
  have hcard : (live.filter fun n => tenant ∈ T.tenants n).card < nodes.length + 1 := by
    have hlive : nodes.toFinset = live := by
      ext n
      rw [mem_toFinset, hnodes]
    rw [← toFinset_card_of_nodup hnodup, hlive]
    exact Nat.lt_succ_of_le (Finset.card_filter_le _ _)
  obtain ⟨U, live', hrun, hremoved, hgone⟩ := removeLoop_spec O S N (hnodup.filter _) hqueue hcard
  refine ⟨U, live', ?_, hremoved, hgone⟩
  rw [removeTenant, hvisited]
  simp only [bind, Option.bind_some, hrun]
  rfl

/-- `remove_tenant` takes the tenant off every node. -/
theorem removeTenant_spec (I : Inv T live path) (O : HashOrder Char) (tenant : String) :
    ∃ T' live', T.removeTenant O tenant = some T' ∧ Inv T' live' path ∧
      (∀ m ∈ live', tenant ∉ T'.tenants m) ∧
      ∀ u, u ≠ tenant → ∀ w, T'.Holds live' path u w ↔ T.Holds live path u w := by
  obtain ⟨U, live', hrun, hremoved, hgone⟩ := removeTenant_removed I.shape I.tenanted O tenant
  refine ⟨{ U with tenantCharCount := U.tenantCharCount.erase tenant }, live', hrun, ?_, hgone,
    hremoved.holds_iff⟩
  refine ⟨Agree.shape rfl hremoved.shape, hremoved.tenanted, ?_, fun u => ?_⟩
  · ext u
    rw [Finmap.keys_erase, hremoved.tenantCharCount, ← I.keys_eq, mem_erase]
    by_cases hu : u = tenant
    · rw [hu]
      exact ⟨fun hmem => absurd hmem (hgone rootId hremoved.shape.root_mem),
        fun hand => absurd rfl hand.1⟩
    · exact (hremoved.tenants rootId u hu).trans ⟨fun h => ⟨hu, h⟩, And.right⟩
  · rw [Tree.count, Dict.lookup_erase_eq]
    split
    · rename_i hu
      rw [hu]
      refine (Finset.sum_eq_zero fun m hm => ?_).symm
      exact if_neg (hgone m hm)
    · rename_i hu
      rw [hremoved.tenantCharCount]
      exact (I.count_eq u).trans (hremoved.used_eq u hu).symm

end Sglang.Gateway
