import Sglang.Gateway.TenantShape
import Mathlib.Algebra.BigOperators.Group.Finset.Basic

/-!
# Tenants and their sizes

Every node below the root has a tenant, and a tenant of a node is a tenant of its parent.
The counter of a tenant is the number of characters of the nodes that carry it. Each
elementary change of the tree keeps this, and adds or removes what it says to the texts a
tenant holds.
-/

namespace Sglang.Gateway

open Sglang.Support Function Finset Gateway.Tree

namespace Tree

variable (T : Tree)

/-- The characters a node counts for a tenant. -/
def weight (tenant : String) (n : NodeId) : ℕ :=
  if tenant ∈ T.tenants n then (T.label n).length else 0

def used (live : Finset NodeId) (tenant : String) : ℕ := ∑ n ∈ live, T.weight tenant n

/-- The maintained counter; a tenant without one has size zero. -/
def count (tenant : String) : ℕ := (T.tenantCharCount.lookup tenant).getD 0

/-- The tenant carries a node whose text starts with `w`. -/
def Holds (live : Finset NodeId) (path : NodeId → List Char) (tenant : String) (w : List Char) :
    Prop :=
  ∃ n ∈ live, tenant ∈ T.tenants n ∧ w <+: path n

end Tree

/-- Every node below the root has tenants, all of them tenants of its parent. -/
def Tenanted (T : Tree) (live : Finset NodeId) : Prop :=
  ∀ n ∈ live, n ≠ rootId → T.tenants n ⊆ T.tenants (T.parentOf n) ∧ T.tenants n ≠ ∅

/-- What holds between operations. -/
structure Inv (T : Tree) (live : Finset NodeId) (path : NodeId → List Char) : Prop where
  shape : Shape T live path
  tenanted : Tenanted T live
  keys_eq : T.tenants rootId = T.tenantCharCount.keys
  count_eq : ∀ tenant, T.count tenant = T.used live tenant

section

variable {T T' : Tree} {live : Finset NodeId} {path : NodeId → List Char} {n m : NodeId}
  {tenant : String}

/-- A sum whose terms change at one index only. -/
theorem sum_eq_add {f g : NodeId → ℕ} {d : ℕ} (hn : n ∈ live) (hself : f n = g n + d)
    (hold : ∀ m ∈ live, m ≠ n → f m = g m) : ∑ m ∈ live, f m = ∑ m ∈ live, g m + d := by
  rw [← add_sum_erase _ f hn, ← add_sum_erase _ g hn, hself, sum_congr rfl
    fun m hm => hold m (mem_of_mem_erase hm) (ne_of_mem_erase hm)]
  exact Nat.add_right_comm _ _ _

/-- What is held after one node was added. -/
theorem holds_insert_iff {x : NodeId} {v w : List Char} (hx : ∀ {n}, n ∈ live → n ≠ x)
    (hold : ∀ n ∈ live, T'.tenants n = T.tenants n) :
    T'.Holds (insert x live) (update path x v) tenant w ↔
      T.Holds live path tenant w ∨ tenant ∈ T'.tenants x ∧ w <+: v := by
  constructor
  · rintro ⟨n, hn, htenant, hw⟩
    rcases mem_insert.mp hn with rfl | hn
    · rw [update_self] at hw
      exact Or.inr ⟨htenant, hw⟩
    · rw [hold n hn] at htenant
      rw [update_of_ne (hx hn)] at hw
      exact Or.inl ⟨n, hn, htenant, hw⟩
  · rintro (⟨n, hn, htenant, hw⟩ | ⟨htenant, hw⟩)
    · refine ⟨n, mem_insert_of_mem hn, ?_, ?_⟩
      · rwa [hold n hn]
      · rwa [update_of_ne (hx hn)]
    · exact ⟨x, mem_insert_self _ _, htenant, by rwa [update_self]⟩

/-- A tenant carries every node on the way to a node it carries. -/
theorem Tenanted.tenants_mono (N : Tenanted T live) (S : Shape T live path) (hn : n ∈ live)
    (hm : m ∈ live) (h : path n <+: path m) : T.tenants m ⊆ T.tenants n := by
  revert h
  refine S.tree.induct (motive := fun m => path n <+: path m → T.tenants m ⊆ T.tenants n) ?_ ?_ m hm
  · intro hroot
    have hnil : (path n).length = 0 := by
      rw [S.tree.path_root, List.prefix_nil] at hroot
      rw [hroot, List.length_nil]
    rw [S.tree.eq_root_of_path_nil hn hnil]
  · intro m hm hr ih hprec
    rcases (S.tree.prefix_iff_parent hn hm hr).mp hprec with rfl | hparent
    · exact Subset.refl _
    · exact (N _ hm hr).1.trans (ih hparent)

theorem Tenanted.tenants_root (N : Tenanted T live) (S : Shape T live path) (hn : n ∈ live) :
    T.tenants n ⊆ T.tenants rootId :=
  N.tenants_mono S S.root_mem hn (by rw [S.tree.path_root]; exact List.nil_prefix)

theorem Tree.count_insert {k : ℕ}
    (h : T'.tenantCharCount = T.tenantCharCount.insert tenant (T.count tenant + k))
    (u : String) : T'.count u = T.count u + if u = tenant then k else 0 := by
  rw [Tree.count, h, Dict.lookup_insert_eq]
  split
  · rename_i hu
    rw [hu, Option.getD_some]
  · rw [Nat.add_zero, Tree.count]

theorem Tree.keys_insert_of_mem {k : ℕ} (hmem : tenant ∈ T.tenantCharCount.keys) :
    (T.tenantCharCount.insert tenant k).keys = T.tenantCharCount.keys := by
  rw [Dict.keys_insert, insert_eq_self.mpr hmem]

/-! ## Time stamps and cached tenants -/

/-- Nothing changes but time stamps, cached tenants and the epoch. -/
structure Touched (T T' : Tree) : Prop where
  agree : Agree T T'
  tenants : ∀ n, T'.tenants n = T.tenants n
  tenantCharCount : T'.tenantCharCount = T.tenantCharCount

namespace Touched

theorem refl (T : Tree) : Touched T T := ⟨rfl, fun _ => rfl, rfl⟩

theorem trans {T'' : Tree} (h : Touched T T') (h' : Touched T' T'') : Touched T T'' :=
  ⟨h.agree.trans h'.agree, fun n => (h'.tenants n).trans (h.tenants n),
    h'.tenantCharCount.trans h.tenantCharCount⟩

theorem advanceEpoch (T : Tree) : Touched T T.advanceEpoch :=
  ⟨rfl, fun _ => rfl, rfl⟩

theorem setAccessTime {tenant : String} (h : tenant ∈ T.tenants n) (epoch : UInt64) :
    Touched T (T.setAccessTime n tenant epoch) := by
  refine ⟨Agree.modifyNode T n fun _ => rfl, fun m => ?_, rfl⟩
  by_cases hm : m = n
  · rw [hm, Tree.tenants, Tree.setAccessTime, modifyNode_self, Dict.keys_insert]
    exact insert_eq_self.mpr h
  · rw [Tree.tenants, Tree.setAccessTime, modifyNode_of_ne _ hm, Tree.tenants]

theorem setLastTenant (T : Tree) (n : NodeId) (tenant : Option String) :
    Touched T (T.modifyNode n fun x => { x with lastTenant := tenant }) := by
  refine ⟨Agree.modifyNode T n fun _ => rfl, fun m => ?_, rfl⟩
  by_cases hm : m = n
  · rw [hm, Tree.tenants, modifyNode_self, Tree.tenants]
  · rw [Tree.tenants, modifyNode_of_ne _ hm, Tree.tenants]

theorem tenanted (h : Touched T T') (N : Tenanted T live) : Tenanted T' live := by
  intro n hn hr
  rw [h.tenants, h.tenants, h.agree.parentOf]
  exact N _ hn hr

theorem inv (h : Touched T T') (I : Inv T live path) : Inv T' live path where
  shape := h.agree.shape I.shape
  tenanted := h.tenanted I.tenanted
  keys_eq := by rw [h.tenants, h.tenantCharCount, I.keys_eq]
  count_eq tenant := by
    rw [Tree.count, h.tenantCharCount]
    refine (I.count_eq tenant).trans (sum_congr rfl fun n _ => ?_)
    rw [weight, weight, h.tenants, h.agree.label]

theorem holds_iff (h : Touched T T') {tenant : String} {w : List Char} :
    T'.Holds live path tenant w ↔ T.Holds live path tenant w := by
  simp [Holds, h.tenants]

end Touched

/-! ## Splitting an edge -/

namespace Split

variable {c : NodeId} {k : ℕ} {firstChar firstNewChar : Char}

theorem tenants_new (h : Split T c k firstChar firstNewChar T') :
    T'.tenants T.nextId = T.tenants c := by
  rw [Tree.tenants, h.node_new, Tree.tenants]

theorem tenants_kept (h : Split T c k firstChar firstNewChar T') (hn : n ≠ T.nextId) :
    T'.tenants n = T.tenants n := by
  by_cases hnc : n = c
  · rw [hnc, Tree.tenants, h.node_cut, Tree.tenants]
  · rw [Tree.tenants, h.node_kept hn hnc, Tree.tenants]

variable (h : Split T c k firstChar firstNewChar T') (I : Inv T live path) (hc : c ∈ live)
  (hr : c ≠ rootId)

include h I hc

theorem used_eq (tenant : String) : T'.used (insert T.nextId live) tenant = T.used live tenant := by
  have hnew : T'.weight tenant T.nextId + T'.weight tenant c = T.weight tenant c := by
    rw [weight, weight, weight, h.tenants_new,
      h.tenants_kept (I.shape.nextId_ne hc), h.label_new, h.label_cut]
    split
    · rw [← List.length_append, List.take_append_drop]
    · rfl
  have hold : ∀ n ∈ live.erase c, T'.weight tenant n = T.weight tenant n := by
    intro n hn
    have hne := I.shape.nextId_ne (mem_of_mem_erase hn)
    rw [weight, weight, h.tenants_kept hne, h.label_kept hne (ne_of_mem_erase hn)]
  rw [used, sum_insert I.shape.nextId_notMem, ← add_sum_erase _ _ hc,
    ← Nat.add_assoc, hnew, sum_congr rfl hold, add_sum_erase _ _ hc, used]

include hr

theorem tenanted : Tenanted T' (insert T.nextId live) := by
  have hne : ∀ {n}, n ∈ live → n ≠ T.nextId := I.shape.nextId_ne
  have hparent := I.shape.tree.parent_mem hc hr
  intro n hn hnr
  rcases mem_insert.mp hn with rfl | hn
  · rw [h.parentOf_new, h.tenants_new, h.tenants_kept (hne hparent)]
    exact I.tenanted _ hc hr
  · rw [h.tenants_kept (hne hn)]
    by_cases hnc : n = c
    · rw [hnc, h.parentOf_cut, h.tenants_new]
      exact ⟨Subset.refl _, (I.tenanted _ hc hr).2⟩
    · rw [h.parentOf_kept (hne hn) hnc, h.tenants_kept (hne (I.shape.tree.parent_mem hn hnr))]
      exact I.tenanted _ hn hnr

theorem inv (hpos : 0 < k) (hlt : k < (T.label c).length)
    (hfirst : (T.label c).head? = some firstChar)
    (hnew : ((T.label c).drop k).head? = some firstNewChar) : Inv T' (insert T.nextId live)
      (update path T.nextId (path (T.parentOf c) ++ (T.label c).take k)) where
  shape := h.shape I.shape hc hr hpos hlt hfirst hnew
  tenanted := h.tenanted I hc hr
  keys_eq := by
    rw [h.tenants_kept (I.shape.nextId_ne I.shape.root_mem), h.tenantCharCount, I.keys_eq]
  count_eq tenant := by
    rw [h.used_eq I hc, Tree.count, h.tenantCharCount]
    exact I.count_eq tenant

/-- Splitting an edge changes no text. -/
theorem holds_iff {tenant : String} {w : List Char} : T'.Holds (insert T.nextId live)
        (update path T.nextId (path (T.parentOf c) ++ (T.label c).take k)) tenant w ↔
      T.Holds live path tenant w := by
  rw [holds_insert_iff I.shape.nextId_ne fun n hn => h.tenants_kept (I.shape.nextId_ne hn),
    h.tenants_new, or_iff_left_of_imp]
  rintro ⟨htenant, hw⟩
  refine ⟨c, hc, htenant, hw.trans ?_⟩
  rw [I.shape.tree.path_eq hc hr]
  exact (List.prefix_append_right_inj _).mpr (List.take_prefix _ _)

end Split

/-! ## Adding a tenant -/

namespace Graft

variable {p : NodeId} {firstChar : Char} {rest : List Char} {tenant : String}

section

variable (h : Graft T p firstChar rest tenant T')
include h

theorem tenants_new : T'.tenants T.nextId = {tenant} := by
  rw [Tree.tenants, h.node_new, Dict.keys_insert]
  rfl

theorem tenants_kept (hn : n ≠ T.nextId) : T'.tenants n = T.tenants n := by
  rw [Tree.tenants, h.node_kept hn, Tree.tenants]

theorem used_eq (S : Shape T live path) (u : String) :
    T'.used (insert T.nextId live) u = T.used live u + if u = tenant then rest.length else 0 := by
  have hold : ∀ n ∈ live, T'.weight u n = T.weight u n := by
    intro n hn
    have hne := S.nextId_ne hn
    rw [weight, weight, h.tenants_kept hne, h.label_kept hne]
  rw [used, sum_insert S.nextId_notMem, sum_congr rfl hold, Nat.add_comm,
    used, weight, h.tenants_new, h.label_new]
  simp

theorem tenanted (S : Shape T live path)
    (N : Tenanted T live) (hp : p ∈ live) (htenant : tenant ∈ T.tenants p) :
    Tenanted T' (insert T.nextId live) := by
  have hne : ∀ {n}, n ∈ live → n ≠ T.nextId := S.nextId_ne
  intro n hn hnr
  rcases mem_insert.mp hn with rfl | hn
  · rw [h.parentOf_new, h.tenants_new, h.tenants_kept (hne hp)]
    exact ⟨singleton_subset_iff.mpr htenant, singleton_ne_empty _⟩
  · rw [h.tenants_kept (hne hn), h.parentOf_kept (hne hn),
      h.tenants_kept (hne (S.tree.parent_mem hn hnr))]
    exact N _ hn hnr

end

theorem inv (h : Graft T p firstChar (firstChar :: rest) tenant T') (I : Inv T live path)
    (hp : p ∈ live) (htenant : tenant ∈ T.tenants p)
    (hvacant : (T.node p).children.lookup firstChar = none) : Inv T' (insert T.nextId live)
      (update path T.nextId (path p ++ firstChar :: rest)) where
  shape := h.shape I.shape hp hvacant
  tenanted := h.tenanted I.shape I.tenanted hp htenant
  keys_eq := by
    have hkey : tenant ∈ T.tenantCharCount.keys :=
      I.keys_eq ▸ I.tenanted.tenants_root I.shape hp htenant
    rw [h.tenants_kept (I.shape.nextId_ne I.shape.root_mem), h.tenantCharCount,
      keys_insert_of_mem hkey, I.keys_eq]
  count_eq u := by rw [count_insert h.tenantCharCount, h.used_eq I.shape, I.count_eq]

theorem holds_iff (h : Graft T p firstChar rest tenant T') (S : Shape T live path)
    {u : String} {w : List Char} :
    T'.Holds (insert T.nextId live) (update path T.nextId (path p ++ rest)) u w ↔
      T.Holds live path u w ∨ u = tenant ∧ w <+: path p ++ rest := by
  rw [holds_insert_iff S.nextId_ne fun n hn => h.tenants_kept (S.nextId_ne hn), h.tenants_new,
    mem_singleton]

end Graft

/-- The tenant is added to a node, and its counter raised by the text of the node. -/
structure Tagged (T : Tree) (n : NodeId) (tenant : String) (T' : Tree) : Prop where
  agree : Agree T T'
  tenants : ∀ m, T'.tenants m = if m = n then insert tenant (T.tenants n) else T.tenants m
  tenantCharCount : T'.tenantCharCount =
    if tenant ∈ T.tenants n then T.tenantCharCount
    else T.tenantCharCount.insert tenant (T.count tenant + (T.label n).length)

theorem Tree.attachTenant_spec {chars : ℕ} (hchars : chars = (T.label n).length) :
    Tagged T n tenant (T.attachTenant n tenant chars) := by
  unfold attachTenant
  by_cases hmem : tenant ∈ T.tenants n
  · rw [if_pos hmem]
    refine ⟨rfl, fun m => ?_, by rw [if_pos hmem]⟩
    split
    · rename_i h
      rw [h, insert_eq_self.mpr hmem]
    · rfl
  · rw [if_neg hmem]
    have hagree : Agree T (T.addChars tenant chars) := rfl
    refine ⟨hagree.trans (Agree.modifyNode _ n fun _ => rfl), fun m => ?_,
      by rw [if_neg hmem, hchars]; rfl⟩
    split
    · rename_i h
      rw [h, Tree.tenants, Tree.setAccessTime, modifyNode_self, Dict.keys_insert]
      rfl
    · rename_i h
      rw [Tree.tenants, Tree.setAccessTime, modifyNode_of_ne _ h]
      rfl

theorem keys_orInsert {α β : Type} [DecidableEq α] (d : Dict α β) (a : α) (b : β) :
    (orInsert d a b).keys = insert a d.keys := by
  unfold orInsert
  split
  · rename_i h
    rw [insert_eq_self.mpr h]
  · exact Dict.keys_insert d a b

theorem Inv.enterRoot_spec (I : Inv T live path) (tenant : String) :
    Tagged T rootId tenant (T.enterRoot tenant) := by
  have hagree : Agree T (T.enterRoot tenant) :=
    Agree.trans (Agree.modifyNode T rootId (f := fun x => { x with
      tenantLastAccessTime := orInsert x.tenantLastAccessTime tenant 0 }) fun _ => rfl) rfl
  refine ⟨hagree, fun m => ?_, ?_⟩
  · split
    · rename_i h
      rw [h, Tree.tenants, enterRoot, modifyNode_self]
      exact keys_orInsert _ _ _
    · rename_i h
      rw [Tree.tenants, enterRoot, modifyNode_of_ne _ h]
      rfl
  · change orInsert T.tenantCharCount tenant 0 = _
    rw [orInsert, ← I.keys_eq, I.shape.root_label, List.length_nil, Nat.add_zero]
    split
    · rfl
    · rename_i h
      rw [I.keys_eq, Finmap.mem_keys, ← Finmap.lookup_eq_none] at h
      rw [Tree.count, h, Option.getD_none]

namespace Tagged

variable {tenant : String} (h : Tagged T n tenant T')

include h

theorem mem_tenants {u : String} : u ∈ T'.tenants m ↔ u ∈ T.tenants m ∨ m = n ∧ u = tenant := by
  rw [h.tenants]
  by_cases hm : m = n
  · rw [if_pos hm, mem_insert, hm, or_comm]
    simp
  · rw [if_neg hm]
    simp [hm]

theorem subset (m : NodeId) : T.tenants m ⊆ T'.tenants m :=
  fun _ hu => h.mem_tenants.mpr (Or.inl hu)

theorem used_eq (hn : n ∈ live) (u : String) : T'.used live u = T.used live u +
      if u = tenant ∧ tenant ∉ T.tenants n then (T.label n).length else 0 := by
  refine sum_eq_add hn ?_ fun m _ hm => ?_
  · simp only [weight, h.tenants, if_true, h.agree.label]
    by_cases hu : u = tenant
    · subst hu
      by_cases hmem : u ∈ T.tenants n <;> simp [hmem]
    · simp [hu]
  · rw [weight, weight, h.tenants, if_neg hm, h.agree.label]

theorem count_eq (u : String) : T'.count u = T.count u +
      if u = tenant ∧ tenant ∉ T.tenants n then (T.label n).length else 0 := by
  by_cases hmem : tenant ∈ T.tenants n
  · rw [Tree.count, h.tenantCharCount, if_pos hmem, if_neg fun hand => hand.2 hmem, Nat.add_zero,
      Tree.count]
  · rw [count_insert (h.tenantCharCount.trans (if_neg hmem))]
    simp [hmem]

theorem keys_eq (I : Inv T live path) (hn : n ∈ live)
    (hparent : n ≠ rootId → tenant ∈ T.tenants (T.parentOf n)) :
    T'.tenants rootId = T'.tenantCharCount.keys := by
  rw [h.tenants, h.tenantCharCount]
  by_cases hr : n = rootId
  · rw [if_pos hr.symm, hr]
    split
    · rename_i hmem
      rw [insert_eq_self.mpr hmem, I.keys_eq]
    · rw [Dict.keys_insert, I.keys_eq]
  · have hkey : tenant ∈ T.tenantCharCount.keys := I.keys_eq ▸
      I.tenanted.tenants_root I.shape (I.shape.tree.parent_mem hn hr) (hparent hr)
    rw [if_neg fun heq => hr heq.symm, I.keys_eq]
    split
    · rfl
    · rw [keys_insert_of_mem hkey]

theorem tenanted (N : Tenanted T live)
    (hparent : n ≠ rootId → tenant ∈ T.tenants (T.parentOf n)) : Tenanted T' live := by
  intro m hm hr
  refine ⟨fun u hu => ?_, fun hempty => (N _ hm hr).2 (subset_empty.mp (hempty ▸ h.subset m))⟩
  rw [h.agree.parentOf]
  rcases h.mem_tenants.mp hu with hu | ⟨rfl, rfl⟩
  · exact h.subset _ ((N _ hm hr).1 hu)
  · exact h.subset _ (hparent hr)

theorem inv (I : Inv T live path) (hn : n ∈ live)
    (hparent : n ≠ rootId → tenant ∈ T.tenants (T.parentOf n)) : Inv T' live path where
  shape := h.agree.shape I.shape
  tenanted := h.tenanted I.tenanted hparent
  keys_eq := h.keys_eq I hn hparent
  count_eq u := by rw [h.count_eq, h.used_eq hn, I.count_eq]

theorem holds_iff (hn : n ∈ live) {u : String} {w : List Char} :
    T'.Holds live path u w ↔ T.Holds live path u w ∨ u = tenant ∧ w <+: path n := by
  constructor
  · rintro ⟨m, hm, hu, hw⟩
    rcases h.mem_tenants.mp hu with hu | ⟨rfl, rfl⟩
    · exact Or.inl ⟨m, hm, hu, hw⟩
    · exact Or.inr ⟨rfl, hw⟩
  · rintro (⟨m, hm, hu, hw⟩ | ⟨rfl, hw⟩)
    · exact ⟨m, hm, h.subset m hu, hw⟩
    · exact ⟨n, hn, h.mem_tenants.mpr (Or.inr ⟨rfl, rfl⟩), hw⟩

end Tagged

end

end Sglang.Gateway
