import Sglang.Gateway.TenantEvict
import Sglang.Support.Reachable

/-!
# Tenant sizes over whole runs

Runs of `insert`, `evict_tenant_by_size` and `remove_tenant` from a new tree. In every
state reached the maintained counters are the sizes read off the nodes.
-/

namespace Sglang.Gateway

open Sglang.Support

/-! ## Reading the tree -/

/-- The text read along the children from the root to a node. -/
inductive Tree.RootPath (T : Tree) : NodeId → List Char → Prop
  | root : RootPath T rootId []
  | child {p n : NodeId} {w : List Char} {c : Char} (hp : RootPath T p w)
      (hn : (T.node p).children.lookup c = some n) : RootPath T n (w ++ T.label n)

/-- The node is in the tree. -/
def Tree.InTree (T : Tree) (n : NodeId) : Prop := ∃ w, T.RootPath n w

variable {T T' : Tree} {live : Finset NodeId} {path : NodeId → List Char} {n : NodeId}

theorem Shape.rootPath_iff (S : Shape T live path) {w : List Char} :
    T.RootPath n w ↔ n ∈ live ∧ w = path n := by
  constructor
  · intro h
    induction h with
    | root => exact ⟨S.root_mem, S.tree.path_root.symm⟩
    | child _ hn ih =>
      obtain ⟨hmem, hr, hparent, _⟩ := (S.child_iff ih.1).mp hn
      exact ⟨hmem, by rw [S.tree.path_eq hmem hr, hparent, ← ih.2]⟩
  · rintro ⟨hn, rfl⟩
    refine S.tree.induct (motive := fun n => T.RootPath n (path n)) ?_ ?_ n hn
    · rw [S.tree.path_root]
      exact .root
    · intro m hm hr hparent
      obtain ⟨c, hc⟩ := S.exists_head hm hr
      rw [S.tree.path_eq hm hr]
      exact .child hparent ((S.child_iff (S.tree.parent_mem hm hr)).mpr ⟨hm, hr, rfl, hc⟩)

theorem Shape.inTree_iff (S : Shape T live path) : T.InTree n ↔ n ∈ live :=
  ⟨fun ⟨_, hw⟩ => (S.rootPath_iff.mp hw).1, fun hn => ⟨_, S.rootPath_iff.mpr ⟨hn, rfl⟩⟩⟩

theorem inv_new (epochCounter : UInt64) : Inv (Tree.new epochCounter) {rootId} fun _ => [] := by
  have hroot : ∀ {n : NodeId}, n ∈ ({rootId} : Finset NodeId) → n ≠ rootId → False :=
    fun hn hr => hr (Finset.mem_singleton.mp hn)
  refine ⟨⟨.single Nat.one_pos _ _ _, ?_, ?_, rfl, rfl, fun _ => rfl, ?_⟩, ?_, rfl,
    fun tenant => rfl⟩
  · intro n hn
    rw [Finset.mem_singleton.mp hn]
    exact Nat.one_pos
  · exact fun hn hr => (hroot hn hr).elim
  · intro p c n _
    refine ⟨fun hlook => ?_, fun h => (hroot h.1 h.2.1).elim⟩
    rw [show ((Tree.new epochCounter).node p).children = ∅ from rfl, Finmap.lookup_empty] at hlook
    cases hlook
  · exact fun _ hn hr => (hroot hn hr).elim

/-! ## Sizes read off the nodes -/

theorem lookup_addSizes {k : ℕ} {l : List String} (hnodup : l.Nodup) (sizes : Dict String ℕ)
    (tenant : String) :
    ((l.foldl (fun sizes t => sizes.insert t ((sizes.lookup t).getD 0 + k)) sizes).lookup
      tenant).getD 0 = (sizes.lookup tenant).getD 0 + if tenant ∈ l then k else 0 := by
  induction l generalizing sizes with
  | nil => simp
  | cons t l ih =>
    obtain ⟨ht, hl⟩ := List.nodup_cons.mp hnodup
    rw [List.foldl_cons, ih hl, Dict.lookup_insert_eq]
    by_cases heq : tenant = t
    · subst heq
      simp [ht]
    · simp [heq]

theorem usedSizePerTenant_spec (I : Inv T live path) (O : MapOrders) :
    ∃ sizes, T.usedSizePerTenant O = some sizes ∧
      ∀ tenant, (sizes.lookup tenant).getD 0 = T.used live tenant := by
  obtain ⟨nodes, hvisited, hnodup, hnodes⟩ := I.shape.visited_spec O.children
  have hfold : ∀ (l : List NodeId) (sizes : Dict String ℕ) (tenant : String),
      (∀ n ∈ l, n ∈ live) →
      ((l.foldl (fun sizes n => (O.tenants.list (T.tenants n)).foldl (fun sizes t =>
        sizes.insert t ((sizes.lookup t).getD 0 + (T.node n).text.charCount)) sizes) sizes).lookup
        tenant).getD 0 = (sizes.lookup tenant).getD 0 + (l.map (T.weight tenant)).sum := by
    intro l
    induction l with
    | nil => exact fun _ _ _ => rfl
    | cons n l ih =>
      intro sizes tenant hl
      rw [List.foldl_cons, ih _ _ fun m hm => hl m (List.mem_cons_of_mem _ hm),
        lookup_addSizes (O.tenants.nodup _), List.map_cons, List.sum_cons, Tree.weight,
        I.shape.count_eq (hl n List.mem_cons_self)]
      simp only [O.tenants.mem_list]
      exact Nat.add_assoc _ _ _
  refine ⟨_, by rw [Tree.usedSizePerTenant, hvisited]; rfl, fun tenant => ?_⟩
  rw [hfold nodes ∅ tenant fun n hn => (hnodes n).mp hn, Finmap.lookup_empty, Option.getD_none,
    Nat.zero_add, sum_map_eq_sum hnodup hnodes, Tree.used]

/-! ## Runs -/

inductive EditOp where
  | insert (text : List Char) (tenant : String)
  | evictTenantBySize (O : MapOrders) (maxSize : ℕ)
  | removeTenant (O : HashOrder Char) (tenant : String)

def EditOp.run (T : Tree) : EditOp → Option Tree
  | insert text tenant => T.insert text tenant
  | evictTenantBySize O maxSize => T.evictTenantBySize O maxSize
  | removeTenant O tenant => T.removeTenant O tenant

/-- Reached from a new tree, at any value of the shared counter. -/
def EditRun : Tree → Prop :=
  Reachable (fun T => ∃ epochCounter, T = Tree.new epochCounter) (fun _ _ => True) EditOp.run

theorem EditRun.inv (h : EditRun T) : ∃ live path, Inv T live path := by
  refine Reachable.invariant (I := fun T => ∃ live path, Inv T live path) ?_ ?_ h
  · rintro _ ⟨epochCounter, rfl⟩
    exact ⟨_, _, inv_new epochCounter⟩
  · rintro T T' op ⟨live, path, I⟩ _ hrun
    cases op with
    | insert text tenant =>
      obtain ⟨U, live', path', hU, I', _⟩ := insert_spec I text tenant
      obtain rfl := Option.some.inj (hU.symm.trans hrun)
      exact ⟨live', path', I'⟩
    | evictTenantBySize O maxSize =>
      obtain ⟨U, live', hU, hevict, _⟩ := evictTenantBySize_spec I O maxSize
      obtain rfl := Option.some.inj (hU.symm.trans hrun)
      exact ⟨live', path, hevict.inv⟩
    | removeTenant O tenant =>
      obtain ⟨U, live', hU, I', _⟩ := removeTenant_spec I O tenant
      obtain rfl := Option.some.inj (hU.symm.trans hrun)
      exact ⟨live', path, I'⟩

/-- The accounts of a tree with the given nodes, and what the next operation does to
them. -/
structure Accounted (T : Tree) (nodes : Finset NodeId) : Prop where
  mem_nodes : ∀ n, n ∈ nodes ↔ T.InTree n
  count_eq : ∀ tenant, T.count tenant =
    ∑ n ∈ nodes with tenant ∈ T.tenants n, (T.node n).text.charCount
  used_eq : ∀ O, ∃ sizes, T.usedSizePerTenant O = some sizes ∧
    ∀ tenant, T.count tenant = (sizes.lookup tenant).getD 0
  tenants_subset : ∀ p ∈ nodes, ∀ c n, (T.node p).children.lookup c = some n →
    (T.node n).parent = some p ∧ T.tenants n ⊆ T.tenants p
  tenants_ne : ∀ n ∈ nodes, n ≠ rootId → T.tenants n ≠ ∅
  charCount_eq : ∀ n ∈ nodes, (T.node n).text.charCount = (T.node n).text.text.length
  insert_some : ∀ text tenant, ∃ T', T.insert text tenant = some T'
  evict_le : ∀ O maxSize, ∃ T', T.evictTenantBySize O maxSize = some T' ∧
    (∀ tenant, T'.count tenant ≤ maxSize) ∧
    ∀ tenant, T.count tenant ≤ maxSize → SameMatches T T' tenant
  remove_all : ∀ O tenant, ∃ T', T.removeTenant O tenant = some T' ∧
    (∀ n, T'.InTree n → tenant ∉ T'.tenants n) ∧
    ∀ u, u ≠ tenant → SameMatches T T' u

theorem Inv.accounted (I : Inv T live path) : Accounted T live where
  mem_nodes n := I.shape.inTree_iff.symm
  count_eq tenant := by
    rw [I.count_eq, Tree.used, Finset.sum_filter]
    refine Finset.sum_congr rfl fun n hn => ?_
    rw [Tree.weight, I.shape.count_eq hn]
  used_eq O := by
    obtain ⟨sizes, hsizes, hused⟩ := usedSizePerTenant_spec I O
    exact ⟨sizes, hsizes, fun tenant => (I.count_eq tenant).trans (hused tenant).symm⟩
  tenants_subset p hp c n hlook := by
    obtain ⟨hn, hr, rfl, _⟩ := (I.shape.child_iff hp).mp hlook
    exact ⟨I.shape.parent_some hn hr, (I.tenanted _ hn hr).1⟩
  tenants_ne n hn hr := (I.tenanted _ hn hr).2
  charCount_eq n hn := I.shape.count_eq hn
  insert_some text tenant := by
    obtain ⟨T', _, _, hT', _⟩ := insert_spec I text tenant
    exact ⟨T', hT'⟩
  evict_le O maxSize := by
    obtain ⟨T', live', hT', hevict, hcount⟩ := evictTenantBySize_spec I O maxSize
    exact ⟨T', hT', hcount, fun tenant hle => sameMatches_of_holds I.shape I.tenanted
      hevict.inv.shape hevict.inv.tenanted (hevict.untouched tenant hle).2⟩
  remove_all O tenant := by
    obtain ⟨T', live', hT', I', hgone, hholds⟩ := removeTenant_spec I O tenant
    exact ⟨T', hT', fun n hn => hgone n (I'.shape.inTree_iff.mp hn), fun u hu =>
      sameMatches_of_holds I.shape I.tenanted I'.shape I'.tenanted (hholds u hu)⟩

/-- The accounts are right in every run. -/
theorem accounted_of_editRun (h : EditRun T) : ∃ nodes, Accounted T nodes := by
  obtain ⟨live, path, I⟩ := h.inv
  exact ⟨live, I.accounted⟩

/-- Two texts of two tenants that share their first character. -/
theorem accounted_sharedEdge :
    ∃ T, ((Tree.new 0).insert ['a', 'b'] "x").bind (·.insert ['a', 'c'] "y") = some T ∧
      T.count "x" = 2 ∧ T.count "y" = 2 ∧ ∃ nodes, Accounted T nodes := by
  refine ⟨_, rfl, rfl, rfl, ?_⟩
  exact accounted_of_editRun (Reachable.of_runAll
    [.insert ['a', 'b'] "x", .insert ['a', 'c'] "y"] (fun _ _ _ => trivial)
    (.start ⟨0, rfl⟩) rfl)

end Sglang.Gateway
