import Sglang.Gateway.TenantSizes

/-!
# Exactness of prefix lookups

Runs of all operations, with a history of what was inserted, removed and evicted. As long
as no lookup of a tree without tenants is due for a time stamp, a lookup reports the longest
stored prefix and a tenant that stores it. A lookup that is due records the
tenant `"empty"`, which later lookups report.
-/

namespace Sglang.Gateway

open Sglang.Support

inductive TreeOp where
  | insert (text : List Char) (tenant : String)
  | prefixMatch (O : HashOrder String) (text : List Char)
  | prefixMatchTenant (text : List Char) (tenant : String)
  | evictTenantBySize (O : MapOrders) (maxSize : ℕ)
  | removeTenant (O : HashOrder Char) (tenant : String)

def TreeOp.run (T : Tree) : TreeOp → Option Tree
  | insert text tenant => T.insert text tenant
  | prefixMatch O text => (T.prefixMatch O text).map Prod.snd
  | prefixMatchTenant text tenant => (T.prefixMatchTenant text tenant).map Prod.snd
  | evictTenantBySize O maxSize => T.evictTenantBySize O maxSize
  | removeTenant O tenant => T.removeTenant O tenant

/-- Some node of the tenant has a text that starts with `w`. -/
def Tree.Keeps (T : Tree) (tenant : String) (w : List Char) : Prop :=
  ∃ n v, T.RootPath n v ∧ tenant ∈ T.tenants n ∧ w <+: v

/-- A tree with the tenants inserted and not removed since, and the texts they store, up to
what evictions cut off. A stored text counts with all its prefixes. -/
structure History where
  tree : Tree
  present : Finset String
  stored : String → Set (List Char)

namespace History

def new (epochCounter : UInt64) : History := ⟨Tree.new epochCounter, ∅, fun _ => ∅⟩

/-- What an operation that leaves the tree `T'` adds to the history. -/
def record (h : History) (T' : Tree) : TreeOp → History
  | .insert text tenant =>
    { tree := T'
      present := insert tenant h.present
      stored := fun u => if u = tenant then h.stored u ∪ { w | w <+: text } else h.stored u }
  | .prefixMatch _ _ => { h with tree := T' }
  | .prefixMatchTenant _ _ => { h with tree := T' }
  | .evictTenantBySize _ _ =>
    { h with tree := T', stored := fun u => { w ∈ h.stored u | T'.Keeps u w } }
  | .removeTenant _ tenant =>
    { tree := T'
      present := h.present.erase tenant
      stored := fun u => if u = tenant then ∅ else h.stored u }

def run (h : History) (op : TreeOp) : Option History := (op.run h.tree).map fun T' => h.record T' op

/-- Runs of any operations. -/
def Reaches : History → Prop :=
  Reachable (fun h => ∃ epochCounter, h = new epochCounter) (fun _ _ => True) run

/-- No lookup draws a multiple of eight while there is no tenant. -/
def Undue (h : History) : TreeOp → Prop
  | .prefixMatch _ _ => h.present.Nonempty ∨ h.tree.epochCounter &&& 7 ≠ 0
  | _ => True

def ReachesUndue : History → Prop :=
  Reachable (fun h => ∃ epochCounter, h = new epochCounter) Undue run

/-- The longest prefix of the text that is a prefix of a stored text. -/
def Longest (h : History) (text : List Char) (k : ℕ) : Prop :=
  IsGreatest { k | k ≤ text.length ∧ (k = 0 ∨ ∃ tenant, text.take k ∈ h.stored tenant) } k

/-- Every operation completes, and lookups are exact and record no tenant. -/
structure Exact (h : History) : Prop where
  completes : ∀ op, ∃ h', h.run op = some h'
  matches_longest : ∀ O text, ∃ r T', h.tree.prefixMatchWithCounts O text = some (r, T') ∧
    h.Longest text r.matchedCharCount ∧
    (h.present.Nonempty → r.tenant ∈ h.present ∧ text.take r.matchedCharCount ∈ h.stored r.tenant) ∧
    (h.Undue (.prefixMatch O text) → ∀ n, T'.tenants n = h.tree.tenants n)
  not_recorded : "empty" ∉ h.present → ∀ n, h.tree.InTree n → "empty" ∉ h.tree.tenants n

/-! ## The invariant -/

/-- The tree holds what the history says. -/
structure Faithful (h : History) (live : Finset NodeId) (path : NodeId → List Char) : Prop where
  inv : Inv h.tree live path
  present_eq : h.present = h.tree.tenants rootId
  stored_iff : ∀ tenant w, w ∈ h.stored tenant ↔ h.tree.Holds live path tenant w

variable {h : History} {live : Finset NodeId} {path : NodeId → List Char}

theorem keeps_iff {T : Tree} (S : Shape T live path) {tenant : String}
    {w : List Char} : T.Keeps tenant w ↔ T.Holds live path tenant w := by
  constructor
  · rintro ⟨n, v, hpath, hmem, hw⟩
    obtain ⟨hn, rfl⟩ := S.rootPath_iff.mp hpath
    exact ⟨n, hn, hmem, hw⟩
  · rintro ⟨n, hn, hmem, hw⟩
    exact ⟨n, path n, S.rootPath_iff.mpr ⟨hn, rfl⟩, hmem, hw⟩

/-- The tenants at the root are those that hold the empty text. -/
theorem mem_tenants_root_iff {T : Tree} (S : Shape T live path) (N : Tenanted T live)
    {tenant : String} : tenant ∈ T.tenants rootId ↔ T.Holds live path tenant [] := by
  constructor
  · intro hmem
    exact ⟨rootId, S.root_mem, hmem, List.nil_prefix⟩
  · rintro ⟨n, hn, hmem, _⟩
    exact N.tenants_root S hn hmem

theorem Faithful.touched (F : Faithful h live path) {T' : Tree} (ht : Touched h.tree T') :
    Faithful { h with tree := T' } live path where
  inv := ht.inv F.inv
  present_eq := by rw [F.present_eq, ht.tenants]
  stored_iff tenant w := by rw [F.stored_iff, ht.holds_iff]

/-- A lookup that is not due for a stray time stamp touches time stamps only. -/
theorem Faithful.touched_of_match (F : Faithful h live path) {k : ℕ} {n : NodeId}
    {enters : NodeId → Bool} {text : List Char} (M : Matched live path enters text k n)
    {T' : Tree} (hdue : h.present.Nonempty ∨ h.tree.epochCounter &&& 7 ≠ 0)
    (ht : h.tree.tenants n ≠ ∅ ∨ h.tree.epochCounter &&& 7 ≠ 0 → Touched h.tree T') :
    Touched h.tree T' := by
  refine ht (hdue.imp (fun hpresent => ?_) id)
  by_cases hr : n = rootId
  · rw [hr, ← F.present_eq]
    exact hpresent.ne_empty
  · exact (F.inv.tenanted _ M.mem hr).2

/-- What an operation reached from a faithful history leaves. -/
structure Outcome (h : History) (op : TreeOp) (T' : Tree) : Prop where
  run_eq : op.run h.tree = some T'
  faithful : h.Undue op → ∃ live' path', Faithful (h.record T' op) live' path'

section

variable (F : Faithful h live path)
include F

theorem Faithful.insert_outcome (text : List Char)
    (tenant : String) : ∃ T', Outcome h (.insert text tenant) T' := by
  obtain ⟨T', live', path', hT', I', hholds⟩ := insert_spec F.inv text tenant
  refine ⟨T', hT', fun _ => ⟨live', path', I', ?_, fun u w => ?_⟩⟩
  · ext u
    change u ∈ insert tenant h.present ↔ u ∈ T'.tenants rootId
    rw [mem_tenants_root_iff I'.shape I'.tenanted, hholds,
      ← mem_tenants_root_iff F.inv.shape F.inv.tenanted, ← F.present_eq]
    simp [or_comm]
  · refine Iff.trans ?_ (hholds u w).symm
    rw [← F.stored_iff]
    by_cases hu : u = tenant <;> simp [record, hu]

theorem Faithful.prefixMatch_outcome (O : HashOrder String)
    (text : List Char) : ∃ T', Outcome h (.prefixMatch O text) T' := by
  obtain ⟨r, n, T', hT', M, _, _, ht⟩ := prefixMatchWithCounts_spec F.inv.shape O text
  refine ⟨T', ?_, fun hdue => ⟨live, path, F.touched (F.touched_of_match M hdue ht)⟩⟩
  rw [TreeOp.run, Tree.prefixMatch, hT']
  rfl

theorem Faithful.prefixMatchTenant_outcome (text : List Char)
    (tenant : String) : ∃ T', Outcome h (.prefixMatchTenant text tenant) T' := by
  obtain ⟨k, T', hT', ht, _⟩ := prefixMatchTenant_spec F.inv.shape F.inv.tenanted text tenant
  refine ⟨T', ?_, fun _ => ⟨live, path, F.touched ht⟩⟩
  rw [TreeOp.run, hT']
  rfl

theorem Faithful.evictTenantBySize_outcome (O : MapOrders)
    (maxSize : ℕ) : ∃ T', Outcome h (.evictTenantBySize O maxSize) T' := by
  obtain ⟨T', live', hT', hevict, _⟩ := evictTenantBySize_spec F.inv O maxSize
  refine ⟨T', hT', fun _ => ⟨live', path, hevict.inv, F.present_eq.trans hevict.root.symm,
    fun u w => ?_⟩⟩
  change w ∈ h.stored u ∧ T'.Keeps u w ↔ T'.Holds live' path u w
  rw [keeps_iff hevict.inv.shape, F.stored_iff]
  exact ⟨And.right, fun hw => ⟨hevict.shrinks u w hw, hw⟩⟩

theorem Faithful.removeTenant_outcome (O : HashOrder Char)
    (tenant : String) : ∃ T', Outcome h (.removeTenant O tenant) T' := by
  obtain ⟨T', live', hT', I', hgone, hholds⟩ := removeTenant_spec F.inv O tenant
  have hnone : ∀ w, ¬T'.Holds live' path tenant w := fun w ⟨m, hm, hmem, _⟩ => hgone m hm hmem
  refine ⟨T', hT', fun _ => ⟨live', path, I', ?_, fun u w => ?_⟩⟩
  · ext u
    change u ∈ h.present.erase tenant ↔ u ∈ T'.tenants rootId
    rw [mem_tenants_root_iff I'.shape I'.tenanted, Finset.mem_erase, F.present_eq,
      mem_tenants_root_iff F.inv.shape F.inv.tenanted]
    by_cases hu : u = tenant
    · rw [hu]
      exact ⟨fun hand => absurd rfl hand.1, fun hw => absurd hw (hnone _)⟩
    · rw [hholds u hu]
      exact ⟨And.right, fun hw => ⟨hu, hw⟩⟩
  · by_cases hu : u = tenant
    · subst hu
      exact ⟨fun hw => by simp [record] at hw, fun hw => absurd hw (hnone w)⟩
    · refine Iff.trans ?_ (hholds u hu w).symm
      rw [← F.stored_iff]
      simp [record, hu]

theorem Faithful.outcome (op : TreeOp) : ∃ T', Outcome h op T' := by
  cases op with
  | insert text tenant => exact F.insert_outcome text tenant
  | prefixMatch O text => exact F.prefixMatch_outcome O text
  | prefixMatchTenant text tenant => exact F.prefixMatchTenant_outcome text tenant
  | evictTenantBySize O maxSize => exact F.evictTenantBySize_outcome O maxSize
  | removeTenant O tenant => exact F.removeTenant_outcome O tenant

theorem Faithful.step {op : TreeOp} (hok : h.Undue op) {h' : History}
    (hrun : h.run op = some h') : ∃ live' path', Faithful h' live' path' := by
  obtain ⟨T', hT', hfaithful⟩ := F.outcome op
  rw [run, hT'] at hrun
  obtain rfl := Option.some.inj hrun
  exact hfaithful hok

theorem Faithful.exact : Exact h where
  completes op := by
    obtain ⟨T', hT', _⟩ := F.outcome op
    exact ⟨h.record T' op, by rw [run, hT']; rfl⟩
  matches_longest O text := by
    obtain ⟨r, n, T', hT', M, _, htenant, ht⟩ := prefixMatchWithCounts_spec F.inv.shape O text
    refine ⟨r, T', hT', ⟨⟨M.le, ?_⟩, ?_⟩, fun hpresent => ?_, fun hdue => ?_⟩
    · by_cases hr : n = rootId
      · subst hr
        exact Or.inl (M.eq_zero_of_root F.inv.shape)
      · obtain ⟨tenant, hmem⟩ :=
          Finset.nonempty_iff_ne_empty.mpr (F.inv.tenanted _ M.mem hr).2
        exact Or.inr ⟨tenant, (F.stored_iff _ _).mpr ⟨n, M.mem, hmem, M.take_le⟩⟩
    · rintro j ⟨hj, rfl | ⟨tenant, hstored⟩⟩
      · exact Nat.zero_le _
      · obtain ⟨m, hm, _, hw⟩ := (F.stored_iff _ _).mp hstored
        exact M.best m hm (Or.inr rfl) j hj hw
    · have hne : h.tree.tenants n ≠ ∅ := by
        by_cases hr : n = rootId
        · rw [hr, ← F.present_eq]
          exact hpresent.ne_empty
        · exact (F.inv.tenanted _ M.mem hr).2
      have hmem := htenant hne
      refine ⟨?_, (F.stored_iff _ _).mpr ⟨n, M.mem, hmem, M.take_le⟩⟩
      rw [F.present_eq]
      exact F.inv.tenanted.tenants_root F.inv.shape M.mem hmem
    · exact (F.touched_of_match M hdue ht).tenants
  not_recorded hnot n hn hmem := by
    rw [F.present_eq] at hnot
    exact hnot (F.inv.tenanted.tenants_root F.inv.shape (F.inv.shape.inTree_iff.mp hn) hmem)

end

theorem faithful_new (epochCounter : UInt64) :
    Faithful (new epochCounter) {rootId} fun _ => [] where
  inv := inv_new epochCounter
  present_eq := rfl
  stored_iff tenant w := by
    refine ⟨fun hw => absurd hw (Set.notMem_empty w), ?_⟩
    rintro ⟨n, _, hmem, _⟩
    exact absurd hmem (Finset.notMem_empty tenant)

/-- Lookups are exact in every run in which no lookup is due while there is no tenant. -/
theorem exact_of_reachesUndue (hrun : ReachesUndue h) : Exact h := by
  have hinv : ∃ live path, Faithful h live path := by
    refine Reachable.invariant (I := fun h => ∃ live path, Faithful h live path) ?_ ?_ hrun
    · rintro _ ⟨epochCounter, rfl⟩
      exact ⟨_, _, faithful_new epochCounter⟩
    · rintro h h' op ⟨live, path, F⟩ hok hstep
      exact F.step hok hstep
  obtain ⟨live, path, F⟩ := hinv
  exact F.exact

/-- Lookups among the texts of two tenants. -/
theorem exact_twoTenants :
    ∃ h, Reachable.runAll run (new 0) [.insert ['a', 'b'] "w1", .insert ['a', 'c'] "w2",
        .prefixMatch HashOrder.increasing ['a', 'b', 'd'], .prefixMatchTenant ['a'] "w2"] = some h ∧
      Exact h := by
  refine ⟨_, rfl, exact_of_reachesUndue ?_⟩
  refine .step (a := .prefixMatchTenant ['a'] "w2") (.step
    (a := .prefixMatch HashOrder.increasing ['a', 'b', 'd']) (.step (a := .insert ['a', 'c'] "w2")
      (.step
      (a := .insert ['a', 'b'] "w1") (.start ⟨0, rfl⟩) trivial rfl) trivial rfl)
    (Or.inl ⟨"w1", ?_⟩) rfl) trivial rfl
  decide

/-- The first lookup of an empty tree records the tenant `"empty"`. A later lookup reports it,
though the only tenant is `"w1"`. -/
theorem reports_empty : ∃ h, Reachable.runAll run (new 0)
        [.prefixMatch HashOrder.increasing ['a'], .insert ['b'] "w1"] = some h ∧
      Reaches h ∧ h.present = {"w1"} ∧ "empty" ∈ h.tree.tenants rootId ∧
      ((h.tree.prefixMatchWithCounts HashOrder.increasing ['c']).map fun r => r.1.tenant) =
        some "empty" := by
  refine ⟨_, rfl, ?_, rfl, by decide +kernel, by decide +kernel⟩
  exact Reachable.of_runAll [.prefixMatch HashOrder.increasing ['a'], .insert ['b'] "w1"]
    (fun _ _ _ => trivial) (.start ⟨0, rfl⟩) rfl

end History

end Sglang.Gateway
