import Sglang.MultiEnded.Flush

/-!
# Slot conservation over whole runs

A run of one allocator interleaves its operations in any order. The peer is an
arbitrary argument of every operation that reads it, and every query of an
event gets an arbitrary answer, so a run here covers every behaviour of the
other side and every moment at which an event fires.

The partition of the band is kept as long as no partial pass runs under an
unfired event that already holds pages: `_pending_reuse` is keyed by the event,
and a second batch under the same event replaces the first.
-/

namespace Sglang.MultiEnded

open Sglang.Support Sglang.PagedAlloc Sglang.UnifiedPool

variable {c : Config} {a : Allocator}

/-- The operations of a run. -/
inductive Op where
  | alloc (peer : Peer) (needSize : ℕ) (q : FlushQueries)
  | allocExtend (peer : Peer) (reqs : List ExtendReq) (q : FlushQueries)
  | allocDecode (peer : Peer) (reqs : List DecodeReq) (q : FlushQueries)
  | allocWithVirtual (peer : Peer) (virtualPages : List ℤ)
  | free (freeIndex : List ℤ)
  | flush (urgent : Bool) (q : FlushQueries)
  | maybeDrainPendingReuse (fired : Event → Bool)
  | setLatestForwardDoneEvent (event : Option Event)
  | setInflightForward (forwardDone : Event) (outCacheLocVirtual : List ℤ)

namespace Op

/-- The allocator after one operation. -/
def step (c : Config) (a : Allocator) : Op → Except AllocError Allocator
  | alloc peer needSize q => (MultiEnded.alloc c a peer needSize q).map AllocResult.alloc
  | allocExtend peer reqs q => (MultiEnded.allocExtend c a peer reqs q).map AllocResult.alloc
  | allocDecode peer reqs q => (MultiEnded.allocDecode c a peer reqs q).map AllocResult.alloc
  | allocWithVirtual peer vs => MultiEnded.allocWithVirtual c a peer vs
  | free ts => (MultiEnded.free c a ts).map Prod.fst
  | flush urgent q => (MultiEnded.flush c a urgent q).map FlushResult.alloc
  | maybeDrainPendingReuse fired => .ok (MultiEnded.maybeDrainPendingReuse c a fired)
  | setLatestForwardDoneEvent e => .ok (MultiEnded.setLatestForwardDoneEvent a e)
  | setInflightForward e ts => .ok (MultiEnded.setInflightForward c a e ts)

/-- The callers' contracts: ids bound from outside are fresh rows of the
table, and only bound ids are freed. -/
def Legal (c : Config) (a : Allocator) : Op → Prop
  | allocWithVirtual _ vs => vs.Nodup ∧ ∀ v ∈ vs, 0 < v ∧ v ≤ c.numPages ∧
      a.virtualToPhysical v = -1 ∧ v ∉ a.freeVirtualIds
  | free ts => Freeable c a ts
  | _ => True

/-- No partial pass under an unfired event that already holds pages. -/
def Settled (a : Allocator) : Op → Prop
  | flush urgent q => HeldEventFree a urgent q
  | _ => True

end Op

/-- The states reached from `clear()` by legal operations that satisfy `ok`. -/
inductive Run (c : Config) (ok : Allocator → Op → Prop) : Allocator → Prop
  | clear : Run c ok (clear c)
  | step {a a' : Allocator} {op : Op} (run : Run c ok a)
      (legal : op.Legal c a) (good : ok a op) (step : op.step c a = .ok a') :
      Run c ok a'

theorem exists_of_map_eq_ok {α β : Type*} {x : Except AllocError α}
    {f : α → β} {y : β} (h : x.map f = .ok y) : ∃ z, x = .ok z ∧ f z = y := by
  cases x with
  | error e => simp [Except.map] at h
  | ok z => exact ⟨z, rfl, Except.ok.inj h⟩

/-- One step keeps the invariant. -/
theorem Conserved.step {a' : Allocator} {op : Op} (h : Conserved c a)
    (hlegal : op.Legal c a) (hsettled : op.Settled a)
    (hstep : op.step c a = .ok a') : Conserved c a' := by
  cases op with
  | alloc peer n q =>
    obtain ⟨r, hr, rfl⟩ := exists_of_map_eq_ok hstep
    obtain ⟨peer', ho⟩ := (alloc_cases hr).outcome
    exact ho.conserved h
  | allocExtend peer reqs q =>
    obtain ⟨r, hr, rfl⟩ := exists_of_map_eq_ok hstep
    obtain ⟨peer', ho⟩ := (allocPaged_cases hr).outcome
    exact ho.conserved h
  | allocDecode peer reqs q =>
    obtain ⟨r, hr, rfl⟩ := exists_of_map_eq_ok hstep
    obtain ⟨peer', ho⟩ := (allocPaged_cases hr).outcome
    exact ho.conserved h
  | allocWithVirtual peer vs =>
    obtain ⟨hnodup, hvs⟩ := hlegal
    exact h.allocWithVirtual hnodup (fun v hv => (hvs v hv).1)
      (fun v hv => (hvs v hv).2.2.1) (fun v hv => (hvs v hv).2.2.2) hstep
  | free ts =>
    obtain ⟨r, hr, rfl⟩ := exists_of_map_eq_ok hstep
    obtain ⟨b, moves, heq, hspec⟩ := free_spec h hlegal
    rw [heq] at hr
    rw [← Except.ok.inj hr]
    exact hspec.conserved
  | flush urgent q =>
    obtain ⟨r, hr, rfl⟩ := exists_of_map_eq_ok hstep
    obtain ⟨r', heq, hspec⟩ := flush_spec h hsettled
    rw [heq] at hr
    rw [← Except.ok.inj hr]
    exact hspec.conserved
  | maybeDrainPendingReuse fired =>
    rw [← Except.ok.inj hstep]
    unfold MultiEnded.maybeDrainPendingReuse
    by_cases hlazy : c.lazyCompaction = true
    · rw [if_neg (not_not.mpr hlazy)]
      exact h.drainPendingReuse hlazy false fired
    · rw [if_pos hlazy]
      exact h
  | setLatestForwardDoneEvent e =>
    rw [← Except.ok.inj hstep]
    exact h.setEvents e a.inflightForward
  | setInflightForward e ts =>
    rw [← Except.ok.inj hstep]
    unfold MultiEnded.setInflightForward
    split
    · exact h
    · split <;> exact h.setEvents _ _

/-- The invariant holds in every state of a settled run. -/
theorem Run.conserved (hrun : Run c (fun a op => op.Settled a) a) : Conserved c a := by
  induction hrun with
  | clear => exact conserved_clear c
  | step _ hlegal hsettled hstep ih => exact ih.step hlegal hsettled hstep

/-! ## The partition of the band -/

/-- The physical pages between `min_page_index` and the watermark, mirrored
for grow-down. -/
def bandPages (c : Config) (a : Allocator) : List ℤ :=
  match c.growDirection with
  | .up => pageRange c.minPageIndex a.watermarkPhysical
  | .down => pageRange (a.watermarkPhysical + 1) c.numPages

theorem mem_bandPages {p : ℤ} : p ∈ bandPages c a ↔ p ∈ band c a := by
  rw [mem_band_iff]
  unfold bandPages width Config.depth
  cases c.growDirection <;> simp only [mem_pageRange] <;> omega

theorem nodup_bandPages : (bandPages c a).Nodup := by
  unfold bandPages
  cases c.growDirection <;> exact nodup_pageRange _ _

theorem length_bandPages (h : 0 ≤ width c a) : ((bandPages c a).length : ℤ) = width c a := by
  unfold width Config.depth at *
  unfold bandPages
  cases hd : c.growDirection with
  | up =>
    simp only [hd, length_pageRange] at h ⊢
    omega
  | down =>
    simp only [hd, length_pageRange] at h ⊢
    omega

/-- A physical page with a virtual partner, the padding anchor apart. -/
def BoundPage (a : Allocator) (p : ℤ) : Prop := p ≠ 0 ∧ a.physicalToVirtual p ≠ -1

instance (a : Allocator) : DecidablePred (BoundPage a) :=
  fun p => inferInstanceAs (Decidable (p ≠ 0 ∧ a.physicalToVirtual p ≠ -1))

/-- A page held by some entry of `_pending_reuse`. -/
def PendingPage (a : Allocator) (p : ℤ) : Prop := ∃ e ∈ a.pendingReuse, p ∈ e.2

theorem pendingPage_iff {p : ℤ} : PendingPage a p ↔ p ∈ pendingPages a := by
  simp [PendingPage, pendingPages, List.mem_flatMap]

/-- The band is partitioned into bound, free and pending pages, and the
redundant summaries agree with it. -/
structure SlotsConserved (c : Config) (a : Allocator) : Prop where
  cover : ∀ p, p ∈ bandPages c a ↔ BoundPage a p ∨ p ∈ a.freePhysPages ∨ PendingPage a p
  bound_not_free : ∀ p, BoundPage a p → p ∉ a.freePhysPages
  bound_not_pending : ∀ p, BoundPage a p → ¬ PendingPage a p
  free_not_pending : ∀ p ∈ a.freePhysPages, ¬ PendingPage a p
  bound_inverse : ∀ p, BoundPage a p → a.virtualToPhysical (a.physicalToVirtual p) = p
  free_nodup : a.freePhysPages.Nodup
  pending_mirror : ∀ p, p ∈ a.pendingReusePagesCpu ↔ PendingPage a p
  live_count : a.livePageCount = ((bandPages c a).filter fun p => BoundPage a p).length

theorem Conserved.length_bound (h : Conserved c a) :
    (((bandPages c a).filter fun p => BoundPage a p).length : ℤ) = heldPages c a := by
  have hunbound : ((bandPages c a).filter fun p => !decide (BoundPage a p)).Perm
      (unboundPages a) := by
    refine (List.perm_ext_iff_of_nodup (nodup_bandPages.filter _) h.pool.nodup).mpr fun p => ?_
    rw [List.mem_filter, mem_bandPages, h.pool.mem_iff]
    constructor
    · rintro ⟨hband, hp⟩
      refine ⟨hband, ?_⟩
      by_contra hne
      have : BoundPage a p := ⟨(h.band_pos hband).ne', hne⟩
      simp [this] at hp
    · rintro ⟨hband, hp⟩
      exact ⟨hband, by simp [BoundPage, hp]⟩
  have hsplit := (List.filter_append_perm (fun p => decide (BoundPage a p))
    (bandPages c a)).length_eq
  have hlen := hunbound.length_eq
  have hband := length_bandPages h.width_nonneg
  rw [List.length_append] at hsplit
  rw [heldPages]
  omega

theorem Conserved.slotsConserved (h : Conserved c a)
    (hlazy : c.lazyCompaction = true) : SlotsConserved c a := by
  have hunbound : ∀ p, p ∈ a.freePhysPages ∨ PendingPage a p ↔
      p ∈ unboundPages a := by
    intro p
    rw [pendingPage_iff, unboundPages, List.mem_append]
  have hbound : ∀ p, BoundPage a p → p ∉ unboundPages a := fun p hp hmem =>
    hp.2 ((h.pool.mem_iff p).mp hmem).2
  refine
    { cover := ?_
      bound_not_free := fun p hp hf => hbound p hp ((hunbound p).mp (Or.inl hf))
      bound_not_pending := fun p hp hf => hbound p hp ((hunbound p).mp (Or.inr hf))
      free_not_pending := fun p hp hpend =>
        List.disjoint_of_nodup_append h.pool.nodup hp (pendingPage_iff.mp hpend)
      bound_inverse := fun p hp => h.pool.inverse.right hp.2
      free_nodup := (List.nodup_append.mp h.pool.nodup).1
      pending_mirror := ?_
      live_count := by rw [h.live hlazy, h.length_bound] }
  · intro p
    rw [mem_bandPages, hunbound, h.pool.mem_iff]
    constructor
    · intro hband
      by_cases hp : a.physicalToVirtual p = -1
      · exact Or.inr ⟨hband, hp⟩
      · exact Or.inl ⟨(h.band_pos hband).ne', hp⟩
    · rintro (hp | ⟨hband, -⟩)
      · exact h.pool.mem_band hp.2 hp.1
      · exact hband
  · intro p
    rw [h.pendingCpu, List.mem_toFinset, pendingPage_iff]

/-- Along every run in which no partial pass runs under an unfired event that
already holds pages, no page is lost and none is both free and bound. -/
theorem slotsConserved_of_settled_run (hlazy : c.lazyCompaction = true)
    (hrun : Run c (fun a op => op.Settled a) a) : SlotsConserved c a :=
  hrun.conserved.slotsConserved hlazy

/-- The state after an operation, the same state if it raises. -/
def Op.next (c : Config) (a : Allocator) (op : Op) : Allocator :=
  match op.step c a with
  | .ok a' => a'
  | .error _ => a

theorem Run.next {ok : Allocator → Op → Prop} (hrun : Run c ok a) (op : Op)
    (hlegal : op.Legal c a) (hok : ok a op)
    (hreturns : (op.step c a).isOk = true) : Run c ok (op.next c a) := by
  cases h : op.step c a with
  | error e => simp [h, Except.isOk, Except.toBool] at hreturns
  | ok a' =>
    have hnext : op.next c a = a' := by simp [Op.next, h]
    rw [hnext]
    exact hrun.step hlegal hok h

/-- A lazy grow-up allocator with four pages to hand out. -/
def smallConfig : Config where
  growDirection := .up
  pageSize := 1
  numPages := 5
  minPageIndex := 1
  entryBytesPerPage := 1
  totalBytes := 5
  isIdOwner := true
  needSort := false
  lazyCompaction := true
  sortFreeListAfterMerge := false
  lazyMaxMovesPerCall := 4096
  pageSize_pos := Nat.one_pos
  minPageIndex_pos := Nat.one_pos
  entryBytesPerPage_pos := Nat.one_pos
  pages_fit := by decide
  ids_range := by decide

/-- No event has fired. -/
def unfired : FlushQueries := ⟨fun _ => false, fun _ => false, fun _ => false⟩

/-- Four pages are bound, a forward runs, and virtual page `1` is freed: a
partial pass moves page `4` into page `1`. -/
def afterFirstPass : Allocator :=
  let a := (Op.alloc none 4 unfired).next smallConfig (clear smallConfig)
  let a := (Op.setLatestForwardDoneEvent (some 0)).next smallConfig a
  let a := (Op.free [1]).next smallConfig a
  (Op.flush false unfired).next smallConfig a

/-- Then virtual page `2` is freed and a second partial pass runs. -/
def afterSecondPass (q : FlushQueries) : Allocator :=
  (Op.flush false q).next smallConfig ((Op.free [2]).next smallConfig afterFirstPass)

theorem run_afterFirstPass (ok : Allocator → Op → Prop)
    (hok : ∀ a op, a.pendingReuse = [] → ok a op) : Run smallConfig ok afterFirstPass := by
  have h₀ : Run smallConfig ok (clear smallConfig) := Run.clear
  have h₁ := h₀.next (Op.alloc none 4 unfired) trivial (hok _ _ rfl) (by decide)
  have h₂ := h₁.next (Op.setLatestForwardDoneEvent (some 0)) trivial
    (hok _ _ (by decide)) (by decide)
  have h₃ := h₂.next (Op.free [1]) ⟨by decide, by decide⟩ (hok _ _ (by decide)) (by decide)
  exact h₃.next (Op.flush false unfired) trivial (hok _ _ (by decide)) (by decide)

theorem settledRun_afterFirstPass :
    Run smallConfig (fun a op => op.Settled a) afterFirstPass := by
  refine run_afterFirstPass _ fun a op hnil => ?_
  cases op with
  | flush urgent q => exact Or.inr fun e _ he => by simp [hnil] at he
  | _ => trivial

/-- When the event has fired before the second pass, the run is settled. -/
theorem slotsConserved_afterSecondPass_fired : SlotsConserved smallConfig
      (afterSecondPass ⟨fun _ => true, fun _ => true, fun _ => true⟩) := by
  refine slotsConserved_of_settled_run (by decide) ?_
  have h₂ := settledRun_afterFirstPass.next (Op.free [2]) ⟨by decide, by decide⟩ trivial (by decide)
  exact h₂.next (Op.flush false ⟨_, _, _⟩) trivial (Or.inr fun _ _ _ => Or.inl rfl) (by decide)

/-- Two partial passes under one unfired event: the entry of page `4` is
replaced and the page is lost to the band. -/
theorem afterSecondPass_unfired_not_slotsConserved :
    Run smallConfig (fun _ _ => True) (afterSecondPass unfired) ∧
      ¬ SlotsConserved smallConfig (afterSecondPass unfired) := by
  constructor
  · have h₁ := run_afterFirstPass (fun _ _ => True) (fun _ _ _ => trivial)
    have h₂ := h₁.next (Op.free [2]) ⟨by decide, by decide⟩ trivial (by decide)
    exact h₂.next (Op.flush false unfired) trivial trivial (by decide)
  · intro h
    rcases (h.cover 4).mp (by decide) with hbound | hfree | hpending
    · exact absurd hbound (by decide)
    · exact absurd hfree (by decide)
    · exact absurd (pendingPage_iff.mp hpending) (by decide)

/-- In such a run neither a free of bound ids nor a flush ever raises. -/
theorem returns_of_settled_run (hrun : Run c (fun a op => op.Settled a) a) :
    (∀ ts, Freeable c a ts → ∃ r, free c a ts = .ok r) ∧ ∀ urgent q, HeldEventFree a urgent q →
        ∃ r, flush c a urgent q = .ok r := by
  constructor
  · intro ts hts
    obtain ⟨a', moves, heq, -⟩ := free_spec hrun.conserved hts
    exact ⟨_, heq⟩
  · intro urgent q hheld
    obtain ⟨r, heq, -⟩ := flush_spec hrun.conserved hheld
    exact ⟨r, heq⟩

/-- After a partial pass three pages are bound and page `4` waits for the forward. -/
theorem returns_afterFirstPass : (∃ r, free smallConfig afterFirstPass [2, 4] = .ok r) ∧
      ∃ r, flush smallConfig afterFirstPass true unfired = .ok r :=
  have h := returns_of_settled_run settledRun_afterFirstPass
  ⟨h.1 [2, 4] ⟨by decide, by decide⟩, h.2 true unfired (Or.inl rfl)⟩

end Sglang.MultiEnded
