import Mathlib.Data.Int.ConditionallyCompleteOrder
import Mathlib.Order.CompletePartialOrder
import Mathlib.Order.Interval.Set.Basic
import Sglang.MultiEnded.PairRun

/-!
# The two ends of the buffer

The frontiers of the two sides do not cross in any state of a run, provided
they do not cross in the cleared state. A buffer may be accepted although the
first page of the grow-up side ends above the last page of the grow-down side;
no gate then lets anything through that needs the gap, so in every case pages
bound on different sides share no byte.
-/

namespace Sglang.MultiEnded

open Sglang.Support Sglang.PagedAlloc Sglang.UnifiedPool Function

/-- The side that grows up. -/
def Composite.upSide (C : Composite) : Side :=
  match C.fullDirection with
  | .up => .full
  | .down => .other

/-- The high frontier of the grow-up side is at most the low frontier of the
grow-down side. -/
def FrontiersApart (C : Composite) (P : Pair) : Prop :=
  byteHighFrontier (C.cfg C.upSide) (P C.upSide) ≤
    byteLowFrontier (C.cfg C.upSide.peer) (P C.upSide.peer)

instance (C : Composite) (P : Pair) : Decidable (FrontiersApart C P) :=
  inferInstanceAs (Decidable (_ ≤ _))

/-- The bytes of a physical page. -/
def pageBytes (c : Config) (p : ℤ) : Set ℤ :=
  Set.Ico (p * c.entryBytesPerPage) ((p + 1) * c.entryBytesPerPage)

/-- Pages bound on different sides share no byte. -/
def BoundBytesDisjoint (C : Composite) (P : Pair) : Prop :=
  ∀ v w, v ≠ 0 → w ≠ 0 → (P .full).virtualToPhysical v ≠ -1 →
    (P .other).virtualToPhysical w ≠ -1 →
      Disjoint (pageBytes (C.cfg .full) ((P .full).virtualToPhysical v))
        (pageBytes (C.cfg .other) ((P .other).virtualToPhysical w))

variable {C : Composite} {P : Pair} {p : ℤ}

/-! ## Frontiers and occupied bytes -/

theorem Composite.direction_upSide (C : Composite) : (C.cfg C.upSide).growDirection = .up := by
  show C.direction C.upSide = .up
  unfold upSide
  cases h : C.fullDirection with
  | up => exact h
  | down => simp [direction, h, GrowDirection.flip]

theorem frontiersApart_iff : FrontiersApart C P ↔ reach (C.cfg C.upSide) (P C.upSide) +
      reach (C.cfg C.upSide.peer) (P C.upSide.peer) ≤ C.pool.totalBytes := by
  have hup := C.direction_upSide
  have hdown := C.direction_peer C.upSide
  have htotal : (C.cfg C.upSide.peer).totalBytes = C.pool.totalBytes := rfl
  rw [hup] at hdown
  unfold FrontiersApart reach
  simp only [hup, hdown, GrowDirection.flip, htotal]
  constructor
  · intro h
    omega
  · intro h
    omega

/-- An empty side occupies what it occupies when cleared. -/
theorem reach_of_width_zero {c : Config} {a : Allocator} (h : width c a = 0) :
    reach c a = reach c (clear c) := by
  have hsub := reach_sub c (clear c) a
  rw [h, width_clear, sub_zero, zero_mul] at hsub
  exact sub_eq_zero.mp hsub

/-- Pages of a band lie inside the bytes the side occupies. -/
theorem pageBytes_within {c : Config} {a : Allocator}
    (hp : p ∈ band c a) {b : ℤ} (hb : b ∈ pageBytes c p) : match c.growDirection with
    | .up => b < reach c a
    | .down => c.totalBytes - reach c a ≤ b := by
  obtain ⟨hlow, hhigh⟩ := hb
  rw [mem_band_iff] at hp
  have he : (0 : ℤ) ≤ c.entryBytesPerPage := by positivity
  unfold width Config.depth at hp
  unfold reach byteHighFrontier byteLowFrontier
  cases hd : c.growDirection with
  | up =>
    simp only [hd] at hp ⊢
    have hle := mul_le_mul_of_nonneg_right (show p + 1 ≤ a.watermarkPhysical by omega) he
    omega
  | down =>
    simp only [hd] at hp ⊢
    have hle := mul_le_mul_of_nonneg_right (show a.watermarkPhysical + 1 ≤ p by omega) he
    omega

theorem pageBytes_disjoint {s : Side} {q : ℤ}
    (hsum : reach (C.cfg s) (P s) + reach (C.cfg s.peer) (P s.peer) ≤ C.pool.totalBytes)
    (hup : (C.cfg s).growDirection = .up) (hp : p ∈ band (C.cfg s) (P s))
    (hq : q ∈ band (C.cfg s.peer) (P s.peer)) :
    Disjoint (pageBytes (C.cfg s) p) (pageBytes (C.cfg s.peer) q) := by
  rw [Set.disjoint_left]
  intro b hb hb'
  have hdown := C.direction_peer s
  rw [hup] at hdown
  have hlow := pageBytes_within hp hb
  have hhigh := pageBytes_within hq hb'
  simp only [hup] at hlow
  simp only [hdown, GrowDirection.flip] at hhigh
  have htotal : (C.cfg s.peer).totalBytes = C.pool.totalBytes := rfl
  omega

/-! ## The invariant in terms of bytes -/

theorem PairInv.frontiersApart (h : PairInv C P)
    (hclear : FrontiersApart C C.clear) : FrontiersApart C P := by
  rw [frontiersApart_iff] at hclear ⊢
  rcases h.separated with hsum | hzero
  · exact hsum C.upSide
  · rw [reach_of_width_zero (hzero C.upSide), reach_of_width_zero (hzero C.upSide.peer)]
    exact hclear

/-- Pages of the two bands share no byte. -/
theorem PairInv.bands_disjoint (h : PairInv C P) (s : Side) {q : ℤ} (hp : p ∈ band (C.cfg s) (P s))
    (hq : q ∈ band (C.cfg s.peer) (P s.peer)) :
    Disjoint (pageBytes (C.cfg s) p) (pageBytes (C.cfg s.peer) q) := by
  have hsum : ∀ s, reach (C.cfg s) (P s) + reach (C.cfg s.peer) (P s.peer) ≤
      C.pool.totalBytes := by
    rcases h.separated with hsum | hzero
    · exact hsum
    · -- An empty side has no page in its band.
      rw [mem_band_iff, hzero s] at hp
      omega
  have hpeer := C.direction_peer s
  cases hd : (C.cfg s).growDirection with
  | up => exact pageBytes_disjoint (hsum s) hd hp hq
  | down =>
    rw [hd] at hpeer
    have hsum' := hsum s.peer
    have hdisj := pageBytes_disjoint hsum' hpeer hq (by rw [Side.peer_peer]; exact hp)
    rw [Side.peer_peer] at hdisj
    exact hdisj.symm

theorem PairInv.boundBytesDisjoint (h : PairInv C P) : BoundBytesDisjoint C P := by
  intro v w hv hw hbv hbw
  exact h.bands_disjoint .full ((h.conserved .full).physical_mem_band hv hbv)
    ((h.conserved .other).physical_mem_band hw hbw)

/-- In every state of a settled run the frontiers are apart if they are apart when
cleared, and pages bound on different sides share no byte. -/
theorem frontiersApart_of_run (hrun : SettledRun C P) :
    (FrontiersApart C C.clear → FrontiersApart C P) ∧ BoundBytesDisjoint C P :=
  ⟨hrun.inv.pair.frontiersApart, hrun.inv.pair.boundBytesDisjoint⟩

/-! ## Two concrete pairs -/

/-- The outcome of an operation, nothing if it raises. -/
def PairOp.result (C : Composite) (P : Pair) (op : PairOp) : PairResult :=
  match op.step C P with
  | .ok r => r
  | .error _ => ⟨P, [], none⟩

/-- The state after an operation, the same state if it raises. -/
def PairOp.next (C : Composite) (P : Pair) (op : PairOp) : Pair := (op.result C P).state

theorem PairOp.step_eq_result {op : PairOp} (hreturns : (op.step C P).isOk = true) :
    op.step C P = .ok (op.result C P) := by
  unfold PairOp.result
  cases h : op.step C P with
  | error e => simp [h, Except.isOk, Except.toBool] at hreturns
  | ok r => rfl

theorem ForwardRun.next {ok : Pair → PairOp → Prop} (hrun : ForwardRun C ok P) (op : PairOp)
    (hlegal : op.Legal C P) (hok : ok P op) (hreturns : (op.step C P).isOk = true) :
    ForwardRun C ok (op.next C P) :=
  hrun.step hlegal hok (PairOp.step_eq_result hreturns)

/-- An attention sub-pool with two bytes a slot. -/
def thinAttention : MHASubPoolSpec where
  layerNum := 1
  headNum := 1
  headDim := 1
  vHeadDim := 1
  itemsize := 1
  layerNum_pos := Nat.one_pos
  headNum_pos := Nat.one_pos
  headDim_pos := Nat.one_pos
  vHeadDim_pos := Nat.one_pos
  itemsize_pos := Nat.one_pos

/-- A Mamba sub-pool with 14 bytes a slot. -/
def wideMamba : MambaSubPoolSpec where
  layerNum := 1
  convStateShapes := [[6]]
  convItemsize := 1
  temporalStateShape := [8]
  temporalItemsize := 1
  layerNum_pos := Nat.one_pos
  convStateShapes_ne := by decide
  convItemsize_pos := Nat.one_pos
  temporalItemsize_pos := Nat.one_pos

/-- The attention sub-pool grows up and the Mamba sub-pool grows down. -/
def thinSpecs : GrowDirection → SubPoolSpec
  | .up => .mha thinAttention
  | .down => .mamba wideMamba

/-- The lazy Mamba composite over a pool with these specifications. -/
def lazyMambaPair (pool : UnifiedKVPool) (hspec : pool.spec = thinSpecs)
    (hids : pool.minPageIndex .up ≤ pool.numPages .up) : Composite where
  pool := pool
  kind := .mamba
  fullDirection := .up
  needSort := false
  lazyCompaction := true
  sortFreeListAfterMerge := false
  lazyMaxMovesPerCall := 4096
  specs := by rw [hspec]; trivial
  ids_full := hids
  ids_other := fun h => by cases h

/-- A buffer of 64 bytes with pages of two attention slots. -/
def roomyPair : Composite :=
  lazyMambaPair
    { totalBytes := 64
      pageSize := 2
      spec := thinSpecs
      pageSize_pos := by decide
      accepted := by intro d; cases d <;> decide }
    rfl (by decide)

theorem roomyPair_not_swa : roomyPair.kind ≠ .swa := by decide

/-- Three attention pages and two Mamba slots are bound, and a forward runs on the
attention side. -/
def forwardPair : Pair :=
  let P := (PairOp.alloc .other 2 unfired).next roomyPair
    ((PairOp.alloc .full 6 unfired).next roomyPair roomyPair.clear)
  update P .full (setLatestForwardDoneEvent (P .full) (some 0))

/-- Virtual page `4` is freed and a partial pass moves page `6` into its place. -/
def passedPair : Pair :=
  (PairOp.flush .full false unfired).next roomyPair
    ((PairOp.free .full [8, 9]).next roomyPair forwardPair)

/-- Then virtual page `5` and Mamba slot `2` are freed: each side has a hole. -/
def holedPair : Pair :=
  (PairOp.free .other [2]).next roomyPair ((PairOp.free .full [10, 11]).next roomyPair passedPair)

theorem settledRun_forwardPair : SettledRun roomyPair forwardPair := by
  have h₀ : SettledRun roomyPair roomyPair.clear := ForwardRun.clear
  have h₁ := h₀.next (.alloc .full 6 unfired) roomyPair_not_swa trivial (by decide)
  have h₂ := h₁.next (.alloc .other 2 unfired) roomyPair_not_swa trivial (by decide)
  exact h₂.record (s := .full)
    (show Op.Records (.setLatestForwardDoneEvent (some 0)) from trivial) rfl

theorem settledRun_holedPair : SettledRun roomyPair holedPair := by
  have h₁ := settledRun_forwardPair.next (.free .full [8, 9])
    ⟨roomyPair_not_swa, by decide, by decide⟩ trivial (by decide)
  have h₂ := h₁.next (.flush .full false unfired) trivial
    (Or.inr fun e _ he => absurd he (by decide +revert)) (by decide)
  have h₃ := h₂.next (.free .full [10, 11]) ⟨roomyPair_not_swa, by decide, by decide⟩ trivial
    (by decide)
  exact h₃.next (.free .other [2]) ⟨roomyPair_not_swa, by decide, by decide⟩ trivial (by decide)

/-- A page waits for the forward, and each side has a hole. -/
theorem frontiersApart_holedPair :
    FrontiersApart roomyPair holedPair ∧ BoundBytesDisjoint roomyPair holedPair :=
  have h := frontiersApart_of_run settledRun_holedPair
  ⟨h.1 (by decide), h.2⟩

/-- Four attention pages are bound and a forward runs. -/
def beforePasses : Pair :=
  let P := (PairOp.alloc .full 8 unfired).next roomyPair roomyPair.clear
  update P .full (setLatestForwardDoneEvent (P .full) (some 0))

/-- Virtual page `4` is freed and a partial pass runs. -/
def firstPass : Pair :=
  (PairOp.flush .full false unfired).next roomyPair
    ((PairOp.free .full [8, 9]).next roomyPair beforePasses)

/-- Then virtual page `5` is freed and a second pass runs under the same event. -/
def secondPass : Pair :=
  (PairOp.flush .full false unfired).next roomyPair
    ((PairOp.free .full [10, 11]).next roomyPair firstPass)

theorem forwardRun_secondPass : ForwardRun roomyPair (fun _ _ => True) secondPass := by
  have h₀ : ForwardRun roomyPair (fun _ _ => True) roomyPair.clear := ForwardRun.clear
  have h₁ := h₀.next (.alloc .full 8 unfired) roomyPair_not_swa trivial (by decide)
  have h₂ := h₁.record (s := .full)
    (show Op.Records (.setLatestForwardDoneEvent (some 0)) from trivial) rfl
  have h₃ := h₂.next (.free .full [8, 9]) ⟨roomyPair_not_swa, by decide, by decide⟩ trivial
    (by decide)
  have h₄ := h₃.next (.flush .full false unfired) trivial trivial (by decide)
  have h₅ := h₄.next (.free .full [10, 11]) ⟨roomyPair_not_swa, by decide, by decide⟩ trivial
    (by decide)
  exact h₅.next (.flush .full false unfired) trivial trivial (by decide)

/-- A buffer of 33 bytes with one page of 16 attention slots: the page ends at
byte 32, the two Mamba slots end at byte 28. -/
def crossedPair : Composite :=
  lazyMambaPair
    { totalBytes := 33
      pageSize := 16
      spec := thinSpecs
      pageSize_pos := by decide
      accepted := by intro d; cases d <;> decide }
    rfl (by decide)

/-- The accepted buffer whose frontiers cross before anything is allocated. -/
theorem crossedPair_not_frontiersApart : SettledRun crossedPair crossedPair.clear ∧
      ¬ FrontiersApart crossedPair crossedPair.clear :=
  ⟨ForwardRun.clear, by decide⟩

end Sglang.MultiEnded
