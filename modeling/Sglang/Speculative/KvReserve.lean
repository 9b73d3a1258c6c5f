import Sglang.Support.Reachable
import Mathlib.Data.Nat.Basic
import Mathlib.Tactic.Ring
import Mathlib.Tactic.Linarith

/-!
# KV slots ahead of speculative decoding

Before every decode step a request gets slots for twice the footprint of a step, counted from
its committed length. The factor two pays for the result of the last verify, which may not have
been processed yet. How wide a row of `req_to_token` is, is computed elsewhere, and it has room
for the reserve only where the draft tree is paged.
-/

namespace Sglang.Speculative

open Sglang.Support List

/-- The server arguments that size the slots of a step; NGRAM has no draft KV. -/
structure SpecArgs where
  pageSize : ℕ
  topk : ℕ
  numSteps : ℕ
  numDraftTokens : ℕ
  hasDraftKv : Bool
  pageSize_pos : 0 < pageSize
  topk_pos : 0 < topk
  numSteps_pos : 0 < numSteps
  numDraftTokens_pos : 0 < numDraftTokens

namespace SpecArgs

variable (a : SpecArgs)

def getAllocLenPerDecode : ℕ :=
  if a.pageSize = 1 ∨ a.topk = 1 ∨ a.hasDraftKv = false then
    max (a.numSteps * a.topk) a.numDraftTokens
  else
    let numNewPagesPerTopk := ((a.pageSize - 1) + a.numSteps + a.pageSize - 1) / a.pageSize
    max (numNewPagesPerTopk * a.pageSize * a.topk) a.numDraftTokens

def getAllocReservePerDecode : ℕ := 2 * a.getAllocLenPerDecode

/-- The headroom of a row beyond the context length. -/
def getReqToTokenExtraContextLen : ℕ :=
  let extra := 4 + a.numDraftTokens
  if 1 < a.pageSize ∧ 1 < a.topk then max extra a.getAllocReservePerDecode else extra

/-! ## The positions of a step -/

variable (seqLen : ℕ)

/-- The pages of one branch of the draft tree. -/
def numNewPages : ℕ := (seqLen % a.pageSize + a.numSteps + a.pageSize - 1) / a.pageSize

/-- The first position in the pages of branch `t`. -/
def branchBase (seqLen t : ℕ) : ℕ :=
  seqLen - seqLen % a.pageSize + t * (a.numNewPages seqLen * a.pageSize)

/-- `prepare_for_draft`: where the draft forward writes. -/
def draftWrites : List ℕ :=
  if a.pageSize = 1 ∨ a.topk = 1 then
    (List.range (a.topk * a.numSteps)).map (seqLen + ·)
  else
    (List.range a.topk).flatMap fun t =>
      (List.range a.numSteps).map fun i => a.branchBase seqLen t + seqLen % a.pageSize + i

/-- `duplicate_prefix_tail_to_draft_branches`: the first page of every branch. -/
def tailPages : List ℕ :=
  if a.pageSize = 1 ∨ a.topk = 1 then []
  else (List.range a.topk).flatMap fun t =>
    (List.range a.pageSize).map fun i => a.branchBase seqLen t + i

/-- `generate_draft_decode_kv_indices`: the prefix and the branches of all steps. -/
def draftReads : List ℕ :=
  List.range seqLen ++ (List.range a.topk).flatMap fun t =>
    (List.range a.numSteps).map fun i =>
      if a.pageSize = 1 ∨ a.topk = 1 then seqLen + t * a.numSteps + i
      else a.branchBase seqLen t + seqLen % a.pageSize + i

/-- The verify forward, and the draft extend behind it, write the draft tokens after the prefix. -/
def verifyPositions : List ℕ := List.range (seqLen + a.numDraftTokens)

def forwardPositions : List ℕ :=
  (if a.hasDraftKv then a.draftWrites seqLen ++ a.tailPages seqLen ++ a.draftReads seqLen
   else []) ++
    a.verifyPositions seqLen

theorem numDraftTokens_le : a.numDraftTokens ≤ a.getAllocLenPerDecode := by
  unfold getAllocLenPerDecode
  split <;> exact le_max_right ..

/-- The branches of a paged tree fit into the footprint of a step. -/
theorem branch_lt (hpaged : ¬ (a.pageSize = 1 ∨ a.topk = 1)) (hdraft : a.hasDraftKv = true)
    {seqLen t i : ℕ} (ht : t < a.topk) (hi : i < a.numNewPages seqLen * a.pageSize) :
    a.branchBase seqLen t + i < seqLen + a.getAllocLenPerDecode := by
  have hpages : a.numNewPages seqLen ≤
      ((a.pageSize - 1) + a.numSteps + a.pageSize - 1) / a.pageSize := by
    have := Nat.mod_lt seqLen a.pageSize_pos
    exact Nat.div_le_div_right (by omega)
  have halloc : a.numNewPages seqLen * a.pageSize * a.topk ≤ a.getAllocLenPerDecode := by
    unfold getAllocLenPerDecode
    rw [if_neg (by simp_all)]
    refine le_trans ?_ (le_max_left ..)
    gcongr
  have hbranch : (t + 1) * (a.numNewPages seqLen * a.pageSize) ≤
      a.topk * (a.numNewPages seqLen * a.pageSize) := Nat.mul_le_mul_right _ ht
  have hbase : seqLen - seqLen % a.pageSize ≤ seqLen := Nat.sub_le ..
  unfold branchBase
  calc _ < seqLen + (t + 1) * (a.numNewPages seqLen * a.pageSize) := by
        rw [Nat.succ_mul]
        omega
    _ ≤ seqLen + a.topk * (a.numNewPages seqLen * a.pageSize) := by omega
    _ ≤ seqLen + a.getAllocLenPerDecode := by
        rw [Nat.mul_comm a.topk]
        omega

/-- The pages of a branch hold the tail of the prefix and the draft tokens. -/
theorem tail_add_lt {i : ℕ} (hi : i < a.numSteps) :
    seqLen % a.pageSize + i < a.numNewPages seqLen * a.pageSize := by
  have hdiv := Nat.div_add_mod (seqLen % a.pageSize + a.numSteps + a.pageSize - 1) a.pageSize
  have hmod := Nat.mod_lt (seqLen % a.pageSize + a.numSteps + a.pageSize - 1) a.pageSize_pos
  rw [Nat.mul_comm] at hdiv
  unfold numNewPages
  omega

theorem page_le : a.pageSize ≤ a.numNewPages seqLen * a.pageSize := by
  have hpos := a.tail_add_lt seqLen a.numSteps_pos
  refine Nat.le_mul_of_pos_left _ (Nat.pos_of_ne_zero fun hzero => ?_)
  simp [hzero] at hpos

/-- A step stays within its footprint. -/
theorem forward_lt {seqLen p : ℕ} (h : p ∈ a.forwardPositions seqLen) :
    p < seqLen + a.getAllocLenPerDecode := by
  have hverify := a.numDraftTokens_le
  have hflat : (a.pageSize = 1 ∨ a.topk = 1) → a.topk * a.numSteps ≤ a.getAllocLenPerDecode := by
    intro hflat
    unfold getAllocLenPerDecode
    rw [if_pos (by tauto), Nat.mul_comm]
    exact le_max_left ..
  have hrow : ∀ t i, t < a.topk → i < a.numSteps → t * a.numSteps + i < a.topk * a.numSteps := by
    intro t i ht hi
    have := Nat.mul_le_mul_right a.numSteps (Nat.succ_le_of_lt ht)
    rw [Nat.succ_mul] at this
    omega
  simp only [forwardPositions, mem_append, verifyPositions, mem_range] at h
  rcases h with h | h
  · cases hdraft : a.hasDraftKv with
    | false => simp [hdraft] at h
    | true =>
      by_cases hpaged : a.pageSize = 1 ∨ a.topk = 1
      · have hfoot := hflat hpaged
        simp only [hdraft, if_true, draftWrites, tailPages, draftReads, if_pos hpaged,
          mem_append, mem_map, mem_range, mem_flatMap, not_mem_nil,
          or_false] at h
        rcases h with ⟨i, hi, rfl⟩ | h | ⟨t, ht, i, hi, rfl⟩
        · omega
        · have := a.numDraftTokens_pos
          omega
        · have := hrow t i ht hi
          omega
      · simp only [hdraft, if_true, draftWrites, tailPages, draftReads, if_neg hpaged,
          mem_append, mem_map, mem_range, mem_flatMap] at h
        rcases h with (⟨t, ht, i, hi, rfl⟩ | ⟨t, ht, i, hi, rfl⟩) | h | ⟨t, ht, i, hi, rfl⟩
        · rw [Nat.add_assoc]
          exact a.branch_lt hpaged hdraft ht (a.tail_add_lt seqLen hi)
        · exact a.branch_lt hpaged hdraft ht (lt_of_lt_of_le hi (a.page_le seqLen))
        · have := a.numDraftTokens_pos
          omega
        · rw [Nat.add_assoc]
          exact a.branch_lt hpaged hdraft ht (a.tail_add_lt seqLen hi)
  · omega

end SpecArgs

/-! ## Requests -/

/-- `init_req_max_new_tokens` for a request of `inputLen` tokens. -/
def initReqMaxNewTokens (maxReqLen maxTotalNumTokens pageSize inputLen : ℕ)
    (maxNewTokens : Option ℕ) : ℕ :=
  let pagedInputLen := (inputLen + pageSize - 1) / pageSize * pageSize
  -- truncated subtraction is `max(0, ...)`
  min (maxNewTokens.getD (2 ^ 30))
    (min (maxReqLen - inputLen - 1) (maxTotalNumTokens - pagedInputLen - pageSize - 1))

/-- `validate_input_length`: the length of the prompt, where it is accepted. -/
def validateInputLength (inputLen maxReqInputLen : ℕ) (allowAutoTruncate : Bool) : Option ℕ :=
  if maxReqInputLen ≤ inputLen then
    if allowAutoTruncate then some maxReqInputLen else none
  else some inputLen

/-- A request as it arrives, and the pool it arrives at. -/
structure Arrival where
  contextLen : ℕ
  maxTotalNumTokens : ℕ
  allowAutoTruncate : Bool
  inputLen : ℕ
  maxNewTokens : Option ℕ

namespace Arrival

variable (r : Arrival)

def maxReqLen : ℕ := r.contextLen - 1

/-- The prompt that is scheduled. -/
def promptLen : Option ℕ := validateInputLength r.inputLen (r.maxReqLen - 5) r.allowAutoTruncate

def budget (a : SpecArgs) : ℕ :=
  initReqMaxNewTokens r.maxReqLen r.maxTotalNumTokens a.pageSize r.inputLen r.maxNewTokens

end Arrival

inductive Stage
  | waiting
  | running
  /-- Behind `eagle_prepare_for_decode`: the draft and the verify forward come next. -/
  | prepared
  | finished
  deriving DecidableEq

structure ReqState where
  outputLen : ℕ
  kvCommittedLen : ℕ
  kvAllocatedLen : ℕ
  /-- `batch.seq_lens`, which a verify advances on the device. -/
  seqLen : ℕ
  /-- The token of the prefill has not been processed yet. -/
  prefillPending : Bool
  /-- The accept lengths of the verifies whose results have not been processed yet. -/
  pending : List ℕ
  stage : Stage

inductive Event
  /-- `prepare_for_extend` of the whole prompt and the outputs so far. -/
  | prefill
  | prepareForDecode
  /-- The forward of the step; verification accepts `acceptLen` tokens. -/
  | launch (acceptLen : ℕ)
  /-- The oldest result; `kept` is less than accepted only where the grammar stops the request. -/
  | processResult (kept : ℕ) (stop : Bool)
  | retract

section

variable (a : SpecArgs) (promptLen maxNewTokens : ℕ)

/-- `update_finish_state` behind a result. -/
def ReqState.settle (s : ReqState) (outputLen : ℕ) (stop : Bool) : ReqState :=
  { s with
    outputLen
    stage := if stop = true ∨ maxNewTokens ≤ outputLen then .finished else .running }

def step (s : ReqState) : Event → Option ReqState
  | .prefill =>
    if s.stage = .waiting then
      some { s with
        kvCommittedLen := promptLen + s.outputLen
        kvAllocatedLen := promptLen + s.outputLen
        seqLen := promptLen + s.outputLen
        prefillPending := true
        stage := .running }
    else none
  | .prepareForDecode =>
    -- only the last result may still be on its way
    if s.stage = .running ∧ s.prefillPending.toNat + s.pending.length ≤ 1 then
      some { s with
        kvAllocatedLen := max s.kvAllocatedLen (s.kvCommittedLen + a.getAllocReservePerDecode)
        stage := .prepared }
    else none
  | .launch acceptLen =>
    if s.stage = .prepared ∧ 1 ≤ acceptLen ∧ acceptLen ≤ a.numDraftTokens then
      some { s with
        seqLen := s.seqLen + acceptLen
        pending := s.pending ++ [acceptLen]
        stage := .running }
    else none
  | .processResult kept stop =>
    if s.stage = .running then
      if s.prefillPending then
        some ({ s with prefillPending := false }.settle maxNewTokens (s.outputLen + 1) stop)
      else
        match s.pending with
        | [] => none
        | acceptLen :: rest =>
          if kept = acceptLen ∨ kept < acceptLen ∧ stop = true then
            some ({ s with
              kvCommittedLen := s.kvCommittedLen + kept
              pending := rest }.settle maxNewTokens (s.outputLen + kept) stop)
          else none
    else none
  | .retract =>
    -- the results on their way are skipped
    if s.stage = .running then
      some { s with
        kvCommittedLen := 0
        kvAllocatedLen := 0
        prefillPending := false
        pending := []
        stage := .waiting }
    else none

/-- The states of one request over all schedules. -/
def Scheduled : ReqState → Prop :=
  Reachable (· = ⟨0, 0, 0, 0, false, [], .waiting⟩) (fun _ _ => True)
    (step a promptLen maxNewTokens)

/-- The forward of a prepared step stays below the allocated length, and the allocated length
within the row. -/
structure Covered (contextLen : ℕ) (s : ReqState) : Prop where
  forward : s.stage = .prepared → ∀ p ∈ a.forwardPositions s.seqLen, p < s.kvAllocatedLen
  row : s.kvAllocatedLen ≤ contextLen + a.getReqToTokenExtraContextLen

/-- What the lengths have to do with each other. -/
structure Lengths (s : ReqState) : Prop where
  idle : s.stage = .waiting → s.prefillPending = false ∧ s.pending = []
  budget : s.stage ≠ .finished → s.outputLen ≤ maxNewTokens - 1
  committed : s.stage = .running ∨ s.stage = .prepared →
    s.kvCommittedLen + 1 = promptLen + s.outputLen + s.prefillPending.toNat
  seqLen : s.stage = .running ∨ s.stage = .prepared → s.seqLen = s.kvCommittedLen + s.pending.sum
  accepted : ∀ k ∈ s.pending, k ≤ a.numDraftTokens
  lag : s.stage = .prepared → s.prefillPending.toNat + s.pending.length ≤ 1
  reserved : s.stage = .prepared → s.kvCommittedLen + a.getAllocReservePerDecode ≤ s.kvAllocatedLen
  allocated : s.kvAllocatedLen ≤ promptLen + (maxNewTokens - 1) + a.getAllocReservePerDecode

end

variable {a : SpecArgs} {promptLen maxNewTokens contextLen : ℕ} {s s' : ReqState}

section

variable (V : Lengths a promptLen maxNewTokens s)
include V

theorem Lengths.prefill (hstage : s.stage = .waiting) : Lengths a promptLen maxNewTokens
    { s with
      kvCommittedLen := promptLen + s.outputLen
      kvAllocatedLen := promptLen + s.outputLen
      seqLen := promptLen + s.outputLen
      prefillPending := true
      stage := .running } := by
  have hbudget := V.budget (by simp [hstage])
  refine ⟨by simp, fun _ => hbudget, fun _ => rfl, fun _ => ?_, V.accepted, by simp, by simp, ?_⟩
  · simp [(V.idle hstage).2]
  · dsimp only
    omega

theorem Lengths.prepareForDecode (hstage : s.stage = .running)
    (hlag : s.prefillPending.toNat + s.pending.length ≤ 1) : Lengths a promptLen maxNewTokens
    { s with
      kvAllocatedLen := max s.kvAllocatedLen (s.kvCommittedLen + a.getAllocReservePerDecode)
      stage := .prepared } := by
  have hbudget := V.budget (by simp [hstage])
  have hcommitted := V.committed (Or.inl hstage)
  refine ⟨by simp, fun _ => hbudget, fun _ => hcommitted, fun _ => V.seqLen (Or.inl hstage),
    V.accepted, fun _ => hlag, fun _ => le_max_right .., max_le V.allocated ?_⟩
  have hpending := Bool.toNat_le s.prefillPending
  omega

theorem Lengths.launch (hstage : s.stage = .prepared) {k : ℕ} (hk : k ≤ a.numDraftTokens) :
    Lengths a promptLen maxNewTokens
      { s with seqLen := s.seqLen + k, pending := s.pending ++ [k], stage := .running } := by
  refine ⟨by simp, fun _ => V.budget (by simp [hstage]), fun _ => V.committed (Or.inr hstage),
    fun _ => ?_, fun i hi => ?_, by simp, by simp, V.allocated⟩
  · simp [V.seqLen (Or.inr hstage), Nat.add_assoc]
  · rcases List.mem_append.mp hi with hi | hi
    · exact V.accepted i hi
    · rwa [List.mem_singleton.mp hi]

theorem Lengths.retract (hstage : s.stage = .running) : Lengths a promptLen maxNewTokens
    { s with
      kvCommittedLen := 0
      kvAllocatedLen := 0
      prefillPending := false
      pending := []
      stage := .waiting } :=
  ⟨fun _ => ⟨rfl, rfl⟩, fun _ => V.budget (by simp [hstage]), by simp, by simp, by simp, by simp,
    by simp, Nat.zero_le _⟩

end

/-- A request that goes on behind a result has committed what it has put out. -/
theorem lengths_settle {n : ℕ} {stop : Bool}
    (hgoing : stop = false → s.kvCommittedLen + 1 = promptLen + n + s.prefillPending.toNat ∧
      s.seqLen = s.kvCommittedLen + s.pending.sum)
    (haccepted : ∀ k ∈ s.pending, k ≤ a.numDraftTokens)
    (hallocated : s.kvAllocatedLen ≤ promptLen + (maxNewTokens - 1) + a.getAllocReservePerDecode) :
    Lengths a promptLen maxNewTokens (s.settle maxNewTokens n stop) := by
  unfold ReqState.settle
  split
  · exact ⟨by simp, by simp, by simp, by simp, haccepted, by simp, by simp, hallocated⟩
  · rename_i hgo
    rw [not_or, Bool.not_eq_true, not_le] at hgo
    exact ⟨by simp, fun _ => Nat.le_sub_one_of_lt hgo.2, fun _ => (hgoing hgo.1).1,
      fun _ => (hgoing hgo.1).2, haccepted, by simp, by simp, hallocated⟩

theorem Lengths.processResult (V : Lengths a promptLen maxNewTokens s) {kept : ℕ} {stop : Bool}
    (h : step a promptLen maxNewTokens s (.processResult kept stop) = some s') :
    Lengths a promptLen maxNewTokens s' := by
  simp only [Speculative.step] at h
  split at h
  · rename_i hstage
    have hcommitted := V.committed (Or.inl hstage)
    have hseqLen := V.seqLen (Or.inl hstage)
    split at h
    · rename_i hprefill
      cases h
      refine lengths_settle (fun _ => ⟨?_, hseqLen⟩) V.accepted V.allocated
      rw [hprefill] at hcommitted
      exact hcommitted
    · split at h
      · cases h
      · rename_i acceptLen rest hpending
        rw [hpending, List.sum_cons] at hseqLen
        have haccepted := V.accepted
        rw [hpending, List.forall_mem_cons] at haccepted
        split at h
        · rename_i hkept
          cases h
          refine lengths_settle (fun hstop => ?_) haccepted.2 V.allocated
          -- a result is cut only where the request stops
          obtain rfl := hkept.resolve_right (by simp [hstop])
          dsimp only
          omega
        · cases h
  · cases h

theorem Lengths.step (V : Lengths a promptLen maxNewTokens s) (e : Event)
    (h : step a promptLen maxNewTokens s e = some s') : Lengths a promptLen maxNewTokens s' := by
  cases e with
  | prefill =>
    obtain ⟨hstage, h⟩ := Option.ite_none_right_eq_some.mp h
    cases h
    exact V.prefill hstage
  | prepareForDecode =>
    obtain ⟨⟨hstage, hlag⟩, h⟩ := Option.ite_none_right_eq_some.mp h
    cases h
    exact V.prepareForDecode hstage hlag
  | launch acceptLen =>
    obtain ⟨⟨hstage, -, hk⟩, h⟩ := Option.ite_none_right_eq_some.mp h
    cases h
    exact V.launch hstage hk
  | processResult kept stop => exact V.processResult h
  | retract =>
    obtain ⟨hstage, h⟩ := Option.ite_none_right_eq_some.mp h
    cases h
    exact V.retract hstage

theorem lengths_of_scheduled (h : Scheduled a promptLen maxNewTokens s) :
    Lengths a promptLen maxNewTokens s := by
  refine h.invariant ?_ fun e V _ hrun => V.step e hrun
  rintro s rfl
  constructor <;> simp

/-- The verify that may be on its way accepts no more than the footprint of a step. -/
theorem Lengths.forward (V : Lengths a promptLen maxNewTokens s) (hstage : s.stage = .prepared)
    {p : ℕ} (hp : p ∈ a.forwardPositions s.seqLen) : p < s.kvAllocatedLen := by
  have hlt := a.forward_lt hp
  have hseqLen := V.seqLen (Or.inr hstage)
  have hreserved := V.reserved hstage
  have hlag : s.pending.sum ≤ a.getAllocLenPerDecode := by
    match hpending : s.pending with
    | [] => simp
    | [k] =>
      have := V.accepted k (by simp [hpending])
      have := a.numDraftTokens_le
      simp
      omega
    | _ :: _ :: _ =>
      have := V.lag hstage
      simp [hpending] at this
      omega
  unfold SpecArgs.getAllocReservePerDecode at hreserved
  omega

/-- Every output of the budget but the last can be there when a request waits. -/
theorem scheduled_waiting (a : SpecArgs) (promptLen k : ℕ) (hk : k ≤ maxNewTokens - 1) : ∃ n,
    Scheduled a promptLen maxNewTokens ⟨k, 0, 0, n, false, [], .waiting⟩ := by
  induction k with
  | zero => exact ⟨0, .start rfl⟩
  | succ k ih =>
    obtain ⟨n, hwaiting⟩ := ih (by omega)
    refine ⟨promptLen + k, hwaiting.of_runAll
      [.prefill, .processResult 0 false, .retract] (fun _ _ _ => trivial) ?_⟩
    simp [Reachable.runAll, Speculative.step, ReqState.settle, show ¬ maxNewTokens ≤ k + 1 by omega]

/-- The longest committed prefix of an accepted request leaves room for the reserve. -/
def Arrival.Fits (r : Arrival) (a : SpecArgs) : Prop :=
  ∀ n, r.promptLen = some n → n + (r.budget a - 1) + a.getAllocReservePerDecode ≤
    r.contextLen + a.getReqToTokenExtraContextLen

/-- An accepted request is covered in every schedule exactly where it fits. -/
theorem covered_iff (a : SpecArgs) (r : Arrival) :
    (∀ n, r.promptLen = some n → ∀ s, Scheduled a n (r.budget a) s → Covered a r.contextLen s) ↔
      r.Fits a := by
  constructor
  · intro hcovered n hn
    obtain ⟨q, hwaiting⟩ := scheduled_waiting a n (r.budget a - 1) le_rfl
    have hprepared := hwaiting.of_runAll [.prefill, .prepareForDecode] (fun _ _ _ => trivial) rfl
    exact (le_max_right ..).trans (hcovered n hn _ hprepared).row
  · intro hfits n hn s hs
    have V := lengths_of_scheduled hs
    exact ⟨fun hstage p hp => V.forward hstage hp, V.allocated.trans (hfits n hn)⟩

/-- A tree of four branches over single-token pages. -/
def flatTree : SpecArgs := ⟨1, 4, 5, 8, true, by decide, by decide, by decide, by decide⟩

/-- A prompt near the end of the context. -/
def longPrompt : Arrival := ⟨2048, 100000, false, 2040, none⟩

theorem not_covered_flatTree : ¬ ∀ n, longPrompt.promptLen = some n →
    ∀ s, Scheduled flatTree n (longPrompt.budget flatTree) s →
      Covered flatTree longPrompt.contextLen s := by
  intro hcovered
  have hstart : Scheduled flatTree 2040 (longPrompt.budget flatTree)
      ⟨0, 0, 0, 0, false, [], .waiting⟩ := .start rfl
  have hprepared := hstart.of_runAll [.prefill, .prepareForDecode] (fun _ _ _ => trivial) rfl
  exact absurd (hcovered 2040 rfl _ hprepared).row (by decide)

/-- The rows are wide enough for the reserve of a paged tree. -/
theorem covered_of_paged (a : SpecArgs) (r : Arrival) (hpage : 1 < a.pageSize) (htopk : 1 < a.topk)
    {n : ℕ} (hn : r.promptLen = some n) {s : ReqState} (hs : Scheduled a n (r.budget a) s) :
    Covered a r.contextLen s := by
  have V := lengths_of_scheduled hs
  refine ⟨fun hstage p hp => V.forward hstage hp, V.allocated.trans ?_⟩
  have hextra : a.getAllocReservePerDecode ≤ a.getReqToTokenExtraContextLen := by
    unfold SpecArgs.getReqToTokenExtraContextLen
    rw [if_pos ⟨hpage, htopk⟩]
    exact le_max_right ..
  have hbudget : r.budget a ≤ r.maxReqLen - r.inputLen - 1 :=
    (min_le_right ..).trans (min_le_left ..)
  have hn' : n ≤ r.inputLen ∧ n ≤ r.maxReqLen - 5 := by
    simp only [Arrival.promptLen, validateInputLength] at hn
    grind
  unfold Arrival.maxReqLen at *
  omega

def pagedTree : SpecArgs := { flatTree with pageSize := 2, pageSize_pos := Nat.two_pos }

theorem covered_pagedTree : ∃ s, Covered pagedTree 2048 s ∧ s.stage = .prepared := by
  have hstart : Scheduled pagedTree 2040 (longPrompt.budget pagedTree)
      ⟨0, 0, 0, 0, false, [], .waiting⟩ := .start rfl
  have hprepared := hstart.of_runAll [.prefill, .prepareForDecode] (fun _ _ _ => trivial) rfl
  exact ⟨_, covered_of_paged _ longPrompt (by decide) (by decide) rfl hprepared, rfl⟩

end Sglang.Speculative
