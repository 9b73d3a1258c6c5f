import Mathlib.Data.Int.Range
import Mathlib.Data.List.Basic
import Mathlib.Tactic.Linarith

/-!
# Eviction behind the sliding window

`free_swa_out_of_window_slots` frees the window slots of a request behind its sliding window
and moves `swa_evicted_seqlen` up to the end of what was freed. A request's life is a
sequence of such calls; between them the caller moves the lengths it passes.
-/

namespace Sglang.PagedAlloc

/-- The arguments of a call and the fields of the request it reads. -/
structure WindowCall where
  preLen : ℤ
  slidingWindowSize : ℤ
  isChunkCache : Bool
  cacheProtectedLen : ℤ
  swaEvictFloor : ℤ

variable (pageSize : ℕ)

/-- The new `swa_evicted_seqlen` and the positions freed; none where the assertion fails. -/
def freeSwaOutOfWindowSlots (swaEvictedSeqlen : ℤ) (call : WindowCall) :
    Option (ℤ × List ℤ) :=
  if call.cacheProtectedLen % pageSize ≠ 0 then none
  else
    let evictFloor := max call.cacheProtectedLen call.swaEvictFloor
    let evictFloor :=
      if 1 < pageSize ∧ evictFloor > call.cacheProtectedLen then
        -(-evictFloor / pageSize) * pageSize
      else evictFloor
    let swaEvictedSeqlen := max swaEvictedSeqlen evictFloor
    let evictThreshold :=
      if call.isChunkCache then call.preLen - call.slidingWindowSize
      else call.preLen - max call.slidingWindowSize pageSize
    let newSwaEvictedSeqlen := max swaEvictedSeqlen evictThreshold
    let newSwaEvictedSeqlen :=
      if 1 < pageSize then newSwaEvictedSeqlen / pageSize * pageSize else newSwaEvictedSeqlen
    if newSwaEvictedSeqlen > swaEvictedSeqlen then
      some (newSwaEvictedSeqlen, Int.range swaEvictedSeqlen newSwaEvictedSeqlen)
    else some (swaEvictedSeqlen, [])

/-- The calls of a request's life, with what each leaves and frees. -/
def evictAll : ℤ → List WindowCall → Option (List (ℤ × List ℤ))
  | _, [] => some []
  | swaEvictedSeqlen, call :: calls => do
    let out ← freeSwaOutOfWindowSlots pageSize swaEvictedSeqlen call
    let outs ← evictAll out.1 calls
    some (out :: outs)

/-- What one call may free. -/
def BehindWindow (call : WindowCall) (x : ℤ) : Prop :=
  call.cacheProtectedLen ≤ x ∧ x < call.preLen - call.slidingWindowSize ∧
    (call.isChunkCache = false → x + pageSize ≤ call.preLen / pageSize * pageSize)

variable {pageSize}

/-- Rounding up changes nothing at a page boundary, nor in pages of one token. -/
theorem evictFloor_eq (hp : 0 < pageSize) {n m : ℤ} (hn : (pageSize : ℤ) ∣ n) (hle : n ≤ m) :
    (if 1 < pageSize ∧ m > n then -(-m / (pageSize : ℤ)) * pageSize else m) =
      -(-m / (pageSize : ℤ)) * pageSize := by
  split
  · rfl
  · rename_i h
    have hdvd : (pageSize : ℤ) ∣ -m := by
      by_cases hone : 1 < pageSize
      · rw [le_antisymm (not_lt.mp fun hlt => h ⟨hone, hlt⟩) hle]
        exact Int.dvd_neg.mpr hn
      · rw [show pageSize = 1 by omega]
        exact one_dvd _
    rw [neg_mul, Int.ediv_mul_cancel hdvd, neg_neg]

theorem pageFloor_eq (hp : 0 < pageSize) (m : ℤ) :
    (if 1 < pageSize then m / (pageSize : ℤ) * pageSize else m) = m / pageSize * pageSize := by
  split
  · rfl
  · rw [show pageSize = 1 by omega, Nat.cast_one, Int.ediv_one, mul_one]

theorem freeSwaOutOfWindowSlots_spec (hp : 0 < pageSize) {e : ℤ} (he : (pageSize : ℤ) ∣ e)
    {call : WindowCall} (hcall : call.cacheProtectedLen % pageSize = 0) :
    ∃ out, freeSwaOutOfWindowSlots pageSize e call = some out ∧ (pageSize : ℤ) ∣ out.1 ∧ e ≤ out.1 ∧
      ∀ x ∈ out.2, e ≤ x ∧ x < out.1 ∧ BehindWindow pageSize call x := by
  have hp' : (0 : ℤ) < pageSize := by exact_mod_cast hp
  simp only [freeSwaOutOfWindowSlots, hcall, ne_eq, not_true_eq_false, if_false]
  rw [evictFloor_eq hp (Int.dvd_of_emod_eq_zero hcall) (le_max_left _ _), pageFloor_eq hp]
  set floor := max call.cacheProtectedLen call.swaEvictFloor
  set start := max e (-(-floor / (pageSize : ℤ)) * pageSize) with hstart
  set threshold := ite (call.isChunkCache = true) _ _ with hthreshold
  have hdvd : (pageSize : ℤ) ∣ start := by
    rcases max_choice e (-(-floor / (pageSize : ℤ)) * pageSize) with h | h
    · rwa [hstart, h]
    · rw [hstart, h]
      exact dvd_mul_left _ _
  split
  · rename_i hlt
    refine ⟨_, rfl, dvd_mul_left _ _, (le_max_left _ _).trans hlt.le, fun x hx => ?_⟩
    obtain ⟨hge, hx⟩ := Int.mem_range_iff.mp hx
    refine ⟨(le_max_left _ _).trans hge, hx, ?_, ?_, fun hradix => ?_⟩
    · have hceil := Int.ediv_mul_le (-floor) hp'.ne'
      have hle := (le_max_right e (-(-floor / (pageSize : ℤ)) * pageSize)).trans hge
      have hprotected := le_max_left call.cacheProtectedLen call.swaEvictFloor
      rw [neg_mul] at hle
      linarith
    all_goals
      -- nothing is freed unless the threshold lies beyond the start
      have hmax : max start threshold = threshold := by
        refine max_eq_right (not_lt.mp fun hgt => ?_)
        rw [max_eq_left hgt.le, Int.ediv_mul_cancel hdvd] at hlt
        exact lt_irrefl _ hlt
      rw [hmax] at hx
    · have hfloor := Int.ediv_mul_le threshold hp'.ne'
      have hwindow : threshold ≤ call.preLen - call.slidingWindowSize := by
        rw [hthreshold]
        split
        · exact le_rfl
        · linarith [le_max_left call.slidingWindowSize (pageSize : ℤ)]
      linarith
    · rw [if_neg (by rw [hradix]; decide)] at hthreshold
      have hpage : threshold ≤ call.preLen + -1 * pageSize := by
        linarith [le_max_right call.slidingWindowSize (pageSize : ℤ)]
      have hmono := Int.ediv_le_ediv hp' hpage
      rw [Int.add_mul_ediv_right _ _ hp'.ne'] at hmono
      have hmul := mul_le_mul_of_nonneg_right hmono hp'.le
      rw [add_mul] at hmul
      linarith
  · exact ⟨_, rfl, hdvd, le_max_left _ _, fun x hx => nomatch hx⟩

/-- The life of a request: the evicted length grows by whole pages, no position is freed
twice, and each call frees behind its window and above what the cache protects. -/
theorem evictAll_keeps_window (hp : 0 < pageSize) (calls : List WindowCall)
    (hcalls : ∀ call ∈ calls, call.cacheProtectedLen % pageSize = 0) {e : ℤ}
    (he : (pageSize : ℤ) ∣ e) :
    ∃ outs : List (ℤ × List ℤ), evictAll pageSize e calls = some outs ∧
      (∀ out ∈ outs, (pageSize : ℤ) ∣ out.1 ∧ e ≤ out.1 ∧ ∀ x ∈ out.2, e ≤ x) ∧
      outs.Pairwise (fun o o' => o.1 ≤ o'.1 ∧ List.Disjoint o.2 o'.2) ∧
      List.Forall₂ (fun call out => ∀ x ∈ out.2, BehindWindow pageSize call x) calls outs := by
  induction calls generalizing e with
  | nil => exact ⟨[], rfl, by simp, .nil, .nil⟩
  | cons call calls ih =>
    obtain ⟨out, hout, hdvd, hle, hfreed⟩ := freeSwaOutOfWindowSlots_spec hp he
      (hcalls call List.mem_cons_self)
    obtain ⟨outs, houts, hall, hpair, hbehind⟩ :=
      ih (fun call hc => hcalls call (List.mem_cons_of_mem _ hc)) hdvd
    refine ⟨out :: outs, by simp [evictAll, hout, houts], ?_, ?_, ?_⟩
    · intro o ho
      rcases List.mem_cons.mp ho with rfl | ho
      · exact ⟨hdvd, hle, fun x hx => (hfreed x hx).1⟩
      · obtain ⟨h₁, h₂, h₃⟩ := hall o ho
        exact ⟨h₁, hle.trans h₂, fun x hx => hle.trans (h₃ x hx)⟩
    · refine List.pairwise_cons.mpr ⟨fun o ho => ⟨(hall o ho).2.1, ?_⟩, hpair⟩
      exact fun x hx hx' => absurd ((hall o ho).2.2 x hx') (not_le.mpr (hfreed x hx).2.1)
    · exact .cons (fun x hx => (hfreed x hx).2.2) hbehind

/-- Two chunks of a request in pages of 4, behind a window of 6. -/
theorem evictAll_twoChunks :
    evictAll 4 0 [⟨13, 6, false, 0, 0⟩, ⟨21, 6, false, 8, 0⟩] =
        some [(4, Int.range 0 4), (12, Int.range 8 12)] ∧
      ∃ outs : List (ℤ × List ℤ),
        evictAll 4 0 [⟨13, 6, false, 0, 0⟩, ⟨21, 6, false, 8, 0⟩] = some outs ∧
        outs.Pairwise fun o o' => o.1 ≤ o'.1 ∧ List.Disjoint o.2 o'.2 := by
  obtain ⟨outs, houts, -, hpair, -⟩ := @evictAll_keeps_window 4 (by decide)
    [⟨13, 6, false, 0, 0⟩, ⟨21, 6, false, 8, 0⟩] (by decide) 0 (dvd_zero _)
  exact ⟨by decide, outs, houts, hpair⟩

end Sglang.PagedAlloc
