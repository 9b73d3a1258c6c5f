import Mathlib.Data.List.Basic
import Mathlib.Data.List.Infix
import Mathlib.Order.MinMax
import Mathlib.Data.Nat.Basic

/-!
# Longest common prefixes

`lcp` is the length of the longest common prefix of two lists, characterised by
`le_lcp_iff`. The search by doubling windows and bisection that avoids a
comparison per element computes the same number.
-/

namespace Sglang.Support

open List

variable {α : Type*} [DecidableEq α] {l m : List α} {lo : ℕ}

def lcp : List α → List α → ℕ
  | a :: as, b :: bs => if a = b then lcp as bs + 1 else 0
  | _, _ => 0

@[simp] theorem lcp_cons_self (a : α) (l m : List α) : lcp (a :: l) (a :: m) = lcp l m + 1 := by
  rw [lcp, if_pos rfl]

/-- `lcp` is the greatest length on which the two lists agree. -/
theorem le_lcp_iff {k : ℕ} : k ≤ lcp l m ↔ k ≤ l.length ∧ k ≤ m.length ∧ l.take k = m.take k := by
  induction l generalizing m k with
  | nil => simp +contextual [lcp]
  | cons a as ih =>
    cases m with
    | nil => simp +contextual [lcp]
    | cons b bs =>
      cases k with
      | zero => simp
      | succ k =>
        by_cases hab : a = b
        · rw [lcp, if_pos hab, Nat.succ_le_succ_iff, ih]
          simp [hab]
        · rw [lcp, if_neg hab]
          simp [hab]

theorem lcp_le_left (l m : List α) : lcp l m ≤ l.length := (le_lcp_iff.mp le_rfl).1

theorem lcp_le_right (l m : List α) : lcp l m ≤ m.length := (le_lcp_iff.mp le_rfl).2.1

theorem take_lcp (l m : List α) : l.take (lcp l m) = m.take (lcp l m) := (le_lcp_iff.mp le_rfl).2.2

theorem eq_lcp {r : ℕ} (h : ∀ k, k ≤ r ↔ k ≤ l.length ∧ k ≤ m.length ∧ l.take k = m.take k) :
    r = lcp l m :=
  Nat.le_antisymm (le_lcp_iff.mpr ((h r).mp le_rfl)) ((h _).mpr (le_lcp_iff.mp le_rfl))

theorem lcp_take (l m : List α) (a b : ℕ) :
    lcp (l.take a) (m.take b) = min (lcp l m) (min a b) := by
  refine (eq_lcp fun k => ?_).symm
  rw [le_min_iff, le_min_iff, le_lcp_iff, length_take, length_take, le_min_iff,
    le_min_iff, take_take, take_take]
  constructor
  · rintro ⟨⟨hl, hm, h⟩, ha, hb⟩
    exact ⟨⟨ha, hl⟩, ⟨hb, hm⟩, by rwa [min_eq_left ha, min_eq_left hb]⟩
  · rintro ⟨⟨ha, hl⟩, ⟨hb, hm⟩, h⟩
    exact ⟨⟨hl, hm, by rwa [min_eq_left ha, min_eq_left hb] at h⟩, ha, hb⟩

theorem lcp_map {β : Type*} [DecidableEq β] {f : α → β} (hf : Function.Injective f)
    (l m : List α) : lcp (l.map f) (m.map f) = lcp l m := by
  refine (eq_lcp fun k => ?_).symm
  rw [le_lcp_iff, ← map_take, ← map_take, (map_injective_iff.mpr hf).eq_iff, length_map, length_map]

/-! ## Windows -/

/-- The window `l[lo:hi]`. -/
def window (l : List α) (lo hi : ℕ) : List α := (l.drop lo).take (hi - lo)

omit [DecidableEq α] in
/-- Agreement up to `hi` is agreement up to `lo` and on the window. -/
theorem take_eq_take_iff_window {hi : ℕ} (hlo : lo ≤ hi) (hl : lo ≤ l.length) (hm : lo ≤ m.length) :
    l.take hi = m.take hi ↔ l.take lo = m.take lo ∧ window l lo hi = window m lo hi := by
  have hsplit : ∀ x : List α, x.take hi = x.take lo ++ window x lo hi := by
    intro x
    unfold window
    conv_lhs => rw [show hi = lo + (hi - lo) by omega]
    rw [take_add]
  rw [hsplit l, hsplit m]
  constructor
  · intro h
    exact append_inj h (by simp [hl, hm])
  · rintro ⟨h₁, h₂⟩
    rw [h₁, h₂]

/-- Bisection inside a window that holds the first difference. -/
def bisect (l m : List α) : ℕ → ℕ → ℕ → ℕ
  | 0, lo, _ => lo
  | fuel + 1, lo, hi =>
    if hi - lo > 1 then
      let mid := (lo + hi) / 2
      if window l lo mid = window m lo mid then bisect l m fuel mid hi
      else bisect l m fuel lo mid
    else lo

/-- The doubling search over windows; `n` is the shorter length. -/
def gallop (l m : List α) (n : ℕ) : ℕ → ℕ → ℕ → ℕ
  | 0, _, _ => n
  | fuel + 1, lo, step =>
    if lo < n then
      let hi := if lo + step < n then lo + step else n
      if window l lo hi ≠ window m lo hi then bisect l m (hi - lo) lo hi
      else gallop l m n fuel hi (step * 2)
    else n

theorem bisect_eq_lcp {fuel hi : ℕ} (hfuel : hi - lo ≤ fuel)
    (hlt : lo < hi) (hl : hi ≤ l.length) (hm : hi ≤ m.length)
    (hagree : l.take lo = m.take lo) (hdiff : l.take hi ≠ m.take hi) :
    bisect l m fuel lo hi = lcp l m := by
  have hlo : lo ≤ lcp l m := le_lcp_iff.mpr ⟨by omega, by omega, hagree⟩
  have hhi : lcp l m < hi := by
    by_contra hge
    exact hdiff (le_lcp_iff.mp (not_lt.mp hge)).2.2
  induction fuel generalizing lo hi with
  | zero => omega
  | succ fuel ih =>
    rw [bisect]
    by_cases hwide : hi - lo > 1
    · rw [if_pos hwide]
      have hmid : lo < (lo + hi) / 2 ∧ (lo + hi) / 2 < hi := by omega
      have hiff := take_eq_take_iff_window (l := l) (m := m) hmid.1.le (by omega) (by omega)
      by_cases hw : window l lo ((lo + hi) / 2) = window m lo ((lo + hi) / 2)
      · have htake := hiff.mpr ⟨hagree, hw⟩
        simp only [hw, if_true]
        exact ih (by omega) hmid.2 hl hm htake hdiff
          (le_lcp_iff.mpr ⟨by omega, by omega, htake⟩) hhi
      · have htake : l.take ((lo + hi) / 2) ≠ m.take ((lo + hi) / 2) :=
          fun h => hw (hiff.mp h).2
        simp only [hw, if_false]
        refine ih (by omega) hmid.1 (by omega) (by omega) hagree htake hlo ?_
        by_contra hge
        exact htake (le_lcp_iff.mp (not_lt.mp hge)).2.2
    · rw [if_neg hwide]
      omega

theorem gallop_eq_lcp {fuel step : ℕ} (hfuel : min l.length m.length - lo < fuel) (hstep : 0 < step)
    (hlo : lo ≤ min l.length m.length) (hagree : l.take lo = m.take lo) :
    gallop l m (min l.length m.length) fuel lo step = lcp l m := by
  have hle : lo ≤ lcp l m := le_lcp_iff.mpr ⟨by omega, by omega, hagree⟩
  have hub := lcp_le_left l m
  have hub' := lcp_le_right l m
  induction fuel generalizing lo step with
  | zero => omega
  | succ fuel ih =>
    rw [gallop]
    by_cases hlt : lo < min l.length m.length
    · rw [if_pos hlt]
      set hi := if lo + step < min l.length m.length then lo + step
        else min l.length m.length with hhi
      have hrange : lo < hi ∧ hi ≤ min l.length m.length := by
        rw [hhi]
        split <;> omega
      have hiff := take_eq_take_iff_window (l := l) (m := m) hrange.1.le (by omega) (by omega)
      by_cases hw : window l lo hi = window m lo hi
      · have htake := hiff.mpr ⟨hagree, hw⟩
        simp only [hw, ne_eq, not_true_eq_false, if_false]
        exact ih (by omega) (by omega) hrange.2 htake (le_lcp_iff.mpr ⟨by omega, by omega, htake⟩)
      · simp only [ne_eq, hw, not_false_eq_true, if_true]
        exact bisect_eq_lcp le_rfl hrange.1 (by omega) (by omega) hagree fun h => hw (hiff.mp h).2
    · rw [if_neg hlt]
      omega

end Sglang.Support
