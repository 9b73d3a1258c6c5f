import Mathlib.Data.List.Infix
import Mathlib.Data.Nat.Basic

/-!
# First occurrences in a text

`find p t` is the position of the first occurrence of `p` in `t`. The lemmas
say how it behaves when the text is the concatenation of two pieces: an
occurrence of `u ++ v` lies in `u`, or in `v`, or straddles the cut.
-/

namespace Sglang.Support

open List

variable {α : Type*} {p u v t : List α}

/-- An occurrence of `p` that begins in `u` and ends in `v`. -/
def Straddles (p u v : List α) : Prop := ∃ x y, x ≠ [] ∧ y ≠ [] ∧ p = x ++ y ∧ x <:+ u ∧ y <+: v

theorem Straddles.mono_left {w : List α} (h : Straddles p u v) (hw : u <:+ w) :
    Straddles p w v := by
  obtain ⟨x, y, hx, hy, hp, hxu, hyv⟩ := h
  exact ⟨x, y, hx, hy, hp, hxu.trans hw, hyv⟩

theorem Straddles.mono_right {w : List α} (h : Straddles p u v) (hw : v <+: w) :
    Straddles p u w := by
  obtain ⟨x, y, hx, hy, hp, hxu, hyv⟩ := h
  exact ⟨x, y, hx, hy, hp, hxu, hyv.trans hw⟩

theorem not_straddles_nil : ¬ Straddles p [] v := by
  rintro ⟨x, y, hx, -, -, hxu, -⟩
  exact hx (suffix_nil.mp hxu)

/-- A text does not reach over a letter that occurs in it at most at its end. -/
theorem not_straddles_of_getLast {a : α} (ha : a ∉ p.dropLast) (hu : u.getLast? = some a) :
    ¬ Straddles p u v := by
  rintro ⟨x, y, hx, hy, rfl, hxu, -⟩
  obtain ⟨x', c, rfl⟩ := (eq_nil_or_concat' x).resolve_left hx
  obtain ⟨w, rfl⟩ := hxu
  obtain rfl : c = a := by simpa [List.getLast?_append] using hu
  refine ha ?_
  rw [dropLast_append_of_ne_nil hy]
  simp

theorem straddles_iff_exists_take : Straddles p u v ↔
    ∃ k < p.length, 0 < k ∧ p.take k <:+ u ∧ p.drop k <+: v := by
  constructor
  · rintro ⟨x, y, hx, hy, rfl, hxu, hyv⟩
    have hx' := length_pos_iff.mpr hx
    have hy' := length_pos_iff.mpr hy
    exact ⟨x.length, by rw [length_append]; omega, hx', by simpa using hxu, by simpa using hyv⟩
  · rintro ⟨k, hk, hpos, hu, hv⟩
    refine ⟨p.take k, p.drop k, ?_, ?_, (take_append_drop k p).symm, hu, hv⟩
    · intro h0
      have := congrArg List.length h0
      simp only [length_take, length_nil] at this
      omega
    · intro h0
      have := congrArg List.length h0
      simp only [length_drop, length_nil] at this
      omega

instance [DecidableEq α] : Decidable (Straddles p u v) :=
  decidable_of_iff _ straddles_iff_exists_take.symm

theorem infix_append_cases (h : p <:+: u ++ v) : p <:+: u ∨ p <:+: v ∨ Straddles p u v := by
  rcases infix_append_iff.mp h with hu | hv | ⟨x, y, rfl, hx, hy⟩
  · exact Or.inl hu
  · exact Or.inr (Or.inl hv)
  · by_cases hx0 : x = []
    · subst hx0
      exact Or.inr (Or.inl (by simpa using hy.isInfix))
    · by_cases hy0 : y = []
      · subst hy0
        exact Or.inl (by simpa using hx.isInfix)
      · exact Or.inr (Or.inr ⟨x, y, hx0, hy0, rfl, hx, hy⟩)

theorem not_infix_append (hu : ¬ p <:+: u) (hv : ¬ p <:+: v) (hs : ¬ Straddles p u v) :
    ¬ p <:+: u ++ v := by
  intro h
  rcases infix_append_cases h with h | h | h
  · exact hu h
  · exact hv h
  · exact hs h

/-- A prefix of `u ++ v` is a prefix of `u`, or all of `u` and more. -/
theorem prefix_append_cases (h : p <+: u ++ v) : p <+: u ∨ ∃ y, y ≠ [] ∧ p = u ++ y ∧ y <+: v := by
  obtain ⟨r, hr⟩ := h
  rcases append_eq_append_iff.mp hr with ⟨s, hs, -⟩ | ⟨y, hy, hv⟩
  · exact Or.inl ⟨s, hs.symm⟩
  · by_cases hy0 : y = []
    · exact Or.inl ⟨[], by simp [hy, hy0]⟩
    · exact Or.inr ⟨y, hy0, hy, ⟨r, hv.symm⟩⟩

section Find

variable [DecidableEq α] {i : ℕ}

def find (p : List α) : List α → Option ℕ
  | [] => if p.isPrefixOf [] then some 0 else none
  | a :: t => if p.isPrefixOf (a :: t) then some 0 else (find p t).map (· + 1)

/-- `p in t`, as the search reports it. -/
def contains (p t : List α) : Bool := (find p t).isSome

theorem find_cons_of_starts {a : α} (h : p <+: a :: t) : find p (a :: t) = some 0 := by
  rw [find, if_pos (List.isPrefixOf_iff_prefix.mpr h)]

theorem find_cons_of_not_starts {a : α} (h : ¬ p <+: a :: t) :
    find p (a :: t) = (find p t).map (· + 1) := by
  rw [find, if_neg fun hb => h (List.isPrefixOf_iff_prefix.mp hb)]

theorem find_eq_none_iff : find p t = none ↔ ¬ p <:+: t := by
  induction t with
  | nil => cases p <;> simp [find]
  | cons a t ih =>
    by_cases hp : p <+: a :: t
    · simp [find_cons_of_starts hp, hp.isInfix]
    · simp [find_cons_of_not_starts hp, ih, infix_cons_iff, hp]

theorem find_isSome_iff : (find p t).isSome ↔ p <:+: t := by
  rw [Option.isSome_iff_ne_none, ne_eq, find_eq_none_iff, not_not]

theorem contains_iff : contains p t = true ↔ p <:+: t := find_isSome_iff

theorem prefix_drop_of_find (h : find p t = some i) : p <+: t.drop i := by
  induction t generalizing i with
  | nil =>
    cases p with
    | nil => exact nil_prefix
    | cons b p => simp [find] at h
  | cons a t ih =>
    by_cases hp : p <+: a :: t
    · rw [find_cons_of_starts hp] at h
      obtain rfl : 0 = i := by simpa using h
      simpa using hp
    · rw [find_cons_of_not_starts hp, Option.map_eq_some_iff] at h
      obtain ⟨j, hj, rfl⟩ := h
      simpa using ih hj

/-- The occurrence found is the first. -/
theorem find_le_of_prefix_drop {j : ℕ} (h : find p t = some i) (hj : p <+: t.drop j) : i ≤ j := by
  induction t generalizing i j with
  | nil =>
    rw [drop_nil, prefix_nil] at hj
    simp [find, hj] at h
    omega
  | cons a t ih =>
    by_cases hp : p <+: a :: t
    · rw [find_cons_of_starts hp] at h
      obtain rfl : 0 = i := by simpa using h
      exact Nat.zero_le j
    · rw [find_cons_of_not_starts hp, Option.map_eq_some_iff] at h
      obtain ⟨k, hk, rfl⟩ := h
      cases j with
      | zero => exact absurd hj hp
      | succ j => exact Nat.succ_le_succ (ih hk (by simpa using hj))

theorem find_add_length_le (h : find p t = some i) : i + p.length ≤ t.length := by
  have hp := prefix_drop_of_find h
  have hlen := hp.length_le
  rw [length_drop] at hlen
  by_cases hi : i ≤ t.length
  · omega
  · rw [drop_eq_nil_of_le (by omega), prefix_nil] at hp
    have hfirst := find_le_of_prefix_drop (j := 0) h (hp ▸ nil_prefix)
    omega

/-- The text around its first occurrence. -/
theorem take_append_find (h : find p t = some i) :
    t.take i ++ (p ++ t.drop (i + p.length)) = t := by
  have hp := prefix_drop_of_find h
  have hdrop : p ++ t.drop (i + p.length) = t.drop i := by
    rw [← drop_drop]
    exact prefix_append_drop hp |>.symm
  rw [hdrop, take_append_drop]

theorem find_append_left (h : find p u = some i) : find p (u ++ v) = some i := by
  induction u generalizing i with
  | nil =>
    cases p with
    | nil =>
      obtain rfl : 0 = i := by simpa [find] using h
      cases v <;> simp [find]
    | cons b p => simp [find] at h
  | cons a u ih =>
    by_cases hp : p <+: a :: u
    · rw [find_cons_of_starts hp] at h
      have hpv : p <+: a :: (u ++ v) := hp.trans (prefix_append (a :: u) v)
      rw [cons_append, find_cons_of_starts hpv, h]
    · rw [find_cons_of_not_starts hp, Option.map_eq_some_iff] at h
      obtain ⟨j, hj, rfl⟩ := h
      -- An occurrence inside `u` is too short to cover `a :: u`.
      have hlong : ¬ p <+: a :: (u ++ v) := by
        intro hpre
        have hlen := find_add_length_le hj
        rcases prefix_append_cases (u := a :: u) hpre with hin | ⟨y, -, hy, -⟩
        · exact hp hin
        · have : p.length = (a :: u).length + y.length := by rw [hy, length_append]
          simp only [length_cons] at this
          omega
      rw [cons_append, find_cons_of_not_starts hlong, ih hj]
      rfl

theorem find_append_right (hu : ¬ p <:+: u) (hs : ¬ Straddles p u v) :
    find p (u ++ v) = (find p v).map (u.length + ·) := by
  induction u with
  | nil => cases hv : find p v <;> simp [hv]
  | cons a u ih =>
    have hpre : ¬ p <+: a :: (u ++ v) := by
      intro hpre
      rcases prefix_append_cases (u := a :: u) hpre with hin | ⟨y, hy, hpy, hyv⟩
      · exact hu hin.isInfix
      · exact hs ⟨a :: u, y, by simp, hy, hpy, suffix_refl _, hyv⟩
    have hu' : ¬ p <:+: u := fun h => hu (h.trans (suffix_cons a u).isInfix)
    have hs' : ¬ Straddles p u v := fun h => hs (h.mono_left (suffix_cons a u))
    rw [cons_append, find_cons_of_not_starts hpre, ih hu' hs', Option.map_map]
    congr 1
    funext j
    simp only [Function.comp_apply, length_cons]
    omega

/-- Nothing before the first occurrence holds another one. -/
theorem not_infix_take_of_find (hp : p ≠ []) (h : find p t = some i) : ¬ p <:+: t.take i := by
  intro hin
  obtain ⟨j, hj⟩ := Option.isSome_iff_exists.mp (find_isSome_iff.mpr hin)
  have hle := find_add_length_le hj
  have hfirst : find p (t.take i ++ t.drop i) = some j := find_append_left hj
  rw [take_append_drop, h] at hfirst
  obtain rfl : i = j := by simpa using hfirst
  have hpos := length_pos_iff.mpr hp
  rw [length_take] at hle
  omega

end Find

end Sglang.Support
