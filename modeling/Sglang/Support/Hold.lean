import Sglang.Support.Find

/-!
# Holding back the end of a text

A reader that looks for a marker may pass on the text it has read, except for an
end that could be the beginning of the marker. `not_straddles_of_hold` says
when enough was held back: no later text completes a marker that begins in what
was passed on. For a marker whose first letter does not recur in it, the
shortest end that begins the marker is the only one.
-/

namespace Sglang.Support

open List

variable {α : Type*} {p b x y : List α} {q v : List α}

/-- The first letter occurs nowhere else. -/
def Headed (p : List α) : Prop := ∃ a q, p = a :: q ∧ a ∉ q

theorem Headed.ne_nil (h : Headed p) : p ≠ [] := by
  obtain ⟨a, q, rfl, -⟩ := h
  exact cons_ne_nil a q

instance [DecidableEq α] (p : List α) : Decidable (Headed p) :=
  match p with
  | [] => .isFalse fun ⟨_, _, h, _⟩ => nomatch h
  | a :: q =>
    if h : a ∈ q then
      .isFalse fun ⟨_, _, he, hn⟩ => by
        obtain ⟨rfl, rfl⟩ := List.cons.inj he
        exact hn h
    else .isTrue ⟨a, q, rfl, h⟩

/-- A text and a proper end of it do not both begin the same headed marker. -/
theorem Headed.eq_of_suffix (hp : Headed p) (hx : x <+: p) (hx0 : x ≠ []) (hy : y <+: p)
    (hxy : x <:+ y) : x = y := by
  obtain ⟨a, q, rfl, ha⟩ := hp
  obtain ⟨z, rfl⟩ := hxy
  cases z with
  | nil => rfl
  | cons c z =>
    obtain ⟨b, x', rfl⟩ := exists_cons_of_ne_nil hx0
    obtain ⟨rfl, -⟩ := cons_prefix_cons.mp hx
    obtain ⟨-, hrest⟩ := cons_prefix_cons.mp hy
    exact absurd (hrest.subset (by simp)) ha

/-- At most one non-empty end of a text begins a headed marker. -/
theorem Headed.unique_partial (hp : Headed p) (hx : x <+: p) (hx0 : x ≠ []) (hy : y <+: p)
    (hy0 : y ≠ []) (hxb : x <:+ b) (hyb : y <:+ b) : x = y := by
  rcases suffix_or_suffix_of_suffix hxb hyb with h | h
  · exact hp.eq_of_suffix hx hx0 hy h
  · exact (hp.eq_of_suffix hy hy0 hx h).symm

/-- Enough of `b` is held back when no longer end of it begins the marker. -/
theorem not_straddles_of_hold {k : ℕ} (hb : ¬ p <:+: b) (hk : k ≤ b.length)
    (hlong : ∀ x, x <:+ b → k < x.length → x.length < p.length → ¬ x <+: p) (v : List α) :
    ¬ Straddles p (b.take (b.length - k)) (b.drop (b.length - k) ++ v) := by
  rintro ⟨x, y, hx, hy, rfl, hxu, hyv⟩
  have hb' : b.take (b.length - k) ++ b.drop (b.length - k) = b := take_append_drop _ b
  obtain ⟨u, hu⟩ := hxu
  rcases prefix_append_cases hyv with hin | ⟨z, hz, rfl, -⟩
  · -- The whole marker would lie in `b`.
    obtain ⟨w, hw⟩ := hin
    refine hb ⟨u, w, ?_⟩
    rw [← hb', ← hu, ← hw]
    simp
  · -- A longer end of `b` would begin the marker.
    have hlen : (b.drop (b.length - k)).length = k := by
      rw [length_drop]
      omega
    have hxpos := length_pos_iff.mpr hx
    have hzpos := length_pos_iff.mpr hz
    refine hlong (x ++ b.drop (b.length - k)) ⟨u, ?_⟩ ?_ ?_ ⟨z, by simp⟩
    · rw [← append_assoc, hu, hb']
    · rw [length_append, hlen]
      omega
    · simp only [length_append]
      omega

/-- Where a headed marker occurs, its letter does not come again before its end. -/
theorem Headed.add_length_le {t : List α} {i j : ℕ} (hp : Headed p) (hhead : q.head? = p.head?)
    (hi : p <+: t.drop i) (hj : q <+: t.drop j) (hlt : i < j) : i + p.length ≤ j := by
  obtain ⟨a, p', rfl, ha⟩ := hp
  by_contra hin
  have head_eq {l : List α} (h0 : l ≠ []) (h : l <+: t.drop j) : l.head? = (t.drop j).head? := by
    obtain ⟨r, hr⟩ := h
    rw [← hr, head?_append_of_ne_nil _ h0]
  have hrest : p'.drop (j - i - 1) <+: t.drop j := by
    have := hi.drop (j - i - 1 + 1)
    rwa [drop_drop, drop_succ_cons, show i + (j - i - 1 + 1) = j by omega] at this
  have hq : q ≠ [] := fun h0 => by simp [h0] at hhead
  have hlast := (head_eq (fun h0 => ?_) hrest).trans (hhead ▸ head_eq hq hj).symm
  · rw [head?_drop, head?_cons] at hlast
    exact ha (mem_of_getElem? hlast)
  · rw [drop_eq_nil_iff] at h0
    rw [length_cons] at hin
    omega

/-- A headed marker does not reach into a text that begins with its letter. -/
theorem Headed.not_straddles {u : List α} (hp : Headed p) (hhead : q.head? = p.head?) :
    ¬ Straddles p u (q ++ v) := by
  rintro ⟨x, y, hx, hy, rfl, ⟨w, rfl⟩, z, hz⟩
  have hxpos := length_pos_iff.mpr hx
  have hypos := length_pos_iff.mpr hy
  have hle := hp.add_length_le (t := w ++ (x ++ (q ++ v))) (i := w.length)
    (j := w.length + x.length) hhead ⟨z, by simp [hz]⟩ ⟨v, by simp [← drop_drop]⟩ (by omega)
  rw [length_append] at hle
  omega

/-- A headed marker behind a text without it is found there. -/
theorem Headed.find_append [DecidableEq α] {u : List α} (hp : Headed p) (hu : ¬ p <:+: u)
    (v : List α) : find p (u ++ (p ++ v)) = some u.length := by
  have hzero : find p (p ++ v) = some 0 := by
    obtain ⟨a, p', rfl, -⟩ := hp
    exact find_cons_of_starts (prefix_append _ v)
  rw [find_append_right hu (hp.not_straddles rfl), hzero]
  rfl

/-- It is in no beginning of such a text that ends before the marker does. -/
theorem Headed.not_infix_of_short [DecidableEq α] {r u : List α} (hp : Headed p) (hu : ¬ p <:+: u)
    (hr : r <+: u ++ (p ++ v)) (hshort : r.length < u.length + p.length) : ¬ p <:+: r := by
  intro hin
  obtain ⟨i, hi⟩ := Option.isSome_iff_exists.mp (find_isSome_iff.mpr hin)
  have hle := find_add_length_le hi
  obtain ⟨t, ht⟩ := hr
  have hsame := find_append_left (v := t) hi
  rw [ht, hp.find_append hu] at hsame
  have hiu := Option.some.inj hsame
  omega

/-- Nor does it begin inside or before another marker with its letter and end
after it, unless that marker begins it. -/
theorem Headed.not_straddles_after {u : List α} (hp : Headed p) (hq : Headed q)
    (hhead : q.head? = p.head?) (hqp : ¬ q <+: p) : ¬ Straddles p (u ++ q) v := by
  rintro ⟨x, y, hx, hy, rfl, ⟨w, hw⟩, z, hz⟩
  have hxpos := length_pos_iff.mpr hx
  have hypos := length_pos_iff.mpr hy
  have hlen := congrArg List.length hw
  have hi : x ++ y <+: (u ++ q ++ v).drop w.length := ⟨z, by rw [← hw, ← hz]; simp⟩
  have hj : q <+: (u ++ q ++ v).drop u.length := ⟨v, by simp⟩
  simp only [length_append] at hlen
  rcases Nat.lt_trichotomy w.length u.length with hlt | heq | hgt
  · have := hp.add_length_le hhead hi hj hlt
    rw [length_append] at this
    omega
  · rw [← heq] at hj
    exact hqp (prefix_of_prefix_length_le hj hi (by rw [length_append]; omega))
  · have := hq.add_length_le hhead.symm hj hi hgt
    omega

/-- Of two markers with the same first letter, the one that is complete in `b`
begins before the one that only later text completes. -/
theorem Headed.find_lt [DecidableEq α] {i j : ℕ} (hp : Headed p)
    (hhead : q.head? = p.head?) (hqp : ¬ q <+: p) (hb : ¬ p <:+: b)
    (hj : find q b = some j) (hi : find p (b ++ v) = some i) : j < i := by
  have hqle := find_add_length_le hj
  have hpt := prefix_drop_of_find hi
  have hqt : q <+: (b ++ v).drop j := prefix_drop_of_find (find_append_left hj)
  -- The marker `p` does not end inside `b`.
  have hlong : b.length < i + p.length := by
    by_contra hshort
    rw [drop_append_of_le_length (by omega)] at hpt
    have hin : p <+: b.drop i :=
      prefix_of_prefix_length_le hpt (prefix_append _ v) (by rw [length_drop]; omega)
    exact hb (hin.isInfix.trans (drop_suffix i b).isInfix)
  rcases Nat.lt_trichotomy j i with hlt | rfl | hgt
  · exact hlt
  · exact absurd (prefix_of_prefix_length_le hqt hpt (by omega)) hqp
  · have := hp.add_length_le hhead hpt hqt hgt
    omega

end Sglang.Support
