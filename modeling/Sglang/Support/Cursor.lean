import Sglang.Support.Chunks

/-!
# Cursors

A cursor looks at the text in front of it and either moves on by a positive
number of letters, with some output, or waits for more text. `scan` moves it as
far as it goes. A cursor is steady when a decision, once taken, is not changed
by further text; then it makes no difference in which pieces the text arrives.
-/

namespace Sglang.Support

variable {σ α ρ : Type*}

structure Cursor (σ α ρ : Type*) where
  next : σ → List α → Option (ℕ × σ × List ρ)
  progress : ∀ {s t k s' out}, next s t = some (k, s', out) → 0 < k ∧ k ≤ t.length

/-- Where a cursor has come to rest, and what it has put out on the way. -/
structure Scan (σ α ρ : Type*) where
  state : σ
  rest : List α
  out : List ρ

namespace Scan

/-- The same place with earlier output. -/
def after (r : Scan σ α ρ) (out : List ρ) : Scan σ α ρ := { r with out := out ++ r.out }

variable (r : Scan σ α ρ) (o o' : List ρ)

@[simp] theorem after_state : (r.after o).state = r.state := rfl
@[simp] theorem after_rest : (r.after o).rest = r.rest := rfl
@[simp] theorem after_out : (r.after o).out = o ++ r.out := rfl
@[simp] theorem after_nil : r.after ([] : List ρ) = r := rfl

theorem after_after : (r.after o).after o' = r.after (o' ++ o) := by
  simp [after]

end Scan

namespace Cursor

variable (C : Cursor σ α ρ)

def scanFrom : ℕ → σ → List α → Scan σ α ρ
  | 0, s, t => ⟨s, t, []⟩
  | n + 1, s, t =>
    match C.next s t with
    | none => ⟨s, t, []⟩
    | some (k, s', out) => (scanFrom n s' (t.drop k)).after out

/-- Every move consumes a letter, so the length of the text bounds the number of moves. -/
def scan (s : σ) (t : List α) : Scan σ α ρ := C.scanFrom t.length s t

variable {C} {s s' : σ} {t u : List α} {k : ℕ} {out : List ρ}

theorem next_nil : C.next s [] = none := by
  cases h : C.next s [] with
  | none => rfl
  | some r =>
    have hprogress := C.progress h
    rw [List.length_nil] at hprogress
    omega

/-- Induction along the moves of a cursor. -/
theorem induct (C : Cursor σ α ρ) {P : σ → List α → Prop} (stop : ∀ s t, C.next s t = none → P s t)
    (move : ∀ s t k s' out, C.next s t = some (k, s', out) → P s' (t.drop k) → P s t)
    (s : σ) (t : List α) : P s t := by
  induction hn : t.length using Nat.strong_induction_on generalizing s t with
  | _ n ih =>
    cases h : C.next s t with
    | none => exact stop s t h
    | some r =>
      obtain ⟨k, s', out⟩ := r
      have hprogress := C.progress h
      refine move s t k s' out h (ih _ ?_ s' (t.drop k) rfl)
      rw [List.length_drop]
      omega

theorem scanFrom_eq_scan (n : ℕ) (hn : t.length ≤ n) : C.scanFrom n s t = C.scan s t := by
  unfold scan
  generalize hm : t.length = m at hn
  have hm' : t.length ≤ m := hm.le
  clear hm
  induction m generalizing n s t with
  | zero =>
    obtain rfl : t = [] := List.length_eq_zero_iff.mp (by omega)
    cases n with
    | zero => rfl
    | succ n => simp [scanFrom, next_nil]
  | succ m ih =>
    obtain ⟨n, rfl⟩ : ∃ n', n = n' + 1 := ⟨n - 1, by omega⟩
    rw [scanFrom, scanFrom]
    cases h : C.next s t with
    | none => rfl
    | some r =>
      obtain ⟨k, s', out⟩ := r
      have hprogress := C.progress h
      dsimp only
      rw [ih n (by omega) (by rw [List.length_drop]; omega)]

theorem scan_of_none (h : C.next s t = none) : C.scan s t = ⟨s, t, []⟩ := by
  unfold scan
  cases ht : t.length with
  | zero => rfl
  | succ n => rw [scanFrom, h]

theorem scan_of_some (h : C.next s t = some (k, s', out)) :
    C.scan s t = (C.scan s' (t.drop k)).after out := by
  have hprogress := C.progress h
  unfold scan
  obtain ⟨n, hn⟩ : ∃ n, t.length = n + 1 := ⟨t.length - 1, by omega⟩
  rw [hn, scanFrom, h]
  dsimp only
  rw [scanFrom_eq_scan n (by rw [List.length_drop]; omega)]
  rfl

/-- The cursor waits where it has come to rest. -/
theorem next_scan : C.next (C.scan s t).state (C.scan s t).rest = none := by
  induction s, t using C.induct with
  | stop s t h => rw [scan_of_none h]; exact h
  | move s t k s' out h ih => rw [scan_of_some h]; exact ih

/-- A cursor that makes the moves of `C`, perhaps in smaller steps, ends where `C` does. -/
theorem scan_eq_of_simulates {C' : Cursor σ α ρ}
    (hstop : ∀ s t, C.next s t = none → C'.next s t = none)
    (hmove : ∀ s t k s' out, C.next s t = some (k, s', out) →
      C'.scan s t = (C'.scan s' (t.drop k)).after out) : C.scan s t = C'.scan s t := by
  induction s, t using C.induct with
  | stop s t h => rw [scan_of_none h, scan_of_none (hstop s t h)]
  | move s t k s' out h ih => rw [scan_of_some h, hmove s t k s' out h, ih]

variable (C) in
/-- What the cursor decides does not depend on the text that follows. -/
def Steady : Prop := ∀ s t u r, C.next s t = some r → C.next s (t ++ u) = some r

/-- A steady cursor may stop and go on. -/
theorem Steady.scan_append (hC : C.Steady) : C.scan s (t ++ u) =
      (C.scan (C.scan s t).state ((C.scan s t).rest ++ u)).after (C.scan s t).out := by
  induction s, t using C.induct with
  | stop s t h => rw [scan_of_none h, Scan.after_nil]
  | move s t k s' out h ih =>
    have hk := (C.progress h).2
    rw [scan_of_some (hC s t u _ h), scan_of_some h, List.drop_append_of_le_length hk, ih]
    rw [Scan.after_after]
    rfl

variable (C) in
/-- One more piece of text is read. -/
def push (p : σ × List α) (c : List α) : (σ × List α) × List ρ :=
  let r := C.scan p.1 (p.2 ++ c)
  ((r.state, r.rest), r.out)

/-- A steady cursor reads the pieces as it reads the whole. -/
theorem Steady.feed_push (hC : C.Steady) {b : List α} (hb : C.next s b = none)
    (cs : List (List α)) : (feed C.push (s, b) cs).1 =
        ((C.scan s (b ++ cs.flatten)).state, (C.scan s (b ++ cs.flatten)).rest) ∧
      (feed C.push (s, b) cs).2.flatten = (C.scan s (b ++ cs.flatten)).out := by
  induction cs generalizing s b with
  | nil => simp [scan_of_none hb]
  | cons c cs ih =>
    obtain ⟨hstate, hout⟩ := ih (s := (C.scan s (b ++ c)).state)
      (b := (C.scan s (b ++ c)).rest) next_scan
    have happend := hC.scan_append (s := s) (t := b ++ c) (u := cs.flatten)
    rw [feed_cons, List.flatten_cons, ← List.append_assoc, happend]
    refine ⟨hstate, ?_⟩
    rw [List.flatten_cons, Scan.after_out]
    exact congrArg _ hout

end Cursor

end Sglang.Support
