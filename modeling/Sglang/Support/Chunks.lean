import Sglang.Support.Find

/-!
# Texts that arrive in chunks

A consumer reads a text piece by piece. `feed step s cs` runs a step function
over the pieces and keeps what each call returned; `Uncut p cs` says that no
occurrence of `p` in the whole text is cut by a boundary between two pieces.
`served needs got cs` says that a consumer that handles at most one event for each
piece comes to the end of its events.
-/

namespace Sglang.Support

variable {α : Type*}

/-- Joined texts, with the separator put before every text but the first. -/
theorem intercalate_cons (sep x : List α) (xs : List (List α)) :
    sep.intercalate (x :: xs) = x ++ xs.flatMap (sep ++ ·) := by
  induction xs generalizing x with
  | nil => simp
  | cons y ys ih => simp [List.intercalate_cons_cons, ih]

section Feed

variable {σ χ ρ : Type*} (step : σ → χ → σ × ρ)

/-- The state after all the pieces, and what each call returned. -/
def feed : σ → List χ → σ × List ρ
  | s, [] => (s, [])
  | s, c :: cs => ((feed (step s c).1 cs).1, (step s c).2 :: (feed (step s c).1 cs).2)

@[simp] theorem feed_nil (s : σ) : feed step s [] = (s, []) := rfl

@[simp] theorem feed_cons (s : σ) (c : χ) (cs : List χ) : feed step s (c :: cs) =
      ((feed step (step s c).1 cs).1, (step s c).2 :: (feed step (step s c).1 cs).2) := rfl

/-- One more piece. -/
theorem feed_concat (s : σ) (cs : List χ) (c : χ) : feed step s (cs ++ [c]) =
      ((step (feed step s cs).1 c).1, (feed step s cs).2 ++ [(step (feed step s cs).1 c).2]) := by
  induction cs generalizing s with
  | nil => rfl
  | cons d cs ih => rw [List.cons_append, feed_cons, ih, feed_cons, List.cons_append]

/-- A step that only presents the results otherwise. -/
theorem feed_map {ρ' : Type*} (f : ρ → ρ') (s : σ) (cs : List χ) :
    feed (fun s c => ((step s c).1, f (step s c).2)) s cs =
      ((feed step s cs).1, (feed step s cs).2.map f) := by
  induction cs generalizing s with
  | nil => rfl
  | cons c cs ih => rw [feed_cons, ih, feed_cons, List.map_cons]

end Feed

section Uncut

variable {p : List α} {cs : List (List α)}

/-- No boundary between two pieces lies inside an occurrence of `p`. -/
def Uncut (p : List α) (cs : List (List α)) : Prop :=
  ∀ as bs, cs = as ++ bs → ¬ Straddles p as.flatten bs.flatten

theorem uncut_iff_forall_take : Uncut p cs ↔
    ∀ n ≤ cs.length, ¬ Straddles p (cs.take n).flatten (cs.drop n).flatten := by
  constructor
  · intro h n _
    exact h _ _ (List.take_append_drop n cs).symm
  · rintro h as bs rfl
    simpa using h as.length (by simp)

instance [DecidableEq α] : Decidable (Uncut p cs) := decidable_of_iff _ uncut_iff_forall_take.symm

end Uncut

section Await

/-- Reads pieces, at least one, until `need` letters are there, of which `got` had come before:
the letters that are over, and the pieces that are left. -/
def await (need : ℕ) : ℕ → List (List α) → Option (ℕ × List (List α))
  | _, [] => none
  | got, c :: cs =>
    if need ≤ got + c.length then some (got + c.length - need, cs)
    else await need (got + c.length) cs

/-- Events that need so many letters each, and a piece each, all happen. -/
def served : List ℕ → ℕ → List (List α) → Bool
  | [], _, _ => true
  | need :: needs, got, cs =>
    match await need got cs with
    | some r => served needs r.1 r.2
    | none => false

/-- Letters that count on both sides do not matter. -/
theorem await_add (need got d : ℕ) (cs : List (List α)) :
    await (need + d) (got + d) cs = await need got cs := by
  induction cs generalizing got with
  | nil => rfl
  | cons c cs ih =>
    have hcomm : got + d + c.length = got + c.length + d := by omega
    rw [await, await, hcomm, ih]
    by_cases h : need ≤ got + c.length
    · rw [if_pos h, if_pos (by omega), Nat.add_sub_add_right]
    · rw [if_neg h, if_neg (by omega)]

end Await

end Sglang.Support
