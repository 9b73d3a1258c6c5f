import Mathlib.Logic.Basic

/-!
# Reachable states

A system is given by its starting states and a partial step function `run`; a step is taken
where it is enabled and `ok` permits it. What every permitted step keeps holds in every
reachable state.
-/

namespace Sglang.Support

variable {σ ω : Type*}

inductive Reachable (init : σ → Prop) (ok : σ → ω → Prop) (run : σ → ω → Option σ) : σ → Prop
  | start {s : σ} (h : init s) : Reachable init ok run s
  | step {s s' : σ} {a : ω} (h : Reachable init ok run s) (hok : ok s a)
      (hrun : run s a = some s') : Reachable init ok run s'

namespace Reachable

variable {init : σ → Prop} {ok : σ → ω → Prop} {run : σ → ω → Option σ} {s s' : σ}

theorem invariant {I : σ → Prop} (hinit : ∀ s, init s → I s)
    (hstep : ∀ {s s'} a, I s → ok s a → run s a = some s' → I s')
    (h : Reachable init ok run s) : I s := by
  induction h with
  | start h => exact hinit _ h
  | step _ hok hrun ih => exact hstep _ ih hok hrun

/-- A finite execution. -/
def runAll (run : σ → ω → Option σ) : σ → List ω → Option σ
  | s, [] => some s
  | s, a :: as => (run s a).bind fun s => runAll run s as

/-- Executions of permitted steps stay reachable. -/
theorem of_runAll (as : List ω) (hok : ∀ s, ∀ a ∈ as, ok s a) (h : Reachable init ok run s)
    (hrun : runAll run s as = some s') : Reachable init ok run s' := by
  induction as generalizing s with
  | nil =>
    cases hrun
    exact h
  | cons a as ih =>
    obtain ⟨t, ht, hrest⟩ := Option.bind_eq_some_iff.mp hrun
    exact ih (fun s b hb => hok s b (List.mem_cons_of_mem _ hb))
      (h.step (hok s a List.mem_cons_self) ht) hrest

/-- Every step of the execution is permitted where it is taken. -/
def Permitted (ok : σ → ω → Prop) (run : σ → ω → Option σ) : σ → List ω → Prop
  | _, [] => True
  | s, a :: as => ok s a ∧ (run s a).elim True fun s => Permitted ok run s as

instance Permitted.decidable [∀ s a, Decidable (ok s a)] :
    ∀ s as, Decidable (Permitted ok run s as)
  | _, [] => isTrue trivial
  | s, a :: as =>
    have : Decidable ((run s a).elim True fun s => Permitted ok run s as) :=
      match run s a with
      | none => isTrue trivial
      | some s => Permitted.decidable s as
    inferInstanceAs (Decidable (_ ∧ _))

theorem of_permitted (as : List ω) (hok : Permitted ok run s as) (h : Reachable init ok run s)
    (hrun : runAll run s as = some s') : Reachable init ok run s' := by
  induction as generalizing s with
  | nil =>
    cases hrun
    exact h
  | cons a as ih =>
    obtain ⟨t, ht, hrest⟩ := Option.bind_eq_some_iff.mp hrun
    obtain ⟨ha, hok⟩ := hok
    rw [ht] at hok
    exact ih hok (h.step ha ht) hrest

end Reachable

end Sglang.Support
