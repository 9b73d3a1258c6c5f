import Mathlib.Data.Nat.Basic
import Mathlib.Logic.Function.Basic
import Sglang.Support.Reachable

/-!
# The circuit breaker

`circuit_breaker.rs` with one step per atomic operation and one per reading of the clock.
Any number of calls of `state`, `record_success` and `record_failure` interleave.
The loads that only feed metrics are left out.

A state change and the store of its time are separate steps, and `transition_to` swaps
without looking at the state its caller decided on.
-/

namespace Sglang.Gateway

open Sglang.Support Function Reachable

structure CircuitBreakerConfig where
  failureThreshold : UInt32 := 5
  successThreshold : UInt32 := 2
  timeoutMs : ℕ := 30000

/-- The atomic `u8` only ever holds the numbers of these states. -/
inductive CircuitState where
  | closed
  | open
  | halfOpen
  deriving DecidableEq

/-- The atomics of a circuit breaker. -/
structure Atomics where
  state : CircuitState
  consecutiveFailures : UInt32
  consecutiveSuccesses : UInt32
  totalFailures : UInt64
  totalSuccesses : UInt64
  lastFailureTimeMs : ℕ
  lastStateChangeMs : ℕ

inductive BreakerCall where
  | state
  | recordSuccess
  | recordFailure

/-- What a call does next, with its local variables. -/
inductive BreakerPc where
  | finished (result : Option CircuitState)
  -- `check_and_update_state_returning`
  | loadState
  | loadLastChange
  | readElapsed (lastChangeMs : ℕ)
  | compareExchange (lastChangeMs : ℕ)
  | reloadState
  -- `record_success`
  | addTotalSuccess
  | resetFailures
  | addSuccess
  | successLoadState (successes : UInt32)
  -- `record_failure`
  | addTotalFailure
  | resetSuccesses
  | addFailure
  | readFailureTime (failures : UInt32)
  | storeFailureTime (failures : UInt32) (ms : ℕ)
  | failureLoadState (failures : UInt32)
  -- `transition_to`, from the time stamp on also for the compare-exchange
  | swap (newState : CircuitState)
  | readChangeTime (newState : CircuitState) (result : Option CircuitState)
  | storeChangeTime (newState : CircuitState) (result : Option CircuitState) (ms : ℕ)
  | clearFailures (result : Option CircuitState)
  | clearSuccesses (result : Option CircuitState)
  deriving DecidableEq

def BreakerCall.entry : BreakerCall → BreakerPc
  | state => .loadState
  | recordSuccess => .addTotalSuccess
  | recordFailure => .addTotalFailure

/-- One atomic operation of a call at the time `now`. -/
def BreakerPc.exec (config : CircuitBreakerConfig) (now : ℕ) (a : Atomics) :
    BreakerPc → BreakerPc × Atomics
  | finished result => (finished result, a)
  | loadState => (if a.state = .open then loadLastChange else finished (some a.state), a)
  | loadLastChange => (readElapsed a.lastStateChangeMs, a)
  | readElapsed lastChangeMs =>
    (if config.timeoutMs ≤ now - lastChangeMs then compareExchange lastChangeMs
      else finished (some .open), a)
  | compareExchange _ =>
    if a.state = .open then
      (readChangeTime .halfOpen (some .halfOpen), { a with state := .halfOpen })
    else (reloadState, a)
  | reloadState => (finished (some a.state), a)
  | addTotalSuccess => (resetFailures, { a with totalSuccesses := a.totalSuccesses + 1 })
  | resetFailures => (addSuccess, { a with consecutiveFailures := 0 })
  | addSuccess =>
    (successLoadState (a.consecutiveSuccesses + 1),
      { a with consecutiveSuccesses := a.consecutiveSuccesses + 1 })
  | successLoadState successes =>
    (match a.state with
      | .halfOpen => if config.successThreshold ≤ successes then swap .closed else finished none
      | .closed => finished none
      | .open => finished none, a)
  | addTotalFailure => (resetSuccesses, { a with totalFailures := a.totalFailures + 1 })
  | resetSuccesses => (addFailure, { a with consecutiveSuccesses := 0 })
  | addFailure =>
    (readFailureTime (a.consecutiveFailures + 1),
      { a with consecutiveFailures := a.consecutiveFailures + 1 })
  | readFailureTime failures => (storeFailureTime failures now, a)
  | storeFailureTime failures ms => (failureLoadState failures, { a with lastFailureTimeMs := ms })
  | failureLoadState failures =>
    (match a.state with
      | .closed => if config.failureThreshold ≤ failures then swap .open else finished none
      | .halfOpen => swap .open
      | .open => finished none, a)
  | swap newState =>
    (if a.state = newState then finished none else readChangeTime newState none,
      { a with state := newState })
  | readChangeTime newState result => (storeChangeTime newState result now, a)
  | storeChangeTime newState result ms =>
    (match newState with
      | .open => clearSuccesses result
      | .closed | .halfOpen => clearFailures result, { a with lastStateChangeMs := ms })
  | clearFailures result => (clearSuccesses result, { a with consecutiveFailures := 0 })
  | clearSuccesses result => (finished result, { a with consecutiveSuccesses := 0 })

abbrev ThreadId := ℕ

/-- The breaker with its callers and the clock. `changedAt` is when the state last changed. -/
structure BreakerSystem where
  atomics : Atomics
  pc : ThreadId → BreakerPc
  now : ℕ
  changedAt : ℕ

inductive BreakerAct where
  | call (thread : ThreadId) (call : BreakerCall)
  | step (thread : ThreadId)
  | elapse (ms : ℕ)

namespace BreakerSystem

/-- A breaker created at the time `now`. -/
def new (now : ℕ) : BreakerSystem where
  atomics := ⟨.closed, 0, 0, 0, 0, 0, now⟩
  pc _ := .finished none
  now := now
  changedAt := now

variable (config : CircuitBreakerConfig) (s : BreakerSystem)

/-- The next atomic operation of a thread. -/
def advance (t : ThreadId) : BreakerSystem :=
  let next := (s.pc t).exec config s.now s.atomics
  { s with
    atomics := next.2
    pc := update s.pc t next.1
    changedAt := if next.2.state = s.atomics.state then s.changedAt else s.now }

def run : BreakerAct → Option BreakerSystem
  | .call t c =>
    match s.pc t with
    | .finished _ => some { s with pc := update s.pc t c.entry }
    | _ => none
  | .step t =>
    match s.pc t with
    | .finished _ => none
    | _ => some (s.advance config t)
  | .elapse ms => some { s with now := s.now + ms }

def Reaches : BreakerSystem → Prop :=
  Reachable (fun s => ∃ now, s = new now) (fun _ _ => True) (run config)

/-- The state has been changed and the time of the change is still to be stored. -/
def Stamping : BreakerPc → Prop
  | .readChangeTime _ _ => True
  | .storeChangeTime _ _ _ => True
  | _ => False

/-- No swap to `Open` comes between the load of the state in another call and the swap to `Closed`
that the call decides on, no change comes between another change and the store of its time, and
an exchange finds the time it read. -/
def Undisturbed : BreakerAct → Prop
  | .step t =>
    match s.pc t with
    | .swap newState =>
      (newState = .open → ∀ u, s.pc u ≠ .swap .closed) ∧
        (s.atomics.state ≠ newState → ∀ u, ¬Stamping (s.pc u))
    | .compareExchange lastChangeMs =>
      s.atomics.state = .open → s.atomics.lastStateChangeMs = lastChangeMs ∧ ∀ u, ¬Stamping (s.pc u)
    | _ => True
  | _ => True

def ReachesUndisturbed : BreakerSystem → Prop :=
  Reachable (fun s => ∃ now, s = new now) Undisturbed (run config)

/-! ## The invariant -/

/-- What a call relies on at its next operation. -/
def PcOk (now changedAt : ℕ) (state : CircuitState) : BreakerPc → Prop
  | .compareExchange lastChangeMs => config.timeoutMs ≤ now - lastChangeMs
  | .swap newState => newState ≠ .halfOpen ∧ (newState = .closed → state ≠ .open)
  | .storeChangeTime _ _ ms => changedAt ≤ ms
  | _ => True

/-- What an atomic operation does to the state and to its time. -/
inductive Effect (now changedAt : ℕ) (pc : BreakerPc) (a : Atomics) (pc' : BreakerPc)
    (a' : Atomics) : Prop
  | quiet (hstate : a'.state = a.state) (htime : a'.lastStateChangeMs = a.lastStateChangeMs)
      (hpc : ¬Stamping pc) (hpc' : ¬Stamping pc') (hok : PcOk config now changedAt a.state pc')
  | swapped (newState : CircuitState) (hpc : pc = .swap newState) (hne : a.state ≠ newState)
      (hstate : a'.state = newState) (htime : a'.lastStateChangeMs = a.lastStateChangeMs)
      (hpc' : pc' = .readChangeTime newState none)
  | exchanged (lastChangeMs : ℕ) (hpc : pc = .compareExchange lastChangeMs)
      (hopen : a.state = .open) (hstate : a'.state = .halfOpen)
      (htime : a'.lastStateChangeMs = a.lastStateChangeMs)
      (hpc' : pc' = .readChangeTime .halfOpen (some .halfOpen))
  | read (newState : CircuitState) (result : Option CircuitState)
      (hpc : pc = .readChangeTime newState result)
      (hpc' : pc' = .storeChangeTime newState result now) (ha : a' = a)
  | stored (newState : CircuitState) (result : Option CircuitState) (ms : ℕ)
      (hpc : pc = .storeChangeTime newState result ms) (hpc' : ¬Stamping pc')
      (hok : PcOk config now changedAt a.state pc') (hstate : a'.state = a.state)
      (htime : a'.lastStateChangeMs = ms)

theorem exec_effect (now changedAt : ℕ) (pc : BreakerPc) (a : Atomics) :
    Effect config now changedAt pc a (pc.exec config now a).1 (pc.exec config now a).2 := by
  cases pc with
  | loadState =>
    dsimp [BreakerPc.exec]
    split <;> exact .quiet rfl rfl id id trivial
  | readElapsed lastChangeMs =>
    dsimp [BreakerPc.exec]
    split
    · rename_i helapsed
      exact .quiet rfl rfl id id helapsed
    · exact .quiet rfl rfl id id trivial
  | compareExchange lastChangeMs =>
    dsimp [BreakerPc.exec]
    split
    · rename_i hopen
      exact .exchanged lastChangeMs rfl hopen rfl rfl rfl
    · exact .quiet rfl rfl id id trivial
  | successLoadState successes =>
    dsimp [BreakerPc.exec]
    split
    · rename_i hhalf
      split
      · exact .quiet rfl rfl id id ⟨nofun, fun _ => by rw [hhalf]; nofun⟩
      · exact .quiet rfl rfl id id trivial
    all_goals exact .quiet rfl rfl id id trivial
  | failureLoadState failures =>
    dsimp [BreakerPc.exec]
    split
    · split
      · exact .quiet rfl rfl id id ⟨nofun, nofun⟩
      · exact .quiet rfl rfl id id trivial
    · exact .quiet rfl rfl id id ⟨nofun, nofun⟩
    · exact .quiet rfl rfl id id trivial
  | swap newState =>
    dsimp [BreakerPc.exec]
    split
    · rename_i hsame
      exact .quiet hsame.symm rfl id id trivial
    · rename_i hne
      exact .swapped newState rfl hne rfl rfl rfl
  | readChangeTime newState result => exact .read newState result rfl rfl rfl
  | storeChangeTime newState result ms =>
    cases newState <;> exact .stored _ result ms rfl id trivial rfl rfl
  | _ => exact .quiet rfl rfl id id trivial

variable {config s} {t : ThreadId}

/-- At most one thread has a change to stamp; when there is none, the stored time is not
before the last change. -/
structure Inv (config : CircuitBreakerConfig) (s : BreakerSystem) : Prop where
  changed_le : s.changedAt ≤ s.now
  one : ∀ {t u}, Stamping (s.pc t) → Stamping (s.pc u) → t = u
  stamped : (∀ t, ¬Stamping (s.pc t)) → s.changedAt ≤ s.atomics.lastStateChangeMs
  ok : ∀ t, PcOk config s.now s.changedAt s.atomics.state (s.pc t)

theorem inv_new (now : ℕ) : Inv config (new now) where
  changed_le := Nat.le_refl now
  one h := h.elim
  stamped _ := Nat.le_refl now
  ok _ := trivial

theorem PcOk.mono {now now' changedAt : ℕ} {state : CircuitState} {pc : BreakerPc}
    (hnow : now ≤ now') (h : PcOk config now changedAt state pc) :
    PcOk config now' changedAt state pc := by
  cases pc with
  | compareExchange l => exact Nat.le_trans h (Nat.sub_le_sub_right hnow l)
  | _ => exact h

/-- A call that is not stamping and does not close the circuit relies on nothing that a change
invalidates. -/
theorem PcOk.of_change {now changedAt changedAt' : ℕ} {state newState : CircuitState}
    {pc : BreakerPc} (hpc : ¬Stamping pc) (hclose : newState = .open → pc ≠ .swap .closed)
    (h : PcOk config now changedAt state pc) : PcOk config now changedAt' newState pc := by
  cases pc with
  | storeChangeTime => exact absurd trivial hpc
  | swap target => exact ⟨h.1, fun htarget hopen => hclose hopen (htarget ▸ rfl)⟩
  | _ => exact h

theorem Inv.elapse (I : Inv config s) (ms : ℕ) : Inv config { s with now := s.now + ms } where
  changed_le := Nat.le_add_right_of_le I.changed_le
  one := I.one
  stamped := I.stamped
  ok t := (I.ok t).mono (Nat.le_add_right _ _)

/-- A step of a thread that leaves the state, whose new program counter is fine. -/
theorem Inv.update (I : Inv config s) {pc' : BreakerPc} {a' : Atomics}
    (hstate : a'.state = s.atomics.state)
    (hok : PcOk config s.now s.changedAt s.atomics.state pc')
    (hpc : Stamping pc' → Stamping (s.pc t))
    (htime : (∀ u, u ≠ t → ¬Stamping (s.pc u)) → ¬Stamping pc' →
      s.changedAt ≤ a'.lastStateChangeMs) :
    Inv config { s with atomics := a', pc := Function.update s.pc t pc' } := by
  have hback : ∀ {u}, Stamping (Function.update s.pc t pc' u) → Stamping (s.pc u) := by
    intro u hu
    by_cases hut : u = t
    · subst hut
      rw [update_self] at hu
      exact hpc hu
    · rwa [update_of_ne hut] at hu
  refine ⟨I.changed_le, fun ht hu => I.one (hback ht) (hback hu), fun hnone => ?_, fun u => ?_⟩
  · refine htime (fun u hut hu => hnone u ?_) fun hpc' => hnone t ?_
    · change Stamping (Function.update s.pc t pc' u)
      rwa [Function.update_of_ne hut]
    · change Stamping (Function.update s.pc t pc' t)
      rwa [Function.update_self]
  · change PcOk config s.now s.changedAt a'.state (Function.update s.pc t pc' u)
    rw [hstate]
    by_cases hut : u = t
    · subst hut
      rwa [update_self]
    · rw [update_of_ne hut]
      exact I.ok u

/-- A change of state while no thread is stamping. -/
theorem Inv.change (I : Inv config s) {newState : CircuitState}
    {result : Option CircuitState} {a' : Atomics} (hnone : ∀ u, ¬Stamping (s.pc u))
    (hclose : a'.state = .open → ∀ u, s.pc u ≠ .swap .closed) :
    Inv config ⟨a', Function.update s.pc t (.readChangeTime newState result), s.now, s.now⟩ := by
  have hsole : ∀ {u}, Stamping (Function.update s.pc t (.readChangeTime newState result) u) →
      u = t := by
    intro u hu
    by_contra hut
    rw [update_of_ne hut] at hu
    exact hnone u hu
  refine ⟨Nat.le_refl _, fun ht hu => (hsole ht).trans (hsole hu).symm, fun hall => ?_, fun u => ?_⟩
  · refine absurd ?_ (hall t)
    change Stamping (Function.update s.pc t _ t)
    rw [Function.update_self]
    trivial
  · change PcOk config s.now s.now a'.state (Function.update s.pc t _ u)
    by_cases hut : u = t
    · subst hut
      rw [update_self]
      trivial
    · rw [update_of_ne hut]
      exact (I.ok u).of_change (hnone u) fun hopen => hclose hopen u

theorem advance_of_same (h : ((s.pc t).exec config s.now s.atomics).2.state = s.atomics.state) :
    s.advance config t = { s with
        atomics := ((s.pc t).exec config s.now s.atomics).2
        pc := update s.pc t ((s.pc t).exec config s.now s.atomics).1 } := by
  rw [advance, if_pos h]

theorem advance_of_changed (h : ((s.pc t).exec config s.now s.atomics).2.state ≠ s.atomics.state) :
    s.advance config t = ⟨((s.pc t).exec config s.now s.atomics).2,
        update s.pc t ((s.pc t).exec config s.now s.atomics).1, s.now, s.now⟩ := by
  rw [advance, if_neg h]

theorem Undisturbed.swap {newState : CircuitState}
    (h : s.Undisturbed (.step t)) (hpc : s.pc t = .swap newState) :
    (newState = .open → ∀ u, s.pc u ≠ .swap .closed) ∧
      (s.atomics.state ≠ newState → ∀ u, ¬Stamping (s.pc u)) := by
  rw [Undisturbed, hpc] at h
  exact h

theorem Undisturbed.exchange {lastChangeMs : ℕ}
    (h : s.Undisturbed (.step t)) (hpc : s.pc t = .compareExchange lastChangeMs)
    (hopen : s.atomics.state = .open) :
    s.atomics.lastStateChangeMs = lastChangeMs ∧ ∀ u, ¬Stamping (s.pc u) := by
  rw [Undisturbed, hpc] at h
  exact h hopen

theorem Inv.advance (I : Inv config s) (hu : s.Undisturbed (.step t)) :
    Inv config (s.advance config t) := by
  rcases exec_effect config s.now s.changedAt (s.pc t) s.atomics with
    ⟨hstate, htime, hpc, hpc', hok⟩ | ⟨newState, hpc, hne, hstate, htime, hpc'⟩ |
    ⟨lastChangeMs, hpc, hopen, hstate, htime, hpc'⟩ | ⟨newState, result, hpc, hpc', ha⟩ |
    ⟨newState, result, ms, hpc, hpc', hok, hstate, htime⟩
  · rw [advance_of_same hstate]
    refine I.update hstate hok (fun h => absurd h hpc') fun hothers _ => ?_
    rw [htime]
    refine I.stamped fun u => ?_
    by_cases hut : u = t
    · rw [hut]
      exact hpc
    · exact hothers u hut
  · rw [advance_of_changed (hstate ▸ hne.symm), hpc']
    exact I.change ((hu.swap hpc).2 hne) fun hopen => (hu.swap hpc).1 (hstate ▸ hopen)
  · have hne : ((s.pc t).exec config s.now s.atomics).2.state ≠ s.atomics.state := by
      rw [hstate, hopen]
      nofun
    rw [advance_of_changed hne, hpc']
    exact I.change (hu.exchange hpc hopen).2 fun h => nomatch hstate.symm.trans h
  · have hstamping : Stamping (s.pc t) := by
      rw [hpc]
      trivial
    rw [advance_of_same (congrArg Atomics.state ha), ha, hpc']
    exact I.update rfl I.changed_le (fun _ => hstamping) fun _ h => absurd trivial h
  · rw [advance_of_same hstate]
    refine I.update hstate hok (fun h => absurd h hpc') fun _ _ => ?_
    have hms := I.ok t
    rw [hpc] at hms
    rw [htime]
    exact hms

theorem Inv.call (I : Inv config s) {result : Option CircuitState}
    (hpc : s.pc t = .finished result) (c : BreakerCall) :
    Inv config { s with pc := Function.update s.pc t c.entry } := by
  have hentry : ¬Stamping c.entry ∧ PcOk config s.now s.changedAt s.atomics.state c.entry := by
    cases c <;> exact ⟨id, trivial⟩
  refine I.update rfl hentry.2 (fun h => absurd h hentry.1) fun hothers _ => I.stamped fun u => ?_
  by_cases hut : u = t
  · rw [hut, hpc]
    exact id
  · exact hothers u hut

end BreakerSystem

end Sglang.Gateway
