import Sglang.Streaming.Controller

/-!
# What one event does

Every event of the server is one of a few moves, each an explicit change of the state; a
scheduling attempt may be followed by the admission of the request.
-/

namespace Sglang.Streaming

open Sglang.Support Function State Option

/-! ## New requests -/

/-- A request that has done nothing yet. -/
structure Unstarted (r : Req) (session : Option ℕ) (toFinish : Bool) : Prop where
  session : r.session = session
  toFinish : r.toFinish = toFinish
  unfinished : r.finishedReason = none
  finishedLen : r.finishedLen = none
  row : r.reqPoolIdx = none
  retractionCount : r.retractionCount = 0

theorem unstarted_newReq (session : Option ℕ) (m : ℕ) (A : Arrays ℤ) (a : TokenArrays) :
    Unstarted (newReq session m A a).2 session false := by
  unfold newReq
  cases a.carryFill <;> exact ⟨rfl, rfl, rfl, rfl, rfl, rfl⟩

theorem Unstarted.setFinishWithAbort {r : Req} {session : Option ℕ} {b : Bool}
    (h : Unstarted r session b) (A : Arrays ℤ) :
    Unstarted (r.setFinishWithAbort A).2 session true :=
  ⟨h.session, rfl, h.unfinished, h.finishedLen, h.row, h.retractionCount⟩

theorem unstarted_createReq (S : Session) (obj : ℕ) (bos : Option ℤ) (last : Option Req)
    (q : ReqInput) (A : Arrays ℤ) :
    Unstarted (S.createReq obj bos last q A).2.1 (some obj) (S.refuses q) := by
  unfold Session.createReq
  cases S.refuses q with
  | true => exact (unstarted_newReq _ _ _ _).setFinishWithAbort _
  | false => exact unstarted_newReq _ _ _ _

theorem Unstarted.apply {made : Arrays ℤ × Req} {session : Option ℕ} {b : Bool}
    (h : Unstarted made.2 session b) (v : Verdict) :
    Unstarted (v.apply made).2 session (b || decide (v = .invalid)) := by
  cases v with
  | invalid =>
    rw [decide_eq_true rfl, Bool.or_true]
    exact h.setFinishWithAbort _
  | queued =>
    simp only [reduceCtorEq, decide_false, Bool.or_false]
    exact h
  | compiling =>
    simp only [reduceCtorEq, decide_false, Bool.or_false]
    exact h

theorem inflight_of_not_refuses {S : Session} {q : ReqInput} (h : S.refuses q = false) :
    S.inflight = false := by
  simp only [Session.refuses, Bool.or_eq_false_iff] at h
  exact h.1.1.1

theorem refreshFillIds_eq (r : Req) (A : Arrays ℤ) :
    ∃ f, (r.refreshFillIds A).2 = { r with fullUntruncatedFillIds := f } := by
  unfold Req.refreshFillIds
  dsimp only
  split
  · exact ⟨r.fullUntruncatedFillIds, rfl⟩
  · exact ⟨A.next, rfl⟩

/-! ## Moves -/

def Ticket.detach (t : Ticket) : Ticket := { t with req := { t.req with session := none } }

/-- The request without its row and without what it generated beyond its end. -/
def Ticket.leaveRow (t : Ticket) : Ticket :=
  { t with req := { t.req with
    reqPoolIdx := none
    outputIds := t.req.outputIds.take (t.req.finishedLen.getD t.req.outputIds.length) } }

namespace State

/-- The request that `create_req` of the session object `obj` makes. -/
def made (bos : Option ℤ) (s : State) (obj : ℕ) (q : ReqInput) : Arrays ℤ × Req :=
  let made := (s.session obj).createReq obj bos (s.lastReq (s.session obj)) q s.arrays
  (made.1, made.2.1)

/-- The requests when the last one of the session `S` has lost its session. -/
def without (ticket : ℕ → Option Ticket) (S : Session) (i : ℕ) : Option Ticket :=
  if S.reqNode = some i then (ticket i).map Ticket.detach else ticket i

theorem detachLast_eq (s : State) (S : Session) :
    s.detachLast S = { s with ticket := without s.ticket S } := by
  obtain ⟨A, ticket, n, session, m, sessions, slots, free⟩ := s
  have hticket : ∀ p, S.reqNode = some p → ∀ i, without ticket S i =
      if i = p then (ticket p).map Ticket.detach else ticket i := by
    intro p hp i
    grind [without]
  unfold detachLast detach
  cases hp : S.reqNode with
  | none =>
    have hsame : without ticket S = ticket := funext fun i => by simp [without, hp]
    rw [hsame]
  | some p =>
    simp only [funext (hticket p hp)]
    cases ht : ticket p with
    | none =>
      simp only [map_none, mk.injEq, true_and, and_true]
      funext i
      grind
    | some t =>
      simp only [setReq, setTicket, map_some, mk.injEq, true_and, and_true]
      funext i
      grind [update_apply, Ticket.detach]

theorem releaseSession_eq (s : State) (sid : ℕ) : s.releaseSession sid = { s with
      slots := update s.slots sid none
      freeSlots := s.freeSlots ++ (s.slots sid).toList } := by
  unfold releaseSession
  cases h : s.slots sid with
  | none =>
    have hsame : update s.slots sid none = s.slots := by rw [← h, update_eq_self]
    simp [hsame]
  | some row => rfl

/-- Without a slot an ephemeral one takes the row. -/
theorem releaseSession_ephemeral (s : State) (sid row : ℕ) :
    (if s.slots sid = none then { s with slots := update s.slots sid (some row) }
      else s).releaseSession sid = { s with
        slots := update s.slots sid none
        freeSlots := s.freeSlots ++ [(s.slots sid).getD row] } := by
  rw [releaseSession_eq]
  cases h : s.slots sid <;> simp [h]

theorem inStage_eq_some {s : State} {rid : ℕ} {t : Ticket} {stage : Stage} :
    s.inStage rid stage = some t ↔ s.ticket rid = some t ∧ t.stage = stage := by
  simp [inStage, filter_eq_some_iff]

/-- A turn ends: the slot keeps the row, and the request is the last one of its session. -/
def finishTurn (s : State) (rid obj row : ℕ) (t : Ticket) : State :=
  { s with
    slots := update s.slots (s.session obj).sessionId (some row)
    ticket := without (update s.ticket rid (some t.leaveRow)) (s.session obj)
    session := update s.session obj ((s.session obj).finishReq rid t.leaveRow.req s.arrays) }

end State

open State

/-- The row of a request after a scheduling attempt, and the rows that are left. -/
inductive Enters (row : Option ℕ) (free : List ℕ) : Bool → Stage → Option ℕ → List ℕ → Prop
  | stays : Enters row free false .waiting row free
  | has (h : row ≠ none) : Enters row free true .running row free
  | takes {r : ℕ} {rest : List ℕ} (h : row = none) (hfree : free = r :: rest) :
      Enters row free true .running (some r) rest

/-- The row of a request behind `match_prefix`, where the request stays in its session. -/
inductive Holds (s : State) (t : Ticket) : Option ℕ → Prop
  | own (hslot : ∀ obj, t.req.session = some obj → s.slots (s.session obj).sessionId = none) :
      Holds s t t.req.reqPoolIdx
  | slot {obj slot : ℕ} (hsession : t.req.session = some obj)
      (hslot : s.slots (s.session obj).sessionId = some slot) (hto : t.req.toFinish = false) :
      Holds s t (some slot)

/-- A request is changed where it is. -/
inductive Edits (t : Ticket) : Ticket → Prop
  | decode (tokens : List ℤ) (hstage : t.stage = .running) :
      Edits t { t with req := { t.req with outputIds := t.req.outputIds ++ tokens } }
  | abort (hstage : t.stage = .running) : Edits t { t with req := { t.req with toFinish := true } }
  | pop : Edits t { t with stage := .gone }
  | compiled (hstage : t.stage = .compiling) : Edits t { t with stage := .waiting }

/-- A request outside all sessions leaves its row. -/
inductive Frees (t : Ticket) : Ticket → Prop
  | requeue : Frees t { t with
      stage := .waiting
      req := { t.req with reqPoolIdx := none, retractionCount := t.req.retractionCount + 1 } }
  | finish (reason : FinishReason) (finishedLen : Option ℕ) (toFinish : Bool) : Frees t { t with
      stage := .gone
      req := { t.req with
        finishedReason := some reason, finishedLen := finishedLen, toFinish := toFinish
        reqPoolIdx := none } }

/-- The changes of one event. -/
inductive Move (bos : Option ℤ) (s : State) : Event → State → Prop
  | openSession {sid : ℕ} (hclosed : s.sessions sid = none) : Move bos s (.openSession sid)
      { s with
        session := update s.session s.nextSession ⟨sid, none, false, false, none⟩
        nextSession := s.nextSession + 1
        sessions := update s.sessions sid (some s.nextSession) }
  | refuse {sid obj : ℕ} {q : ReqInput} {verdict : Verdict} (hopen : s.sessions sid = some obj)
      (hrefuses : (s.session obj).refuses q = true) : Move bos s (.create sid q verdict)
      (s.addTicket (s.made bos obj q) (some obj) .refused verdict)
  | accept {sid obj : ℕ} {q : ReqInput} {verdict : Verdict} (hopen : s.sessions sid = some obj)
      (hrefuses : (s.session obj).refuses q = false) : Move bos s (.create sid q verdict)
      ((s.setSession obj { s.session obj with inflight := true }).addTicket (s.made bos obj q)
        (some obj) .accepted verdict)
  | submit (q : ReqInput) (verdict : Verdict) : Move bos s (.submit q verdict) (s.submit q verdict)
  | fail {rid : ℕ} {t : Ticket} {stage : Stage} {e : Event} (ht : s.ticket rid = some t)
      (hstage : t.stage = .compiling) (hstays : stage = .compiling ∨ stage = .waiting) :
      Move bos s e (s.failGrammar rid t stage)
  | enter {rid : ℕ} {t : Ticket} {admitted : Bool} {stage : Stage} {held row : Option ℕ}
      {free : List ℕ} (ht : s.ticket rid = some t) (hstage : t.stage = .waiting)
      (hheld : Holds s t held) (henters : Enters held s.freeSlots admitted stage row free) :
      Move bos s (.attempt rid admitted)
        ({ s with arrays := (t.req.refreshFillIds s.arrays).1, freeSlots := free }.setTicket rid
          { t with stage, req := { (t.req.refreshFillIds s.arrays).2 with reqPoolIdx := row } })
  | leave {rid obj slot : ℕ} {t : Ticket} {admitted : Bool} {stage : Stage} {row : Option ℕ}
      {free : List ℕ} (ht : s.ticket rid = some t) (hstage : t.stage = .waiting)
      (hsession : t.req.session = some obj)
      (hslot : s.slots (s.session obj).sessionId = some slot) (hto : t.req.toFinish = true)
      (henters : Enters t.req.reqPoolIdx s.freeSlots admitted stage row free) :
      Move bos s (.attempt rid admitted)
        (({ s with arrays := (t.req.refreshFillIds s.arrays).1, freeSlots := free }.setSession obj
          (s.session obj).abortReq).setTicket rid
            { t with stage, req := { (t.req.refreshFillIds s.arrays).2 with
              session := none, reqPoolIdx := row } })
  | edit {rid : ℕ} {t t' : Ticket} {e : Event} (ht : s.ticket rid = some t) (E : Edits t t') :
      Move bos s e (s.setTicket rid t')
  | free {rid row : ℕ} {t t' : Ticket} {e : Event} (ht : s.ticket rid = some t)
      (hstage : t.stage = .running) (hrow : t.req.reqPoolIdx = some row)
      (hsession : t.req.session = none) (F : Frees t t') :
      Move bos s e ({ s with freeSlots := s.freeSlots ++ [row] }.setTicket rid t')
  | retract {rid obj row : ℕ} {t : Ticket} (ht : s.ticket rid = some t)
      (hstage : t.stage = .running) (hrow : t.req.reqPoolIdx = some row)
      (hsession : t.req.session = some obj) :
      Move bos s (.retract rid) ((s.finishTurn rid obj row t).requeue rid)
  | finish {rid obj row : ℕ} {t : Ticket} {finishedLen : Option ℕ} (ht : s.ticket rid = some t)
      (hstage : t.stage = .running)
      (hto : t.req.toFinish = false) (hrow : t.req.reqPoolIdx = some row)
      (hsession : t.req.session = some obj) : Move bos s (.finish rid finishedLen)
        (s.finishTurn rid obj row { t with
          stage := .gone
          req := { t.req with finishedReason := some .done, finishedLen := finishedLen } })
  | finishAbort {rid obj row : ℕ} {t : Ticket} (ht : s.ticket rid = some t)
      (hstage : t.stage = .running) (hto : t.req.toFinish = true)
      (hrow : t.req.reqPoolIdx = some row)
      (hsession : t.req.session = some obj) : Move bos s (.finishAbort rid)
        (({ s with
            slots := update s.slots (s.session obj).sessionId none
            freeSlots := s.freeSlots ++ [(s.slots (s.session obj).sessionId).getD row] }.setSession
              obj (s.session obj).abortReq).setTicket rid { t with
          stage := .gone
          req := { t.req with
            finishedReason := some .abort, toFinish := false, reqPoolIdx := none } })
  | mark {sid obj : ℕ} {e : Event} (hopen : s.sessions sid = some obj)
      (he : e = .close sid ∨ e = .reap sid) :
      Move bos s e (s.setSession obj { s.session obj with closeOnFinish := true })
  | drop {sid obj : ℕ} {e : Event} {b : Bool} (hopen : s.sessions sid = some obj)
      (hidle : (s.session obj).inflight = false) (he : e = .close sid ∨ e = .reap sid) :
      Move bos s e ({ s with
        ticket := without s.ticket (s.session obj)
        slots := update s.slots sid none
        freeSlots := s.freeSlots ++ (s.slots sid).toList
        sessions := update s.sessions sid none }.setSession obj
          { s.session obj with closeOnFinish := b })

/-! ## Events -/

variable {bos : Option ℤ} {s s' : State} {rid obj sid : ℕ} {t : Ticket}

theorem create_move (hopen : s.sessions sid = some obj) (q : ReqInput) (verdict : Verdict) :
    Move bos s (.create sid q verdict) (s.create bos obj q verdict) := by
  have hsession : ((s.session obj).createReq obj bos (s.lastReq (s.session obj)) q s.arrays).2.2 =
      if (s.session obj).refuses q then s.session obj
      else { s.session obj with inflight := true } := by
    unfold Session.createReq
    dsimp only
    split <;> rfl
  have hcreate : s.create bos obj q verdict = (s.setSession obj
      (if (s.session obj).refuses q then s.session obj
        else { s.session obj with inflight := true })).addTicket (s.made bos obj q) (some obj)
      (if (s.session obj).refuses q then .refused else .accepted) verdict := by
    rw [← hsession]
    rfl
  rw [hcreate]
  cases hrefuses : (s.session obj).refuses q with
  | true =>
    have hsame : s.setSession obj (s.session obj) = s := by rw [setSession, update_eq_self]
    simp only [if_true, hsame]
    exact .refuse hopen hrefuses
  | false => exact .accept hopen hrefuses

theorem takeRow_enters {s₁ : State} (ht : s₁.ticket rid = some t) (h : s₁.takeRow rid = some s') :
    ∃ row free, Enters t.req.reqPoolIdx s₁.freeSlots true .running row free ∧
      s' = { s₁ with freeSlots := free }.setTicket rid
        { t with stage := .running, req := { t.req with reqPoolIdx := row } } := by
  unfold takeRow at h
  simp only [ht] at h
  split at h
  · rename_i r hr
    cases h
    exact ⟨_, _, .has (by rw [hr]; simp), rfl⟩
  · cases h
  · rename_i r rest hr hfree
    cases h
    exact ⟨_, _, .takes hr hfree, rfl⟩

/-- The three outcomes of `match_prefix`. -/
theorem matchPrefix_cases (s : State) (rid : ℕ) (t : Ticket) : (s.matchPrefix rid t = s ∧
      ∀ obj, t.req.session = some obj → s.slots (s.session obj).sessionId = none) ∨
    ∃ obj slot, t.req.session = some obj ∧ s.slots (s.session obj).sessionId = some slot ∧
      (t.req.toFinish = true ∧ s.matchPrefix rid t =
          (s.setSession obj (s.session obj).abortReq).setTicket rid t.detach ∨
        t.req.toFinish = false ∧ s.matchPrefix rid t =
          s.setTicket rid { t with req := { t.req with reqPoolIdx := some slot } }) := by
  unfold matchPrefix
  cases hsession : t.req.session with
  | none => exact Or.inl ⟨rfl, fun _ h => nomatch h⟩
  | some obj =>
    cases hslot : s.slots (s.session obj).sessionId with
    | none =>
      simp only [hslot]
      exact Or.inl ⟨trivial, fun o ho => by cases ho; exact hslot⟩
    | some slot =>
      refine Or.inr ⟨obj, slot, rfl, hslot, ?_⟩
      cases hto : t.req.toFinish with
      | true => simp [hslot, hto, setReq, Ticket.detach]
      | false => simp [hslot, hto, setReq]

/-- The admission that may follow `match_prefix`. -/
theorem enters_of_attempt {s₁ : State} {r : Req} {admitted : Bool} (hstage : t.stage = .waiting)
    (hticket : s₁.ticket rid = some { t with req := r })
    (h : (if admitted = true then s₁.takeRow rid else some s₁) = some s') :
    ∃ stage row free, Enters r.reqPoolIdx s₁.freeSlots admitted stage row free ∧
      s' = { s₁ with freeSlots := free }.setTicket rid
        { t with stage, req := { r with reqPoolIdx := row } } := by
  cases admitted with
  | true =>
    obtain ⟨row, free, henters, rfl⟩ := takeRow_enters hticket h
    exact ⟨_, row, free, henters, rfl⟩
  | false =>
    cases h
    refine ⟨_, _, _, .stays, ?_⟩
    rw [← hstage, setTicket, ← hticket, update_eq_self]

theorem attempt_move (ht : s.ticket rid = some t) (hstage : t.stage = .waiting) {admitted : Bool}
    (h : s.attempt rid t admitted = some s') : Move bos s (.attempt rid admitted) s' := by
  obtain ⟨f, hf⟩ := refreshFillIds_eq t.req s.arrays
  unfold attempt at h
  dsimp only at h
  set s₁ : State := { s with arrays := (t.req.refreshFillIds s.arrays).1 }.setTicket rid
    { t with req := (t.req.refreshFillIds s.arrays).2 } with hs₁
  rcases matchPrefix_cases s₁ rid { t with req := (t.req.refreshFillIds s.arrays).2 } with
    ⟨heq, hslot⟩ | ⟨obj, slot, hsession, hslot, ⟨hto, heq⟩ | ⟨hto, heq⟩⟩
  all_goals
    rw [heq] at h
    obtain ⟨stage, row, free, henters, rfl⟩ := enters_of_attempt hstage (update_self ..) h
    simp [hs₁, setTicket, setSession]
  · rw [hf] at hslot henters
    exact .enter ht hstage (.own hslot) henters
  · rw [hf] at hsession hto henters
    exact .leave ht hstage hsession hslot hto henters
  · rw [hf] at hsession hto
    exact .enter ht hstage (.slot hsession hslot hto) henters

/-- `release_kv_cache` for a request of a session. -/
theorem cacheFinishedReq_eq (obj rid row : ℕ) (t : Ticket)
    (h : t.req.finishedReason ≠ some .abort) :
    s.cacheFinishedReq obj rid row t = s.finishTurn rid obj row t := by
  unfold cacheFinishedReq
  simp only [if_neg h, finishReq, detachLast_eq]
  rfl

theorem close_move {e : Event} {b : Bool} (hopen : s.sessions sid = some obj)
    (he : e = .close sid ∨ e = .reap sid) :
    Move bos s e ((s.setSession obj { s.session obj with closeOnFinish := b }).close sid obj) := by
  unfold close
  dsimp only
  split
  · simp only [setSession, update_self, update_idem]
    exact .mark hopen he
  · rename_i hidle
    have hinflight : (s.session obj).inflight = false := by
      simp only [setSession, update_self, Bool.or_eq_true, not_or, Bool.not_eq_true] at hidle
      exact hidle.1
    rw [drop, releaseSession_eq, detachLast_eq]
    have hwithout : ∀ S : Session, without s.ticket { S with closeOnFinish := b } =
        without s.ticket S := fun _ => rfl
    simp only [setSession, update_self, hwithout]
    exact .drop hopen hinflight he

theorem step_move {e : Event}
    (hgoing : ∀ i t, s.ticket i = some t → t.stage ≠ .gone → t.req.finishedReason = none)
    (h : step bos s e = some s') : Move bos s e s' := by
  cases e with
  | openSession sid =>
    simp only [step] at h
    split at h
    · cases h
      exact .openSession ‹_›
    · cases h
  | create sid q verdict =>
    obtain ⟨obj, hopen, h⟩ := bind_eq_some_iff.mp h
    split at h
    · cases h
    · cases h
      exact create_move hopen q verdict
  | submit q verdict =>
    cases h
    exact .submit q verdict
  | abortCompiling rid =>
    obtain ⟨t, ht, rfl⟩ := map_eq_some_iff.mp h
    obtain ⟨ht, hstage⟩ := inStage_eq_some.mp ht
    exact .fail ht hstage (Or.inl rfl)
  | compiled rid ok =>
    obtain ⟨t, ht, rfl⟩ := map_eq_some_iff.mp h
    obtain ⟨ht, hstage⟩ := inStage_eq_some.mp ht
    cases ok with
    | true => exact .edit ht (.compiled hstage)
    | false => exact .fail ht hstage (Or.inr rfl)
  | attempt rid admitted =>
    obtain ⟨t, ht, h⟩ := bind_eq_some_iff.mp h
    obtain ⟨ht, hstage⟩ := inStage_eq_some.mp ht
    exact attempt_move ht hstage h
  | decode rid tokens =>
    obtain ⟨t, ht, rfl⟩ := map_eq_some_iff.mp h
    obtain ⟨ht, hstage⟩ := inStage_eq_some.mp ht
    exact .edit ht (.decode tokens hstage)
  | abort rid =>
    obtain ⟨t, ht, rfl⟩ := map_eq_some_iff.mp h
    obtain ⟨ht, hstage⟩ := inStage_eq_some.mp ht
    exact .edit ht (.abort hstage)
  | pop rid =>
    obtain ⟨t, ht, rfl⟩ := map_eq_some_iff.mp h
    exact .edit (inStage_eq_some.mp ht).1 .pop
  | retract rid =>
    obtain ⟨t, ht, h⟩ := bind_eq_some_iff.mp h
    obtain ⟨ht, hstage⟩ := inStage_eq_some.mp ht
    obtain ⟨row, hrow, rfl⟩ := map_eq_some_iff.mp h
    have hgo := hgoing rid t ht (by rw [hstage]; decide)
    unfold releaseKvCache
    split
    · rename_i obj hsession
      rw [cacheFinishedReq_eq _ _ _ _ (by rw [hgo]; simp)]
      exact .retract ht hstage hrow hsession
    · rename_i hsession
      simp only [requeue, setReq, setTicket, update_self, update_idem]
      exact .free ht hstage hrow hsession .requeue
  | finish rid finishedLen =>
    obtain ⟨t, ht, h⟩ := bind_eq_some_iff.mp h
    obtain ⟨ht, hstage⟩ := inStage_eq_some.mp ht
    dsimp only at h
    split at h
    · cases h
    · rename_i hto
      obtain ⟨row, hrow, rfl⟩ := map_eq_some_iff.mp h
      unfold releaseKvCache
      split
      · rename_i obj hsession
        rw [cacheFinishedReq_eq _ _ _ _ (by simp)]
        exact .finish ht hstage (by simpa using hto) hrow hsession
      · rename_i hsession
        exact .free ht hstage hrow hsession (.finish .done finishedLen t.req.toFinish)
  | finishAbort rid =>
    obtain ⟨t, ht, h⟩ := bind_eq_some_iff.mp h
    obtain ⟨ht, hstage⟩ := inStage_eq_some.mp ht
    dsimp only at h
    split at h
    · rename_i hto
      obtain ⟨row, hrow, rfl⟩ := map_eq_some_iff.mp h
      unfold releaseKvCache
      split
      · rename_i obj hsession
        simp only [cacheFinishedReq, if_true, releaseSession_ephemeral]
        exact Move.finishAbort ht hstage hto hrow hsession
      · rename_i hsession
        exact .free ht hstage hrow hsession (.finish .abort t.req.finishedLen false)
    · cases h
  | close sid =>
    obtain ⟨obj, hopen, rfl⟩ := map_eq_some_iff.mp h
    have hmove : Move bos s (.close sid) _ :=
      close_move (b := (s.session obj).closeOnFinish) hopen (Or.inl rfl)
    rwa [setSession, update_eq_self] at hmove
  | reap sid =>
    obtain ⟨obj, hopen, h⟩ := bind_eq_some_iff.mp h
    dsimp only at h
    split at h
    · cases h
      exact close_move hopen (Or.inr rfl)
    · cases h

end Sglang.Streaming
