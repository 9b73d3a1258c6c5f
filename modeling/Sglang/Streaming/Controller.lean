import Sglang.Streaming.Tokens
import Sglang.Support.Reachable
import Mathlib.Data.List.Basic

/-!
# Streaming sessions in the scheduler

The session controller, the slots that keep the row of `req_to_token` between the turns of a
session, and the requests with their way through the scheduler. Clients send requests at any
time, and the scheduler picks them up, retracts them and finishes them in any order.

What a cached prefix holds does not matter here; of a slot the model keeps `req_pool_idx`.
-/

namespace Sglang.Streaming

open Sglang.Support Function

/-- Where a request comes from. -/
inductive Birth
  /-- `create_req` made it without an abort. -/
  | accepted
  /-- `create_req` refused it. -/
  | refused
  /-- It belongs to no session. -/
  | plain
  deriving DecidableEq

/-- What `handle_generate_request` does with a request: a failed check aborts it, and a grammar
may have to be compiled first. -/
inductive Verdict
  | queued
  | compiling
  | invalid
  deriving DecidableEq

inductive Stage
  /-- In the queue of the grammar manager. -/
  | compiling
  | waiting
  | running
  | gone
  deriving DecidableEq

/-- A request as the scheduler sees it; `creator` is the session object that made it. -/
structure Ticket where
  req : Req
  creator : Option ℕ
  birth : Birth
  stage : Stage

structure State where
  arrays : Arrays ℤ
  ticket : ℕ → Option Ticket
  nextReq : ℕ
  /-- Session objects. -/
  session : ℕ → Session
  nextSession : ℕ
  /-- `SessionController.sessions` -/
  sessions : ℕ → Option ℕ
  /-- `StreamingSession.slots` with their `req_pool_idx` -/
  slots : ℕ → Option ℕ
  freeSlots : List ℕ

/-- A server with the rows `rows`. -/
def State.init (rows : List ℕ) : State where
  arrays := Arrays.empty
  ticket _ := none
  nextReq := 0
  session _ := ⟨0, none, false, false, none⟩
  nextSession := 0
  sessions _ := none
  slots _ := none
  freeSlots := rows

inductive Event
  | openSession (sid : ℕ)
  | create (sid : ℕ) (q : ReqInput) (verdict : Verdict)
  | submit (q : ReqInput) (verdict : Verdict)
  /-- An abort that meets a request in the queue of the grammar manager. -/
  | abortCompiling (rid : ℕ)
  /-- A grammar is compiled, or its compilation has failed or timed out. -/
  | compiled (rid : ℕ) (ok : Bool)
  /-- A scheduling attempt: `match_prefix`, and a row where the request is admitted. -/
  | attempt (rid : ℕ) (admitted : Bool)
  | decode (rid : ℕ) (tokens : List ℤ)
  | abort (rid : ℕ)
  | retract (rid : ℕ)
  | finish (rid : ℕ) (finishedLen : Option ℕ)
  | finishAbort (rid : ℕ)
  /-- An abort takes a request out of the waiting queue. -/
  | pop (rid : ℕ)
  | close (sid : ℕ)
  /-- The deferred close of one session in `maybe_reap`; a timeout is a `close`. -/
  | reap (sid : ℕ)

def Verdict.stage : Verdict → Stage
  | .compiling => .compiling
  | .queued => .waiting
  | .invalid => .waiting

/-- The checks behind the constructor of a request. -/
def Verdict.apply (made : Arrays ℤ × Req) : Verdict → Arrays ℤ × Req
  | .invalid => made.2.setFinishWithAbort made.1
  | .queued => made
  | .compiling => made

namespace State

variable (s : State)

def setTicket (rid : ℕ) (t : Ticket) : State :=
  { s with ticket := update s.ticket rid (some t) }

def setReq (rid : ℕ) (t : Ticket) (r : Req) : State := s.setTicket rid { t with req := r }

def setSession (obj : ℕ) (S : Session) : State :=
  { s with session := update s.session obj S }

/-- `req.session = None` for a request that is known by its number only. -/
def detach (rid : ℕ) : State :=
  match s.ticket rid with
  | some t => s.setReq rid t { t.req with session := none }
  | none => s

/-- A new request, once it is checked. -/
def addTicket (made : Arrays ℤ × Req) (creator : Option ℕ) (birth : Birth) (verdict : Verdict) :
    State :=
  let checked := verdict.apply made
  { s with
    arrays := checked.1
    ticket := update s.ticket s.nextReq (some ⟨checked.2, creator, birth, verdict.stage⟩)
    nextReq := s.nextReq + 1 }

/-- The request that a session appends to. -/
def lastReq (S : Session) : Option Req := (S.reqNode.bind s.ticket).map (·.req)

/-- `handle_generate_request` for a session that exists and is not closing. -/
def create (bos : Option ℤ) (obj : ℕ) (q : ReqInput) (verdict : Verdict) : State :=
  let S := s.session obj
  let made := S.createReq obj bos (s.lastReq S) q s.arrays
  (s.setSession obj made.2.2).addTicket (made.1, made.2.1) (some obj)
    (if S.refuses q then .refused else .accepted) verdict

/-- A request without a session. -/
def submit (q : ReqInput) (verdict : Verdict) : State :=
  let arrays := firstTokenArrays q.inputIds s.arrays
  s.addTicket (newReq none q.maxNewTokens arrays.1 arrays.2) none .plain verdict

/-- `set_finish_with_abort` for a request in the queue of the grammar manager. -/
def failGrammar (rid : ℕ) (t : Ticket) (stage : Stage) : State :=
  let aborted := t.req.setFinishWithAbort s.arrays
  { s with arrays := aborted.1 }.setTicket rid { t with stage, req := aborted.2 }

/-- `match_prefix` behind `find_active_slot`: a request that is to be aborted leaves its session,
any other takes the row of the slot. -/
def matchPrefix (rid : ℕ) (t : Ticket) : State :=
  match t.req.session with
  | none => s
  | some obj =>
    match s.slots (s.session obj).sessionId with
    | none => s
    | some row =>
      if t.req.toFinish then
        (s.setSession obj (s.session obj).abortReq).setReq rid t { t.req with session := none }
      else s.setReq rid t { t.req with reqPoolIdx := some row }

/-- A row for a request that is admitted. -/
def takeRow (rid : ℕ) : Option State :=
  match s.ticket rid with
  | none => none
  | some t =>
    match t.req.reqPoolIdx, s.freeSlots with
    | some _, _ => some (s.setTicket rid { t with stage := .running })
    | none, [] => none
    | none, row :: rows =>
      some ({ s with freeSlots := rows }.setTicket rid
        { t with stage := .running, req := { t.req with reqPoolIdx := some row } })

/-- `init_next_round_input`, and the admission that may follow it. -/
def attempt (rid : ℕ) (t : Ticket) (admitted : Bool) : Option State :=
  let refreshed := t.req.refreshFillIds s.arrays
  let t := { t with req := refreshed.2 }
  let s := ({ s with arrays := refreshed.1 }.setTicket rid t).matchPrefix rid t
  if admitted then s.takeRow rid else some s

/-- `release_session` -/
def releaseSession (sid : ℕ) : State :=
  match s.slots sid with
  | none => s
  | some row =>
    { s with slots := update s.slots sid none, freeSlots := s.freeSlots ++ [row] }

/-- The last request of a session loses its reference to the session. -/
def detachLast (S : Session) : State :=
  match S.reqNode with
  | some prev => s.detach prev
  | none => s

/-- `finish_req` of a session object. -/
def finishReq (obj rid : ℕ) (r : Req) : State :=
  let S := s.session obj
  (s.detachLast S).setSession obj (S.finishReq rid r s.arrays)

/-- `try_cache_finished_req` for a request in the row `row`. -/
def cacheFinishedReq (obj rid row : ℕ) (t : Ticket) : State :=
  let sid := (s.session obj).sessionId
  let r := { t.req with reqPoolIdx := none }
  if t.req.finishedReason = some .abort then
    -- without a slot an ephemeral one takes the row of the request
    let s := if s.slots sid = none then { s with slots := update s.slots sid (some row) } else s
    let s := (s.releaseSession sid).setReq rid t r
    s.setSession obj (s.session obj).abortReq
  else
    let r := { r with outputIds := r.outputIds.take (r.finishedLen.getD r.outputIds.length) }
    let s := { s with slots := update s.slots sid (some row) }.setReq rid t r
    s.finishReq obj rid r

/-- `release_kv_cache` -/
def releaseKvCache (rid row : ℕ) (t : Ticket) : State :=
  match t.req.session with
  | some obj => s.cacheFinishedReq obj rid row t
  | none =>
    { s with freeSlots := s.freeSlots ++ [row] }.setReq rid t { t.req with reqPoolIdx := none }

/-- `reset_for_retract`, as far as it concerns sessions. -/
def requeue (rid : ℕ) : State :=
  match s.ticket rid with
  | some t => s.setTicket rid
      { t with
        stage := .waiting
        req := { t.req with retractionCount := t.req.retractionCount + 1 } }
  | none => s

/-- `_all_requests_finished` -/
def allRequestsFinished (S : Session) : Bool := ((s.lastReq S).map (·.finished)).getD true

/-- The part of `_close` that gives the session up. -/
def drop (sid : ℕ) (S : Session) : State :=
  let s := (s.detachLast S).releaseSession sid
  { s with sessions := update s.sessions sid none }

/-- `_close` -/
def close (sid obj : ℕ) : State :=
  let S := s.session obj
  if S.inflight || !s.allRequestsFinished S then s.setSession obj { S with closeOnFinish := true }
  else s.drop sid S

/-- The request `rid`, where it is in the given stage. -/
def inStage (rid : ℕ) (stage : Stage) : Option Ticket :=
  (s.ticket rid).filter fun t => decide (t.stage = stage)

end State

variable (bos : Option ℤ)

def step (s : State) : Event → Option State
  | .openSession sid =>
    if s.sessions sid = none then
      some { s with
        session := update s.session s.nextSession ⟨sid, none, false, false, none⟩
        nextSession := s.nextSession + 1
        sessions := update s.sessions sid (some s.nextSession) }
    else none
  | .create sid q verdict =>
    (s.sessions sid).bind fun obj =>
      if (s.session obj).closeOnFinish then none else some (s.create bos obj q verdict)
  | .submit q verdict => some (s.submit q verdict)
  | .abortCompiling rid =>
    (s.inStage rid .compiling).map fun t => s.failGrammar rid t .compiling
  | .compiled rid ok =>
    (s.inStage rid .compiling).map fun t =>
      if ok then s.setTicket rid { t with stage := .waiting } else s.failGrammar rid t .waiting
  | .attempt rid admitted => (s.inStage rid .waiting).bind fun t => s.attempt rid t admitted
  | .decode rid tokens =>
    (s.inStage rid .running).map fun t =>
      s.setReq rid t { t.req with outputIds := t.req.outputIds ++ tokens }
  | .abort rid =>
    (s.inStage rid .running).map fun t => s.setReq rid t { t.req with toFinish := true }
  | .retract rid =>
    (s.inStage rid .running).bind fun t =>
      t.req.reqPoolIdx.map fun row => (s.releaseKvCache rid row t).requeue rid
  | .finish rid finishedLen =>
    (s.inStage rid .running).bind fun t =>
      if t.req.toFinish then none
      else t.req.reqPoolIdx.map fun row => s.releaseKvCache rid row
        { t with
          stage := .gone
          req := { t.req with finishedReason := some .done, finishedLen := finishedLen } }
  | .finishAbort rid =>
    (s.inStage rid .running).bind fun t =>
      if t.req.toFinish then t.req.reqPoolIdx.map fun row => s.releaseKvCache rid row
        { t with
          stage := .gone
          req := { t.req with finishedReason := some .abort, toFinish := false } }
      else none
  | .pop rid => (s.inStage rid .waiting).map fun t => s.setTicket rid { t with stage := .gone }
  | .close sid => (s.sessions sid).map fun obj => s.close sid obj
  | .reap sid =>
    (s.sessions sid).bind fun obj =>
      let S := s.session obj
      if S.closeOnFinish && s.allRequestsFinished S then
        some ((s.setSession obj { S with closeOnFinish := false }).close sid obj)
      else none

end Sglang.Streaming
