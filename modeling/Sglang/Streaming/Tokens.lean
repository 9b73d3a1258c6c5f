import Sglang.Support.Arrays

/-!
# The token arrays of a streaming session

A streaming session keeps the request that finished last. The next request takes
over its token arrays: they are cut back to the lengths recorded when that request
finished, and extended with its output and the new input.
-/

namespace Sglang.Streaming

open Sglang.Support

/-- How a request ended. -/
inductive FinishReason
  | abort
  | done
  deriving DecidableEq

/-- A request. `session` is the session object it belongs to; `to_finish` only ever holds an
abort. -/
structure Req where
  session : Option ℕ
  originInputIds : Ref
  originInputIdsUnpadded : Ref
  fullUntruncatedFillIds : Ref
  outputIds : List ℤ := []
  maxNewTokens : ℕ
  toFinish : Bool := false
  finishedReason : Option FinishReason := none
  finishedLen : Option ℕ := none
  reqPoolIdx : Option ℕ := none
  retractionCount : ℕ := 0

def Req.finished (r : Req) : Bool := r.finishedReason.isSome

/-- The lengths of the token arrays of the last request as of its `finish_req`. -/
structure Committed where
  originLen : ℕ
  unpaddedLen : ℕ
  fillLen : ℕ

/-- A streaming session. `req_nodes` holds at most one request. -/
structure Session where
  sessionId : ℕ
  reqNode : Option ℕ := none
  closeOnFinish : Bool := false
  inflight : Bool := false
  committed : Option Committed := none

/-- What the client sends. -/
structure ReqInput where
  inputIds : List ℤ
  maxNewTokens : ℕ
  replace : Bool := false
  dropPreviousOutput : Bool := false
  offset : Option ℤ := none

/-- The reasons for which `create_req` of a streaming session refuses a request. -/
def Session.refuses (S : Session) (q : ReqInput) : Bool :=
  S.inflight || q.replace || q.dropPreviousOutput || q.offset.getD 0 != 0

/-- `bos` is the BOS token where there is a tokenizer. -/
def stripBosToken (bos : Option ℤ) : List ℤ → List ℤ
  | [] => []
  | t :: ts => if bos = some t then ts else t :: ts

def Req.outTail (r : Req) : List ℤ := r.outputIds.take r.maxNewTokens

/-- The arrays that a request starts with. -/
structure TokenArrays where
  inputIds : Ref
  inputIdsUnpadded : Ref
  carryFill : Option Ref

/-- The carried fill array, once the origin arrays are cut back. -/
def carryFill (last : Req) (fillLen : ℕ) (newInputIds : List ℤ) (A : Arrays ℤ) :
    Arrays ℤ × Option Ref :=
  let fill := last.fullUntruncatedFillIds
  if fill = last.originInputIds ∨ fill = last.originInputIdsUnpadded then (A, none)
  else
    let A := A.truncate fill fillLen
    let filled := (A.cell fill).length
    let origin := (A.cell last.originInputIds).length
    if origin ≤ filled ∧ filled - origin ≤ last.outTail.length then
      (A.extend fill (last.outTail.drop (filled - origin) ++ newInputIds), some fill)
    else (A, none)

/-- `_share_token_arrays` -/
def shareTokenArrays (c : Committed) (last : Req) (newInputIds : List ℤ) (A : Arrays ℤ) :
    Arrays ℤ × TokenArrays :=
  let inputIds := last.originInputIds
  let unpadded := last.originInputIdsUnpadded
  let A := A.truncate inputIds c.originLen
  let A := if unpadded = inputIds then A else A.truncate unpadded c.unpaddedLen
  let carried := carryFill last c.fillLen newInputIds A
  let A := carried.1.extend inputIds (last.outTail ++ newInputIds)
  let A := if unpadded = inputIds then A else A.extend unpadded (last.outTail ++ newInputIds)
  (A, ⟨inputIds, unpadded, carried.2⟩)

/-- `_concat_token_arrays`, for a plain append. -/
def concatTokenArrays (last : Req) (newInputIds : List ℤ) (A : Arrays ℤ) :
    Arrays ℤ × TokenArrays :=
  let inputIds := A.cell last.originInputIds ++ last.outTail ++ newInputIds
  let unpadded := A.cell last.originInputIdsUnpadded ++ last.outTail ++ newInputIds
  ((A.new inputIds).new unpadded, ⟨A.next, A.next + 1, none⟩)

/-- The arrays of a request that does not append to another. -/
def firstTokenArrays (inputIds : List ℤ) (A : Arrays ℤ) : Arrays ℤ × TokenArrays :=
  (A.new inputIds, ⟨A.next, A.next, none⟩)

/-- The constructor of `Req`: an empty unpadded array is replaced by the padded one, and the fill
array starts empty unless one is carried over. -/
def newReq (session : Option ℕ) (maxNewTokens : ℕ) (A : Arrays ℤ) (t : TokenArrays) :
    Arrays ℤ × Req :=
  let unpadded := if A.cell t.inputIdsUnpadded = [] then t.inputIds else t.inputIdsUnpadded
  match t.carryFill with
  | some fill => (A, ⟨session, t.inputIds, unpadded, fill, [], maxNewTokens, false, none, none,
      none, 0⟩)
  | none => (A.new [], ⟨session, t.inputIds, unpadded, A.next, [], maxNewTokens, false, none, none,
      none, 0⟩)

/-- `set_finish_with_abort`: one token is left to prefill. -/
def Req.setFinishWithAbort (r : Req) (A : Arrays ℤ) : Arrays ℤ × Req :=
  (A.new [0], { r with originInputIds := A.next, toFinish := true })

/-- The arrays `create_req` hands to the new request; `last` is the request it appends to. -/
def Session.tokenArrays (S : Session) (bos : Option ℤ) (last : Option Req) (q : ReqInput)
    (A : Arrays ℤ) : Arrays ℤ × TokenArrays :=
  match last, S.refuses q with
  | some last, false =>
    let newInputIds := stripBosToken bos q.inputIds
    match S.committed with
    | some c => shareTokenArrays c last newInputIds A
    | none => concatTokenArrays last newInputIds A
  | _, _ => firstTokenArrays q.inputIds A

/-- `create_req` of the session object `obj`. -/
def Session.createReq (S : Session) (obj : ℕ) (bos : Option ℤ) (last : Option Req) (q : ReqInput)
    (A : Arrays ℤ) : Arrays ℤ × Req × Session :=
  let arrays := S.tokenArrays bos last q A
  let made := newReq (some obj) q.maxNewTokens arrays.1 arrays.2
  if S.refuses q then
    let aborted := made.2.setFinishWithAbort made.1
    (aborted.1, aborted.2, S)
  else (made.1, made.2, { S with inflight := true })

/-- `_refresh_fill_ids` -/
def Req.refreshFillIds (r : Req) (A : Arrays ℤ) : Arrays ℤ × Req :=
  let origin := A.cell r.originInputIds
  let fill := A.cell r.fullUntruncatedFillIds
  if r.fullUntruncatedFillIds ≠ r.originInputIds ∧ origin.length ≤ fill.length ∧
      fill.length - origin.length ≤ r.outputIds.length then
    (A.extend r.fullUntruncatedFillIds (r.outputIds.drop (fill.length - origin.length)), r)
  else (A.new (origin ++ r.outputIds), { r with fullUntruncatedFillIds := A.next })

/-- The session part of `finish_req`. -/
def Session.finishReq (S : Session) (rid : ℕ) (r : Req) (A : Arrays ℤ) : Session :=
  { S with
    inflight := false
    reqNode := some rid
    committed := some
      { originLen := (A.cell r.originInputIds).length
        unpaddedLen := (A.cell r.originInputIdsUnpadded).length
        fillLen := (A.cell r.fullUntruncatedFillIds).length } }

def Session.abortReq (S : Session) : Session := { S with inflight := false }

end Sglang.Streaming
