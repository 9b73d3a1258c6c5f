import Sglang.Parser.Apertus
import Sglang.Support.Reachable
import Mathlib.Data.Rat.Defs

/-!
# Streaming of JSON tool calls

The base detector keeps a buffer, asks a partial-JSON loader for the object that
starts after the begin token or the separator, and streams first the name and
then the arguments of the current call. The loader, the completeness test and
the serialiser are parameters, fixed anew for every call, so that a result here
holds for whatever they answer.
-/

namespace Sglang.FunctionCall

open Sglang.Support
open Sglang.Parser (endsWithPartialToken)

abbrev Text := List Char

inductive Json
  | null
  | bool (b : Bool)
  | number (q : ℚ)
  | string (s : Text)
  | array (items : List Json)
  | object (entries : List (Text × Json))

/-- What a Python expression can raise; the inner handler only catches the first. -/
inductive Exn
  | malformedJSON
  | other
deriving DecidableEq

namespace Json

def truthy : Json → Bool
  | null => false
  | bool b => b
  | number q => q != 0
  | string s => !s.isEmpty
  | array items => !items.isEmpty
  | object entries => !entries.isEmpty

def isString (s : Text) : Json → Bool
  | string t => t = s
  | _ => false

/-- `key in value`. -/
def has (key : Text) : Json → Except Exn Bool
  | object entries => .ok (entries.lookup key).isSome
  | array items => .ok (items.any (isString key))
  | string s => .ok (contains key s)
  | _ => .error .other

/-- `value[key]`. -/
def item (key : Text) : Json → Except Exn Json
  | object entries => (entries.lookup key).elim (.error .other) .ok
  | _ => .error .other

/-- `value.get(key)`. -/
def get (key : Text) : Json → Except Exn (Option Json)
  | object entries => .ok (entries.lookup key)
  | _ => .error .other

/-- `value[key] = x`. -/
def set (key : Text) (x : Json) : Json → Except Exn Json
  | object entries => .ok (object ((key, x) :: entries.filter fun e => e.1 != key))
  | _ => .error .other

/-- Membership in a dictionary with text keys: lists and dictionaries are unhashable. -/
def isKeyOf (keys : List Text) : Json → Except Exn Bool
  | string s => .ok (s ∈ keys)
  | array _ => .error .other
  | object _ => .error .other
  | _ => .ok false

end Json

structure ToolCallItem where
  toolIndex : ℤ
  name : Option Text := none
  parameters : Text
deriving DecidableEq

structure StreamingParseResult where
  normalText : Text := []
  calls : List ToolCallItem := []
deriving DecidableEq

/-- What a subclass configures. -/
structure BaseFormatDetector where
  botToken : Text
  eotToken : Text
  toolCallSeparator : Text := ", ".toList
  hasToolCall : Text → Bool

/-- The functions outside the detector, as they behave during one call. -/
structure JsonTools where
  partialJsonLoads : Text → Bool → Except Exn (Json × ℕ)
  isCompleteJson : Text → Bool
  dumps : Json → Except Exn Text

structure DetectorState where
  buffer : Text := []
  prevToolCallArr : List Json := []
  currentToolId : ℤ := -1
  currentToolNameSent : Bool := false
  streamedArgsForTool : List Text := []
  toolIndices : Option (List Text) := none

def jsonArrayParser : BaseFormatDetector where
  botToken := ['[']
  eotToken := [']']
  toolCallSeparator := [',']
  hasToolCall := fun text => text.contains '[' || text.contains '{'

/-- The keys of the dictionary from tool names to positions. -/
def getToolIndices (tools : List Text) : List Text := tools.filter fun name => !name.isEmpty

/-- `text.replace(p, "")`; every round removes one occurrence. -/
def deleteAll (p : Text) : ℕ → Text → Text
  | 0, text => text
  | fuel + 1, text =>
    match find p text with
    | none => text
    | some i => text.take i ++ deleteAll p fuel (text.drop (i + p.length))

def findCommonPrefix : Text → Text → Text
  | a :: s, b :: t => if a = b then a :: findCommonPrefix s t else []
  | _, _ => []

/-- A list position as Python reads it: negative positions count from the end. -/
def position (len : ℕ) (i : ℤ) : Except Exn ℕ :=
  if 0 ≤ i then
    if i.toNat < len then .ok i.toNat else .error .other
  else if 0 ≤ len + i then .ok (len + i).toNat else .error .other

namespace BaseFormatDetector

variable (D : BaseFormatDetector) (J : JsonTools) (d : DetectorState)

def startsWithSeparator (text : Text) : Bool :=
  decide (0 < d.currentToolId) && D.toolCallSeparator.isPrefixOf text

def startIdx (text : Text) : ℕ :=
  if D.startsWithSeparator d text then D.toolCallSeparator.length
  else (find D.botToken text).elim 0 (· + D.botToken.length)

/-- The object the loader finds in the buffer, with its start and its length; `none` where the
text ends before an object can start. -/
def loadObject (text : Text) : Except Exn (Option (Json × ℕ × ℕ)) :=
  let start := D.startIdx d text
  if text.length ≤ start then .ok none
  else
    match J.partialJsonLoads (text.drop start) d.currentToolNameSent with
    | .ok (obj, stop) => .ok (some (obj, start, stop))
    | .error .other => .error .other
    | .error .malformedJSON =>
      -- the separator stood before markup: look behind the begin token instead
      match D.startsWithSeparator d text, find D.botToken text with
      | true, some i =>
        let start := i + D.botToken.length
        if text.length ≤ start then .ok none
        else (J.partialJsonLoads (text.drop start) d.currentToolNameSent).map
          fun r => some (r.1, start, r.2)
      | _, _ => .error .malformedJSON

/-- The object carries a name that is not the name of a tool. -/
def namesUnknownTool (indices : List Text) (obj : Json) : Except Exn Bool := do
  if ← obj.has "name".toList then
    return !(← (← obj.item "name".toList).isKeyOf indices)
  else
    return false

def unifyArguments (obj : Json) : Except Exn Json := do
  if ← obj.has "parameters".toList then
    if ← obj.has "arguments".toList then
      .error .other
    else
      obj.set "arguments".toList (← obj.item "parameters".toList)
  else
    return obj

/-- Case 1: the name of the current call has not been sent. -/
def sendName (indices : List Text) (d : DetectorState) (call : Json) :
    Except Exn (DetectorState × StreamingParseResult) := do
  match ← call.get "name".toList with
  | none => return (d, {})
  | some name =>
    if name.truthy then
      if ← name.isKeyOf indices then
        let sent := match name with | .string s => s | _ => []
        if d.currentToolId = -1 then
          return ({ d with
              currentToolId := 0
              streamedArgsForTool := d.streamedArgsForTool ++ [[]]
              currentToolNameSent := true },
            { calls := [⟨0, some sent, []⟩] })
        else
          let missing := (d.currentToolId + 1 - d.streamedArgsForTool.length).toNat
          return ({ d with
              streamedArgsForTool := d.streamedArgsForTool ++ List.replicate missing []
              currentToolNameSent := true },
            { calls := [⟨d.currentToolId, some sent, []⟩] })
      else
        return (d, {})
    else
      return (d, {})

/-- The arguments of the current call as they were loaded last. -/
def previousArguments : Except Exn (Option Json) := do
  if d.currentToolId < d.prevToolCallArr.length then
    (d.prevToolCallArr.getD (← position d.prevToolCallArr.length d.currentToolId)
      .null).get "arguments".toList
  else
    return none

/-- What of the arguments is new. -/
def argumentDiff (complete : Bool) (d : DetectorState) (arguments : Json) :
    Except Exn (Option Text) := do
  let sent := (d.streamedArgsForTool.getD (← position d.streamedArgsForTool.length
    d.currentToolId) []).length
  let curArgsJson ← J.dumps arguments
  let prevArguments ← previousArguments d
  if complete then
    return some (curArgsJson.drop sent)
  else
    match prevArguments with
    | none => return none
    | some prev =>
      if prev.truthy then
        let prevArgsJson ← J.dumps prev
        if curArgsJson ≠ prevArgsJson then
          return some ((findCommonPrefix prevArgsJson curArgsJson).drop sent)
        else return none
      else return none

def rememberCall (call : Json) : List Json :=
  if 0 ≤ d.currentToolId then
    let arr := d.prevToolCallArr ++
      List.replicate (d.currentToolId + 1 - d.prevToolCallArr.length).toNat (.object [])
    arr.set d.currentToolId.toNat call
  else d.prevToolCallArr

/-- The fragment is added to the record of the call it was emitted for. -/
def recordFragment (streamed : List Text) (i : ℤ) (fragment : Text) : List Text :=
  match position streamed.length i with
  | .ok k => streamed.set k (streamed.getD k [] ++ fragment)
  | .error _ => streamed

/-- Case 2: the name has been sent and the arguments follow. -/
def streamArguments (complete : Bool) (rest : Text) (d : DetectorState) (call : Json) :
    Except Exn (DetectorState × StreamingParseResult) := do
  match ← call.get "arguments".toList with
  | none => return (d, {})
  | some .null => return (d, {})
  | some arguments =>
    let diff ← argumentDiff J complete d arguments
    let d' : DetectorState := { d with
      buffer := if complete then rest else d.buffer
      prevToolCallArr := rememberCall d call
      currentToolNameSent := !complete
      currentToolId := if complete then d.currentToolId + 1 else d.currentToolId }
    match diff with
    | none => return (d', {})
    | some fragment =>
      return ({ d' with
          streamedArgsForTool := recordFragment d.streamedArgsForTool d.currentToolId fragment },
        { calls := [⟨d.currentToolId, none, fragment⟩] })

def resetState : DetectorState :=
  { d with
    buffer := []
    currentToolId := -1
    currentToolNameSent := false
    streamedArgsForTool := d.streamedArgsForTool.dropLast }

/-- What is done with the object that was loaded. -/
def handleObject (indices : List Text) (d : DetectorState) (obj : Json) (start stop : ℕ) :
    Except Exn (DetectorState × StreamingParseResult) := do
  let complete := J.isCompleteJson ((d.buffer.drop start).take stop)
  if ← namesUnknownTool indices obj then
    return (resetState d, {})
  else
    let call ← unifyArguments obj
    if call.truthy then
      if d.currentToolNameSent then
        streamArguments J complete (d.buffer.drop (start + stop)) d call
      else
        sendName indices d call
    else
      return (d, {})

def seesToolCall (text : Text) : Bool :=
  D.hasToolCall text || D.startsWithSeparator d text

/-- The state in which the object is read: the chunk is in the buffer and the tool names are
known. -/
def prepare (tools : List Text) (d : DetectorState) (text : Text) : DetectorState :=
  { d with buffer := text, toolIndices := some (d.toolIndices.getD (getToolIndices tools)) }

def parseStreamingIncrement (newText : Text) (tools : List Text) :
    DetectorState × StreamingParseResult :=
  let text := d.buffer ++ newText
  if D.seesToolCall d text then
    let d' := prepare tools d text
    let outcome : Except Exn (DetectorState × StreamingParseResult) := do
      match ← D.loadObject J d text with
      | none => return (d', {})
      | some (obj, start, stop) => handleObject J (d'.toolIndices.getD []) d' obj start stop
    -- every exception is swallowed
    match outcome with
    | .ok r => r
    | .error _ => (d', {})
  else if endsWithPartialToken text D.botToken = 0 then
    ({ d with buffer := [] }, { normalText := deleteAll D.eotToken text.length text })
  else
    ({ d with buffer := text }, {})

end BaseFormatDetector

end Sglang.FunctionCall
