import Sglang.FunctionCall.BaseFormat
import Sglang.Support.Chunks
import Mathlib.Data.List.DropRight

/-!
# The GLM-4.5 detector

A call is `<tool_call>name`, a newline, pairs of `<arg_key>` and `<arg_value>`
elements, and `</tool_call>`. The streaming side finds the call in its buffer
with one regular expression and hands what is new of its arguments to a machine
that turns the elements into JSON letter by letter.
-/

namespace Sglang.FunctionCall

open Sglang.Support

/-- The encoding of a text by `json.dumps`: every letter on its own, between quotes. The code of
no letter begins another code, and none begins with a quote. -/
structure JsonEncoding where
  escape : Char → Text
  eq_of_starts : ∀ {c d}, escape c <+: escape d → c = d
  head_ne : ∀ c, (escape c).head? ≠ some '"'

namespace JsonEncoding

variable (J : JsonEncoding)

/-- The text without its quotes, `json.dumps(s)[1:-1]`. -/
def inner (s : Text) : Text := s.flatMap J.escape

def dumps (s : Text) : Text := '"' :: (J.inner s ++ ['"'])

end JsonEncoding

/-- The letters `str.strip` removes. -/
def isSpace (c : Char) : Bool :=
  c.toNat ∈ [9, 10, 11, 12, 13, 28, 29, 30, 31, 32, 133, 160, 5760, 8192, 8193, 8194, 8195, 8196,
    8197, 8198, 8199, 8200, 8201, 8202, 8232, 8233, 8239, 8287, 12288]

def lstrip (t : Text) : Text := t.dropWhile isSpace

def strip (t : Text) : Text := (lstrip t).rdropWhile isSpace

inductive StreamState
  | init
  | between
  | inKey
  | waitingValue
  | inValue
deriving DecidableEq

inductive ValueType
  | string
  | number
  | other
deriving DecidableEq

/-- The streaming state of one call. -/
structure XmlState where
  streamState : StreamState := .init
  currentKey : Text := []
  currentValue : Text := []
  xmlTagBuffer : Text := []
  isFirstParam : Bool := true
  valueStarted : Bool := false
  cachedValueType : Option ValueType := none
deriving DecidableEq

structure GlmState where
  buffer : Text := []
  currentToolId : ℤ := -1
  currentToolNameSent : Bool := false
  streamedRawLength : ℕ := 0
  lastArguments : Text := []
  xml : XmlState := {}
deriving DecidableEq

structure Glm4MoeDetector where
  json : JsonEncoding
  /-- The declared type of an argument of a function. -/
  getArgumentType : Text → Text → Option ValueType
  /-- The text of a number that arrived in one piece. -/
  formatNumber : Text → Text

namespace Glm4MoeDetector

def botToken : Text := "<tool_call>".toList
def eotToken : Text := "</tool_call>".toList
def keyStart : Text := "<arg_key>".toList
def keyEnd : Text := "</arg_key>".toList
def valueStart : Text := "<arg_value>".toList
def closingTag : Text := "</arg_value>".toList

variable (D : Glm4MoeDetector)

/-- The type is asked for before any of the value is known, where an undeclared one counts as a
text. -/
def getValueType (funcName key : Text) : ValueType := (D.getArgumentType funcName key).getD .string

def formatValueComplete (value : Text) : ValueType → Text
  | .string => D.json.dumps value
  | .number => D.formatNumber value
  | .other => value

/-! ## The machine -/

/-- `</arg_value>` has been read. -/
def closeValue (x : XmlState) (buffer : Text) : XmlState × Text :=
  let finalValue := buffer.take (buffer.length - closingTag.length)
  let type := x.cachedValueType.getD .string
  let out :=
    if x.valueStarted then
      if type = .string then D.json.inner finalValue ++ ['"'] else finalValue
    else
      D.formatValueComplete (x.currentValue ++ finalValue) type
  ({ x with
      streamState := .between
      currentValue := []
      xmlTagBuffer := []
      valueStarted := false
      cachedValueType := none }, out)

/-- Letters that cannot belong to the closing tag are passed on. -/
def passContent (x : XmlState) (content : Text) : XmlState × Text :=
  let out :=
    if x.cachedValueType.getD .string = .string then
      (if x.valueStarted then [] else ['"']) ++ D.json.inner content
    else content
  ({ x with
      valueStarted := true
      currentValue := x.currentValue ++ content
      xmlTagBuffer := [] }, out)

def xmlStep (funcName : Text) (x : XmlState) (c : Char) : XmlState × Text :=
  let buffer := x.xmlTagBuffer ++ [c]
  match x.streamState with
  | .init | .between =>
    if keyStart <:+ buffer then
      ({ x with
          streamState := .inKey
          currentKey := []
          xmlTagBuffer := []
          isFirstParam := false },
        if x.isFirstParam then ['{'] else ", ".toList)
    else ({ x with xmlTagBuffer := buffer }, [])
  | .inKey =>
    if keyEnd <:+ buffer then
      let key := strip (buffer.take (buffer.length - keyEnd.length))
      ({ x with streamState := .waitingValue, currentKey := key, xmlTagBuffer := [] },
        D.json.dumps key ++ ": ".toList)
    else ({ x with xmlTagBuffer := buffer }, [])
  | .waitingValue =>
    if valueStart <:+ buffer then
      ({ x with
          streamState := .inValue
          currentValue := []
          xmlTagBuffer := []
          valueStarted := false
          cachedValueType := some (D.getValueType funcName x.currentKey) }, [])
    else ({ x with xmlTagBuffer := buffer }, [])
  | .inValue =>
    if closingTag <:+ buffer then D.closeValue x buffer
    else if buffer <+: closingTag then ({ x with xmlTagBuffer := buffer }, [])
    else D.passContent x buffer

/-- The machine over a text: the state it reaches and the JSON it has put out. -/
def processXmlToJsonStreaming (funcName : Text) : XmlState → Text → XmlState × Text
  | x, [] => (x, [])
  | x, c :: t =>
    let r := D.xmlStep funcName x c
    let r' := processXmlToJsonStreaming funcName r.1 t
    (r'.1, r.2 ++ r'.2)

/-! ## Finding the call -/

/-- The first newline or literal `\n`, and its length. -/
def lineEnd : Text → Option (ℕ × ℕ)
  | [] => none
  | '\n' :: _ => some (0, 1)
  | '\\' :: 'n' :: _ => some (0, 2)
  | _ :: t => (lineEnd t).map fun r => (r.1 + 1, r.2)

/-- What `<tool_call>(.*?)(?:\\n|\n)(.*?)(</tool_call>|$)` finds: the name, the arguments, and
what follows a closing tag. -/
structure PartialMatch where
  name : Text
  args : Text
  rest : Option Text

def partialMatch (text : Text) : Option PartialMatch :=
  (find botToken text).bind fun i =>
    let line := text.drop (i + botToken.length)
    (lineEnd line).map fun e =>
      let body := line.drop (e.1 + e.2)
      match find eotToken body with
      | some j => ⟨line.take e.1, body.take j, some (body.drop (j + eotToken.length))⟩
      -- `$` also matches before a newline at the end
      | none => ⟨line.take e.1, if body.getLast? = some '\n' then body.dropLast else body, none⟩

/-- Some end of the text begins the opening tag. -/
def isPotentialStart (text : Text) : Bool :=
  text.tails.any fun t => !t.isEmpty && t.isPrefixOf botToken

/-! ## Streaming -/

def item (i : ℤ) (parameters : Text) : ToolCallItem := ⟨i, none, parameters⟩

/-- What is new of the arguments goes through the machine. -/
def streamArgs (s : GlmState) (funcName args : Text) : GlmState × List ToolCallItem :=
  if s.streamedRawLength < args.length then
    let r := D.processXmlToJsonStreaming funcName s.xml (args.drop s.streamedRawLength)
    ({ s with
        xml := r.1
        streamedRawLength := args.length
        lastArguments := s.lastArguments ++ r.2 },
      if r.2 = [] then [] else [item s.currentToolId r.2])
  else (s, [])

/-- The end of the JSON text, after the last argument. -/
def closing (s : GlmState) : Text :=
  if s.xml.isFirstParam then "\x7b\x7d".toList
  else if s.lastArguments.getLast? = some '}' then [] else ['}']

def finishCall (s : GlmState) (rest : Text) : GlmState × List ToolCallItem :=
  ({ s with
      buffer := rest
      currentToolId := s.currentToolId + 1
      lastArguments := []
      currentToolNameSent := false
      streamedRawLength := 0
      xml := {} },
    if closing s = [] then [] else [item s.currentToolId (closing s)])

def handleMatch (s : GlmState) (m : PartialMatch) : GlmState × List ToolCallItem :=
  let s := if s.currentToolId = -1 then
    { s with currentToolId := 0, streamedRawLength := 0, currentToolNameSent := false, xml := {} }
    else s
  if s.currentToolNameSent then
    let r := D.streamArgs s (strip m.name) (strip m.args)
    match m.rest with
    | some rest =>
      let r' := finishCall r.1 rest
      (r'.1, r.2 ++ r'.2)
    | none => r
  else
    ({ s with currentToolNameSent := true, streamedRawLength := 0, xml := {} },
      [⟨s.currentToolId, some (strip m.name), []⟩])

def parseStreamingIncrement (s : GlmState) (newText : Text) :
    GlmState × StreamingParseResult :=
  let text := s.buffer ++ newText
  let s := { s with buffer := text }
  if contains botToken text then
    match partialMatch text with
    | none => (s, {})
    | some m =>
      if strip m.name = [] then (s, {})
      else
        let r := D.handleMatch s m
        (r.1, { calls := r.2 })
  else if isPotentialStart text then (s, {})
  else ({ s with buffer := [] }, { normalText := deleteAll eotToken text.length text })

end Glm4MoeDetector

end Sglang.FunctionCall
