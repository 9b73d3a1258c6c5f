import Sglang.FunctionCall.BaseFormat
import Sglang.Support.Cursor

/-!
# The Qwen3-Coder detector

Calls are written as nested tags, `<tool_call>` around `<function=name>` around
`<parameter=name>value</parameter>`. The one-shot side takes the text apart with
three regular expressions; the streaming side moves a cursor over the buffer and
assembles the JSON text of the arguments by hand.
-/

namespace Sglang.FunctionCall

open Sglang.Support

structure Tool where
  type : Text
  name : Text
  parameters : Json

/-- The given functions: conversion of a parameter value, and the serialiser with and without
`ensure_ascii`. -/
structure Serializer (V : Type*) where
  convertParamValue : Text → Text → Json → Option Text → V
  dumpsKey : Text → Text
  dumps : V → Text
  dumpsDict : List (Text × V) → Text

/-- What the streaming side remembers beside its buffer. -/
structure Qwen3CoderState where
  currentToolId : ℤ := -1
  currentToolNameSent : Bool := false
  currentToolParamCount : ℕ := 0
  jsonStarted : Bool := false
  isInsideToolCall : Bool := false
  currentFuncName : Option Text := none
deriving DecidableEq

/-- One letter of normal text, or one item. -/
abbrev Piece := Char ⊕ ToolCallItem

structure Qwen3CoderDetector (V : Type*) where
  tools : List Tool
  given : Serializer V

namespace Qwen3CoderDetector

def toolCallStartToken : Text := "<tool_call>".toList
def toolCallEndToken : Text := "</tool_call>".toList
def toolCallPrefix : Text := "<function=".toList
def functionEndToken : Text := "</function>".toList
def parameterPrefix : Text := "<parameter=".toList
def parameterEndToken : Text := "</parameter>".toList

def possibleTags : List Text :=
  [toolCallStartToken, toolCallEndToken, toolCallPrefix, functionEndToken, parameterPrefix,
    parameterEndToken]

variable {V : Type*} (D : Qwen3CoderDetector V)

def getArgumentsConfig (funcName : Option Text) : Json :=
  match D.tools.find? fun tool => tool.type = "function".toList ∧ some tool.name = funcName with
  | none => .object []
  | some tool =>
    match tool.parameters with
    | .object entries => (entries.lookup "properties".toList).getD (.object entries)
    | _ => .object []

/-- One newline is removed on either side of a value. -/
def trimNewlines (value : Text) : Text :=
  let value := if value.head? = some '\n' then value.tail else value
  if value.getLast? = some '\n' then value.dropLast else value

def convert (funcName : Option Text) (name value : Text) : V :=
  D.given.convertParamValue (trimNewlines value) name (D.getArgumentsConfig funcName) funcName

/-! ## One-shot parsing -/

/-- All matches of `start(.*?)stop`, with what an unclosed one gives; `fuel` bounds their
number. -/
def delimited (start stop : Text) (unclosed : Text → List Text) : ℕ → Text → List Text
  | 0, _ => []
  | fuel + 1, text =>
    match find start text with
    | none => []
    | some i =>
      let body := text.drop (i + start.length)
      match find stop body with
      | none => unclosed body
      | some j => body.take j :: delimited start stop unclosed fuel (body.drop (j + stop.length))

/-- `<tool_call>(.*?)</tool_call>`. -/
def toolCallRegex : ℕ → Text → List Text :=
  delimited toolCallStartToken toolCallEndToken fun _ => []

/-- `<function=(.*?)</function>|<function=(.*)$`. -/
def functionRegex : ℕ → Text → List Text :=
  delimited toolCallPrefix functionEndToken fun body => [body]

/-- The earlier of two matches. -/
def earlier : Option (ℕ × ℕ) → Option (ℕ × ℕ) → Option (ℕ × ℕ)
  | some a, some b => if a.1 ≤ b.1 then some a else some b
  | some a, none => some a
  | none, b => b

/-- Where a parameter value ends in `rest`, and how much of what follows belongs to it. -/
def valueEnd (rest : Text) : Option (ℕ × ℕ) :=
  earlier
    (earlier ((find parameterEndToken rest).map (·, parameterEndToken.length))
      ((find parameterPrefix rest).map (·, 0)))
    ((find functionEndToken rest).map (·, 0))

/-- `$` matches at the end and before a newline that ends the text. -/
def dollar (rest : Text) : ℕ := if rest.getLast? = some '\n' then rest.length - 1 else rest.length

/-- `<parameter=(.*?)(?:</parameter>|(?=<parameter=)|(?=</function>)|$)`. -/
def parameterRegex : ℕ → Text → List Text
  | 0, _ => []
  | fuel + 1, text =>
    match find parameterPrefix text with
    | none => []
    | some i =>
      let body := text.drop (i + parameterPrefix.length)
      let stop := (earlier (valueEnd body) (some (dollar body, 0))).getD (0, 0)
      body.take stop.1 :: parameterRegex fuel (body.drop (stop.1 + stop.2))

/-- `d[key] = value` on a dictionary in insertion order. -/
def assign (d : List (Text × V)) (entry : Text × V) : List (Text × V) :=
  if d.any fun e => e.1 = entry.1 then d.map fun e => if e.1 = entry.1 then entry else e
  else d ++ [entry]

/-- The part of a match up to the first `>`, and the part behind it. -/
def splitName (body : Text) : Option (Text × Text) :=
  (find ['>'] body).map fun i => (body.take i, body.drop (i + 1))

def parameterEntry (funcName : Text) (body : Text) : Option (Text × V) :=
  (splitName body).map fun p => (p.1, D.convert (some funcName) p.1 p.2)

/-- The function call a match stands for, unless it has no name. -/
def functionCall (body : Text) : Option (Text × List (Text × V)) :=
  (splitName body).map fun p =>
    (p.1, ((parameterRegex p.2.length p.2).filterMap (D.parameterEntry p.1)).foldl assign [])

def rawToolCalls (text : Text) : List Text :=
  match toolCallRegex text.length text with
  | [] => if contains toolCallPrefix text then [text] else []
  | raw => raw

def detectAndParse (text : Text) : StreamingParseResult :=
  match find toolCallStartToken text with
  | none => { normalText := text }
  | some start =>
    let functions := (rawToolCalls text).flatMap fun body =>
      (functionRegex body.length body).filterMap D.functionCall
    { normalText := text.take start
      calls := functions.zipIdx.map fun f => ⟨f.2, some f.1.1, D.given.dumpsDict f.1.2⟩ }

/-! ## Streaming -/

variable (st : Qwen3CoderState)

def plain (text : Text) : List Piece :=
  if st.isInsideToolCall then [] else text.map .inl

def fragment (parameters : Text) : Piece :=
  .inr ⟨st.currentToolId, none, parameters⟩

/-- The opening brace, if it has not been sent. -/
def openBrace : List Piece :=
  if st.jsonStarted then [] else [fragment st ['{']]

def startFunction (name : Text) : Qwen3CoderState :=
  { st with
    currentToolId := st.currentToolId + 1
    currentToolNameSent := true
    currentToolParamCount := 0
    jsonStarted := false
    currentFuncName := some name }

def member (name value : Text) : Text :=
  (if 0 < st.currentToolParamCount then ", ".toList else []) ++
    (D.given.dumpsKey name ++ ": ".toList ++
      D.given.dumps (D.convert st.currentFuncName name value))

/-- One turn of the loop: how far the cursor moves, the new state and the output, or `none`
where the loop waits for more text. -/
def turn (slice : Text) : Option (ℕ × Qwen3CoderState × List Piece) :=
  if slice = [] then none
  else if toolCallStartToken.isPrefixOf slice then
    some (toolCallStartToken.length, { st with isInsideToolCall := true }, [])
  else if toolCallPrefix.isPrefixOf slice then
    match find ['>'] slice with
    | none => none
    | some stop =>
      let name := (slice.take stop).drop toolCallPrefix.length
      let st' := startFunction st name
      some (stop + 1, st', [.inr ⟨st'.currentToolId, some name, []⟩])
  else if parameterPrefix.isPrefixOf slice then
    match find ['>'] slice with
    | none => none
    | some nameEnd =>
      let rest := slice.drop (nameEnd + 1)
      match valueEnd rest with
      | none => none
      | some (stop, tagLength) =>
        let name := (slice.take nameEnd).drop parameterPrefix.length
        some (nameEnd + 1 + stop + tagLength,
          { st with
            jsonStarted := true
            currentToolParamCount := st.currentToolParamCount + 1 },
          openBrace st ++ [fragment st (D.member st name (rest.take stop))])
  else if functionEndToken.isPrefixOf slice then
    some (functionEndToken.length, { st with jsonStarted := true, currentFuncName := none },
      openBrace st ++ [fragment st ['}']])
  else if toolCallEndToken.isPrefixOf slice then
    some (toolCallEndToken.length, { st with isInsideToolCall := false }, [])
  else
    match find ['<'] slice with
    | none => some (slice.length, st, plain st slice)
    | some 0 =>
      -- a tag that is still incomplete, or a stray bracket
      if possibleTags.any fun tag => slice.isPrefixOf tag then none
      else some (1, st, plain st ['<'])
    | some (n + 1) => some (n + 1, st, plain st (slice.take (n + 1)))

end Qwen3CoderDetector

end Sglang.FunctionCall
