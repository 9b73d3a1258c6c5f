import Sglang.Parser.Reasoning
import Sglang.Support.Hold

/-!
# The Cohere Command4 detector

The model emits its reasoning, then either a text block or an action block:
`<|END_THINKING|>` closes the reasoning, and so does the start of a block. The
streaming side is a machine over flags that keeps a fixed number of letters of
its buffer back, and has no call that flushes it.
-/

namespace Sglang.Parser

open Sglang.Support

structure CohereCommand4Detector where
  streamReasoning : Bool := true

structure CohereState where
  buffer : List Char := []
  reasoningDone : Bool := false
  sawTextStart : Bool := false
  sawTextEnd : Bool := false
  inActionMode : Bool := false
deriving DecidableEq

namespace CohereCommand4Detector

def thinkStartToken : List Char := "<|START_THINKING|>".toList
def textEndToken : List Char := "<|END_TEXT|>".toList

/-- The markers that end the reasoning. -/
inductive Kind
  | thinkEnd
  | text
  | action
deriving DecidableEq

def Kind.token : Kind → List Char
  | .thinkEnd => "<|END_THINKING|>".toList
  | .text => "<|START_TEXT|>".toList
  | .action => "<|START_ACTION|>".toList

def stripTextMarkers (raw : List Char) : List Char :=
  if raw = [] then []
  else
    match find Kind.text.token raw with
    | none => if contains Kind.action.token raw then raw else []
    | some s =>
      let tail := raw.drop (s + Kind.text.token.length)
      match find textEndToken tail with
      | none => tail
      | some e => tail.take e

/-- The reasoning and the rest of the text, markers that open a block included. -/
def splitReasoning (text : List Char) : List Char × List Char :=
  match find Kind.thinkEnd.token text with
  | some i => (text.take i, text.drop (i + Kind.thinkEnd.token.length))
  | none =>
    match find Kind.text.token text with
    | some i => (text.take i, text.drop i)
    | none =>
      match find Kind.action.token text with
      | some i => (text.take i, text.drop i)
      | none => (text, [])

def detectAndParse (text : List Char) : StreamingParseResult Char where
  normalText := stripTextMarkers (splitReasoning text).2
  reasoningText :=
    let reasoning := (splitReasoning text).1
    if thinkStartToken.isPrefixOf reasoning then reasoning.drop thinkStartToken.length
    else reasoning

def keepFirst (buf : List Char) (best : Option (ℕ × Kind)) (kind : Kind) : Option (ℕ × Kind) :=
  match find kind.token buf with
  | none => best
  | some p =>
    match best with
    | none => some (p, kind)
    | some (q, k) => if p < q then some (p, kind) else some (q, k)

/-- The marker of the buffer that comes first. -/
def firstMarker (buf : List Char) : Option (ℕ × Kind) :=
  [Kind.thinkEnd, .text, .action].foldl (keepFirst buf) none

/-- Pass on the buffer up to its last `keep` letters. -/
def cutTail (st : CohereState) (keep : ℕ) : CohereState × List Char :=
  if st.buffer.length > keep then
    ({ st with buffer := st.buffer.drop (st.buffer.length - keep) },
      st.buffer.take (st.buffer.length - keep))
  else (st, [])

/-- The text block, after its start marker was dropped. -/
def parseText (st : CohereState) : CohereState × StreamingParseResult Char :=
  if st.sawTextStart && !st.sawTextEnd then
    match find textEndToken st.buffer with
    | none =>
      let cut := cutTail st (textEndToken.length - 1)
      (cut.1, { normalText := cut.2 })
    | some e =>
      ({ st with buffer := st.buffer.drop (e + textEndToken.length), sawTextEnd := true },
        { normalText := st.buffer.take e })
  else (st, {})

def startText (st : CohereState) (p : ℕ) : CohereState × StreamingParseResult Char :=
  parseText { st with buffer := st.buffer.drop (p + Kind.text.token.length), sawTextStart := true }

def startAction (st : CohereState) (p : ℕ) : CohereState × StreamingParseResult Char :=
  ({ st with buffer := [], inActionMode := true }, { normalText := st.buffer.drop p })

/-- What a call does once the reasoning is closed. -/
def afterReasoning (st : CohereState) : CohereState × StreamingParseResult Char :=
  if st.inActionMode then
    if st.buffer = [] then (st, {}) else ({ st with buffer := [] }, { normalText := st.buffer })
  else if !st.sawTextStart then
    match find Kind.text.token st.buffer, find Kind.action.token st.buffer with
    | none, none => ((cutTail st (max Kind.text.token.length Kind.action.token.length - 1)).1, {})
    | some p, none => startText st p
    | none, some p => startAction st p
    | some p, some q => if q ≤ p then startAction st q else startText st p
  else parseText st

def parseStreamingIncrement (D : CohereCommand4Detector) (st : CohereState)
    (newText : List Char) : CohereState × StreamingParseResult Char :=
  let buf := st.buffer ++ newText
  let st := { st with buffer := buf }
  if !st.reasoningDone then
    match firstMarker buf with
    | none =>
      if !D.streamReasoning then (st, {})
      else
        let maxKeep := max (max Kind.thinkEnd.token.length Kind.text.token.length)
          Kind.action.token.length - 1
        let cut := cutTail st maxKeep
        (cut.1, { reasoningText := cut.2 })
    | some (p, kind) =>
      let rest := if kind = .thinkEnd then buf.drop (p + kind.token.length) else buf.drop p
      let st := { st with buffer := rest, reasoningDone := true }
      if buf.take p ≠ [] then (st, { reasoningText := buf.take p }) else afterReasoning st
  else afterReasoning st

end CohereCommand4Detector

end Sglang.Parser
