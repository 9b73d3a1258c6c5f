import Sglang.Parser.Reasoning
import Sglang.Support.Hold

/-!
# The Apertus 2509 detector

Reasoning sections are delimited by `<|inner_prefix|>` and `<|inner_suffix|>`,
may occur several times, and may hold tool blocks
`<|tools_prefix|>[ ... <|tools_suffix|>` that belong to the normal text. The
one-shot side cuts the text into blocks by searching for the markers; the
streaming side is a loop over three states with a held-back end of the buffer.
-/

namespace Sglang.Parser

open Sglang.Support

structure Apertus2509Detector where
  streamReasoning : Bool := true
  continueFinalMessage : Bool := false
  previousContent : List Char := []

inductive BlockKind
  | reasoning
  | text
deriving DecidableEq

abbrev Block := BlockKind × List Char

structure ApertusState where
  buffer : List Char
  inReasoning : Bool
  reasoningAcc : List Char
  inInnerTool : Bool
deriving DecidableEq

/-- The length of the shortest end of `buffer` that begins `token` properly. -/
def endsWithPartialToken (buffer token : List Char) : ℕ :=
  ((List.range' 1 (min (buffer.length + 1) token.length - 1)).find?
    fun i => (buffer.drop (buffer.length - i)).isPrefixOf token).getD 0

namespace Apertus2509Detector

def startTok : List Char := "<|inner_prefix|>".toList
def endTok : List Char := "<|inner_suffix|>".toList
def toolStart : List Char := "<|tools_prefix|>[".toList
def toolEnd : List Char := "<|tools_suffix|>".toList

variable (D : Apertus2509Detector)

def base : BaseReasoningFormatDetector Char where
  thinkStartToken := startTok
  thinkEndToken := endTok
  streamReasoning := D.streamReasoning
  continueFinalMessage := D.continueFinalMessage
  previousContent := D.previousContent

def init : ApertusState where
  buffer := []
  inReasoning := D.base.init.inReasoning
  reasoningAcc := []
  inInnerTool := false

/-- `_split_inner_reasoning`: the thoughts and the tool blocks of one section.
Every round but the last consumes a tool block, so the text's length bounds the
rounds. -/
def splitInnerLoop : ℕ → List Char → List Block
  | 0, _ => []
  | fuel + 1, rest =>
    match find toolStart rest with
    | none => if rest ≠ [] then [(.reasoning, rest)] else []
    | some s =>
      (if s > 0 then [(.reasoning, rest.take s)] else []) ++
        match find toolEnd (rest.drop s) with
        | none => [(.text, rest.drop s)]
        | some e =>
          (.text, (rest.drop s).take (e + toolEnd.length)) ::
            splitInnerLoop fuel ((rest.drop s).drop (e + toolEnd.length))

def splitInnerReasoning (innerText : List Char) : List Block :=
  splitInnerLoop (innerText.length + 1) innerText

/-- The loop of `detect_and_parse_block_sequence` on the text from the cursor. -/
def blockLoop : ℕ → List Char → List Block
  | 0, _ => []
  | fuel + 1, rest =>
    match find startTok rest with
    | none => [(.text, rest)]
    | some s =>
      (if s > 0 then [(.text, rest.take s)] else []) ++
        let inner := rest.drop (s + startTok.length)
        match find endTok inner with
        | none => splitInnerReasoning inner ++ [(.text, [])]
        | some e =>
          splitInnerReasoning (inner.take e) ++ blockLoop fuel (inner.drop (e + endTok.length))

/-- Empty text blocks go, except for the last block. -/
def dropEmptyText (blocks : List Block) : List Block :=
  blocks.zipIdx.filterMap fun (b, i) =>
    if b.1 = .text ∧ b.2 = [] ∧ i ≠ blocks.length - 1 then none else some b

variable (st : ApertusState)

def detectAndParseBlockSequence (text : List Char) : List Block :=
  if st.inReasoning then
    match find endTok text with
    | none => splitInnerReasoning text ++ [(.text, [])]
    | some e =>
      dropEmptyText (splitInnerReasoning (text.take e) ++
        blockLoop (text.length + 1) (text.drop (e + endTok.length)))
  else dropEmptyText (blockLoop (text.length + 1) text)

/-- One round of the loop of `parse_streaming_increment`: whether the loop goes
on, the state after the round, and what the round emits. -/
structure Round where
  again : Bool
  state : ApertusState
  emitted : StreamingParseResult Char

/-- Cut the buffer before its last `hold` letters: the part to pass on, and the
state that keeps the rest. -/
def cutBuffer (hold : ℕ) : List Char × ApertusState :=
  (st.buffer.take (st.buffer.length - hold),
    { st with buffer := st.buffer.drop (st.buffer.length - hold) })

def outsideRound : Round :=
  match find startTok st.buffer with
  | none =>
    let cut := cutBuffer st (endsWithPartialToken st.buffer startTok)
    ⟨false, cut.2, { normalText := cut.1 }⟩
  | some s =>
    ⟨true,
      { buffer := st.buffer.drop (s + startTok.length)
        inReasoning := true
        reasoningAcc := []
        inInnerTool := false },
      { normalText := st.buffer.take s }⟩

def toolRound : Round :=
  match find toolEnd st.buffer with
  | none =>
    let cut := cutBuffer st (endsWithPartialToken st.buffer toolEnd)
    ⟨false, cut.2, { normalText := cut.1 }⟩
  | some e =>
    ⟨true, { st with buffer := st.buffer.drop (e + toolEnd.length), inInnerTool := false },
      { normalText := st.buffer.take (e + toolEnd.length) }⟩

/-- Neither marker is in the buffer. -/
def thinkHold : Round :=
  if D.streamReasoning then
    let cut := cutBuffer st (max (endsWithPartialToken st.buffer endTok)
      (endsWithPartialToken st.buffer toolStart))
    ⟨false, cut.2, { reasoningText := cut.1 }⟩
  else ⟨false, st, {}⟩

/-- The end marker comes first, at `e`. -/
def thinkEnd (e : ℕ) : Round :=
  let rest := { st with buffer := st.buffer.drop (e + endTok.length), inReasoning := false }
  if D.streamReasoning then ⟨true, rest, { reasoningText := st.buffer.take e }⟩
  else
    ⟨true, { rest with reasoningAcc := [] },
      { reasoningText := st.reasoningAcc ++ st.buffer.take e }⟩

/-- The tool marker comes first, at `s`. -/
def thinkTool (s : ℕ) : Round :=
  let rest := { st with buffer := st.buffer.drop s, inInnerTool := true }
  if D.streamReasoning then ⟨true, rest, { reasoningText := st.buffer.take s }⟩
  else ⟨true, { rest with reasoningAcc := st.reasoningAcc ++ st.buffer.take s }, {}⟩

def thinkRound : Round :=
  match find toolStart st.buffer, find endTok st.buffer with
  | none, none => D.thinkHold st
  | none, some e => D.thinkEnd st e
  | some s, none => D.thinkTool st s
  | some s, some e => if e = min s e then D.thinkEnd st e else D.thinkTool st s

def round : Round :=
  if !st.inReasoning then outsideRound st
  else if st.inInnerTool then toolRound st
  else D.thinkRound st

/-- The loop; `fuel` bounds its rounds. -/
def drain : ℕ → ApertusState → ApertusState × StreamingParseResult Char
  | 0, st => (st, {})
  | fuel + 1, st =>
    let r := D.round st
    if r.again then
      let rest := drain fuel r.state
      (rest.1, r.emitted ++ rest.2)
    else (r.state, r.emitted)

/-- A round consumes a marker, except for the one that enters a tool block, which
the next round leaves; so there are at most two rounds a letter. -/
def parseStreamingIncrement (newText : List Char) : ApertusState × StreamingParseResult Char :=
  let buffer := st.buffer ++ newText
  D.drain (2 * buffer.length + 2) { st with buffer := buffer }

end Apertus2509Detector

end Sglang.Parser
