import Sglang.Support.Chunks

/-!
# Reasoning detectors: the base format

`BaseReasoningFormatDetector` separates the reasoning of a model's answer from
the answer proper, either on the whole text (`detectAndParse`) or while the text
arrives (`parseStreamingIncrement`). A text is a list over an arbitrary
alphabet; the markers are part of the detector.
-/

namespace Sglang.Parser

open Sglang.Support

variable {α : Type*}

structure StreamingParseResult (α : Type*) where
  normalText : List α := []
  reasoningText : List α := []
deriving DecidableEq

namespace StreamingParseResult

variable (rs : List (StreamingParseResult α))

/-- The texts of several results, each concatenated in order. -/
def concat : StreamingParseResult α :=
  { normalText := rs.flatMap normalText, reasoningText := rs.flatMap reasoningText }

instance : Append (StreamingParseResult α) where
  append r r' :=
    { normalText := r.normalText ++ r'.normalText
      reasoningText := r.reasoningText ++ r'.reasoningText }

@[simp] theorem normalText_append (r r' : StreamingParseResult α) :
    (r ++ r').normalText = r.normalText ++ r'.normalText := rfl

@[simp] theorem reasoningText_append (r r' : StreamingParseResult α) :
    (r ++ r').reasoningText = r.reasoningText ++ r'.reasoningText := rfl

theorem mk_append_mk (n n' r r' : List α) :
    StreamingParseResult.mk n r ++ StreamingParseResult.mk n' r' = ⟨n ++ n', r ++ r'⟩ := rfl

theorem append_assoc (r₁ r₂ r₃ : StreamingParseResult α) : r₁ ++ r₂ ++ r₃ = r₁ ++ (r₂ ++ r₃) := by
  change StreamingParseResult.mk _ _ = StreamingParseResult.mk _ _
  simp

variable (r : StreamingParseResult α)

@[simp] theorem empty_append : {} ++ r = r := rfl

@[simp] theorem append_empty : r ++ {} = r := by
  change StreamingParseResult.mk _ _ = _
  simp

theorem concat_cons : concat (r :: rs) = r ++ concat rs := rfl

theorem concat_concat (r : StreamingParseResult α) : concat (rs ++ [r]) = concat rs ++ r := by
  change StreamingParseResult.mk _ _ = StreamingParseResult.mk _ _
  simp [concat]

@[simp] theorem concat_nil : concat ([] : List (StreamingParseResult α)) = {} := rfl

end StreamingParseResult

structure BaseReasoningFormatDetector (α : Type*) where
  thinkStartToken : List α
  thinkEndToken : List α
  toolStartToken : Option (List α) := none
  thinkStartSelfLabel : List α := []
  forceReasoning : Bool := false
  streamReasoning : Bool := true
  continueFinalMessage : Bool := false
  previousContent : List α := []

structure ReasoningState (α : Type*) where
  buffer : List α
  inReasoning : Bool
  strippedThinkStart : Bool
deriving DecidableEq

section Strip

variable [DecidableEq α]

/-- `while text.startswith(m): text = text[len(m):]`, with the text's length as
bound on the rounds. -/
def stripLoop (m : List α) : ℕ → List α → List α
  | 0, t => t
  | n + 1, t => if m.isPrefixOf t then stripLoop m n (t.drop m.length) else t

def stripLeading (m t : List α) : List α := stripLoop m t.length t

/-- `text.replace(m, "", 1)` -/
def removeFirst (m t : List α) : List α :=
  match find m t with
  | some i => t.take i ++ t.drop (i + m.length)
  | none => t

end Strip

namespace BaseReasoningFormatDetector

variable [DecidableEq α] (F : BaseReasoningFormatDetector α)

/-- The constructor keeps the previous content only for a continued message. -/
def priorContent : List α := if F.continueFinalMessage then F.previousContent else []

def thinkStartText : List α := F.thinkStartToken ++ F.thinkStartSelfLabel

def init : ReasoningState α where
  buffer := []
  inReasoning :=
    !contains F.thinkEndToken F.priorContent &&
      (F.forceReasoning || contains F.thinkStartToken F.priorContent)
  strippedThinkStart := false

def detectAndParse (st : ReasoningState α) (text : List α) : StreamingParseResult α :=
  if st.inReasoning || contains F.thinkStartToken text then
    let processed := stripLeading F.thinkStartText text
    match find F.thinkEndToken processed with
    | some i =>
      { normalText := processed.drop (i + F.thinkEndToken.length)
        reasoningText := processed.take i }
    | none =>
      if contains F.thinkEndToken F.priorContent then { normalText := processed }
      else
        match F.toolStartToken.bind (find · processed) with
        | some i => { normalText := processed.drop i, reasoningText := processed.take i }
        | none => { reasoningText := processed }
  else { normalText := text }

/-- `if self.tool_start_token:` skips an empty token as well as a missing one. -/
def activeTool : Option (List α) := F.toolStartToken.filter (· ≠ [])

def tokensToCheck : List (List α) := [F.thinkStartText, F.thinkEndToken] ++ F.activeTool.toList

/-- The buffered text is a proper prefix of a token: keep buffering. -/
def keepsBuffering (text : List α) : Bool :=
  F.tokensToCheck.any fun token => text.isPrefixOf token && token != text

/-- What a call returns once the text is not held and the start is stripped. -/
def route (st : ReasoningState α) (text : List α) :
    ReasoningState α × StreamingParseResult α :=
  if st.inReasoning then
    match find F.thinkEndToken text with
    | some i =>
      ({ st with buffer := [], inReasoning := false },
        { normalText := text.drop (i + F.thinkEndToken.length), reasoningText := text.take i })
    | none =>
      match F.activeTool.bind (find · text) with
      | some i =>
        ({ st with buffer := [], inReasoning := false },
          { normalText := text.drop i, reasoningText := text.take i })
      | none =>
        if F.streamReasoning then ({ st with buffer := [] }, { reasoningText := text })
        else (st, {})
  else ({ st with buffer := [] }, { normalText := text })

def parseStreamingIncrement (st : ReasoningState α) (newText : List α) :
    ReasoningState α × StreamingParseResult α :=
  let currentText := st.buffer ++ newText
  let st := { st with buffer := currentText }
  if F.keepsBuffering currentText then (st, {})
  else if !st.strippedThinkStart && contains F.thinkStartText currentText then
    F.route { st with strippedThinkStart := true, inReasoning := true }
      (removeFirst F.thinkStartText currentText)
  else F.route st currentText

end BaseReasoningFormatDetector

/-- The Qwen3 markers: an opening `<tool_call>` closes the reasoning too. -/
def qwen3Detector (forceReasoning streamReasoning : Bool) :
    BaseReasoningFormatDetector Char where
  thinkStartToken := "<think>".toList
  thinkEndToken := "</think>".toList
  toolStartToken := some "<tool_call>".toList
  forceReasoning := forceReasoning
  streamReasoning := streamReasoning

end Sglang.Parser
