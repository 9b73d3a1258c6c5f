import Sglang.Parser.Cohere
import Sglang.Support.Chunks

/-!
# The Cohere stream against the one-shot split

A text of the documented shape is a lead of thoughts, closed by
`<|END_THINKING|>` or by the block itself, and a block. `afterState` describes
the machine after the part `y` of the block has been read and looked at. The
call that closes the reasoning returns early when thoughts were still held back,
and leaves the block it has read unlooked at until the next call.
-/

namespace Sglang.Parser

open Sglang.Support List

namespace CohereCommand4Detector

/-- The block that follows the reasoning. -/
inductive Tail
  | answer (text : List Char) (ended : Bool)
  | action (body : List Char)
deriving DecidableEq

namespace Tail

def kind : Tail → Kind
  | .answer _ _ => .text
  | .action _ => .action

/-- The block behind its start marker. -/
def body : Tail → List Char
  | .answer a ended => a ++ if ended then textEndToken else []
  | .action b => b

def text (t : Tail) : List Char := t.kind.token ++ t.body

/-- The block's own text holds no marker that would be read there. -/
def Plain : Tail → Prop
  | .answer a _ => ¬ textEndToken <:+: a ∧ ¬ Kind.thinkEnd.token <:+: a
  | .action b => ¬ Kind.text.token <:+: b ∧ ¬ Kind.thinkEnd.token <:+: b

end Tail

/-- A text of the documented shape: optional `<|START_THINKING|>`, thoughts,
optional `<|END_THINKING|>`, block. -/
structure Shape where
  echoed : Bool
  thoughts : List Char
  thinkEnded : Bool
  tail : Tail
deriving DecidableEq

namespace Shape

def lead (S : Shape) : List Char := (if S.echoed then thinkStartToken else []) ++ S.thoughts

/-- The marker that ends the reasoning. -/
def closer (S : Shape) : Kind := if S.thinkEnded then .thinkEnd else S.tail.kind

/-- What is dropped between the lead and the block. -/
def dropped (S : Shape) : List Char := if S.thinkEnded then Kind.thinkEnd.token else []

def text (S : Shape) : List Char := S.lead ++ (S.dropped ++ S.tail.text)

structure WellFormed (S : Shape) : Prop where
  thoughts_free : ∀ k : Kind, ¬ k.token <:+: S.thoughts
  tail_plain : S.tail.Plain

/-- What follows the closing marker. -/
def afterCloser (S : Shape) : List Char := if S.thinkEnded then S.tail.text else S.tail.body

theorem text_eq (S : Shape) : S.text = S.lead ++ (S.closer.token ++ S.afterCloser) := by
  unfold text dropped closer afterCloser
  cases S.thinkEnded <;> simp [Tail.text]

end Shape

theorem Kind.headed (k : Kind) : Headed k.token := by cases k <;> decide

theorem headed_textEndToken : Headed textEndToken := by decide

theorem Kind.head?_token (k k' : Kind) : k.token.head? = k'.token.head? := by
  cases k <;> cases k' <;> decide

theorem Kind.not_starts {k k' : Kind} (h : k ≠ k') : ¬ k.token <+: k'.token := by
  revert h
  cases k <;> cases k' <;> decide

theorem Kind.not_infix_dropLast (k k' : Kind) : ¬ k.token <:+: k'.token.dropLast := by
  cases k <;> cases k' <;> decide

theorem Kind.length_token_le (k : Kind) : 12 < k.token.length ∧ k.token.length ≤ 16 := by
  cases k <;> decide

namespace Shape

variable {S : Shape}

theorem WellFormed.lead_free (h : S.WellFormed) (k : Kind) : ¬ k.token <:+: S.lead := by
  unfold lead
  cases S.echoed with
  | false => exact h.thoughts_free k
  | true =>
    refine not_infix_append ?_ (h.thoughts_free k) fun h1 => ?_
    · cases k <;> decide
    · refine k.headed.not_straddles_after (u := []) ?_ ?_ ?_
        (by simpa using h1)
      all_goals cases k <;> decide

/-- Until the closing marker is complete no marker is. -/
theorem WellFormed.free_of_short (h : S.WellFormed) {u : List Char} (hu : u <+: S.text)
    (hlen : u.length < S.lead.length + S.closer.token.length) (k : Kind) : ¬ k.token <:+: u := by
  have hshort : u <+: S.lead ++ S.closer.token.dropLast := by
    rw [S.text_eq] at hu
    have hwhole : S.lead ++ S.closer.token.dropLast <+:
        S.lead ++ (S.closer.token ++ S.afterCloser) :=
      (prefix_append_right_inj _).mpr ((List.dropLast_prefix _).trans (prefix_append _ _))
    refine prefix_of_prefix_length_le hu hwhole ?_
    rw [length_append, length_dropLast]
    omega
  intro hin
  have hhead : S.closer.token.dropLast.head? = k.token.head? := by
    cases S.closer <;> cases k <;> decide
  exact not_infix_append (h.lead_free k) (Kind.not_infix_dropLast _ _)
    (by simpa using k.headed.not_straddles (v := []) hhead)
    (hin.trans hshort.isInfix)

end Shape

section Search

variable {b : List Char} {p : ℕ} {k : Kind} {x z : List Char}

theorem firstMarker_eq_none (h : ∀ k : Kind, ¬ k.token <:+: b) : firstMarker b = none := by
  simp [firstMarker, keepFirst, find_eq_none_iff.mpr (h _)]

theorem firstMarker_eq_some (hk : find k.token b = some p)
    (hlt : ∀ k', k' ≠ k → ∀ q, find k'.token b = some q → p < q) : firstMarker b = some (p, k) := by
  simp only [firstMarker, foldl_cons, foldl_nil, keepFirst]
  cases k <;> grind

/-- The first marker of a text is found behind what holds none. -/
theorem find_token_append (k : Kind) (hx : ¬ k.token <:+: x) :
    find k.token (x ++ (k.token ++ z)) = some x.length :=
  k.headed.find_append hx z

theorem lt_of_find_other {k' : Kind} {q : ℕ} (hkk : k' ≠ k)
    (hx : ¬ k'.token <:+: x) (hq : find k'.token (x ++ (k.token ++ z)) = some q) :
    x.length < q := by
  rw [find_append_right hx (k'.headed.not_straddles (k.head?_token k')),
    Option.map_eq_some_iff] at hq
  obtain ⟨r, hr, rfl⟩ := hq
  have hne : r ≠ 0 := by
    rintro rfl
    have hpre : k'.token <+: k.token ++ z := prefix_drop_of_find hr
    rcases prefix_append_cases hpre with h | ⟨y, -, hy, -⟩
    · exact Kind.not_starts hkk h
    · exact Kind.not_starts hkk.symm ⟨y, hy.symm⟩
  omega

theorem firstMarker_append (k : Kind) (hx : ∀ k' : Kind, ¬ k'.token <:+: x) :
    firstMarker (x ++ (k.token ++ z)) = some (x.length, k) :=
  firstMarker_eq_some (find_token_append k (hx k)) fun k' hk' _ hq =>
    lt_of_find_other hk' (hx k') hq

end Search

section Block

/-- The text block after the part `z` behind its start marker has been read. -/
def textState (a : List Char) (ended : Bool) (z : List Char) : CohereState :=
  if ended ∧ a.length + textEndToken.length ≤ z.length then
    { buffer := [], reasoningDone := true, sawTextStart := true, sawTextEnd := true }
  else
    { buffer := z.drop (z.length - (textEndToken.length - 1))
      reasoningDone := true
      sawTextStart := true }

/-- The machine after the part `y` of the block has been read and looked at, and
the normal text it has returned. -/
def afterState (t : Tail) (y : List Char) : CohereState × List Char :=
  if y.length < t.kind.token.length then ({ buffer := y, reasoningDone := true }, [])
  else
    match t with
    | .answer a ended =>
      let z := y.drop Kind.text.token.length
      (textState a ended z, a.take (z.length - (textEndToken.length - 1)))
    | .action _ => ({ buffer := [], reasoningDone := true, inActionMode := true }, y)

theorem cutTail_eq (st : CohereState) (k : ℕ) : cutTail st k =
      ({ st with buffer := st.buffer.drop (st.buffer.length - k) },
        st.buffer.take (st.buffer.length - k)) := by
  unfold cutTail
  split
  · rfl
  · have h0 : st.buffer.length - k = 0 := by omega
    rw [h0]
    rfl

/-- Unless the end marker of the answer is complete, its last letter has not been read. -/
theorem prefix_of_incomplete {a z : List Char} {ended : Bool}
    (hz : z <+: (Tail.answer a ended).body)
    (hinc : ¬ (ended ∧ a.length + textEndToken.length ≤ z.length)) :
    z <+: a ++ textEndToken.dropLast := by
  cases ended with
  | false =>
    have hza : z <+: a := by simpa [Tail.body] using hz
    exact hza.trans (prefix_append _ _)
  | true =>
    refine prefix_of_prefix_length_le hz ((prefix_append_right_inj a).mpr (List.dropLast_prefix _))
      ?_
    rw [length_append, length_dropLast]
    simp only [true_and] at hinc
    omega

theorem take_append_drop_take {n m : ℕ} (l : List Char) (h : n ≤ m) :
    l.take n ++ (l.take m).drop n = l.take m := by
  rw [← min_eq_left h, ← take_take, min_eq_left h, take_append_drop]

/-- One look at the text block when `n` letters of it have been returned. -/
theorem parseText_textState {a z : List Char} {ended : Bool} {n : ℕ}
    (ha : ¬ textEndToken <:+: a) (hz : z <+: (Tail.answer a ended).body)
    (hn : n ≤ z.length - (textEndToken.length - 1)) (hna : n ≤ a.length) :
    parseText { buffer := z.drop n, reasoningDone := true, sawTextStart := true } =
      (textState a ended z,
        { normalText := (a.take (z.length - (textEndToken.length - 1))).drop n }) := by
  unfold textState
  by_cases hcomp : ended ∧ a.length + textEndToken.length ≤ z.length
  · obtain ⟨rfl, hlen⟩ := hcomp
    obtain rfl : z = a ++ textEndToken :=
      hz.eq_of_length (Nat.le_antisymm hz.length_le (by simpa [Tail.body] using hlen))
    have hdrop : (a ++ textEndToken).drop n = a.drop n ++ (textEndToken ++ []) := by
      rw [drop_append_of_le_length hna, append_nil]
    have hfree : ¬ textEndToken <:+: a.drop n := fun hin => ha (hin.trans (drop_suffix n a).isInfix)
    have hall : a.take ((a ++ textEndToken).length - (textEndToken.length - 1)) = a :=
      take_of_length_le (by omega)
    unfold parseText
    rw [hdrop, headed_textEndToken.find_append hfree, hall]
    simp
  · rw [if_neg hcomp]
    have hpre := prefix_of_incomplete hz hcomp
    have hlen := hpre.length_le
    rw [length_append, length_dropLast] at hlen
    have hfree : ¬ textEndToken <:+: z :=
      headed_textEndToken.not_infix_of_short ha
        (hpre.trans ((prefix_append_right_inj a).mpr (List.dropLast_prefix _)))
        (by have : textEndToken.length = 12 := by decide
            omega)
    have hnone : find textEndToken (z.drop n) = none :=
      find_eq_none_iff.mpr fun hin => hfree (hin.trans (drop_suffix n z).isInfix)
    have htake : a.take (z.length - (textEndToken.length - 1)) =
        z.take (z.length - (textEndToken.length - 1)) := by
      obtain ⟨v, hv⟩ := hpre
      have hcut : (z ++ v).take (z.length - (textEndToken.length - 1)) =
          z.take (z.length - (textEndToken.length - 1)) :=
        take_append_of_le_length (Nat.sub_le _ _)
      rw [← hcut, hv, take_append_of_le_length (by omega)]
    unfold parseText
    rw [hnone, cutTail_eq, htake, drop_take]
    have hsub : n + (z.length - n - (textEndToken.length - 1)) =
        z.length - (textEndToken.length - 1) := by omega
    have hcut : z.length - (textEndToken.length - 1) - n =
        z.length - n - (textEndToken.length - 1) := by omega
    simp [drop_drop, hsub, hcut]

variable {t : Tail} {y : List Char}

/-- The beginning of a block: less than its start marker, or the marker and more. -/
theorem block_cases (hy : y <+: t.text) :
    (y.length < t.kind.token.length ∧ ∀ k : Kind, ¬ k.token <:+: y) ∨
      ∃ z, z <+: t.body ∧ y = t.kind.token ++ z := by
  by_cases hlen : y.length < t.kind.token.length
  · refine Or.inl ⟨hlen, fun k hin => ?_⟩
    have hshort : y <+: t.kind.token.dropLast := by
      refine prefix_of_prefix_length_le hy ((List.dropLast_prefix _).trans (prefix_append _ _)) ?_
      rw [length_dropLast]
      omega
    exact Kind.not_infix_dropLast _ _ (hin.trans hshort.isInfix)
  · obtain ⟨z, rfl⟩ := prefix_of_prefix_length_le (prefix_append _ _) hy
      (Nat.not_lt.mp hlen)
    exact Or.inr ⟨z, (prefix_append_right_inj _).mp hy, rfl⟩

theorem afterState_of_short (h : y.length < t.kind.token.length) :
    afterState t y = ({ buffer := y, reasoningDone := true }, []) := by
  unfold afterState
  rw [if_pos h]

theorem afterState_answer (a : List Char) (ended : Bool) (z : List Char) :
    afterState (.answer a ended) (Kind.text.token ++ z) =
      (textState a ended z, a.take (z.length - (textEndToken.length - 1))) := by
  rw [afterState, if_neg (by simp [Tail.kind])]
  simp

theorem afterState_action (b z : List Char) : afterState (.action b) (Kind.action.token ++ z) =
      ({ buffer := [], reasoningDone := true, inActionMode := true }, Kind.action.token ++ z) := by
  rw [afterState, if_neg (by simp [Tail.kind])]

/-- The first look at a block. -/
theorem afterReasoning_fresh (ht : t.Plain) (hy : y <+: t.text) :
    afterReasoning { buffer := y, reasoningDone := true } =
      ((afterState t y).1, { normalText := (afterState t y).2 }) := by
  rcases block_cases hy with ⟨hlen, hfree⟩ | ⟨z, hz, rfl⟩
  · have hle := t.kind.length_token_le
    have hkeep : max Kind.text.token.length Kind.action.token.length - 1 = 15 := by decide
    have h0 : y.length - 15 = 0 := by omega
    rw [afterState_of_short hlen]
    simp [afterReasoning, find_eq_none_iff.mpr (hfree _), cutTail_eq, hkeep, h0]
  · cases t with
    | answer a ended =>
      have hfind : find Kind.text.token (Kind.text.token ++ z) = some 0 := by
        simpa using find_token_append (x := []) .text (by decide)
      have hparse := parseText_textState ht.1 hz (Nat.zero_le _) (Nat.zero_le _)
      have hstart : startText { buffer := Kind.text.token ++ z, reasoningDone := true } 0 =
          (textState a ended z,
            { normalText := a.take (z.length - (textEndToken.length - 1)) }) := by
        simpa [startText] using hparse
      rw [Tail.kind, afterState_answer]
      simp only [afterReasoning, hfind, Bool.false_eq_true, if_false, Bool.not_false, if_true]
      cases hq : find Kind.action.token (Kind.text.token ++ z) with
      | none => exact hstart
      | some q =>
        have hkinds : Kind.action ≠ Kind.text := by decide
        have hlt : ([] : List Char).length < q :=
          lt_of_find_other hkinds (by decide) (by simpa using hq)
        have hnot : ¬ q ≤ 0 := Nat.not_le.mpr hlt
        simpa only [if_neg hnot] using hstart
    | action b =>
      have hfind : find Kind.action.token (Kind.action.token ++ z) = some 0 := by
        exact find_token_append (x := []) .action (by decide)
      rw [Tail.kind]
      simp only [afterReasoning, hfind, Bool.false_eq_true, if_false, Bool.not_false, if_true]
      cases find Kind.text.token (Kind.action.token ++ z) with
      | none => rfl
      | some p => exact if_pos (Nat.zero_le p)

/-- Every further look continues where the last one stopped. -/
theorem afterReasoning_step (ht : t.Plain) {c : List Char} (hy : y ++ c <+: t.text) :
    ∃ n, afterReasoning { (afterState t y).1 with buffer := (afterState t y).1.buffer ++ c } =
        ((afterState t (y ++ c)).1, { normalText := n }) ∧
      (afterState t y).2 ++ n = (afterState t (y ++ c)).2 := by
  rcases block_cases ((prefix_append y c).trans hy) with ⟨hlen, -⟩ | ⟨z, hz, rfl⟩
  · rw [afterState_of_short hlen]
    exact ⟨_, afterReasoning_fresh ht hy, rfl⟩
  · have hzc : z ++ c <+: t.body := by
      rw [append_assoc] at hy
      exact (prefix_append_right_inj _).mp hy
    cases t with
    | answer a ended =>
      rw [Tail.kind, append_assoc, afterState_answer, afterState_answer]
      by_cases hcomp : ended ∧ a.length + textEndToken.length ≤ z.length
      · -- The block is complete, so nothing follows it.
        obtain ⟨rfl, hlen⟩ := hcomp
        have hc : c = [] := by
          have := hzc.length_le
          simp only [Tail.body, if_true, length_append] at this
          exact length_eq_zero_iff.mp (by omega)
        subst hc
        simp [textState, hlen, afterReasoning, parseText]
      · set m := z.length - (textEndToken.length - 1) with hm
        have hlen' : m ≤ (z ++ c).length - (textEndToken.length - 1) := by
          rw [length_append]
          omega
        have hna : m ≤ a.length := by
          have := (prefix_of_incomplete hz hcomp).length_le
          rw [length_append, length_dropLast] at this
          omega
        have hbuf : z.drop m ++ c = (z ++ c).drop m :=
          (drop_append_of_le_length (Nat.sub_le _ _)).symm
        refine ⟨_, ?_, take_append_drop_take a hlen'⟩
        simp only [textState, if_neg hcomp, ← hm, hbuf, afterReasoning, Bool.false_eq_true,
          if_false,
          Bool.not_true]
        exact parseText_textState ht.1 hzc hlen' hna
    | action b =>
      rw [Tail.kind, append_assoc, afterState_action, afterState_action]
      cases c <;> simp [afterReasoning]

end Block

section Run

variable (D : CohereCommand4Detector) {S : Shape} {n : ℕ} {u : List Char}

/-- How much of the lead has been returned when `n` letters were read and the
closing marker was not complete. -/
def returned (n : ℕ) : ℕ := if D.streamReasoning then n - 15 else 0

/-- The closing marker is complete only with the last piece, and thoughts were
still held back when it arrived. -/
def Stuck (S : Shape) (cs : List (List Char)) : Prop :=
  cs.dropLast.flatten.length < S.lead.length + S.closer.token.length ∧
    D.returned cs.dropLast.flatten.length < S.lead.length

instance (S : Shape) (cs : List (List Char)) : Decidable (D.Stuck S cs) :=
  inferInstanceAs (Decidable (_ ∧ _))

/-- The machine after the pieces `as`, the beginning of a text of shape `S`, and what it has
returned. -/
def reachedState (S : Shape) (as : List (List Char)) : CohereState × StreamingParseResult Char :=
  let u := as.flatten
  let y := u.drop (S.lead ++ S.dropped).length
  if u.length < S.lead.length + S.closer.token.length then
    ({ buffer := u.drop (D.returned u.length) },
      { reasoningText := S.lead.take (D.returned u.length) })
  else if D.Stuck S as then
    ({ buffer := y, reasoningDone := true }, { reasoningText := S.lead })
  else
    ((afterState S.tail y).1, { reasoningText := S.lead, normalText := (afterState S.tail y).2 })

theorem returned_le : D.returned n ≤ n := by
  unfold returned
  split <;> omega

theorem returned_le_lead (hn : n < S.lead.length + S.closer.token.length) :
    D.returned n ≤ S.lead.length := by
  have := S.closer.length_token_le
  unfold returned
  split <;> omega

theorem take_returned (hu : u <+: S.text)
    (hopen : u.length < S.lead.length + S.closer.token.length) :
    u.take (D.returned u.length) = S.lead.take (D.returned u.length) := by
  obtain ⟨v, hv⟩ := hu
  have h1 : (u ++ v).take (D.returned u.length) = u.take (D.returned u.length) :=
    take_append_of_le_length D.returned_le
  rw [← h1, hv, Shape.text, take_append_of_le_length (D.returned_le_lead hopen)]

/-- A call while no closing marker is complete. -/
theorem parse_opening (hS : S.WellFormed) {c : List Char} (hu : u ++ c <+: S.text)
    (hlen : (u ++ c).length < S.lead.length + S.closer.token.length) :
    D.parseStreamingIncrement { buffer := u.drop (D.returned u.length) } c =
      ({ buffer := (u ++ c).drop (D.returned (u ++ c).length) },
        { reasoningText := (S.lead.take (D.returned (u ++ c).length)).drop
            (D.returned u.length) }) := by
  have hbuf : u.drop (D.returned u.length) ++ c = (u ++ c).drop (D.returned u.length) :=
    (drop_append_of_le_length D.returned_le).symm
  have hnone : firstMarker ((u ++ c).drop (D.returned u.length)) = none :=
    firstMarker_eq_none fun k hin => hS.free_of_short hu hlen k
      (hin.trans (drop_suffix _ _).isInfix)
  have hkeep : max (max Kind.thinkEnd.token.length Kind.text.token.length)
      Kind.action.token.length - 1 = 15 := by decide
  rw [← D.take_returned hu hlen, drop_take]
  simp only [parseStreamingIncrement, hbuf, hnone, Bool.not_false, if_true, hkeep, cutTail_eq]
  cases hstream : D.streamReasoning with
  | false => simp [returned, hstream]
  | true =>
    have hsub : (u ++ c).length - (u.length - 15) - 15 =
        (u ++ c).length - 15 - (u.length - 15) := by
      omega
    have hadd : u.length - 15 + ((u ++ c).length - 15 - (u.length - 15)) =
        (u ++ c).length - 15 := by
      rw [length_append]
      omega
    simp only [returned, hstream, if_true, Bool.not_true, Bool.false_eq_true, if_false,
      length_drop, drop_drop, hsub, hadd]

/-- The call that completes the closing marker. -/
theorem parse_closing (hS : S.WellFormed) {c : List Char} (hu : u ++ c <+: S.text)
    (hopen : u.length < S.lead.length + S.closer.token.length)
    (hlen : S.lead.length + S.closer.token.length ≤ (u ++ c).length) :
    D.parseStreamingIncrement { buffer := u.drop (D.returned u.length) } c =
      if D.returned u.length < S.lead.length then
        ({ buffer := (u ++ c).drop (S.lead ++ S.dropped).length, reasoningDone := true },
          { reasoningText := S.lead.drop (D.returned u.length) })
      else afterReasoning
        { buffer := (u ++ c).drop (S.lead ++ S.dropped).length, reasoningDone := true } := by
  have hret := D.returned_le_lead hopen
  have hbuf : u.drop (D.returned u.length) ++ c = (u ++ c).drop (D.returned u.length) :=
    (drop_append_of_le_length D.returned_le).symm
  obtain ⟨z, hz⟩ : S.lead ++ S.closer.token <+: u ++ c := by
    refine prefix_of_prefix_length_le ?_ hu (by rwa [length_append])
    rw [S.text_eq, ← append_assoc]
    exact prefix_append _ _
  have hsplit : (u ++ c).drop (D.returned u.length) =
      S.lead.drop (D.returned u.length) ++ (S.closer.token ++ z) := by
    rw [← hz, append_assoc, drop_append_of_le_length hret]
  have hfree : ∀ k : Kind, ¬ k.token <:+: S.lead.drop (D.returned u.length) :=
    fun k hin => hS.lead_free k (hin.trans (drop_suffix _ _).isInfix)
  have hrest : (u ++ c).drop (S.lead ++ S.dropped).length =
      if S.closer = .thinkEnd then z else S.closer.token ++ z := by
    rw [← hz]
    unfold Shape.dropped Shape.closer
    cases S.thinkEnded with
    | true => simp
    | false => cases S.tail <;> simp [Tail.kind]
  simp only [parseStreamingIncrement, hbuf, hsplit, firstMarker_append S.closer hfree,
    Bool.not_false, if_true, take_left, drop_length_add_append, drop_left]
  rw [hrest]
  have hne : S.lead.drop (D.returned u.length) ≠ [] ↔ D.returned u.length < S.lead.length := by
    rw [ne_eq, drop_eq_nil_iff, Nat.not_le]
  by_cases hlt : D.returned u.length < S.lead.length
  · rw [if_pos hlt, if_pos (hne.mpr hlt)]
  · rw [if_neg hlt, if_neg fun h => hlt (hne.mp h)]

theorem parse_done {st : CohereState} (h : st.reasoningDone = true) (c : List Char) :
    D.parseStreamingIncrement st c = afterReasoning { st with buffer := st.buffer ++ c } := by
  simp [parseStreamingIncrement, h]

theorem reasoningDone_afterState (t : Tail) (y : List Char) :
    (afterState t y).1.reasoningDone = true := by
  unfold afterState textState
  split
  · rfl
  · cases t with
    | answer a ended =>
      dsimp only
      split <;> rfl
    | action b => rfl

theorem returned_mono {m : ℕ} (h : n ≤ m) : D.returned n ≤ D.returned m := by
  unfold returned
  split <;> omega

theorem length_dropped_le (S : Shape) :
    (S.lead ++ S.dropped).length ≤ S.lead.length + S.closer.token.length := by
  unfold Shape.dropped Shape.closer
  cases S.thinkEnded <;> simp

/-- What was read behind the lead is the beginning of the block. -/
theorem drop_prefix_tail (hu : u <+: S.text) :
    u.drop (S.lead ++ S.dropped).length <+: S.tail.text := by
  have h := hu.drop (S.lead ++ S.dropped).length
  rwa [Shape.text, ← append_assoc, drop_left] at h

theorem reachedState_step (hS : S.WellFormed) {as : List (List Char)} {c : List Char}
    (hpre : as.flatten ++ c <+: S.text) :
    ((D.parseStreamingIncrement (D.reachedState S as).1 c).1,
      (D.reachedState S as).2 ++ (D.parseStreamingIncrement (D.reachedState S as).1 c).2) =
        D.reachedState S (as ++ [c]) := by
  have hflat : (as ++ [c]).flatten = as.flatten ++ c := by simp
  have hlast : (as ++ [c]).dropLast = as := dropLast_concat
  unfold reachedState
  rw [hflat]
  set u := as.flatten
  set m := (S.lead ++ S.dropped).length
  by_cases hopen : u.length < S.lead.length + S.closer.token.length
  · rw [if_pos hopen]
    by_cases hstill : (u ++ c).length < S.lead.length + S.closer.token.length
    · -- Still no closing marker.
      rw [if_pos hstill, parse_opening D hS hpre hstill]
      have hmono : D.returned u.length ≤ D.returned (u ++ c).length :=
        D.returned_mono (by rw [length_append]; omega)
      exact Prod.ext rfl (congrArg (StreamingParseResult.mk []) (take_append_drop_take _ hmono))
    · -- The closing marker is complete with this piece.
      have hstuck : D.Stuck S (as ++ [c]) ↔ D.returned u.length < S.lead.length := by
        unfold Stuck
        rw [hlast]
        exact and_iff_right hopen
      have hlead := take_append_drop (D.returned u.length) S.lead
      rw [if_neg hstill, parse_closing D hS hpre hopen (Nat.not_lt.mp hstill)]
      by_cases hlt : D.returned u.length < S.lead.length
      · rw [if_pos hlt, if_pos (hstuck.mpr hlt)]
        exact Prod.ext rfl (congrArg (StreamingParseResult.mk []) hlead)
      · rw [drop_eq_nil_of_le (Nat.not_lt.mp hlt), append_nil] at hlead
        rw [if_neg hlt, if_neg (mt hstuck.mp hlt),
          afterReasoning_fresh hS.tail_plain (drop_prefix_tail hpre), hlead]
        exact Prod.ext rfl (congrArg (StreamingParseResult.mk _) (append_nil _))
  · -- The reasoning was closed before.
    have hnot : ¬ (u ++ c).length < S.lead.length + S.closer.token.length := by
      rw [length_append]
      omega
    have hnstuck : ¬ D.Stuck S (as ++ [c]) := by
      rintro ⟨h, -⟩
      rw [hlast] at h
      exact hopen h
    have hdrop : (u ++ c).drop m = u.drop m ++ c :=
      drop_append_of_le_length ((length_dropped_le S).trans (Nat.not_lt.mp hopen))
    have hy := drop_prefix_tail hpre
    rw [hdrop] at hy
    rw [if_neg hopen, if_neg hnot, if_neg hnstuck, hdrop]
    by_cases hs : D.Stuck S as
    · rw [if_pos hs, parse_done D rfl]
      rw [afterReasoning_fresh hS.tail_plain hy]
      exact Prod.ext rfl (congrArg (StreamingParseResult.mk _) (append_nil _))
    · obtain ⟨n, hn, heq⟩ := afterReasoning_step hS.tail_plain hy
      rw [if_neg hs, parse_done D (reasoningDone_afterState _ _), hn, ← heq]
      exact Prod.ext rfl (congrArg (StreamingParseResult.mk _) (append_nil _))

theorem reached (hS : S.WellFormed) (as : List (List Char)) (hpre : as.flatten <+: S.text) :
    ((feed D.parseStreamingIncrement {} as).1,
      .concat (feed D.parseStreamingIncrement {} as).2) = D.reachedState S as := by
  induction as using List.reverseRecOn with
  | nil =>
    have h0 : D.returned 0 = 0 := Nat.le_zero.mp D.returned_le
    have hpos := S.closer.length_token_le
    rw [reachedState, if_pos (by simp only [flatten_nil, length_nil]; omega)]
    simp [h0]
  | append_singleton as c ih =>
    rw [flatten_append, flatten_singleton] at hpre
    have hih := ih ((prefix_append _ _).trans hpre)
    rw [feed_concat, StreamingParseResult.concat_concat, ← D.reachedState_step hS hpre, ← hih]

end Run

section OneShot

variable {S : Shape} {t : Tail}

/-- What the block contributes to the answer. -/
def Tail.normal : Tail → List Char
  | .answer a _ => a
  | .action b => Kind.action.token ++ b

theorem Tail.Plain.not_thinkEnd (ht : t.Plain) : ¬ Kind.thinkEnd.token <:+: t.body := by
  cases t with
  | action b => exact ht.2
  | answer a ended =>
    cases ended with
    | false => simpa [Tail.body] using ht.2
    | true =>
      have h := not_infix_append (v := textEndToken ++ []) ht.2 (by decide)
        (Kind.thinkEnd.headed.not_straddles (by decide))
      exact h

/-- A marker other than the block's own is not found across the block's start. -/
theorem not_infix_block {k : Kind} (hk : t.kind ≠ k) (hbody : ¬ k.token <:+: t.body) :
    ¬ k.token <:+: t.text := by
  refine not_infix_append ?_ hbody fun h => ?_
  · revert hk
    cases t.kind <;> cases k <;> decide
  · exact k.headed.not_straddles_after (u := []) t.kind.headed (t.kind.head?_token k)
      (Kind.not_starts hk) h

theorem Shape.text_of_open (S : Shape) (h : S.thinkEnded = false) :
    S.text = S.lead ++ (S.tail.kind.token ++ S.tail.body) := by
  simp [Shape.text, Shape.dropped, h, Tail.text]

theorem Shape.WellFormed.find_eq_none (hS : S.WellFormed) {k : Kind}
    (hended : S.thinkEnded = false) (hk : S.tail.kind ≠ k) (hbody : ¬ k.token <:+: S.tail.body) :
    find k.token S.text = none := by
  rw [find_eq_none_iff, S.text_of_open hended]
  exact not_infix_append (hS.lead_free k) (not_infix_block hk hbody)
    (k.headed.not_straddles (S.tail.kind.head?_token k))

theorem splitReasoning_eq (hS : S.WellFormed) : splitReasoning S.text = (S.lead, S.tail.text) := by
  unfold splitReasoning
  cases hended : S.thinkEnded with
  | true =>
    have htext : S.text = S.lead ++ (Kind.thinkEnd.token ++ S.tail.text) := by
      simp [Shape.text, Shape.dropped, hended]
    rw [htext, find_token_append _ (hS.lead_free _)]
    simp
  | false =>
    have htext := S.text_of_open hended
    have hend := hS.find_eq_none hended
      (by cases S.tail <;> simp [Tail.kind]) hS.tail_plain.not_thinkEnd
    have hfind : find S.tail.kind.token S.text = some S.lead.length := by
      rw [htext, find_token_append _ (hS.lead_free _)]
    have hsplit : (S.text.take S.lead.length, S.text.drop S.lead.length) =
        (S.lead, S.tail.text) := by
      rw [htext, take_left, drop_left]
      rfl
    rw [hend]
    cases htail : S.tail with
    | answer a ended =>
      rw [htail] at hfind hsplit
      rw [Tail.kind] at hfind
      simp [hfind, hsplit]
    | action b =>
      have hplain := hS.tail_plain
      rw [htail] at hplain
      have htextNone := hS.find_eq_none (k := .text) hended
        (by rw [htail]; simp [Tail.kind]) (by rw [htail]; exact hplain.1)
      rw [htail] at hfind hsplit
      rw [Tail.kind] at hfind
      simp [htextNone, hfind, hsplit]

theorem stripTextMarkers_text (ht : t.Plain) : stripTextMarkers t.text = t.normal := by
  have hne : t.text ≠ [] := by
    intro h0
    exact t.kind.headed.ne_nil (append_eq_nil_iff.mp h0).1
  unfold stripTextMarkers
  rw [if_neg hne]
  cases t with
  | action b =>
    have hnone : find Kind.text.token (Tail.action b).text = none :=
      find_eq_none_iff.mpr (not_infix_block (by simp [Tail.kind]) ht.1)
    have hin : contains Kind.action.token (Tail.action b).text = true :=
      contains_iff.mpr (prefix_append _ _).isInfix
    rw [hnone, hin]
    rfl
  | answer a ended =>
    have hfind : find Kind.text.token (Tail.answer a ended).text = some 0 := by
      exact find_token_append (x := []) .text (by decide)
    have hdrop : (Tail.answer a ended).text.drop (0 + Kind.text.token.length) =
        (Tail.answer a ended).body := by
      rw [Nat.zero_add]
      exact drop_left
    rw [hfind]
    dsimp only
    rw [hdrop]
    cases ended with
    | false =>
      have hnone : find textEndToken a = none := find_eq_none_iff.mpr ht.1
      simp [Tail.body, Tail.normal, hnone]
    | true =>
      have hend := headed_textEndToken.find_append ht.1 []
      rw [append_nil] at hend
      simp [Tail.body, Tail.normal, hend]

/-- Only a lead begins with the echoed marker. -/
theorem thinkStart_prefix_iff (S : Shape) :
    thinkStartToken <+: S.text ↔ thinkStartToken <+: S.lead := by
  constructor
  · intro h
    rw [S.text_eq] at h
    rcases prefix_append_cases h with h | ⟨y, hy, hly, hyv⟩
    · exact h
    · have hhead : S.closer.token.head? = thinkStartToken.head? := by
        cases S.closer <;> decide
      have hheaded : Headed thinkStartToken := by decide
      cases hlead : S.lead with
      | cons a l =>
        refine absurd ⟨S.lead, y, by simp [hlead], hy, hly, suffix_refl _, hyv⟩
          (hheaded.not_straddles hhead)
      | nil =>
        rw [hlead, nil_append] at hly
        rw [← hly] at hyv
        rcases prefix_append_cases hyv with hc | ⟨z, -, hz, -⟩
        · revert hc
          cases S.closer <;> decide
        · have hc : S.closer.token <+: thinkStartToken := ⟨z, hz.symm⟩
          revert hc
          cases S.closer <;> decide
  · intro h
    exact h.trans (prefix_append _ _)

end OneShot

section Delivery

variable (D : CohereCommand4Detector) {S : Shape}

/-- The returned texts are those of the one-shot parse. -/
def LosesNothing (cs : List (List Char)) : Prop :=
  StreamingParseResult.concat (feed D.parseStreamingIncrement {} cs).2 = detectAndParse cs.flatten

/-- The block reaches the caller: an action block when some call looks at it, an
answer when it is empty or its end marker is read by a call that looks at it. -/
def Delivers (S : Shape) (cs : List (List Char)) : Prop :=
  match S.tail with
  | .answer a ended => a = [] ∨ ended = true ∧ ¬ D.Stuck S cs
  | .action _ => ¬ D.Stuck S cs

theorem afterState_text (t : Tail) : (afterState t t.text).2 = match t with
    | .answer a ended => if ended then a else a.take (a.length - (textEndToken.length - 1))
    | .action b => Kind.action.token ++ b := by
  cases t with
  | answer a ended =>
    change (afterState _ (Kind.text.token ++ _)).2 = _
    rw [afterState_answer]
    cases ended with
    | false => simp [Tail.body]
    | true =>
      have hle : a.length ≤ (a ++ textEndToken).length - (textEndToken.length - 1) := by
        rw [length_append]
        omega
      simpa [Tail.body] using take_of_length_le hle
  | action b =>
    change (afterState _ (Kind.action.token ++ _)).2 = _
    rw [afterState_action]
    rfl

theorem reasoningText_detect_iff (hS : S.WellFormed) :
    S.lead = (detectAndParse S.text).reasoningText ↔ ¬ thinkStartToken <+: S.text := by
  rw [thinkStart_prefix_iff]
  simp only [detectAndParse, splitReasoning_eq hS, isPrefixOf_iff_prefix]
  split
  · rename_i hpre
    refine iff_of_false ?_ (not_not.mpr hpre)
    intro heq
    have hlen := congrArg List.length heq
    have hle := hpre.length_le
    have hpos : 0 < thinkStartToken.length := by decide
    rw [length_drop] at hlen
    omega
  · rename_i hpre
    exact iff_of_true rfl hpre

/-- Streaming a text of the documented shape returns what the one-shot parse
returns exactly when no start marker is echoed and the block is delivered. -/
theorem losesNothing_iff (hS : S.WellFormed) (cs : List (List Char)) (htext : cs.flatten = S.text) :
    D.LosesNothing cs ↔ ¬ thinkStartToken <+: S.text ∧ D.Delivers S cs := by
  have hclosed : ¬ cs.flatten.length < S.lead.length + S.closer.token.length := by
    rw [htext, S.text_eq, length_append, length_append]
    omega
  have hy : cs.flatten.drop (S.lead ++ S.dropped).length = S.tail.text := by
    rw [htext, Shape.text, ← append_assoc, drop_left]
  have hfinal : StreamingParseResult.concat (feed D.parseStreamingIncrement {} cs).2 =
      ⟨if D.Stuck S cs then [] else (afterState S.tail S.tail.text).2, S.lead⟩ := by
    have hreach := congrArg Prod.snd (reached D hS cs (by rw [htext]))
    rw [reachedState, if_neg hclosed, hy] at hreach
    refine hreach.trans ?_
    split <;> rfl
  have hdetect : detectAndParse S.text =
      ⟨S.tail.normal, (detectAndParse S.text).reasoningText⟩ := by
    simp [detectAndParse, splitReasoning_eq hS, stripTextMarkers_text hS.tail_plain]
  rw [LosesNothing, htext, hfinal, hdetect, StreamingParseResult.mk.injEq,
    reasoningText_detect_iff hS, and_comm, afterState_text]
  refine and_congr_right fun _ => ?_
  unfold Delivers
  cases S.tail with
  | answer a ended =>
    by_cases hs : D.Stuck S cs
    · simp [Tail.normal, hs, eq_comm]
    · rw [if_neg hs]
      cases ended with
      | true => simp [Tail.normal, hs]
      | false =>
        -- The kept end of the answer is never returned.
        have hkeep : textEndToken.length - 1 = 11 := by decide
        simp only [Tail.normal, Bool.false_eq_true, if_false, false_and, or_false, hkeep,
          take_eq_self_iff]
        constructor
        · intro hle
          exact length_eq_zero_iff.mp (by omega)
        · rintro rfl
          simp
  | action b =>
    by_cases hs : D.Stuck S cs
    · rw [if_pos hs]
      refine iff_of_false (fun h => ?_) (not_not.mpr hs)
      exact Kind.action.headed.ne_nil (append_eq_nil_iff.mp h.symm).1
    · simp [Tail.normal, hs]

instance (cs : List (List Char)) : Decidable (D.LosesNothing cs) :=
  inferInstanceAs (Decidable (_ = _))

/-- Plain thoughts and a plain block, checked on given texts. -/
theorem Shape.wellFormed_of (S : Shape) (h : ∀ k ∈ [Kind.thinkEnd, .text, .action],
    ¬ k.token <:+: S.thoughts) (ht : S.tail.Plain) : S.WellFormed :=
  ⟨fun k => h k (by cases k <;> simp), ht⟩

/-- Reasoning closed in one piece, the answer with its end marker in the next. -/
theorem losesNothing_twoPieces : ({} : CohereCommand4Detector).LosesNothing
      ["ab<|END_THINKING|><|START_TEXT|>c".toList, "d<|END_TEXT|>".toList] := by
  have hS := Shape.wellFormed_of ⟨false, "ab".toList, true, .answer "cd".toList true⟩
    (by decide) ⟨by decide, by decide⟩
  refine (losesNothing_iff _ hS _ ?_).mpr ⟨?_, Or.inr ⟨rfl, ?_⟩⟩
  · decide
  · decide
  · decide

/-- Generation stops inside the answer: its last letters stay in the buffer. -/
theorem not_losesNothing_truncated :
    let S : Shape := ⟨false, "ab".toList, true, .answer "cd".toList false⟩
    let cs := ["ab<|END_THINKING|><|START_TEXT|>".toList, "cd".toList]
    S.WellFormed ∧ cs.flatten = S.text ∧ ¬ ({} : CohereCommand4Detector).LosesNothing cs := by
  refine ⟨?_, by decide, by decide⟩
  exact Shape.wellFormed_of _ (by decide) ⟨by decide, by decide⟩

end Delivery

end CohereCommand4Detector

end Sglang.Parser
