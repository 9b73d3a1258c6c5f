import Sglang.FunctionCall.Glm4MoeCall
import Sglang.FunctionCall.ToolIndexing

/-!
# Calls in a stream

A response is plain text with calls in it. The detector waits for the line with
the name of a call, announces the call, and sends the arguments until the end tag
is there. It does at most one of these in a parse call, so a call needs a chunk
for its name and a later chunk for its end.
-/

namespace Sglang.FunctionCall

open Sglang.Support
open List hiding contains_iff

namespace Glm4MoeDetector

variable (D : Glm4MoeDetector)

/-- Everything that is emitted for the calls in the chunks. -/
def items (s : GlmState) (cs : List Text) : List ToolCallItem :=
  (feed D.parseStreamingIncrement s cs).2.flatMap (·.calls)

/-- A call with the plain text before it. -/
structure Piece where
  gap : Text
  gap_plain : ¬ botToken <:+: gap
  call : Call D

variable {D}

def Piece.text (p : Piece D) : Text :=
  p.gap ++ (botToken ++ (p.call.name ++ '\n' :: (p.call.region ++ eotToken)))

/-- How many letters the announcement and the end of the call take. -/
def Piece.needs (p : Piece D) : List ℕ :=
  [p.gap.length + botToken.length + p.call.name.length + 1, p.call.region.length + eotToken.length]

variable {s : GlmState} {cs : List Text} {k : ℕ} {c : Call D} {gap t b r w before F A : Text}
  {m : ℤ} {ps : List (Piece D)}

theorem items_cons (t : Text) : D.items s (t :: cs) =
    (D.parseStreamingIncrement s t).2.calls ++ D.items (D.parseStreamingIncrement s t).1 cs := rfl

/-- Between two calls. -/
structure Waiting (k : ℕ) (b : Text) (s : GlmState) : Prop where
  buffer : s.buffer = b
  id : s.currentToolId = k ∨ k = 0 ∧ s.currentToolId = -1
  unnamed : s.currentToolNameSent = false
  arguments : s.lastArguments = []

/-- Inside a call: `r` has come of its arguments, and `F` has gone through the machine. -/
structure Sending (c : Call D) (k : ℕ) (before r F : Text) (s : GlmState) : Prop where
  buffer : s.buffer = before ++ (botToken ++ (c.name ++ '\n' :: r))
  before_plain : ¬ botToken <:+: before
  id : s.currentToolId = k
  named : s.currentToolNameSent = true
  raw : s.streamedRawLength = F.length
  xml : s.xml = (c.machine F).1
  arguments : s.lastArguments = (c.machine F).2

/-! ## The name line -/

theorem lineEnd_append {n : Text} (h : lineEnd n = none) (r : Text) :
    lineEnd (n ++ '\n' :: r) = some (n.length, 1) := by
  fun_induction lineEnd n with
  | case1 => rfl
  | case2 => cases h
  | case3 => cases h
  | case4 d t hline hback ih =>
    rw [Option.map_eq_none_iff] at h
    rw [cons_append, lineEnd, ih h]
    · rfl
    · exact hline
    · rintro u rfl hu
      cases t with
      | nil => simp at hu
      | cons e t =>
        obtain ⟨rfl, -⟩ := List.cons.inj hu
        exact hback t rfl rfl

theorem lineEnd_of_starts {n m : Text} (h : lineEnd n = none) (hm : m <+: n) :
    lineEnd m = none := by
  fun_induction lineEnd n generalizing m with
  | case1 =>
    rw [prefix_nil.mp hm]
    rfl
  | case2 => cases h
  | case3 => cases h
  | case4 d t hline hback ih =>
    rw [Option.map_eq_none_iff] at h
    cases m with
    | nil => rfl
    | cons e m =>
      obtain ⟨rfl, hrest⟩ := cons_prefix_cons.mp hm
      rw [lineEnd, ih h hrest]
      · rfl
      · exact hline
      · rintro u rfl rfl
        obtain ⟨v, rfl⟩ := hrest
        exact hback _ rfl rfl

theorem find_bot (h : ¬ botToken <:+: gap) (t : Text) :
    find botToken (gap ++ (botToken ++ t)) = some gap.length :=
  (headed_of_mem (by decide)).1.find_append h t

theorem drop_bot (gap t : Text) :
    (gap ++ (botToken ++ t)).drop (gap.length + botToken.length) = t := by
  rw [← append_assoc, ← length_append, drop_left]

/-- A newline at the end does not matter once the text is stripped. -/
theorem strip_dropLast (r : Text) :
    strip (if r.getLast? = some '\n' then r.dropLast else r) = strip r := by
  split
  · rename_i hlast
    obtain ⟨q, rfl⟩ := List.getLast?_eq_some_iff.mp hlast
    rw [dropLast_concat, strip, strip, lstrip, lstrip, dropWhile_append]
    split
    · rename_i hnil
      rw [isEmpty_iff.mp hnil]
      rfl
    · rw [rdropWhile_concat_pos _ _ _ (by decide)]
  · rfl

/-- What the expression finds once the name line is there. -/
theorem partialMatch_named (h : ¬ botToken <:+: gap) (c : Call D) (r : Text) : ∃ m : PartialMatch,
      partialMatch (gap ++ (botToken ++ (c.name ++ '\n' :: r))) = some m ∧ m.name = c.name ∧
      match find eotToken r with
      | some j => m.args = r.take j ∧ m.rest = some (r.drop (j + eotToken.length))
      | none => strip m.args = strip r ∧ m.rest = none := by
  have htake : (c.name ++ '\n' :: r).take c.name.length = c.name := take_left
  have hdrop : (c.name ++ '\n' :: r).drop (c.name.length + 1) = r := by
    rw [← drop_drop, drop_left]
    rfl
  simp only [partialMatch, find_bot h, Option.bind_some, drop_bot, lineEnd_append c.oneLine,
    Option.map_some, htake, hdrop]
  cases find eotToken r with
  | some j => exact ⟨_, rfl, rfl, rfl, rfl⟩
  | none => exact ⟨_, rfl, rfl, strip_dropLast r, rfl⟩

/-- There is no match before the name line has come. -/
theorem partialMatch_unnamed {m : Text} (h : ¬ botToken <:+: gap) (hm : m <+: c.name) :
    partialMatch (gap ++ (botToken ++ m)) = none := by
  simp only [partialMatch, find_bot h, Option.bind_some, drop_bot,
    lineEnd_of_starts c.oneLine hm, Option.map_none]

/-! ## One chunk -/

theorem isPotentialStart_iff :
    isPotentialStart t = true ↔ ∃ x, x ≠ [] ∧ x <:+ t ∧ x <+: botToken := by
  simp only [isPotentialStart, any_eq_true, mem_tails, Bool.and_eq_true,
    Bool.not_eq_true', isEmpty_eq_false_iff, isPrefixOf_iff_prefix]
  constructor
  · rintro ⟨x, hsuffix, hne, hstarts⟩
    exact ⟨x, hne, hsuffix, hstarts⟩
  · rintro ⟨x, hne, hsuffix, hstarts⟩
    exact ⟨x, hsuffix, hne, hstarts⟩

/-- The name is sent as soon as its line is there. -/
theorem Waiting.announce (h : Waiting k b s) (hgap : ¬ botToken <:+: gap)
    (ht : b ++ t = gap ++ (botToken ++ (c.name ++ '\n' :: r))) :
    Sending c k gap r [] (D.parseStreamingIncrement s t).1 ∧
      (D.parseStreamingIncrement s t).2.calls = [⟨k, some c.name, []⟩] := by
  obtain ⟨m, hm, hname, -⟩ := partialMatch_named hgap c r
  have hcontains : contains botToken (gap ++ (botToken ++ (c.name ++ '\n' :: r))) = true :=
    contains_iff.mpr ⟨gap, _, by rw [append_assoc]⟩
  have hnonempty : strip m.name ≠ [] := by rw [hname, c.trimmed]; exact c.named
  obtain ⟨buffer, id, sent, raw, arguments, xml⟩ := s
  obtain ⟨rfl, hid, rfl, rfl⟩ := h
  simp only [parseStreamingIncrement, ht, hcontains, hm, if_neg hnonempty, if_true, handleMatch]
  rcases hid with rfl | ⟨rfl, rfl⟩
  · refine ⟨⟨rfl, hgap, rfl, rfl, rfl, rfl, rfl⟩, ?_⟩
    rw [hname, c.trimmed]
    rfl
  · refine ⟨⟨rfl, hgap, rfl, rfl, rfl, rfl, rfl⟩, ?_⟩
    rw [hname, c.trimmed]
    rfl

/-- Until then nothing is sent, and only plain text is given up. -/
theorem Waiting.hold (h : Waiting k b s) (hgap : ¬ botToken <:+: gap)
    (hstarts : b ++ t <+: gap ++ (botToken ++ (c.name ++ '\n' :: w)))
    (hshort : (b ++ t).length ≤ gap.length + botToken.length + c.name.length) :
    (D.parseStreamingIncrement s t).2.calls = [] ∧
      ∃ lost kept rest, Waiting k kept (D.parseStreamingIncrement s t).1 ∧
        b ++ t = lost ++ kept ∧ gap = lost ++ rest := by
  obtain ⟨buffer, id, sent, raw, arguments, xml⟩ := s
  obtain ⟨rfl, hid, rfl, rfl⟩ := h
  rcases prefix_append_cases hstarts with hin | ⟨m, hm, hsplit, hmstarts⟩
  · -- no tag has begun
    have hnot : contains botToken (buffer ++ t) = false := by
      rw [Bool.eq_false_iff, ne_eq, contains_iff]
      exact fun hbot => hgap (hbot.trans hin.isInfix)
    simp only [parseStreamingIncrement, hnot, Bool.false_eq_true, if_false]
    split
    · exact ⟨rfl, [], buffer ++ t, gap, ⟨rfl, hid, rfl, rfl⟩, rfl, rfl⟩
    · obtain ⟨rest, hrest⟩ := hin
      exact ⟨rfl, buffer ++ t, [], rest, ⟨rfl, hid, rfl, rfl⟩, (append_nil _).symm, hrest.symm⟩
  · by_cases hbot : botToken <+: m
    · -- the tag is there, and part of the name
      obtain ⟨n, rfl⟩ := hbot
      have hn : n <+: c.name := by
        rw [prefix_append_right_inj] at hmstarts
        refine prefix_of_prefix_length_le hmstarts (prefix_append _ _) ?_
        rw [hsplit, length_append, length_append] at hshort
        omega
      have hcontains : contains botToken (gap ++ (botToken ++ n)) = true :=
        contains_iff.mpr ⟨gap, n, by rw [append_assoc]⟩
      simp only [parseStreamingIncrement, hsplit, hcontains, if_true, partialMatch_unnamed hgap hn]
      exact ⟨trivial, [], _, gap, ⟨rfl, hid, rfl, rfl⟩, rfl, rfl⟩
    · -- the tag has begun
      have hpart : m <+: botToken := by
        rcases prefix_append_cases hmstarts with hpart | ⟨n, -, rfl, -⟩
        · exact hpart
        · exact absurd (prefix_append _ _) hbot
      have hhead : m.head? = botToken.head? := by
        obtain ⟨x, m, rfl⟩ := exists_cons_of_ne_nil hm
        obtain ⟨u, hu⟩ := hpart
        rw [← hu]
        rfl
      have hnot : contains botToken (gap ++ m) = false := by
        rw [Bool.eq_false_iff, ne_eq, contains_iff]
        intro hin
        rcases infix_append_cases hin with h | h | h
        · exact hgap h
        · have heq := hpart.eq_of_length_le h.length_le
          exact hbot (heq ▸ prefix_refl _)
        · have hstraddle : Straddles botToken gap (m ++ []) := by rwa [append_nil]
          exact (headed_of_mem (by decide)).1.not_straddles hhead hstraddle
      have hpotential : isPotentialStart (gap ++ m) = true :=
        isPotentialStart_iff.mpr ⟨m, hm, suffix_append _ _, hpart⟩
      simp only [parseStreamingIncrement, hsplit, hnot, Bool.false_eq_true, if_false,
        hpotential, if_true]
      exact ⟨trivial, [], _, gap, ⟨rfl, hid, rfl, rfl⟩, rfl, rfl⟩

/-! ### The arguments -/

theorem lstrip_starts (h : r <+: t) : lstrip r <+: lstrip t := by
  obtain ⟨u, rfl⟩ := h
  unfold lstrip
  rw [dropWhile_append]
  split
  · rename_i hnil
    rw [isEmpty_iff.mp hnil]
    exact nil_prefix
  · exact prefix_append _ _

/-- What goes through the machine is never taken back. -/
theorem Sending.stream {high : Text} (h : Sending c k before r F s) (args : Text)
    (hF : F <+: high) (hargs : strip args <+: high) : ∃ F' new, strip args <+: F' ∧ F' <+: high ∧
      (c.machine F').2 = (c.machine F).2 ++ new ∧ D.streamArgs s c.name (strip args) = ({ s with
            xml := (c.machine F').1
            streamedRawLength := F'.length
            lastArguments := (c.machine F').2 },
          if new = [] then [] else [item k new]) := by
  obtain ⟨buffer, id, sent, raw, arguments, xml⟩ := s
  obtain ⟨-, -, rfl, -, rfl, rfl, rfl⟩ := h
  unfold streamArgs
  by_cases hlt : F.length < (strip args).length
  · rw [if_pos hlt]
    obtain ⟨u, hu⟩ := prefix_of_prefix_length_le hF hargs hlt.le
    have hdrop : (strip args).drop F.length = u := by rw [← hu, drop_left]
    have hmachine : c.machine (strip args) =
        ((D.processXmlToJsonStreaming c.name (c.machine F).1 u).1,
          (c.machine F).2 ++ (D.processXmlToJsonStreaming c.name (c.machine F).1 u).2) := by
      rw [← hu, Call.machine, process_append]
      rfl
    refine ⟨strip args, (D.processXmlToJsonStreaming c.name (c.machine F).1 u).2,
      prefix_refl _, hargs, by rw [hmachine], ?_⟩
    rw [hmachine]
    simp only [hdrop]
  · rw [if_neg hlt]
    exact ⟨F, [], prefix_of_prefix_length_le hargs hF (by omega), hF, (append_nil _).symm, rfl⟩

/-- What one item adds to the fragments. -/
theorem fragments_item (k j : ℕ) (new : Text) :
    fragments (if new = [] then [] else [item k new]) j = if j = k then new else [] := by
  by_cases hnew : new = []
  · rw [hnew, ite_self]
    rfl
  · rw [if_neg hnew]
    by_cases hjk : j = k
    · simp [fragments, item, hjk]
    · have hkj : ¬ (k : ℤ) = j := fun h => hjk (by omega)
      simp [fragments, item, hjk, hkj]

theorem Sending.extend (h : Sending c k before r F s) (t : Text) :
    Sending c k before (r ++ t) F { s with buffer := s.buffer ++ t } :=
  { h with
    buffer := by rw [h.buffer]; simp only [append_assoc, cons_append] }

/-- A parse call inside a call of a tool. -/
theorem Sending.parse (h : Sending c k before r F s) {m : PartialMatch}
    (hm : partialMatch (before ++ (botToken ++ (c.name ++ '\n' :: (r ++ t)))) = some m)
    (hname : m.name = c.name) : D.parseStreamingIncrement s t =
      let sent := D.streamArgs { s with buffer := s.buffer ++ t } c.name (strip m.args)
      match m.rest with
      | some rest => ((finishCall sent.1 rest).1, { calls := sent.2 ++ (finishCall sent.1 rest).2 })
      | none => (sent.1, { calls := sent.2 }) := by
  have htext := (h.extend t).buffer
  have hcontains : contains botToken (s.buffer ++ t) = true := by
    dsimp only at htext
    rw [htext]
    exact contains_iff.mpr ⟨before, _, by rw [append_assoc]⟩
  have hid : ¬ s.currentToolId = -1 := by rw [h.id]; omega
  rw [← htext] at hm
  simp only [parseStreamingIncrement, hcontains, hm, hname, c.trimmed, if_neg c.named, if_true,
    handleMatch, if_neg hid, h.named]
  cases m.rest <;> rfl

/-- While the end tag is not there, what is new of the arguments is sent. -/
theorem Sending.more (h : Sending c k before r F s)
    (hr : ¬ eotToken <:+: r ++ t) (hF : F <+: lstrip r) :
    ∃ F' new, F' <+: lstrip (r ++ t) ∧ (c.machine F').2 = (c.machine F).2 ++ new ∧
      Sending c k before (r ++ t) F' (D.parseStreamingIncrement s t).1 ∧
      (D.parseStreamingIncrement s t).2.calls = if new = [] then [] else [item k new] := by
  obtain ⟨m, hm, hname, hfound⟩ := partialMatch_named h.before_plain c (r ++ t)
  rw [find_eq_none_iff.mpr hr] at hfound
  obtain ⟨hargs, hrest⟩ := hfound
  have hlow : strip (r ++ t) <+: lstrip (r ++ t) := by simpa using strip_starts_lstrip (r ++ t) []
  obtain ⟨F', new, -, hhigh, hout, hsent⟩ := (h.extend t).stream (r ++ t)
    (hF.trans (lstrip_starts (prefix_append r t))) hlow
  rw [h.parse hm hname, hrest, hargs, hsent]
  exact ⟨F', new, hhigh, hout,
    ⟨(h.extend t).buffer, h.before_plain, h.id, h.named, rfl, rfl, rfl⟩, rfl⟩

/-- With the end tag the call is finished. -/
theorem Sending.finish (h : Sending c k before r F s)
    (hA : ¬ eotToken <:+: A) (ht : r ++ t = A ++ (eotToken ++ w))
    (hF : F <+: lstrip (A ++ eotToken.dropLast)) :
    ∃ F' new, strip A <+: F' ∧ F' <+: lstrip (A ++ eotToken.dropLast) ∧
      (c.machine F).2 ++ new = c.finished F' ∧ Waiting (k + 1) w (D.parseStreamingIncrement s t).1 ∧
      ∀ j, fragments (D.parseStreamingIncrement s t).2.calls j = if j = k then new else [] := by
  obtain ⟨m, hm, hname, hfound⟩ := partialMatch_named h.before_plain c (r ++ t)
  rw [ht, find_eot hA] at hfound
  obtain ⟨hargs, hrest⟩ := hfound
  rw [take_left] at hargs
  rw [← append_assoc, ← length_append, drop_left] at hrest
  obtain ⟨F', new, hlow, hhigh, hout, hsent⟩ := (h.extend t).stream A hF
    (strip_starts_lstrip A _)
  refine ⟨F', new ++ (if (c.machine F').1.isFirstParam then "\x7b\x7d".toList
    else if (c.machine F').2.getLast? = some '}' then [] else ['}']), hlow, hhigh, ?_, ?_⟩
  · rw [Call.finished, hout, append_assoc]
  rw [h.parse hm hname, hrest, hargs, hsent]
  refine ⟨⟨rfl, Or.inl ?_, rfl, rfl⟩, ?_⟩
  · simp only [finishCall, h.id]
    rfl
  · intro j
    simp only [finishCall, h.id, fragments_append, fragments_item]
    split <;> rfl

/-! ## Many chunks -/

/-- From the text before a call to its announcement. -/
theorem Waiting.run (h : Waiting k b s) (hgap : ¬ botToken <:+: gap)
    (ht : b ++ cs.flatten = gap ++ (botToken ++ (c.name ++ '\n' :: w))) :
    match await (gap.length + botToken.length + c.name.length + 1) b.length cs with
    | none => D.items s cs = []
    | some rest => ∃ before r s', Sending c k before r [] s' ∧ r.length = rest.1 ∧
        r ++ rest.2.flatten = w ∧ D.items s cs = ⟨k, some c.name, []⟩ :: D.items s' rest.2 := by
  induction cs generalizing s b gap with
  | nil => rfl
  | cons t cs ih =>
    rw [flatten_cons, ← append_assoc] at ht
    rw [await]
    by_cases hlong : gap.length + botToken.length + c.name.length + 1 ≤ b.length + t.length
    · rw [if_pos hlong]
      have hline : gap ++ (botToken ++ (c.name ++ ['\n'])) <+: b ++ t := by
        have hwhole : gap ++ (botToken ++ (c.name ++ ['\n'])) <+: b ++ t ++ cs.flatten :=
          ⟨w, by rw [ht]; simp⟩
        refine prefix_of_prefix_length_le hwhole (prefix_append _ _) ?_
        simp only [length_append, length_singleton]
        omega
      obtain ⟨r, hr⟩ := hline
      have htext : b ++ t = gap ++ (botToken ++ (c.name ++ '\n' :: r)) := by
        rw [← hr]
        simp
      obtain ⟨hsending, hcalls⟩ := h.announce hgap htext
      refine ⟨gap, r, _, hsending, ?_, ?_, ?_⟩
      · have hlength := congrArg List.length htext
        simp only [length_append, length_cons] at hlength ⊢
        omega
      · rw [htext] at ht
        simpa using ht
      · rw [items_cons, hcalls, singleton_append]
    · rw [if_neg hlong]
      have hshort : (b ++ t).length ≤ gap.length + botToken.length + c.name.length := by
        rw [length_append]
        omega
      obtain ⟨hcalls, lost, kept, rest, hwaiting, hsplit, rfl⟩ :=
        h.hold hgap ⟨cs.flatten, ht⟩ hshort
      have hrest : ¬ botToken <:+: rest := fun hin => hgap (hin.trans (suffix_append _ _).isInfix)
      rw [hsplit, append_assoc, append_assoc, append_cancel_left_eq] at ht
      have hrun := ih hwaiting hrest ht
      have hneed : (lost ++ rest).length + botToken.length + c.name.length + 1 =
          rest.length + botToken.length + c.name.length + 1 + lost.length := by
        rw [length_append]
        omega
      have hgot : b.length + t.length = kept.length + lost.length := by
        rw [← length_append, hsplit, length_append]
        omega
      rw [hneed, hgot, await_add, items_cons, hcalls]
      exact hrun

/-- What has come of the arguments without the end tag. -/
theorem starts_of_not_eot (hr : ¬ eotToken <:+: r)
    (ht : r ++ t = A ++ (eotToken ++ w)) : r <+: A ++ eotToken.dropLast := by
  have hwhole : A ++ eotToken <+: r ++ t := ⟨w, by rw [ht, append_assoc]⟩
  have hlt : r.length < A.length + eotToken.length := by
    by_contra hge
    have hin : A ++ eotToken <+: r :=
      prefix_of_prefix_length_le hwhole (prefix_append r t) (by rw [length_append]; omega)
    exact hr ((suffix_append A eotToken).isInfix.trans hin.isInfix)
  refine prefix_of_prefix_length_le (prefix_append r t) ?_ ?_
  · exact ((prefix_append_right_inj A).mpr (List.dropLast_prefix eotToken)).trans hwhole
  · rw [length_append, length_dropLast]
    omega

/-- From the announcement of a call to its end. -/
theorem Sending.run (h : Sending c k before r F s)
    (hA : ¬ eotToken <:+: A) (ht : r ++ cs.flatten = A ++ (eotToken ++ w))
    (hF : F <+: lstrip r) (hFA : F <+: lstrip (A ++ eotToken.dropLast)) :
    match await (A.length + eotToken.length) r.length cs with
    | none => ∃ F' new, F' <+: lstrip (A ++ eotToken.dropLast) ∧
        (c.machine F).2 ++ new = (c.machine F').2 ∧
        ∀ j, fragments (D.items s cs) j = if j = k then new else []
    | some rest => ∃ F' new b s', strip A <+: F' ∧ F' <+: lstrip (A ++ eotToken.dropLast) ∧
        (c.machine F).2 ++ new = c.finished F' ∧
        Waiting (k + 1) b s' ∧ b.length = rest.1 ∧ b ++ rest.2.flatten = w ∧
        ∀ j, fragments (D.items s cs) j =
          (if j = k then new else []) ++ fragments (D.items s' rest.2) j := by
  induction cs generalizing s r F with
  | nil =>
    refine ⟨F, [], hFA, append_nil _, fun j => ?_⟩
    rw [ite_self]
    rfl
  | cons t cs ih =>
    rw [flatten_cons, ← append_assoc] at ht
    rw [await]
    by_cases hlong : A.length + eotToken.length ≤ r.length + t.length
    · rw [if_pos hlong]
      have hend : A ++ eotToken <+: r ++ t := by
        have hwhole : A ++ eotToken <+: r ++ t ++ cs.flatten := ⟨w, by rw [ht, append_assoc]⟩
        refine prefix_of_prefix_length_le hwhole (prefix_append _ _) ?_
        rw [length_append, length_append]
        exact hlong
      obtain ⟨b, hb⟩ := hend
      rw [append_assoc] at hb
      obtain ⟨F', new, hlow, hhigh, hout, hwaiting, hcalls⟩ := h.finish hA hb.symm hFA
      refine ⟨F', new, b, _, hlow, hhigh, hout, hwaiting, ?_, ?_, fun j => ?_⟩
      · have hlength := congrArg List.length hb
        simp only [length_append] at hlength ⊢
        omega
      · rw [← hb] at ht
        simpa using ht
      · rw [items_cons, fragments_append, hcalls]
    · rw [if_neg hlong]
      have hrt := (headed_of_mem (by decide)).1.not_infix_of_short hA ⟨_, ht⟩
        (by rw [length_append]; omega)
      obtain ⟨F₁, new₁, hF₁, hout₁, hsending, hcalls⟩ := h.more hrt hF
      have hrun := ih hsending ht hF₁ (hF₁.trans (lstrip_starts (starts_of_not_eot hrt ht)))
      rw [length_append] at hrun
      revert hrun
      cases await (A.length + eotToken.length) (r.length + t.length) cs with
      | none =>
        rintro ⟨F', new, hhigh, hout, hfragments⟩
        refine ⟨F', new₁ ++ new, hhigh, ?_, fun j => ?_⟩
        · rw [← hout, hout₁, append_assoc]
        · rw [items_cons, fragments_append, hcalls, fragments_item, hfragments]
          split <;> simp
      | some rest =>
        rintro ⟨F', new, b, s', hlow, hhigh, hout, hwaiting, hb, hrest, hfragments⟩
        refine ⟨F', new₁ ++ new, b, s', hlow, hhigh, ?_, hwaiting, hb, hrest, fun j => ?_⟩
        · rw [← hout, hout₁, append_assoc]
        · rw [items_cons, fragments_append, hcalls, fragments_item, hfragments]
          split <;> simp

/-! ## The calls of a response -/

/-- All that happens concerns the calls from index `m` on. -/
def From (m : ℤ) (r : GlmState × List ToolCallItem) : Prop :=
  m ≤ r.1.currentToolId ∧ ∀ x ∈ r.2, m ≤ x.toolIndex

theorem streamArgs_from (hs : m ≤ s.currentToolId) (f args : Text) :
    From m (D.streamArgs s f args) := by
  unfold From streamArgs item
  grind

theorem finishCall_from (hs : m ≤ s.currentToolId) (rest : Text) : From m (finishCall s rest) := by
  unfold From finishCall item
  grind

theorem handleMatch_from (hm : 0 ≤ m) (hs : m ≤ s.currentToolId) (found : PartialMatch) :
    From m (D.handleMatch s found) := by
  have hsent := streamArgs_from (D := D) hs (strip found.name) (strip found.args)
  have hend := finishCall_from hsent.1
  unfold handleMatch
  grind [From]

/-- No later item carries an earlier index. -/
theorem parse_from (hm : 0 ≤ m) (hs : m ≤ s.currentToolId) (t : Text) :
    From m ((D.parseStreamingIncrement s t).1, (D.parseStreamingIncrement s t).2.calls) := by
  unfold parseStreamingIncrement
  grind [handleMatch_from, From]

theorem items_from (hm : 0 ≤ m) (hs : m ≤ s.currentToolId) (cs : List Text) :
    ∀ x ∈ D.items s cs, m ≤ x.toolIndex := by
  induction cs generalizing s with
  | nil => exact fun x hx => (nomatch hx)
  | cons t cs ih =>
    have hstep := parse_from (D := D) hm hs t
    exact forall_mem_append.mpr ⟨hstep.2, ih hstep.1⟩

theorem Waiting.fragments_eq_nil (h : Waiting (k + 1) b s) : fragments (D.items s cs) k = [] := by
  have hid : ((k + 1 : ℕ) : ℤ) ≤ s.currentToolId := by
    rcases h.id with hid | ⟨hzero, -⟩ <;> omega
  have hfrom := items_from (D := D) (by omega) hid cs
  have hnone : (D.items s cs).filter (fun x => x.name.isNone && decide (x.toolIndex = (k : ℤ))) =
      [] := by
    rw [filter_eq_nil_iff]
    intro x hx
    have hle := hfrom x hx
    have hne : ¬ x.toolIndex = (k : ℤ) := by omega
    simp [hne]
  rw [fragments, hnone]
  rfl

/-- The text of a response. -/
def text (ps : List (Piece D)) (last : Text) : Text := ps.flatMap Piece.text ++ last

/-- A client receives the arguments of every call. -/
def Received (items : List ToolCallItem) (k : ℕ) (ps : List (Piece D)) : Prop :=
  ∀ j p, ps[j]? = some p → fragments items (k + j) = p.call.expected

theorem Call.expected_ne_nil (c : Call D) : c.expected ≠ [] := by
  simp [Call.expected]

theorem received_cons {items : List ToolCallItem} {p : Piece D} : Received items k (p :: ps) ↔
      fragments items k = p.call.expected ∧ Received items (k + 1) ps := by
  constructor
  · intro h
    refine ⟨h 0 p rfl, fun j q hq => ?_⟩
    have hj := h (j + 1) q hq
    rwa [Nat.add_comm j 1, ← Nat.add_assoc] at hj
  · rintro ⟨hzero, hrest⟩ j q hq
    cases j with
    | zero =>
      obtain rfl : p = q := by simpa using hq
      exact hzero
    | succ j =>
      have hj := hrest j q hq
      rwa [Nat.add_comm j 1, ← Nat.add_assoc]

/-- The fragments of the call that is being sent, when the end tag is found behind `A`. -/
theorem Sending.fragments_ne (h : Sending c k before r [] s)
    (hA : ¬ eotToken <:+: A) (ht : r ++ cs.flatten = A ++ (eotToken ++ w))
    (hunfinished : ∀ F, F <+: lstrip (A ++ eotToken.dropLast) → (c.machine F).2 ≠ c.expected)
    (hfinished : ∀ F, strip A <+: F → F <+: lstrip (A ++ eotToken.dropLast) →
      c.finished F ≠ c.expected) : fragments (D.items s cs) k ≠ c.expected := by
  have hrun := h.run hA ht nil_prefix nil_prefix
  revert hrun
  cases await (A.length + eotToken.length) r.length cs with
  | none =>
    rintro ⟨F, new, hhigh, hout, hfragments⟩
    rw [hfragments, if_pos rfl]
    exact fun heq => hunfinished F hhigh (hout ▸ heq)
  | some rest =>
    rintro ⟨F, new, b, s', hlow, hhigh, hout, hwaiting, -, -, hfragments⟩
    rw [hfragments, if_pos rfl, hwaiting.fragments_eq_nil, append_nil]
    exact fun heq => hfinished F hlow hhigh (hout ▸ heq)

/-- Where a value holds the end tag, its call is cut off and not sent as it should be. -/
theorem Sending.fragments_ne_of_cut (h : Sending c k before r [] s)
    (hcut : ∃ a ∈ c.args, ¬ ¬ eotToken <:+: a.value)
    (ht : r ++ cs.flatten = c.region ++ (eotToken ++ w)) :
    fragments (D.items s cs) k ≠ c.expected := by
  obtain ⟨as, a, bs, v₁, v₂, hsplit, hvalue, hA⟩ := c.exists_cut hcut
  obtain ⟨u, hu⟩ : ∃ u, c.region =
      as.flatMap Argument.text ++ (a.before.1 ++ (a.header ++ v₁)) ++ (eotToken ++ u) := by
    refine ⟨v₂ ++ (closingTag ++ (bs.flatMap Argument.text ++ c.after.1)), ?_⟩
    rw [Call.region, hsplit, flatMap_append, flatMap_cons, Argument.text_eq, hvalue]
    simp only [append_assoc]
  refine h.fragments_ne (w := u ++ (eotToken ++ w)) hA ?_ ?_ ?_
  · rw [ht, hu]
    simp only [append_assoc]
  · intro F hF
    refine c.unfinished_ne nil_prefix (hF.trans ?_)
    rw [append_nil]
    refine lstrip_starts ?_
    rw [hu, prefix_append_right_inj]
    exact (List.dropLast_prefix eotToken).trans (prefix_append _ _)
  · intro F hlow hhigh
    exact c.finished_ne_cut hsplit hvalue hlow hhigh

/-- A call whose values hold no end tag. -/
theorem Sending.received_iff {p : Piece D} (h : Sending p.call k before r [] s)
    (hwhole : ∀ a ∈ p.call.args, ¬ eotToken <:+: a.value)
    (ht : r ++ cs.flatten = p.call.region ++ (eotToken ++ w))
    (hrest : ∀ b s' cs', Waiting (k + 1) b s' → b ++ cs'.flatten = w →
      (Received (D.items s' cs') (k + 1) ps ↔ (∀ q ∈ ps, q.call.Streamable) ∧
          served (ps.flatMap Piece.needs) b.length cs' = true)) :
    Received (D.items s cs) k (p :: ps) ↔ (∀ q ∈ p :: ps, q.call.Streamable) ∧
        served ((p.call.region.length + eotToken.length) :: ps.flatMap Piece.needs) r.length cs =
          true := by
  have hA := p.call.not_infix_region hwhole
  have hrun := h.run hA ht nil_prefix nil_prefix
  rw [received_cons, served, forall_mem_cons]
  revert hrun
  cases await (p.call.region.length + eotToken.length) r.length cs with
  | none =>
    rintro ⟨F, new, hhigh, hout, hfragments⟩
    have hne := p.call.unfinished_ne (List.dropLast_prefix eotToken) hhigh
    rw [hfragments, if_pos rfl]
    refine ⟨fun hreceived => absurd (hout ▸ hreceived.1) hne, ?_⟩
    rintro ⟨-, hfalse⟩
    cases hfalse
  | some rest =>
    rintro ⟨F, new, b, s', hlow, hhigh, hout, hwaiting, hb, hflatten, hfragments⟩
    have hfirst : fragments (D.items s cs) k = p.call.finished F := by
      rw [hfragments, if_pos rfl, hwaiting.fragments_eq_nil, append_nil]
      exact hout
    have hlater : Received (D.items s cs) (k + 1) ps ↔
        Received (D.items s' rest.2) (k + 1) ps := by
      have hsame : ∀ j, fragments (D.items s cs) (k + 1 + j) =
          fragments (D.items s' rest.2) (k + 1 + j) := by
        intro j
        rw [hfragments, if_neg (by omega), nil_append]
      simp [Received, hsame]
    dsimp only
    rw [hfirst, hlater, hrest b s' rest.2 hwaiting hflatten, ← hb,
      p.call.finished_eq_iff hwhole (List.dropLast_prefix eotToken) hlow hhigh, and_assoc]

/-- From any state between two calls. -/
theorem Waiting.received_iff {last : Text}
    (h : Waiting k b s) (ht : b ++ cs.flatten = text ps last) : Received (D.items s cs) k ps ↔
      (∀ p ∈ ps, p.call.Streamable) ∧ served (ps.flatMap Piece.needs) b.length cs = true := by
  induction ps generalizing k b s cs with
  | nil => simp [Received, served]
  | cons p ps ih =>
    have hsplit : b ++ cs.flatten = p.gap ++ (botToken ++ (p.call.name ++ '\n' ::
        (p.call.region ++ (eotToken ++ text ps last)))) := by
      rw [ht, text, flatMap_cons, Piece.text]
      simp [append_assoc, text]
    have hrun := h.run p.gap_plain hsplit
    rw [flatMap_cons, Piece.needs, cons_append, served]
    revert hrun
    cases await (p.gap.length + botToken.length + p.call.name.length + 1) b.length cs with
    | none =>
      intro hnone
      have hne : fragments (D.items s cs) k ≠ p.call.expected := by
        rw [hnone]
        exact fun heq => p.call.expected_ne_nil heq.symm
      refine ⟨fun hreceived => absurd (received_cons.mp hreceived).1 hne, ?_⟩
      rintro ⟨-, hfalse⟩
      cases hfalse
    | some rest =>
      rintro ⟨before, r, s', hsending, hr, hflatten, hitems⟩
      have hname : ∀ j, fragments (D.items s cs) j = fragments (D.items s' rest.2) j := by
        intro j
        rw [hitems]
        rfl
      have hsame : Received (D.items s cs) k (p :: ps) ↔
          Received (D.items s' rest.2) k (p :: ps) := by
        simp [Received, hname]
      dsimp only
      rw [hsame, ← hr]
      by_cases hwhole : ∀ a ∈ p.call.args, ¬ eotToken <:+: a.value
      · exact hsending.received_iff hwhole hflatten fun b s'' cs' hw hb => ih hw hb
      · have hcut : ∃ a ∈ p.call.args, ¬ ¬ eotToken <:+: a.value := by
          simpa using hwhole
        have hne := hsending.fragments_ne_of_cut hcut hflatten
        refine ⟨fun hreceived => absurd (received_cons.mp hreceived).1 hne, ?_⟩
        rintro ⟨hstreamable, -⟩
        exact absurd (fun a ha => ((hstreamable p mem_cons_self).1 a ha).2) hwhole

/-- The arguments of every call reach the client if and only if every call can be streamed and
the chunks leave a parse call for every name and every end. -/
theorem received_iff_streamable_and_served (ps : List (Piece D)) (last : Text) (cs : List Text)
    (h : cs.flatten = text ps last) : Received (D.items {} cs) 0 ps ↔
      (∀ p ∈ ps, p.call.Streamable) ∧ served (ps.flatMap Piece.needs) 0 cs = true := by
  have hwaiting : Waiting 0 [] ({} : GlmState) := ⟨rfl, Or.inr ⟨rfl, rfl⟩, rfl, rfl⟩
  exact hwaiting.received_iff h

/-! ### A tool with one argument -/

/-- The code of a text without control characters. -/
def quoting : JsonEncoding where
  escape c := if c = '"' then ['\\', '"'] else if c = '\\' then ['\\', '\\'] else [c]
  eq_of_starts := by
    intro c d h
    by_cases hc : c = '"' <;> by_cases hd : d = '"' <;> by_cases hc' : c = '\\' <;>
      by_cases hd' : d = '\\' <;> simp_all
  head_ne := by
    intro c
    split
    · decide
    · split
      · decide
      · simpa

/-- A detector for tools whose arguments all have one type. -/
def uniform (type : ValueType) : Glm4MoeDetector := ⟨quoting, fun _ _ => some type, id⟩

/-- The call of `f` with the object `{}`. -/
def emptyObject : Piece (uniform .other) where
  gap := []
  gap_plain := by decide
  call :=
    { name := "f".toList
      args := [⟨Space.none, "k".toList, Space.none, "\x7b\x7d".toList, .other,
        by decide, Or.inr rfl⟩]
      after := Space.none
      oneLine := by decide
      trimmed := by decide
      named := by decide
      declared := by decide }

/-- The call of `f` with the text `a}`. -/
def braceText : Piece (uniform .string) where
  gap := []
  gap_plain := by decide
  call :=
    { name := "f".toList
      args := [⟨Space.none, "k".toList, Space.none, "a\x7d".toList, .string, by decide,
        Or.inl ⟨rfl, by decide⟩⟩]
      after := Space.none
      oneLine := by decide
      trimmed := by decide
      named := by decide
      declared := by decide }

def nameLine : Text := "<tool_call>f\n".toList

def objectRest : Text := "<arg_key>k</arg_key><arg_value>\x7b\x7d</arg_value></tool_call>".toList

def textRest : Text := "<arg_key>k</arg_key><arg_value>a\x7d</arg_value></tool_call>".toList

/-- The brace of the object is taken for the end of the arguments. -/
theorem not_received_emptyObject : [nameLine, objectRest].flatten = text [emptyObject] [] ∧
      fragments ((uniform .other).items {} [nameLine, objectRest]) 0 =
        "\x7b\"k\": \x7b\x7d".toList ∧
      ¬ Received ((uniform .other).items {} [nameLine, objectRest]) 0 [emptyObject] := by
  have hfragments : fragments ((uniform .other).items {} [nameLine, objectRest]) 0 =
      "\x7b\"k\": \x7b\x7d".toList := by decide
  refine ⟨by decide, hfragments, fun h => ?_⟩
  have hzero := h 0 emptyObject rfl
  rw [Nat.add_zero, hfragments] at hzero
  exact absurd hzero (by decide)

theorem received_braceText : [nameLine, textRest].flatten = text [braceText] [] ∧
      Received ((uniform .string).items {} [nameLine, textRest]) 0 [braceText] := by
  have htext : [nameLine, textRest].flatten = text [braceText] [] := by decide
  refine ⟨htext, (received_iff_streamable_and_served [braceText] [] [nameLine, textRest]
    htext).mpr ⟨?_, by decide⟩⟩
  intro p hp
  obtain rfl : p = braceText := by simpa using hp
  refine ⟨by decide, fun a ha htype => ?_⟩
  obtain rfl := Option.some.inj ha
  cases htype

end Glm4MoeDetector

end Sglang.FunctionCall
