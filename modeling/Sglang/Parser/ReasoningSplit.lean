import Sglang.Parser.Reasoning

/-!
# Streaming against one-shot splitting

`Splits` describes what the streaming detector returns for reasoning that
arrives in given pieces: either it is still open, or the first piece that
completed a closing marker decided where it ends. The one-shot detector looks
for the end marker in the whole text before it considers the tool marker, so the
two agree exactly when no tool marker was complete before the first end marker
was.
-/

namespace Sglang.Parser

open Sglang.Support
open List hiding contains_iff

variable {α : Type*}

namespace BaseReasoningFormatDetector

variable {F : BaseReasoningFormatDetector α}

/-- The markers a text can be held back for. -/
def markers (F : BaseReasoningFormatDetector α) : List (List α) :=
  [F.thinkStartToken, F.thinkEndToken] ++ F.toolStartToken.toList

/-- The detectors in question: reasoning is streamed, no message is continued,
and the markers are non-empty texts none of which contains another. -/
structure Regular (F : BaseReasoningFormatDetector α) : Prop where
  streams : F.streamReasoning = true
  fresh : F.continueFinalMessage = false
  label : F.thinkStartSelfLabel = []
  marker_ne : ∀ m ∈ F.markers, m ≠ []
  apart : F.markers.Pairwise fun m m' => ¬ m <:+: m' ∧ ¬ m' <:+: m

variable (F)

/-- A text that is a proper prefix of a marker. -/
def Held (t : List α) : Prop := ∃ m ∈ F.markers, t <+: m ∧ t ≠ m

/-- A tool-start marker occurs in the text. -/
def HasTool (t : List α) : Prop :=
  ∃ w ∈ F.toolStartToken, w <:+: t

/-- Neither an end marker nor a tool-start marker is complete in the text. -/
def Unclosed (t : List α) : Prop :=
  ¬ F.thinkEndToken <:+: t ∧ ¬ F.HasTool t

/-- No boundary between pieces cuts a marker. -/
def CutsNoMarker (cs : List (List α)) : Prop :=
  ∀ m ∈ F.markers, Uncut m cs

variable {F}

theorem start_mem_markers : F.thinkStartToken ∈ F.markers := by simp [markers]

theorem end_mem_markers : F.thinkEndToken ∈ F.markers := by simp [markers]

theorem tool_mem_markers {w : List α} (hw : w ∈ F.toolStartToken) : w ∈ F.markers := by
  simp_all [markers]

namespace Regular

theorem activeTool_eq (h : F.Regular) : F.activeTool = F.toolStartToken := by
  unfold activeTool
  cases hw : F.toolStartToken with
  | none => rfl
  | some w =>
    have hne := h.marker_ne w (tool_mem_markers (by rw [hw]; rfl))
    simp [Option.filter, hne]

theorem thinkStartText_eq (h : F.Regular) : F.thinkStartText = F.thinkStartToken := by
  rw [thinkStartText, h.label, append_nil]

theorem held_nil (h : F.Regular) : F.Held [] :=
  ⟨F.thinkStartToken, start_mem_markers, nil_prefix,
    fun he => h.marker_ne _ start_mem_markers he.symm⟩

/-- Two markers one of which contains the other are the same. -/
theorem eq_of_occurs (h : F.Regular) {m m' : List α} (hm : m ∈ F.markers)
    (hm' : m' ∈ F.markers) (hin : m <:+: m') : m = m' :=
  List.Pairwise.forall_of_forall_of_flip (R := fun m m' : List α => m <:+: m' → m = m')
    (fun _ _ _ => rfl) (h.apart.imp fun hd hin => absurd hin hd.1)
    (h.apart.imp fun hd hin => absurd hin hd.2) hm hm' hin

variable {t : List α}

/-- A held text contains no marker. -/
theorem not_infix_of_held (h : F.Regular) {m : List α} (hm : m ∈ F.markers)
    (ht : F.Held t) : ¬ m <:+: t := by
  rintro hin
  obtain ⟨m', hm', hpre, hne⟩ := ht
  obtain rfl : m = m' := h.eq_of_occurs hm hm' (hin.trans hpre.isInfix)
  exact hne (hpre.eq_of_length (Nat.le_antisymm hpre.length_le hin.length_le))

theorem not_hasTool_of_held (h : F.Regular) (ht : F.Held t) : ¬ F.HasTool t := by
  rintro ⟨w, hw, hin⟩
  exact h.not_infix_of_held (tool_mem_markers hw) ht hin

theorem unclosed_of_held (h : F.Regular) (ht : F.Held t) : F.Unclosed t :=
  ⟨h.not_infix_of_held end_mem_markers ht, h.not_hasTool_of_held ht⟩

end Regular

section Search

variable [DecidableEq α] {t u v : List α} {i : ℕ}

theorem Regular.keepsBuffering_iff (h : F.Regular) (t : List α) :
    F.keepsBuffering t = true ↔ F.Held t := by
  simp [keepsBuffering, tokensToCheck, h.activeTool_eq, h.thinkStartText_eq, Held, markers,
    eq_comm (a := t)]

/-- Position of the first tool-start marker. -/
def findTool (F : BaseReasoningFormatDetector α) (t : List α) : Option ℕ :=
  F.toolStartToken.bind (find · t)

theorem findTool_eq_none_iff : F.findTool t = none ↔ ¬ F.HasTool t := by
  unfold findTool HasTool
  cases F.toolStartToken with
  | none => simp
  | some w => simp [find_eq_none_iff]

theorem findTool_append_left (h : F.findTool u = some i) : F.findTool (u ++ v) = some i := by
  obtain ⟨w, hw, hi⟩ := Option.bind_eq_some_iff.mp h
  exact Option.bind_eq_some_iff.mpr ⟨w, hw, find_append_left hi⟩

theorem findTool_append_right (hu : ¬ F.HasTool u) (hs : ∀ m ∈ F.markers, ¬ Straddles m u v) :
    F.findTool (u ++ v) = (F.findTool v).map (u.length + ·) := by
  unfold findTool
  cases hw : F.toolStartToken with
  | none => rfl
  | some w =>
    have hmem : w ∈ F.toolStartToken := by rw [hw]; rfl
    exact find_append_right (fun hin => hu ⟨w, hmem, hin⟩) (hs w (tool_mem_markers hmem))

/-- Where the reasoning of a text ends and where its normal text begins: around
the first end marker, or before the first tool-start marker. -/
def closeAt (F : BaseReasoningFormatDetector α) (t : List α) : Option (ℕ × ℕ) :=
  match find F.thinkEndToken t with
  | some i => some (i, i + F.thinkEndToken.length)
  | none => (F.findTool t).map fun i => (i, i)

theorem closeAt_of_find (h : find F.thinkEndToken t = some i) :
    F.closeAt t = some (i, i + F.thinkEndToken.length) := by
  rw [closeAt, h]

theorem closeAt_of_absent (h : ¬ F.thinkEndToken <:+: t) :
    F.closeAt t = (F.findTool t).map fun i => (i, i) := by
  rw [closeAt, find_eq_none_iff.mpr h]

theorem closeAt_eq_none_iff : F.closeAt t = none ↔ F.Unclosed t := by
  unfold Unclosed
  cases hE : find F.thinkEndToken t with
  | some i =>
    have hin : F.thinkEndToken <:+: t := find_isSome_iff.mp (by rw [hE]; rfl)
    simp [closeAt_of_find hE, hin]
  | none =>
    have hin := find_eq_none_iff.mp hE
    simp [closeAt_of_absent hin, hin, findTool_eq_none_iff]

theorem closeAt_le {j : ℕ} (h : F.closeAt t = some (i, j)) : i ≤ j ∧ j ≤ t.length := by
  unfold closeAt at h
  split at h
  · rename_i k hk
    obtain ⟨rfl, rfl⟩ : k = i ∧ k + F.thinkEndToken.length = j := by simpa using h
    exact ⟨Nat.le_add_right _ _, find_add_length_le hk⟩
  · obtain ⟨k, hk, hkk⟩ := Option.map_eq_some_iff.mp h
    obtain ⟨rfl, rfl⟩ : k = i ∧ k = j := by simpa using hkk
    obtain ⟨w, -, hw⟩ := Option.bind_eq_some_iff.mp hk
    exact ⟨le_rfl, (Nat.le_add_right k _).trans (find_add_length_le hw)⟩

theorem closeAt_append_right (hu : F.Unclosed u) (hs : ∀ m ∈ F.markers, ¬ Straddles m u v) :
    F.closeAt (u ++ v) = (F.closeAt v).map fun ij => (u.length + ij.1, u.length + ij.2) := by
  have hE := find_append_right hu.1 (hs _ end_mem_markers)
  unfold closeAt
  rw [hE]
  cases hv : find F.thinkEndToken v with
  | some i => simp [Nat.add_assoc]
  | none =>
    simp only [Option.map_none, findTool_append_right hu.2 hs, Option.map_map]
    rfl

theorem Unclosed.append (hu : F.Unclosed u) (hv : F.Unclosed v)
    (hs : ∀ m ∈ F.markers, ¬ Straddles m u v) : F.Unclosed (u ++ v) := by
  rw [← closeAt_eq_none_iff] at hv ⊢
  rw [closeAt_append_right hu hs, hv]
  rfl

/-- The text without a leading start marker. -/
def body (F : BaseReasoningFormatDetector α) (t : List α) : List α :=
  if F.thinkStartToken <+: t then t.drop F.thinkStartToken.length else t

theorem body_of_not_starts (h : ¬ F.thinkStartToken <+: t) : F.body t = t := by
  rw [body, if_neg h]

theorem body_suffix (t : List α) : F.body t <:+ t := by
  unfold body
  split
  · exact drop_suffix _ t
  · exact suffix_refl t

end Search

section Steps

variable [DecidableEq α] {st : ReasoningState α} (hF : F.Regular)
include hF

theorem Regular.route_inside (hin : st.inReasoning = true) (x : List α) :
    F.route st x = match F.closeAt x with
      | some (i, j) =>
        ({ st with buffer := [], inReasoning := false },
          { normalText := x.drop j, reasoningText := x.take i })
      | none => ({ st with buffer := [] }, { reasoningText := x }) := by
  unfold route closeAt
  rw [if_pos hin, hF.activeTool_eq, hF.streams]
  cases find F.thinkEndToken x with
  | some i => rfl
  | none =>
    change (match F.findTool x with | some i => _ | none => _) = _
    cases F.findTool x <;> rfl

theorem parse_of_held {c : List α} (h : F.Held (st.buffer ++ c)) :
    F.parseStreamingIncrement st c = ({ st with buffer := st.buffer ++ c }, {}) := by
  simp [parseStreamingIncrement, if_pos ((hF.keepsBuffering_iff _).mpr h)]

theorem parse_of_not_held {c : List α}
    (h : ¬ F.Held (st.buffer ++ c))
    (hopen : st.strippedThinkStart = true ∨ ¬ F.thinkStartToken <:+: st.buffer ++ c) :
    F.parseStreamingIncrement st c =
      F.route { st with buffer := st.buffer ++ c } (st.buffer ++ c) := by
  have hkeep : ¬ F.keepsBuffering (st.buffer ++ c) = true :=
    fun hb => h ((hF.keepsBuffering_iff _).mp hb)
  have hstrip : ¬ (!st.strippedThinkStart &&
      contains F.thinkStartText (st.buffer ++ c)) = true := by
    rw [hF.thinkStartText_eq, Bool.and_eq_true, contains_iff]
    rintro ⟨hs, hin⟩
    rcases hopen with hstripped | hnot
    · simp [hstripped] at hs
    · exact hnot hin
  simp only [parseStreamingIncrement, if_neg hkeep, if_neg hstrip]

/-- Outside the reasoning a text is passed on, up to a held prefix. -/
theorem parse_outside {c : List α} (hout : st.inReasoning = false)
    (hopen : st.strippedThinkStart = true ∨ ¬ F.thinkStartToken <:+: st.buffer ++ c) :
    ∃ b n, F.parseStreamingIncrement st c = ({ st with buffer := b }, { normalText := n }) ∧
      F.Held b ∧ n ++ b = st.buffer ++ c := by
  by_cases hx : F.Held (st.buffer ++ c)
  · exact ⟨_, [], parse_of_held hF hx, hx, rfl⟩
  · refine ⟨[], st.buffer ++ c, ?_, hF.held_nil, append_nil _⟩
    simp [parse_of_not_held hF hx hopen, route, hout]

end Steps

section OneShot

variable [DecidableEq α] {t : List α}

/-- A split of a whole text at the place where its reasoning closes. -/
def splitAtClose (F : BaseReasoningFormatDetector α) (t : List α) : StreamingParseResult α :=
  match F.closeAt t with
  | some (i, j) => { normalText := t.drop j, reasoningText := t.take i }
  | none => { reasoningText := t }

omit [DecidableEq α] in
theorem infix_iff_prefix_of_tail {p : List α} (h : ¬ p <:+: t.tail) : p <:+: t ↔ p <+: t := by
  cases t with
  | nil => simp
  | cons a t => exact infix_cons_iff.trans (or_iff_left h)

theorem stripLoop_of_not_starts {m : List α} (h : ¬ m <+: t) (n : ℕ) : stripLoop m n t = t := by
  cases n with
  | zero => rfl
  | succ n => rw [stripLoop, if_neg fun hb => h (List.isPrefixOf_iff_prefix.mp hb)]

theorem Regular.stripLeading_eq (hF : F.Regular) (hstart : ¬ F.thinkStartToken <:+: t.tail) :
    stripLeading F.thinkStartToken t = F.body t := by
  unfold stripLeading body
  split
  · rename_i hpre
    obtain ⟨n, hn⟩ : ∃ n, F.thinkStartToken.length = n + 1 :=
      Nat.exists_eq_succ_of_ne_zero fun h0 =>
        hF.marker_ne _ start_mem_markers (length_eq_zero_iff.mp h0)
    obtain ⟨k, hk⟩ : ∃ k, t.length = k + 1 := by
      have := hpre.length_le
      exact ⟨t.length - 1, by omega⟩
    -- The marker does not occur again, so the loop ends after one round.
    have hnot : ¬ F.thinkStartToken <+: t.drop F.thinkStartToken.length := by
      intro hagain
      refine hstart (hagain.isInfix.trans ?_)
      rw [hn, ← drop_tail]
      exact (drop_suffix n t.tail).isInfix
    rw [hk, stripLoop, if_pos (List.isPrefixOf_iff_prefix.mpr hpre), stripLoop_of_not_starts hnot]
  · rename_i hpre
    exact stripLoop_of_not_starts hpre _

theorem Regular.init_eq (hF : F.Regular) :
    F.init = { buffer := [], inReasoning := F.forceReasoning, strippedThinkStart := false } := by
  have hprior : F.priorContent = [] := by rw [priorContent, hF.fresh]; rfl
  have hnot : ∀ m ∈ F.markers, contains m ([] : List α) = false := by
    intro m hm
    rw [Bool.eq_false_iff, ne_eq, contains_iff, infix_nil]
    exact hF.marker_ne m hm
  simp [init, hprior, hnot _ start_mem_markers, hnot _ end_mem_markers]

theorem Regular.parse_start (hF : F.Regular) (d : List α) :
    F.parseStreamingIncrement F.init (F.thinkStartToken ++ d) =
      F.route ⟨F.thinkStartToken ++ d, true, true⟩ d := by
  have hnheld : ¬ F.keepsBuffering (F.thinkStartToken ++ d) = true := by
    rw [hF.keepsBuffering_iff]
    exact fun hh => hF.not_infix_of_held start_mem_markers hh (prefix_append _ _).isInfix
  have hopens : contains F.thinkStartToken (F.thinkStartToken ++ d) = true :=
    contains_iff.mpr (prefix_append _ _).isInfix
  have hremove : removeFirst F.thinkStartToken (F.thinkStartToken ++ d) = d := by
    have hfind : find F.thinkStartToken (F.thinkStartToken ++ d) = some 0 := by
      cases hs : F.thinkStartToken with
      | nil => exact absurd hs (hF.marker_ne _ start_mem_markers)
      | cons a m => exact find_cons_of_starts (prefix_append _ _)
    rw [removeFirst, hfind]
    simp
  simp [parseStreamingIncrement, hF.init_eq, hF.thinkStartText_eq, hnheld, hopens, hremove]

theorem Regular.detectAndParse_inside (hF : F.Regular) (hstart : ¬ F.thinkStartToken <:+: t.tail)
    (hin : F.forceReasoning = true ∨ F.thinkStartToken <+: t) :
    F.detectAndParse F.init t = F.splitAtClose (F.body t) := by
  have hcond : (F.init.inReasoning || contains F.thinkStartToken t) = true := by
    rw [hF.init_eq, Bool.or_eq_true, contains_iff, infix_iff_prefix_of_tail hstart]
    exact hin
  have hprior : contains F.thinkEndToken F.priorContent = false := by
    have hnil : F.priorContent = [] := by rw [priorContent, hF.fresh]; rfl
    rw [hnil, Bool.eq_false_iff, ne_eq, contains_iff, infix_nil]
    exact hF.marker_ne _ end_mem_markers
  unfold detectAndParse splitAtClose closeAt
  rw [if_pos hcond, hF.thinkStartText_eq, hF.stripLeading_eq hstart]
  dsimp only
  cases hE : find F.thinkEndToken (F.body t) with
  | some i => rfl
  | none =>
    rw [hprior]
    change (match F.findTool (F.body t) with | some i => _ | none => _) = _
    cases F.findTool (F.body t) <;> rfl

theorem Regular.detectAndParse_outside (hF : F.Regular)
    (hstart : ¬ F.thinkStartToken <:+: t.tail) (hforce : F.forceReasoning = false)
    (hpre : ¬ F.thinkStartToken <+: t) :
    F.detectAndParse F.init t = { normalText := t } := by
  have hcond : ¬ (F.init.inReasoning || contains F.thinkStartToken t) = true := by
    rw [hF.init_eq, Bool.or_eq_true, contains_iff, infix_iff_prefix_of_tail hstart, hforce]
    simpa using hpre
  rw [detectAndParse, if_neg hcond]

end OneShot

section Reading

variable [DecidableEq α] {cs ps : List (List α)} {c : List α} {s : ReasoningState α}

omit [DecidableEq α] in
/-- Nothing reaches over the piece `c`, nor is the rest cut. -/
theorem CutsNoMarker.behind (h : F.CutsNoMarker (ps ++ c :: cs)) :
    (∀ m ∈ F.markers, ¬ Straddles m (ps.flatten ++ c) cs.flatten) ∧ F.CutsNoMarker cs := by
  refine ⟨fun m hm hs => h m hm (ps ++ [c]) cs (by simp) (by simpa using hs), ?_⟩
  rintro m hm as bs rfl hs
  refine h m hm (ps ++ c :: as) bs (append_assoc ps (c :: as) bs).symm (hs.mono_left ?_)
  exact ⟨ps.flatten ++ c, by simp⟩

/-- No start marker is looked for in the text. -/
def Begun (F : BaseReasoningFormatDetector α) (s : ReasoningState α) (t : List α) : Prop :=
  s.strippedThinkStart = true ∨ ¬ F.thinkStartToken <:+: t

omit [DecidableEq α] in
theorem Begun.mono {t u : List α} (h : F.Begun s u) (hin : t <:+: u) : F.Begun s t :=
  h.imp_right fun hno hs => hno (hs.trans hin)

/-- The texts the calls return for the pieces, and what they hold back. -/
def returned (F : BaseReasoningFormatDetector α) (s : ReasoningState α) (cs : List (List α)) :
    StreamingParseResult α × List α :=
  let run := feed F.parseStreamingIncrement s cs
  (.concat run.2, run.1.buffer)

theorem returned_cons : F.returned s (c :: cs) =
    ((F.parseStreamingIncrement s c).2 ++ (F.returned (F.parseStreamingIncrement s c).1 cs).1,
      (F.returned (F.parseStreamingIncrement s c).1 cs).2) := rfl

/-- Outside the reasoning all that is not held comes out. -/
theorem Regular.returned_outside (hF : F.Regular) (cs : List (List α))
    (hout : s.inReasoning = false)
    (hheld : F.Held s.buffer) (hbegun : F.Begun s (s.buffer ++ cs.flatten)) :
    ∃ n b, F.returned s cs = ({ normalText := n }, b) ∧ F.Held b ∧
      n ++ b = s.buffer ++ cs.flatten := by
  induction cs generalizing s with
  | nil => exact ⟨[], _, rfl, hheld, (append_nil _).symm⟩
  | cons c cs ih =>
    rw [flatten_cons, ← append_assoc] at hbegun ⊢
    obtain ⟨b, n, hparse, hb, hn⟩ :=
      parse_outside hF hout (hbegun.mono (prefix_append _ _).isInfix)
    rw [← hn, append_assoc] at hbegun ⊢
    obtain ⟨n', b', hret, hb', hn'⟩ :=
      ih (s := { s with buffer := b }) hout hb (hbegun.mono (suffix_append n _).isInfix)
    rw [returned_cons, hparse, hret]
    exact ⟨n ++ n', b', rfl, hb', by rw [append_assoc, hn']⟩

/-- What is returned for reasoning in the pieces `cs`. The first piece that completes a
closing marker decides where it ends. -/
inductive Splits (F : BaseReasoningFormatDetector α) (cs : List (List α)) :
    StreamingParseResult α × List α → Prop
  | thinking {t b : List α} (held : F.Held b) (unclosed : F.Unclosed cs.flatten)
      (reasoning : t ++ b = cs.flatten) : Splits F cs ({ reasoningText := t }, b)
  | closed {n b : List α} (as : List (List α)) (c : List α) (bs : List (List α)) (i j : ℕ)
      (held : F.Held b) (pieces : cs = as ++ c :: bs) (before : F.Unclosed as.flatten)
      (close : F.closeAt (as.flatten ++ c) = some (i, j)) (normal : n ++ b = cs.flatten.drop j) :
      Splits F cs (⟨n, cs.flatten.take i⟩, b)

theorem Splits.held {r : StreamingParseResult α × List α} (h : F.Splits cs r) : F.Held r.2 := by
  cases h <;> assumption

/-- The pieces `ps` and `c` are no longer held; `hrest` is about the pieces that follow. -/
theorem Splits.route (hF : F.Regular) (ps cs : List (List α)) (hin : s.inReasoning = true)
    (hcut : ∀ m ∈ F.markers, ¬ Straddles m (ps.flatten ++ c) cs.flatten)
    (hbefore : F.Unclosed ps.flatten)
    (hbegun : F.Begun s cs.flatten) (hrest : F.Splits cs (F.returned { s with buffer := [] } cs)) :
    F.Splits (ps ++ c :: cs)
      ((F.route s (ps.flatten ++ c)).2 ++ (F.returned (F.route s (ps.flatten ++ c)).1 cs).1,
        (F.returned (F.route s (ps.flatten ++ c)).1 cs).2) := by
  have hflat : (ps ++ c :: cs).flatten = ps.flatten ++ c ++ cs.flatten := by simp
  rw [hF.route_inside hin]
  cases hx : F.closeAt (ps.flatten ++ c) with
  | some ij =>
    obtain ⟨i, j⟩ := ij
    obtain ⟨hij, hj⟩ := closeAt_le hx
    obtain ⟨n, b, hret, hheld, hn⟩ := hF.returned_outside cs
      (s := { s with buffer := [], inReasoning := false }) rfl hF.held_nil hbegun
    have hclosed := Splits.closed ps c cs i j hheld rfl hbefore
      hx (by rw [hflat, drop_append_of_le_length hj, append_assoc, hn]; rfl)
    rw [hflat, take_append_of_le_length (hij.trans hj)] at hclosed
    rw [hret, StreamingParseResult.mk_append_mk, append_nil]
    exact hclosed
  | none =>
    have hu := closeAt_eq_none_iff.mp hx
    have hapart {v : List α} (hv : v <+: cs.flatten) :
        ∀ m ∈ F.markers, ¬ Straddles m (ps.flatten ++ c) v :=
      fun m hm hs => hcut m hm (hs.mono_right hv)
    generalize F.returned { s with buffer := [] } cs = r at hrest
    cases hrest with
    | @thinking t b held unclosed reasoning =>
      refine .thinking held ?_ ?_
      · rw [hflat]
        exact hu.append unclosed hcut
      · rw [hflat, append_assoc, reasoning]
    | @closed n b as d bs i j held pieces before close normal =>
      have hcs : cs.flatten = as.flatten ++ (d ++ bs.flatten) := by simp [pieces]
      have hopen := hu.append before (hapart (hcs ▸ prefix_append _ _))
      have hclose := closeAt_append_right hu
        (hapart (v := as.flatten ++ d) (by rw [hcs, ← append_assoc]; exact prefix_append _ _))
      rw [close, Option.map_some] at hclose
      have hclosed := Splits.closed (ps ++ c :: as) d bs _ _ held
        (by simp [pieces] : ps ++ c :: cs = _) (by simpa using hopen)
        (by simpa only [flatten_append, flatten_cons, append_assoc] using hclose)
        (by rw [hflat, drop_length_add_append, normal])
      rwa [hflat, take_length_add_append] at hclosed

theorem Regular.splits_inside (hF : F.Regular) (ps : List (List α)) (hin : s.inReasoning = true)
    (hbuf : s.buffer = ps.flatten) (hheld : F.Held s.buffer)
    (hcut : F.CutsNoMarker (ps ++ cs)) (hbegun : F.Begun s (ps ++ cs).flatten) :
    F.Splits (ps ++ cs) (F.returned s cs) := by
  induction cs generalizing s ps with
  | nil =>
    rw [append_nil]
    exact .thinking hheld (hbuf ▸ hF.unclosed_of_held hheld) hbuf
  | cons c cs ih =>
    rw [returned_cons]
    by_cases hx : F.Held (s.buffer ++ c)
    · have hmore := ih (s := { s with buffer := s.buffer ++ c }) (ps ++ [c]) hin
        (by simp [hbuf]) hx
      rw [append_assoc] at hmore
      rw [parse_of_held hF hx]
      exact hmore hcut hbegun
    · rw [flatten_append, flatten_cons, ← append_assoc, ← hbuf] at hbegun
      have hcs : F.Begun s cs.flatten := hbegun.mono (suffix_append _ _).isInfix
      rw [parse_of_not_held hF hx (hbegun.mono (prefix_append _ _).isInfix), hbuf]
      exact Splits.route hF ps cs hin hcut.behind.1 (hF.unclosed_of_held (hbuf ▸ hheld)) hcs
        (ih [] hin rfl hF.held_nil hcut.behind.2 hcs)

omit [DecidableEq α] in
/-- The first piece that is not empty brings the whole start marker. -/
theorem Regular.exists_start (hF : F.Regular) (hcut : F.CutsNoMarker cs)
    (hpre : F.thinkStartToken <+: cs.flatten) :
    ∃ es d rest, cs = es ++ (F.thinkStartToken ++ d) :: rest ∧ es.flatten = [] := by
  induction cs with
  | nil => exact absurd (prefix_nil.mp hpre) (hF.marker_ne _ start_mem_markers)
  | cons c cs ih =>
    by_cases hc : c = []
    · subst hc
      obtain ⟨es, d, rest, rfl, hes⟩ :=
        ih (fun m hm as bs h => hcut m hm ([] :: as) bs (congrArg _ h)) hpre
      exact ⟨[] :: es, d, rest, rfl, hes⟩
    · rcases prefix_append_cases hpre with ⟨d, rfl⟩ | ⟨y, hy, hcy, hyv⟩
      · exact ⟨[], d, cs, rfl, rfl⟩
      · refine absurd ⟨c, y, hc, hy, hcy, ?_, hyv⟩ (hcut _ start_mem_markers [c] cs rfl)
        rw [flatten_singleton]

/-- Empty pieces change nothing. -/
theorem Regular.returned_blank (hF : F.Regular) {es : List (List α)} (hes : es.flatten = []) :
    F.returned F.init (es ++ cs) = F.returned F.init cs := by
  induction es with
  | nil => rfl
  | cons e es ih =>
    obtain ⟨rfl, hes⟩ := append_eq_nil_iff.mp hes
    have hheld : F.Held (F.init.buffer ++ []) := hF.held_nil
    rw [cons_append, returned_cons, parse_of_held hF hheld]
    exact ih hes

end Reading

section Agreement

variable [DecidableEq α] {cs : List (List α)} {r : StreamingParseResult α × List α}

/-- A text `one` in two parts is what has been returned, `out`, with the held
text at the end of one of the parts. -/
def UpToHeld (one out : StreamingParseResult α) (held : List α) : Prop :=
  one.reasoningText = out.reasoningText ++ held ∧ one.normalText = out.normalText ∨
    one.reasoningText = out.reasoningText ∧ one.normalText = out.normalText ++ held

/-- Streaming the pieces gives what the one-shot detector gives on their text,
except for a final held text that is a proper prefix of a marker. -/
def AgreesWithOneShot (F : BaseReasoningFormatDetector α) (cs : List (List α)) : Prop :=
  let run := feed F.parseStreamingIncrement F.init cs
  F.Held run.1.buffer ∧ UpToHeld (F.detectAndParse F.init cs.flatten) (.concat run.2) run.1.buffer

/-- After some of the pieces a tool-start marker is complete and no end marker
is, although one follows. -/
def ToolBeforeEnd (F : BaseReasoningFormatDetector α) (cs : List (List α)) : Prop :=
  ∃ as, as <+: cs ∧ F.HasTool (F.body as.flatten) ∧
    ¬ F.thinkEndToken <:+: F.body as.flatten ∧ F.thinkEndToken <:+: F.body cs.flatten

/-- The same for pieces of the reasoning itself. -/
def ToolFirst (F : BaseReasoningFormatDetector α) (cs : List (List α)) : Prop :=
  ∃ n ≤ cs.length, F.HasTool (cs.take n).flatten ∧ ¬ F.thinkEndToken <:+: (cs.take n).flatten ∧
    F.thinkEndToken <:+: cs.flatten

theorem toolBeforeEnd_iff_exists_take (cs : List (List α)) : F.ToolBeforeEnd cs ↔
    ∃ n ≤ cs.length, F.HasTool (F.body (cs.take n).flatten) ∧
      ¬ F.thinkEndToken <:+: F.body (cs.take n).flatten ∧
      F.thinkEndToken <:+: F.body cs.flatten := by
  constructor
  · rintro ⟨as, hpre, h⟩
    refine ⟨as.length, hpre.length_le, ?_⟩
    rwa [← prefix_iff_eq_take.mp hpre]
  · rintro ⟨n, -, h⟩
    exact ⟨cs.take n, take_prefix n cs, h⟩

theorem length_splitAtClose {t : List α} (h : F.thinkEndToken <:+: t) :
    (F.splitAtClose t).reasoningText.length + F.thinkEndToken.length +
      (F.splitAtClose t).normalText.length = t.length := by
  obtain ⟨e, he⟩ := Option.isSome_iff_exists.mp (find_isSome_iff.mpr h)
  have hle := find_add_length_le he
  simp only [splitAtClose, closeAt_of_find he, length_take, length_drop]
  omega

omit [DecidableEq α] in
/-- Of the pieces up to the one that closes, none before it holds a tool marker,
and those from it on hold the end marker. -/
theorem not_toolFirst_of_close {as bs : List (List α)} {c : List α}
    (hbefore : F.Unclosed as.flatten) (hE : F.thinkEndToken <:+: as.flatten ++ c) :
    ¬ F.ToolFirst (as ++ c :: bs) := by
  rintro ⟨n, -, ⟨w, hw, hwin⟩, hnot, -⟩
  have hflat : (as ++ [c]).flatten = as.flatten ++ c := by simp
  have hac : as ++ [c] <+: as ++ c :: bs := ⟨bs, by simp⟩
  rcases prefix_or_prefix_of_prefix (List.take_prefix n _) hac with hshort | hlong
  · rcases prefix_concat_iff.mp hshort with heq | hin
    · exact hnot (by rwa [heq, hflat])
    · exact hbefore.2 ⟨w, hw, hwin.trans hin.flatten.isInfix⟩
  · exact hnot ((hflat ▸ hE).trans hlong.flatten.isInfix)

/-- What was returned is right exactly when no tool marker came first. -/
theorem Splits.upToHeld_iff (hF : F.Regular) (h : F.Splits cs r) :
    UpToHeld (F.splitAtClose cs.flatten) r.1 r.2 ↔ ¬ F.ToolFirst cs := by
  cases h with
  | thinking held unclosed reasoning =>
    refine iff_of_true (Or.inl ?_) fun ⟨_, _, _, _, hE⟩ => unclosed.1 hE
    rw [splitAtClose, closeAt_eq_none_iff.mpr unclosed, reasoning]
    exact ⟨rfl, rfl⟩
  | @closed n b as c bs i j held pieces before close normal =>
    -- When both detectors close at the same place they return the same texts.
    have hsame : F.closeAt cs.flatten = some (i, j) →
        UpToHeld (F.splitAtClose cs.flatten) ⟨n, cs.flatten.take i⟩ b := by
      intro hcl
      rw [splitAtClose, hcl]
      exact Or.inr ⟨rfl, normal.symm⟩
    have hcs : cs.flatten = as.flatten ++ c ++ bs.flatten := by simp [pieces]
    cases hE : find F.thinkEndToken (as.flatten ++ c) with
    | some k =>
      have hEin := find_isSome_iff.mp (Option.isSome_iff_exists.mpr ⟨k, hE⟩)
      refine iff_of_true (hsame ?_) (pieces ▸ not_toolFirst_of_close before hEin)
      rw [hcs, closeAt_of_find (find_append_left hE), ← closeAt_of_find hE, close]
    | none =>
      have hnot := find_eq_none_iff.mp hE
      rw [closeAt_of_absent hnot, Option.map_eq_some_iff] at close
      obtain ⟨k, hk, hkk⟩ := close
      obtain ⟨rfl, rfl⟩ : k = i ∧ k = j := by simpa using hkk
      by_cases hlater : F.thinkEndToken <:+: cs.flatten
      · -- The one-shot detector drops the end marker, the calls keep it.
        refine iff_of_false ?_ ?_
        · intro hup
          have hone := length_splitAtClose hlater
          have hpos := length_pos_iff.mpr (hF.marker_ne _ end_mem_markers)
          have hn := congrArg List.length normal
          have hlen := congrArg List.length hcs
          simp only [length_append, length_drop] at hn hlen
          rcases hup with ⟨h1, h2⟩ | ⟨h1, h2⟩
          all_goals
            have h1' := congrArg List.length h1
            have h2' := congrArg List.length h2
            simp only [length_append, length_take] at h1' h2'
            omega
        · rw [not_not]
          have htake : cs.take (as.length + 1) = as ++ [c] := by simp [pieces, take_append]
          refine ⟨as.length + 1, by simp [pieces], ?_⟩
          rw [htake, flatten_append, flatten_singleton]
          refine ⟨?_, hnot, hlater⟩
          by_contra hno
          rw [findTool_eq_none_iff.mpr hno] at hk
          cases hk
      · refine iff_of_true (hsame ?_) fun ⟨_, _, _, _, hE'⟩ => hlater hE'
        rw [closeAt_of_absent hlater, hcs, findTool_append_left hk]
        rfl

/-- The pieces `ds` are those of the reasoning in `cs`. -/
theorem Splits.agrees {ds : List (List α)} (hF : F.Regular) (h : F.Splits ds (F.returned F.init cs))
    (hstart : ¬ F.thinkStartToken <:+: cs.flatten.tail)
    (hopens : F.forceReasoning = true ∨ F.thinkStartToken <+: cs.flatten)
    (hlen : ds.length = cs.length)
    (hbody : ∀ n, F.body (cs.take n).flatten = (ds.take n).flatten) :
    F.AgreesWithOneShot cs ↔
      ¬ ((F.forceReasoning = true ∨ F.thinkStartToken <+: cs.flatten) ∧ F.ToolBeforeEnd cs) := by
  change F.Held (F.returned F.init cs).2 ∧
    UpToHeld _ (F.returned F.init cs).1 (F.returned F.init cs).2 ↔ _
  have hall : F.body cs.flatten = ds.flatten := by
    have hn := hbody cs.length
    rwa [take_length, ← hlen, take_length] at hn
  rw [and_iff_right h.held, hF.detectAndParse_inside hstart hopens, hall, h.upToHeld_iff hF,
    and_iff_right hopens, toolBeforeEnd_iff_exists_take, ToolFirst, hall]
  simp only [hbody, hlen]

/-- Streaming equals one-shot splitting exactly when, inside the reasoning, no
tool-start marker is complete at the end of a piece that an end marker follows
later only. -/
theorem agreesWithOneShot_iff (hF : F.Regular) (cs : List (List α))
    (hstart : ¬ F.thinkStartToken <:+: cs.flatten.tail) (hcut : F.CutsNoMarker cs) :
    F.AgreesWithOneShot cs ↔
      ¬ ((F.forceReasoning = true ∨ F.thinkStartToken <+: cs.flatten) ∧ F.ToolBeforeEnd cs) := by
  by_cases hpre : F.thinkStartToken <+: cs.flatten
  · obtain ⟨es, d, rest, rfl, hes⟩ := hF.exists_start hcut hpre
    have hsplit : F.Splits (es ++ d :: rest)
        (F.returned F.init (es ++ (F.thinkStartToken ++ d) :: rest)) := by
      obtain ⟨happ, hrest⟩ := hcut.behind
      have hx : es.flatten ++ d = d := by rw [hes, nil_append]
      have hroute := Splits.route (c := d)
        (s := ⟨F.thinkStartToken ++ d, true, true⟩) hF es rest rfl
        (fun m hm hs => happ m hm (hs.mono_left (by simp [hes])))
        (hes ▸ hF.unclosed_of_held hF.held_nil) (Or.inl rfl)
        (hF.splits_inside [] rfl rfl hF.held_nil hrest (Or.inl rfl))
      rw [hx] at hroute
      rw [hF.returned_blank hes, returned_cons, hF.parse_start]
      exact hroute
    refine hsplit.agrees hF hstart (Or.inr hpre) (by simp) fun n => ?_
    by_cases hn : n ≤ es.length
    · have hnil : (es.take n).flatten = [] := prefix_nil.mp (hes ▸ (List.take_prefix n es).flatten)
      rw [take_append_of_le_length hn, take_append_of_le_length hn, hnil,
        suffix_nil.mp (body_suffix [])]
    · obtain ⟨k, rfl⟩ : ∃ k, n = es.length + (k + 1) := ⟨n - es.length - 1, by omega⟩
      simp only [take_length_add_append, take_succ_cons, flatten_append, hes, nil_append,
        flatten_cons, append_assoc]
      rw [body, if_pos (prefix_append _ _), drop_left]
  · have hno : ¬ F.thinkStartToken <:+: cs.flatten :=
      fun h => hpre ((infix_iff_prefix_of_tail hstart).mp h)
    by_cases hforce : F.forceReasoning = true
    · have hsplit : F.Splits cs (F.returned F.init cs) := hF.splits_inside []
        (by rw [hF.init_eq, hforce]) rfl hF.held_nil hcut (Or.inr hno)
      exact hsplit.agrees hF hstart (Or.inl hforce) rfl fun n =>
        body_of_not_starts fun h => hno (h.trans (List.take_prefix n cs).flatten).isInfix
    · refine iff_of_true ?_ (by simp [hforce, hpre])
      rw [Bool.not_eq_true] at hforce
      obtain ⟨n, b, hret, hheld, hn⟩ := hF.returned_outside cs (s := F.init)
        (by rw [hF.init_eq, hforce]) hF.held_nil (Or.inr hno)
      change F.Held (F.returned F.init cs).2 ∧
        UpToHeld _ (F.returned F.init cs).1 (F.returned F.init cs).2
      rw [hret, hF.detectAndParse_outside hstart hforce hpre]
      exact ⟨hheld, Or.inr ⟨rfl, hn.symm⟩⟩

instance (cs : List (List α)) : Decidable (F.CutsNoMarker cs) :=
  inferInstanceAs (Decidable (∀ m ∈ F.markers, Uncut m cs))

instance (t : List α) : Decidable (F.Held t) :=
  inferInstanceAs (Decidable (∃ m ∈ F.markers, t <+: m ∧ t ≠ m))

instance (one out : StreamingParseResult α) (held : List α) :
    Decidable (UpToHeld one out held) :=
  inferInstanceAs (Decidable (_ ∧ _ ∨ _ ∧ _))

instance (cs : List (List α)) : Decidable (F.AgreesWithOneShot cs) :=
  inferInstanceAs (Decidable (F.Held _ ∧ UpToHeld _ _ _))

instance (t : List α) : Decidable (F.HasTool t) :=
  decidable_of_iff ((F.findTool t).isSome = true) <| by
    rw [Option.isSome_iff_ne_none, ne_eq, findTool_eq_none_iff, not_not]

instance (cs : List (List α)) : Decidable (F.ToolBeforeEnd cs) :=
  decidable_of_iff _ (toolBeforeEnd_iff_exists_take cs).symm

end Agreement

theorem qwen3Detector_regular (force : Bool) : (qwen3Detector force true).Regular := by
  cases force
  all_goals
    exact ⟨rfl, rfl, rfl, by decide, by decide⟩

/-- A tool call that the model opens after it has closed its reasoning. -/
theorem agreesWithOneShot_toolAfterEnd : (qwen3Detector false true).AgreesWithOneShot
      ["<think>a".toList, "b</think>c<tool_call>".toList, "<".toList] := by
  refine (agreesWithOneShot_iff (qwen3Detector_regular false) _ ?_ ?_).mpr ?_ <;> decide

/-- The tool call arrives first and ends the reasoning of the stream; the
one-shot detector splits the same text at the end marker that follows. -/
theorem not_agreesWithOneShot_toolBeforeEnd :
    let F := qwen3Detector false true
    let cs := ["<think>a<tool_call>".toList, "b</think>c".toList]
    F.Regular ∧ ¬ F.thinkStartToken <:+: cs.flatten.tail ∧ F.CutsNoMarker cs ∧
      ¬ F.AgreesWithOneShot cs :=
  ⟨qwen3Detector_regular false, by decide, by decide, by decide⟩

end BaseReasoningFormatDetector

end Sglang.Parser
