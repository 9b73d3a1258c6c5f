import Sglang.Parser.ApertusStream

/-!
# The Apertus stream against its block sequence

The one-shot side ends a section at its first end marker; the streaming side
does not look for it inside a tool block. They agree exactly when no section
that is closed leaves a tool block open.
-/

namespace Sglang.Parser

open Sglang.Support List
open StreamingParseResult (append_empty empty_append normalText_append mk_append_mk)

namespace Apertus2509Detector

section Blocks

/-- The text blocks and the reasoning blocks, each concatenated. -/
def joinBlocks (bs : List Block) : StreamingParseResult Char where
  normalText := (bs.filter (·.1 = .text)).flatMap Prod.snd
  reasoningText := (bs.filter (·.1 = .reasoning)).flatMap Prod.snd

@[simp] theorem joinBlocks_nil : joinBlocks [] = {} := rfl

@[simp] theorem joinBlocks_cons_text (t : List Char) (bs : List Block) :
    joinBlocks ((.text, t) :: bs) = { normalText := t } ++ joinBlocks bs := rfl

@[simp] theorem joinBlocks_cons_reasoning (t : List Char) (bs : List Block) :
    joinBlocks ((.reasoning, t) :: bs) = { reasoningText := t } ++ joinBlocks bs := rfl

theorem joinBlocks_append (bs bs' : List Block) :
    joinBlocks (bs ++ bs') = joinBlocks bs ++ joinBlocks bs' := by
  simp [joinBlocks, mk_append_mk]

theorem joinBlocks_optional (kind : BlockKind) (t : List Char) (s : ℕ) :
    joinBlocks (if s > 0 then [(kind, t.take s)] else []) = joinBlocks [(kind, t.take s)] := by
  split
  · rfl
  · obtain rfl : s = 0 := by omega
    cases kind <;> rfl

/-- Dropping empty text blocks changes no text. -/
theorem joinBlocks_dropEmptyText (bs : List Block) :
    joinBlocks (dropEmptyText bs) = joinBlocks bs := by
  unfold dropEmptyText
  generalize bs.length - 1 = last
  suffices h : ∀ k, joinBlocks ((bs.zipIdx k).filterMap fun bi =>
      if bi.1.1 = .text ∧ bi.1.2 = [] ∧ bi.2 ≠ last then none else some bi.1) = joinBlocks bs
        from h 0
  induction bs with
  | nil => exact fun _ => rfl
  | cons b bs ih =>
    intro k
    rw [zipIdx_cons, filterMap_cons]
    obtain ⟨kind, t⟩ := b
    dsimp only
    by_cases hb : kind = .text ∧ t = [] ∧ k ≠ last
    · rw [if_pos hb]
      obtain ⟨rfl, rfl, -⟩ := hb
      exact ih (k + 1)
    · rw [if_neg hb]
      cases kind with
      | reasoning => rw [joinBlocks_cons_reasoning, joinBlocks_cons_reasoning, ih]
      | text => rw [joinBlocks_cons_text, joinBlocks_cons_text, ih]

end Blocks

section Section

/-- Every tool block that starts in the text ends in it. -/
def ToolsEnded (x : List Char) : Prop := ∀ p, toolStart <+: x.drop p → toolEnd <:+: x.drop p

variable {x w : List Char} {s e : ℕ}

theorem ToolsEnded.drop (h : ToolsEnded x) (n : ℕ) : ToolsEnded (x.drop n) := by
  intro p hp
  rw [drop_drop] at hp ⊢
  exact h _ hp

theorem not_infix_drop {p : List Char} (h : ¬ p <:+: x) (n : ℕ) : ¬ p <:+: x.drop n :=
  fun hin => h (hin.trans (drop_suffix n x).isInfix)

/-- An end marker after a text without one is the first. -/
theorem find_endTok_section (hx : ¬ endTok <:+: x) (w : List Char) :
    find endTok (x ++ (endTok ++ w)) = some x.length :=
  headed_endTok.find_append hx w

/-- The round of the reader at the first tool block of a section. -/
theorem next_section_tool (hx : ¬ endTok <:+: x) (hs : find toolStart x = some s) :
    next .thinking (x ++ (endTok ++ w)) =
      some ⟨{ reasoningText := x.take s }, .tool, x.drop s ++ (endTok ++ w)⟩ := by
  have hle := find_add_length_le hs
  have hpos : 0 < toolStart.length := by decide
  rw [next_thinking_tool (find_append_left hs) ?_]
  · rw [toolAt, take_append_of_le_length (by omega), drop_append_of_le_length (by omega)]
  · intro e he
    rw [find_endTok_section hx] at he
    obtain rfl : x.length = e := by simpa using he
    omega

/-- The round of the reader at the end of a section without tool blocks. -/
theorem next_section_end (hx : ¬ endTok <:+: x) (hs : find toolStart x = none) :
    next .thinking (x ++ (endTok ++ w)) = some ⟨{ reasoningText := x }, .outside, w⟩ := by
  rw [next_thinking_end (find_endTok_section hx w) ?_]
  · rw [endAt, take_left, drop_length_add_append, drop_left]
  · intro s hs'
    have hhead : endTok.head? = toolStart.head? := by decide
    rw [find_append_right (find_eq_none_iff.mp hs) (headed_toolStart.not_straddles hhead),
      Option.mem_def, Option.map_eq_some_iff] at hs'
    obtain ⟨s', -, rfl⟩ := hs'
    exact Nat.le_add_right _ _

/-- The round of the reader at the end of a tool block. -/
theorem next_tool_end {v : List Char} (he : find toolEnd x = some e) :
    next .tool (x ++ v) = some ⟨{ normalText := x.take (e + toolEnd.length) }, .thinking,
      x.drop (e + toolEnd.length) ++ v⟩ := by
  have hx : next .tool x = some ⟨{ normalText := x.take (e + toolEnd.length) }, .thinking,
      x.drop (e + toolEnd.length)⟩ := by
    rw [next, he]
    rfl
  exact next_append hx

theorem splitInnerLoop_of_none (n : ℕ) (h : find toolStart x = none) :
    joinBlocks (splitInnerLoop (n + 1) x) = { reasoningText := x } := by
  rw [splitInnerLoop, h]
  dsimp only
  split
  · rw [joinBlocks_cons_reasoning, joinBlocks_nil, append_empty]
  · simp_all

theorem splitInnerLoop_of_open (n : ℕ) (h : find toolStart x = some s)
    (he : find toolEnd (x.drop s) = none) : joinBlocks (splitInnerLoop (n + 1) x) =
      { reasoningText := x.take s } ++ { normalText := x.drop s } := by
  rw [splitInnerLoop, h]
  dsimp only
  rw [he, joinBlocks_append, joinBlocks_optional, joinBlocks_cons_text,
    joinBlocks_cons_reasoning, joinBlocks_nil, append_empty, append_empty]

theorem splitInnerLoop_of_block (n : ℕ)
    (h : find toolStart x = some s) (he : find toolEnd (x.drop s) = some e) :
    joinBlocks (splitInnerLoop (n + 1) x) =
      { reasoningText := x.take s } ++
        ({ normalText := (x.drop s).take (e + toolEnd.length) } ++
          joinBlocks (splitInnerLoop n ((x.drop s).drop (e + toolEnd.length)))) := by
  rw [splitInnerLoop, h]
  dsimp only
  rw [he, joinBlocks_append, joinBlocks_optional, joinBlocks_cons_text,
    joinBlocks_cons_reasoning, joinBlocks_nil, append_empty]

theorem length_after_block (hs : find toolStart x = some s) :
    ((x.drop s).drop (e + toolEnd.length)).length < x.length := by
  have hle := find_add_length_le hs
  have hpos : 0 < toolStart.length := by decide
  have hpos' : 0 < toolEnd.length := by decide
  simp only [length_drop]
  omega

/-- A section that is not closed. -/
theorem total_open_section (n : ℕ) (hlen : x.length < n) (hx : ¬ endTok <:+: x) :
    (total .thinking x).1 = joinBlocks (splitInnerLoop n x) := by
  induction n generalizing x with
  | zero => exact absurd hlen (Nat.not_lt_zero _)
  | succ n ih =>
    have hend := find_eq_none_iff.mpr hx
    cases hs : find toolStart x with
    | none =>
      rw [total_of_none (next_thinking_eq_none.mpr ⟨hs, hend⟩), splitInnerLoop_of_none n hs]
      rfl
    | some s =>
      rw [total_of_some (next_thinking_tool hs (by simp [hend]))]
      cases he : find toolEnd (x.drop s) with
      | none =>
        have hnone : next .tool (x.drop s) = none := by rw [next, he]; rfl
        rw [splitInnerLoop_of_open n hs he]
        simp only [toolAt, total_of_none hnone]
        rfl
      | some e =>
        have hlt := length_after_block (e := e) hs
        have hnext := next_tool_end (v := []) he
        simp only [append_nil] at hnext
        have hrec := ih (x := (x.drop s).drop (e + toolEnd.length)) (by omega)
          (not_infix_drop (not_infix_drop hx _) _)
        rw [splitInnerLoop_of_block n hs he, ← hrec]
        simp [toolAt, total_of_some hnext]

/-- A tool block of the section that ends anywhere ends inside it. -/
def ToolsKept (x w : List Char) : Prop :=
  ∀ p, toolStart <+: x.drop p → toolEnd <:+: (x ++ (endTok ++ w)).drop p → toolEnd <:+: x.drop p

theorem drop_section {p : ℕ} (hp : toolStart <+: x.drop p) :
    p < x.length ∧ (x ++ (endTok ++ w)).drop p = x.drop p ++ (endTok ++ w) := by
  have hlt : p < x.length := by
    by_contra h
    rw [drop_eq_nil_of_le (by omega), prefix_nil] at hp
    exact headed_toolStart.ne_nil hp
  exact ⟨hlt, drop_append_of_le_length hlt.le⟩

theorem ToolsKept.drop (h : ToolsKept x w) (n : ℕ) : ToolsKept (x.drop n) w := by
  intro p hp hin
  rw [(drop_section hp).2] at hin
  rw [drop_drop] at hp hin ⊢
  refine h (n + p) hp ?_
  rwa [(drop_section hp).2]

/-- After a complete tool block another marker starts only behind it. -/
theorem exists_add_of_open {y : List Char} {p : ℕ} (he : find toolEnd y = some e)
    (hp : toolStart <+: y.drop p) (hopen : ¬ toolEnd <:+: y.drop p) :
    ∃ k, p = e + toolEnd.length + k := by
  have hend := prefix_drop_of_find he
  rcases Nat.lt_or_ge e p with hlt | hle
  · exact Nat.exists_eq_add_of_le (headed_toolEnd.add_length_le (by decide) hend hp hlt)
  · -- The block's own end marker is still ahead.
    exact absurd (hend.isInfix.trans (drop_suffix_drop_left y hle).isInfix) hopen

theorem ToolsEnded.iff_after_block (hs : find toolStart x = some s)
    (he : find toolEnd (x.drop s) = some e) :
    ToolsEnded x ↔ ToolsEnded ((x.drop s).drop (e + toolEnd.length)) := by
  refine ⟨fun h => (h.drop s).drop _, fun h p hp => ?_⟩
  by_contra hopen
  -- An open block starts behind the complete one.
  obtain ⟨p', rfl⟩ := Nat.exists_eq_add_of_le (find_le_of_prefix_drop hs hp)
  rw [← drop_drop] at hp hopen
  obtain ⟨k, rfl⟩ := exists_add_of_open he hp hopen
  rw [← drop_drop] at hp hopen
  exact hopen (h k hp)

/-- A closed section: its tool blocks are closed in it and the reader leaves it,
or one stays open and the stream passes on all that follows, the end marker of
the section included. -/
theorem total_section (n : ℕ) (w : List Char) (hlen : x.length < n)
    (hx : ¬ endTok <:+: x) (hkept : ToolsKept x w) :
    (ToolsEnded x ∧ total .thinking (x ++ (endTok ++ w)) =
      (joinBlocks (splitInnerLoop n x) ++ (total .outside w).1, (total .outside w).2)) ∨
    (¬ ToolsEnded x ∧ (total .thinking (x ++ (endTok ++ w))).1.normalText.length =
      (joinBlocks (splitInnerLoop n x)).normalText.length + (endTok.length + w.length)) := by
  induction n generalizing x with
  | zero => exact absurd hlen (Nat.not_lt_zero _)
  | succ n ih =>
    cases hs : find toolStart x with
    | none =>
      refine Or.inl ⟨fun p hp => absurd hp.isInfix (not_infix_drop (find_eq_none_iff.mp hs) p), ?_⟩
      rw [total_of_some (next_section_end hx hs), splitInnerLoop_of_none n hs]
    | some s =>
      have hstart := prefix_drop_of_find hs
      rw [total_of_some (next_section_tool hx hs)]
      cases he : find toolEnd (x.drop s) with
      | none =>
        have hopen := find_eq_none_iff.mp he
        have hnone : next .tool (x.drop s ++ (endTok ++ w)) = none := by
          rw [next, Option.map_eq_none_iff, find_eq_none_iff, ← (drop_section hstart).2]
          exact fun hE => hopen (hkept s hstart hE)
        refine Or.inr ⟨fun hT => hopen (hT s hstart), ?_⟩
        rw [splitInnerLoop_of_open n hs he]
        simp [total_of_none hnone, channel, normalText_append]
      | some e =>
        have hlt := length_after_block (e := e) hs
        rw [ToolsEnded.iff_after_block hs he, total_of_some (next_tool_end he),
          splitInnerLoop_of_block n hs he]
        rcases ih (x := (x.drop s).drop (e + toolEnd.length)) (by omega)
          (not_infix_drop (not_infix_drop hx _) _) ((hkept.drop _).drop _) with ⟨hT, h⟩ | ⟨hT, h⟩
        · refine Or.inl ⟨hT, ?_⟩
          rw [h]
          simp [StreamingParseResult.append_assoc]
        · refine Or.inr ⟨hT, ?_⟩
          simp only [normalText_append, length_append, nil_append, h]
          omega

end Section

section Agreement

/-- The blocks of a text that begins inside a section. -/
def sectionBlocks (n : ℕ) (inner : List Char) : List Block :=
  match find endTok inner with
  | none => splitInnerReasoning inner ++ [(.text, [])]
  | some e => splitInnerReasoning (inner.take e) ++ blockLoop n (inner.drop (e + endTok.length))

/-- For each section of a text, the text from its beginning on. -/
def sectionTails : ℕ → List Char → List (List Char)
  | 0, _ => []
  | n + 1, rest =>
    match find startTok rest with
    | none => []
    | some s =>
      let inner := rest.drop (s + startTok.length)
      inner ::
        match find endTok inner with
        | none => []
        | some e => sectionTails n (inner.drop (e + endTok.length))

/-- The same for a text that begins inside a section. -/
def tailsInside (n : ℕ) (inner : List Char) : List (List Char) :=
  inner ::
    match find endTok inner with
    | none => []
    | some e => sectionTails n (inner.drop (e + endTok.length))

/-- No end marker occurs between a tool block's start and its end. -/
def EndsOutsideTools (r : List Char) : Prop :=
  ∀ e ∈ find endTok r, ∀ p < e, toolStart <+: r.drop p → ∀ q ∈ find toolEnd (r.drop p), p + q < e

/-- No tool block is left open when the section is closed. -/
def LeavesNoToolOpen (r : List Char) : Prop :=
  ∀ e ∈ find endTok r, ∀ p < e, toolStart <+: r.drop p → toolEnd <:+: r.drop p

variable {x w r : List Char}

theorem exists_first {p : List Char} (hp : Headed p) (h : p <:+: r) :
    ∃ x w, r = x ++ (p ++ w) ∧ ¬ p <:+: x := by
  obtain ⟨e, he⟩ := Option.isSome_iff_exists.mp (find_isSome_iff.mpr h)
  exact ⟨_, _, (take_append_find he).symm, not_infix_take_of_find hp.ne_nil he⟩

theorem EndsOutsideTools.toolsKept (hx : ¬ endTok <:+: x)
    (h : EndsOutsideTools (x ++ (endTok ++ w))) : ToolsKept x w := by
  intro p hp hin
  obtain ⟨hlt, hdrop⟩ := drop_section hp
  obtain ⟨q, hq⟩ := Option.isSome_iff_exists.mp (find_isSome_iff.mpr hin)
  have hpre : toolStart <+: (x ++ (endTok ++ w)).drop p := by
    rw [hdrop]
    exact hp.trans (prefix_append _ _)
  have hbound := h x.length (find_endTok_section hx w) p hlt hpre q hq
  by_contra hno
  have hhead : endTok.head? = toolEnd.head? := by decide
  rw [hdrop, find_append_right hno (headed_toolEnd.not_straddles hhead),
    Option.map_eq_some_iff] at hq
  obtain ⟨q', -, rfl⟩ := hq
  rw [length_drop] at hbound
  omega

theorem leavesNoToolOpen_iff (hx : ¬ endTok <:+: x) (hkept : ToolsKept x w) :
    LeavesNoToolOpen (x ++ (endTok ++ w)) ↔ ToolsEnded x := by
  constructor
  · intro h p hp
    obtain ⟨hlt, hdrop⟩ := drop_section hp
    refine hkept p hp (h x.length (find_endTok_section hx w) p hlt ?_)
    rw [hdrop]
    exact hp.trans (prefix_append _ _)
  · intro h e he p hlt hp
    obtain rfl : x.length = e := Option.some.inj ((find_endTok_section hx w).symm.trans he)
    rw [drop_append_of_le_length hlt.le] at hp ⊢
    rcases prefix_append_cases hp with hin | ⟨y, hy, hxy, hyv⟩
    · exact (h p hin).trans (prefix_append _ _).isInfix
    · have hne : x.drop p ≠ [] := by
        intro h0
        have := congrArg List.length h0
        rw [length_drop, length_nil] at this
        omega
      have hhead : endTok.head? = toolStart.head? := by decide
      exact absurd ⟨x.drop p, y, hne, hy, hxy, suffix_refl _, hyv⟩
        (headed_toolStart.not_straddles hhead)

theorem joinBlocks_blockLoop_some (n : ℕ) (hx : ¬ startTok <:+: x) :
    joinBlocks (blockLoop (n + 1) (x ++ (startTok ++ r))) =
      { normalText := x } ++ joinBlocks (sectionBlocks n r) := by
  rw [blockLoop, headed_startTok.find_append hx]
  rw [joinBlocks_append, joinBlocks_optional, joinBlocks_cons_text, joinBlocks_nil, append_empty,
    take_left, drop_length_add_append]
  rfl

theorem joinBlocks_sectionBlocks_none (n : ℕ) (he : ¬ endTok <:+: r) :
    joinBlocks (sectionBlocks n r) = joinBlocks (splitInnerReasoning r) := by
  rw [sectionBlocks, find_eq_none_iff.mpr he]
  rw [joinBlocks_append]
  exact append_empty _

theorem joinBlocks_sectionBlocks_some (n : ℕ) (hx : ¬ endTok <:+: x) :
    joinBlocks (sectionBlocks n (x ++ (endTok ++ w))) =
      joinBlocks (splitInnerReasoning x) ++ joinBlocks (blockLoop n w) := by
  rw [sectionBlocks, find_endTok_section hx]
  rw [joinBlocks_append, take_left, drop_length_add_append, drop_left]

theorem sectionTails_some (n : ℕ) (hx : ¬ startTok <:+: x) :
    sectionTails (n + 1) (x ++ (startTok ++ r)) = tailsInside n r := by
  rw [sectionTails, headed_startTok.find_append hx]
  dsimp only
  rw [drop_length_add_append]
  rfl

theorem total_outside_some (hx : ¬ startTok <:+: x) : total .outside (x ++ (startTok ++ r)) =
    ({ normalText := x } ++ (total .thinking r).1, (total .thinking r).2) := by
  refine total_of_some (x := ⟨{ normalText := x }, .thinking, r⟩) ?_
  rw [next, headed_startTok.find_append hx, Option.map_some, take_left, drop_length_add_append,
    drop_left]

/-- The conditions under which the two sides agree on every section. -/
def Sound (rs : List (List Char)) : Prop := ∀ r ∈ rs, EndsOutsideTools r ∧ LeavesNoToolOpen r

def AllClosed (rs : List (List Char)) : Prop := ∀ r ∈ rs, endTok <:+: r

/-- The two sides agree on the text after a mode change, and end outside when
every section is closed. -/
def AgreeOn (m : Mode) (t : List Char) (blocks : List Block) (tails : List (List Char)) : Prop :=
  (total m t).1 = joinBlocks blocks ∧ (AllClosed tails → (total m t).2 = .outside)

theorem tailsInside_some (n : ℕ) (hx : ¬ endTok <:+: x) :
    tailsInside n (x ++ (endTok ++ w)) = (x ++ (endTok ++ w)) :: sectionTails n w := by
  rw [tailsInside, find_endTok_section hx]
  dsimp only
  rw [drop_length_add_append, drop_left]

theorem length_normalText_splitInnerLoop (n : ℕ) (x : List Char) :
    (joinBlocks (splitInnerLoop n x)).normalText.length ≤ x.length := by
  induction n generalizing x with
  | zero => exact Nat.zero_le _
  | succ n ih =>
    cases hs : find toolStart x with
    | none =>
      rw [splitInnerLoop_of_none n hs]
      exact Nat.zero_le _
    | some s =>
      cases he : find toolEnd (x.drop s) with
      | none =>
        rw [splitInnerLoop_of_open n hs he]
        simp only [normalText_append, nil_append, length_drop]
        omega
      | some e =>
        have hrec := ih ((x.drop s).drop (e + toolEnd.length))
        rw [splitInnerLoop_of_block n hs he]
        simp only [normalText_append, nil_append, length_append, length_take, length_drop] at hrec ⊢
        omega

theorem length_normalText_blockLoop (n : ℕ) (t : List Char) :
    (joinBlocks (blockLoop n t)).normalText.length ≤ t.length := by
  induction n generalizing t with
  | zero => exact Nat.zero_le _
  | succ n ih =>
    by_cases hs : startTok <:+: t
    · obtain ⟨x, r, rfl, hx⟩ := exists_first headed_startTok hs
      rw [joinBlocks_blockLoop_some n hx]
      by_cases he : endTok <:+: r
      · obtain ⟨y, w, rfl, hy⟩ := exists_first headed_endTok he
        have hin := length_normalText_splitInnerLoop (y.length + 1) y
        have hrec := ih w
        rw [joinBlocks_sectionBlocks_some n hy]
        simp only [normalText_append, length_append, splitInnerReasoning]
        omega
      · have hin := length_normalText_splitInnerLoop (r.length + 1) r
        rw [joinBlocks_sectionBlocks_none n he]
        simp only [normalText_append, length_append, splitInnerReasoning]
        omega
    · rw [blockLoop, find_eq_none_iff.mpr hs]
      exact (congrArg List.length (append_nil t)).le

/-- The stream keeps more normal text than the blocks have. -/
def KeepsMore (m : Mode) (t : List Char) (blocks : List Block) : Prop :=
  (joinBlocks blocks).normalText.length < (total m t).1.normalText.length

/-- How the two sides compare when no end marker is inside a tool block. -/
def Compared (m : Mode) (t : List Char) (blocks : List Block) (tails : List (List Char)) : Prop :=
  (∀ r ∈ tails, EndsOutsideTools r) →
    (Sound tails → AgreeOn m t blocks tails) ∧ (¬ Sound tails → KeepsMore m t blocks)

theorem compared_inside (n : ℕ)
    (ih : ∀ t : List Char, t.length < n → Compared .outside t (blockLoop n t) (sectionTails n t))
    (hlen : r.length ≤ n) : Compared .thinking r (sectionBlocks n r) (tailsInside n r) := by
  intro h
  by_cases he : endTok <:+: r
  · obtain ⟨x, w, rfl, hx⟩ := exists_first headed_endTok he
    rw [tailsInside_some n hx, forall_mem_cons] at h
    obtain ⟨hends, hlater⟩ := h
    have hkept := hends.toolsKept hx
    have hleaves := leavesNoToolOpen_iff hx hkept
    have hpos : 0 < endTok.length := by decide
    rw [length_append, length_append] at hlen
    obtain ⟨ihagree, ihmore⟩ := ih w (by omega) hlater
    rw [tailsInside_some n hx, Sound, forall_mem_cons, hleaves, AgreeOn, KeepsMore,
      joinBlocks_sectionBlocks_some n hx]
    rcases total_section (x.length + 1) w (Nat.lt_succ_self _) hx hkept with
      ⟨hT, htotal⟩ | ⟨hT, hnormal⟩
    · rw [htotal]
      refine ⟨fun hs => ?_, fun hbad => ?_⟩
      · obtain ⟨h1, h2⟩ := ihagree hs.2
        rw [h1]
        exact ⟨rfl, fun hclosed => h2 (forall_mem_cons.mp hclosed).2⟩
      · have hrec := ihmore fun hs => hbad ⟨⟨hends, hT⟩, hs⟩
        rw [normalText_append, normalText_append, length_append, length_append]
        exact Nat.add_lt_add_left hrec _
    · refine ⟨fun hs => absurd hs.1.2 hT, fun _ => ?_⟩
      have hrest := length_normalText_blockLoop n w
      rw [normalText_append, length_append, splitInnerReasoning]
      omega
  · have htails : tailsInside n r = [r] := by rw [tailsInside, find_eq_none_iff.mpr he]
    rw [htails, forall_mem_singleton] at h
    rw [htails]
    refine ⟨fun _ => ⟨?_, fun hclosed => absurd (hclosed r mem_cons_self) he⟩, fun hbad => ?_⟩
    · rw [joinBlocks_sectionBlocks_none n he]
      exact total_open_section _ (Nat.lt_succ_self _) he
    · -- A section that is not closed leaves no tool block open, and is the last.
      refine absurd (forall_mem_singleton.mpr ⟨h, fun e hmem => ?_⟩) hbad
      rw [find_eq_none_iff.mpr he] at hmem
      cases hmem

theorem compared_outside (n : ℕ) : ∀ t : List Char, t.length < n →
    Compared .outside t (blockLoop n t) (sectionTails n t) := by
  induction n with
  | zero => exact fun t hlen => absurd hlen (Nat.not_lt_zero _)
  | succ n ih =>
    intro t hlen h
    by_cases hs : startTok <:+: t
    · obtain ⟨x, r, rfl, hx⟩ := exists_first headed_startTok hs
      rw [length_append, length_append] at hlen
      rw [sectionTails_some n hx] at h ⊢
      obtain ⟨hagree, hmore⟩ := compared_inside n ih (by omega) h
      rw [AgreeOn, KeepsMore, total_outside_some hx, joinBlocks_blockLoop_some n hx]
      refine ⟨fun hs => ?_, fun hbad => ?_⟩
      · obtain ⟨h1, h2⟩ := hagree hs
        rw [h1]
        exact ⟨rfl, h2⟩
      · rw [normalText_append, normalText_append, length_append, length_append]
        exact Nat.add_lt_add_left (hmore hbad) _
    · have hfind := find_eq_none_iff.mpr hs
      have hnone : next .outside t = none := by
        rw [next, hfind]
        rfl
      rw [AgreeOn, total_of_none hnone, blockLoop, sectionTails, hfind]
      exact ⟨fun _ => ⟨(append_empty _).symm, fun _ => rfl⟩,
        fun hbad => absurd (by simp [Sound]) hbad⟩

variable (D : Apertus2509Detector)

/-- The reasoning sections of a text, each from its beginning to the text's end;
a continued message may begin inside one. -/
def sections (text : List Char) : List (List Char) :=
  if D.init.inReasoning then tailsInside (text.length + 1) text
  else sectionTails (text.length + 1) text

/-- Streaming the pieces gives the block sequence of the whole text: what is
still buffered belongs to the reasoning when it was read there, and to the normal
text outside the sections and in tool blocks. -/
def StreamsBlocks (cs : List (List Char)) : Prop :=
  let run := feed D.parseStreamingIncrement D.init cs
  let out := StreamingParseResult.concat run.2
  let blocks := joinBlocks (detectAndParseBlockSequence D.init cs.flatten)
  let thinking := run.1.inReasoning && !run.1.inInnerTool
  blocks.normalText = out.normalText ++ (if thinking then [] else run.1.buffer) ∧
    blocks.reasoningText = out.reasoningText ++ (if thinking then run.1.buffer else [])

theorem channel_mode (st : ApertusState) : channel (mode st) st.buffer =
    { normalText := if st.inReasoning && !st.inInnerTool then [] else st.buffer
      reasoningText := if st.inReasoning && !st.inInnerTool then st.buffer else [] } := by
  unfold mode
  cases st.inReasoning <;> cases st.inInnerTool <;> rfl

theorem joinBlocks_detect (text : List Char) :
    joinBlocks (detectAndParseBlockSequence D.init text) =
      joinBlocks (if D.init.inReasoning then sectionBlocks (text.length + 1) text
        else blockLoop (text.length + 1) text) := by
  unfold detectAndParseBlockSequence sectionBlocks
  split
  · cases find endTok text with
    | none => rfl
    | some e => exact joinBlocks_dropEmptyText _
  · exact joinBlocks_dropEmptyText _

theorem mode_init : mode D.init = if D.init.inReasoning then .thinking else .outside := rfl

theorem compared_init (text : List Char) : Compared (mode D.init) text
    (if D.init.inReasoning then sectionBlocks (text.length + 1) text
      else blockLoop (text.length + 1) text) (D.sections text) := by
  rw [mode_init, sections]
  split
  · exact compared_inside _ (compared_outside _) (Nat.le_succ _)
  · exact compared_outside _ text (Nat.lt_succ_self _)

/-- Streaming equals the block sequence, whatever the pieces, exactly when no
closed section leaves a tool block open. -/
theorem streamsBlocks_iff (cs : List (List Char))
    (htools : ∀ r ∈ D.sections cs.flatten, EndsOutsideTools r)
    (hclosed : D.streamReasoning = false → AllClosed (D.sections cs.flatten)) :
    D.StreamsBlocks cs ↔ ∀ r ∈ D.sections cs.flatten, LeavesNoToolOpen r := by
  have hinit : D.Settled D.init := ⟨fun _ => rfl, fun _ => rfl⟩
  have hidle : next (mode D.init) D.init.buffer = none := by
    rw [next_eq_none_iff]
    intro p hp hin
    obtain rfl : p = [] := infix_nil.mp hin
    revert hp
    cases mode D.init <;> decide
  obtain ⟨hsettled, howed⟩ := feed_spec D cs hinit hidle
  have htotal : (total (mode D.init) cs.flatten).1 = _ := congrArg Prod.fst howed
  have hmode : (total (mode D.init) cs.flatten).2 = _ := congrArg Prod.snd howed
  dsimp only at htotal hmode
  rw [channel_mode] at htotal
  obtain ⟨hsound, hmore⟩ := D.compared_init cs.flatten htools
  rw [AgreeOn, ← joinBlocks_detect] at hsound
  rw [KeepsMore, ← joinBlocks_detect] at hmore
  by_cases hall : ∀ r ∈ D.sections cs.flatten, LeavesNoToolOpen r
  · refine iff_of_true ?_ hall
    obtain ⟨hagree, hend⟩ := hsound fun r hr => ⟨htools r hr, hall r hr⟩
    -- Nothing is accumulated at the end: it is streamed, or all sections are closed.
    have hacc : pending (feed D.parseStreamingIncrement D.init cs).1 = {} := by
      refine pending_of_nil ?_
      cases hstream : D.streamReasoning with
      | true => exact hsettled.streamed hstream
      | false =>
        refine hsettled.outside (mode_eq_outside.mp ?_)
        rw [← hmode]
        exact hend (hclosed hstream)
    rw [hacc, hagree] at htotal
    unfold StreamsBlocks
    rw [htotal]
    exact ⟨rfl, rfl⟩
  · refine iff_of_false ?_ hall
    intro hstreams
    have hless := hmore fun hs => hall fun r hr => (hs r hr).2
    rw [htotal, hstreams.1] at hless
    exact lt_irrefl _ hless

instance (r : List Char) : Decidable (EndsOutsideTools r) :=
  inferInstanceAs (Decidable (∀ e ∈ find endTok r, ∀ p < e, toolStart <+: r.drop p →
    ∀ q ∈ find toolEnd (r.drop p), p + q < e))

instance (r : List Char) : Decidable (LeavesNoToolOpen r) :=
  inferInstanceAs (Decidable (∀ e ∈ find endTok r, ∀ p < e, toolStart <+: r.drop p →
    toolEnd <:+: r.drop p))

instance (rs : List (List Char)) : Decidable (AllClosed rs) :=
  inferInstanceAs (Decidable (∀ r ∈ rs, endTok <:+: r))

instance (cs : List (List Char)) : Decidable (D.StreamsBlocks cs) :=
  inferInstanceAs (Decidable (_ ∧ _))

/-- Markers cut by the boundaries, reasoning accumulated until its end. -/
theorem streamsBlocks_cutMarkers :
    ({ streamReasoning := false } : Apertus2509Detector).StreamsBlocks
      ["a<|inner_pre".toList, "fix|>b<|tools_prefix|>[c<|tools_suf".toList,
        "fix|>d<|inner_suffix|>e<|inner".toList] := by
  refine (streamsBlocks_iff _ _ ?_ ?_).mpr ?_
  · decide
  · intro _
    decide
  · decide

/-- The section is closed while its tool block is open: the stream passes on the
end marker as normal text. -/
theorem not_streamsBlocks_openTool :
    let D : Apertus2509Detector := {}
    let cs := ["<|inner_prefix|>a<|tools_prefix|>[b<|inner_suffix|>c".toList]
    (∀ r ∈ D.sections cs.flatten, EndsOutsideTools r) ∧
      (D.streamReasoning = false → AllClosed (D.sections cs.flatten)) ∧
      ¬ D.StreamsBlocks cs := by
  decide

end Agreement

end Apertus2509Detector

end Sglang.Parser
