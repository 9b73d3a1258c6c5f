import Sglang.FunctionCall.Qwen3Coder
import Sglang.Support.Hold

/-!
# The Qwen3-Coder stream does not depend on the chunks

Every tag begins with `<` and has no other. A tag in front of the cursor is
therefore recognised from its own letters, and the end of a value is not moved by
text that arrives later. Plain text is read here letter by letter, which the
runs of letters of the loop amount to.
-/

namespace Sglang.FunctionCall

open Sglang.Support List

namespace Qwen3CoderDetector

variable {V : Type*} {D : Qwen3CoderDetector V} {s : Qwen3CoderState}
  {slice rest u : Text} {tag tag' : Text} {m : ℕ} {a b : Option (ℕ × ℕ)} {x : ℕ × ℕ} {c : Char}
  {t : Text}

/-! ## The tags -/

theorem headed_of_mem (h : tag ∈ possibleTags) : Headed tag ∧ tag.head? = some '<' := by
  have hall : ∀ tag ∈ possibleTags, Headed tag ∧ tag.head? = some '<' := by decide
  exact hall tag h

theorem eq_of_starts_tag (h : tag ∈ possibleTags) (h' : tag' ∈ possibleTags)
    (hstarts : tag <+: tag') : tag = tag' := by
  have hall : ∀ tag ∈ possibleTags, ∀ tag' ∈ possibleTags, tag <+: tag' → tag = tag' := by decide
  exact hall tag h tag' h' hstarts

/-- At most one tag stands in front of the cursor. -/
theorem eq_of_starts_slice (h : tag ∈ possibleTags) (h' : tag' ∈ possibleTags)
    (hstarts : tag <+: slice) (hstarts' : tag' <+: slice) : tag = tag' := by
  rcases prefix_or_prefix_of_prefix hstarts hstarts' with hle | hle
  · exact eq_of_starts_tag h h' hle
  · exact (eq_of_starts_tag h' h hle).symm

theorem not_starts_of_ne (hstarts : tag <+: slice)
    (h : tag ∈ possibleTags ∧ tag' ∈ possibleTags ∧ tag' ≠ tag) : ¬ tag'.isPrefixOf slice = true :=
  fun hb => h.2.2 (eq_of_starts_slice h.2.1 h.1 (List.isPrefixOf_iff_prefix.mp hb) hstarts)

theorem ne_nil_of_starts (h : tag ∈ possibleTags) (hstarts : tag <+: slice) : slice ≠ [] := by
  rintro rfl
  exact (headed_of_mem h).1.ne_nil (prefix_nil.mp hstarts)

/-! ## One turn, by what stands in front of the cursor -/

theorem turn_toolCallStart (h : toolCallStartToken <+: slice) : D.turn s slice =
      some (toolCallStartToken.length, { s with isInsideToolCall := true }, []) := by
  have hne : slice ≠ [] := ne_nil_of_starts (by decide) h
  unfold turn
  rw [if_neg hne, if_pos (List.isPrefixOf_iff_prefix.mpr h)]

theorem turn_function (h : toolCallPrefix <+: slice) :
    D.turn s slice = (find ['>'] slice).map fun stop =>
      let name := (slice.take stop).drop toolCallPrefix.length
      (stop + 1, startFunction s name, [.inr ⟨s.currentToolId + 1, some name, []⟩]) := by
  have hne : slice ≠ [] := ne_nil_of_starts (by decide) h
  unfold turn
  rw [if_neg hne, if_neg (not_starts_of_ne h (by decide)),
    if_pos (List.isPrefixOf_iff_prefix.mpr h)]
  cases find ['>'] slice <;> rfl

/-- What is sent for a parameter whose name ends at `nameEnd`. -/
def parameterTurn (D : Qwen3CoderDetector V) (s : Qwen3CoderState) (slice : Text)
    (nameEnd : ℕ) : Option (ℕ × Qwen3CoderState × List Piece) :=
  let rest := slice.drop (nameEnd + 1)
  (valueEnd rest).map fun stop =>
    let name := (slice.take nameEnd).drop parameterPrefix.length
    (nameEnd + 1 + stop.1 + stop.2,
      { s with
        jsonStarted := true
        currentToolParamCount := s.currentToolParamCount + 1 },
      openBrace s ++ [fragment s (D.member s name (rest.take stop.1))])

theorem turn_parameter (h : parameterPrefix <+: slice) :
    D.turn s slice = (find ['>'] slice).bind (D.parameterTurn s slice) := by
  have hne : slice ≠ [] := ne_nil_of_starts (by decide) h
  unfold turn
  rw [if_neg hne, if_neg (not_starts_of_ne h (by decide)),
    if_neg (not_starts_of_ne h (by decide)),
    if_pos (List.isPrefixOf_iff_prefix.mpr h)]
  cases find ['>'] slice with
  | none => rfl
  | some nameEnd =>
    simp only [parameterTurn, Option.bind_some]
    cases valueEnd (slice.drop (nameEnd + 1)) <;> rfl

theorem turn_functionEnd (h : functionEndToken <+: slice) : D.turn s slice =
      some (functionEndToken.length, { s with jsonStarted := true, currentFuncName := none },
        openBrace s ++ [fragment s ['}']]) := by
  have hne : slice ≠ [] := ne_nil_of_starts (by decide) h
  unfold turn
  rw [if_neg hne, if_neg (not_starts_of_ne h (by decide)),
    if_neg (not_starts_of_ne h (by decide)),
    if_neg (not_starts_of_ne h (by decide)),
    if_pos (List.isPrefixOf_iff_prefix.mpr h)]

theorem turn_toolCallEnd (h : toolCallEndToken <+: slice) : D.turn s slice =
      some (toolCallEndToken.length, { s with isInsideToolCall := false }, []) := by
  have hne : slice ≠ [] := ne_nil_of_starts (by decide) h
  unfold turn
  rw [if_neg hne, if_neg (not_starts_of_ne h (by decide)),
    if_neg (not_starts_of_ne h (by decide)),
    if_neg (not_starts_of_ne h (by decide)),
    if_neg (not_starts_of_ne h (by decide)),
    if_pos (List.isPrefixOf_iff_prefix.mpr h)]

/-- The tags the loop acts on: a closing parameter tag is only read as the end of a value. -/
def actingTags : List Text :=
  [toolCallStartToken, toolCallEndToken, toolCallPrefix, functionEndToken, parameterPrefix]

theorem mem_possibleTags (h : tag ∈ actingTags) : tag ∈ possibleTags := by
  have hall : ∀ tag ∈ actingTags, tag ∈ possibleTags := by decide
  exact hall tag h

theorem turn_else (hne : slice ≠ []) (h : ∀ tag ∈ actingTags, ¬ tag <+: slice) : D.turn s slice =
      match find ['<'] slice with
      | none => some (slice.length, s, plain s slice)
      | some 0 => if possibleTags.any fun tag => slice.isPrefixOf tag then none
        else some (1, s, plain s ['<'])
      | some (n + 1) => some (n + 1, s, plain s (slice.take (n + 1))) := by
  have hnot : ∀ tag ∈ actingTags, ¬ tag.isPrefixOf slice = true :=
    fun tag htag hb => h tag htag (List.isPrefixOf_iff_prefix.mp hb)
  exact (if_neg hne).trans ((if_neg (hnot _ (by decide))).trans ((if_neg (hnot _ (by decide))).trans
    ((if_neg (hnot _ (by decide))).trans ((if_neg (hnot _ (by decide))).trans
      (if_neg (hnot _ (by decide)))))))

/-- A bracket that begins no tag is plain text; one that may become a tag is waited for. -/
theorem turn_bracket (t : Text) (h : ∀ tag ∈ actingTags, ¬ tag <+: '<' :: t) : D.turn s ('<' :: t) =
      if ∃ tag ∈ possibleTags, '<' :: t <+: tag then none else some (1, s, plain s ['<']) := by
  have hfind : find ['<'] ('<' :: t) = some 0 := find_cons_of_starts (by simp)
  rw [turn_else (cons_ne_nil _ _) h, hfind]
  simp

/-- A beginning of a tag that is not yet a tag is waited for. -/
theorem turn_of_part {y : Text} (htag : tag ∈ possibleTags) (heq : tag = slice ++ y)
    (hslice : slice ≠ []) (hy : y ≠ []) : D.turn s slice = none := by
  obtain ⟨c, t, rfl⟩ := exists_cons_of_ne_nil hslice
  obtain rfl : c = '<' := by
    have := (headed_of_mem htag).2
    rw [heq] at this
    simpa using this
  rw [turn_bracket, if_pos ⟨tag, htag, ⟨y, heq.symm⟩⟩]
  intro tag' htag' hstarts
  -- a whole tag would begin the longer one
  have hsame : tag' = tag :=
    eq_of_starts_tag (mem_possibleTags htag') htag (hstarts.trans ⟨y, heq.symm⟩)
  have hlength := hstarts.length_le
  rw [hsame, heq, length_append] at hlength
  have := length_pos_iff.mpr hy
  omega

/-- Once the loop acts, the tag in front of the cursor is known. -/
theorem starts_append_iff (hslice : slice ≠ []) (hturn : D.turn s slice ≠ none)
    (htag : tag ∈ possibleTags) : tag <+: slice ++ u ↔ tag <+: slice := by
  constructor
  · intro h
    rcases prefix_append_cases h with hin | ⟨y, hy, heq, -⟩
    · exact hin
    · exact absurd (turn_of_part htag heq hslice hy) hturn
  · intro h
    exact h.trans (prefix_append slice u)

/-! ## The end of a value -/

theorem earlier_eq_some : earlier a b = some x ↔
    (a = some x ∧ ∀ y ∈ b, x.1 ≤ y.1) ∨ (b = some x ∧ ∀ y ∈ a, x.1 < y.1) := by
  cases a with
  | none => simp [earlier]
  | some y =>
    cases b with
    | none => simp [earlier]
    | some z =>
      simp only [earlier, Option.mem_some, forall_eq', Option.some.injEq]
      split <;> grind

/-- What later text can do to a match: nothing, unless it lies beyond `m`. -/
def Later (m : ℕ) (a a' : Option (ℕ × ℕ)) : Prop := ∀ x, x.1 ≤ m → (a = some x ↔ a' = some x)

theorem Later.earlier {a' b' : Option (ℕ × ℕ)} (ha : Later m a a')
    (hb : Later m b b') : Later m (earlier a b) (earlier a' b') := by
  intro x hx
  have hle : (∀ y ∈ b, x.1 ≤ y.1) ↔ ∀ y ∈ b', x.1 ≤ y.1 := by
    refine forall_congr' fun y => ?_
    have := hb y
    by_cases hy : x.1 ≤ y.1
    · simp [hy]
    · simp [this (by omega)]
  have hlt : (∀ y ∈ a, x.1 < y.1) ↔ ∀ y ∈ a', x.1 < y.1 := by
    refine forall_congr' fun y => ?_
    have := ha y
    by_cases hy : x.1 < y.1
    · simp [hy]
    · simp [this (by omega)]
  rw [earlier_eq_some, earlier_eq_some, ha x hx, hb x hx, hle, hlt]

theorem find_later {p q : Text} {n : ℕ} (hp : p ∈ possibleTags) (hq : q ∈ possibleTags)
    (hm : find q rest = some m) :
    Later m ((find p rest).map (·, n)) ((find p (rest ++ u)).map (·, n)) := by
  intro x hx
  cases h : find p rest with
  | some i => rw [find_append_left h]
  | none =>
    refine ⟨fun h' => (nomatch h'), fun h' => ?_⟩
    obtain ⟨j, hj, rfl⟩ := Option.map_eq_some_iff.mp h'
    have hne : q ≠ p := by
      rintro rfl
      rw [h] at hm
      cases hm
    have hlt : m < j := (headed_of_mem hp).1.find_lt
      ((headed_of_mem hq).2.trans (headed_of_mem hp).2.symm)
      (fun hpre => hne (eq_of_starts_tag hq hp hpre)) (find_eq_none_iff.mp h) hm hj
    exact absurd hx (by simpa using hlt)

/-- The match that ends a value is a tag of the text. -/
theorem exists_find_of_valueEnd {n : ℕ} (h : valueEnd rest = some (m, n)) :
    ∃ q ∈ possibleTags, find q rest = some m ∧ n ≤ q.length := by
  have htag : ∀ (q : Text) (k : ℕ), q ∈ possibleTags → k ≤ q.length →
      (find q rest).map (·, k) = some (m, n) →
      ∃ q ∈ possibleTags, find q rest = some m ∧ n ≤ q.length := by
    intro q k hq hk hfind
    obtain ⟨i, hi, hx⟩ := Option.map_eq_some_iff.mp hfind
    cases hx
    exact ⟨q, hq, hi, hk⟩
  rcases earlier_eq_some.mp h with ⟨h, -⟩ | ⟨h, -⟩
  · rcases earlier_eq_some.mp h with ⟨h, -⟩ | ⟨h, -⟩
    · exact htag _ _ (by decide) le_rfl h
    · exact htag _ _ (by decide) (Nat.zero_le _) h
  · exact htag _ _ (by decide) (Nat.zero_le _) h

/-- Later text does not move the end of a value. -/
theorem valueEnd_append (h : valueEnd rest = some x) : valueEnd (rest ++ u) = some x := by
  obtain ⟨q, hq, hm, -⟩ := exists_find_of_valueEnd h
  have hlater : Later x.1 (valueEnd rest) (valueEnd (rest ++ u)) :=
    ((find_later (by decide) hq hm).earlier (find_later (by decide) hq hm)).earlier
      (find_later (by decide) hq hm)
  exact (hlater x le_rfl).mp h

/-! ## The cursors -/

theorem find_lt_length {i : ℕ} (h : find [c] t = some i) : i < t.length := find_add_length_le h

theorem progress_turn {k : ℕ} {st' : Qwen3CoderState} {out : List Piece}
    (h : D.turn s slice = some (k, st', out)) : 0 < k ∧ k ≤ slice.length := by
  by_cases hne : slice = []
  · subst hne
    simp [turn] at h
  by_cases htags : ∃ tag ∈ actingTags, tag <+: slice
  · obtain ⟨tag, htag, hstarts⟩ := htags
    have hlength := hstarts.length_le
    simp only [actingTags, mem_cons, not_mem_nil, or_false] at htag
    rcases htag with rfl | rfl | rfl | rfl | rfl
    · rw [turn_toolCallStart hstarts] at h
      cases h
      exact ⟨by decide, hlength⟩
    · rw [turn_toolCallEnd hstarts] at h
      cases h
      exact ⟨by decide, hlength⟩
    · rw [turn_function hstarts] at h
      obtain ⟨stop, hstop, hx⟩ := Option.map_eq_some_iff.mp h
      cases hx
      exact ⟨Nat.succ_pos _, find_lt_length hstop⟩
    · rw [turn_functionEnd hstarts] at h
      cases h
      exact ⟨by decide, hlength⟩
    · rw [turn_parameter hstarts] at h
      obtain ⟨nameEnd, hname, h⟩ := Option.bind_eq_some_iff.mp h
      obtain ⟨stop, hstop, hx⟩ := Option.map_eq_some_iff.mp h
      obtain ⟨q, -, hq, hle⟩ := exists_find_of_valueEnd hstop
      have hend := find_add_length_le hq
      have := find_lt_length hname
      rw [length_drop] at hend
      cases hx
      omega
  · rw [turn_else hne fun tag htag hstarts => htags ⟨tag, htag, hstarts⟩] at h
    split at h
    · cases h
      exact ⟨length_pos_iff.mpr hne, le_rfl⟩
    · split at h
      · cases h
      · cases h
        exact ⟨Nat.one_pos, length_pos_iff.mpr hne⟩
    · rename_i hfind
      cases h
      exact ⟨Nat.succ_pos _, (find_lt_length hfind).le⟩

variable (D) in
/-- The loop of the detector. -/
def cursor : Cursor Qwen3CoderState Char Piece where
  next := D.turn
  progress := progress_turn

variable (D) in
/-- The loop with the letters of plain text taken one by one. -/
def letterTurn (s : Qwen3CoderState) : Text → Option (ℕ × Qwen3CoderState × List Piece)
  | [] => none
  | c :: t => if c = '<' then D.turn s (c :: t) else some (1, s, plain s [c])

variable (D) in
def letterCursor : Cursor Qwen3CoderState Char Piece where
  next := D.letterTurn
  progress := by
    intro s t k s' out h
    cases t with
    | nil => cases h
    | cons c t =>
      simp only [letterTurn] at h
      split at h
      · exact progress_turn h
      · cases h
        exact ⟨Nat.one_pos, Nat.succ_le_succ (Nat.zero_le _)⟩

theorem turn_append {r : ℕ × Qwen3CoderState × List Piece} (t u : Text)
    (h : D.turn s ('<' :: t) = some r) : D.turn s ('<' :: t ++ u) = some r := by
  have hne : '<' :: t ≠ [] := cons_ne_nil _ _
  have hturn : D.turn s ('<' :: t) ≠ none := h ▸ Option.some_ne_none r
  by_cases htags : ∃ tag ∈ actingTags, tag <+: '<' :: t
  · obtain ⟨tag, htag, hstarts⟩ := htags
    have hstarts' := hstarts.trans (prefix_append ('<' :: t) u)
    simp only [actingTags, mem_cons, not_mem_nil, or_false] at htag
    rcases htag with rfl | rfl | rfl | rfl | rfl
    · rw [turn_toolCallStart hstarts']
      rwa [turn_toolCallStart hstarts] at h
    · rw [turn_toolCallEnd hstarts']
      rwa [turn_toolCallEnd hstarts] at h
    · rw [turn_function hstarts] at h
      obtain ⟨stop, hstop, hx⟩ := Option.map_eq_some_iff.mp h
      rw [turn_function hstarts', find_append_left hstop, Option.map_some,
        take_append_of_le_length (find_lt_length hstop).le]
      exact congrArg some hx
    · rw [turn_functionEnd hstarts']
      rwa [turn_functionEnd hstarts] at h
    · rw [turn_parameter hstarts] at h
      obtain ⟨nameEnd, hname, h⟩ := Option.bind_eq_some_iff.mp h
      obtain ⟨stop, hstop, hx⟩ := Option.map_eq_some_iff.mp h
      obtain ⟨q, -, hq, -⟩ := exists_find_of_valueEnd hstop
      have hle := find_add_length_le hq
      have hlt := find_lt_length hname
      rw [turn_parameter hstarts', find_append_left hname, Option.bind_some, parameterTurn,
        take_append_of_le_length hlt.le, drop_append_of_le_length hlt,
        valueEnd_append hstop, Option.map_some,
        take_append_of_le_length (Nat.le_of_add_right_le hle)]
      exact congrArg some hx
  · have hnone : ∀ tag ∈ actingTags, ¬ tag <+: '<' :: t :=
      fun tag htag hstarts => htags ⟨tag, htag, hstarts⟩
    rw [turn_bracket t hnone] at h
    split at h
    · cases h
    · rename_i hwait
      rw [cons_append, turn_bracket, if_neg, h]
      · rintro ⟨tag, htag, hstarts⟩
        exact hwait ⟨tag, htag, (prefix_append ('<' :: t) u).trans hstarts⟩
      · intro tag htag hstarts
        exact hnone tag htag ((starts_append_iff hne hturn (mem_possibleTags htag)).mp hstarts)

theorem steady_letterCursor : D.letterCursor.Steady := by
  intro s t u r h
  cases t with
  | nil => cases h
  | cons c t =>
    simp only [letterCursor, letterTurn, cons_append] at h ⊢
    split at h
    · rename_i hc
      subst hc
      rw [if_pos rfl]
      exact turn_append t u h
    · rename_i hc
      rw [if_neg hc]
      exact h

/-- A text whose letters are taken one by one. -/
theorem scan_of_letters {t rest : Text} (h : ∀ c u, c :: u <:+ t →
      D.letterCursor.next s (c :: (u ++ rest)) = some (1, s, plain s [c])) :
    D.letterCursor.scan s (t ++ rest) = (D.letterCursor.scan s rest).after (plain s t) := by
  induction t with
  | nil =>
    have hnil : plain s [] = [] := by simp [plain]
    rw [hnil]
    rfl
  | cons c t ih =>
    have hplain : plain s (c :: t) = plain s [c] ++ plain s t := by
      unfold plain
      split <;> simp
    rw [cons_append, Cursor.scan_of_some (h c t suffix_rfl), drop_one, tail_cons,
      ih fun d u hu => h d u (hu.trans (suffix_cons c t)), Scan.after_after, hplain]

/-- Letters before the next bracket. -/
theorem scan_letters (t : Text) (ht : '<' ∉ t) (rest : Text) :
    D.letterCursor.scan s (t ++ rest) = (D.letterCursor.scan s rest).after (plain s t) := by
  refine scan_of_letters fun c u hu => if_neg ?_
  rintro rfl
  exact ht (hu.subset mem_cons_self)

theorem not_starts_of_letter (hc : c ≠ '<') (htag : tag ∈ possibleTags) : ¬ tag <+: c :: t := by
  intro hstarts
  obtain ⟨w, hw⟩ := hstarts
  have hhead := (headed_of_mem htag).2
  cases tag with
  | nil => cases hhead
  | cons d tag =>
    obtain rfl : d = '<' := by simpa using hhead
    exact hc (List.cons.inj hw).1.symm

theorem not_mem_take_of_find {i : ℕ} (h : find [c] t = some i) : c ∉ t.take i := by
  intro hmem
  obtain ⟨x, y, hxy⟩ := append_of_mem hmem
  exact not_infix_take_of_find (cons_ne_nil c []) h ⟨x, y, by rw [hxy]; simp⟩

/-- Reading the plain text letter by letter comes to the same. -/
theorem scan_cursor (t : Text) : D.cursor.scan s t = D.letterCursor.scan s t := by
  have helse {c : Char} {t : Text} {s : Qwen3CoderState} (hc : c ≠ '<') :=
    turn_else (D := D) (s := s) (cons_ne_nil c t)
      fun tag htag => not_starts_of_letter hc (mem_possibleTags htag)
  have hfirst {c : Char} {t : Text} (hc : c ≠ '<') : find ['<'] (c :: t) ≠ some 0 := by
    intro h
    obtain ⟨w, hw⟩ := prefix_drop_of_find h
    exact hc (List.cons.inj hw).1.symm
  apply Cursor.scan_eq_of_simulates
  · intro s t h
    cases t with
    | nil => rfl
    | cons c t =>
      simp only [cursor, letterCursor, letterTurn] at h ⊢
      split
      · exact h
      · rename_i hc
        rw [helse hc] at h
        split at h
        · cases h
        · rename_i hzero
          exact absurd hzero (hfirst hc)
        · cases h
  · intro s t k s' out h
    cases t with
    | nil => cases h
    | cons c t =>
      by_cases hc : c = '<'
      · subst hc
        exact Cursor.scan_of_some h
      · simp only [cursor] at h
        rw [helse hc] at h
        split at h
        · rename_i hnone
          cases h
          have hletters : '<' ∉ c :: t := by
            intro hmem
            obtain ⟨x, y, hxy⟩ := append_of_mem hmem
            exact find_eq_none_iff.mp hnone ⟨x, y, by rw [hxy]; simp⟩
          have hscan := scan_letters (D := D) (s := s) (c :: t) hletters []
          rwa [append_nil, ← drop_length] at hscan
        · rename_i hzero
          exact absurd hzero (hfirst hc)
        · rename_i n hn
          cases h
          have hscan := scan_letters (D := D) (s := s) _ (not_mem_take_of_find hn)
            ((c :: t).drop (n + 1))
          rwa [take_append_drop] at hscan

/-! ## The stream -/

variable (D) in
def parseStreamingIncrement (s : Qwen3CoderState × Text) (newText : Text) :
    (Qwen3CoderState × Text) × StreamingParseResult :=
  let r := D.cursor.scan s.1 (s.2 ++ newText)
  ((r.state, r.rest),
    { normalText := r.out.filterMap Sum.getLeft?, calls := r.out.filterMap Sum.getRight? })

def init : Qwen3CoderState × Text := ({}, [])

variable (D) in
/-- What the chunks have given: the state with what is left in the buffer, the normal text, and
the items. -/
def stream (cs : List Text) : (Qwen3CoderState × Text) × Text × List ToolCallItem :=
  let r := feed D.parseStreamingIncrement init cs
  (r.1, r.2.flatMap (·.normalText), r.2.flatMap (·.calls))

/-- The chunks are read as the loop reads the whole text. -/
theorem stream_eq (cs : List Text) : D.stream cs =
      let r := D.letterCursor.scan {} cs.flatten
      ((r.state, r.rest), r.out.filterMap Sum.getLeft?, r.out.filterMap Sum.getRight?) := by
  have hparse : D.parseStreamingIncrement = fun s c =>
      ((D.letterCursor.push s c).1,
        ({ normalText := (D.letterCursor.push s c).2.filterMap Sum.getLeft?
           calls := (D.letterCursor.push s c).2.filterMap Sum.getRight? } :
          StreamingParseResult)) := by
    funext s c
    rw [parseStreamingIncrement, scan_cursor]
    rfl
  obtain ⟨hstate, hout⟩ := steady_letterCursor.feed_push (C := D.letterCursor) (s := {})
    Cursor.next_nil cs
  rw [nil_append] at hstate hout
  unfold stream
  rw [hparse, feed_map D.letterCursor.push fun out =>
    ({ normalText := out.filterMap Sum.getLeft?, calls := out.filterMap Sum.getRight? } :
      StreamingParseResult)]
  simp only [← hout, init, hstate, flatMap_map, filterMap_flatten]
  rfl

end Qwen3CoderDetector

end Sglang.FunctionCall
