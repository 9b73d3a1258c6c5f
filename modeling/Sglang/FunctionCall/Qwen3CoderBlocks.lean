import Sglang.FunctionCall.Qwen3CoderStream
import Sglang.FunctionCall.ToolIndexing

/-!
# Well-formed Qwen3-Coder output

A document is plain text followed by tool-call blocks. Both sides of the
detector are run over its structure: the regular expressions find its blocks,
functions and parameters, and the cursor passes over them one after the other.
-/

namespace Sglang.FunctionCall

open Sglang.Support List

namespace Qwen3CoderDetector

/-- No tag occurs in the text. -/
def NoTag (t : Text) : Prop := ∀ tag ∈ possibleTags, ¬ tag <:+: t

instance (t : Text) : Decidable (NoTag t) :=
  inferInstanceAs (Decidable (∀ tag ∈ possibleTags, ¬ tag <:+: t))

abbrev Plain := { t : Text // NoTag t }

/-- What stands between the `=` and the `>` of a tag. -/
structure TagName where
  text : Text
  closed : '>' ∉ text
  noTag : NoTag (text ++ ['>'])

structure Parameter where
  name : TagName
  value : Plain
  after : Plain

structure FunctionBlock where
  name : TagName
  before : Plain
  parameters : List Parameter
  after : Plain

structure ToolCallBlock where
  before : Plain
  functions : List FunctionBlock
  after : Plain

structure Document where
  plain : Plain
  blocks : List ToolCallBlock

def Parameter.body (p : Parameter) : Text := p.name.text ++ ['>'] ++ p.value

def Parameter.text (p : Parameter) : Text :=
  parameterPrefix ++ (p.body ++ (parameterEndToken ++ p.after))

variable (f : FunctionBlock)

def FunctionBlock.inner : Text := f.before ++ f.parameters.flatMap Parameter.text

def FunctionBlock.body : Text := f.name.text ++ ['>'] ++ f.inner

def FunctionBlock.text : Text :=
  toolCallPrefix ++ (f.body ++ (functionEndToken ++ f.after))

def ToolCallBlock.body (b : ToolCallBlock) : Text :=
  b.before ++ b.functions.flatMap FunctionBlock.text

def ToolCallBlock.text (b : ToolCallBlock) : Text :=
  toolCallStartToken ++ (b.body ++ (toolCallEndToken ++ b.after))

def Document.text (d : Document) : Text := d.plain ++ d.blocks.flatMap ToolCallBlock.text

def Document.functions (d : Document) : List FunctionBlock := d.blocks.flatMap (·.functions)

/-! ## Where tags occur -/

/-- The text is empty or begins with a bracket. -/
def AtTag (t : Text) : Prop := t = [] ∨ t.head? = some '<'

section Occurrences

variable {q u v r : Text} {p : Text}

theorem atTag_append (hq : q ∈ possibleTags) : AtTag (q ++ r) := by
  right
  have hhead := (headed_of_mem hq).2
  cases q with
  | nil => cases hhead
  | cons c q => exact hhead

theorem not_straddles_atTag (hq : q ∈ possibleTags) (hv : AtTag v) : ¬ Straddles q u v := by
  rcases hv with rfl | hv
  · rintro ⟨x, y, -, hy, -, -, hyv⟩
    exact hy (prefix_nil.mp hyv)
  · have := (headed_of_mem hq).1.not_straddles (u := u) (v := [])
      (hv.trans (headed_of_mem hq).2.symm)
    rwa [append_nil] at this

/-- The closing bracket of a tag is its last letter. -/
theorem not_straddles_close (hq : q ∈ possibleTags) : ¬ Straddles q (u ++ ['>']) v := by
  have hall : ∀ q ∈ possibleTags, '>' ∉ q.dropLast := by decide
  exact not_straddles_of_getLast (hall q hq) List.getLast?_concat

theorem not_straddles_singleton {c : Char} : ¬ Straddles [c] u v := by
  rintro ⟨x, y, hx, hy, heq, -, -⟩
  have hlength := congrArg List.length heq
  have := length_pos_iff.mpr hx
  have := length_pos_iff.mpr hy
  simp only [length_cons, length_nil, length_append] at hlength
  omega

/-- The first tag behind plain text. -/
theorem find_tag (hq : q ∈ possibleTags) (hu : ¬ q <:+: u) :
    find q (u ++ (q ++ r)) = some u.length :=
  (headed_of_mem hq).1.find_append hu r

/-- No other tag occurs inside a tag. -/
theorem eq_of_infix_tag (hp : p ∈ possibleTags) (hq : q ∈ possibleTags) (h : q <:+: p) : q = p := by
  have hall : ∀ q ∈ possibleTags, ∀ p ∈ possibleTags, q <:+: p → q = p := by decide
  exact hall q hq p hp h

/-- A tag and a name that is closed hold no other tag. -/
theorem not_infix_tag_append (hp : p ∈ possibleTags) (hq : q ∈ possibleTags)
    (hne : q ≠ p) (hv : ¬ q <:+: v) : ¬ q <:+: p ++ v := by
  refine not_infix_append (fun h => hne (eq_of_infix_tag hp hq h)) hv ?_
  have hafter := (headed_of_mem hq).1.not_straddles_after (u := []) (v := v)
    (headed_of_mem hp).1 ((headed_of_mem hp).2.trans (headed_of_mem hq).2.symm)
    (fun hpre => hne (eq_of_starts_tag hp hq hpre).symm)
  rwa [nil_append] at hafter

/-- Behind plain text and a tag, every other tag lies beyond. -/
theorem lt_find_tag {i : ℕ} (hp : p ∈ possibleTags) (hq : q ∈ possibleTags) (hne : q ≠ p)
    (hu : NoTag u) (hi : find q (u ++ (p ++ r)) = some i) : u.length < i := by
  rw [find_append_right (hu q hq) (not_straddles_atTag hq (atTag_append hp))] at hi
  obtain ⟨j, hj, rfl⟩ := Option.map_eq_some_iff.mp hi
  have hpos : j ≠ 0 := by
    rintro rfl
    exact hne (eq_of_starts_slice hq hp (prefix_drop_of_find hj) (prefix_append p r))
  omega

/-- The end of a value that holds no tag. -/
theorem valueEnd_close (hu : NoTag u) :
    valueEnd (u ++ (parameterEndToken ++ r)) = some (u.length, parameterEndToken.length) := by
  have hend := find_tag (r := r) (by decide) (hu parameterEndToken (by decide))
  have hlater : ∀ q ∈ possibleTags, q ≠ parameterEndToken →
      ∀ y ∈ (find q (u ++ (parameterEndToken ++ r))).map (·, 0), u.length ≤ y.1 := by
    intro q hq hne y hy
    obtain ⟨i, hi, rfl⟩ := Option.map_eq_some_iff.mp hy
    exact (lt_find_tag (by decide) hq hne hu hi).le
  refine earlier_eq_some.mpr (Or.inl ⟨earlier_eq_some.mpr (Or.inl ⟨?_, ?_⟩), ?_⟩)
  · rw [hend, Option.map_some]
  · exact hlater _ (by decide) (by decide)
  · exact hlater _ (by decide) (by decide)

end Occurrences

/-! ## The regular expressions -/

variable {t q : Text}

theorem TagName.noTag_append (name : TagName) (ht : NoTag t) : NoTag (name.text ++ ['>'] ++ t) :=
  fun q hq => not_infix_append (name.noTag q hq) (ht q hq) (not_straddles_close hq)

theorem find_close (name : TagName) (t : Text) :
    find ['>'] (name.text ++ ['>'] ++ t) = some name.text.length := by
  have hnot : ¬ ['>'] <:+: name.text := fun h => name.closed (h.subset (by simp))
  rw [append_assoc, find_append_right hnot not_straddles_singleton]
  rfl

theorem splitName_append (name : TagName) (t : Text) :
    splitName (name.text ++ ['>'] ++ t) = some (name.text, t) := by
  rw [splitName, find_close]
  simp [drop_append]

/-- The matches in plain text followed by blocks are the bodies of the blocks. -/
theorem delimited_blocks {ι : Type*} {start stop : Text} {unclosed : Text → List Text}
    (hstart : start ∈ possibleTags) (hstop : stop ∈ possibleTags) (body after : ι → Text)
    (hbody : ∀ x, ¬ stop <:+: body x) (hafter : ∀ x, ¬ start <:+: after x)
    (xs : List ι) (ht : ¬ start <:+: t) {n : ℕ} (hn : xs.length ≤ n) :
    delimited start stop unclosed n
        (t ++ xs.flatMap fun x => start ++ (body x ++ (stop ++ after x))) = xs.map body := by
  induction xs generalizing t n with
  | nil =>
    rw [flatMap_nil, append_nil]
    cases n with
    | zero => rfl
    | succ n =>
      unfold delimited
      rw [find_eq_none_iff.mpr ht]
      rfl
  | cons x xs ih =>
    obtain ⟨n, rfl⟩ : ∃ m, n = m + 1 := ⟨n - 1, by rw [length_cons] at hn; omega⟩
    rw [flatMap_cons]
    simp only [append_assoc]
    unfold delimited
    rw [find_tag hstart ht]
    dsimp only
    rw [← drop_drop, drop_left, drop_left, find_tag hstop (hbody x)]
    dsimp only
    rw [take_left, ← drop_drop, drop_left, drop_left,
      ih (hafter x) (by rw [length_cons] at hn; omega), map_cons]

theorem parameterRegex_parameters (ps : List Parameter) (ht : NoTag t) {n : ℕ}
    (hn : ps.length ≤ n) :
    parameterRegex n (t ++ ps.flatMap Parameter.text) = ps.map Parameter.body := by
  induction ps generalizing t n with
  | nil =>
    rw [flatMap_nil, append_nil]
    cases n with
    | zero => rfl
    | succ n =>
      unfold parameterRegex
      rw [find_eq_none_iff.mpr (ht _ (by decide))]
      rfl
  | cons p ps ih =>
    obtain ⟨n, rfl⟩ : ∃ m, n = m + 1 := ⟨n - 1, by rw [length_cons] at hn; omega⟩
    have hbody : NoTag p.body := p.name.noTag_append p.value.2
    rw [flatMap_cons, Parameter.text]
    simp only [append_assoc]
    unfold parameterRegex
    rw [find_tag (by decide) (ht _ (by decide))]
    dsimp only
    rw [← drop_drop, drop_left, drop_left, valueEnd_close hbody]
    have hdollar : p.body.length ≤ dollar (p.body ++ (parameterEndToken ++
        (p.after.1 ++ ps.flatMap Parameter.text))) := by
      unfold dollar
      split
      all_goals
        simp only [length_append]
        have : 0 < parameterEndToken.length := by decide
        omega
    have hstop : earlier (some (p.body.length, parameterEndToken.length))
        (some (dollar (p.body ++ (parameterEndToken ++
          (p.after.1 ++ ps.flatMap Parameter.text))), 0)) =
        some (p.body.length, parameterEndToken.length) := if_pos hdollar
    rw [hstop]
    dsimp
    rw [take_left, ← drop_drop, drop_left, drop_left,
      ih p.after.2 (by rw [length_cons] at hn; omega), map_cons]

/-- A text at a tag that holds no tag `q`. -/
structure Without (q v : Text) : Prop where
  absent : ¬ q <:+: v
  atTag : AtTag v

theorem Without.nil (hq : q ∈ possibleTags) : Without q [] :=
  ⟨fun h => (headed_of_mem hq).1.ne_nil (infix_nil.mp h), Or.inl rfl⟩

theorem Without.plain_append {u v : Text} (h : Without q v) (hq : q ∈ possibleTags)
    (hu : NoTag u) : ¬ q <:+: u ++ v :=
  not_infix_append (hu q hq) h.absent (not_straddles_atTag hq h.atTag)

/-- Another tag and plain text in front. -/
theorem Without.tag_append {p u v : Text} (h : Without q v) (hq : q ∈ possibleTags)
    (hp : p ∈ possibleTags) (hne : q ≠ p) (hu : NoTag u) : Without q (p ++ (u ++ v)) :=
  ⟨not_infix_tag_append hp hq hne (h.plain_append hq hu), atTag_append hp⟩

theorem Without.flatMap_append {ι : Type*} {g : ι → Text} {r : Text}
    (hg : ∀ x r, Without q r → Without q (g x ++ r)) (xs : List ι) (hr : Without q r) :
    Without q (xs.flatMap g ++ r) := by
  induction xs with
  | nil => exact hr
  | cons x xs ih =>
    rw [flatMap_cons, append_assoc]
    exact hg x _ ih

/-- Of the tags, parameters hold their own two. -/
theorem without_parameters (ps : List Parameter) {r : Text} (hr : Without q r)
    (hq : q ∈ possibleTags) (hstart : q ≠ parameterPrefix) (hstop : q ≠ parameterEndToken) :
    Without q (ps.flatMap Parameter.text ++ r) := by
  refine Without.flatMap_append (fun p r hr => ?_) ps hr
  rw [Parameter.text]
  simp only [append_assoc]
  exact (hr.tag_append hq (by decide) hstop p.after.2).tag_append hq (by decide) hstart
    (p.name.noTag_append p.value.2)

theorem FunctionBlock.not_infix_body (hq : q ∈ possibleTags)
    (hstart : q ≠ parameterPrefix) (hstop : q ≠ parameterEndToken) : ¬ q <:+: f.body := by
  have h := (without_parameters f.parameters (.nil hq) hq hstart hstop).plain_append hq
    (f.name.noTag_append f.before.2)
  rwa [append_nil, append_assoc _ f.before.1] at h

theorem ToolCallBlock.not_infix_body (b : ToolCallBlock) : ¬ toolCallEndToken <:+: b.body := by
  have hq : toolCallEndToken ∈ possibleTags := by decide
  have h := (Without.flatMap_append (g := FunctionBlock.text) (fun f r hr => ?_) b.functions
    (.nil hq)).plain_append hq b.before.2
  · rwa [append_nil] at h
  · have hend := hr.tag_append hq (by decide : functionEndToken ∈ possibleTags) (by decide)
      f.after.2
    have hparams := without_parameters f.parameters hend hq (by decide) (by decide)
    have hfun := hparams.tag_append hq (by decide : toolCallPrefix ∈ possibleTags) (by decide)
      (f.name.noTag_append f.before.2)
    simpa only [FunctionBlock.text, FunctionBlock.body, FunctionBlock.inner, append_assoc]
      using hfun

section OneShot

variable {V : Type*} (D : Qwen3CoderDetector V)

/-- The entries of a function's parameters, in the order of the text. -/
def members : List (Text × V) :=
  f.parameters.map fun p => (p.name.text, D.convert (some f.name.text) p.name.text p.value)

theorem length_le_flatMap {ι : Type*} {text : ι → Text} (h : ∀ x, text x ≠ []) (t : Text)
    (xs : List ι) : xs.length ≤ (t ++ xs.flatMap text).length := by
  induction xs with
  | nil => exact Nat.zero_le _
  | cons x xs ih =>
    have := length_pos_iff.mpr (h x)
    rw [length_append] at ih
    rw [flatMap_cons, length_append, length_append, length_cons]
    omega

theorem functionCall_body :
    D.functionCall f.body = some (f.name.text, (D.members f).foldl assign []) := by
  have hentry (p : Parameter) : D.parameterEntry f.name.text p.body =
      some (p.name.text, D.convert (some f.name.text) p.name.text p.value) := by
    rw [parameterEntry, Parameter.body, splitName_append]
    rfl
  have hfuel : f.parameters.length ≤ f.inner.length :=
    length_le_flatMap (fun p => append_ne_nil_of_left_ne_nil (by decide) _) _ _
  have hregex : parameterRegex f.inner.length f.inner = f.parameters.map Parameter.body :=
    parameterRegex_parameters f.parameters f.before.2 hfuel
  have hentries : D.parameterEntry f.name.text ∘ Parameter.body =
      some ∘ fun p => (p.name.text, D.convert (some f.name.text) p.name.text p.value) :=
    funext hentry
  rw [functionCall, FunctionBlock.body, splitName_append, Option.map_some]
  rw [hregex, filterMap_map, hentries, filterMap_eq_map]
  rfl

theorem functionRegex_body (b : ToolCallBlock) :
    (functionRegex b.body.length b.body).filterMap D.functionCall =
      b.functions.map fun f => (f.name.text, (D.members f).foldl assign []) := by
  have hfuel : b.functions.length ≤ b.body.length :=
    length_le_flatMap (fun f => append_ne_nil_of_left_ne_nil (by decide) _) _ _
  have hregex : functionRegex b.body.length b.body = b.functions.map FunctionBlock.body :=
    delimited_blocks (by decide) (by decide) FunctionBlock.body (fun f => f.after.1)
      (fun f => f.not_infix_body (by decide) (by decide) (by decide))
      (fun f => f.after.2 _ (by decide)) b.functions (b.before.2 _ (by decide)) hfuel
  have hcalls : D.functionCall ∘ FunctionBlock.body =
      some ∘ fun f => (f.name.text, (D.members f).foldl assign []) :=
    funext D.functionCall_body
  rw [hregex, filterMap_map, hcalls, filterMap_eq_map]

theorem rawToolCalls_text (d : Document) (hblocks : d.blocks ≠ []) :
    rawToolCalls d.text = d.blocks.map ToolCallBlock.body := by
  have hfuel : d.blocks.length ≤ d.text.length :=
    length_le_flatMap (fun b => append_ne_nil_of_left_ne_nil (by decide) _) _ _
  have hregex : toolCallRegex d.text.length d.text = d.blocks.map ToolCallBlock.body :=
    delimited_blocks (by decide) (by decide) ToolCallBlock.body (fun b => b.after.1)
      (fun b => b.not_infix_body) (fun b => b.after.2 _ (by decide)) d.blocks
      (d.plain.2 _ (by decide)) hfuel
  rw [rawToolCalls, hregex]
  split
  · rename_i hnil
    exact absurd (map_eq_nil_iff.mp hnil) hblocks
  · rfl

/-- One-shot parsing finds the functions of the document. -/
theorem detectAndParse_calls (d : Document) :
    (D.detectAndParse d.text).calls = d.functions.zipIdx.map fun f =>
      ⟨f.2, some f.1.name.text, D.given.dumpsDict ((D.members f.1).foldl assign [])⟩ := by
  unfold detectAndParse Document.functions
  by_cases hblocks : d.blocks = []
  · have hnone : find toolCallStartToken d.text = none := by
      rw [find_eq_none_iff, Document.text, hblocks, flatMap_nil, append_nil]
      exact d.plain.2 _ (by decide)
    rw [hnone, hblocks]
    rfl
  · obtain ⟨b, bs, hbs⟩ := exists_cons_of_ne_nil hblocks
    have hsome : find toolCallStartToken d.text = some d.plain.1.length := by
      rw [Document.text, hbs]
      exact find_tag (by decide) (d.plain.2 _ (by decide))
    rw [hsome, rawToolCalls_text d hblocks]
    rw [flatMap_map]
    simp only [D.functionRegex_body]
    rw [← map_flatMap, zipIdx_map, map_map]
    rfl

end OneShot

/-! ## The cursor -/

section Cursor

variable {V : Type*} {D : Qwen3CoderDetector V} {s : Qwen3CoderState} {t rest : Text} {q : Text}
  {i : ℕ}

/-- No tag is completed by a text that begins with a bracket. -/
theorem starts_of_starts_append (hq : q ∈ possibleTags) (ht : t ≠ [])
    (hrest : rest.head? = some '<') (h : q <+: t ++ rest) : q <+: t := by
  rcases prefix_append_cases h with hin | ⟨y, hy, heq, hyr⟩
  · exact hin
  · refine absurd ?_ (not_straddles_atTag (u := t) hq (Or.inr hrest))
    exact ⟨t, y, ht, hy, heq, suffix_refl t, hyr⟩

theorem not_append_starts (hq : q ∈ possibleTags) (ht : t ≠ [])
    (hrest : rest.head? = some '<') : ¬ t ++ rest <+: q := by
  rintro ⟨w, hw⟩
  have hne : rest ++ w ≠ [] := by
    rintro hnil
    rw [(append_eq_nil_iff.mp hnil).1] at hrest
    cases hrest
  refine not_straddles_atTag hq ?_ ⟨t, rest ++ w, ht, hne, ?_,
    suffix_refl t, prefix_refl _⟩
  · right
    cases rest with
    | nil => cases hrest
    | cons c rest => exact hrest
  · rw [← hw, append_assoc]

/-- The cursor passes over plain text that a tag follows. -/
theorem scan_plain (ht : NoTag t) (hrest : rest.head? = some '<') :
    D.letterCursor.scan s (t ++ rest) = (D.letterCursor.scan s rest).after (plain s t) := by
  refine scan_of_letters fun c u hu => ?_
  simp only [letterCursor, letterTurn]
  split
  · rename_i hc
    subst hc
    rw [turn_bracket, if_neg]
    · rintro ⟨q, hq, hstarts⟩
      exact not_append_starts hq (cons_ne_nil _ _) hrest hstarts
    · intro q hq hstarts
      have hin := starts_of_starts_append (mem_possibleTags hq)
        (cons_ne_nil _ _) hrest hstarts
      exact ht q (mem_possibleTags hq) (hin.isInfix.trans hu.isInfix)
  · rfl

theorem calls_plain : (plain s t).filterMap Sum.getRight? = [] := by
  unfold plain
  split
  · rfl
  · rw [filterMap_map, filterMap_eq_nil_iff]
    intro c _
    rfl

theorem calls_scan_plain (ht : NoTag t) :
    (D.letterCursor.scan s t).out.filterMap Sum.getRight? = [] := by
  induction s, t using D.letterCursor.induct with
  | stop s t h => rw [Cursor.scan_of_none h]; rfl
  | move s t k s' out h ih =>
    have hdrop : NoTag (t.drop k) := fun q hq hin => ht q hq (hin.trans (drop_suffix k t).isInfix)
    have hout : out.filterMap Sum.getRight? = [] := by
      cases t with
      | nil => cases h
      | cons c t =>
        simp only [letterCursor, letterTurn] at h
        split at h
        · rename_i hc
          subst hc
          rw [turn_bracket t fun q hq hstarts => ht q (mem_possibleTags hq) hstarts.isInfix]
            at h
          split at h
          · cases h
          · cases h
            exact calls_plain
        · cases h
          exact calls_plain
    rw [Cursor.scan_of_some h, Scan.after_out, filterMap_append, hout, ih hdrop]
    rfl

theorem next_eq_turn (hrest : rest.head? = some '<') :
    D.letterCursor.next s rest = D.turn s rest := by
  cases rest with
  | nil => cases hrest
  | cons c rest =>
    obtain rfl : c = '<' := by simpa using hrest
    simp [letterCursor, letterTurn]

theorem head_append (hq : q ∈ possibleTags) : (q ++ rest).head? = some '<' := by
  rcases atTag_append hq with h | h
  · exact absurd (append_eq_nil_iff.mp h).1 (headed_of_mem hq).1.ne_nil
  · exact h

/-- A turn in front of a tag. -/
theorem scan_turn {k : ℕ} {st' : Qwen3CoderState} {out : List Piece}
    (hq : q ∈ possibleTags) (h : D.turn s (q ++ t) = some (k, st', out))
    (hdrop : (q ++ t).drop k = rest) :
    D.letterCursor.scan s (q ++ t) = (D.letterCursor.scan st' rest).after out := by
  rw [← hdrop]
  exact Cursor.scan_of_some ((next_eq_turn (head_append hq)).trans h)

theorem scan_toolCallStart : D.letterCursor.scan s (toolCallStartToken ++ rest) =
      D.letterCursor.scan { s with isInsideToolCall := true } rest :=
  scan_turn (by decide) (turn_toolCallStart (prefix_append _ _)) (drop_left ..)

theorem scan_toolCallEnd : D.letterCursor.scan s (toolCallEndToken ++ rest) =
      D.letterCursor.scan { s with isInsideToolCall := false } rest :=
  scan_turn (by decide) (turn_toolCallEnd (prefix_append _ _)) (drop_left ..)

theorem scan_functionEnd : D.letterCursor.scan s (functionEndToken ++ rest) =
      (D.letterCursor.scan { s with jsonStarted := true, currentFuncName := none } rest).after
        (openBrace s ++ [fragment s ['}']]) :=
  scan_turn (by decide) (turn_functionEnd (prefix_append _ _)) (drop_left ..)

theorem find_close_tag (hq : '>' ∉ q) (name : TagName) (t : Text) :
    find ['>'] (q ++ (name.text ++ ['>'] ++ t)) = some (q.length + name.text.length) := by
  have hnot : ¬ ['>'] <:+: q := fun h => hq (h.subset (by simp))
  rw [find_append_right hnot not_straddles_singleton, find_close]
  rfl

theorem scan_functionStart (name : TagName) :
    D.letterCursor.scan s (toolCallPrefix ++ (name.text ++ ['>'] ++ rest)) =
      (D.letterCursor.scan (startFunction s name.text) rest).after
        [.inr ⟨s.currentToolId + 1, some name.text, []⟩] := by
  have htake : ((toolCallPrefix ++ (name.text ++ ['>'] ++ rest)).take
      (toolCallPrefix.length + name.text.length)).drop toolCallPrefix.length = name.text := by
    simp [take_append]
  have hturn := turn_function (D := D) (s := s)
    (prefix_append toolCallPrefix (name.text ++ ['>'] ++ rest))
  rw [find_close_tag (by decide), Option.map_some, htake] at hturn
  refine scan_turn (by decide) hturn ?_
  rw [Nat.add_assoc, ← drop_drop, drop_left, append_assoc, ← drop_drop, drop_left]
  rfl

variable (D) in
/-- The JSON text of one entry. -/
def memberText (m : Text × V) : Text := D.given.dumpsKey m.1 ++ ": ".toList ++ D.given.dumps m.2

/-- What is sent for one parameter. -/
theorem scan_parameter (p : Parameter) :
    D.letterCursor.scan s (parameterPrefix ++ (p.body ++ (parameterEndToken ++ rest))) =
      (D.letterCursor.scan { s with
          jsonStarted := true
          currentToolParamCount := s.currentToolParamCount + 1 } rest).after
        (openBrace s ++ [fragment s (D.member s p.name.text p.value)]) := by
  have hslice : p.body ++ (parameterEndToken ++ rest) =
      p.name.text ++ ['>'] ++ (p.value.1 ++ (parameterEndToken ++ rest)) := by
    rw [Parameter.body, append_assoc]
  have htake : ((parameterPrefix ++ (p.body ++ (parameterEndToken ++ rest))).take
      (parameterPrefix.length + p.name.text.length)).drop parameterPrefix.length = p.name.text := by
    rw [hslice]
    simp [take_append]
  have hdrop : (parameterPrefix ++ (p.body ++ (parameterEndToken ++ rest))).drop
      (parameterPrefix.length + p.name.text.length + 1) =
        p.value.1 ++ (parameterEndToken ++ rest) := by
    rw [hslice, Nat.add_assoc, ← drop_drop, drop_left, append_assoc, ← drop_drop, drop_left]
    rfl
  have hturn := turn_parameter (D := D) (s := s)
    (prefix_append parameterPrefix (p.body ++ (parameterEndToken ++ rest)))
  rw [hslice, find_close_tag (by decide), Option.bind_some, ← hslice, parameterTurn, hdrop,
    valueEnd_close p.value.2, Option.map_some, htake, take_left] at hturn
  refine scan_turn (by decide) hturn ?_
  rw [Nat.add_assoc _ p.value.1.length, ← drop_drop, hdrop, ← drop_drop, drop_left, drop_left]

/-! ## What is sent for a function -/

variable (D) in
/-- The fragments of the entries, `n` of which have been sent. -/
def entryTexts : ℕ → List (Text × V) → List Text
  | _, [] => []
  | 0, m :: ms => ['{'] :: D.memberText m :: entryTexts 1 ms
  | n + 1, m :: ms => (", ".toList ++ D.memberText m) :: entryTexts (n + 2) ms

variable (D) in
/-- All the fragments of a function. -/
def functionTexts (ms : List (Text × V)) : List Text :=
  D.entryTexts 0 ms ++ ((if ms = [] then [['{']] else []) ++ [['}']])

variable (D) in
/-- The JSON text of an object with these entries. -/
def objectText (ms : List (Text × V)) : Text :=
  ['{'] ++ (", ".toList).intercalate (ms.map D.memberText) ++ ['}']

def send (i : ℤ) (texts : List Text) : List ToolCallItem := texts.map fun x => ⟨i, none, x⟩

/-- The brace is sent with the first entry. -/
def Braced (s : Qwen3CoderState) : Prop := s.jsonStarted = decide (0 < s.currentToolParamCount)

theorem entryTexts_cons (m : Text × V) (ms : List (Text × V)) (hst : Braced s)
    {name value : Text} (hm : m = (name, D.convert s.currentFuncName name value)) :
    (D.entryTexts s.currentToolParamCount (m :: ms)).map (fragment s) =
      openBrace s ++ [fragment s (D.member s name value)] ++
        (D.entryTexts (s.currentToolParamCount + 1) ms).map (fragment s) := by
  subst hm
  unfold openBrace member
  rw [hst]
  cases s.currentToolParamCount <;> simp [entryTexts, memberText]

theorem head_flatMap {ι : Type*} {text : ι → Text} (hq : q ∈ possibleTags)
    (htext : ∀ x, q <+: text x) (xs : List ι) (hrest : rest.head? = some '<') :
    (xs.flatMap text ++ rest).head? = some '<' := by
  cases xs with
  | nil => exact hrest
  | cons x xs =>
    obtain ⟨u, hu⟩ := htext x
    rw [flatMap_cons, ← hu, append_assoc, append_assoc]
    exact head_append hq

theorem head_parameters (ps : List Parameter) (hrest : rest.head? = some '<') :
    (ps.flatMap Parameter.text ++ rest).head? = some '<' :=
  head_flatMap (by decide) (fun _ => prefix_append parameterPrefix _) ps hrest

theorem head_functions (fs : List FunctionBlock) (hrest : rest.head? = some '<') :
    (fs.flatMap FunctionBlock.text ++ rest).head? = some '<' :=
  head_flatMap (by decide) (fun _ => prefix_append toolCallPrefix _) fs hrest

/-- Text inside a tool call is dropped. -/
theorem scan_filler (p : Plain) (hinside : s.isInsideToolCall = true)
    (hrest : rest.head? = some '<') :
    D.letterCursor.scan s (p.1 ++ rest) = D.letterCursor.scan s rest := by
  have hplain : plain s p.1 = [] := by simp [plain, hinside]
  rw [scan_plain p.2 hrest, hplain, Scan.after_nil]

/-- The state after `n` more entries. -/
def afterEntries (s : Qwen3CoderState) (n : ℕ) : Qwen3CoderState :=
  { s with
    jsonStarted := decide (0 < s.currentToolParamCount + n)
    currentToolParamCount := s.currentToolParamCount + n }

theorem scan_parameters (ps : List Parameter) (hst : Braced s)
    (hinside : s.isInsideToolCall = true) (hrest : rest.head? = some '<') :
    D.letterCursor.scan s (ps.flatMap Parameter.text ++ rest) =
      (D.letterCursor.scan (afterEntries s ps.length) rest).after
        ((D.entryTexts s.currentToolParamCount (ps.map fun p =>
          (p.name.text, D.convert s.currentFuncName p.name.text p.value))).map (fragment s)) := by
  induction ps generalizing s with
  | nil =>
    have hsame : afterEntries s 0 = s := by
      unfold afterEntries
      rw [Nat.add_zero, ← hst]
    rw [length_nil, hsame]
    rfl
  | cons p ps ih =>
    let st' : Qwen3CoderState := { s with
      jsonStarted := true
      currentToolParamCount := s.currentToolParamCount + 1 }
    have hst' : Braced st' := (decide_eq_true (Nat.succ_pos _)).symm
    have hafter : afterEntries st' ps.length = afterEntries s (p :: ps).length := by
      simp only [afterEntries, st', length_cons, Nat.add_assoc, Nat.add_comm 1]
    have hnext := ih hst' hinside
    rw [flatMap_cons, Parameter.text]
    simp only [append_assoc]
    rw [scan_parameter p, scan_filler (s := st') p.after hinside
      (head_parameters ps hrest), hnext, Scan.after_after, hafter,
      map_cons, entryTexts_cons _ _ hst rfl]
    rfl

variable (D) in
/-- The items of the `i`-th function. -/
def functionItems (f : FunctionBlock) (i : ℕ) : List ToolCallItem :=
  ⟨i, some f.name.text, []⟩ :: send i (D.functionTexts (D.members f))

/-- The state after the function `f`. -/
def afterFunction (s : Qwen3CoderState) (f : FunctionBlock) : Qwen3CoderState where
  currentToolId := s.currentToolId + 1
  currentToolNameSent := true
  currentToolParamCount := f.parameters.length
  jsonStarted := true
  isInsideToolCall := true
  currentFuncName := none

theorem scan_function (hinside : s.isInsideToolCall = true)
    (hrest : rest.head? = some '<') (hi : s.currentToolId + 1 = i) :
    D.letterCursor.scan s (f.text ++ rest) = (D.letterCursor.scan (afterFunction s f) rest).after
        ((D.functionItems f i).map .inr) := by
  let st₁ := startFunction s f.name.text
  have hinside₁ : st₁.isInsideToolCall = true := hinside
  have hbraced : Braced st₁ := rfl
  have hend : (functionEndToken ++ (f.after.1 ++ rest)).head? = some '<' := head_append (by decide)
  have htext : f.text ++ rest = toolCallPrefix ++ (f.name.text ++ ['>'] ++ (f.before.1 ++
      (f.parameters.flatMap Parameter.text ++ (functionEndToken ++ (f.after.1 ++ rest))))) := by
    rw [FunctionBlock.text, FunctionBlock.body, FunctionBlock.inner]
    simp only [append_assoc]
  -- the header, the entries, the closing brace
  rw [htext, scan_functionStart, scan_filler f.before hinside₁
      (head_parameters f.parameters hend),
    scan_parameters f.parameters hbraced hinside₁ hend, scan_functionEnd,
    scan_filler f.after (by exact hinside₁) hrest]
  simp only [Scan.after_after]
  have hstate : ({ afterEntries st₁ f.parameters.length with
      jsonStarted := true, currentFuncName := none } : Qwen3CoderState) = afterFunction s f := by
    simp only [afterEntries, afterFunction, st₁, startFunction, hinside, Nat.zero_add]
  have hsend : ∀ texts : List Text, texts.map (fragment st₁) = (send i texts).map .inr := by
    intro texts
    simp only [send, map_map]
    exact map_congr_left fun x _ => by simp [fragment, st₁, startFunction, hi]
  have hbrace : openBrace (afterEntries st₁ f.parameters.length) =
      ((if D.members f = [] then [['{']] else []) : List Text).map (fragment st₁) := by
    unfold openBrace members
    cases f.parameters with
    | nil => rfl
    | cons p ps => simp [afterEntries]
  rw [hstate, hbrace]
  have hitems : (D.functionItems f i).map Sum.inr = Sum.inr ⟨i, some f.name.text, []⟩ ::
      (D.functionTexts (D.members f)).map (fragment st₁) := by
    rw [functionItems, map_cons, hsend]
  rw [hitems, functionTexts, map_append, map_append, hi]
  rfl

variable (D) in
/-- The items of functions numbered from `i` on. -/
def itemsFrom (i : ℕ) (fs : List FunctionBlock) : List ToolCallItem :=
  (fs.zipIdx i).flatMap fun f => D.functionItems f.1 f.2

theorem itemsFrom_cons (i : ℕ) (f : FunctionBlock) (fs : List FunctionBlock) :
    D.itemsFrom i (f :: fs) = D.functionItems f i ++ D.itemsFrom (i + 1) fs := by
  rfl

theorem itemsFrom_append (i : ℕ) (fs gs : List FunctionBlock) :
    D.itemsFrom i (fs ++ gs) = D.itemsFrom i fs ++ D.itemsFrom (i + fs.length) gs := by
  rw [itemsFrom, zipIdx_append, flatMap_append]
  rfl

theorem scan_functions (fs : List FunctionBlock) (hinside : s.isInsideToolCall = true)
    (hrest : rest.head? = some '<') (hi : s.currentToolId + 1 = i) :
    ∃ st' : Qwen3CoderState, st'.isInsideToolCall = true ∧
      st'.currentToolId + 1 = (i + fs.length : ℕ) ∧
      D.letterCursor.scan s (fs.flatMap FunctionBlock.text ++ rest) =
        (D.letterCursor.scan st' rest).after ((D.itemsFrom i fs).map .inr) := by
  induction fs generalizing s i with
  | nil => exact ⟨s, hinside, hi, rfl⟩
  | cons f fs ih =>
    have hnext : (afterFunction s f).currentToolId + 1 = (i + 1 : ℕ) := by
      simp only [afterFunction]
      omega
    obtain ⟨st', hinside', hid, hscan⟩ := ih rfl hnext
    refine ⟨st', hinside', ?_, ?_⟩
    · rw [length_cons]
      omega
    · rw [flatMap_cons, append_assoc, scan_function f hinside
        (head_functions fs hrest) hi, hscan,
        Scan.after_after, itemsFrom_cons, map_append]

/-- The items of a scan. -/
theorem calls_scan_append (p : Plain) (hat : AtTag rest) :
    (D.letterCursor.scan s (p.1 ++ rest)).out.filterMap Sum.getRight? =
      (D.letterCursor.scan s rest).out.filterMap Sum.getRight? := by
  rcases hat with rfl | hrest
  · rw [append_nil, calls_scan_plain p.2]
    rfl
  · rw [scan_plain p.2 hrest, Scan.after_out, filterMap_append, calls_plain, nil_append]

theorem atTag_blocks (bs : List ToolCallBlock) : AtTag (bs.flatMap ToolCallBlock.text) := by
  cases bs with
  | nil => exact Or.inl rfl
  | cons b bs =>
    rw [flatMap_cons, ToolCallBlock.text, append_assoc]
    exact atTag_append (by decide)

theorem calls_scan_blocks (bs : List ToolCallBlock) (hi : s.currentToolId + 1 = i) :
    (D.letterCursor.scan s (bs.flatMap ToolCallBlock.text)).out.filterMap Sum.getRight? =
      D.itemsFrom i (bs.flatMap (·.functions)) := by
  induction bs generalizing s i with
  | nil =>
    rfl
  | cons b bs ih =>
    let st₁ : Qwen3CoderState := { s with isInsideToolCall := true }
    have hend : (toolCallEndToken ++ (b.after.1 ++ bs.flatMap ToolCallBlock.text)).head? =
        some '<' := head_append (by decide)
    obtain ⟨st', -, hid, hscan⟩ := scan_functions (s := st₁) b.functions rfl hend hi
    have hitems : ∀ items : List ToolCallItem,
        (items.map (Sum.inr : ToolCallItem → Piece)).filterMap Sum.getRight? = items := by
      intro items
      rw [filterMap_map]
      exact filterMap_some
    have htext : (b :: bs).flatMap ToolCallBlock.text = toolCallStartToken ++ (b.before.1 ++
        (b.functions.flatMap FunctionBlock.text ++
          (toolCallEndToken ++ (b.after.1 ++ bs.flatMap ToolCallBlock.text)))) := by
      rw [flatMap_cons, ToolCallBlock.text, ToolCallBlock.body]
      simp only [append_assoc]
    rw [htext, scan_toolCallStart, scan_filler b.before rfl
      (head_functions b.functions hend), hscan,
      scan_toolCallEnd, Scan.after_out, filterMap_append, hitems,
      calls_scan_append b.after (atTag_blocks bs),
      ih (s := { st' with isInsideToolCall := false }) hid, flatMap_cons, itemsFrom_append]

/-- Streaming a document sends the items of its functions. -/
theorem stream_calls (d : Document) {cs : List Text} (hcs : cs.flatten = d.text) :
    (D.stream cs).2.2 = D.itemsFrom 0 d.functions := by
  rw [stream_eq, hcs, Document.text]
  dsimp only
  rw [calls_scan_append d.plain (atTag_blocks d.blocks), calls_scan_blocks d.blocks rfl]
  rfl

end Cursor

/-! ## The two sides agree -/

section Agreement

variable {V : Type*} {D : Qwen3CoderDetector V}

theorem flatten_entryTexts (n : ℕ) (ms : List (Text × V)) :
    (D.entryTexts (n + 1) ms).flatten = ms.flatMap fun m => ", ".toList ++ D.memberText m := by
  induction ms generalizing n with
  | nil => rfl
  | cons m ms ih => rw [entryTexts, flatten_cons, ih, flatMap_cons]

theorem flatten_functionTexts (ms : List (Text × V)) :
    (D.functionTexts ms).flatten = D.objectText ms := by
  unfold functionTexts objectText
  cases ms with
  | nil => rfl
  | cons m ms =>
    rw [entryTexts, flatten_append,
      flatten_cons, flatten_cons, flatten_entryTexts]
    rw [map_cons, intercalate_cons, flatMap_map]
    simp

theorem named_functionItems (i : ℕ) :
    named (D.functionItems f i) = [⟨i, some f.name.text, []⟩] := by
  simp [named, functionItems, send]

theorem fragments_send (i j : ℕ) (texts : List Text) :
    fragments (send i texts) j = if i = j then texts.flatten else [] := by
  induction texts with
  | nil => simp [send, fragments]
  | cons x texts ih =>
    have hcons : send i (x :: texts) = [⟨i, none, x⟩] ++ send i texts := rfl
    have hone : fragments [⟨(i : ℤ), none, x⟩] j = if i = j then x else [] := by
      by_cases hij : i = j
      · subst hij
        simp [fragments]
      · have hcast : (i : ℤ) ≠ j := by omega
        simp [fragments, hij, hcast]
    rw [hcons, fragments_append, hone, ih]
    split <;> simp

theorem fragments_functionItems (i j : ℕ) :
    fragments (D.functionItems f i) j = if i = j then D.objectText (D.members f) else [] := by
  have hname : fragments (D.functionItems f i) j =
      fragments (send i (D.functionTexts (D.members f))) j := by
    simp [functionItems, fragments]
  rw [hname, fragments_send, flatten_functionTexts]

/-- The names that were sent, with their indices. -/
theorem named_itemsFrom (fs : List FunctionBlock) (i : ℕ) :
    named (D.itemsFrom i fs) = (fs.zipIdx i).map fun f => ⟨f.2, some f.1.name.text, []⟩ := by
  induction fs generalizing i with
  | nil => rfl
  | cons f fs ih =>
    rw [itemsFrom_cons, named_append, named_functionItems, ih]
    rfl

theorem fragments_itemsFrom (fs : List FunctionBlock) (i j : ℕ) :
    fragments (D.itemsFrom i fs) j = if j < i then [] else
      (fs[j - i]?.map fun f => D.objectText (D.members f)).getD [] := by
  induction fs generalizing i with
  | nil => split <;> rfl
  | cons f fs ih =>
    rw [itemsFrom_cons, fragments_append, fragments_functionItems, ih]
    rcases Nat.lt_trichotomy i j with hlt | rfl | hgt
    · obtain ⟨k, rfl⟩ := Nat.exists_eq_add_of_lt hlt
      simp [show ¬ i + k + 1 < i + 1 by omega, show ¬ i + k + 1 < i by omega,
        show i + k + 1 - i = k + 1 by omega, show i + k + 1 - (i + 1) = k by omega, hlt.ne]
    · simp
    · simp [hgt, hgt.ne', show j < i + 1 by omega]

/-- The stream does not depend on how the text is cut, and on a document it makes the calls of
one-shot parsing: the same names under the same indices, and as the fragments of each call the
JSON text of entries whose dictionary one-shot parsing serialises. -/
theorem stream_agrees (D : Qwen3CoderDetector V) :
    (∀ cs : List Text, D.stream cs = D.stream [cs.flatten]) ∧
      ∀ (d : Document) (cs : List Text), cs.flatten = d.text →
        (named (D.stream cs).2.2).map (fun x => (x.toolIndex, x.name)) =
            (D.detectAndParse d.text).calls.map (fun x => (x.toolIndex, x.name)) ∧
          ∀ (i : ℕ) (call : ToolCallItem), (D.detectAndParse d.text).calls[i]? = some call →
            call.toolIndex = i ∧ ∃ ms : List (Text × V),
              fragments (D.stream cs).2.2 i = D.objectText ms ∧
                call.parameters = D.given.dumpsDict (ms.foldl assign []) := by
  constructor
  · intro cs
    rw [stream_eq, stream_eq, flatten_singleton]
  · intro d cs hcs
    rw [stream_calls d hcs, detectAndParse_calls]
    constructor
    · rw [named_itemsFrom, map_map, map_map]
      rfl
    · intro i call hcall
      rw [List.getElem?_map, List.getElem?_zipIdx, Option.map_map] at hcall
      obtain ⟨f, hf, rfl⟩ := Option.map_eq_some_iff.mp hcall
      have hfragments := fragments_itemsFrom (D := D) d.functions 0 i
      rw [Nat.sub_zero, hf] at hfragments
      exact ⟨by simp, D.members f, hfragments, rfl⟩

def quoted (text : Text) : Text := '"' :: text ++ ['"']

/-- Values are kept as texts; the serialiser escapes nothing. -/
def verbatim : Qwen3CoderDetector Text where
  tools := []
  given :=
    { convertParamValue := fun value _ _ _ => value
      dumpsKey := quoted
      dumps := quoted
      dumpsDict := fun d => ['{'] ++ (", ".toList).intercalate
        (d.map fun e => quoted e.1 ++ ": ".toList ++ quoted e.2) ++ ['}'] }

/-- A document with one call `f(a = 1)`. -/
def oneCall : Document where
  plain := ⟨"hi ".toList, by decide⟩
  blocks := [{
    before := ⟨"\n".toList, by decide⟩
    functions := [{
      name := ⟨"f".toList, by decide, by decide⟩
      before := ⟨"\n".toList, by decide⟩
      parameters := [{
        name := ⟨"a".toList, by decide, by decide⟩
        value := ⟨"\n1\n".toList, by decide⟩
        after := ⟨"\n".toList, by decide⟩ }]
      after := ⟨"\n".toList, by decide⟩ }]
    after := ⟨[], by decide⟩ }]

/-- Its text with cuts inside the tags. -/
def oneCallChunks : List Text :=
  ["hi <tool".toList, "_call>\n<func".toList, "tion=f>\n<parame".toList,
    "ter=a>\n1\n</para".toList, "meter>\n</function>\n</tool_call>".toList]

def oneObject : Text := "\x7b\"a\": \"1\"\x7d".toList

/-- Both ways give the object with the entry `"a": "1"` under the index 0. -/
theorem stream_agrees_oneCall :
    (named (verbatim.stream oneCallChunks).2.2).map (fun x => (x.toolIndex, x.name)) =
        [(0, some "f".toList)] ∧
      (verbatim.detectAndParse oneCall.text).calls = [⟨0, some "f".toList, oneObject⟩] ∧
      fragments (verbatim.stream oneCallChunks).2.2 0 = oneObject ∧
      ∃ ms, verbatim.objectText ms = oneObject ∧
        verbatim.given.dumpsDict (ms.foldl assign []) = oneObject := by
  have htext : oneCallChunks.flatten = oneCall.text := by decide
  have hcalls : (verbatim.detectAndParse oneCall.text).calls =
      [⟨0, some "f".toList, oneObject⟩] := by decide +kernel
  have hsent : fragments (verbatim.stream oneCallChunks).2.2 0 = oneObject := by decide +kernel
  obtain ⟨hnames, hfragments⟩ := verbatim.stream_agrees.2 oneCall oneCallChunks htext
  rw [hcalls] at hnames hfragments
  obtain ⟨-, ms, hms, hdict⟩ := hfragments 0 _ rfl
  exact ⟨hnames, hcalls, hsent, ms, hms.symm.trans hsent, hdict.symm⟩

end Agreement

end Qwen3CoderDetector

end Sglang.FunctionCall
