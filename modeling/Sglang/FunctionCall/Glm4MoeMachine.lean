import Sglang.FunctionCall.Glm4Moe
import Sglang.Support.Hold

/-!
# The machine on the arguments of a call

Outside values the machine waits for its next tag at the end of a growing
buffer. Inside a value it compares the buffer with the closing tag and gives up
the comparison, with everything buffered, at the first letter that does not fit.
`roll` is that comparison on its own: a value is passed over when the comparison
is not under way at its end.
-/

namespace Sglang.FunctionCall

open Sglang.Support List

namespace JsonEncoding

variable {J : JsonEncoding}

theorem escape_ne_nil (c : Char) : J.escape c ≠ [] := by
  intro h
  have hstarts (d : Char) : c = d := J.eq_of_starts (h ▸ nil_prefix)
  exact absurd ((hstarts 'a').symm.trans (hstarts 'b')) (by decide)

@[simp] theorem inner_nil : J.inner [] = [] := rfl

theorem inner_append (s t : Text) : J.inner (s ++ t) = J.inner s ++ J.inner t := flatMap_append

/-- Quoted texts are read in one way. -/
theorem eq_of_inner_starts {s t u v w : Text}
    (h : J.inner s ++ '"' :: u <+: w) (h' : J.inner t ++ '"' :: v <+: w) : s = t := by
  have hquote {c : Char} {a b : Text} (ha : '"' :: a <+: b) (hb : J.escape c <+: b) : False := by
    obtain ⟨d, e, hde⟩ := List.exists_cons_of_ne_nil (J.escape_ne_nil c)
    have hhead := J.head_ne c
    rw [hde] at hb hhead
    obtain ⟨w, rfl⟩ := ha
    obtain ⟨rfl, -⟩ := List.cons_prefix_cons.mp hb
    exact hhead rfl
  have hfirst {c : Char} {s u w : Text} (h : J.inner (c :: s) ++ '"' :: u <+: w) :
      J.escape c <+: w := by
    refine List.IsPrefix.trans ?_ h
    exact ⟨J.inner s ++ '"' :: u, by simp [inner]⟩
  induction s generalizing t w with
  | nil =>
    cases t with
    | nil => rfl
    | cons c t => exact (hquote h (hfirst h')).elim
  | cons c s ih =>
    cases t with
    | nil => exact (hquote h' (hfirst h)).elim
    | cons d t =>
      obtain rfl : c = d := by
        rcases List.prefix_or_prefix_of_prefix (hfirst h) (hfirst h') with hcd | hdc
        · exact J.eq_of_starts hcd
        · exact (J.eq_of_starts hdc).symm
      obtain ⟨w', rfl⟩ := hfirst h
      have htail {s u : Text} (h : J.inner (c :: s) ++ '"' :: u <+: J.escape c ++ w') :
          J.inner s ++ '"' :: u <+: w' := by
        rw [inner, List.flatMap_cons, List.append_assoc, List.prefix_append_right_inj] at h
        exact h
      rw [ih (htail h) (htail h')]

end JsonEncoding

namespace Glm4MoeDetector

/-! ## The comparison with the closing tag -/

/-- The letters held back after a value, starting from those held back before it; `none` where
the closing tag has been read. -/
def roll : Text → Text → Option Text
  | held, [] => some held
  | held, c :: t =>
    if held ++ [c] = closingTag then none
    else if held ++ [c] <+: closingTag then roll (held ++ [c]) t
    else roll [] t

/-- The machine reads the value to its end and holds nothing back there. -/
def Passes (value : Text) : Prop := roll [] value = some []

instance (value : Text) : Decidable (Passes value) :=
  inferInstanceAs (Decidable (roll [] value = some []))

variable {D : Glm4MoeDetector} {f : Text} {x : XmlState} {tag v held' : Text} {type : ValueType}

@[simp] theorem process_nil : D.processXmlToJsonStreaming f x [] = (x, []) := rfl

theorem process_cons (c : Char) (t : Text) : D.processXmlToJsonStreaming f x (c :: t) =
      ((D.processXmlToJsonStreaming f (D.xmlStep f x c).1 t).1,
        (D.xmlStep f x c).2 ++ (D.processXmlToJsonStreaming f (D.xmlStep f x c).1 t).2) := rfl

theorem process_append (s t : Text) : D.processXmlToJsonStreaming f x (s ++ t) =
      ((D.processXmlToJsonStreaming f (D.processXmlToJsonStreaming f x s).1 t).1,
        (D.processXmlToJsonStreaming f x s).2 ++
          (D.processXmlToJsonStreaming f (D.processXmlToJsonStreaming f x s).1 t).2) := by
  induction s generalizing x with
  | nil => rfl
  | cons c s ih => rw [List.cons_append, process_cons, ih, process_cons, List.append_assoc]

/-! ## Outside values -/

/-- The same state with another buffer. -/
def hold (x : XmlState) (buffer : Text) : XmlState := { x with xmlTagBuffer := buffer }

@[simp] theorem hold_streamState (b : Text) : (hold x b).streamState = x.streamState := rfl
@[simp] theorem hold_xmlTagBuffer (b : Text) : (hold x b).xmlTagBuffer = b := rfl
@[simp] theorem hold_hold (b b' : Text) : hold (hold x b) b' = hold x b' := rfl
@[simp] theorem hold_self : hold x x.xmlTagBuffer = x := rfl

/-- The tag that is waited for. -/
def awaited : StreamState → Option Text
  | .init => some keyStart
  | .between => some keyStart
  | .inKey => some keyEnd
  | .waitingValue => some valueStart
  | .inValue => none

/-- What the awaited tag does, with the buffer it ends. -/
def enter (D : Glm4MoeDetector) (f : Text) (x : XmlState) (buffer : Text) : XmlState × Text :=
  match x.streamState with
  | .init | .between =>
    ({ x with
        streamState := .inKey
        currentKey := []
        xmlTagBuffer := []
        isFirstParam := false },
      if x.isFirstParam then ['{'] else ", ".toList)
  | .inKey =>
    let key := strip (buffer.take (buffer.length - keyEnd.length))
    ({ x with streamState := .waitingValue, currentKey := key, xmlTagBuffer := [] },
      D.json.dumps key ++ ": ".toList)
  | .waitingValue =>
    ({ x with
        streamState := .inValue
        currentValue := []
        xmlTagBuffer := []
        valueStarted := false
        cachedValueType := some (D.getValueType f x.currentKey) }, [])
  | .inValue => (x, [])

section

variable (h : awaited x.streamState = some tag)
include h

theorem xmlStep_outside (c : Char) : D.xmlStep f x c =
      if tag <:+ x.xmlTagBuffer ++ [c] then enter D f x (x.xmlTagBuffer ++ [c])
      else (hold x (x.xmlTagBuffer ++ [c]), []) := by
  obtain ⟨stage, key, value, buffer, first, started, type⟩ := x
  cases stage with
  | inValue => cases h
  | _ =>
    cases h
    rfl

/-- The buffer is only read where it is handed over. -/
theorem enter_hold (b buffer : Text) : enter D f (hold x b) buffer = enter D f x buffer := by
  obtain ⟨stage, key, value, buffer', first, started, type⟩ := x
  cases stage with
  | inValue => cases h
  | _ => rfl

/-- Text without the awaited tag is only buffered. -/
theorem process_outside (t : Text) (ht : ¬ tag <:+: x.xmlTagBuffer ++ t) :
    D.processXmlToJsonStreaming f x t = (hold x (x.xmlTagBuffer ++ t), []) := by
  induction t generalizing x with
  | nil => simp
  | cons c t ih =>
    have hnot : ¬ tag <:+ x.xmlTagBuffer ++ [c] := by
      intro hs
      refine ht (hs.isInfix.trans ?_)
      exact ⟨[], t, by simp⟩
    have hrest := ih (x := hold x (x.xmlTagBuffer ++ [c])) h (by simpa using ht)
    rw [process_cons, xmlStep_outside h, if_neg hnot, hrest]
    simp

/-- The awaited tag behind such text is recognised. -/
theorem process_tag (htag : Headed tag)
    (hlong : 1 < tag.length) (t : Text) (ht : ¬ tag <:+: x.xmlTagBuffer ++ t) :
    D.processXmlToJsonStreaming f x (t ++ tag) = enter D f x (x.xmlTagBuffer ++ t ++ tag) := by
  obtain ⟨q, c, rfl⟩ := (List.eq_nil_or_concat' tag).resolve_left htag.ne_nil
  have hq : q ≠ [] := by
    rintro rfl
    simp at hlong
  -- the tag is not in the buffer before its last letter
  have hbefore : ¬ q ++ [c] <:+: x.xmlTagBuffer ++ (t ++ q) := by
    rw [← List.append_assoc]
    intro hin
    rcases infix_append_cases hin with hin | hin | hin
    · exact ht hin
    · have := hin.length_le
      rw [List.length_append, List.length_singleton] at this
      omega
    · have hhead : q.head? = (q ++ [c]).head? := by
        cases q with
        | nil => exact absurd rfl hq
        | cons d q => rfl
      refine htag.not_straddles (u := x.xmlTagBuffer ++ t) (v := []) hhead ?_
      rwa [List.append_nil]
  have hlast : D.xmlStep f (hold x (x.xmlTagBuffer ++ (t ++ q))) c =
      enter D f x (x.xmlTagBuffer ++ t ++ (q ++ [c])) := by
    rw [xmlStep_outside (x := hold x (x.xmlTagBuffer ++ (t ++ q))) h, hold_xmlTagBuffer, if_pos,
      enter_hold h]
    · simp
    · exact ⟨x.xmlTagBuffer ++ t, by simp⟩
  rw [← List.append_assoc, process_append, process_outside h (t ++ q) hbefore, process_cons]
  simp [hlast]

end

/-! ## Inside a value -/

/-- A letter inside a value, while the buffer begins the closing tag. -/
theorem xmlStep_inValue (hx : x.streamState = .inValue) (hheld : x.xmlTagBuffer <+: closingTag)
    (c : Char) : D.xmlStep f x c =
      if x.xmlTagBuffer ++ [c] = closingTag then D.closeValue x closingTag
      else if x.xmlTagBuffer ++ [c] <+: closingTag then (hold x (x.xmlTagBuffer ++ [c]), [])
      else D.passContent x (x.xmlTagBuffer ++ [c]) := by
  have hsuffix : closingTag <:+ x.xmlTagBuffer ++ [c] ↔ x.xmlTagBuffer ++ [c] = closingTag := by
    constructor
    · intro h
      have hle := h.length_le
      have hle' := hheld.length_le
      rw [List.length_append, List.length_singleton] at hle
      rcases Nat.lt_or_ge x.xmlTagBuffer.length closingTag.length with hlt | hge
      · exact (h.eq_of_length (by rw [List.length_append, List.length_singleton]; omega)).symm
      · -- the whole tag and one letter more do not end with the tag
        rw [hheld.eq_of_length (le_antisymm hle' hge)] at h
        obtain ⟨w, hw⟩ := h
        obtain ⟨a, rfl⟩ : ∃ a, w = [a] := by
          have := congrArg List.length hw
          rw [List.length_append, List.length_append, List.length_singleton] at this
          exact List.length_eq_one_iff.mp (by omega)
        have hletters : closingTag = '<' :: '/' :: "arg_value>".toList := rfl
        rw [hletters, List.singleton_append, List.cons_append, List.cons_append] at hw
        obtain ⟨-, hw⟩ := List.cons.inj hw
        exact absurd (List.cons.inj hw).1 (by decide)
    · intro h
      rw [h]
  obtain ⟨stage, key, value, buffer, first, started, type⟩ := x
  cases hx
  simp only at hsuffix
  unfold xmlStep
  simp only [hsuffix]
  split
  · rename_i h
    rw [h]
  · rfl

/-- What the machine has put out for the letters `p` of a value. -/
def passed (D : Glm4MoeDetector) (type : ValueType) (started : Bool) (p : Text) : Text :=
  if type = .string then
    (if started ∨ p = [] then [] else ['"']) ++ D.json.inner p
  else p

/-- The state after the letters `p` of a value, with `held` letters not yet decided. -/
def afterLetters (x : XmlState) (p held : Text) : XmlState :=
  { x with
    valueStarted := x.valueStarted || !p.isEmpty
    currentValue := x.currentValue ++ p
    xmlTagBuffer := held }

/-- The machine on a value it reads to the end: all but the held letters are passed on. -/
theorem process_roll (hx : x.streamState = .inValue)
    (hheld : x.xmlTagBuffer <+: closingTag) (h : roll x.xmlTagBuffer v = some held') :
    ∃ p, x.xmlTagBuffer ++ v = p ++ held' ∧ held' <+: closingTag ∧
      D.processXmlToJsonStreaming f x v =
        (afterLetters x p held', passed D (x.cachedValueType.getD .string) x.valueStarted p) := by
  induction v generalizing x with
  | nil =>
    cases h
    refine ⟨[], by simp, hheld, ?_⟩
    simp [afterLetters, passed]
  | cons c v ih =>
    rw [roll] at h
    split at h
    · cases h
    · rename_i hclose
      rw [process_cons, xmlStep_inValue hx hheld, if_neg hclose]
      split at h
      · rename_i hpre
        obtain ⟨p, hp, hheld', hrun⟩ := ih (x := hold x (x.xmlTagBuffer ++ [c])) hx hpre h
        refine ⟨p, by simpa using hp, hheld', ?_⟩
        rw [if_pos hpre, hrun]
        rfl
      · rename_i hpre
        obtain ⟨p, hp, hheld', hrun⟩ :=
          ih (x := (D.passContent x (x.xmlTagBuffer ++ [c])).1) hx nil_prefix h
        refine ⟨x.xmlTagBuffer ++ [c] ++ p, ?_, hheld', ?_⟩
        · rw [append_assoc _ p, ← hp]
          simp [passContent]
        · have hne : x.xmlTagBuffer ++ [c] ++ p ≠ [] := by simp
          rw [if_neg hpre, hrun]
          simp only [passContent, afterLetters, passed, hne, Prod.mk.injEq]
          refine ⟨by simp, ?_⟩
          rw [JsonEncoding.inner_append (x.xmlTagBuffer ++ [c]) p]
          split <;> simp

/-- Where the comparison succeeds, it has held back all but the last letter of the tag. -/
theorem exists_close_of_roll {held : Text} (h : roll held v = none) :
    ∃ u c t held', v = u ++ c :: t ∧ roll held u = some held' ∧ held' ++ [c] = closingTag := by
  induction v generalizing held with
  | nil => cases h
  | cons c v ih =>
    rw [roll] at h
    split at h
    · rename_i hclose
      exact ⟨[], c, v, held, rfl, rfl, hclose⟩
    · rename_i hclose
      have hroll (u : Text) : roll held (c :: u) =
          if held ++ [c] <+: closingTag then roll (held ++ [c]) u else roll [] u := by
        rw [roll, if_neg hclose]
      split at h
      all_goals
        rename_i hpre
        obtain ⟨u, d, t, held', rfl, hu, hd⟩ := ih h
        refine ⟨c :: u, d, t, held', rfl, ?_, hd⟩
        rw [hroll]
      · rw [if_pos hpre, hu]
      · rw [if_neg hpre, hu]

theorem roll_append {held u : Text} (h : roll held u = some held') :
    roll held (u ++ v) = roll held' v := by
  induction u generalizing held with
  | nil =>
    cases h
    rfl
  | cons c u ih =>
    rw [cons_append, roll]
    rw [roll] at h
    grind

/-- The JSON text of a value of a declared type. -/
def encode (D : Glm4MoeDetector) (type : ValueType) (v : Text) : Text :=
  if type = .string then D.json.dumps v else v

/-- At the start of a value of type `type`. -/
structure AtValue (x : XmlState) (type : ValueType) : Prop where
  stage : x.streamState = .inValue
  buffer : x.xmlTagBuffer = []
  notStarted : x.valueStarted = false
  value : x.currentValue = []
  typed : x.cachedValueType = some type

/-- Between two arguments. -/
def closed (x : XmlState) : XmlState :=
  { x with
    streamState := .between
    currentValue := []
    xmlTagBuffer := []
    valueStarted := false
    cachedValueType := none }

/-- The value is closed by the letter that completes the comparison. -/
theorem process_close (hx : AtValue x type) (htype : type ≠ .number)
    {p : Text} {c : Char} (hroll : roll [] (p ++ held') = some held')
    (hc : held' ++ [c] = closingTag) :
    D.processXmlToJsonStreaming f x (p ++ held' ++ [c]) = (closed x, encode D type p) := by
  obtain ⟨p', hp', hheld, hrun⟩ := process_roll hx.stage
    (hx.buffer ▸ nil_prefix) (hx.buffer ▸ hroll)
  obtain rfl : p' = p := by
    rw [hx.buffer, nil_append] at hp'
    exact (append_cancel_right hp').symm
  have hstep : D.xmlStep f (afterLetters x p' held') c =
      D.closeValue (afterLetters x p' held') closingTag := by
    rw [xmlStep_inValue (x := afterLetters x p' held') hx.stage hheld]
    exact if_pos hc
  rw [process_append, hrun, process_cons, hstep]
  simp only [process_nil, append_nil, closeValue, afterLetters, hx.notStarted, hx.value,
    hx.typed, passed, Bool.false_or, Nat.sub_self, take_zero]
  refine Prod.ext rfl ?_
  cases type with
  | number => exact absurd rfl htype
  | string =>
    cases p' with
    | nil => simp [formatValueComplete, encode]
    | cons d p' => simp [encode, JsonEncoding.dumps]
  | other =>
    cases p' with
    | nil => simp [formatValueComplete, encode]
    | cons d p' => simp [encode]

/-- The closing tag is compared letter by letter. -/
theorem roll_closing : roll [] closingTag.dropLast = some closingTag.dropLast := by decide

theorem process_value (hx : AtValue x type) (htype : type ≠ .number) (hv : Passes v) :
    D.processXmlToJsonStreaming f x (v ++ closingTag) = (closed x, encode D type v) := by
  have hroll : roll [] (v ++ closingTag.dropLast) = some closingTag.dropLast :=
    (roll_append hv).trans roll_closing
  have hclose := process_close (D := D) (f := f) hx htype hroll rfl
  rwa [append_assoc] at hclose

/-- A value that leaves the comparison under way is continued by the letters of its tag. -/
theorem process_held (hx : AtValue x type)
    (hroll : roll [] v = some held') (hheld : held' ≠ []) (t : Text) :
    ∃ more, (D.processXmlToJsonStreaming f x (v ++ ('<' :: t))).2 =
      (if type = .string then '"' :: D.json.inner (v ++ ['<']) else v ++ ['<']) ++ more := by
  obtain ⟨p, hp, hpre, hrun⟩ := process_roll (D := D) (f := f) hx.stage
    (hx.buffer ▸ List.nil_prefix) (hx.buffer ▸ hroll)
  rw [hx.buffer, List.nil_append] at hp
  -- a second bracket does not continue the closing tag
  have hbracket : ¬ held' ++ ['<'] <+: closingTag := by
    intro h
    obtain ⟨d, held, rfl⟩ := List.exists_cons_of_ne_nil hheld
    have htag : closingTag = '<' :: "/arg_value>".toList := rfl
    rw [htag, cons_append, cons_prefix_cons] at h
    exact absurd (h.2.subset (mem_append_right held (mem_singleton_self '<'))) (by decide)
  have hne : held' ++ ['<'] ≠ closingTag := fun h => hbracket (h ▸ prefix_refl _)
  have hstep : D.xmlStep f (afterLetters x p held') '<' =
      D.passContent (afterLetters x p held') (held' ++ ['<']) := by
    rw [xmlStep_inValue (x := afterLetters x p held') hx.stage hpre]
    exact (if_neg hne).trans (if_neg hbracket)
  rw [process_append, hrun, process_cons, hstep]
  refine ⟨(D.processXmlToJsonStreaming f
    (D.passContent (afterLetters x p held') (held' ++ ['<'])).1 t).2, ?_⟩
  dsimp only
  rw [← append_assoc]
  congr 1
  rw [hp, append_assoc p held']
  simp only [passed, passContent, afterLetters, hx.typed, hx.notStarted, Option.getD_some]
  split
  · rw [JsonEncoding.inner_append p]
    cases p <;> simp
  · rfl

end Glm4MoeDetector

end Sglang.FunctionCall
