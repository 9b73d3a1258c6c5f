import Sglang.FunctionCall.Glm4MoeMachine

/-!
# The JSON text of the arguments

A call is given by its name and its arguments. On arguments whose keys need no
stripping and whose values the machine passes over, the output is the JSON text
up to the last brace. At the first other argument the output leaves the JSON
text for good.
-/

namespace Sglang.FunctionCall

open Sglang.Support List

namespace Glm4MoeDetector

def tags : List Text := [botToken, eotToken, keyStart, keyEnd, valueStart, closingTag]

def NoTag (t : Text) : Prop := ∀ tag ∈ tags, ¬ tag <:+: t

instance (t : Text) : Decidable (NoTag t) :=
  inferInstanceAs (Decidable (∀ tag ∈ tags, ¬ tag <:+: t))

/-- White space between tags. -/
abbrev Space := { t : Text // ∀ c ∈ t, isSpace c = true }

/-- One pair of a key and a value; a text value holds no tag. -/
structure Argument where
  before : Space
  key : Text
  sep : Space
  value : Text
  type : ValueType
  key_noTag : NoTag key
  typed : type = .string ∧ NoTag value ∨ type = .other

/-- A call of a tool that declares the types of all its arguments. -/
structure Call (D : Glm4MoeDetector) where
  name : Text
  args : List Argument
  after : Space
  oneLine : lineEnd name = none
  trimmed : strip name = name
  named : name ≠ []
  declared : ∀ a ∈ args, D.getArgumentType name a.key = some a.type

def Argument.core (a : Argument) : Text :=
  keyStart ++ (a.key ++ (keyEnd ++ (a.sep.1 ++ (valueStart ++ (a.value ++ closingTag)))))

def Argument.text (a : Argument) : Text := a.before.1 ++ a.core

/-- An argument up to its value. -/
def Argument.header (a : Argument) : Text :=
  keyStart ++ (a.key ++ (keyEnd ++ (a.sep.1 ++ valueStart)))

theorem Argument.text_eq (a : Argument) :
    a.text = (a.before.1 ++ a.header) ++ (a.value ++ closingTag) := by
  simp [Argument.text, Argument.core, Argument.header]

def Argument.member (D : Glm4MoeDetector) (a : Argument) : Text :=
  D.json.dumps a.key ++ ": ".toList ++ encode D a.type a.value

/-- The separator before a key. -/
def lead (first : Bool) : Text := if first then ['{'] else ", ".toList

/-- The members, each behind the brace or a comma. -/
def bodyText : Bool → List Text → Text
  | _, [] => []
  | first, m :: ms => lead first ++ (m ++ bodyText false ms)

theorem bodyText_append (first : Bool) (ms : List Text) (m : Text) (ns : List Text) :
    bodyText first (ms ++ m :: ns) =
      bodyText first ms ++ (lead (first && ms.isEmpty) ++ (m ++ bodyText false ns)) := by
  induction ms generalizing first with
  | nil => simp [bodyText]
  | cons m' ms ih => simp [bodyText, ih]

/-- What a client should have received. -/
def Call.expected {D : Glm4MoeDetector} (c : Call D) : Text :=
  ['{'] ++ (", ".toList).intercalate (c.args.map (Argument.member D)) ++ ['}']

/-- The key is sent as it is, and the value is read to its end. -/
def Argument.Good (a : Argument) : Prop := strip a.key = a.key ∧ Passes a.value

instance (a : Argument) : Decidable a.Good :=
  inferInstanceAs (Decidable (strip a.key = a.key ∧ Passes a.value))

/-! ## Where tags occur -/

theorem headed_of_mem {tag : Text} (h : tag ∈ tags) :
    Headed tag ∧ tag.head? = some '<' ∧ 1 < tag.length := by
  have hall : ∀ tag ∈ tags, Headed tag ∧ tag.head? = some '<' ∧ 1 < tag.length := by decide
  exact hall tag h

theorem not_infix_space {tag : Text} (h : tag ∈ tags) (s : Space) : ¬ tag <:+: s.1 := by
  intro hin
  have hmem : '<' ∈ tag := mem_of_mem_head? (headed_of_mem h).2.1
  exact absurd (s.2 '<' (hin.subset hmem)) (by decide)

variable {D : Glm4MoeDetector} {f : Text} {x : XmlState} {first : Bool} {z : XmlState} {u : Text}

/-- Outside a key or a value, with an empty buffer. -/
structure Outside (x : XmlState) (first : Bool) : Prop where
  stage : awaited x.streamState = some keyStart
  buffer : x.xmlTagBuffer = []
  first : x.isFirstParam = first

theorem enter_keyStart (hstage : awaited x.streamState = some keyStart)
    (hfirst : x.isFirstParam = first) (buffer : Text) : enter D f x buffer = ({ x with
          streamState := .inKey
          currentKey := []
          xmlTagBuffer := []
          isFirstParam := false }, lead first) := by
  obtain ⟨stage, key, value, buffer, isFirst, started, type⟩ := x
  cases hfirst
  cases stage with
  | init => rfl
  | between => rfl
  | inKey => exact absurd (Option.some.inj hstage) (by decide : keyEnd ≠ keyStart)
  | waitingValue => exact absurd (Option.some.inj hstage) (by decide : valueStart ≠ keyStart)
  | inValue => cases hstage

/-- A key is read up to its closing tag. -/
theorem process_key (hx : Outside x first) (s : Space) {k : Text} (hk : NoTag k) :
    ∃ y : XmlState, y.streamState = .waitingValue ∧ y.xmlTagBuffer = [] ∧
      y.currentKey = strip k ∧ y.isFirstParam = false ∧
      D.processXmlToJsonStreaming f x (s.1 ++ (keyStart ++ (k ++ keyEnd))) =
        (y, lead first ++ (D.json.dumps (strip k) ++ ": ".toList)) := by
  let x₁ : XmlState := { x with
    streamState := .inKey
    currentKey := []
    xmlTagBuffer := []
    isFirstParam := false }
  have hstart : D.processXmlToJsonStreaming f x (s.1 ++ keyStart) = (x₁, lead first) := by
    rw [process_tag hx.stage (headed_of_mem (by decide)).1 (by decide) s.1,
      enter_keyStart hx.stage hx.first]
    rw [hx.buffer]
    exact not_infix_space (by decide) s
  have hend : D.processXmlToJsonStreaming f x₁ (k ++ keyEnd) =
      ({ x₁ with streamState := .waitingValue, currentKey := strip k, xmlTagBuffer := [] },
        D.json.dumps (strip k) ++ ": ".toList) := by
    have htake : (k ++ keyEnd).take ((k ++ keyEnd).length - keyEnd.length) = k := by
      rw [length_append, Nat.add_sub_cancel, take_left]
    have hstage : awaited x₁.streamState = some keyEnd := rfl
    rw [process_tag hstage (headed_of_mem (by decide)).1 (by decide) k
      (hk _ (by decide))]
    simp only [enter, x₁, nil_append, htake]
  refine ⟨{ x₁ with streamState := .waitingValue, currentKey := strip k, xmlTagBuffer := [] },
    rfl, rfl, rfl, rfl, ?_⟩
  rw [← append_assoc, process_append, hstart, hend]

/-- The value starts behind its tag. -/
theorem process_valueStart {y : XmlState} (hstage : y.streamState = .waitingValue)
    (hbuffer : y.xmlTagBuffer = []) (hfirst : y.isFirstParam = false) (s : Space) :
    ∃ z : XmlState, AtValue z (D.getValueType f y.currentKey) ∧ z.isFirstParam = false ∧
      D.processXmlToJsonStreaming f y (s.1 ++ valueStart) = (z, []) := by
  have hawaited : awaited y.streamState = some valueStart := by rw [hstage]; rfl
  refine ⟨{ y with
    streamState := .inValue
    currentValue := []
    xmlTagBuffer := []
    valueStarted := false
    cachedValueType := some (D.getValueType f y.currentKey) },
    ⟨rfl, rfl, rfl, rfl, rfl⟩, hfirst, ?_⟩
  rw [process_tag hawaited (headed_of_mem (by decide)).1 (by decide) s.1]
  · simp [enter, hstage]
  · rw [hbuffer]
    exact not_infix_space (by decide) s

theorem outside_closed (h : z.isFirstParam = false) : Outside (closed z) false := ⟨rfl, rfl, h⟩

/-- The header of an argument: the key is stripped before it is sent. -/
theorem process_header (hx : Outside x first) (a : Argument) :
    ∃ z : XmlState, AtValue z (D.getValueType f (strip a.key)) ∧ z.isFirstParam = false ∧
      D.processXmlToJsonStreaming f x (a.before.1 ++ a.header) =
        (z, lead first ++ (D.json.dumps (strip a.key) ++ ": ".toList)) := by
  obtain ⟨y, hstage, hbuffer, hkey, hfirst, hrun⟩ := process_key hx a.before a.key_noTag
  obtain ⟨z, hz, hzfirst, hopen⟩ := process_valueStart hstage hbuffer hfirst a.sep
  refine ⟨z, hkey ▸ hz, hzfirst, ?_⟩
  have hassoc : a.before.1 ++ a.header =
      (a.before.1 ++ (keyStart ++ (a.key ++ keyEnd))) ++ (a.sep.1 ++ valueStart) := by
    simp only [Argument.header, append_assoc]
  rw [hassoc, process_append, hrun, hopen]
  simp

theorem Argument.type_ne (a : Argument) : a.type ≠ .number := by
  rcases a.typed with ⟨h, -⟩ | h <;> simp [h]

/-- A good argument gives its member. -/
theorem process_good (hx : Outside x first) {a : Argument} (ha : a.Good)
    (hdeclared : D.getArgumentType f a.key = some a.type) :
    ∃ y, Outside y false ∧ D.processXmlToJsonStreaming f x a.text =
      (y, lead first ++ a.member D) := by
  obtain ⟨z, hz, hfirst, hrun⟩ := process_header hx a
  have htype : D.getValueType f (strip a.key) = a.type := by
    rw [ha.1, getValueType, hdeclared, Option.getD_some]
  rw [htype] at hz
  refine ⟨closed z, outside_closed hfirst, ?_⟩
  rw [a.text_eq, process_append, hrun, process_value hz a.type_ne ha.2, ha.1]
  simp [Argument.member]

def Space.none : Space := ⟨[], fun _ h => nomatch h⟩

/-- Good arguments give the text up to the brace. -/
theorem process_args (as : List Argument) (hx : Outside x first) (hgood : ∀ a ∈ as, a.Good)
    (hdeclared : ∀ a ∈ as, D.getArgumentType f a.key = some a.type) :
    ∃ y, Outside y (first && as.isEmpty) ∧
      D.processXmlToJsonStreaming f x (as.flatMap Argument.text) =
        (y, bodyText first (as.map (Argument.member D))) := by
  induction as generalizing x first with
  | nil => exact ⟨x, by simpa using hx, rfl⟩
  | cons a as ih =>
    obtain ⟨y, hy, hrun⟩ := process_good hx (hgood a mem_cons_self) (hdeclared a mem_cons_self)
    obtain ⟨y', hy', hrun'⟩ := ih hy (fun b hb => hgood b (mem_cons_of_mem a hb))
      (fun b hb => hdeclared b (mem_cons_of_mem a hb))
    refine ⟨y', by simpa using hy', ?_⟩
    rw [flatMap_cons, process_append, hrun, hrun']
    simp [bodyText]

/-! ## Leaving the JSON text -/

/-- The text `y`, with or without a brace at its end, leaves `x` after a common part. -/
def Off (y x : Text) : Prop :=
  ∃ p z w, y = p ++ z ∧ x = p ++ w ∧ w ≠ [] ∧ (z ++ ['}']).head? ≠ w.head?

namespace Off

variable {x y y' : Text}

theorem append_left (q : Text) (h : Off y x) : Off (q ++ y) (q ++ x) := by
  obtain ⟨p, z, w, rfl, rfl, hw, hhead⟩ := h
  exact ⟨q ++ p, z, w, by simp, by simp, hw, hhead⟩

theorem not_starts (h : Off y x) : ¬ x <+: y := by
  obtain ⟨p, z, w, rfl, rfl, hw, hhead⟩ := h
  intro hpre
  obtain ⟨r, rfl⟩ := (prefix_append_right_inj p).mp hpre
  obtain ⟨c, w, rfl⟩ := exists_cons_of_ne_nil hw
  exact hhead rfl

theorem ne_brace (h : Off y x) : y ++ ['}'] ≠ x := by
  obtain ⟨p, z, w, rfl, rfl, hw, hhead⟩ := h
  intro heq
  rw [append_assoc] at heq
  exact hhead (congrArg List.head? (append_cancel_left heq))

/-- Two texts neither of which begins the other part at some letter. -/
theorem of_incomparable (hxy : ¬ x <+: y) (hyx : ¬ y <+: x) : Off y x := by
  induction x generalizing y with
  | nil => exact absurd nil_prefix hxy
  | cons c x ih =>
    cases y with
    | nil => exact absurd nil_prefix hyx
    | cons d y =>
      by_cases hcd : d = c
      · subst hcd
        rw [cons_prefix_cons] at hxy hyx
        exact (ih (fun h => hxy ⟨rfl, h⟩) (fun h => hyx ⟨rfl, h⟩)).append_left [d]
      · refine ⟨[], d :: y, c :: x, rfl, rfl, cons_ne_nil _ _, ?_⟩
        simpa using hcd

end Off

theorem off_key {k k' v : Text} (hne : k' ≠ k) :
    Off (D.json.dumps k' ++ u) (D.json.dumps k ++ v) := by
  have hshape (k u : Text) : D.json.dumps k ++ u = ['"'] ++ (D.json.inner k ++ '"' :: u) := by
    simp [JsonEncoding.dumps]
  rw [hshape, hshape]
  refine (Off.of_incomparable ?_ ?_).append_left ['"']
  · intro h
    exact hne (JsonEncoding.eq_of_inner_starts (List.prefix_refl _) h)
  · intro h
    exact hne (JsonEncoding.eq_of_inner_starts h (List.prefix_refl _))

/-- After the first argument, only a comma can come next. -/
theorem process_comma (hstage : awaited x.streamState = some keyStart)
    (hfirst : x.isFirstParam = false) (t : Text) : (D.processXmlToJsonStreaming f x t).2 = [] ∨
      (D.processXmlToJsonStreaming f x t).2.head? = some ',' := by
  induction t generalizing x with
  | nil => exact Or.inl rfl
  | cons c t ih =>
    rw [process_cons, xmlStep_outside hstage]
    split
    · right
      rw [enter_keyStart hstage hfirst]
      rfl
    · exact ih (x := hold x (x.xmlTagBuffer ++ [c])) hstage hfirst

theorem roll_suffix {held held' : Text} (h : roll held u = some held') : held' <:+ held ++ u := by
  induction u generalizing held with
  | nil =>
    cases h
    exact ⟨[], by simp⟩
  | cons c u ih =>
    rw [roll] at h
    split at h
    · cases h
    · split at h
      · simpa using ih h
      · refine (ih h).trans ?_
        exact ⟨held ++ [c], by simp⟩

/-- What may follow a member. -/
def Following (w : Text) : Prop := w.head? = some ',' ∨ w.head? = some '}'

theorem following_bodyText (ms : List Text) : Following (bodyText false ms ++ ['}']) := by
  cases ms with
  | nil => exact Or.inr rfl
  | cons m ms => exact Or.inl rfl

/-- A tag inside a value that is sent as it is: the machine takes it for the end. -/
theorem off_close (hz : AtValue z .other) (hfirst : z.isFirstParam = false)
    {v : Text} (hroll : roll [] u = none) (huv : u <+: v) (t w : Text) :
    Off (D.processXmlToJsonStreaming f z (u ++ t)).2 (v ++ w) := by
  obtain ⟨u', c, r, held', rfl, hu, hc⟩ := exists_close_of_roll hroll
  obtain ⟨p, hp⟩ := roll_suffix hu
  rw [List.nil_append] at hp
  obtain ⟨v', rfl⟩ := huv
  have hclose := process_close (D := D) (f := f) hz (by decide) (hp.symm ▸ hu) hc
  have hcomma := process_comma (D := D) (f := f) (x := closed z) rfl hfirst (r ++ t)
  have htext : u' ++ c :: r ++ t = (p ++ held' ++ [c]) ++ (r ++ t) := by
    rw [hp]
    simp
  have hvalue : u' ++ c :: r ++ v' ++ w = p ++ (closingTag ++ (r ++ (v' ++ w))) := by
    rw [← hp, ← hc]
    simp
  rw [htext, hvalue, process_append, hclose]
  refine ⟨p, _, closingTag ++ (r ++ (v' ++ w)), rfl, rfl,
    List.append_ne_nil_of_left_ne_nil (by decide) _, ?_⟩
  have hbracket : (closingTag ++ (r ++ (v' ++ w))).head? = some '<' := rfl
  rw [hbracket, List.head?_append]
  rcases hcomma with h | h
  · rw [h]
    decide
  · rw [h]
    decide

/-- Where the machine has found a closing tag, there is one. -/
theorem closing_infix_of_roll (hroll : roll [] u = none) : closingTag <:+: u := by
  obtain ⟨u', c, r, held', rfl, hu, hc⟩ := exists_close_of_roll hroll
  obtain ⟨p, hp⟩ := roll_suffix hu
  rw [List.nil_append] at hp
  exact ⟨p, r, by rw [← hp, ← hc]; simp⟩

/-- A value that is not passed over is sent wrongly. -/
theorem off_value {a : Argument} (hz : AtValue z a.type)
    (hfirst : z.isFirstParam = false) (ha : ¬ Passes a.value) (t : Text) {w : Text}
    (hw : Following w) : Off (D.processXmlToJsonStreaming f z (a.value ++ closingTag ++ t)).2
      (encode D a.type a.value ++ w) := by
  have hwne : w ≠ [] := by
    rintro rfl
    rcases hw with h | h <;> cases h
  cases hroll : roll [] a.value with
  | none =>
    rcases a.typed with ⟨-, hnoTag⟩ | htype
    · exact absurd (closing_infix_of_roll hroll) (hnoTag closingTag (by decide))
    · rw [htype] at hz
      have hencode : encode D a.type a.value = a.value := by rw [encode, htype]; rfl
      rw [hencode, List.append_assoc]
      exact off_close hz hfirst hroll (List.prefix_refl _) _ w
  | some held' =>
    have hheld : held' ≠ [] := by
      rintro rfl
      exact ha hroll
    have htag : closingTag = '<' :: "/arg_value>".toList := rfl
    obtain ⟨more, hmore⟩ := process_held hz hroll hheld
      ("/arg_value>".toList ++ t)
    rw [htag, List.append_assoc, List.cons_append, hmore]
    unfold encode
    split
    · refine ⟨'"' :: D.json.inner a.value, D.json.escape '<' ++ more, '"' :: w, ?_, ?_,
        List.cons_ne_nil _ _, ?_⟩
      · simp [JsonEncoding.inner]
      · simp [JsonEncoding.dumps]
      · obtain ⟨d, e, hde⟩ := List.exists_cons_of_ne_nil (D.json.escape_ne_nil '<')
        have hhead := D.json.head_ne '<'
        rw [hde] at hhead ⊢
        exact hhead
    · refine ⟨a.value, '<' :: more, w, by simp, rfl, hwne, ?_⟩
      rcases hw with h | h
      · rw [h]
        simp
      · rw [h]
        simp

/-- At the first argument that is not good, the output leaves the JSON text. -/
theorem off_bad (as : List Argument) {b : Argument} (hb : ¬ b.Good) (bs : List Argument)
    (hx : Outside x first) (hgood : ∀ a ∈ as, a.Good)
    (hdeclared : ∀ a ∈ as ++ b :: bs, D.getArgumentType f a.key = some a.type) (t : Text) :
    Off (D.processXmlToJsonStreaming f x (as.flatMap Argument.text ++ (b.text ++ t))).2
      (bodyText first ((as ++ b :: bs).map (Argument.member D)) ++ ['}']) := by
  obtain ⟨y, hy, hargs⟩ := process_args as hx hgood fun a ha => hdeclared a (mem_append_left _ ha)
  obtain ⟨z, hz, hfirst, hrun⟩ := process_header hy b
  have hmember : bodyText first ((as ++ b :: bs).map (Argument.member D)) ++ ['}'] =
      bodyText first (as.map (Argument.member D)) ++ (lead (first && as.isEmpty) ++
        (D.json.dumps b.key ++ (": ".toList ++ (encode D b.type b.value ++
          (bodyText false (bs.map (Argument.member D)) ++ ['}']))))) := by
    rw [map_append, map_cons, bodyText_append]
    simp [Argument.member]
  rw [hmember, process_append, hargs, b.text_eq, append_assoc _ _ t, process_append, hrun]
  dsimp only
  rw [append_assoc (lead _), append_assoc]
  refine (Off.append_left _ ?_).append_left _
  by_cases hkey : strip b.key = b.key
  · have hvalue : ¬ Passes b.value := fun h => hb ⟨hkey, h⟩
    have htype : D.getValueType f (strip b.key) = b.type := by
      rw [hkey, getValueType, hdeclared b (by simp), Option.getD_some]
    rw [htype] at hz
    rw [hkey]
    exact ((off_value hz hfirst hvalue t (following_bodyText _)).append_left _).append_left _
  · exact off_key hkey

end Glm4MoeDetector

end Sglang.FunctionCall
