import Sglang.FunctionCall.Glm4MoeArgs

/-!
# The output for one call

The machine is fed the stripped text of the arguments, in pieces, and possibly
the beginning of the end tag with it. This module compares what has been put
out, with the brace that ends it, to the JSON text of the call.
-/

namespace Sglang.FunctionCall

open Sglang.Support List

/-! ## Stripping -/

section Strip

variable {h t : Text} {c : Char}

theorem starts_rstrip (hc : h.getLast? = some c) (hspace : isSpace c = false)
    (t : Text) : h <+: (h ++ t).rdropWhile isSpace := by
  induction t using List.reverseRecOn with
  | nil =>
    have hsame : h.rdropWhile isSpace = h := by
      rw [rdropWhile_eq_self_iff]
      intro hne
      have := List.getLast?_eq_some_getLast hne
      rw [hc] at this
      rw [← Option.some.inj this, hspace]
      exact Bool.false_ne_true
    rw [append_nil, hsame]
  | append_singleton t d ih =>
    rw [← append_assoc]
    by_cases hd : isSpace d = true
    · rw [rdropWhile_concat_pos _ _ _ hd]
      exact ih
    · rw [rdropWhile_concat_neg _ _ _ hd, append_assoc]
      exact prefix_append _ _

/-- A text fed to the machine, with the space that was stripped from it, covers what stands
before the last spaces. -/
theorem exists_fed {e F : Text} (hh : h = [] ∨ h.getLast? = some '>')
    (hlow : strip (h ++ t) <+: F) (hhigh : F <+: lstrip (h ++ (t ++ e))) :
    ∃ (s : Glm4MoeDetector.Space) (u : Text), s.1 ++ F = h ++ u ∧ u <+: t ++ e := by
  rcases hh with rfl | hlast
  · refine ⟨⟨(t ++ e).takeWhile isSpace, fun c hc => mem_takeWhile_imp hc⟩, _, rfl, ?_⟩
    have hfed := (prefix_append_right_inj ((t ++ e).takeWhile isSpace)).mpr hhigh
    rwa [nil_append, lstrip, takeWhile_append_dropWhile] at hfed
  · have hsplit : h.takeWhile isSpace ++ lstrip h = h := takeWhile_append_dropWhile
    have hne : lstrip h ≠ [] := fun hnil =>
      absurd (dropWhile_eq_nil_iff.mp hnil '>' (mem_of_getLast? hlast)) (by decide)
    have hstrip : ∀ v, lstrip (h ++ v) = lstrip h ++ v := by
      intro v
      rw [lstrip, dropWhile_append]
      exact if_neg (mt List.isEmpty_iff.mp hne)
    have hend : (lstrip h).getLast? = some '>' := by
      rw [← hsplit, List.getLast?_append, List.getLast?_eq_some_getLast hne] at hlast
      rw [List.getLast?_eq_some_getLast hne]
      exact hlast
    rw [strip, hstrip] at hlow
    rw [hstrip] at hhigh
    obtain ⟨u, rfl⟩ := (starts_rstrip hend (by decide) t).trans hlow
    refine ⟨⟨h.takeWhile isSpace, fun c hc => mem_takeWhile_imp hc⟩, u, ?_, ?_⟩
    · rw [← append_assoc, hsplit]
    · exact (prefix_append_right_inj _).mp hhigh

end Strip

namespace Glm4MoeDetector

variable {D : Glm4MoeDetector} {c : Call D} {as : List Argument} {e F : Text}

/-- The text between the name line and the end tag. -/
def Call.region (c : Call D) : Text := c.args.flatMap Argument.text ++ c.after.1

/-- The machine on a text, from the start of a call. -/
def Call.machine (c : Call D) (F : Text) : XmlState × Text :=
  D.processXmlToJsonStreaming c.name {} F

/-- What has been sent when the call is finished. -/
def Call.finished (c : Call D) (F : Text) : Text :=
  (c.machine F).2 ++
    if (c.machine F).1.isFirstParam then "\x7b\x7d".toList
    else if (c.machine F).2.getLast? = some '}' then [] else ['}']

/-- The last argument does not end in a brace that is taken for the end of the text. -/
def LastOpen (args : List Argument) : Prop :=
  ∀ a ∈ args.getLast?, a.type = .other → a.value.getLast? ≠ some '}'

/-- The condition under which a call is streamed as it should be. -/
def Call.Streamable (c : Call D) : Prop :=
  (∀ a ∈ c.args, a.Good ∧ ¬ eotToken <:+: a.value) ∧ LastOpen c.args

theorem outside_init : Outside {} true := ⟨rfl, rfl, rfl⟩

theorem bodyText_false (ms : List Text) : bodyText false ms = ms.flatMap (", ".toList ++ ·) := by
  induction ms with
  | nil => rfl
  | cons m ms ih =>
    rw [bodyText, ih, flatMap_cons, append_assoc]
    rfl

theorem Call.expected_of_args (h : c.args ≠ []) :
    c.expected = bodyText true (c.args.map (Argument.member D)) ++ ['}'] := by
  obtain ⟨a, as, has⟩ := exists_cons_of_ne_nil h
  rw [Call.expected, has, map_cons, intercalate_cons, bodyText, bodyText_false]
  simp [lead]

theorem Call.expected_of_nil (h : c.args = []) : c.expected = "\x7b\x7d".toList := by
  rw [Call.expected, h]
  rfl

/-! ## The text of the arguments -/

variable (a : Argument)

theorem Argument.text_last : a.text.getLast? = some '>' := by
  rw [a.text_eq]
  simp only [List.getLast?_append]
  rfl

theorem args_last (as : List Argument) :
    as.flatMap Argument.text = [] ∨ (as.flatMap Argument.text).getLast? = some '>' := by
  rcases eq_nil_or_concat' as with rfl | ⟨bs, b, rfl⟩
  · exact Or.inl rfl
  · refine Or.inr ?_
    rw [flatMap_append, List.getLast?_append, flatMap_singleton, b.text_last]
    rfl

theorem not_infix_space_append (s : Space) {t : Text} (ht : ¬ keyStart <:+: t) :
    ¬ keyStart <:+: s.1 ++ t := by
  refine Support.not_infix_append (not_infix_space (by decide) s) ht ?_
  rintro ⟨v, y, hv, -, hkey, hsuffix, -⟩
  obtain ⟨d, v, rfl⟩ := exists_cons_of_ne_nil hv
  obtain rfl : '<' = d := (cons.inj hkey).1
  exact absurd (s.2 '<' (hsuffix.subset mem_cons_self)) (by decide)

theorem not_infix_tail (s : Space) {t : Text} (he : e <+: eotToken) (ht : t <+: s.1 ++ e) :
    ¬ keyStart <:+: t := by
  intro hin
  refine not_infix_space_append s (t := eotToken) (by decide) ?_
  exact (hin.trans ht.isInfix).trans ((prefix_append_right_inj s.1).mpr he).isInfix

theorem exists_first_key (h : keyStart <:+: F) :
    ∃ u t, F = u ++ keyStart ++ t ∧ ¬ keyStart <:+: u := by
  obtain ⟨i, hi⟩ := Option.isSome_iff_exists.mp (find_isSome_iff.mpr h)
  refine ⟨F.take i, F.drop (i + keyStart.length), ?_, not_infix_take_of_find (by decide) hi⟩
  rw [append_assoc, take_append_find hi]

/-- The state behind the first key tag does not depend on what stood before it. -/
theorem Call.machine_key {u : Text} (hu : ¬ keyStart <:+: u) (t : Text) :
    c.machine (u ++ keyStart ++ t) = Prod.map id (lead true ++ ·)
      (D.processXmlToJsonStreaming c.name { streamState := .inKey, isFirstParam := false } t) := by
  rw [Call.machine, process_append, process_tag outside_init.stage
    (headed_of_mem (by decide)).1 (by decide) u hu,
    enter_keyStart outside_init.stage outside_init.first]
  rfl

/-- Space before the first key makes no difference. -/
theorem Call.machine_lead (s : Space) (F : Text) : (c.machine (s.1 ++ F)).2 = (c.machine F).2 ∧
    (c.machine (s.1 ++ F)).1.isFirstParam = (c.machine F).1.isFirstParam := by
  by_cases hin : keyStart <:+: F
  · obtain ⟨u, t, rfl, hu⟩ := exists_first_key hin
    rw [c.machine_key hu, ← append_assoc, ← append_assoc,
      c.machine_key (not_infix_space_append s hu)]
    exact ⟨rfl, rfl⟩
  · rw [Call.machine, Call.machine, process_outside outside_init.stage F hin,
      process_outside outside_init.stage (s.1 ++ F) (not_infix_space_append s hin)]
    exact ⟨rfl, rfl⟩

theorem Call.finished_lead (s : Space) (F : Text) : c.finished (s.1 ++ F) = c.finished F := by
  rw [Call.finished, (c.machine_lead s F).1, (c.machine_lead s F).2, Call.finished]

/-- The machine on good arguments and the beginning of the end tag. -/
theorem Call.machine_good (hgood : ∀ a ∈ c.args, a.Good) (he : e <+: eotToken)
    (hlow : strip c.region <+: F) (hhigh : F <+: lstrip (c.region ++ e)) :
    (c.machine F).2 = bodyText true (c.args.map (Argument.member D)) ∧
      (c.machine F).1.isFirstParam = c.args.isEmpty := by
  rw [Call.region, append_assoc] at hhigh
  obtain ⟨s, u, hF, hu⟩ := exists_fed (args_last c.args) hlow hhigh
  obtain ⟨y, hy, hrun⟩ := process_args c.args outside_init hgood c.declared
  have hnot : ¬ keyStart <:+: y.xmlTagBuffer ++ u := by
    rw [hy.buffer]
    exact not_infix_tail c.after he hu
  rw [← (c.machine_lead s F).1, ← (c.machine_lead s F).2, hF, Call.machine, process_append, hrun,
    process_outside hy.stage u hnot]
  exact ⟨append_nil _, hy.first⟩

theorem exists_bodyText_concat (first : Bool) (ms : List Text) (m : Text) :
    ∃ p, bodyText first (ms ++ [m]) = p ++ m := by
  induction ms generalizing first with
  | nil => exact ⟨lead first, by simp [bodyText]⟩
  | cons m' ms ih =>
    obtain ⟨p, hp⟩ := ih false
    exact ⟨lead first ++ (m' ++ p), by simp [bodyText, hp]⟩

theorem member_last :
    (a.member D).getLast? = some '}' ↔ a.type = .other ∧ a.value.getLast? = some '}' := by
  rcases a.typed with ⟨htype, -⟩ | htype
  · have hquote : a.member D =
        (D.json.dumps a.key ++ ": ".toList ++ '"' :: D.json.inner a.value) ++ ['"'] := by
      simp [Argument.member, encode, htype, JsonEncoding.dumps]
    rw [hquote, List.getLast?_concat, htype]
    simp
  · have hvalue : a.member D = (D.json.dumps a.key ++ ": ".toList) ++ a.value := by
      simp [Argument.member, encode, htype]
    rw [hvalue, List.getLast?_append, List.getLast?_append, htype]
    cases a.value.getLast? <;> simp

/-- The last letter of the members. -/
theorem bodyText_last (h : as ≠ []) (first : Bool) :
    (bodyText first (as.map (Argument.member D))).getLast? = some '}' ↔ ¬ LastOpen as := by
  obtain ⟨bs, b, rfl⟩ := (eq_nil_or_concat' as).resolve_left h
  obtain ⟨p, hp⟩ := exists_bodyText_concat first (bs.map (Argument.member D)) (b.member D)
  have hmember : b.member D ≠ [] := by simp [Argument.member, JsonEncoding.dumps]
  have hlast : (p ++ b.member D).getLast? = (b.member D).getLast? := by
    rw [List.getLast?_append, List.getLast?_eq_some_getLast hmember, Option.some_or]
  rw [map_append, map_singleton, hp, hlast, member_last]
  simp [LastOpen]

/-- A call that meets the condition is sent as its JSON text. -/
theorem Call.finished_eq (h : c.Streamable) (he : e <+: eotToken)
    (hlow : strip c.region <+: F) (hhigh : F <+: lstrip (c.region ++ e)) :
    c.finished F = c.expected := by
  obtain ⟨hout, hfirst⟩ := c.machine_good (fun a ha => (h.1 a ha).1) he hlow hhigh
  rw [Call.finished, hout, hfirst]
  by_cases hargs : c.args = []
  · rw [c.expected_of_nil hargs, hargs]
    rfl
  · have hlast := (bodyText_last (D := D) hargs true).not.mpr (not_not.mpr h.2)
    rw [c.expected_of_args hargs, if_neg (by simpa using hargs), if_neg hlast]

/-! ## Calls that do not meet the condition -/

section Failure

variable {f : Text} {x : XmlState} {F e : Text}

theorem enter_first (h : x.isFirstParam = false) (buffer : Text) :
    (enter D f x buffer).1.isFirstParam = false := by
  obtain ⟨stage, key, value, buffer, first, started, type⟩ := x
  cases h
  cases stage <;> rfl

theorem xmlStep_first (h : x.isFirstParam = false) (d : Char) :
    (D.xmlStep f x d).1.isFirstParam = false := by
  cases htag : awaited x.streamState with
  | some tag =>
    rw [xmlStep_outside htag]
    split
    · exact enter_first h _
    · exact h
  | none =>
    have hstage : x.streamState = .inValue := by
      cases hs : x.streamState <;> rw [hs] at htag <;> first | rfl | cases htag
    simp only [xmlStep, hstage]
    split
    · exact h
    · split <;> exact h

theorem process_first (h : x.isFirstParam = false) (t : Text) :
    (D.processXmlToJsonStreaming f x t).1.isFirstParam = false := by
  induction t generalizing x with
  | nil => exact h
  | cons d t ih => exact ih (xmlStep_first h d)

/-- Once a key has begun, the call is not empty any more. -/
theorem Call.first_of_infix (h : keyStart <:+: F) : (c.machine F).1.isFirstParam = false := by
  obtain ⟨u, t, rfl, hu⟩ := exists_first_key h
  rw [c.machine_key hu]
  exact process_first rfl t

/-- With an argument, only a brace can be missing at the end. -/
theorem Call.finished_ne_of_off (hfirst : (c.machine F).1.isFirstParam = false)
    (hoff : Off (c.machine F).2 c.expected) : c.finished F ≠ c.expected := by
  rw [Call.finished, hfirst]
  simp only [Bool.false_eq_true, if_false]
  split
  · rw [append_nil]
    intro heq
    exact hoff.not_starts (heq ▸ prefix_refl _)
  · exact hoff.ne_brace

theorem Call.finished_length_le (hfirst : (c.machine F).1.isFirstParam = false) :
    (c.finished F).length ≤ (c.machine F).2.length + 1 := by
  rw [Call.finished, hfirst, if_neg Bool.false_ne_true, length_append]
  split <;> simp

theorem exists_first_bad {P : Argument → Prop} [DecidablePred P] {args : List Argument}
    (h : ∃ a ∈ args, ¬ P a) : ∃ as b bs, args = as ++ b :: bs ∧ (∀ a ∈ as, P a) ∧ ¬ P b := by
  obtain ⟨b, hb⟩ := Option.isSome_iff_exists.mp
    (find?_isSome.mpr (by simpa using h) : (args.find? (¬ P ·)).isSome)
  obtain ⟨hPb, as, bs, hsplit, has⟩ := find?_eq_some_iff_append.mp hb
  exact ⟨as, b, bs, hsplit, by simpa using has, by simpa using hPb⟩

theorem Argument.infix_header (u v : Text) : keyStart <:+: u ++ (a.before.1 ++ a.header) ++ v := by
  have hheader : keyStart <:+: a.header := (prefix_append _ _).isInfix
  exact (hheader.trans (suffix_append _ _).isInfix).trans (infix_append u _ v)

/-- The output leaves the JSON text behind the first bad argument. -/
theorem Call.off_of_bad {as bs : List Argument} {b : Argument} (hargs : c.args = as ++ b :: bs)
    (has : ∀ a ∈ as, a.Good) (hb : ¬ b.Good) (t : Text) :
    Off (c.machine (as.flatMap Argument.text ++ (b.text ++ t))).2 c.expected := by
  rw [c.expected_of_args (by rw [hargs]; simp), hargs]
  exact off_bad as hb bs outside_init has (hargs ▸ c.declared) t

/-- What is fed of a call with a bad argument leaves the JSON text. -/
theorem Call.off_of_fed (hbad : ∃ a ∈ c.args, ¬ a.Good)
    (hlow : strip c.region <+: F) (hhigh : F <+: lstrip (c.region ++ e)) :
    (c.machine F).1.isFirstParam = false ∧ Off (c.machine F).2 c.expected := by
  obtain ⟨as, b, bs, hsplit, has, hb⟩ := exists_first_bad hbad
  rw [Call.region, append_assoc] at hhigh
  obtain ⟨s, u, hF, -⟩ := exists_fed (args_last c.args) hlow hhigh
  have hargs : c.args.flatMap Argument.text ++ u =
      as.flatMap Argument.text ++ (b.text ++ (bs.flatMap Argument.text ++ u)) := by
    simp [hsplit]
  rw [← (c.machine_lead s F).1, ← (c.machine_lead s F).2, hF, hargs]
  refine ⟨c.first_of_infix ?_, c.off_of_bad hsplit has hb _⟩
  rw [b.text_eq, append_assoc _ _ (_ ++ u), ← append_assoc]
  exact b.infix_header _ _

/-- A finished call with a bad argument, or whose last value ends in a brace. -/
theorem Call.finished_ne (h : (∃ a ∈ c.args, ¬ a.Good) ∨ ¬ LastOpen c.args)
    (he : e <+: eotToken) (hlow : strip c.region <+: F) (hhigh : F <+: lstrip (c.region ++ e)) :
    c.finished F ≠ c.expected := by
  by_cases hbad : ∃ a ∈ c.args, ¬ a.Good
  · obtain ⟨hfirst, hoff⟩ := c.off_of_fed hbad hlow hhigh
    exact c.finished_ne_of_off hfirst hoff
  · have hlast : ¬ LastOpen c.args := h.resolve_left hbad
    have hargs : c.args ≠ [] := by
      rintro hnil
      rw [hnil] at hlast
      exact hlast fun a ha => (nomatch ha)
    push Not at hbad
    obtain ⟨hout, hfirst⟩ := c.machine_good hbad he hlow hhigh
    rw [Call.finished, hout, hfirst, if_neg (by simpa using hargs),
      if_pos ((bodyText_last hargs true).mpr hlast), c.expected_of_args hargs]
    simp

/-- A finished call whose values hold no end tag is what it should be exactly when it meets the
condition. -/
theorem Call.finished_eq_iff (h : ∀ a ∈ c.args, ¬ eotToken <:+: a.value)
    (he : e <+: eotToken) (hlow : strip c.region <+: F) (hhigh : F <+: lstrip (c.region ++ e)) :
    c.finished F = c.expected ↔ c.Streamable := by
  constructor
  · intro heq
    by_contra hnot
    refine c.finished_ne ?_ he hlow hhigh heq
    by_contra hgood
    push Not at hgood
    exact hnot ⟨fun a ha => ⟨hgood.1 a ha, h a ha⟩, hgood.2⟩
  · intro hstreamable
    exact c.finished_eq hstreamable he hlow hhigh

theorem strip_starts_lstrip (r e : Text) : strip r <+: lstrip (r ++ e) := by
  unfold strip lstrip
  rw [dropWhile_append]
  split
  · rename_i hnil
    rw [isEmpty_iff.mp hnil]
    exact nil_prefix
  · exact (List.rdropWhile_prefix _ _).trans (prefix_append _ _)

theorem machine_starts {G : Text} (h : F <+: G) : (c.machine F).2 <+: (c.machine G).2 := by
  obtain ⟨t, rfl⟩ := h
  rw [Call.machine, Call.machine, process_append]
  exact prefix_append _ _

/-- A call that is not finished lacks its last brace. -/
theorem Call.unfinished_ne (he : e <+: eotToken)
    (hhigh : F <+: lstrip (c.region ++ e)) : (c.machine F).2 ≠ c.expected := by
  have hlow := strip_starts_lstrip c.region e
  have hstarts := machine_starts (c := c) hhigh
  by_cases hbad : ∃ a ∈ c.args, ¬ a.Good
  · intro heq
    exact (c.off_of_fed hbad hlow (prefix_refl _)).2.not_starts (heq ▸ hstarts)
  · push Not at hbad
    rw [(c.machine_good hbad he hlow (prefix_refl _)).1] at hstarts
    by_cases hargs : c.args = []
    · rw [hargs] at hstarts
      rw [prefix_nil.mp hstarts, c.expected_of_nil hargs]
      decide
    · intro heq
      have hlength := hstarts.length_le
      rw [heq, c.expected_of_args hargs, length_append, length_singleton] at hlength
      omega

end Failure

/-! ## The end tag -/

section EndTag

variable {u v : Text} {as : List Argument}

theorem not_straddles_close (h : u.getLast? = some '>') : ¬ Straddles eotToken u v :=
  not_straddles_of_getLast (by decide) h

theorem not_straddles_open (h : v.head? = some '<') : ¬ Straddles eotToken u v := by
  have := (headed_of_mem (by decide : eotToken ∈ tags)).1.not_straddles (u := u) (v := [])
    h
  rwa [append_nil] at this

theorem not_infix_append (hu : ¬ eotToken <:+: u) (hv : ¬ eotToken <:+: v)
    (hs : u.getLast? = some '>' ∨ v.head? = some '<') : ¬ eotToken <:+: u ++ v :=
  Support.not_infix_append hu hv (hs.elim not_straddles_close not_straddles_open)

theorem Argument.header_last : a.header.getLast? = some '>' := by
  simp only [Argument.header, List.getLast?_append]
  rfl

theorem Argument.not_infix_header : ¬ eotToken <:+: a.header := by
  unfold Argument.header
  refine not_infix_append (by decide) ?_ (Or.inl rfl)
  refine not_infix_append (a.key_noTag _ (by decide)) ?_ (Or.inr rfl)
  refine not_infix_append (by decide) ?_ (Or.inl rfl)
  exact not_infix_append (not_infix_space (by decide) a.sep) (by decide) (Or.inr rfl)

theorem Argument.not_infix_text {a : Argument} (h : ¬ eotToken <:+: a.value) :
    ¬ eotToken <:+: a.text := by
  rw [Argument.text_eq, append_assoc]
  refine not_infix_append (not_infix_space (by decide) a.before) ?_ (Or.inr rfl)
  refine not_infix_append a.not_infix_header ?_ (Or.inl a.header_last)
  exact not_infix_append h (by decide) (Or.inr rfl)

/-- The end tag behind the arguments. -/
theorem find_eot (h : ¬ eotToken <:+: u) (v : Text) :
    find eotToken (u ++ (eotToken ++ v)) = some u.length :=
  (headed_of_mem (by decide)).1.find_append h v

theorem not_infix_args_append (h : ∀ a ∈ as, ¬ eotToken <:+: a.value)
    (hv : ¬ eotToken <:+: v) : ¬ eotToken <:+: as.flatMap Argument.text ++ v := by
  induction as with
  | nil => exact hv
  | cons a as ih =>
    rw [flatMap_cons, append_assoc]
    exact not_infix_append (Argument.not_infix_text (h a mem_cons_self))
      (ih fun b hb => h b (mem_cons_of_mem a hb)) (Or.inl a.text_last)

theorem Call.not_infix_region (h : ∀ a ∈ c.args, ¬ eotToken <:+: a.value) :
    ¬ eotToken <:+: c.region :=
  not_infix_args_append h (not_infix_space (by decide) c.after)

/-- The arguments up to the first end tag, where a value holds one. -/
theorem Call.exists_cut (h : ∃ a ∈ c.args, ¬ ¬ eotToken <:+: a.value) :
    ∃ as a bs v₁ v₂, c.args = as ++ a :: bs ∧ a.value = v₁ ++ (eotToken ++ v₂) ∧
      ¬ eotToken <:+: as.flatMap Argument.text ++ (a.before.1 ++ (a.header ++ v₁)) := by
  obtain ⟨as, a, bs, hsplit, has, ha⟩ := exists_first_bad h
  rw [not_not] at ha
  obtain ⟨i, hi⟩ := Option.isSome_iff_exists.mp (find_isSome_iff.mpr ha)
  refine ⟨as, a, bs, a.value.take i, a.value.drop (i + eotToken.length), hsplit,
    (take_append_find hi).symm, ?_⟩
  have hv : ¬ eotToken <:+: a.value.take i := not_infix_take_of_find (by decide) hi
  refine not_infix_args_append has ?_
  refine not_infix_append (not_infix_space (by decide) a.before) ?_ (Or.inr rfl)
  exact not_infix_append a.not_infix_header hv (Or.inl a.header_last)

/-- A call that is cut off inside a value. -/
theorem Call.finished_ne_cut {bs : List Argument} {a : Argument} {v₁ v₂ F : Text}
    (hsplit : c.args = as ++ a :: bs) (hvalue : a.value = v₁ ++ (eotToken ++ v₂))
    (hlow : strip (as.flatMap Argument.text ++ (a.before.1 ++ (a.header ++ v₁))) <+: F)
    (hhigh : F <+: lstrip (as.flatMap Argument.text ++ (a.before.1 ++ (a.header ++ v₁)) ++
      eotToken.dropLast)) : c.finished F ≠ c.expected := by
  have hopening : ∀ t, as.flatMap Argument.text ++ (a.before.1 ++ (a.header ++ t)) =
      (as.flatMap Argument.text ++ (a.before.1 ++ a.header)) ++ t := by simp
  rw [hopening] at hlow hhigh
  rw [append_assoc] at hhigh
  have hlast : (as.flatMap Argument.text ++ (a.before.1 ++ a.header)).getLast? = some '>' := by
    rw [List.getLast?_append, List.getLast?_append, a.header_last]
    rfl
  obtain ⟨s, u, hF, hu⟩ := exists_fed (Or.inr hlast) hlow hhigh
  rw [← c.finished_lead s F, hF]
  have hargs : c.args ≠ [] := by rw [hsplit]; simp
  have hfirst : (c.machine (as.flatMap Argument.text ++ (a.before.1 ++ a.header) ++
      u)).1.isFirstParam = false := c.first_of_infix (a.infix_header _ _)
  by_cases hgood : ∀ b ∈ as, b.Good
  · have hdeclared : ∀ b ∈ as, D.getArgumentType c.name b.key = some b.type :=
      fun b hb => c.declared b (hsplit ▸ mem_append_left _ hb)
    obtain ⟨y, hy, hgoodRun⟩ := process_args as outside_init hgood hdeclared
    obtain ⟨z, hz, hzfirst, hrun⟩ := process_header hy a
    have hout : (c.machine (as.flatMap Argument.text ++ (a.before.1 ++ a.header) ++ u)).2 =
        (bodyText true (as.map (Argument.member D)) ++ lead as.isEmpty) ++
          (D.json.dumps (strip a.key) ++ (": ".toList ++
            (D.processXmlToJsonStreaming c.name z u).2)) := by
      rw [Call.machine, process_append, process_append, hgoodRun]
      dsimp only
      rw [hrun]
      simp
    have hexpected : c.expected =
        (bodyText true (as.map (Argument.member D)) ++ lead as.isEmpty) ++
          (D.json.dumps a.key ++ (": ".toList ++ (encode D a.type a.value ++
            (bodyText false (bs.map (Argument.member D)) ++ ['}'])))) := by
      rw [c.expected_of_args hargs, hsplit, map_append, map_cons, bodyText_append]
      simp [Argument.member]
    by_cases hkey : strip a.key = a.key
    · have htype : a.type = .other := by
        rcases a.typed with ⟨-, hnoTag⟩ | htype
        · exact absurd ⟨v₁, v₂, by rw [hvalue, append_assoc]⟩ (hnoTag eotToken (by decide))
        · exact htype
      have hencode : encode D a.type a.value = a.value := by rw [encode, htype]; rfl
      have hz' : AtValue z .other := by
        rw [hkey, getValueType, c.declared a (hsplit ▸ by simp), Option.getD_some, htype] at hz
        exact hz
      have huv : u <+: a.value := by
        rw [hvalue]
        refine hu.trans ((prefix_append_right_inj v₁).mpr ?_)
        exact (List.dropLast_prefix _).trans (prefix_append _ _)
      cases hroll : roll [] u with
      | none =>
        refine c.finished_ne_of_off hfirst ?_
        rw [hout, hexpected, hkey, hencode]
        have hoff := off_close (D := D) (f := c.name) hz' hzfirst hroll huv []
          (bodyText false (bs.map (Argument.member D)) ++ ['}'])
        rw [append_nil] at hoff
        exact ((hoff.append_left _).append_left _).append_left _
      | some held =>
        -- the end tag in the value is missing, so the text is too short
        obtain ⟨p, hp, -, hvalueRun⟩ := process_roll hz'.stage
          (hz'.buffer ▸ nil_prefix) (hz'.buffer ▸ hroll)
        have hpassed : (D.processXmlToJsonStreaming c.name z u).2 = p := by
          rw [hvalueRun, hz'.typed, hz'.notStarted]
          rfl
        have hshort : p.length ≤ v₁.length + eotToken.dropLast.length := by
          have hup := congrArg List.length hp
          have hle := hu.length_le
          rw [hz'.buffer, nil_append, length_append] at hup
          rw [length_append] at hle
          omega
        intro heq
        have hlength := c.finished_length_le hfirst
        have htag : eotToken.dropLast.length + 1 = eotToken.length := by decide
        rw [heq, hout, hexpected, hpassed, hkey, hencode, hvalue] at hlength
        simp only [length_append, length_singleton] at hlength
        omega
    · refine c.finished_ne_of_off hfirst ?_
      rw [hout, hexpected]
      exact (off_key hkey).append_left _
  · push Not at hgood
    obtain ⟨as', b, bs', has, hgood', hb⟩ := exists_first_bad hgood
    refine c.finished_ne_of_off hfirst ?_
    have hsplit' : c.args = as' ++ b :: (bs' ++ a :: bs) := by
      rw [hsplit, has, append_assoc, cons_append]
    have hbad : as.flatMap Argument.text ++ (a.before.1 ++ a.header) ++ u =
        as'.flatMap Argument.text ++ (b.text ++
          (bs'.flatMap Argument.text ++ (a.before.1 ++ (a.header ++ u)))) := by
      simp [has]
    rw [hbad]
    exact c.off_of_bad hsplit' hgood' hb _

end EndTag

end Glm4MoeDetector

end Sglang.FunctionCall
