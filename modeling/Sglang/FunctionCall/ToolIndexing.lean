import Sglang.FunctionCall.BaseFormat

/-!
# Which index the streamed tool calls carry

A client merges the items of a stream by their index. The life of a detector is
kept as its state beside the list of everything it has emitted.
-/

namespace Sglang.FunctionCall

open Sglang.Support List BaseFormatDetector

/-- The items of the list that open a call. -/
def named (items : List ToolCallItem) : List ToolCallItem :=
  items.filter fun item => item.name.isSome

/-- The fragments emitted for index `i`, joined. -/
def fragments (items : List ToolCallItem) (i : ℕ) : Text :=
  (items.filter fun item => item.name.isNone && decide (item.toolIndex = (i : ℤ))).flatMap
    (·.parameters)

/-- The index of the most recent item with a name. -/
def lastIndex (items : List ToolCallItem) : Option ℤ := (named items).getLast?.map (·.toolIndex)

/-- The indexing discipline of a stream, with the detector's own record of it. -/
structure Indexed (d : DetectorState) (items : List ToolCallItem) : Prop where
  names : (named items).map (·.toolIndex) = (List.range (named items).length).map Int.ofNat
  fragment : ∀ before item after, items = before ++ item :: after → item.name = none →
    lastIndex before = some item.toolIndex
  streamed : d.streamedArgsForTool = (List.range (named items).length).map (fragments items)

/-- One event in the life of a detector. -/
inductive Event
  | parse (J : JsonTools) (newText : Text) (tools : List Text)
  /-- A subclass rewrites the buffer before it calls the base class. -/
  | editBuffer (buffer : Text)

namespace BaseFormatDetector

variable (D : BaseFormatDetector)

/-- The events as a system; the second component collects what was emitted. -/
def live (s : DetectorState × List ToolCallItem) :
    Event → Option (DetectorState × List ToolCallItem)
  | .parse J newText tools =>
    let r := D.parseStreamingIncrement J s.1 newText tools
    some (r.1, s.2 ++ r.2.calls)
  | .editBuffer buffer => some ({ s.1 with buffer := buffer }, s.2)

/-- The text is taken for tool calls, and the object that is loaded from it has a name that is
not the name of a tool. -/
def ReadsUnknownTool (J : JsonTools) (d : DetectorState) (newText : Text) (tools : List Text) :
    Prop :=
  D.seesToolCall d (d.buffer ++ newText) = true ∧
    ∃ obj start stop, D.loadObject J d (d.buffer ++ newText) = .ok (some (obj, start, stop)) ∧
    namesUnknownTool (d.toolIndices.getD (getToolIndices tools)) obj = .ok true

/-- Unknown tools are only called before the first name was sent. -/
def KnownToolsOnceStarted (s : DetectorState × List ToolCallItem) : Event → Prop
  | .parse J newText tools => D.ReadsUnknownTool J s.1 newText tools → s.1.currentToolId = -1
  | .editBuffer _ => True

end BaseFormatDetector

/-! ## Appending items -/

theorem named_append (xs ys : List ToolCallItem) : named (xs ++ ys) = named xs ++ named ys :=
  filter_append ..

theorem fragments_append (xs ys : List ToolCallItem) (i : ℕ) :
    fragments (xs ++ ys) i = fragments xs i ++ fragments ys i := by
  rw [fragments, filter_append, flatMap_append]
  rfl

section Append

variable {items : List ToolCallItem} {i : ℤ} {name : Option Text} {text : Text}

@[simp]
theorem named_append_name {name : Text} :
    named (items ++ [⟨i, some name, text⟩]) = named items ++ [⟨i, some name, text⟩] := by
  simp [named]

@[simp]
theorem named_append_fragment : named (items ++ [⟨i, none, text⟩]) = named items := by
  simp [named]

@[simp]
theorem fragments_append_name {name : Text} (j : ℕ) :
    fragments (items ++ [⟨i, some name, text⟩]) j = fragments items j := by
  simp [fragments]

theorem fragments_append_fragment (j : ℕ) : fragments (items ++ [⟨i, none, text⟩]) j =
      fragments items j ++ if i = j then text else [] := by
  by_cases h : i = j <;> simp [fragments, h]

/-- A fragment that carries the last index keeps the rule for fragments, as does a name. -/
theorem fragment_append {item : ToolCallItem}
    (hold : ∀ before x after, items = before ++ x :: after → x.name = none →
      lastIndex before = some x.toolIndex)
    (hnew : item.name = none → lastIndex items = some item.toolIndex) :
    ∀ before x after, items ++ [item] = before ++ x :: after → x.name = none →
      lastIndex before = some x.toolIndex := by
  intro before x after heq hname
  rcases eq_nil_or_concat after with rfl | ⟨after', last, rfl⟩
  · obtain ⟨rfl, rfl⟩ : items = before ∧ item = x := by
      have := append_inj' heq rfl
      exact ⟨this.1, by simpa using this.2⟩
    exact hnew hname
  · have hsplit : items ++ [item] = (before ++ x :: after') ++ [last] := by
      simpa using heq
    exact hold before x after' (append_inj' hsplit rfl).1 hname

end Append

/-! ## One call -/

/-- Where the detector stands: before the first call, within call `n - 1`, or before call `n`. -/
inductive Phase (d : DetectorState) (n : ℕ) : Prop
  | idle (id : d.currentToolId = -1) (sent : d.currentToolNameSent = false) (none : n = 0)
  | inCall (id : d.currentToolId + 1 = n) (sent : d.currentToolNameSent = true) (some : 0 < n)
  | between (id : d.currentToolId = n) (sent : d.currentToolNameSent = false) (some : 0 < n)

/-- The part of the state that the indices depend on. -/
def SameCounters (d d' : DetectorState) : Prop :=
  d'.currentToolId = d.currentToolId ∧ d'.currentToolNameSent = d.currentToolNameSent ∧
    d'.streamedArgsForTool = d.streamedArgsForTool

/-- Everything a call can do to the counters, with what it emits; `unknown` says that it has read
the name of an unknown tool. -/
inductive Effect (unknown : Prop) (d d' : DetectorState) : List ToolCallItem → Prop
  | silent (same : SameCounters d d') : Effect unknown d d' []
  | name {text : Text} {i : ℤ} (before : d.currentToolNameSent = false)
      (index : i = if d.currentToolId = -1 then 0 else d.currentToolId)
      (id : d'.currentToolId = i) (sent : d'.currentToolNameSent = true)
      (streamed : d'.streamedArgsForTool = d.streamedArgsForTool ++
        List.replicate (if d.currentToolId = -1 then 1
          else (d.currentToolId + 1 - d.streamedArgsForTool.length).toNat) []) :
      Effect unknown d d' [⟨i, some text, []⟩]
  | fragment {text : Text} {complete : Bool} (before : d.currentToolNameSent = true)
      (sent : d'.currentToolNameSent = !complete)
      (id : d'.currentToolId = if complete then d.currentToolId + 1 else d.currentToolId)
      (streamed : d'.streamedArgsForTool =
        recordFragment d.streamedArgsForTool d.currentToolId text) :
      Effect unknown d d' [⟨d.currentToolId, none, text⟩]
  | reset (read : unknown) (id : d'.currentToolId = -1) (sent : d'.currentToolNameSent = false)
      (streamed : d'.streamedArgsForTool = d.streamedArgsForTool.dropLast) : Effect unknown d d' []

theorem SameCounters.refl (d : DetectorState) : SameCounters d d := ⟨rfl, rfl, rfl⟩

namespace Effect

variable {unknown : Prop} {d d' : DetectorState}

/-- The chunk and the tool names do not touch the counters. -/
theorem of_prepare {unknown' : Prop} {tools : List Text} {text : Text} {items : List ToolCallItem}
    (h : Effect unknown (prepare tools d text) d' items) (hmono : unknown → unknown') :
    Effect unknown' d d' items := by
  cases h with
  | silent same => exact .silent same
  | name before index id sent streamed => exact .name before index id sent streamed
  | fragment before sent id streamed => exact .fragment before sent id streamed
  | reset read id sent streamed => exact .reset (hmono read) id sent streamed

end Effect

/-- A computation that returns has run through its first part. -/
theorem ok_of_bind {α β : Type} {x : Except Exn α} {f : α → Except Exn β} {b : β}
    (h : (x >>= f) = .ok b) : ∃ a, x = .ok a ∧ f a = .ok b := by
  cases x with
  | error e => cases h
  | ok a => exact ⟨a, rfl, h⟩

namespace BaseFormatDetector

variable {D : BaseFormatDetector} {J : JsonTools} {unknown : Prop} {d d' : DetectorState}
  {r : StreamingParseResult} {indices : List Text} {call obj : Json}

theorem sendName_effect (hsent : d.currentToolNameSent = false)
    (h : sendName indices d call = .ok (d', r)) : Effect unknown d d' r.calls := by
  obtain ⟨name?, -, h⟩ := ok_of_bind h
  cases name? with
  | none =>
    cases h
    exact .silent (.refl d)
  | some name =>
    dsimp only at h
    split at h
    · obtain ⟨known, -, h⟩ := ok_of_bind h
      split at h
      · split at h
        · rename_i hid
          cases h
          exact .name hsent (by rw [if_pos hid]) rfl rfl (by rw [if_pos hid]; rfl)
        · rename_i hid
          cases h
          exact .name hsent (by rw [if_neg hid]) rfl rfl (by rw [if_neg hid])
      · cases h
        exact .silent (.refl d)
    · cases h
      exact .silent (.refl d)

/-- A completed object always sends the rest of its arguments. -/
theorem argumentDiff_of_complete {arguments : Json} {diff : Option Text}
    (h : argumentDiff J true d arguments = .ok diff) : diff.isSome := by
  obtain ⟨k, -, h⟩ := ok_of_bind h
  obtain ⟨json, -, h⟩ := ok_of_bind h
  obtain ⟨prev, -, h⟩ := ok_of_bind h
  cases h
  rfl

theorem streamArguments_effect {complete : Bool} {rest : Text}
    (hsent : d.currentToolNameSent = true)
    (h : streamArguments J complete rest d call = .ok (d', r)) : Effect unknown d d' r.calls := by
  obtain ⟨arguments?, -, h⟩ := ok_of_bind h
  split at h
  · cases h
    exact .silent (.refl d)
  · cases h
    exact .silent (.refl d)
  · obtain ⟨diff, hdiff, h⟩ := ok_of_bind h
    cases diff with
    | none =>
      cases complete with
      | true => cases argumentDiff_of_complete hdiff
      | false =>
        cases h
        exact .silent ⟨rfl, hsent.symm, rfl⟩
    | some fragment =>
      cases h
      exact .fragment hsent rfl rfl rfl

theorem handleObject_effect {start stop : ℕ}
    (h : handleObject J indices d obj start stop = .ok (d', r)) :
    Effect (namesUnknownTool indices obj = .ok true) d d' r.calls := by
  obtain ⟨unknown, hunknown, h⟩ := ok_of_bind h
  split at h
  · rename_i hu
    subst hu
    cases h
    exact .reset hunknown rfl rfl rfl
  · obtain ⟨call, -, h⟩ := ok_of_bind h
    split at h
    · split at h
      · rename_i hsent
        exact streamArguments_effect hsent h
      · rename_i hsent
        exact sendName_effect (Bool.not_eq_true _ ▸ hsent) h
    · cases h
      exact .silent (.refl d)

theorem parse_effect (newText : Text) (tools : List Text) :
    Effect (D.ReadsUnknownTool J d newText tools) d (D.parseStreamingIncrement J d newText tools).1
      (D.parseStreamingIncrement J d newText tools).2.calls := by
  unfold parseStreamingIncrement
  dsimp only
  split
  · rename_i hsees
    split
    · rename_i r hr
      obtain ⟨loaded, hload, hr⟩ := ok_of_bind hr
      cases loaded with
      | none =>
        cases hr
        exact .silent ⟨rfl, rfl, rfl⟩
      | some o =>
        obtain ⟨obj, start, stop⟩ := o
        obtain ⟨d', result⟩ := r
        exact (handleObject_effect hr).of_prepare fun h =>
          ⟨hsees, obj, start, stop, hload, h⟩
    · exact .silent ⟨rfl, rfl, rfl⟩
  · split <;> exact .silent ⟨rfl, rfl, rfl⟩

end BaseFormatDetector

/-! ## The whole life -/

namespace Indexed

variable {d d' : DetectorState} {items : List ToolCallItem} {unknown : Prop}

section

variable (h : Indexed d items)
include h

theorem streamed_length : d.streamedArgsForTool.length = (named items).length := by
  rw [h.streamed, length_map, length_range]

theorem lastIndex_eq (hpos : 0 < (named items).length) :
    lastIndex items = some (((named items).length : ℤ) - 1) := by
  unfold lastIndex
  rw [← List.getLast?_map, h.names, List.getLast?_map, List.getLast?_range,
    if_neg (Nat.pos_iff_ne_zero.mp hpos), Option.map_some, Int.ofNat_eq_natCast]
  congr 1
  omega

theorem of_same (hsame : SameCounters d d') : Indexed d' items :=
  ⟨h.names, h.fragment, hsame.2.2.trans h.streamed⟩

/-- No fragment has been emitted for an index that is still free. -/
theorem fragments_fresh : fragments items (named items).length = [] := by
  have hnone : (items.filter fun item => item.name.isNone &&
      decide (item.toolIndex = ((named items).length : ℤ))) = [] := by
    apply filter_eq_nil_iff.mpr
    intro item hmem hitem
    simp only [Bool.and_eq_true, Option.isNone_iff_eq_none, decide_eq_true_eq] at hitem
    obtain ⟨before, after, rfl⟩ := append_of_mem hmem
    -- the fragment carries the index of a name, and names stay below their number
    obtain ⟨x, hx, hindex⟩ := Option.map_eq_some_iff.mp (h.fragment before item after rfl hitem.1)
    have hnamed : x ∈ named (before ++ item :: after) := by
      have := mem_of_getLast? hx
      unfold named at this ⊢
      rw [filter_append]
      exact mem_append_left _ this
    have hrange := mem_map_of_mem (f := ToolCallItem.toolIndex) hnamed
    rw [h.names] at hrange
    obtain ⟨k, hk, hkx⟩ := mem_map.mp hrange
    have hk' := mem_range.mp hk
    rw [hindex, hitem.2] at hkx
    simp only [Int.ofNat_eq_natCast] at hkx
    omega
  rw [fragments, hnone, flatMap_nil]

/-- The next name gets the next index and an empty record. -/
theorem append_name {text : Text} {i : ℤ} (hi : i = (named items).length)
    (hstreamed : d'.streamedArgsForTool = d.streamedArgsForTool ++ [[]]) :
    Indexed d' (items ++ [⟨i, some text, []⟩]) := by
  refine ⟨?_, fragment_append h.fragment (fun hname => by cases hname), ?_⟩
  · simp [range_succ, h.names, hi]
  · rw [hstreamed, h.streamed]
    simp [range_succ, h.fragments_fresh]

/-- A fragment for the last index is added to the last record. -/
theorem append_fragment {text : Text} {i : ℤ}
    (hi : i + 1 = (named items).length) (hpos : 0 < (named items).length)
    (hstreamed : d'.streamedArgsForTool = recordFragment d.streamedArgsForTool i text) :
    Indexed d' (items ++ [⟨i, none, text⟩]) := by
  refine ⟨?_, fragment_append h.fragment (fun _ => ?_), ?_⟩
  · simp [h.names]
  · rw [h.lastIndex_eq hpos, ← hi]
    simp
  · obtain ⟨k, rfl⟩ : ∃ k : ℕ, i = k := ⟨i.toNat, by omega⟩
    have hk : k < d.streamedArgsForTool.length := by
      have := h.streamed_length
      omega
    have hrecord : recordFragment d.streamedArgsForTool k text =
        d.streamedArgsForTool.set k (d.streamedArgsForTool.getD k [] ++ text) := by
      simp [recordFragment, position, hk]
    rw [hstreamed, hrecord, h.streamed, named_append_fragment]
    apply ext_getElem
    · simp
    · intro j hj hj'
      simp only [length_set, length_map, length_range] at hj
      rw [getElem_set]
      simp only [getElem_map, getElem_range, fragments_append_fragment]
      by_cases hjk : k = j
      · subst hjk
        simp [hj]
      · have hcast : (k : ℤ) ≠ j := by omega
        simp [hjk, hcast]

end

/-- Nothing emitted yet. -/
theorem start : Indexed {} [] := ⟨rfl, fun _ _ _ h => by simp at h, rfl⟩

end Indexed

/-- The discipline together with the place the detector has reached. -/
structure OnTrack (s : DetectorState × List ToolCallItem) : Prop where
  indexed : Indexed s.1 s.2
  phase : Phase s.1 (named s.2).length

namespace OnTrack

variable {D : BaseFormatDetector} {d d' : DetectorState} {items emitted : List ToolCallItem}
  {unknown : Prop}

theorem of_same (h : OnTrack (d, items)) (hsame : SameCounters d d') : OnTrack (d', items) := by
  refine ⟨h.indexed.of_same hsame, ?_⟩
  obtain ⟨hid, hsent, -⟩ := hsame
  cases h.phase with
  | idle id sent none => exact .idle (hid.trans id) (hsent.trans sent) none
  | inCall id sent some => exact .inCall (hid ▸ id) (hsent.trans sent) some
  | between id sent some => exact .between (hid.trans id) (hsent.trans sent) some

/-- One call keeps the discipline, unless it meets an unknown tool after the first name. -/
theorem of_effect (h : OnTrack (d, items)) (heffect : Effect unknown d d' emitted)
    (hidle : unknown → d.currentToolId = -1) : OnTrack (d', items ++ emitted) := by
  have hlength : d.streamedArgsForTool.length = (named items).length := h.indexed.streamed_length
  cases heffect with
  | silent same =>
    rw [append_nil]
    exact h.of_same same
  | name before index id sent streamed =>
    cases h.phase with
    | idle hid _ hnone =>
      rw [if_pos hid] at index streamed
      simp only at hnone
      refine ⟨h.indexed.append_name (by simp [index, hnone]) streamed, ?_⟩
      exact .inCall (by simp [id, index, hnone]) sent (by simp)
    | inCall _ hsent _ =>
      simp only at hsent
      rw [before] at hsent
      cases hsent
    | between hid _ hsome =>
      simp only at hid hsome
      have hne : d.currentToolId ≠ -1 := by omega
      rw [if_neg hne] at index streamed
      have hone : (d.currentToolId + 1 - d.streamedArgsForTool.length).toNat = 1 := by omega
      rw [hone] at streamed
      refine ⟨h.indexed.append_name (index.trans hid) streamed, ?_⟩
      exact .inCall (by simp [id, index, hid]) sent (by simp)
  | @fragment text complete before sent id streamed =>
    cases h.phase with
    | inCall hid _ hsome =>
      simp only at hid hsome
      refine ⟨h.indexed.append_fragment hid hsome streamed, ?_⟩
      simp only [named_append_fragment]
      cases complete with
      | true => exact .between (id.trans hid) sent hsome
      | false => exact .inCall (by rw [id]; exact hid) sent hsome
    | idle _ hsent _ =>
      simp only at hsent
      rw [before] at hsent
      cases hsent
    | between _ hsent _ =>
      simp only at hsent
      rw [before] at hsent
      cases hsent
  | reset read id sent streamed =>
    rw [append_nil]
    cases h.phase with
    | idle hid hsent hnone =>
      -- there is no record to pop
      simp only at hid hsent hnone
      refine h.of_same ⟨id.trans hid.symm, sent.trans hsent.symm, ?_⟩
      rw [streamed, length_eq_zero_iff.mp (hlength.trans hnone), dropLast_nil]
    | inCall hid _ hsome =>
      have := hidle read
      simp only at hid hsome
      omega
    | between hid _ hsome =>
      have := hidle read
      simp only at hid hsome
      omega

theorem step {s s' : DetectorState × List ToolCallItem} (event : Event) (h : OnTrack s)
    (hknown : D.KnownToolsOnceStarted s event) (hrun : D.live s event = some s') : OnTrack s' := by
  cases event with
  | parse J newText tools =>
    cases hrun
    exact h.of_effect (parse_effect newText tools) hknown
  | editBuffer buffer =>
    cases hrun
    exact h.of_same ⟨rfl, rfl, rfl⟩

end OnTrack

/-- In every life of a detector in which unknown tools are only called before the first name was
sent, names carry the indices `0, 1, 2, …`, fragments the index of the last name, and the record
of streamed arguments is what was emitted. -/
theorem BaseFormatDetector.indexed_of_reachable (D : BaseFormatDetector)
    {s : DetectorState × List ToolCallItem}
    (h : Reachable (· = ({}, [])) D.KnownToolsOnceStarted D.live s) : Indexed s.1 s.2 := by
  refine (h.invariant (I := OnTrack) ?_ ?_).indexed
  · rintro _ rfl
    exact ⟨.start, .idle rfl rfl rfl⟩
  · intro s s' event hs hknown hrun
    exact hs.step event hknown hrun

/-- The answers of the JSON functions where one whole object has arrived. -/
def wholeObject (name : Text) (length : ℕ) : JsonTools where
  partialJsonLoads := fun _ _ =>
    .ok (.object [("name".toList, .string name), ("arguments".toList, .object [])], length)
  isCompleteJson := fun _ => true
  dumps := fun _ => .ok "\x7b\x7d".toList

/-- The unknown tool `g` is called before `f`. -/
def unknownFirst : List Event :=
  [.parse (wholeObject ['g'] 30) "[\x7b\"name\": \"g\", \"arguments\": \x7b\x7d\x7d,".toList
      [['f']],
    .parse (wholeObject ['f'] 30) "\x7b\"name\": \"f\", \"arguments\": \x7b\x7d\x7d".toList [['f']],
    .parse (wholeObject ['f'] 30) "]".toList [['f']]]

theorem BaseFormatDetector.indexed_unknownFirst :
    ∃ s, Reachable.runAll jsonArrayParser.live ({}, []) unknownFirst = some s ∧
      s.2 = [⟨0, some ['f'], []⟩, ⟨0, none, "\x7b\x7d".toList⟩] ∧ Indexed s.1 s.2 := by
  refine ⟨_, rfl, rfl, jsonArrayParser.indexed_of_reachable
    (.of_permitted unknownFirst ⟨fun _ => rfl, fun _ => rfl, ?_, trivial⟩ (.start rfl) rfl)⟩
  rintro ⟨-, obj, start, stop, hload, hunknown⟩
  cases hload
  cases hunknown

/-- The unknown tool `g` is called between two calls to `f`. -/
def unknownBetween : List Event :=
  [.parse (wholeObject ['f'] 30) "[\x7b\"name\": \"f\", \"arguments\": \x7b\x7d\x7d".toList [['f']],
    .parse (wholeObject ['f'] 30) ",".toList [['f']],
    .parse (wholeObject ['g'] 31) " \x7b\"name\": \"g\", \"arguments\": \x7b\x7d\x7d,".toList
      [['f']],
    .parse (wholeObject ['f'] 30) "\x7b\"name\": \"f\", \"arguments\": \x7b\x7d\x7d".toList [['f']]]

/-- The second call to `f` reuses index 0. -/
theorem BaseFormatDetector.not_indexed_unknownBetween :
    ∃ s, Reachable.runAll jsonArrayParser.live ({}, []) unknownBetween = some s ∧
      s.2 = [⟨0, some ['f'], []⟩, ⟨0, none, "\x7b\x7d".toList⟩, ⟨0, some ['f'], []⟩] ∧
      ¬ Indexed s.1 s.2 := by
  refine ⟨_, rfl, rfl, fun h => ?_⟩
  exact absurd h.names (by decide)

end Sglang.FunctionCall
