import Sglang.Parser.Apertus

/-!
# The Apertus loop as a scan

`next` is the transition of an ideal reader that has the whole text before it:
the first marker its mode looks for, what is emitted up to it, and the text
after it. `total` iterates it. Text read so far and held back decides every
transition the same way whatever follows, so the loop emits, chunk by chunk,
what `total` assigns to the whole text.
-/

namespace Sglang.Parser

open Sglang.Support List
open StreamingParseResult (append_empty mk_append_mk)
open Option

theorem endsWithPartialToken_cases (b t : List Char) : (endsWithPartialToken b t = 0 ∧
        ∀ i, 1 ≤ i → i ≤ b.length → i < t.length → ¬ b.drop (b.length - i) <+: t) ∨
      (1 ≤ endsWithPartialToken b t ∧ endsWithPartialToken b t ≤ b.length ∧
        b.drop (b.length - endsWithPartialToken b t) <+: t) := by
  unfold endsWithPartialToken
  cases hfind : (List.range' 1 (min (b.length + 1) t.length - 1)).find?
      fun i => (b.drop (b.length - i)).isPrefixOf t with
  | none =>
    refine Or.inl ⟨rfl, fun i h1 hb ht hpre => ?_⟩
    refine List.find?_eq_none.mp hfind i ?_ (List.isPrefixOf_iff_prefix.mpr hpre)
    rw [mem_range'_1]
    omega
  | some i =>
    have hmem := mem_of_find?_eq_some hfind
    rw [mem_range'_1] at hmem
    have hpre := List.find?_some hfind
    exact Or.inr ⟨hmem.1, by simp only [getD_some]; omega, by simpa using hpre⟩

theorem endsWithPartialToken_le (b t : List Char) : endsWithPartialToken b t ≤ b.length := by
  rcases endsWithPartialToken_cases b t with ⟨h, -⟩ | ⟨-, h, -⟩
  · rw [h]
    exact Nat.zero_le _
  · exact h

/-- For a headed marker the shortest partial end is the only one. -/
theorem not_prefix_of_endsWithPartialToken_lt {b t x : List Char} (ht : Headed t)
    (hx : x <:+ b) (hlt : endsWithPartialToken b t < x.length) (hxt : x.length < t.length) :
    ¬ x <+: t := by
  intro hpre
  have hdrop : b.drop (b.length - x.length) = x := (suffix_iff_eq_drop.mp hx).symm
  have hx0 : x ≠ [] := fun h0 => by simp [h0] at hlt
  rcases endsWithPartialToken_cases b t with ⟨-, hno⟩ | ⟨h1, hle, hpart⟩
  · exact hno x.length (by omega) hx.length_le hxt (by rwa [hdrop])
  · have hlen : (b.drop (b.length - endsWithPartialToken b t)).length =
        endsWithPartialToken b t := by
      rw [length_drop]
      omega
    have hne : b.drop (b.length - endsWithPartialToken b t) ≠ [] := fun h0 => by
      rw [h0] at hlen
      simp only [length_nil] at hlen
      omega
    have heq := ht.unique_partial hpart hne hpre hx0 (drop_suffix _ b) hx
    rw [heq] at hlen
    omega

namespace Apertus2509Detector

theorem headed_startTok : Headed startTok := by decide
theorem headed_endTok : Headed endTok := by decide
theorem headed_toolStart : Headed toolStart := by decide
theorem headed_toolEnd : Headed toolEnd := by decide

/-- Where the reader stands: outside any section, in the thoughts of one, or in
a tool block of one. -/
inductive Mode
  | outside
  | thinking
  | tool
deriving DecidableEq

/-- Text of a mode that holds no marker. -/
def channel : Mode → List Char → StreamingParseResult Char
  | .thinking, t => { reasoningText := t }
  | .outside, t => { normalText := t }
  | .tool, t => { normalText := t }

structure Transition where
  emitted : StreamingParseResult Char
  mode : Mode
  rest : List Char

/-- The thoughts end at `e`. -/
def endAt (t : List Char) (e : ℕ) : Transition :=
  ⟨{ reasoningText := t.take e }, .outside, t.drop (e + endTok.length)⟩

/-- A tool block starts at `s`; its marker is part of it. -/
def toolAt (t : List Char) (s : ℕ) : Transition := ⟨{ reasoningText := t.take s }, .tool, t.drop s⟩

def next : Mode → List Char → Option Transition
  | .outside, t => (find startTok t).map fun s =>
    ⟨{ normalText := t.take s }, .thinking, t.drop (s + startTok.length)⟩
  | .tool, t => (find toolEnd t).map fun e =>
    ⟨{ normalText := t.take (e + toolEnd.length) }, .thinking, t.drop (e + toolEnd.length)⟩
  | .thinking, t =>
    match find toolStart t, find endTok t with
    | none, none => none
    | none, some e => some (endAt t e)
    | some s, none => some (toolAt t s)
    | some s, some e => some (if e = min s e then endAt t e else toolAt t s)

/-- Rounds left: entering a tool block consumes no letter. -/
def weight : Mode → List Char → ℕ
  | .thinking, t => 2 * t.length + 1
  | .outside, t => 2 * t.length
  | .tool, t => 2 * t.length

variable {t : List Char} {x : Transition} {m : Mode}

/-- Of the two markers of the thoughts, the first decides. -/
theorem next_thinking_eq_some : next .thinking t = some x ↔
    (∃ e ∈ find endTok t, (∀ s ∈ find toolStart t, e ≤ s) ∧ x = endAt t e) ∨
      ∃ s ∈ find toolStart t, (∀ e ∈ find endTok t, s < e) ∧ x = toolAt t s := by
  simp only [next]
  cases find toolStart t with
  | none => cases find endTok t <;> simp [eq_comm]
  | some s =>
    cases find endTok t with
    | none => simp [eq_comm]
    | some e =>
      by_cases hle : e ≤ s
      · simp [hle, hle.not_gt, eq_comm]
      · have hlt : s < e := by omega
        simp [min_eq_left hlt.le, hlt, hlt.ne', hle, eq_comm]

theorem next_thinking_end {e : ℕ} (he : find endTok t = some e)
    (hs : ∀ s ∈ find toolStart t, e ≤ s) : next .thinking t = some (endAt t e) :=
  next_thinking_eq_some.mpr (Or.inl ⟨e, he, hs, rfl⟩)

theorem next_thinking_tool {s : ℕ} (hs : find toolStart t = some s)
    (he : ∀ e ∈ find endTok t, s < e) : next .thinking t = some (toolAt t s) :=
  next_thinking_eq_some.mpr (Or.inr ⟨s, hs, he, rfl⟩)

theorem next_thinking_eq_none :
    next .thinking t = none ↔ find toolStart t = none ∧ find endTok t = none := by
  unfold next
  cases hs : find toolStart t <;> cases he : find endTok t <;> simp [hs, he]

theorem weight_next_lt (h : next m t = some x) : weight x.mode x.rest < weight m t := by
  cases m with
  | outside =>
    obtain ⟨s, hs, rfl⟩ := map_eq_some_iff.mp h
    have hle := find_add_length_le hs
    have hpos : 0 < startTok.length := by decide
    simp only [weight, length_drop]
    omega
  | tool =>
    obtain ⟨e, he, rfl⟩ := map_eq_some_iff.mp h
    have hle := find_add_length_le he
    have hpos : 0 < toolEnd.length := by decide
    simp only [weight, length_drop]
    omega
  | thinking =>
    rcases next_thinking_eq_some.mp h with ⟨e, he, -, rfl⟩ | ⟨s, hs, -, rfl⟩
    · have hle := find_add_length_le he
      have hpos : 0 < endTok.length := by decide
      simp only [weight, endAt, length_drop]
      omega
    · simp only [weight, toolAt, length_drop]
      omega

/-- What a whole text gives from a mode, and the mode it ends in. -/
def total (m : Mode) (t : List Char) : StreamingParseResult Char × Mode :=
  match _h : next m t with
  | none => (channel m t, m)
  | some x => (x.emitted ++ (total x.mode x.rest).1, (total x.mode x.rest).2)
termination_by weight m t
decreasing_by all_goals exact weight_next_lt _h

theorem total_of_none (h : next m t = none) : total m t = (channel m t, m) := by
  rw [total]
  split
  · rfl
  · simp_all

theorem total_of_some (h : next m t = some x) :
    total m t = (x.emitted ++ (total x.mode x.rest).1, (total x.mode x.rest).2) := by
  rw [total]
  split
  · simp_all
  · rename_i y hy
    obtain rfl : x = y := Option.some.inj (h.symm.trans hy)
    rfl

/-- A transition that the text so far decides is not changed by what follows. -/
theorem next_append {b v : List Char} (h : next m b = some x) :
    next m (b ++ v) = some { x with rest := x.rest ++ v } := by
  cases m with
  | outside =>
    obtain ⟨s, hs, rfl⟩ := map_eq_some_iff.mp h
    have hle := find_add_length_le hs
    simp [next, find_append_left hs, take_append_of_le_length (show s ≤ b.length by omega),
      drop_append_of_le_length hle]
  | tool =>
    obtain ⟨e, he, rfl⟩ := map_eq_some_iff.mp h
    have hle := find_add_length_le he
    simp [next, find_append_left he, take_append_of_le_length hle, drop_append_of_le_length hle]
  | thinking =>
    -- A marker that only the longer text holds comes after the one that decides.
    have hold : ∀ {p q : List Char} {i j : ℕ}, Headed p → q.head? = p.head? → ¬ q <+: p →
        find q b = some j → find p (b ++ v) = some i → find p b = some i ∨ j < i := by
      intro p q i j hp hhead hqp hj hi
      cases hb : find p b with
      | none => exact Or.inr (hp.find_lt hhead hqp (find_eq_none_iff.mp hb) hj hi)
      | some k => exact Or.inl ((find_append_left hb).symm.trans hi)
    rcases next_thinking_eq_some.mp h with ⟨e, he, hmin, rfl⟩ | ⟨s, hs, hmin, rfl⟩
    · have hle := find_add_length_le he
      rw [next_thinking_end (find_append_left he) fun s hs => ?_]
      · simp [endAt, take_append_of_le_length (show e ≤ b.length by omega),
          drop_append_of_le_length hle]
      · exact (hold headed_toolStart (by decide) (by decide) he hs).elim (hmin s) Nat.le_of_lt
    · have hle := find_add_length_le hs
      have hle' : s ≤ b.length := by omega
      rw [next_thinking_tool (find_append_left hs) fun e he => ?_]
      · simp [toolAt, take_append_of_le_length hle', drop_append_of_le_length hle']
      · exact (hold headed_endTok (by decide) (by decide) hs he).elim (hmin e) id

/-- The markers a mode looks for. -/
def sought : Mode → List (List Char)
  | .outside => [startTok]
  | .thinking => [toolStart, endTok]
  | .tool => [toolEnd]

theorem next_eq_none_iff : next m t = none ↔ ∀ p ∈ sought m, ¬ p <:+: t := by
  cases m with
  | outside => simp [next, sought, find_eq_none_iff]
  | tool => simp [next, sought, find_eq_none_iff]
  | thinking => simp [next_thinking_eq_none, sought, find_eq_none_iff]

/-- Text without markers in front of a text is passed on by the mode. -/
theorem next_append_right {u w : List Char} (hu : ∀ p ∈ sought m, ¬ p <:+: u)
    (hs : ∀ p ∈ sought m, ¬ Straddles p u w) :
    next m (u ++ w) = (next m w).map fun x => { x with emitted := channel m u ++ x.emitted } := by
  have hfind : ∀ p ∈ sought m, find p (u ++ w) = (find p w).map (u.length + ·) :=
    fun p hp => find_append_right (hu p hp) (hs p hp)
  have htake : ∀ i, (u ++ w).take (u.length + i) = u ++ w.take i := take_length_add_append
  have hdrop : ∀ i, (u ++ w).drop (u.length + i) = w.drop i := drop_length_add_append
  cases m with
  | outside =>
    simp only [next, hfind startTok (by simp [sought])]
    cases find startTok w <;> simp [htake, hdrop, Nat.add_assoc, channel, mk_append_mk]
  | tool =>
    simp only [next, hfind toolEnd (by simp [sought])]
    cases find toolEnd w <;> simp [htake, hdrop, Nat.add_assoc, channel, mk_append_mk]
  | thinking =>
    simp only [next, hfind toolStart (by simp [sought]), hfind endTok (by simp [sought])]
    cases find toolStart w with
    | none =>
      cases find endTok w <;> simp [endAt, htake, hdrop, Nat.add_assoc, channel, mk_append_mk]
    | some s =>
      cases find endTok w with
      | none => simp [toolAt, htake, channel, mk_append_mk]
      | some e =>
        have hmin : u.length + e = min (u.length + s) (u.length + e) ↔ e = min s e := by omega
        simp only [map_some, hmin]
        split <;> simp [endAt, toolAt, htake, hdrop, Nat.add_assoc, channel, mk_append_mk]

theorem channel_append (m : Mode) (u w : List Char) :
    channel m (u ++ w) = channel m u ++ channel m w := by
  cases m <;> rfl

theorem total_append_right {u w : List Char} (hu : ∀ p ∈ sought m, ¬ p <:+: u)
    (hs : ∀ p ∈ sought m, ¬ Straddles p u w) :
    total m (u ++ w) = (channel m u ++ (total m w).1, (total m w).2) := by
  have hnext := next_append_right hu hs
  cases hw : next m w with
  | none =>
    rw [hw] at hnext
    rw [total_of_none hnext, total_of_none hw, channel_append]
  | some x =>
    rw [hw] at hnext
    rw [total_of_some hnext, total_of_some hw, StreamingParseResult.append_assoc]

section Loop

variable (D : Apertus2509Detector) {st : ApertusState}

def mode (st : ApertusState) : Mode :=
  if st.inReasoning then if st.inInnerTool then .tool else .thinking else .outside

theorem mode_eq_outside : mode st = .outside ↔ st.inReasoning = false := by
  cases h : st.inReasoning <;> cases h' : st.inInnerTool <;> simp [mode, h, h']

theorem mode_eq_tool : mode st = .tool ↔ st.inReasoning = true ∧ st.inInnerTool = true := by
  cases h : st.inReasoning <;> cases h' : st.inInnerTool <;> simp [mode, h, h']

theorem mode_eq_thinking :
    mode st = .thinking ↔ st.inReasoning = true ∧ st.inInnerTool = false := by
  cases h : st.inReasoning <;> cases h' : st.inInnerTool <;> simp [mode, h, h']

/-- Reasoning that is accumulated while reasoning is not streamed. -/
def pending (st : ApertusState) : StreamingParseResult Char :=
  { reasoningText := st.reasoningAcc }

/-- The accumulator is empty outside the sections, and whenever reasoning is
streamed. -/
structure Settled (st : ApertusState) : Prop where
  outside : st.inReasoning = false → st.reasoningAcc = []
  streamed : D.streamReasoning = true → st.reasoningAcc = []

/-- What a round does: follow the transition that the buffer decides, or pass on
what no later text can change. -/
inductive RoundSpec (st : ApertusState) (r : Round) : Prop
  | follow (x : Transition) (step : next (mode st) st.buffer = some x) (again : r.again = true)
      (settled : D.Settled r.state) (target : mode r.state = x.mode)
      (rest : r.state.buffer = x.rest)
      (emitted : pending st ++ x.emitted = r.emitted ++ pending r.state)
  | stop (u w : List Char) (buffer : st.buffer = u ++ w)
      (unmarked : next (mode st) st.buffer = none) (again : r.again = false)
      (safe : ∀ p ∈ sought (mode st), ∀ v, ¬ Straddles p u (w ++ v))
      (state : r.state = { st with buffer := w })
      (emitted : pending st ++ channel (mode st) u = r.emitted ++ pending st)

theorem pending_of_nil (h : st.reasoningAcc = []) : pending st = {} := by
  rw [pending, h]

/-- Holding back at least the shortest partial end of a headed marker is safe. -/
theorem not_straddles_cutBuffer {p b : List Char} {k : ℕ} (hp : Headed p) (hb : ¬ p <:+: b)
    (hk : k ≤ b.length) (hle : endsWithPartialToken b p ≤ k) (v : List Char) :
    ¬ Straddles p (b.take (b.length - k)) (b.drop (b.length - k) ++ v) :=
  not_straddles_of_hold hb hk
    (fun _ hx hlt hxp => not_prefix_of_endsWithPartialToken_lt hp hx (by omega) hxp) v

/-- A mode that looks for one marker passes on all but its partial end. -/
theorem RoundSpec.hold {p : List Char} {r : Round} (hp : Headed p)
    (hsought : sought (mode st) = [p])
    (hnone : find p st.buffer = none)
    (hr : r = ⟨false, (cutBuffer st (endsWithPartialToken st.buffer p)).2,
      channel (mode st) (cutBuffer st (endsWithPartialToken st.buffer p)).1⟩)
    (hcomm : ∀ u, pending st ++ channel (mode st) u = channel (mode st) u ++ pending st) :
    D.RoundSpec st r := by
  subst hr
  have hb := find_eq_none_iff.mp hnone
  refine .stop _ _ (take_append_drop _ _).symm ?_ rfl ?_ rfl (hcomm _)
  · rw [next_eq_none_iff, hsought, forall_mem_singleton]
    exact hb
  · rw [hsought, forall_mem_singleton]
    exact not_straddles_cutBuffer hp hb (endsWithPartialToken_le _ _) le_rfl

theorem outsideRound_spec (hst : D.Settled st) (hm : mode st = .outside) :
    D.RoundSpec st (outsideRound st) := by
  have hacc := hst.outside (mode_eq_outside.mp hm)
  unfold outsideRound
  cases hs : find startTok st.buffer with
  | none =>
    refine .hold D headed_startTok (by rw [hm, sought]) hs (by rw [hm]; rfl) fun u => ?_
    simp [hm, pending, channel, mk_append_mk]
  | some s =>
    refine .follow _ (by rw [hm, next, hs]; rfl) rfl ⟨fun _ => rfl, fun _ => rfl⟩ rfl rfl ?_
    simp [pending, hacc, mk_append_mk]

theorem toolRound_spec (hst : D.Settled st) (hm : mode st = .tool) :
    D.RoundSpec st (toolRound st) := by
  unfold toolRound
  cases he : find toolEnd st.buffer with
  | none =>
    refine .hold D headed_toolEnd (by rw [hm, sought]) he (by rw [hm]; rfl) fun u => ?_
    simp [hm, pending, channel, mk_append_mk]
  | some e =>
    refine .follow _ (by rw [hm, next, he]; rfl) rfl ⟨hst.outside, hst.streamed⟩ ?_ rfl ?_
    · simp [mode, (mode_eq_tool.mp hm).1]
    · simp [pending, mk_append_mk]

theorem thinkHold_spec (hst : D.Settled st) (hm : mode st = .thinking)
    (hs : find toolStart st.buffer = none) (he : find endTok st.buffer = none) :
    D.RoundSpec st (D.thinkHold st) := by
  have hnone : next (mode st) st.buffer = none := by
    rw [hm, next_thinking_eq_none]
    exact ⟨hs, he⟩
  unfold thinkHold
  by_cases hstream : D.streamReasoning = true
  · rw [if_pos hstream]
    refine .stop _ _ (take_append_drop _ _).symm hnone rfl ?_ rfl ?_
    · rw [hm]
      intro p hp v
      have hk := Nat.max_le.mpr ⟨endsWithPartialToken_le st.buffer endTok,
        endsWithPartialToken_le st.buffer toolStart⟩
      rcases mem_pair.mp hp with rfl | rfl
      · exact not_straddles_cutBuffer headed_toolStart (find_eq_none_iff.mp hs) hk
          (le_max_right _ _) v
      · exact not_straddles_cutBuffer headed_endTok (find_eq_none_iff.mp he) hk
          (le_max_left _ _) v
    · simp [hm, pending, hst.streamed hstream, channel, cutBuffer, mk_append_mk]
  · rw [if_neg hstream]
    refine .stop [] st.buffer rfl hnone rfl (fun p _ v => not_straddles_nil) rfl ?_
    simp [hm, pending, channel, mk_append_mk]

theorem thinkEnd_spec {e : ℕ} (hst : D.Settled st) (hm : mode st = .thinking)
    (hnext : next .thinking st.buffer = some (endAt st.buffer e)) :
    D.RoundSpec st (D.thinkEnd st e) := by
  unfold thinkEnd
  split
  · have hacc := hst.streamed ‹_›
    refine .follow _ (hm ▸ hnext) rfl ⟨fun _ => hacc, hst.streamed⟩ rfl rfl ?_
    simp [pending, hacc, endAt, mk_append_mk]
  · refine .follow _ (hm ▸ hnext) rfl ⟨fun _ => rfl, fun _ => rfl⟩ rfl rfl ?_
    simp [pending, endAt, mk_append_mk]

theorem thinkTool_spec {s : ℕ} (hst : D.Settled st) (hm : mode st = .thinking)
    (hnext : next .thinking st.buffer = some (toolAt st.buffer s)) :
    D.RoundSpec st (D.thinkTool st s) := by
  have hin := (mode_eq_thinking.mp hm).1
  unfold thinkTool
  split
  · refine .follow _ (hm ▸ hnext) rfl ⟨hst.outside, hst.streamed⟩ (by simp [mode, toolAt, hin])
      rfl ?_
    simp [pending, hst.streamed ‹_›, toolAt, mk_append_mk]
  · refine .follow _ (hm ▸ hnext) rfl ⟨by simp [hin], fun h => absurd h ‹_›⟩
      (by simp [mode, toolAt, hin]) rfl ?_
    simp [pending, toolAt, mk_append_mk]

theorem thinkRound_spec (hst : D.Settled st) (hm : mode st = .thinking) :
    D.RoundSpec st (D.thinkRound st) := by
  unfold thinkRound
  split
  · exact thinkHold_spec D hst hm ‹_› ‹_›
  · rename_i hs he
    exact thinkEnd_spec D hst hm (next_thinking_end he (by simp [hs]))
  · rename_i hs he
    exact thinkTool_spec D hst hm (next_thinking_tool hs (by simp [he]))
  · rename_i s e hs he
    split
    · exact thinkEnd_spec D hst hm (next_thinking_end he (by simp [hs]; omega))
    · exact thinkTool_spec D hst hm (next_thinking_tool hs (by simp [he]; omega))

theorem round_spec (hst : D.Settled st) : D.RoundSpec st (D.round st) := by
  unfold round
  cases hm : mode st with
  | outside =>
    rw [mode_eq_outside.mp hm]
    exact outsideRound_spec D hst hm
  | tool =>
    obtain ⟨hin, htool⟩ := mode_eq_tool.mp hm
    rw [hin, htool]
    exact toolRound_spec D hst hm
  | thinking =>
    obtain ⟨hin, htool⟩ := mode_eq_thinking.mp hm
    rw [hin, htool]
    exact thinkRound_spec D hst hm

/-- What a text gives, after what was emitted before it. -/
def after (r : StreamingParseResult Char) (x : StreamingParseResult Char × Mode) :
    StreamingParseResult Char × Mode := (r ++ x.1, x.2)

theorem after_after (r r' : StreamingParseResult Char) (x : StreamingParseResult Char × Mode) :
    after r (after r' x) = after (r ++ r') x :=
  Prod.ext (StreamingParseResult.append_assoc r r' x.1).symm rfl

/-- What a state has still to give on a text that follows its buffer. -/
def owed (st : ApertusState) (v : List Char) : StreamingParseResult Char × Mode :=
  after (pending st) (total (mode st) (st.buffer ++ v))

/-- What the loop does to a state with the whole text still before it. -/
structure DrainSpec (st st' : ApertusState) (out : StreamingParseResult Char) : Prop where
  settled : D.Settled st'
  idle : next (mode st') st'.buffer = none
  owed_eq : ∀ v, owed st v = after out (owed st' v)

theorem drain_spec (fuel : ℕ) (hst : D.Settled st) (hfuel : weight (mode st) st.buffer < fuel) :
    DrainSpec D st (D.drain fuel st).1 (D.drain fuel st).2 := by
  induction fuel generalizing st with
  | zero => exact absurd hfuel (Nat.not_lt_zero _)
  | succ fuel ih =>
    rw [drain]
    cases round_spec D hst with
    | follow x step again settled target rest emitted =>
      have hlt := weight_next_lt step
      obtain ⟨h1, h2, h3⟩ := ih settled (by rw [target, rest]; omega)
      simp only [again, if_true]
      refine ⟨h1, h2, fun v => ?_⟩
      have htotal : total (mode st) (st.buffer ++ v) =
          after x.emitted (total x.mode (x.rest ++ v)) := total_of_some (next_append step)
      rw [owed, htotal, after_after, emitted, ← after_after, ← after_after, ← h3, owed,
        target, rest]
    | stop u w buffer unmarked again safe state emitted =>
      rw [buffer] at unmarked
      have hmark := next_eq_none_iff.mp unmarked
      have hu : ∀ p ∈ sought (mode st), ¬ p <:+: u := fun p hp hin =>
        hmark p hp (hin.trans (prefix_append u w).isInfix)
      have hw : ∀ p ∈ sought (mode st), ¬ p <:+: w := fun p hp hin =>
        hmark p hp (hin.trans (suffix_append u w).isInfix)
      simp only [again, Bool.false_eq_true, if_false, state]
      refine ⟨⟨hst.outside, hst.streamed⟩, next_eq_none_iff.mpr hw, fun v => ?_⟩
      have htotal : total (mode st) (u ++ (w ++ v)) =
          after (channel (mode st) u) (total (mode st) (w ++ v)) :=
        total_append_right hu fun p hp => safe p hp v
      rw [owed, buffer, append_assoc, htotal, after_after, emitted, ← after_after]
      rfl

theorem feed_spec (cs : List (List Char)) (hst : D.Settled st)
    (hidle : next (mode st) st.buffer = none) :
    let run := feed D.parseStreamingIncrement st cs
    D.Settled run.1 ∧ owed st cs.flatten =
      (StreamingParseResult.concat run.2 ++ (pending run.1 ++ channel (mode run.1) run.1.buffer),
        mode run.1) := by
  induction cs generalizing st with
  | nil =>
    refine ⟨hst, ?_⟩
    rw [owed, flatten_nil, append_nil, total_of_none hidle]
    rfl
  | cons c cs ih =>
    have hw : weight (mode { st with buffer := st.buffer ++ c }) (st.buffer ++ c) <
        2 * (st.buffer ++ c).length + 2 := by
      cases mode { st with buffer := st.buffer ++ c } <;> simp only [weight] <;> omega
    have hst' : D.Settled { st with buffer := st.buffer ++ c } := ⟨hst.outside, hst.streamed⟩
    have hstep : DrainSpec D { st with buffer := st.buffer ++ c }
        (D.parseStreamingIncrement st c).1 (D.parseStreamingIncrement st c).2 :=
      drain_spec D _ hst' hw
    obtain ⟨h1, h2⟩ := ih hstep.settled hstep.idle
    have howed : owed st (c ++ cs.flatten) =
        owed { st with buffer := st.buffer ++ c } cs.flatten := by
      rw [owed, owed, append_assoc]
      rfl
    refine ⟨h1, ?_⟩
    rw [flatten_cons, howed, hstep.owed_eq, h2, feed_cons, StreamingParseResult.concat_cons,
      StreamingParseResult.append_assoc]
    rfl

end Loop

end Apertus2509Detector

end Sglang.Parser
