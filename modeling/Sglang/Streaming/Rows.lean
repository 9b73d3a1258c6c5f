import Sglang.Streaming.Exclusion
import Mathlib.Data.List.Nodup

/-!
# The rows of slots and requests

A row of `req_to_token` is free, or kept by a slot, or used by a request. Only the holder of a
session shares a row with a slot, the one of its session.
-/

namespace Sglang.Streaming

open Sglang.Support Function

/-- A request that has had no scheduling attempt since it was queued, or whose attempts take no
slot. -/
def Ticket.Parked (t : Ticket) : Prop :=
  t.stage = .compiling ∨ t.stage = .waiting ∧ t.req.toFinish = true

theorem Ticket.not_parked_running {t : Ticket} (h : t.stage = .running) : ¬ t.Parked := by
  simp [Parked, h]

theorem Ticket.not_parked_gone {t : Ticket} (h : t.stage = .gone) : ¬ t.Parked := by
  simp [Parked, h]

namespace State

/-- The request `i` is in the row `row`. -/
def HasRow (s : State) (i row : ℕ) : Prop :=
  ∃ t, s.ticket i = some t ∧ t.req.reqPoolIdx = some row

structure Rows (s : State) : Prop where
  nodup : s.freeSlots.Nodup
  slot_free : ∀ sid row, s.slots sid = some row → row ∉ s.freeSlots
  slot_inj : ∀ sid sid' row, s.slots sid = some row → s.slots sid' = some row → sid = sid'
  row_free : ∀ i row, s.HasRow i row → row ∉ s.freeSlots
  row_inj : ∀ i j row, s.HasRow i row → s.HasRow j row → i = j
  row_slot : ∀ i row sid, s.HasRow i row → s.slots sid = some row →
    ∃ t obj, s.Holder i t obj ∧ (s.session obj).sessionId = sid
  holder_row : ∀ i t obj row slot, s.Holder i t obj → t.req.reqPoolIdx = some row →
    s.slots (s.session obj).sessionId = some slot → row = slot
  parked : ∀ i t, s.ticket i = some t → t.Parked → t.req.reqPoolIdx = none

variable {s s' : State} {rid obj sid row i : ℕ} {t t' u : Ticket}

theorem rows_init {rows : List ℕ} (h : rows.Nodup) : (State.init rows).Rows where
  nodup := h
  slot_free _ _ h := nomatch h
  slot_inj _ _ _ h := nomatch h
  row_free _ _ h := by
    obtain ⟨t, ht, -⟩ := h
    cases ht
  row_inj _ _ _ h := by
    obtain ⟨t, ht, -⟩ := h
    cases ht
  row_slot _ _ _ _ h := nomatch h
  holder_row _ _ _ _ _ h := nomatch h.1
  parked _ _ h := nomatch h

/-- Only the ids of the sessions that have a holder matter. -/
theorem Rows.congr (R : s.Rows) (hticket : s'.ticket = s.ticket) (hslots : s'.slots = s.slots)
    (hfree : s'.freeSlots = s.freeSlots)
    (hid : ∀ i u o, s.Holder i u o → (s'.session o).sessionId = (s.session o).sessionId) :
    s'.Rows := by
  obtain ⟨nodup, slot_free, slot_inj, row_free, row_inj, row_slot, holder_row, parked⟩ := R
  unfold HasRow at row_free row_inj row_slot
  unfold Holder at hid row_slot holder_row
  rw [← hfree] at nodup
  rw [← hslots, ← hfree] at slot_free
  rw [← hslots] at slot_inj
  rw [← hticket, ← hfree] at row_free
  rw [← hticket] at hid row_inj parked
  rw [← hticket, ← hslots] at row_slot holder_row
  refine ⟨nodup, slot_free, slot_inj, row_free, row_inj, fun i row sid h hsid => ?_,
    fun i t o row slot h hrow hslot => ?_, parked⟩
  · obtain ⟨t, o, ho, rfl⟩ := row_slot i row sid h hsid
    exact ⟨t, o, ho, hid i t o ho⟩
  · rw [hid i t o h] at hslot
    exact holder_row i t o row slot h hrow hslot

/-! ## A request gets another row, or leaves its row -/

theorem hasRow_of_setTicket (h : (s.setTicket rid t').HasRow i row) :
    i = rid ∧ t'.req.reqPoolIdx = some row ∨ i ≠ rid ∧ s.HasRow i row := by
  obtain ⟨u, hu, hrow⟩ := h
  rcases ticket_setTicket hu with ⟨rfl, rfl⟩ | ⟨hne, hu⟩
  · exact Or.inl ⟨rfl, hrow⟩
  · exact Or.inr ⟨hne, u, hu, hrow⟩

/-- The row `row` is right for the request `rid`. -/
structure Fits (s : State) (rid : ℕ) (t : Ticket) (row : ℕ) : Prop where
  free : row ∉ s.freeSlots
  alone : ∀ i, s.HasRow i row → i = rid
  slot : ∀ sid, s.slots sid = some row → ∃ obj, t.Holds obj ∧ (s.session obj).sessionId = sid
  holder : ∀ obj slot, t.Holds obj → s.slots (s.session obj).sessionId = some slot → row = slot

theorem Rows.put (R : s.Rows) (rid : ℕ) (t' : Ticket)
    (hfits : ∀ row, t'.req.reqPoolIdx = some row → s.Fits rid t' row)
    (hparked : t'.Parked → t'.req.reqPoolIdx = none) : (s.setTicket rid t').Rows where
  nodup := R.nodup
  slot_free := R.slot_free
  slot_inj := R.slot_inj
  row_free i row h := by
    rcases hasRow_of_setTicket h with ⟨-, hrow⟩ | ⟨-, hi⟩
    · exact (hfits row hrow).free
    · exact R.row_free i row hi
  row_inj i j row h h' := by
    rcases hasRow_of_setTicket h with ⟨rfl, hrow⟩ | ⟨-, hi⟩
    · rcases hasRow_of_setTicket h' with ⟨rfl, -⟩ | ⟨-, hj⟩
      · rfl
      · exact ((hfits row hrow).alone j hj).symm
    · rcases hasRow_of_setTicket h' with ⟨rfl, hrow⟩ | ⟨-, hj⟩
      · exact (hfits row hrow).alone i hi
      · exact R.row_inj i j row hi hj
  row_slot i row sid h hsid := by
    rcases hasRow_of_setTicket h with ⟨rfl, hrow⟩ | ⟨hne, hi⟩
    · obtain ⟨o, ho, hid⟩ := (hfits row hrow).slot sid hsid
      exact ⟨t', o, ⟨setTicket_self .., ho⟩, hid⟩
    · obtain ⟨u, o, ho, hid⟩ := R.row_slot i row sid hi hsid
      exact ⟨u, o, ⟨(setTicket_of_ne s t' hne).trans ho.1, ho.2⟩, hid⟩
  holder_row i u o row slot h hrow hslot := by
    rcases ticket_setTicket h.1 with ⟨-, rfl⟩ | ⟨-, hu⟩
    · exact (hfits row hrow).holder o slot h.2 hslot
    · exact R.holder_row i u o row slot ⟨hu, h.2⟩ hrow hslot
  parked i u h hu := by
    rcases ticket_setTicket h with ⟨-, rfl⟩ | ⟨-, h⟩
    · exact hparked hu
    · exact R.parked i u h hu

theorem Rows.unput (R : s.Rows) (rid : ℕ) (t' : Ticket) (hnone : t'.req.reqPoolIdx = none) :
    (s.setTicket rid t').Rows :=
  R.put rid t' (fun _ h => nomatch hnone.symm.trans h) fun _ => hnone

/-- The row that a request has is right as long as it holds the same flag. -/
theorem Rows.fits (R : s.Rows) (ht : s.ticket rid = some t) (hrow : t.req.reqPoolIdx = some row)
    (hholds : ∀ o, t'.Holds o ↔ t.Holds o) : s.Fits rid t' row where
  free := R.row_free rid row ⟨t, ht, hrow⟩
  alone i h := R.row_inj i rid row h ⟨t, ht, hrow⟩
  slot sid hsid := by
    obtain ⟨u, o, ho, hid⟩ := R.row_slot rid row sid ⟨t, ht, hrow⟩ hsid
    obtain rfl := Option.some.inj (ht.symm.trans ho.1)
    exact ⟨o, (hholds o).mpr ho.2, hid⟩
  holder o slot h hslot := R.holder_row rid t o row slot ⟨ht, (hholds o).mp h⟩ hrow hslot

theorem Rows.setTicket (R : s.Rows) (ht : s.ticket rid = some t)
    (hrow : t'.req.reqPoolIdx = t.req.reqPoolIdx)
    (hholds : t.req.reqPoolIdx ≠ none → ∀ o, t'.Holds o ↔ t.Holds o)
    (hparked : t'.Parked → t'.req.reqPoolIdx = none) : (s.setTicket rid t').Rows := by
  refine R.put rid t' (fun row h => ?_) hparked
  rw [hrow] at h
  exact R.fits ht h (hholds (by simp [h]))

/-- A request takes a free row. -/
theorem Rows.take (R : s.Rows) {rest : List ℕ} (hfree : s.freeSlots = row :: rest)
    (hrow : t'.req.reqPoolIdx = some row) (hstage : t'.stage = .running)
    (hslot : ∀ o, t'.Holds o → s.slots (s.session o).sessionId = none) :
    ({ s with freeSlots := rest }.setTicket rid t').Rows := by
  have hnodup := R.nodup
  rw [hfree, List.nodup_cons] at hnodup
  have hmem : row ∈ s.freeSlots := hfree ▸ List.mem_cons_self
  have hrest : ∀ r, r ∉ s.freeSlots → r ∉ rest := by
    intro r h
    rw [hfree] at h
    exact fun hr => h (List.mem_cons_of_mem _ hr)
  have R₁ : ({ s with freeSlots := rest } : State).Rows :=
    ⟨hnodup.2, fun sid r h => hrest r (R.slot_free sid r h), R.slot_inj,
      fun i r h => hrest r (R.row_free i r h), R.row_inj, R.row_slot, R.holder_row, R.parked⟩
  refine R₁.put rid t' (fun r h => ?_) fun h => absurd h (Ticket.not_parked_running hstage)
  obtain rfl := Option.some.inj (hrow.symm.trans h)
  refine ⟨hnodup.1, fun i h => ?_, fun sid h => ?_, fun o slot ho h => ?_⟩
  · exact absurd hmem (R.row_free i row h)
  · exact absurd hmem (R.slot_free sid row h)
  · exact nomatch (hslot o ho).symm.trans h

/-- A row that nobody has is given back. -/
theorem Rows.give (R : s.Rows) (hfree : row ∉ s.freeSlots) (hslot : ∀ sid, s.slots sid ≠ some row)
    (hrow : ∀ i, ¬ s.HasRow i row) :
    ({ s with freeSlots := s.freeSlots ++ [row] } : State).Rows := by
  have hmem : ∀ r, r ∉ s.freeSlots → r ≠ row → r ∉ s.freeSlots ++ [row] := by
    intro r hr hne h
    rcases List.mem_append.mp h with h | h
    · exact hr h
    · exact hne (List.mem_singleton.mp h)
  refine ⟨List.nodup_append_comm.mp (List.nodup_cons.mpr ⟨hfree, R.nodup⟩), fun sid r h => ?_,
    R.slot_inj, fun i r h => ?_, R.row_inj, R.row_slot, R.holder_row, R.parked⟩
  · refine hmem r (R.slot_free sid r h) ?_
    rintro rfl
    exact hslot sid h
  · refine hmem r (R.row_free i r h) ?_
    rintro rfl
    exact hrow i h

/-- A request gives its row back, which no slot keeps. -/
theorem Rows.free (R : s.Rows) (ht : s.ticket rid = some t) (hrow : t.req.reqPoolIdx = some row)
    (hslot : ∀ sid, s.slots sid ≠ some row) (hnone : t'.req.reqPoolIdx = none) :
    ({ s with freeSlots := s.freeSlots ++ [row] }.setTicket rid t').Rows := by
  refine (R.unput rid t' hnone).give (R.row_free rid row ⟨t, ht, hrow⟩) hslot fun i h => ?_
  rcases hasRow_of_setTicket h with ⟨-, h⟩ | ⟨hne, h⟩
  · exact nomatch hnone.symm.trans h
  · exact hne (R.row_inj i rid row h ⟨t, ht, hrow⟩)

/-! ## Slots -/

theorem update_none_eq_some {slots : ℕ → Option ℕ} {sid' : ℕ}
    (h : update slots sid none sid' = some row) : sid' ≠ sid ∧ slots sid' = some row := by
  by_cases hsid : sid' = sid
  · rw [hsid, update_self] at h
    cases h
  · rw [update_of_ne hsid] at h
    exact ⟨hsid, h⟩

theorem Rows.clearSlot (R : s.Rows) (sid : ℕ) :
    ({ s with slots := update s.slots sid none } : State).Rows where
  nodup := R.nodup
  slot_free sid' r h := R.slot_free sid' r (update_none_eq_some h).2
  slot_inj sid₁ sid₂ r h h' :=
    R.slot_inj sid₁ sid₂ r (update_none_eq_some h).2 (update_none_eq_some h').2
  row_free := R.row_free
  row_inj := R.row_inj
  row_slot i r sid' h hsid := R.row_slot i r sid' h (update_none_eq_some hsid).2
  holder_row i t o r slot h hrow hslot :=
    R.holder_row i t o r slot h hrow (update_none_eq_some hslot).2
  parked := R.parked

/-- The slot of a session without a holder gives its row back. -/
theorem Rows.drop (R : s.Rows) (sid : ℕ)
    (hno : ∀ i u o, s.Holder i u o → (s.session o).sessionId ≠ sid) : ({ s with
        slots := update s.slots sid none
        freeSlots := s.freeSlots ++ (s.slots sid).toList } : State).Rows := by
  cases hslot : s.slots sid with
  | none =>
    refine (R.clearSlot sid).congr rfl rfl ?_ fun _ _ _ _ => rfl
    exact List.append_nil _
  | some row =>
    refine (R.clearSlot sid).give (R.slot_free sid row hslot) (fun sid' h => ?_) fun i h => ?_
    · obtain ⟨hne, h⟩ := update_none_eq_some h
      exact hne (R.slot_inj sid' sid row h hslot)
    · obtain ⟨u, o, ho, hid⟩ := R.row_slot i row sid h hslot
      exact hno i u o ho hid

/-- A slot keeps a row that nobody has. -/
theorem Rows.keep (R : s.Rows) (sid : ℕ) (hfree : row ∉ s.freeSlots)
    (hslot : ∀ sid', s.slots sid' = some row → sid' = sid) (hrow : ∀ i, ¬ s.HasRow i row)
    (hno : ∀ i u o, s.Holder i u o → (s.session o).sessionId ≠ sid) :
    ({ s with slots := update s.slots sid (some row) } : State).Rows := by
  have hslots : ∀ sid' r, update s.slots sid (some row) sid' = some r →
      sid' = sid ∧ r = row ∨ sid' ≠ sid ∧ s.slots sid' = some r := by
    intro sid' r h
    by_cases hsid : sid' = sid
    · rw [hsid, update_self] at h
      exact Or.inl ⟨hsid, (Option.some.inj h).symm⟩
    · rw [update_of_ne hsid] at h
      exact Or.inr ⟨hsid, h⟩
  refine ⟨R.nodup, fun sid' r h => ?_, fun sid₁ sid₂ r h h' => ?_, R.row_free, R.row_inj,
    fun i r sid' h hsid => ?_, fun i t o r slot h hrow hslot => ?_, R.parked⟩
  · rcases hslots sid' r h with ⟨-, rfl⟩ | ⟨-, h⟩
    · exact hfree
    · exact R.slot_free sid' r h
  · rcases hslots sid₁ r h with ⟨rfl, rfl⟩ | ⟨-, h₁⟩
    · rcases hslots sid₂ r h' with ⟨rfl, -⟩ | ⟨-, h₂⟩
      · rfl
      · exact (hslot sid₂ h₂).symm
    · rcases hslots sid₂ r h' with ⟨rfl, rfl⟩ | ⟨-, h₂⟩
      · exact hslot sid₁ h₁
      · exact R.slot_inj sid₁ sid₂ r h₁ h₂
  · rcases hslots sid' r hsid with ⟨-, rfl⟩ | ⟨-, hsid⟩
    · exact absurd h (hrow i)
    · exact R.row_slot i r sid' h hsid
  · rcases hslots _ slot hslot with ⟨hsid, -⟩ | ⟨-, hslot⟩
    · exact absurd hsid (hno i t o h)
    · exact R.holder_row i t o r slot h hrow hslot

/-- Only a holder has the row of a slot. -/
theorem Rows.not_slot (R : s.Rows) (ht : s.ticket rid = some t)
    (hrow : t.req.reqPoolIdx = some row) (hsession : t.req.session = none) (sid : ℕ) :
    s.slots sid ≠ some row := by
  intro hslot
  obtain ⟨u, o, ho, -⟩ := R.row_slot rid row sid ⟨t, ht, hrow⟩ hslot
  obtain rfl := Option.some.inj (ht.symm.trans ho.1)
  exact nomatch hsession.symm.trans ho.2.attached

theorem Rows.without (R : s.Rows) (G : s.Guarded) (obj : ℕ) :
    ({ s with ticket := State.without s.ticket (s.session obj) } : State).Rows := by
  rcases G.without_eq obj with heq | ⟨p, t, ht, hfinished, heq⟩
  · rwa [heq]
  · rw [heq]
    refine R.setTicket ht rfl (fun _ o => iff_of_false (fun h => ?_) fun h => ?_) (R.parked p t ht)
    · exact nomatch h.attached
    · exact hfinished h.unfinished

theorem HasRow.of_without {S : Session}
    (h : ({ s with ticket := State.without s.ticket S } : State).HasRow i row) :
    s.HasRow i row := by
  obtain ⟨u, hu, hrow⟩ := h
  simp only [State.without] at hu
  split at hu
  · obtain ⟨v, hv, rfl⟩ := Option.map_eq_some_iff.mp hu
    exact ⟨v, hv, hrow⟩
  · exact ⟨u, hu, hrow⟩

/-- The sessions with one id have one holder. -/
theorem Guarded.holder_unique (G : s.Guarded) {j o o' : ℕ} {v : Ticket} (hi : s.Holder i u o)
    (hj : s.Holder j v o') (hid : (s.session o).sessionId = (s.session o').sessionId) : i = j := by
  have hopen := (G.holder i u o hi).1
  rw [hid, (G.holder j v o' hj).1] at hopen
  cases hopen
  exact G.unique i j u v o hi hj

/-! ## One event -/

theorem Rows.addTicket (R : s.Rows) {made : Arrays ℤ × Req} {session : Option ℕ} {b : Bool}
    (hr : Unstarted made.2 session b) (creator : Option ℕ) (birth : Birth) (verdict : Verdict) :
    (s.addTicket made creator birth verdict).Rows :=
  (R.unput s.nextReq _ (hr.apply verdict).row).congr rfl rfl rfl fun _ _ _ _ => rfl

/-- A scheduling attempt that leaves the request with its row, or gives it a free one. -/
theorem Rows.enter (R : s.Rows) (ht : s.ticket rid = some t) {admitted : Bool} {stage : Stage}
    {row : Option ℕ} {free : List ℕ} {r : Req}
    (henters : Enters t.req.reqPoolIdx s.freeSlots admitted stage row free)
    (hrow : r.reqPoolIdx = row) (hto : r.toFinish = t.req.toFinish) (hstage : t.stage = .waiting)
    (hholds : t.req.reqPoolIdx ≠ none → ∀ o, Ticket.Holds { t with stage, req := r } o ↔ t.Holds o)
    (hslot : ∀ o, Ticket.Holds { t with stage, req := r } o →
      s.slots (s.session o).sessionId = none) :
    ({ s with freeSlots := free }.setTicket rid { t with stage, req := r }).Rows := by
  cases henters with
  | stays =>
    refine R.setTicket ht hrow hholds fun h => hrow.trans (R.parked rid t ht ?_)
    exact Or.inr ⟨hstage, hto ▸ (h.resolve_left (by simp)).2⟩
  | has h =>
    exact R.setTicket ht hrow hholds fun h => absurd h (Ticket.not_parked_running rfl)
  | takes hnone hfree => exact R.take hfree hrow rfl hslot

/-- The holder takes the row of the slot. -/
theorem Rows.restore (R : s.Rows) (G : s.Guarded) (ht : s.ticket rid = some t)
    (hheld : t.Holds obj) (hslot : s.slots (s.session obj).sessionId = some row)
    (hholds : ∀ o, t'.Holds o ↔ t.Holds o) (hrow : t'.req.reqPoolIdx = some row)
    (hparked : ¬ t'.Parked) : (s.setTicket rid t').Rows := by
  refine R.put rid t' (fun r h => ?_) fun h => absurd h hparked
  obtain rfl := Option.some.inj (hrow.symm.trans h)
  refine ⟨R.slot_free _ row hslot, fun i h => ?_, fun sid h => ?_, fun o slot ho h => ?_⟩
  · obtain ⟨u, o, ho, hid⟩ := R.row_slot i row _ h hslot
    exact G.holder_unique ho ⟨ht, hheld⟩ hid
  · exact ⟨obj, (hholds obj).mpr hheld, R.slot_inj _ sid row hslot h⟩
  · obtain rfl := Option.some.inj (hheld.attached.symm.trans ((hholds o).mp ho).attached)
    exact Option.some.inj (hslot.symm.trans h)

theorem Rows.edit (R : s.Rows) (ht : s.ticket rid = some t) (E : Edits t t') :
    (s.setTicket rid t').Rows := by
  cases E with
  | decode tokens hstage =>
    exact R.setTicket ht rfl (fun _ _ => ⟨fun h => ⟨h.1, h.2, h.3⟩, fun h => ⟨h.1, h.2, h.3⟩⟩)
      fun h => absurd h (Ticket.not_parked_running hstage)
  | abort hstage =>
    exact R.setTicket ht rfl (fun _ _ => ⟨fun h => ⟨h.1, h.2, h.3⟩, fun h => ⟨h.1, h.2, h.3⟩⟩)
      fun h => absurd h (Ticket.not_parked_running hstage)
  | pop =>
    exact R.setTicket ht rfl (fun _ _ => ⟨fun h => ⟨h.1, h.2, h.3⟩, fun h => ⟨h.1, h.2, h.3⟩⟩)
      fun h => absurd h (Ticket.not_parked_gone rfl)
  | compiled hstage => exact R.unput rid _ (R.parked rid t ht (Or.inl hstage))

/-- A turn ends in the row that its slot keeps. -/
theorem Rows.finishTurn (R : s.Rows) (G : s.Guarded) (ht : s.ticket rid = some t)
    (hrow : t.req.reqPoolIdx = some row) (hheld : t.Holds obj) (F : Fades t t'.leaveRow)
    (S : t'.leaveRow.Sound s.nextSession) (hfinished : t'.req.finishedReason ≠ none) :
    (s.finishTurn rid obj row t').Rows := by
  have hhas : s.HasRow rid row := ⟨t, ht, hrow⟩
  have R₁ := (R.unput rid t'.leaveRow rfl).without (G.setTicket ht F S) obj
  have R₂ := R₁.keep (s.session obj).sessionId (R.row_free rid row hhas) ?_ ?_ ?_
  · refine R₂.congr rfl rfl rfl fun _ _ o _ => ?_
    exact sessionId_setSession (s := s) rfl
  · intro sid hsid
    obtain ⟨u, o, ho, rfl⟩ := R.row_slot rid row sid hhas hsid
    obtain rfl := Option.some.inj (ht.symm.trans ho.1)
    rw [Option.some.inj (ho.2.attached.symm.trans hheld.attached)]
  · intro i h
    rcases hasRow_of_setTicket h.of_without with ⟨-, h⟩ | ⟨hne, h⟩
    · cases h
    · exact hne (R.row_inj i rid row h hhas)
  · intro i u o h hid
    rcases ticket_setTicket h.of_without.1 with ⟨-, rfl⟩ | ⟨hne, hu⟩
    · exact hfinished h.2.unfinished
    · exact hne (G.holder_unique ⟨hu, h.2⟩ ⟨ht, hheld⟩ hid)

/-- A request that is aborted frees the slot of its session, or its own row. -/
theorem Rows.finishAbort (R : s.Rows) (ht : s.ticket rid = some t)
    (hrow : t.req.reqPoolIdx = some row) (hsession : t.req.session = some obj)
    (hheld : ∀ i u o, s.Holder i u o → (s.session o).sessionId = (s.session obj).sessionId →
      i = rid) (hnone : t'.req.reqPoolIdx = none) (hfinished : t'.req.finishedReason ≠ none) :
    ({ s with
      slots := update s.slots (s.session obj).sessionId none
      freeSlots := s.freeSlots ++ [(s.slots (s.session obj).sessionId).getD row] }.setTicket rid
        t').Rows := by
  cases hslot : s.slots (s.session obj).sessionId with
  | none =>
    refine (R.free ht hrow (fun sid hsid => ?_) hnone).congr rfl ?_ rfl fun _ _ _ _ => rfl
    · obtain ⟨u, o, ho, rfl⟩ := R.row_slot rid row sid ⟨t, ht, hrow⟩ hsid
      obtain rfl := Option.some.inj (ht.symm.trans ho.1)
      rw [Option.some.inj (ho.2.attached.symm.trans hsession), hslot] at hsid
      cases hsid
    · change update s.slots _ none = s.slots
      rw [← hslot, update_eq_self]
  | some slot =>
    have R₁ := R.unput rid t' hnone
    refine (R₁.drop (s.session obj).sessionId fun i u o h hid => ?_).congr rfl rfl ?_
      fun _ _ _ _ => rfl
    · rcases ticket_setTicket h.1 with ⟨-, rfl⟩ | ⟨hne, hu⟩
      · exact hfinished h.2.unfinished
      · exact hne (hheld i u o ⟨hu, h.2⟩ hid)
    · simp [State.setTicket, hslot]

theorem Rows.move (R : s.Rows) (G : s.Guarded) {bos : Option ℤ} {e : Event}
    (hok : s.Undisturbed e) (h : Move bos s e s') : s'.Rows := by
  cases h with
  | openSession hclosed =>
    refine R.congr rfl rfl rfl fun i u o h => ?_
    have hlt := ((G.sound i u h.1).attached o h.2.attached).2.1
    exact congrArg Session.sessionId (update_of_ne (Nat.ne_of_lt hlt) ..)
  | refuse hopen hrefuses => exact R.addTicket (unstarted_createReq ..) _ _ _
  | accept hopen hrefuses =>
    exact (R.addTicket (unstarted_createReq ..) _ _ _).congr rfl rfl rfl
      fun _ _ o _ => sessionId_setSession (s := s) rfl
  | submit q verdict => exact R.addTicket (unstarted_newReq ..) _ _ _
  | @fail rid t stage _ ht hstage hstays =>
    have hnone : (t.req.setFinishWithAbort s.arrays).2.reqPoolIdx = none :=
      R.parked rid t ht (Or.inl hstage)
    exact (R.unput rid { t with stage, req := _ } hnone).congr rfl rfl rfl fun _ _ _ _ => rfl
  | @enter rid t _ stage _ row _ ht hstage hheld henters =>
    obtain ⟨f, hf⟩ := refreshFillIds_eq t.req s.arrays
    rw [hf]
    cases hheld with
    | own hslot =>
      exact (R.enter ht henters (r := { t.req with fullUntruncatedFillIds := f, reqPoolIdx := row })
        rfl rfl hstage (fun _ _ => ⟨fun h => ⟨h.1, h.2, h.3⟩, fun h => ⟨h.1, h.2, h.3⟩⟩)
        fun o h => hslot o h.attached).congr rfl rfl rfl fun _ _ _ _ => rfl
    | @slot obj slot hsession hslot hto =>
      have hheld := (G.sound rid t ht).holds_of_going hsession hto (by simp [hstage])
      have hrestored : stage ≠ .compiling → (s.setTicket rid { t with
          stage
          req := { t.req with fullUntruncatedFillIds := f, reqPoolIdx := some slot } }).Rows := by
        intro hcompiling
        refine R.restore G ht hheld hslot
          (fun _ => ⟨fun h => ⟨h.1, h.2, h.3⟩, fun h => ⟨h.1, h.2, h.3⟩⟩) rfl ?_
        rintro (h | ⟨-, h⟩)
        · exact hcompiling h
        · exact nomatch hto.symm.trans h
      cases henters with
      | stays => exact (hrestored (by simp)).congr rfl rfl rfl fun _ _ _ _ => rfl
      | has h => exact (hrestored (by simp)).congr rfl rfl rfl fun _ _ _ _ => rfl
      | takes h => cases h
  | @leave rid obj slot t _ stage row _ ht hstage hsession hslot hto henters =>
    obtain ⟨f, hf⟩ := refreshFillIds_eq t.req s.arrays
    have hnone := R.parked rid t ht (Or.inr ⟨hstage, hto⟩)
    rw [hf]
    exact (R.enter ht henters
      (r := { t.req with fullUntruncatedFillIds := f, session := none, reqPoolIdx := row })
      rfl rfl hstage (fun h => absurd hnone h) fun o h => nomatch h.attached).congr rfl rfl rfl
      fun _ _ o _ => sessionId_setSession (s := s) rfl
  | edit ht E => exact R.edit ht E
  | free ht hstage hrow hsession F =>
    exact R.free ht hrow (R.not_slot ht hrow hsession) (by cases F <;> rfl)
  | retract ht hstage hrow hsession => exact nomatch hsession.symm.trans (hok _ ht)
  | @finish rid obj row t l ht hstage hto hrow hsession =>
    have S := G.sound rid t ht
    exact R.finishTurn G ht hrow (S.holds_of_going hsession hto (by simp [hstage]))
      ⟨rfl, rfl, Or.inr rfl, fun _ h => nomatch h⟩ (S.end rfl rfl rfl rfl rfl) fun h => nomatch h
  | @finishAbort rid obj row t ht hstage hto hrow hsession =>
    have hheld : ∀ i u o, s.Holder i u o → (s.session o).sessionId = (s.session obj).sessionId →
        i = rid := by
      intro i u o h hid
      by_cases hrefused : t.birth = .refused
      · exact absurd h (G.not_holder (hok t obj ht hrefused hsession o hid) i u)
      · exact G.holder_unique h
          ⟨ht, hsession, hrefused, (G.sound rid t ht).going (by simp [hstage])⟩
          hid
    set t' : Ticket := { t with
      stage := .gone
      req := { t.req with finishedReason := some .abort, toFinish := false, reqPoolIdx := none } }
    have hfinished : t'.req.finishedReason ≠ none := Option.some_ne_none _
    exact (R.finishAbort ht hrow hsession hheld rfl hfinished).congr rfl rfl rfl
      fun _ _ o _ => sessionId_setSession (s := s) rfl
  | @mark sid obj e hopen he =>
    exact R.congr rfl rfl rfl fun _ _ o _ => sessionId_setSession (s := s) rfl
  | @drop sid obj _ b hopen hidle he =>
    have hno : ∀ i u o, s.Holder i u o → (s.session o).sessionId ≠ sid := by
      rintro i u o h rfl
      have hsame := (G.holder i u o h).1
      rw [hopen] at hsame
      cases hsame
      exact G.not_holder hidle i u h
    exact ((R.without G obj).drop sid fun i u o h => hno i u o h.of_without).congr rfl rfl rfl
      fun _ _ o _ => sessionId_setSession (s := s) rfl

theorem Rows.step (R : s.Rows) (G : s.Guarded) {bos : Option ℤ} {e : Event}
    (hok : s.Undisturbed e) (h : Streaming.step bos s e = some s') : s'.Rows :=
  R.move G hok (step_move G.going h)

end State

end Sglang.Streaming
