import Sglang.Streaming.Moves

/-!
# One live request for each session

`_inflight` excludes a second request while a turn runs. The turn that set the flag is its
holder; the exclusion works as long as the flag is cleared at the end of the turn only. A
retraction clears it although the request goes on, and so does `match_prefix` for a request that
is to be aborted, be it the turn or a request that was refused because of it.
-/

namespace Sglang.Streaming

open Sglang.Support Function

/-- The token arrays of a request. -/
def Req.refs (r : Req) : List Ref :=
  [r.originInputIds, r.originInputIdsUnpadded, r.fullUntruncatedFillIds]

/-- The request set the flag of the session object `obj`. -/
structure Ticket.Holds (t : Ticket) (obj : ℕ) : Prop where
  attached : t.req.session = some obj
  taken : t.birth ≠ .refused
  unfinished : t.req.finishedReason = none

/-- What holds of every request. -/
structure Ticket.Sound (t : Ticket) (nextSession : ℕ) : Prop where
  attached : ∀ obj, t.req.session = some obj →
    t.creator = some obj ∧ obj < nextSession ∧ t.birth ≠ .plain
  pending : t.birth = .refused → t.req.finishedReason = none → t.req.toFinish = true
  going : t.stage ≠ .gone → t.req.finishedReason = none
  turn : t.birth = .accepted → t.req.finishedReason = none → t.req.session ≠ none

namespace State

variable (s : State)

/-- A request that `create_req` made without an abort and that has not finished. -/
structure Live (i : ℕ) (t : Ticket) : Prop where
  ticket : s.ticket i = some t
  accepted : t.birth = .accepted
  unfinished : t.req.finishedReason = none

/-- A session has one live request, only one request is in the row of a slot, and no two live
requests share a token array. -/
structure Exclusive : Prop where
  turn : ∀ i j t u, s.Live i t → s.Live j u → t.creator = u.creator → i = j
  row : ∀ sid row i j t u, s.slots sid = some row → s.ticket i = some t → s.ticket j = some u →
    t.req.finishedReason = none → u.req.finishedReason = none →
    t.req.reqPoolIdx = some row → u.req.reqPoolIdx = some row → i = j
  arrays : ∀ i j t u a, s.Live i t → s.Live j u → a ∈ t.req.refs → a ∈ u.req.refs → i = j

/-- No session with this id has a request in flight. -/
def Idle (sid : ℕ) : Prop :=
  ∀ obj, (s.session obj).sessionId = sid → (s.session obj).inflight = false

/-- No turn is retracted, no request that is to be aborted is matched with the slot of a session
during a turn, and no refused request is released during a turn. -/
def Undisturbed : Event → Prop
  | .retract rid => ∀ t, s.ticket rid = some t → t.req.session = none
  | .attempt rid _ => ∀ t obj, s.ticket rid = some t → t.req.toFinish = true →
      t.req.session = some obj → s.slots (s.session obj).sessionId ≠ none →
      s.Idle (s.session obj).sessionId
  | .finishAbort rid => ∀ t obj, s.ticket rid = some t → t.birth = .refused →
      t.req.session = some obj → s.Idle (s.session obj).sessionId
  | _ => True

/-- The request `i` set the flag of its session. -/
def Holder (i : ℕ) (t : Ticket) (obj : ℕ) : Prop := s.ticket i = some t ∧ t.Holds obj

/-- The flag is set while there is a holder. -/
structure Guarded : Prop where
  fresh : ∀ i t, s.ticket i = some t → i < s.nextReq
  sound : ∀ i t, s.ticket i = some t → t.Sound s.nextSession
  opened : ∀ sid obj, s.sessions sid = some obj →
    obj < s.nextSession ∧ (s.session obj).sessionId = sid
  holder : ∀ i t obj, s.Holder i t obj →
    s.sessions (s.session obj).sessionId = some obj ∧ (s.session obj).inflight = true
  unique : ∀ i j t u obj, s.Holder i t obj → s.Holder j u obj → i = j
  last : ∀ obj p, (s.session obj).reqNode = some p →
    ∃ t, s.ticket p = some t ∧ t.req.finishedReason ≠ none ∧ t.creator = some obj

end State

/-! ## Changes of one request -/

/-- A change of a request that makes no new holder. -/
structure Fades (t t' : Ticket) : Prop where
  creator : t'.creator = t.creator
  birth : t'.birth = t.birth
  session : t'.req.session = none ∨ t'.req.session = t.req.session
  finished : t.req.finishedReason ≠ none → t'.req.finishedReason ≠ none

variable {t t' : Ticket} {n : ℕ}

theorem Fades.holds (F : Fades t t') {obj : ℕ} (h : t'.Holds obj) : t.Holds obj where
  attached := by
    rcases F.session with hnone | hsame
    · exact nomatch hnone.symm.trans h.attached
    · exact hsame.symm.trans h.attached
  taken := F.birth ▸ h.taken
  unfinished := by
    by_contra hfinished
    exact F.finished hfinished h.unfinished

theorem Ticket.Sound.holds_of_accepted (S : t.Sound n) (haccepted : t.birth = .accepted)
    (hunfinished : t.req.finishedReason = none) : ∃ obj, t.Holds obj ∧ t.creator = some obj := by
  obtain ⟨obj, hobj⟩ := Option.ne_none_iff_exists'.mp (S.turn haccepted hunfinished)
  refine ⟨obj, ⟨hobj, ?_, hunfinished⟩, (S.attached obj hobj).1⟩
  rw [haccepted]
  decide

theorem Ticket.Sound.holds_of_going (S : t.Sound n) {obj : ℕ} (hsession : t.req.session = some obj)
    (hto : t.req.toFinish = false) (hstage : t.stage ≠ .gone) : t.Holds obj := by
  refine ⟨hsession, fun hrefused => ?_, S.going hstage⟩
  exact nomatch hto.symm.trans (S.pending hrefused (S.going hstage))

/-- The end of a request. -/
theorem Ticket.Sound.end (S : t.Sound n) {reason : FinishReason}
    (hreason : t'.req.finishedReason = some reason) (hstage : t'.stage = .gone)
    (hsession : t'.req.session = t.req.session) (hcreator : t'.creator = t.creator)
    (hbirth : t'.birth = t.birth) : t'.Sound n where
  attached := by
    rw [hsession, hcreator, hbirth]
    exact S.attached
  pending _ h := nomatch hreason.symm.trans h
  going h := absurd hstage h
  turn _ h := nomatch hreason.symm.trans h

theorem Edits.fades (E : Edits t t') : Fades t t' := by
  cases E <;> exact ⟨rfl, rfl, Or.inr rfl, id⟩

theorem Edits.sound (E : Edits t t') (S : t.Sound n) : t'.Sound n := by
  cases E with
  | decode tokens hstage => exact ⟨S.attached, S.pending, S.going, S.turn⟩
  | abort hstage => exact ⟨S.attached, fun _ _ => rfl, S.going, S.turn⟩
  | pop => exact ⟨S.attached, S.pending, fun h => absurd rfl h, S.turn⟩
  | compiled hstage => exact ⟨S.attached, S.pending, fun _ => S.going (by simp [hstage]), S.turn⟩

theorem Frees.fades (F : Frees t t') : Fades t t' := by
  cases F with
  | requeue => exact ⟨rfl, rfl, Or.inr rfl, id⟩
  | finish reason finishedLen toFinish => exact ⟨rfl, rfl, Or.inr rfl, fun _ h => nomatch h⟩

theorem Frees.sound (F : Frees t t') (S : t.Sound n) (hstage : t.stage = .running) :
    t'.Sound n := by
  cases F with
  | requeue => exact ⟨S.attached, S.pending, fun _ => S.going (by simp [hstage]), S.turn⟩
  | finish reason finishedLen toFinish => exact S.end rfl rfl rfl rfl rfl

namespace State

variable {s s' : State} {rid obj sid i : ℕ} {u : Ticket}

theorem setTicket_self (s : State) (rid : ℕ) (t : Ticket) :
    (s.setTicket rid t).ticket rid = some t := update_self ..

theorem setTicket_of_ne (s : State) (t : Ticket) (h : i ≠ rid) :
    (s.setTicket rid t).ticket i = s.ticket i := update_of_ne h ..

theorem setSession_self (s : State) (obj : ℕ) (S : Session) :
    (s.setSession obj S).session obj = S := update_self ..

theorem setSession_of_ne (s : State) (S : Session) (h : i ≠ obj) :
    (s.setSession obj S).session i = s.session i := update_of_ne h ..

theorem ticket_setTicket (h : (s.setTicket rid t').ticket i = some u) :
    i = rid ∧ u = t' ∨ i ≠ rid ∧ s.ticket i = some u := by
  by_cases hi : i = rid
  · subst hi
    rw [setTicket_self] at h
    exact Or.inl ⟨rfl, (Option.some.inj h).symm⟩
  · rw [setTicket_of_ne s t' hi] at h
    exact Or.inr ⟨hi, h⟩

theorem Holder.of_setTicket (ht : s.ticket rid = some t) (F : Fades t t')
    (h : (s.setTicket rid t').Holder i u obj) : ∃ v, s.Holder i v obj := by
  rcases ticket_setTicket h.1 with ⟨rfl, rfl⟩ | ⟨-, hu⟩
  · exact ⟨t, ht, F.holds h.2⟩
  · exact ⟨u, hu, h.2⟩

theorem guarded_init (rows : List ℕ) : (State.init rows).Guarded where
  fresh _ _ h := nomatch h
  sound _ _ h := nomatch h
  opened _ _ h := nomatch h
  holder _ _ _ h := nomatch h.1
  unique _ _ _ _ _ h := nomatch h.1
  last _ _ h := nomatch h

/-- The flag of a session is set if it is not idle. -/
theorem Guarded.not_holder (G : s.Guarded) (hidle : (s.session obj).inflight = false) (i : ℕ)
    (u : Ticket) : ¬ s.Holder i u obj := fun h =>
  nomatch hidle.symm.trans (G.holder i u obj h).2

/-- The other parts of the state do not matter. -/
theorem Guarded.congr (G : s.Guarded) (hticket : s'.ticket = s.ticket)
    (hnextReq : s'.nextReq = s.nextReq) (hsession : s'.session = s.session)
    (hnextSession : s'.nextSession = s.nextSession) (hsessions : s'.sessions = s.sessions) :
    s'.Guarded := by
  obtain ⟨fresh, sound, opened, holder, unique, last⟩ := G
  unfold Holder at holder unique
  rw [← hticket, ← hnextReq] at fresh
  rw [← hticket, ← hnextSession] at sound
  rw [← hsessions, ← hnextSession, ← hsession] at opened
  rw [← hticket, ← hsessions, ← hsession] at holder
  rw [← hticket] at unique
  rw [← hticket, ← hsession] at last
  exact ⟨fresh, sound, opened, holder, unique, last⟩

theorem Guarded.setTicket (G : s.Guarded) (ht : s.ticket rid = some t) (F : Fades t t')
    (S : t'.Sound s.nextSession) : (s.setTicket rid t').Guarded where
  fresh i u h := by
    rcases ticket_setTicket h with ⟨rfl, -⟩ | ⟨-, hu⟩
    · exact G.fresh i t ht
    · exact G.fresh i u hu
  sound i u h := by
    rcases ticket_setTicket h with ⟨-, rfl⟩ | ⟨-, hu⟩
    · exact S
    · exact G.sound i u hu
  opened := G.opened
  holder i u o h := by
    obtain ⟨v, hv⟩ := h.of_setTicket ht F
    exact G.holder i v o hv
  unique i j u v o hi hj := by
    obtain ⟨u', hu'⟩ := hi.of_setTicket ht F
    obtain ⟨v', hv'⟩ := hj.of_setTicket ht F
    exact G.unique i j u' v' o hu' hv'
  last o p hp := by
    obtain ⟨u, hu, hfinished, hcreator⟩ := G.last o p hp
    by_cases h : p = rid
    · subst h
      obtain rfl := Option.some.inj (ht.symm.trans hu)
      exact ⟨t', setTicket_self .., F.finished hfinished, F.creator.trans hcreator⟩
    · exact ⟨u, (setTicket_of_ne s t' h).trans hu, hfinished, hcreator⟩

/-- A change of one request, whatever happens to the arrays, the rows and the slots. -/
theorem Guarded.change (G : s.Guarded) (ht : s.ticket rid = some t)
    (hticket : s'.ticket = update s.ticket rid (some t'))
    (hrest : s'.nextReq = s.nextReq ∧ s'.session = s.session ∧ s'.nextSession = s.nextSession ∧
      s'.sessions = s.sessions) (F : Fades t t') (S : t'.Sound s.nextSession) : s'.Guarded :=
  (G.setTicket ht F S).congr hticket hrest.1 hrest.2.1 hrest.2.2.1 hrest.2.2.2

/-! ## Changes of a session -/

theorem sessionId_setSession {S : Session} {o : ℕ}
    (hid : S.sessionId = (s.session obj).sessionId) :
    ((s.setSession obj S).session o).sessionId = (s.session o).sessionId := by
  by_cases h : o = obj
  · subst h
    rw [setSession_self, hid]
  · rw [setSession_of_ne s S h]

/-- The flag may be cleared when there is no holder. -/
theorem Guarded.setSession (G : s.Guarded) (obj : ℕ) (S : Session)
    (hid : S.sessionId = (s.session obj).sessionId)
    (hflag : ∀ i t, s.Holder i t obj → S.inflight = true)
    (hlast : ∀ p, S.reqNode = some p → ∃ t, s.ticket p = some t ∧
      t.req.finishedReason ≠ none ∧ t.creator = some obj) :
    (s.setSession obj S).Guarded where
  fresh := G.fresh
  sound := G.sound
  opened sid o h := by
    rw [sessionId_setSession hid]
    exact G.opened sid o h
  holder i t o h := by
    rw [sessionId_setSession hid]
    refine ⟨(G.holder i t o h).1, ?_⟩
    by_cases ho : o = obj
    · subst ho
      rw [setSession_self]
      exact hflag i t h
    · rw [setSession_of_ne s S ho]
      exact (G.holder i t o h).2
  unique := G.unique
  last o p hp := by
    by_cases ho : o = obj
    · subst ho
      rw [setSession_self] at hp
      exact hlast p hp
    · rw [setSession_of_ne s S ho] at hp
      exact G.last o p hp

theorem Guarded.openSession (G : s.Guarded) (hclosed : s.sessions sid = none) : ({ s with
        session := update s.session s.nextSession ⟨sid, none, false, false, none⟩
        nextSession := s.nextSession + 1
        sessions := update s.sessions sid (some s.nextSession) } : State).Guarded where
  fresh := G.fresh
  sound i t h := by
    obtain ⟨hattached, hpending, hgoing, hturn⟩ := G.sound i t h
    refine ⟨fun o ho => ?_, hpending, hgoing, hturn⟩
    obtain ⟨hcreator, hlt, hplain⟩ := hattached o ho
    exact ⟨hcreator, Nat.lt_succ_of_lt hlt, hplain⟩
  opened sid' o h := by
    dsimp only at h ⊢
    by_cases hsid : sid' = sid
    · rw [hsid, update_self] at h
      obtain rfl := Option.some.inj h
      exact ⟨Nat.lt_succ_self _, by rw [update_self, hsid]⟩
    · rw [update_of_ne hsid] at h
      obtain ⟨hlt, hid⟩ := G.opened sid' o h
      exact ⟨Nat.lt_succ_of_lt hlt, by rw [update_of_ne (Nat.ne_of_lt hlt), hid]⟩
  holder i t o h := by
    have hlt := ((G.sound i t h.1).attached o h.2.attached).2.1
    obtain ⟨hopen, hflag⟩ := G.holder i t o h
    -- the holder's session is open, the new one was not
    have hsid : (s.session o).sessionId ≠ sid := by
      rintro rfl
      exact nomatch hclosed.symm.trans hopen
    dsimp only
    rw [update_of_ne (Nat.ne_of_lt hlt), update_of_ne hsid]
    exact ⟨hopen, hflag⟩
  unique := G.unique
  last o p hp := by
    dsimp only at hp
    by_cases ho : o = s.nextSession
    · rw [ho, update_self] at hp
      cases hp
    · rw [update_of_ne ho] at hp
      exact G.last o p hp

/-- A session without a holder may be given up. -/
theorem Guarded.drop (G : s.Guarded) (hopen : s.sessions sid = some obj)
    (hidle : (s.session obj).inflight = false) :
    ({ s with sessions := update s.sessions sid none } : State).Guarded where
  fresh := G.fresh
  sound := G.sound
  opened sid' o h := by
    dsimp only at h
    by_cases hsid : sid' = sid
    · rw [hsid, update_self] at h
      cases h
    · rw [update_of_ne hsid] at h
      exact G.opened sid' o h
  holder i t o h := by
    obtain ⟨hopen', hflag⟩ := G.holder i t o h
    have hsid : (s.session o).sessionId ≠ sid := by
      rintro rfl
      obtain rfl := Option.some.inj (hopen.symm.trans hopen')
      exact G.not_holder hidle i t h
    exact ⟨(update_of_ne hsid ..).trans hopen', hflag⟩
  unique := G.unique
  last := G.last

/-! ## New requests -/

theorem ticket_addTicket {made : Arrays ℤ × Req} {creator : Option ℕ} {birth : Birth}
    {verdict : Verdict} (h : (s.addTicket made creator birth verdict).ticket i = some u) :
    i = s.nextReq ∧ u = ⟨(verdict.apply made).2, creator, birth, verdict.stage⟩ ∨
      i ≠ s.nextReq ∧ s.ticket i = some u :=
  ticket_setTicket h

/-- A new request, which has the flag unless it was refused. -/
theorem Guarded.addTicket (G : s.Guarded) {made : Arrays ℤ × Req} {creator : Option ℕ}
    {birth : Birth} {verdict : Verdict}
    (S : Ticket.Sound ⟨(verdict.apply made).2, creator, birth, verdict.stage⟩ s.nextSession)
    (hholder : ∀ obj, Ticket.Holds ⟨(verdict.apply made).2, creator, birth, verdict.stage⟩ obj →
      s.sessions (s.session obj).sessionId = some obj ∧ (s.session obj).inflight = true ∧
        ∀ i u, ¬ s.Holder i u obj) : (s.addTicket made creator birth verdict).Guarded where
  fresh i u h := by
    rcases ticket_addTicket h with ⟨rfl, -⟩ | ⟨-, hu⟩
    · exact Nat.lt_succ_self _
    · exact Nat.lt_succ_of_lt (G.fresh i u hu)
  sound i u h := by
    rcases ticket_addTicket h with ⟨-, rfl⟩ | ⟨-, hu⟩
    · exact S
    · exact G.sound i u hu
  opened := G.opened
  holder i u o h := by
    rcases ticket_addTicket h.1 with ⟨-, rfl⟩ | ⟨-, hu⟩
    · exact ⟨(hholder o h.2).1, (hholder o h.2).2.1⟩
    · exact G.holder i u o ⟨hu, h.2⟩
  unique i j u v o hi hj := by
    rcases ticket_addTicket hi.1 with ⟨rfl, rfl⟩ | ⟨-, hu⟩
    · rcases ticket_addTicket hj.1 with ⟨rfl, -⟩ | ⟨-, hv⟩
      · rfl
      · exact absurd ⟨hv, hj.2⟩ ((hholder o hi.2).2.2 j v)
    · rcases ticket_addTicket hj.1 with ⟨rfl, rfl⟩ | ⟨-, hv⟩
      · exact absurd ⟨hu, hi.2⟩ ((hholder o hj.2).2.2 i u)
      · exact G.unique i j u v o ⟨hu, hi.2⟩ ⟨hv, hj.2⟩
  last o p hp := by
    obtain ⟨u, hu, hlast⟩ := G.last o p hp
    exact ⟨u, (update_of_ne (Nat.ne_of_lt (G.fresh p u hu)) ..).trans hu, hlast⟩

theorem sound_addTicket {r : Req} {b : Bool} (hr : Unstarted r (some obj) b) {birth : Birth}
    {stage : Stage} (hlt : obj < n) (hplain : birth ≠ .plain) (hb : birth = .refused → b = true) :
    Ticket.Sound ⟨r, some obj, birth, stage⟩ n where
  attached o ho := by
    obtain rfl := Option.some.inj (hr.session.symm.trans ho)
    exact ⟨rfl, hlt, hplain⟩
  pending hrefused _ := hr.toFinish.trans (hb hrefused)
  going _ := hr.unfinished
  turn _ _ h := nomatch hr.session.symm.trans h

theorem Guarded.refuse (G : s.Guarded) (hopen : s.sessions sid = some obj)
    {made : Arrays ℤ × Req} (hr : Unstarted made.2 (some obj) true) (verdict : Verdict) :
    (s.addTicket made (some obj) .refused verdict).Guarded := by
  refine G.addTicket (sound_addTicket (hr.apply verdict) (G.opened sid obj hopen).1 (by decide)
    fun _ => Bool.true_or _) fun o h => ?_
  exact absurd rfl h.taken

/-- A request that takes the flag. -/
theorem Guarded.begin (G : s.Guarded) (hopen : s.sessions sid = some obj)
    (hidle : (s.session obj).inflight = false) {made : Arrays ℤ × Req}
    (hr : Unstarted made.2 (some obj) false) (verdict : Verdict) :
    ((s.setSession obj { s.session obj with inflight := true }).addTicket made (some obj)
      .accepted verdict).Guarded := by
  obtain ⟨hlt, hid⟩ := G.opened sid obj hopen
  have hr' := hr.apply verdict
  refine (G.setSession obj { s.session obj with inflight := true } rfl (fun _ _ _ => rfl)
    (G.last obj)).addTicket (sound_addTicket hr' hlt (by decide) (fun h => nomatch h))
    fun o h => ?_
  obtain rfl := Option.some.inj (hr'.session.symm.trans h.attached)
  rw [setSession_self]
  exact ⟨(congrArg s.sessions hid).trans hopen, rfl, G.not_holder hidle⟩

theorem Guarded.submit (G : s.Guarded) (q : ReqInput) (verdict : Verdict) :
    (s.submit q verdict).Guarded := by
  have hr := (unstarted_newReq none q.maxNewTokens (firstTokenArrays q.inputIds s.arrays).1
    (firstTokenArrays q.inputIds s.arrays).2).apply verdict
  refine G.addTicket ⟨fun o ho => ?_, (fun h => nomatch h), fun _ => hr.unfinished,
    (fun h => nomatch h)⟩ fun o h => ?_
  · exact nomatch hr.session.symm.trans ho
  · exact nomatch hr.session.symm.trans h.attached

/-! ## The end of a turn -/

/-- The last request of a session has finished. -/
theorem Guarded.without_eq (G : s.Guarded) (obj : ℕ) :
    State.without s.ticket (s.session obj) = s.ticket ∨
      ∃ p t, s.ticket p = some t ∧ t.req.finishedReason ≠ none ∧
        State.without s.ticket (s.session obj) = update s.ticket p (some t.detach) := by
  cases hp : (s.session obj).reqNode with
  | none => exact Or.inl (funext fun i => by simp [State.without, hp])
  | some p =>
    obtain ⟨t, ht, hfinished, -⟩ := G.last obj p hp
    refine Or.inr ⟨p, t, ht, hfinished, funext fun i => ?_⟩
    by_cases hi : i = p
    · subst hi
      rw [State.without, if_pos hp, ht, update_self]
      rfl
    · have hne : (s.session obj).reqNode ≠ some i := by
        rw [hp]
        exact fun h => hi (Option.some.inj h).symm
      rw [State.without, if_neg hne, update_of_ne hi]

theorem Guarded.without (G : s.Guarded) (obj : ℕ) :
    ({ s with ticket := State.without s.ticket (s.session obj) } : State).Guarded := by
  rcases G.without_eq obj with heq | ⟨p, t, ht, hfinished, heq⟩
  · rwa [heq]
  · obtain ⟨-, hpending, hgoing, -⟩ := G.sound p t ht
    rw [heq]
    exact G.setTicket ht ⟨rfl, rfl, Or.inl rfl, id⟩
      ⟨(fun _ h => nomatch h), hpending, hgoing, fun _ h => absurd h hfinished⟩

theorem Holder.of_without {S : Session} {o : ℕ}
    (h : ({ s with ticket := State.without s.ticket S } : State).Holder i u o) :
    s.Holder i u o := by
  obtain ⟨hu, hholds⟩ := h
  simp only [State.without] at hu
  split at hu
  · obtain ⟨v, -, rfl⟩ := Option.map_eq_some_iff.mp hu
    exact absurd hholds.attached.symm (Option.some_ne_none o)
  · exact ⟨hu, hholds⟩

/-- The turn that held the flag is over, or there was none. -/
theorem Guarded.leave (G : s.Guarded) (ht : s.ticket rid = some t)
    (hticket : s'.ticket = update s.ticket rid (some t'))
    (hsession : s'.session = update s.session obj (s.session obj).abortReq)
    (hrest : s'.nextReq = s.nextReq ∧ s'.nextSession = s.nextSession ∧ s'.sessions = s.sessions)
    (hidle : ∀ i u, s.Holder i u obj → i = rid) (F : Fades t t') (S : t'.Sound s.nextSession)
    (hleft : ¬ t'.Holds obj) : s'.Guarded := by
  have G' := G.setTicket ht F S
  refine (G'.setSession obj (s.session obj).abortReq rfl (fun i u h => ?_) (G'.last obj)).congr
    hticket hrest.1 hsession hrest.2.1 hrest.2.2
  rcases ticket_setTicket h.1 with ⟨-, rfl⟩ | ⟨hne, hu⟩
  · exact absurd h.2 hleft
  · exact absurd (hidle i u ⟨hu, h.2⟩) hne

/-- A turn ends. -/
theorem Guarded.finishTurn (G : s.Guarded) (ht : s.ticket rid = some t) {row : ℕ}
    (F : Fades t t') (S : t'.Sound s.nextSession) (hfinished : t'.req.finishedReason ≠ none)
    (hholds : t.Holds obj) : (s.finishTurn rid obj row t').Guarded := by
  have F' : Fades t t'.leaveRow := ⟨F.creator, F.birth, F.session, F.finished⟩
  have S' : t'.leaveRow.Sound s.nextSession := ⟨S.attached, S.pending, S.going, S.turn⟩
  have hcreator : t'.creator = some obj :=
    F.creator.trans ((G.sound rid t ht).attached obj hholds.attached).1
  have hno : ∀ i u, ¬ (s.setTicket rid t'.leaveRow).Holder i u obj := by
    intro i u h
    rcases ticket_setTicket h.1 with ⟨-, rfl⟩ | ⟨hne, hu⟩
    · exact hfinished h.2.unfinished
    · exact hne (G.unique i rid u t obj ⟨hu, h.2⟩ ⟨ht, hholds⟩)
  refine ((G.setTicket ht F' S').without obj |>.setSession obj
    ((s.session obj).finishReq rid t'.leaveRow.req s.arrays) rfl ?_ ?_).congr rfl rfl rfl
    rfl rfl
  · exact fun i u h => absurd h.of_without (hno i u)
  · rintro p ⟨⟩
    by_cases hlast : (s.session obj).reqNode = some rid
    · exact ⟨t'.leaveRow.detach, by simp [State.without, State.setTicket, hlast], hfinished,
        hcreator⟩
    · exact ⟨t'.leaveRow, by simp [State.without, State.setTicket, hlast], hfinished, hcreator⟩

/-! ## One event -/

/-- What a move keeps. -/
theorem Guarded.move (G : s.Guarded) {bos : Option ℤ} {e : Event} (hok : s.Undisturbed e)
    (h : Move bos s e s') : s'.Guarded := by
  cases h with
  | openSession hclosed => exact G.openSession hclosed
  | @refuse sid obj q verdict hopen hrefuses =>
    have hr := unstarted_createReq (s.session obj) obj bos (s.lastReq (s.session obj)) q s.arrays
    rw [hrefuses] at hr
    exact G.refuse hopen hr verdict
  | @accept sid obj q verdict hopen hrefuses =>
    have hr := unstarted_createReq (s.session obj) obj bos (s.lastReq (s.session obj)) q s.arrays
    rw [hrefuses] at hr
    exact G.begin hopen (inflight_of_not_refuses hrefuses) hr verdict
  | submit q verdict => exact G.submit q verdict
  | @fail rid t stage _ ht hstage hstays =>
    have S := G.sound rid t ht
    exact G.change ht rfl ⟨rfl, rfl, rfl, rfl⟩ ⟨rfl, rfl, Or.inr rfl, id⟩
      ⟨S.attached, fun _ _ => rfl, fun _ => S.going (by simp [hstage]), S.turn⟩
  | @enter rid t _ stage _ row _ ht hstage hheld henters =>
    obtain ⟨f, hf⟩ := refreshFillIds_eq t.req s.arrays
    have S := G.sound rid t ht
    rw [hf]
    exact G.change ht rfl ⟨rfl, rfl, rfl, rfl⟩ ⟨rfl, rfl, Or.inr rfl, id⟩
      ⟨S.attached, S.pending, fun _ => S.going (by simp [hstage]), S.turn⟩
  | @leave rid obj slot t _ stage row _ ht hstage hsession hslot hto henters =>
    obtain ⟨f, hf⟩ := refreshFillIds_eq t.req s.arrays
    have S := G.sound rid t ht
    have hno := G.not_holder (hok t obj ht hto hsession (by simp [hslot]) obj rfl)
    rw [hf]
    refine G.leave ht rfl rfl ⟨rfl, rfl, rfl⟩ (fun i u h => absurd h (hno i u))
      ⟨rfl, rfl, Or.inl rfl, id⟩ ⟨(fun _ h => nomatch h), S.pending,
        fun _ => S.going (by simp [hstage]), fun haccepted hunfinished => ?_⟩
      fun h => nomatch h.attached
    -- an accepted request would have the flag
    refine absurd ⟨ht, hsession, ?_, hunfinished⟩ (hno rid t)
    rw [show t.birth = .accepted from haccepted]
    decide
  | edit ht E =>
    exact G.change ht rfl ⟨rfl, rfl, rfl, rfl⟩ E.fades (E.sound (G.sound _ _ ht))
  | free ht hstage hrow hsession F =>
    exact G.change ht rfl ⟨rfl, rfl, rfl, rfl⟩ F.fades (F.sound (G.sound _ _ ht) hstage)
  | retract ht hstage hrow hsession => exact nomatch hsession.symm.trans (hok _ ht)
  | @finish rid obj row t l ht hstage hto hrow hsession =>
    have S := G.sound rid t ht
    exact G.finishTurn ht ⟨rfl, rfl, Or.inr rfl, fun _ h => nomatch h⟩
      (S.end rfl rfl rfl rfl rfl) (fun h => nomatch h)
      (S.holds_of_going hsession hto (by simp [hstage]))
  | @finishAbort rid obj row t ht hstage hto hrow hsession =>
    have S := G.sound rid t ht
    refine G.leave ht rfl rfl ⟨rfl, rfl, rfl⟩ (fun i u h => ?_)
      ⟨rfl, rfl, Or.inr rfl, fun _ h => nomatch h⟩ (S.end rfl rfl rfl rfl rfl)
      fun h => nomatch h.unfinished
    by_cases hrefused : t.birth = .refused
    · exact absurd h (G.not_holder (hok t obj ht hrefused hsession obj rfl) i u)
    · exact G.unique i rid u t obj h ⟨ht, hsession, hrefused, S.going (by simp [hstage])⟩
  | mark hopen he => exact G.setSession _ _ rfl (fun i t h => (G.holder i t _ h).2) (G.last _)
  | @drop sid obj _ b hopen hidle he =>
    have G₁ := (G.without obj).drop hopen hidle
    have G₂ := G₁.setSession obj { s.session obj with closeOnFinish := b } rfl
      (fun i t h => (G₁.holder i t _ h).2) (G₁.last _)
    exact G₂.congr rfl rfl rfl rfl rfl

theorem Guarded.going (G : s.Guarded) (i : ℕ) (t : Ticket) (ht : s.ticket i = some t) :
    t.stage ≠ .gone → t.req.finishedReason = none := (G.sound i t ht).going

theorem Guarded.step (G : s.Guarded) {bos : Option ℤ} {e : Event} (hok : s.Undisturbed e)
    (h : Streaming.step bos s e = some s') : s'.Guarded :=
  G.move hok (step_move G.going h)

end State

end Sglang.Streaming
