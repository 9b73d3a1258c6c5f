import Sglang.Streaming.Rows

/-!
# Who shares a token array

A request takes over arrays only from the last request of its own session object; every other
array it uses is new. With one live request for each session no two live requests share an array.
-/

namespace Sglang.Streaming

open Sglang.Support List

/-- The arrays that `r` got are new or those of `last`. -/
structure Takes (A A' : Arrays ℤ) (last : Option Req) (refs : List Ref) : Prop where
  grows : A.next ≤ A'.next
  refs : ∀ a ∈ refs, A.next ≤ a ∧ a < A'.next ∨ ∃ l, last = some l ∧ a ∈ l.refs

/-! ## The arrays of a new request -/

def TokenArrays.refs (t : TokenArrays) : List Ref :=
  t.inputIds :: t.inputIdsUnpadded :: t.carryFill.toList

variable {A A' : Arrays ℤ} {last : Option Req}

theorem carryFill_next (l : Req) (n : ℕ) (ids : List ℤ) (A : Arrays ℤ) :
    (carryFill l n ids A).1.next = A.next := by
  unfold carryFill
  dsimp only
  split
  · rfl
  · split <;> rfl

theorem carryFill_ref {l : Req} {n : ℕ} {ids : List ℤ} {a : Ref}
    (h : a ∈ (carryFill l n ids A).2) : a = l.fullUntruncatedFillIds := by
  unfold carryFill at h
  dsimp only at h
  split at h
  · cases h
  · split at h
    · exact (Option.some.inj h).symm
    · cases h

theorem takes_shareTokenArrays (c : Committed) (l : Req) (ids : List ℤ) (A : Arrays ℤ) :
    Takes A (shareTokenArrays c l ids A).1 (some l) (shareTokenArrays c l ids A).2.refs where
  grows := by
    unfold shareTokenArrays
    dsimp only
    split_ifs <;> simp [carryFill_next]
  refs a ha := by
    refine Or.inr ⟨l, rfl, ?_⟩
    unfold shareTokenArrays at ha
    simp only [TokenArrays.refs, mem_cons, Option.mem_toList] at ha
    unfold Req.refs
    rcases ha with rfl | rfl | ha
    · exact mem_cons_self
    · exact mem_cons_of_mem _ mem_cons_self
    · rw [carryFill_ref ha]
      simp

theorem Takes.nil (A : Arrays ℤ) (last : Option Req) : Takes A A last [] :=
  ⟨Nat.le_refl _, fun _ h => nomatch h⟩

/-- Further arrays may be added. -/
theorem Takes.add {A'' : Arrays ℤ} {refs refs' : List Ref} (h : Takes A A' last refs)
    (hle : A'.next ≤ A''.next)
    (hrefs : ∀ a ∈ refs', a ∈ refs ∨ A'.next ≤ a ∧ a < A''.next) : Takes A A'' last refs' where
  grows := Nat.le_trans h.grows hle
  refs a ha := by
    rcases hrefs a ha with hin | ⟨hnew, hlt⟩
    · exact (h.refs a hin).imp_left fun hold => ⟨hold.1, Nat.lt_of_lt_of_le hold.2 hle⟩
    · exact Or.inl ⟨Nat.le_trans h.grows hnew, hlt⟩

theorem takes_concatTokenArrays (l : Req) (ids : List ℤ) (A : Arrays ℤ) (last : Option Req) :
    Takes A (concatTokenArrays l ids A).1 last (concatTokenArrays l ids A).2.refs := by
  refine (Takes.nil A last).add (Nat.le_add_right A.next 2) fun a ha => Or.inr ?_
  simp only [concatTokenArrays, TokenArrays.refs, Arrays.next_new] at ha ⊢
  grind

theorem takes_firstTokenArrays (ids : List ℤ) (A : Arrays ℤ) (last : Option Req) :
    Takes A (firstTokenArrays ids A).1 last (firstTokenArrays ids A).2.refs := by
  refine (Takes.nil A last).add (Nat.le_succ A.next) fun a ha => Or.inr ?_
  simp only [firstTokenArrays, TokenArrays.refs, Arrays.next_new] at ha ⊢
  grind

theorem takes_tokenArrays (S : Session) (bos : Option ℤ) (last : Option Req) (q : ReqInput)
    (A : Arrays ℤ) :
    Takes A (S.tokenArrays bos last q A).1 last (S.tokenArrays bos last q A).2.refs := by
  unfold Session.tokenArrays
  split
  · dsimp only
    split
    · exact takes_shareTokenArrays ..
    · exact takes_concatTokenArrays ..
  · exact takes_firstTokenArrays ..

/-- The constructor of `Req` may add a new fill array. -/
theorem Takes.newReq {t : TokenArrays} (h : Takes A A' last t.refs) (session : Option ℕ) (m : ℕ) :
    Takes A (newReq session m A' t).1 last (newReq session m A' t).2.refs := by
  unfold Streaming.newReq
  cases hc : t.carryFill with
  | some fill =>
    refine h.add (Nat.le_refl _) fun a ha => Or.inl ?_
    simp only [Req.refs, TokenArrays.refs, hc] at ha ⊢
    grind
  | none =>
    refine h.add (Nat.le_succ _) fun a ha => ?_
    simp only [Req.refs, TokenArrays.refs, hc, Arrays.next_new] at ha ⊢
    grind

theorem Takes.setFinishWithAbort {r : Req} (h : Takes A A' last r.refs) :
    Takes A (r.setFinishWithAbort A').1 last (r.setFinishWithAbort A').2.refs := by
  refine h.add (Nat.le_succ _) fun a ha => ?_
  simp only [Req.setFinishWithAbort, Req.refs, Arrays.next_new] at ha ⊢
  grind

theorem takes_createReq (S : Session) (obj : ℕ) (bos : Option ℤ) (last : Option Req)
    (q : ReqInput) (A : Arrays ℤ) :
    Takes A (S.createReq obj bos last q A).1 last (S.createReq obj bos last q A).2.1.refs := by
  have h := (takes_tokenArrays S bos last q A).newReq (some obj) q.maxNewTokens
  unfold Session.createReq
  dsimp only
  split
  · exact h.setFinishWithAbort
  · exact h

theorem Takes.apply {made : Arrays ℤ × Req} (h : Takes A made.1 last made.2.refs) (v : Verdict) :
    Takes A (v.apply made).1 last (v.apply made).2.refs := by
  cases v with
  | invalid => exact h.setFinishWithAbort
  | queued => exact h
  | compiling => exact h

/-! ## The arrays of all requests -/

namespace State

variable {s s' : State} {rid obj sid row : ℕ} {t : Ticket}

/-- Requests that share an array come from one session object. -/
structure Apart (s : State) : Prop where
  known : ∀ i t a, s.ticket i = some t → a ∈ t.req.refs → a < s.arrays.next
  apart : ∀ i j t u a, s.ticket i = some t → s.ticket j = some u → a ∈ t.req.refs →
    a ∈ u.req.refs → i = j ∨ t.creator = u.creator

/-- Every request keeps its creator and its arrays; the request `rid` may have got a new one. -/
structure Keeps (rid : ℕ) (s s' : State) : Prop where
  next : s.arrays.next ≤ s'.arrays.next
  ticket : ∀ i u, s'.ticket i = some u → ∃ v, s.ticket i = some v ∧ v.creator = u.creator ∧
    ∀ a ∈ u.req.refs, a ∈ v.req.refs ∨ i = rid ∧ a = s.arrays.next ∧ a < s'.arrays.next

theorem Apart.keep (P : s.Apart) (rid : ℕ) (K : Keeps rid s s') : s'.Apart where
  known i u a hu ha := by
    obtain ⟨v, hv, -, hrefs⟩ := K.ticket i u hu
    rcases hrefs a ha with hin | ⟨-, -, hlt⟩
    · exact Nat.lt_of_lt_of_le (P.known i v a hv hin) K.next
    · exact hlt
  apart i j t u a ht hu ha hb := by
    obtain ⟨v, hv, hcreator, hrefs⟩ := K.ticket i t ht
    obtain ⟨w, hw, hcreator', hrefs'⟩ := K.ticket j u hu
    rw [← hcreator, ← hcreator']
    rcases hrefs a ha with hin | ⟨rfl, rfl, -⟩
    · rcases hrefs' a hb with hin' | ⟨-, rfl, -⟩
      · exact P.apart i j v w a hv hw hin hin'
      · exact absurd (P.known i v _ hv hin) (Nat.lt_irrefl _)
    · rcases hrefs' _ hb with hin' | ⟨rfl, -, -⟩
      · exact absurd (P.known j w _ hw hin') (Nat.lt_irrefl _)
      · exact Or.inl rfl

theorem Keeps.of_eq (hticket : s'.ticket = s.ticket) (harrays : s'.arrays = s.arrays) :
    Keeps rid s s' where
  next := by rw [harrays]
  ticket i u hu := ⟨u, hticket ▸ hu, rfl, fun _ h => Or.inl h⟩

theorem Keeps.change {s' : State} (ht : s.ticket rid = some t) {t' : Ticket}
    (hticket : s'.ticket = Function.update s.ticket rid (some t')) (harrays : s'.arrays = s.arrays)
    (hrefs : t'.req.refs = t.req.refs) (hcreator : t'.creator = t.creator) : Keeps rid s s' where
  next := by rw [harrays]
  ticket i u hu := by
    rw [hticket, Function.update_apply] at hu
    grind

theorem Keeps.setTicket (ht : s.ticket rid = some t) (t' : Ticket)
    (hrefs : t'.req.refs = t.req.refs) (hcreator : t'.creator = t.creator) :
    Keeps rid s (s.setTicket rid t') :=
  Keeps.change ht rfl rfl hrefs hcreator

theorem Keeps.without {s₁ : State} (K : Keeps rid s s₁) {S : Session}
    (hticket : s'.ticket = State.without s₁.ticket S) (harrays : s'.arrays = s₁.arrays) :
    Keeps rid s s' where
  next := harrays ▸ K.next
  ticket i u hu := by
    rw [harrays]
    rw [hticket, State.without] at hu
    split at hu
    · obtain ⟨v, hv, rfl⟩ := Option.map_eq_some_iff.mp hu
      exact K.ticket i v hv
    · exact K.ticket i u hu

/-- A new request of the session object `obj`, or of none. -/
theorem Apart.addTicket (P : s.Apart) {made : Arrays ℤ × Req} {creator : Option ℕ}
    {birth : Birth} {verdict : Verdict} {last : Option Req}
    (hmade : Takes s.arrays made.1 last made.2.refs)
    (hlast : ∀ l, last = some l →
      ∃ p v, s.ticket p = some v ∧ v.req.refs = l.refs ∧ v.creator = creator) :
    (s.addTicket made creator birth verdict).Apart := by
  have T := hmade.apply verdict
  -- the arrays that are not new are those of the request it appends to
  have hshared : ∀ i u a, s.ticket i = some u → a ∈ u.req.refs →
      a ∈ (verdict.apply made).2.refs → u.creator = creator := by
    intro i u a hu ha hb
    rcases T.refs a hb with ⟨hnew, -⟩ | ⟨l, hl, hal⟩
    · exact absurd (P.known i u a hu ha) (Nat.not_lt_of_le hnew)
    · obtain ⟨p, v, hv, hrefs, rfl⟩ := hlast l hl
      rcases P.apart i p u v a hu hv ha (hrefs ▸ hal) with rfl | hcreator
      · rw [Option.some.inj (hu.symm.trans hv)]
      · exact hcreator
  constructor
  · intro i u a h ha
    rcases ticket_addTicket h with ⟨-, rfl⟩ | ⟨-, hu⟩
    · rcases T.refs a ha with ⟨-, hlt⟩ | ⟨l, hl, hal⟩
      · exact hlt
      · obtain ⟨p, v, hv, hrefs, -⟩ := hlast l hl
        exact Nat.lt_of_lt_of_le (P.known p v a hv (hrefs ▸ hal)) T.grows
    · exact Nat.lt_of_lt_of_le (P.known i u a hu ha) T.grows
  · intro i j t u a h h' ha hb
    rcases ticket_addTicket h with ⟨rfl, rfl⟩ | ⟨-, ht⟩
    · rcases ticket_addTicket h' with ⟨rfl, -⟩ | ⟨-, hu⟩
      · exact Or.inl rfl
      · exact Or.inr (hshared j u a hu hb ha).symm
    · rcases ticket_addTicket h' with ⟨rfl, rfl⟩ | ⟨-, hu⟩
      · exact Or.inr (hshared i t a ht ha hb)
      · exact P.apart i j t u a ht hu ha hb

theorem Keeps.renew (ht : s.ticket rid = some t) {t' : Ticket}
    (hticket : s'.ticket = Function.update s.ticket rid (some t'))
    (hcreator : t'.creator = t.creator) (hnext : s.arrays.next ≤ s'.arrays.next)
    (hrefs : ∀ a ∈ t'.req.refs, a ∈ t.req.refs ∨ a = s.arrays.next ∧ a < s'.arrays.next) :
    Keeps rid s s' := by
  refine ⟨hnext, fun i u hu => ?_⟩
  rw [hticket] at hu
  rcases ticket_setTicket hu with ⟨rfl, rfl⟩ | ⟨-, hu⟩
  · exact ⟨t, ht, hcreator.symm, fun a ha => (hrefs a ha).imp_right fun h => ⟨rfl, h⟩⟩
  · exact ⟨u, hu, rfl, fun a ha => Or.inl ha⟩

/-- A scheduling attempt may give the request a new fill array. -/
theorem keeps_refresh (ht : s.ticket rid = some t) {t' : Ticket}
    (hticket : s'.ticket = Function.update s.ticket rid (some t'))
    (harrays : s'.arrays = (t.req.refreshFillIds s.arrays).1) (hcreator : t'.creator = t.creator)
    (hrefs : t'.req.refs = (t.req.refreshFillIds s.arrays).2.refs) : Keeps rid s s' := by
  have hnew : s.arrays.next ≤ s'.arrays.next ∧
      ∀ a ∈ t'.req.refs, a ∈ t.req.refs ∨ a = s.arrays.next ∧ a < s'.arrays.next := by
    rw [hrefs, harrays]
    unfold Req.refreshFillIds
    dsimp only
    split
    · exact ⟨le_rfl, fun a ha => Or.inl ha⟩
    · refine ⟨Nat.le_succ _, fun a ha => ?_⟩
      simp only [Req.refs, Arrays.new] at ha ⊢
      grind
  exact Keeps.renew ht hticket hcreator hnew.1 hnew.2

/-- A request whose grammar fails gets a new array of input tokens. -/
theorem keeps_fail (ht : s.ticket rid = some t) (stage : Stage) :
    Keeps rid s (s.failGrammar rid t stage) := by
  refine Keeps.renew ht rfl rfl (Nat.le_succ _) fun a ha => ?_
  simp only [Req.refs, Req.setFinishWithAbort, List.mem_cons] at ha ⊢
  rcases ha with rfl | ha
  · exact Or.inr ⟨rfl, Nat.lt_succ_self _⟩
  · exact Or.inl (Or.inr ha)

theorem Guarded.lastReq_eq (G : s.Guarded) {l : Req} (hl : s.lastReq (s.session obj) = some l) :
    ∃ p v, s.ticket p = some v ∧ v.req.refs = l.refs ∧ v.creator = some obj := by
  obtain ⟨v, hv, rfl⟩ := Option.map_eq_some_iff.mp hl
  obtain ⟨p, hp, hv⟩ := Option.bind_eq_some_iff.mp hv
  obtain ⟨w, hw, -, hcreator⟩ := G.last obj p hp
  obtain rfl := Option.some.inj (hw.symm.trans hv)
  exact ⟨p, w, hw, rfl, hcreator⟩

theorem apart_init (rows : List ℕ) : (State.init rows).Apart where
  known _ _ _ h := nomatch h
  apart _ _ _ _ _ h := nomatch h

/-- What a move keeps. -/
theorem Apart.move (P : s.Apart) (G : s.Guarded) {bos : Option ℤ} {e : Event}
    (h : Move bos s e s') : s'.Apart := by
  cases h with
  | openSession => exact P.keep 0 (Keeps.of_eq rfl rfl)
  | @refuse sid obj q =>
    have hmade := takes_createReq (s.session obj) obj bos (s.lastReq (s.session obj)) q s.arrays
    exact P.addTicket hmade fun _ => G.lastReq_eq
  | @accept sid obj q =>
    have hmade := takes_createReq (s.session obj) obj bos (s.lastReq (s.session obj)) q s.arrays
    exact (P.addTicket hmade fun _ => G.lastReq_eq).keep 0 (Keeps.of_eq rfl rfl)
  | submit q verdict =>
    exact P.addTicket ((takes_firstTokenArrays q.inputIds s.arrays none).newReq none
      q.maxNewTokens) fun l hl => nomatch hl
  | @fail rid t stage _ ht => exact P.keep rid (keeps_fail ht stage)
  | enter ht => exact P.keep _ (keeps_refresh ht rfl rfl rfl rfl)
  | leave ht => exact P.keep _ (keeps_refresh ht rfl rfl rfl rfl)
  | edit ht E => cases E <;> exact P.keep _ (Keeps.change ht rfl rfl rfl rfl)
  | free ht _ _ _ F => cases F <;> exact P.keep _ (Keeps.change ht rfl rfl rfl rfl)
  | @retract rid obj row t ht =>
    have K : Keeps rid s (s.finishTurn rid obj row t) :=
      (Keeps.setTicket ht t.leaveRow rfl rfl).without rfl rfl
    unfold State.requeue
    split
    · rename_i u hu
      exact (P.keep _ K).keep _ (Keeps.change hu rfl rfl rfl rfl)
    · exact P.keep _ K
  | @finish rid obj row t l ht =>
    have K := Keeps.setTicket ht (Ticket.leaveRow { t with
      stage := .gone
      req := { t.req with finishedReason := some .done, finishedLen := l } }) rfl rfl
    exact P.keep _ (K.without rfl rfl)
  | finishAbort ht => exact P.keep _ (Keeps.change ht rfl rfl rfl rfl)
  | mark => exact P.keep 0 (Keeps.of_eq rfl rfl)
  | drop => exact P.keep 0 ((Keeps.of_eq rfl rfl).without rfl rfl)

/-! ## Exclusion -/

theorem Guarded.turn_unique (G : s.Guarded) {i j : ℕ} {t u : Ticket} (hi : s.Live i t)
    (hj : s.Live j u) (h : t.creator = u.creator) : i = j := by
  obtain ⟨o, ho, hc⟩ := (G.sound i t hi.ticket).holds_of_accepted hi.accepted hi.unfinished
  obtain ⟨o', ho', hc'⟩ := (G.sound j u hj.ticket).holds_of_accepted hj.accepted hj.unfinished
  obtain rfl : o = o' := by
    rw [hc, hc'] at h
    exact Option.some.inj h
  exact G.unique i j t u o ⟨hi.ticket, ho⟩ ⟨hj.ticket, ho'⟩

theorem exclusive (G : s.Guarded) (R : s.Rows) (P : s.Apart) : s.Exclusive where
  turn _ _ _ _ hi hj h := G.turn_unique hi hj h
  row _ row i j t u _ hi hj _ _ hr hr' := R.row_inj i j row ⟨t, hi, hr⟩ ⟨u, hj, hr'⟩
  arrays i j t u a hi hj ha hb := by
    rcases P.apart i j t u a hi.ticket hj.ticket ha hb with h | h
    · exact h
    · exact G.turn_unique hi hj h

end State

/-- A server whose rows are distinct. -/
def Start (s : State) : Prop := ∃ rows : List ℕ, rows.Nodup ∧ s = State.init rows

/-- As long as no turn is retracted, and nobody else clears the flag during a turn, a session has
one live request. -/
theorem exclusive_of_undisturbed (bos : Option ℤ) (s : State)
    (h : Reachable Start State.Undisturbed (step bos) s) : s.Exclusive := by
  have hI : s.Guarded ∧ s.Rows ∧ s.Apart := by
    refine Reachable.invariant (I := fun s => s.Guarded ∧ s.Rows ∧ s.Apart) ?_ ?_ h
    · rintro _ ⟨rows, hrows, rfl⟩
      exact ⟨State.guarded_init rows, State.rows_init hrows, State.apart_init rows⟩
    · rintro s s' e ⟨G, R, P⟩ hok hrun
      exact ⟨G.step hok hrun, R.step G hok hrun, P.move G (step_move G.going hrun)⟩
  exact State.exclusive hI.1 hI.2.1 hI.2.2

/-- A turn; a request that comes during the turn, is refused, and is scheduled after it; and a
second turn, whose grammar is compiled first. -/
def twoTurns : List Event :=
  [.openSession 0, .create 0 ⟨[1], 8, false, false, none⟩ .queued,
    .create 0 ⟨[2], 8, false, false, none⟩ .queued, .attempt 0 true, .decode 0 [3], .finish 0 none,
    .attempt 1 true, .create 0 ⟨[4], 8, false, false, none⟩ .compiling, .compiled 2 true,
    .attempt 2 true]

theorem permitted_twoTurns :
    Reachable.Permitted State.Undisturbed (step none) (State.init [0, 1]) twoTurns := by
  have hgoing : ∀ {s : State} {rid : ℕ} {t : Ticket}, s.ticket rid = some t →
      (s.ticket rid).map (·.req.toFinish) = some false → t.req.toFinish ≠ true := by
    intro s rid t ht hto
    rw [ht, Option.map_some, Option.some.injEq] at hto
    rw [hto]
    decide
  refine ⟨trivial, trivial, trivial, ?_, trivial, trivial, ?_, trivial, trivial, ?_, trivial⟩
  · exact fun t obj ht hto => absurd hto (hgoing ht rfl)
  · rintro t obj - - - - (_ | o) -
    · rfl
    · rfl
  · exact fun t obj ht hto => absurd hto (hgoing ht rfl)

theorem exclusive_twoTurns :
    ∃ s, Reachable.runAll (step none) (State.init [0, 1]) twoTurns = some s ∧ s.Exclusive :=
  ⟨_, rfl, exclusive_of_undisturbed none _ (Reachable.of_permitted twoTurns permitted_twoTurns
    (.start ⟨[0, 1], by decide, rfl⟩) rfl)⟩

/-- A turn that is retracted, and a request that comes before it is scheduled again. -/
def retractedTurn : List Event :=
  [.openSession 0, .create 0 ⟨[1], 8, false, false, none⟩ .queued, .attempt 0 true, .retract 0,
    .create 0 ⟨[2], 8, false, false, none⟩ .queued, .attempt 0 true, .attempt 1 true]

/-- A second turn that is to be aborted since its grammar fails, and a request that comes while it
runs. -/
def failedTurn : List Event :=
  [.openSession 0, .create 0 ⟨[1], 8, false, false, none⟩ .queued, .attempt 0 true, .finish 0 none,
    .create 0 ⟨[2], 8, false, false, none⟩ .compiling, .compiled 1 false, .attempt 1 true,
    .create 0 ⟨[3], 8, false, false, none⟩ .queued]

/-- Both requests are live and in the row of the slot; and a live turn does not keep the next
request out. -/
theorem not_exclusive_retractedTurn :
    (∃ s, Reachable.runAll (step none) (State.init [0]) retractedTurn = some s ∧
      (∃ t u, s.Live 0 t ∧ s.Live 1 u ∧ t.req.reqPoolIdx = s.slots 0 ∧
        u.req.reqPoolIdx = s.slots 0) ∧ ¬ s.Exclusive) ∧
    ∃ s, Reachable.runAll (step none) (State.init [0, 1]) failedTurn = some s ∧
      (∃ t u, s.Live 1 t ∧ s.Live 2 u ∧ t.creator = u.creator) ∧ ¬ s.Exclusive := by
  constructor
  · refine ⟨_, rfl, ⟨_, _, ⟨rfl, rfl, rfl⟩, ⟨rfl, rfl, rfl⟩, rfl, rfl⟩, fun h => ?_⟩
    exact absurd (h.turn 0 1 _ _ ⟨rfl, rfl, rfl⟩ ⟨rfl, rfl, rfl⟩ rfl) (by decide)
  · refine ⟨_, rfl, ⟨_, _, ⟨rfl, rfl, rfl⟩, ⟨rfl, rfl, rfl⟩, rfl⟩, fun h => ?_⟩
    exact absurd (h.turn 1 2 _ _ ⟨rfl, rfl, rfl⟩ ⟨rfl, rfl, rfl⟩ rfl) (by decide)

/-- No row of `req_to_token` has two uses, and only the turn of a session has the row of its
slot. -/
theorem rows_of_undisturbed (bos : Option ℤ) (s : State)
    (h : Reachable Start State.Undisturbed (step bos) s) : s.Rows := by
  have hI : s.Guarded ∧ s.Rows := by
    refine Reachable.invariant (I := fun s => s.Guarded ∧ s.Rows) ?_ ?_ h
    · rintro _ ⟨rows, hrows, rfl⟩
      exact ⟨State.guarded_init rows, State.rows_init hrows⟩
    · rintro s s' e ⟨G, R⟩ hok hrun
      exact ⟨G.step hok hrun, R.step G hok hrun⟩
  exact hI.2

/-- The second turn is in the row that the slot of its session kept, and the refused request has
one of its own. -/
theorem rows_twoTurns :
    ∃ s, Reachable.runAll (step none) (State.init [0, 1]) twoTurns = some s ∧ s.Rows ∧
      s.slots 0 = some 0 ∧ s.HasRow 2 0 ∧ s.HasRow 1 1 :=
  ⟨_, rfl, rows_of_undisturbed none _ (Reachable.of_permitted twoTurns permitted_twoTurns
    (.start ⟨[0, 1], by decide, rfl⟩) rfl), rfl, ⟨_, rfl, rfl⟩, ⟨_, rfl, rfl⟩⟩

end Sglang.Streaming
