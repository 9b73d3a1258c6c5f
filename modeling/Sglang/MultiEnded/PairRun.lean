import Sglang.MultiEnded.JointAlloc

/-!
# Operations of a pair as chains of side steps

Every operation of a composite that returns is a chain of side steps, so what
one side step preserves holds in every state of a run.
-/

namespace Sglang.MultiEnded

open Sglang.Support Sglang.PagedAlloc Sglang.UnifiedPool Function

variable {C : Composite} {P : Pair} {s : Side} {urgent : Bool} {q : FlushQueries} {out : PairResult}
  {ts : List ℤ} {Q : Pair} {need : ℤ}

/-! ## Allocations of the full side behind the joint gate -/

/-- A request of `n` pages that passed its gate leaves the peer alone. -/
structure Gated (c : Config) (a : Allocator) (peer : Peer) (n : ℕ)
    (r : AllocResult) : Prop where
  peer_eq : r.peer = peer.map Prod.snd
  moves_eq : r.peerMoves = []
  consumed : ∀ ids, r.ids = some ids → consumeVirtual c a peer n = some r.alloc

section Gate

variable {c : Config} {a : Allocator} {peer : Peer} {q : FlushQueries}
  {r : AllocResult}

theorem consumeVirtual_zero (c : Config) (a : Allocator) (peer : Peer) :
    consumeVirtual c a peer 0 = some a := rfl

theorem capacityGate_pass {need : ℤ} (h : need ≤ availableSize c a peer) :
    capacityGate c a peer need q = .ok (peer, [], true) :=
  if_neg (not_lt.mpr h)

theorem AllocCase.gated {n : ℕ} {out : List ℤ} (h : AllocCase c a peer n out q r)
    (hgate : (n : ℤ) * c.pageSize ≤ availableSize c a peer) : Gated c a peer n r := by
  have hpass := capacityGate_pass (q := q) hgate
  cases h with
  | early hnone =>
    refine ⟨rfl, rfl, fun ids hids => ?_⟩
    rw [(hnone ids hids).1]
    exact consumeVirtual_zero c a peer
  | refused gate =>
    rw [hpass] at gate
    obtain ⟨rfl, rfl, -⟩ := by simpa using gate
    exact ⟨rfl, rfl, fun _ hids => by simp at hids⟩
  | bound owner gate hc =>
    rw [hpass] at gate
    obtain ⟨rfl, rfl, -⟩ := by simpa using gate
    exact ⟨rfl, rfl, fun _ _ => hc⟩

end Gate

/-! ## The elementary operations -/

theorem pairFlush_ok (h : pairFlush C P s urgent q = .ok out) :
    ∃ r, flush (C.cfg s) (P s) urgent q = .ok r ∧
      out = ⟨update P s r.alloc, labelled s r.moves, some []⟩ := by
  unfold pairFlush at h
  split at h
  · simp at h
  · rename_i r hr
    exact ⟨r, hr, (Except.ok.inj h).symm⟩

theorem pairFree_ok (h : pairFree C P s ts = .ok out) :
    ∃ a moves, free (C.cfg s) (P s) ts = .ok (a, moves) ∧
      out = ⟨update P s a, labelled s moves, some []⟩ := by
  unfold pairFree at h
  split at h
  · simp at h
  · rename_i a moves hr
    exact ⟨a, moves, hr, (Except.ok.inj h).symm⟩

theorem storeAlloc_ok {x : Except AllocError AllocResult} (h : storeAlloc P s x = .ok out) :
    ∃ r, x = .ok r := by
  cases x with
  | error e => simp [storeAlloc] at h
  | ok r => exact ⟨r, rfl⟩

/-! ## The SWA operations -/

/-- A state of the SWA pair reached from `P` by a chain. -/
structure SwaChain (C : Composite) (m : Mode) (P Q : Pair)
    (moves : List (Side × KvMove)) : Prop where
  chain : Chain C m P Q moves
  inv : SwaInv C Q

/-- No band has grown. -/
def NoWider (C : Composite) (P Q : Pair) : Prop :=
  ∀ s, width (C.cfg s) (Q s) ≤ width (C.cfg s) (P s)

theorem noWider_update {b : Allocator} (h : width (C.cfg s) b ≤ width (C.cfg s) (P s)) :
    NoWider C P (update P s b) := by
  intro t
  by_cases ht : t = s
  · subst ht
    rwa [update_self]
  · rw [update_of_ne ht]

theorem NoWider.trans {R : Pair} (h : NoWider C P Q) (h' : NoWider C Q R) : NoWider C P R :=
  fun s => (h' s).trans (h s)

theorem noWider_flush (hinv : PairInv C P) (held : HeldEventFree (P s) urgent q)
    (hf : pairFlush C P s urgent q = .ok out) : NoWider C P out.state := by
  obtain ⟨r, hr, rfl⟩ := pairFlush_ok hf
  have hspec := hinv.flush_spec held hr
  exact noWider_update hspec.width_le

theorem swaChain_flush {m : Mode} (hinv : PairInv C P) (h : SwaInv C P)
    (held : HeldEventFree (P s) urgent q) (hf : pairFlush C P s urgent q = .ok out) :
    SwaChain C m P out.state out.moves := by
  obtain ⟨r, hr, rfl⟩ := pairFlush_ok hf
  exact ⟨Chain.single (SideStep.flush held hr), h.flush hinv held hr⟩

theorem swaChain_flushBoth {moves : List (Side × KvMove)} (hinv : PairInv C P) (h : SwaInv C P)
    (hf : flushBoth C P q = .ok (Q, moves)) : SwaChain C .bind P Q moves ∧ NoWider C P Q := by
  unfold flushBoth at hf
  split at hf
  · simp at hf
  rename_i r hr
  split at hf
  · simp at hf
  rename_i r' hr'
  obtain ⟨rfl, rfl⟩ := Prod.mk.inj (Except.ok.inj hf)
  have hfirst : SwaChain C .bind P r.state r.moves := swaChain_flush hinv h (Or.inl rfl) hr
  have hinv₁ := hinv.chain hfirst.chain
  have hsecond : SwaChain C .bind r.state r'.state r'.moves :=
    swaChain_flush hinv₁ hfirst.inv (Or.inl rfl) hr'
  exact ⟨⟨hfirst.chain.trans hsecond.chain, hsecond.inv⟩,
    (noWider_flush hinv (Or.inl rfl) hr).trans (noWider_flush hinv₁ (Or.inl rfl) hr')⟩

theorem swaChain_jointGate {moves : List (Side × KvMove)} {enough : Bool} (hinv : PairInv C P)
    (h : SwaInv C P) (hg : jointGate C P need q = .ok (Q, moves, enough)) :
    (SwaChain C .bind P Q moves ∧ NoWider C P Q) ∧
      (enough = true → need ≤ jointAvailableSize C Q) := by
  have hsame : SwaChain C .bind P P [] ∧ NoWider C P P := ⟨⟨Chain.nil P, h⟩, fun _ => le_rfl⟩
  unfold jointGate at hg
  split at hg
  · split at hg
    · simp only [Except.ok.injEq, Prod.mk.injEq] at hg
      obtain ⟨rfl, rfl, rfl⟩ := hg
      exact ⟨hsame, by simp⟩
    split at hg
    · simp at hg
    · rename_i hflush
      simp only [Except.ok.injEq, Prod.mk.injEq] at hg
      obtain ⟨rfl, rfl, rfl⟩ := hg
      exact ⟨swaChain_flushBoth hinv h hflush, by simp⟩
  · rename_i hgate
    simp only [Except.ok.injEq, Prod.mk.injEq] at hg
    obtain ⟨rfl, rfl, rfl⟩ := hg
    exact ⟨hsame, fun _ => not_lt.mp hgate⟩

/-- What the callers of `jointWith` pass for the full side. -/
structure FullRequest (C : Composite) (n : ℕ) (need : ℤ)
    (allocFull : Pair → Except AllocError AllocResult) : Prop where
  pages : ∀ Q r, allocFull Q = .ok r → (n : ℤ) * (C.cfg .full).pageSize = need
  gated : ∀ Q r, allocFull Q = .ok r →
    need ≤ availableSize (C.cfg .full) (Q .full) (C.peerOf Q .full) →
      Gated (C.cfg .full) (Q .full) (C.peerOf Q .full) n r

theorem fullRequest_alloc (C : Composite) (need : ℕ) (q : FlushQueries) :
    FullRequest C (need / (C.cfg .full).pageSize) need fun P =>
      alloc (C.cfg .full) (P .full) (C.peerOf P .full) need q :=
  ⟨fun _ _ hr => alloc_pages hr,
    fun _ _ hr hgate => (alloc_cases hr).gated ((alloc_pages hr).trans_le hgate)⟩

theorem fullRequest_paged (C : Composite) (n : ℕ)
    (sortBound : ℕ) (out : Pair → List ℤ) (q : FlushQueries) :
    FullRequest C n ((n : ℤ) * (C.cfg .full).pageSize) fun P =>
      allocPaged (C.cfg .full) (P .full) (C.peerOf P .full) n sortBound (out P) q :=
  ⟨fun _ _ _ => rfl, fun _ _ hr => (allocPaged_cases hr).gated⟩

/-- A joint allocation is the gate and then, if it passes, one binding on each
side. -/
theorem jointWith_cases {n : ℕ} {allocFull : Pair → Except AllocError AllocResult}
    (hinv : PairInv C P) (h : SwaInv C P) (hreq : FullRequest C n need allocFull)
    (hout : jointWith C P n need q allocFull = .ok out) :
    ∃ Q, (SwaChain C .bind P Q out.moves ∧ NoWider C P Q) ∧
      (out.state = Q ∨ ∃ a b, JointBound C Q n a b ∧
        out.state = update (update Q .full a) .other b) := by
  unfold jointWith at hout
  split at hout
  · simp at hout
  · rename_i Q moves hg
    obtain rfl := Except.ok.inj hout
    exact ⟨Q, (swaChain_jointGate hinv h hg).1, Or.inl rfl⟩
  · rename_i Q moves hg
    obtain ⟨hchain, henough⟩ := swaChain_jointGate hinv h hg
    have hinvQ := hinv.chain hchain.1.chain
    cases hr : allocFull Q with
    | error e => simp [hr, storeAlloc, bindSwa] at hout
    | ok r =>
      have hneed := hreq.pages Q r hr
      have hgate : (n : ℤ) * (C.cfg .full).pageSize ≤ jointAvailableSize C Q := hneed ▸ henough rfl
      have hroom := jointRoom_of_gate hinvQ hgate
      have hfull := hreq.gated Q r hr (hneed ▸ hroom.full_gate hinvQ)
      simp only [hr, storeAlloc, bindSwa, hfull.peer_eq, hfull.moves_eq,
        Composite.peerOf, Option.map_some, Option.getD_some, update_eq_self] at hout
      split at hout
      · simp at hout
      · rename_i ids hids
        split at hout
        · simp at hout
        · rename_i b hb
          obtain rfl := Except.ok.inj hout
          refine ⟨Q, ?_, Or.inr ⟨r.alloc, b, ⟨hgate, hfull.consumed ids hids, hb⟩, rfl⟩⟩
          show SwaChain C .bind P Q (moves ++ []) ∧ NoWider C P Q
          rw [List.append_nil]
          exact hchain

theorem swaChain_jointWith {n : ℕ} {allocFull : Pair → Except AllocError AllocResult}
    (hinv : PairInv C P) (h : SwaInv C P) (hreq : FullRequest C n need allocFull)
    (hout : jointWith C P n need q allocFull = .ok out) :
    SwaChain C .bind P out.state out.moves := by
  obtain ⟨Q, ⟨hchain, -⟩, heq | ⟨a, b, hbound, heq⟩⟩ := jointWith_cases hinv h hreq hout
  · rw [heq]
    exact hchain
  · obtain ⟨hbind, hswa⟩ :=
      joint_bind (hinv.chain hchain.chain) hchain.inv hbound
    rw [heq]
    have htrans := hchain.chain.trans hbind
    rw [List.append_nil] at htrans
    exact ⟨htrans, hswa⟩

/-! ### Freeing -/

theorem pageSize_other (hkind : C.kind = .swa) :
    (C.cfg .other).pageSize = (C.cfg .full).pageSize := by
  have hspec := C.specs
  rw [hkind] at hspec
  show C.pool.allocPageSize C.fullDirection.flip = C.pool.allocPageSize C.fullDirection
  unfold UnifiedKVPool.allocPageSize
  cases hf : C.pool.spec C.fullDirection with
  | mamba => simp [hf, CompositeKind.Admits] at hspec
  | mha => cases ho : C.pool.spec C.fullDirection.flip with
      | mamba => simp [hf, ho, CompositeKind.Admits] at hspec
      | mha => rfl

theorem mem_liveSwa {t : ℤ} : t ∈ liveSwa C P ts ↔ t ∈ ts ∧ 0 < (P .other).virtualToPhysical
      (t / ((C.cfg .full).pageSize : ℤ)) := by
  simp [liveSwa]

theorem freeable_liveSwa (hkind : C.kind = .swa)
    (h : PairInv C P) (hnodup : C.lazyCompaction = true → (C.cfg .other).pageSize = 1 → ts.Nodup) :
    Freeable (C.cfg .other) (P .other) (liveSwa C P ts) where
  bound := by
    intro t ht
    obtain ⟨-, hpos⟩ := mem_liveSwa.mp ht
    rw [pageSize_other hkind]
    refine ⟨fun hzero => ?_, by omega⟩
    have hsink := (h.conserved .other).sink
    rw [hzero] at hpos
    omega
  unique := fun hlazy hps => (hnodup hlazy hps).filter _

/-- A token of a bound page is live on the swa side iff its page is. -/
theorem mem_freed_liveSwa {v : ℤ} (hinv : PairInv C P) (hkind : C.kind = .swa) (hv : v ≠ 0)
    (hmem : v ∈ freedVPages (C.cfg .full) ts) (hbound : (P .other).virtualToPhysical v ≠ -1) :
    v ∈ freedVPages (C.cfg .other) (liveSwa C P ts) := by
  obtain ⟨t, ht, rfl⟩ := mem_freedVPages.mp hmem
  rw [mem_freedVPages]
  refine ⟨t, mem_liveSwa.mpr ⟨ht, ?_⟩, by rw [pageSize_other hkind]⟩
  exact (hinv.conserved .other).band_pos ((hinv.conserved .other).physical_mem_band hv hbound)

/-- `free_swa`. -/
theorem freeSwa_spec (hinv : PairInv C P) (h : SwaInv C P)
    (hkind : C.kind = .swa) (hnodup : C.lazyCompaction = true →
      (C.cfg .other).pageSize = 1 → ts.Nodup) : ∃ b moves, freeSwa C P ts =
        .ok ⟨update P .other b, labelled .other moves, some []⟩ ∧
      FreeSpec (C.cfg .other) (P .other) (freedVPages (C.cfg .other) (liveSwa C P ts)) b moves ∧
      SwaChain C .release P (update P .other b) (labelled .other moves) := by
  have hlegal := freeable_liveSwa hkind hinv hnodup
  obtain ⟨b, moves, hf, hspec⟩ := free_spec (hinv.conserved .other) hlegal
  refine ⟨b, moves, ?_, hspec, Chain.single (SideStep.free hlegal hf),
    h.free_other hinv hkind hlegal hf⟩
  simp [freeSwa, pairFree, hf]

/-- `free` of the SWA pair releases the pages on both sides. -/
theorem jointFree_spec (hinv : PairInv C P) (h : SwaInv C P)
    (hkind : C.kind = .swa) (hts : Freeable (C.cfg .full) (P .full) ts) :
    ∃ a b moves, jointFree C P ts =
        .ok ⟨update (update P .other b) .full a, moves, some []⟩ ∧
      (∃ mb, FreeSpec (C.cfg .other) (P .other)
        (freedVPages (C.cfg .other) (liveSwa C P ts)) b mb) ∧
      (∃ ma, FreeSpec (C.cfg .full) (P .full) (freedVPages (C.cfg .full) ts) a ma) ∧
      SwaChain C .release P (update (update P .other b) .full a) moves := by
  have hnodup : C.lazyCompaction = true → (C.cfg .other).pageSize = 1 →
      ts.Nodup := fun hlazy hps =>
    hts.unique hlazy ((pageSize_other hkind).symm.trans hps)
  obtain ⟨b, mb, heq, hspec, hfirst⟩ := freeSwa_spec hinv h hkind hnodup
  have hinv₁ := hinv.chain hfirst.chain
  obtain ⟨a, ma, hf, hspec'⟩ := free_spec (hinv.conserved .full) hts
  have hstep : SideStep C (update P .other b) .release _
      (labelled .full ma) :=
    SideStep.free hts hf
  refine ⟨a, b, labelled .other mb ++ labelled .full ma, ?_, ⟨mb, hspec⟩,
    ⟨ma, hspec'⟩, hfirst.chain.trans (Chain.single hstep), ?_⟩
  · have hfull : free (C.cfg .full) (update P .other b .full) ts =
        .ok (a, ma) := hf
    simp only [jointFree, heq, pairFree, hfull]
  · refine hfirst.inv.free_full hinv₁ hts (fun v hv => ?_) hf
    rw [update_self, hspec.unbound_iff (hinv.conserved .other)]
    by_cases hbound : (P .other).virtualToPhysical v = -1
    · exact Or.inl hbound
    · exact Or.inr (mem_freed_liveSwa hinv hkind (hts.pages v hv).1 hv hbound)

/-! ## Runs -/

/-- The invariant of a run of either composite. -/
structure RunInv (C : Composite) (P : Pair) : Prop where
  pair : PairInv C P
  swa : C.kind = .swa → SwaInv C P

theorem runInv_clear : RunInv C C.clear := ⟨pairInv_clear, swaInv_clear⟩

/-- No partial pass under an unfired event that already holds pages. -/
def PairOp.Settled (P : Pair) : PairOp → Prop
  | flush s urgent q => HeldEventFree (P s) urgent q
  | _ => True

/-- One operation is a chain of side steps and keeps the invariant. -/
theorem RunInv.step {op : PairOp} {r : PairResult} (h : RunInv C P)
    (hlegal : op.Legal C P) (hsettled : op.Settled P) (hstep : op.step C P = .ok r) :
    (∃ m, Chain C m P r.state r.moves) ∧ RunInv C r.state := by
  have hown : ∀ m, C.kind ≠ .swa → Chain C m P r.state r.moves →
      (∃ m, Chain C m P r.state r.moves) ∧ RunInv C r.state :=
    fun m hkind hchain => ⟨⟨m, hchain⟩, h.pair.chain hchain, fun hswa => absurd hswa hkind⟩
  have hshared : ∀ m, SwaChain C m P r.state r.moves →
      (∃ m, Chain C m P r.state r.moves) ∧ RunInv C r.state :=
    fun m hchain => ⟨⟨m, hchain.chain⟩, h.pair.chain hchain.chain, fun _ => hchain.inv⟩
  cases op with
  | alloc s n q =>
    obtain ⟨x, hx⟩ := storeAlloc_ok hstep
    obtain ⟨peer', ho⟩ := (alloc_cases hx).outcome
    exact hown _ hlegal (storeAlloc_chain h.pair ho (hx ▸ hstep))
  | allocExtend s reqs q =>
    obtain ⟨x, hx⟩ := storeAlloc_ok hstep
    obtain ⟨peer', ho⟩ := (allocPaged_cases hx).outcome
    exact hown _ hlegal (storeAlloc_chain h.pair ho (hx ▸ hstep))
  | allocDecode s reqs q =>
    obtain ⟨x, hx⟩ := storeAlloc_ok hstep
    obtain ⟨peer', ho⟩ := (allocPaged_cases hx).outcome
    exact hown _ hlegal (storeAlloc_chain h.pair ho (hx ▸ hstep))
  | free s ts =>
    obtain ⟨a, moves, hf, rfl⟩ := pairFree_ok hstep
    exact hown _ hlegal.1 (Chain.single (SideStep.free hlegal.2 hf))
  | jointAlloc n q =>
    exact hshared _ (swaChain_jointWith h.pair (h.swa hlegal) (fullRequest_alloc C n q) hstep)
  | jointAllocExtend reqs q =>
    exact hshared _ (swaChain_jointWith h.pair (h.swa hlegal) (fullRequest_paged C _ _ _ q) hstep)
  | jointAllocDecode reqs q =>
    exact hshared _ (swaChain_jointWith h.pair (h.swa hlegal) (fullRequest_paged C _ _ _ q) hstep)
  | jointFree ts =>
    obtain ⟨a, b, moves, heq, -, -, hchain⟩ :=
      jointFree_spec h.pair (h.swa hlegal.1) hlegal.1 hlegal.2
    have hr : MultiEnded.jointFree C P ts = .ok r := hstep
    rw [heq] at hr
    obtain rfl := Except.ok.inj hr
    exact hshared _ hchain
  | freeSwa ts =>
    obtain ⟨b, moves, heq, -, hchain⟩ := freeSwa_spec h.pair (h.swa hlegal.1) hlegal.1 hlegal.2
    have hr : MultiEnded.freeSwa C P ts = .ok r := hstep
    rw [heq] at hr
    obtain rfl := Except.ok.inj hr
    exact hshared _ hchain
  | flush s urgent q =>
    by_cases hkind : C.kind = .swa
    · exact hshared .bind (swaChain_flush h.pair (h.swa hkind) hsettled hstep)
    · obtain ⟨x, hx, rfl⟩ := pairFlush_ok hstep
      exact hown .bind hkind (Chain.single (SideStep.flush hsettled hx))

/-! ### Runs beside forwards -/

/-- The operations that only record forwards or release what waits for them. -/
def Op.Records : Op → Prop
  | maybeDrainPendingReuse _ | setLatestForwardDoneEvent _ | setInflightForward _ _ => True
  | _ => False

/-- The states a pair reaches while forwards run, by operations that satisfy `ok`. -/
inductive ForwardRun (C : Composite) (ok : Pair → PairOp → Prop) : Pair → Prop
  | clear : ForwardRun C ok C.clear
  | step {P : Pair} {op : PairOp} {r : PairResult} (run : ForwardRun C ok P)
      (legal : op.Legal C P) (good : ok P op) (step : op.step C P = .ok r) :
      ForwardRun C ok r.state
  | record {P : Pair} {s : Side} {op : Op} {a : Allocator} (run : ForwardRun C ok P)
      (records : op.Records) (step : op.step (C.cfg s) (P s) = .ok a) :
      ForwardRun C ok (update P s a)

/-- Runs in which no partial pass runs under an unfired event that already holds
pages. -/
abbrev SettledRun (C : Composite) : Pair → Prop := ForwardRun C fun P op => op.Settled P

/-- A record leaves the band, the ids and their bindings. -/
structure SameBindings (a b : Allocator) : Prop where
  watermark : b.watermarkPhysical = a.watermarkPhysical
  bindings : b.virtualToPhysical = a.virtualToPhysical
  ids : b.freeVirtualIds = a.freeVirtualIds

theorem Op.Records.sameBindings {c : Config} {a b : Allocator} {op : Op} (h : op.Records)
    (hstep : op.step c a = .ok b) : SameBindings a b := by
  cases op with
  | maybeDrainPendingReuse fired =>
    rw [← Except.ok.inj hstep]
    unfold MultiEnded.maybeDrainPendingReuse drainPendingReuse
    grind [SameBindings]
  | setLatestForwardDoneEvent e =>
    rw [← Except.ok.inj hstep]
    exact ⟨rfl, rfl, rfl⟩
  | setInflightForward e ts =>
    rw [← Except.ok.inj hstep]
    unfold MultiEnded.setInflightForward
    grind [SameBindings]
  | _ => exact h.elim

theorem SameBindings.width {c : Config} {a b : Allocator} (h : SameBindings a b) :
    width c b = width c a := by
  unfold MultiEnded.width
  rw [h.watermark]

theorem RunInv.record {op : Op} {a : Allocator} (h : RunInv C P) (hrec : op.Records)
    (hstep : op.step (C.cfg s) (P s) = .ok a) : RunInv C (update P s a) := by
  have hsame := hrec.sameBindings hstep
  have hlegal : op.Legal (C.cfg s) (P s) ∧ op.Settled (P s) := by
    cases op <;> first | exact hrec.elim | exact ⟨trivial, trivial⟩
  have hcons := (h.pair.conserved s).step hlegal.1 hlegal.2 hstep
  refine ⟨h.pair.update hcons (Or.inl rfl) ?_, fun hswa => ?_⟩
  · simpa using hsame.width.le
  · have hinv := h.swa hswa
    cases s with
    | full =>
      refine hinv.update_full (fun v hv => ?_) (hsame.bindings ▸ hinv.bound_sub)
      rwa [Minted, hsame.ids, hsame.bindings] at hv
    | other =>
      exact hinv.update_other (hsame.ids.trans hinv.other_ids) (hsame.bindings ▸ hinv.bound_sub)

/-- The invariant holds in every state of a run. -/
theorem ForwardRun.inv (hrun : SettledRun C P) : RunInv C P := by
  induction hrun with
  | clear => exact runInv_clear
  | step _ hlegal hsettled hstep ih => exact (ih.step hlegal hsettled hstep).2
  | record _ hrec hstep ih => exact ih.record hrec hstep

/-! ### States without forwards -/

/-- No forward is recorded and no page waits for one. -/
def Quiet (P : Pair) : Prop :=
  ∀ s, (P s).latestForwardDoneEvent = none ∧ (P s).pendingReuse = []

theorem Quiet.settled (h : Quiet P) (op : PairOp) : op.Settled P := by
  cases op with
  | flush s urgent q => exact Or.inr fun e he => by simp [(h s).1] at he
  | _ => trivial

theorem Quiet.sideStep {m : Mode} {moves : List (Side × KvMove)} (h : Quiet P)
    (hinv : PairInv C P) (hstep : SideStep C P m Q moves) : Quiet Q := by
  have hupdate : ∀ {s : Side} {b : Allocator}, b.latestForwardDoneEvent = none ∧
      b.pendingReuse = [] → Quiet (update P s b) := by
    intro s b hb t
    by_cases ht : t = s
    · subst ht
      rwa [update_self]
    · rw [update_of_ne ht]
      exact h t
  cases hstep with
  | @flush m s urgent q r held hr =>
    have hspec := hinv.flush_spec held hr
    exact hupdate ⟨hspec.latest.trans (h s).1, hspec.quiet (h s).1 (h s).2⟩
  | @free s ts a moves hlegal hf =>
    have hspec := free_spec_of_ok (hinv.conserved s) hlegal hf
    exact hupdate ⟨hspec.latest.trans (h s).1, hspec.pending.trans (h s).2⟩
  | @consume s n peer a henough hroom hc =>
    obtain ⟨m, ps, rest, rfl, ht⟩ := consumeVirtual_spec (hinv.conserved s) henough hc
    exact hupdate (h s)
  | @adopt vs peer a hnodup hpos hunbound hids hroom ha =>
    obtain ⟨m, ps, rest, rfl, ht⟩ := allocWithVirtual_spec (hinv.conserved .other) ha
    exact hupdate (h .other)

theorem Quiet.chain {m : Mode} {moves : List (Side × KvMove)} (h : Quiet P)
    (hinv : PairInv C P) (hchain : Chain C m P Q moves) : Quiet Q := by
  induction hchain with
  | nil => exact h
  | cons head _ ih => exact ih (h.sideStep hinv head) (hinv.sideStep head)

theorem Quiet.step {op : PairOp} {r : PairResult} (h : Quiet P) (hinv : RunInv C P)
    (hlegal : op.Legal C P) (hstep : op.step C P = .ok r) : Quiet r.state := by
  obtain ⟨⟨m, hchain⟩, -⟩ := hinv.step hlegal (h.settled op) hstep
  exact h.chain hinv.pair hchain

end Sglang.MultiEnded
