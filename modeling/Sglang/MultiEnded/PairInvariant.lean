import Sglang.MultiEnded.Composite

/-!
# The invariant of a pair

`reach` is the number of bytes a side occupies, counted from its own end of the
buffer, so that the gap between the two sides is the same expression for both.
Every operation of a composite is a sequence of side steps: a flush or a free
of one side, or a binding that the gap has room for.
-/

namespace Sglang.MultiEnded

open Sglang.Support Sglang.PagedAlloc Sglang.UnifiedPool Function

/-! ## Bytes occupied by one side -/

/-- Bytes between a side's own end of the buffer and its frontier. -/
def reach (c : Config) (a : Allocator) : ℤ :=
  match c.growDirection with
  | .up => byteHighFrontier c a
  | .down => c.totalBytes - byteLowFrontier c a

theorem reach_sub (c : Config) (a b : Allocator) : reach c b - reach c a =
      (width c b - width c a) * c.entryBytesPerPage := by
  unfold reach width Config.depth byteHighFrontier byteLowFrontier
  cases c.growDirection <;> simp only <;> ring

theorem currentGapBytes_eq {c cp : Config} {a p : Allocator}
    (hdir : cp.growDirection = c.growDirection.flip) (htotal : cp.totalBytes = c.totalBytes) :
    currentGapBytes c a (some (cp, p)) = max 0 ((c.totalBytes : ℤ) - reach c a - reach cp p) := by
  unfold currentGapBytes reach
  cases hd : c.growDirection with
  | up =>
    simp only [hdir, hd, GrowDirection.flip, htotal]
    congr 1
    ring
  | down =>
    simp only [hdir, hd, GrowDirection.flip]
    congr 1
    ring

namespace Side

theorem peer_peer (s : Side) : s.peer.peer = s := by
  cases s <;> rfl

theorem peer_ne (s : Side) : s.peer ≠ s := by
  cases s <;> simp [peer]

theorem eq_or_eq_peer (t s : Side) : t = s ∨ t = s.peer := by
  cases t with
  | full => cases s with
      | full => exact Or.inl rfl
      | other => exact Or.inr rfl
  | other => cases s with
      | full => exact Or.inr rfl
      | other => exact Or.inl rfl

end Side

namespace Composite

variable (C : Composite)

theorem direction_peer (s : Side) :
    (C.cfg s.peer).growDirection = (C.cfg s).growDirection.flip := by
  show C.direction s.peer = (C.direction s).flip
  cases s with
  | full => rfl
  | other =>
    show C.fullDirection = C.fullDirection.flip.flip
    cases C.fullDirection <;> rfl

theorem total_peer (s : Side) :
    (C.cfg s.peer).totalBytes = (C.cfg s).totalBytes := rfl

theorem gap_eq (P : Pair) (s : Side) : currentGapBytes (C.cfg s) (P s) (C.peerOf P s) =
      max 0 ((C.pool.totalBytes : ℤ) - reach (C.cfg s) (P s) - reach (C.cfg s.peer) (P s.peer)) :=
  currentGapBytes_eq (C.direction_peer s) (C.total_peer s)

end Composite

/-! ## Separation -/

variable {C : Composite} {P : Pair} {s : Side} {m : ℕ}

/-- The two sides do not overlap. A buffer so small that the empty sides
already overlap never allocates anything. -/
def Separated (C : Composite) (P : Pair) : Prop :=
  (∀ s, reach (C.cfg s) (P s) + reach (C.cfg s.peer) (P s.peer) ≤
    C.pool.totalBytes) ∨ ∀ s, width (C.cfg s) (P s) = 0

/-- Space for `m` more pages of a side in the gap. -/
def GapRoom (C : Composite) (P : Pair) (s : Side) (m : ℕ) : Prop :=
  m = 0 ∨ reach (C.cfg s) (P s) + m * (C.cfg s).entryBytesPerPage +
    reach (C.cfg s.peer) (P s.peer) ≤ C.pool.totalBytes

theorem Separated.update {b : Allocator} (h : Separated C P) (hroom : GapRoom C P s m)
    (hold : 0 ≤ width (C.cfg s) (P s)) (hnew : 0 ≤ width (C.cfg s) b)
    (hwidth : width (C.cfg s) b ≤ width (C.cfg s) (P s) + m) :
    Separated C (update P s b) := by
  have hpos := (C.cfg s).entryBytes_pos
  have hreach := reach_sub (C.cfg s) (P s) b
  have hne := s.peer_ne
  -- Only the bytes of side `s` change, by at most `m` pages.
  have hbound : reach (C.cfg s) b ≤
      reach (C.cfg s) (P s) + m * (C.cfg s).entryBytesPerPage := by
    have := mul_le_mul_of_nonneg_right
      (show width (C.cfg s) b - width (C.cfg s) (P s) ≤ (m : ℤ) by omega)
      hpos.le
    omega
  have hsum : ∀ x, x = reach (C.cfg s) b +
      reach (C.cfg s.peer) (P s.peer) → x ≤ C.pool.totalBytes →
      ∀ t, reach (C.cfg t) (Function.update P s b t) +
        reach (C.cfg t.peer) (Function.update P s b t.peer) ≤ C.pool.totalBytes := by
    intro x hx hle t
    rcases t.eq_or_eq_peer s with rfl | rfl
    · rw [update_self, update_of_ne hne]
      omega
    · rw [Side.peer_peer, update_self, update_of_ne hne]
      omega
  rcases hroom with hm | hroom
  · subst hm
    rcases h with hsep | hzero
    · have := hsep s
      push_cast at hbound
      exact Or.inl (hsum _ rfl (by omega))
    · right
      intro t
      by_cases ht : t = s
      · subst ht
        rw [update_self]
        have := hzero t
        push_cast at hwidth
        omega
      · rw [update_of_ne ht]
        exact hzero t
  · exact Or.inl (hsum _ rfl (by omega))

/-! ## Side steps -/

/-- Whether the steps of an operation may bind virtual pages or release
them; no operation does both. -/
inductive Mode where
  | bind
  | release
  deriving DecidableEq, Repr

/-- One elementary transition of one side, with the copies it issues. -/
inductive SideStep (C : Composite) (P : Pair) :
    Mode → Pair → List (Side × KvMove) → Prop
  | flush {m : Mode} {s : Side} {urgent : Bool} {q : FlushQueries} {r : FlushResult}
      (held : HeldEventFree (P s) urgent q) (h : flush (C.cfg s) (P s) urgent q = .ok r) :
      SideStep C P m (update P s r.alloc) (labelled s r.moves)
  | free {s : Side} {ts : List ℤ} {a : Allocator} {moves : List KvMove}
      (legal : Freeable (C.cfg s) (P s) ts)
      (h : free (C.cfg s) (P s) ts = .ok (a, moves)) :
      SideStep C P .release (update P s a) (labelled s moves)
  | consume {s : Side} {n : ℕ} {peer : Peer} {a : Allocator}
      (enough : n ≤ (P s).freeVirtualIds.length)
      (room : GapRoom C P s (n - (P s).freePhysPages.length))
      (h : consumeVirtual (C.cfg s) (P s) peer n = some a) :
      SideStep C P .bind (update P s a) []
  | adopt {vs : List ℤ} {peer : Peer} {a : Allocator} (nodup : vs.Nodup)
      (pos : ∀ v ∈ vs, 0 < v)
      (unbound : ∀ v ∈ vs, (P .other).virtualToPhysical v = -1)
      (ids : (P .other).freeVirtualIds = [])
      (room : GapRoom C P .other (vs.length - (P .other).freePhysPages.length))
      (h : allocWithVirtual (C.cfg .other) (P .other) peer vs = .ok a) :
      SideStep C P .bind (update P .other a) []

/-- Both sides keep their invariant and do not overlap. -/
structure PairInv (C : Composite) (P : Pair) : Prop where
  conserved : ∀ s, Conserved (C.cfg s) (P s)
  separated : Separated C P

theorem pairInv_clear : PairInv C C.clear where
  conserved := fun s => conserved_clear (C.cfg s)
  separated := Or.inr fun s => width_clear (C.cfg s)

theorem PairInv.flush_spec {s : Side} {urgent : Bool} {q : FlushQueries} {r : FlushResult}
    (h : PairInv C P) (held : HeldEventFree (P s) urgent q)
    (hr : flush (C.cfg s) (P s) urgent q = .ok r) : FlushSpec (C.cfg s) (P s) urgent r := by
  obtain ⟨r', heq, hspec⟩ := MultiEnded.flush_spec (h.conserved s) held
  rw [hr] at heq
  obtain rfl := Except.ok.inj heq
  exact hspec

/-- One side changes and the other does not. -/
theorem PairInv.update {b : Allocator} (h : PairInv C P) (hb : Conserved (C.cfg s) b)
    (hroom : GapRoom C P s m) (hwidth : width (C.cfg s) b ≤ width (C.cfg s) (P s) + m) :
    PairInv C (update P s b) := by
  refine ⟨fun t => ?_,
    h.separated.update hroom (h.conserved s).width_nonneg hb.width_nonneg hwidth⟩
  by_cases ht : t = s
  · subst ht
    rwa [update_self]
  · rw [update_of_ne ht]
    exact h.conserved t

/-- A side step keeps the invariant of the pair. -/
theorem PairInv.sideStep {m : Mode} {P' : Pair} {moves : List (Side × KvMove)} (h : PairInv C P)
    (hstep : SideStep C P m P' moves) : PairInv C P' := by
  have hnone : ∀ s, GapRoom C P s 0 := fun _ => Or.inl rfl
  cases hstep with
  | @flush m s urgent q r held hr =>
    have hspec := h.flush_spec held hr
    exact h.update hspec.conserved (hnone s) (by simpa using hspec.width_le)
  | @free s ts a moves hlegal hf =>
    have hspec := free_spec_of_ok (h.conserved s) hlegal hf
    exact h.update hspec.conserved (hnone s) (by simpa using hspec.width_le)
  | @consume s n peer a henough hroom hc =>
    have hcons := (h.conserved s).consumeVirtual henough hc
    obtain ⟨m, ps, rest, rfl, ht⟩ := consumeVirtual_spec (h.conserved s) henough hc
    exact h.update hcons (ht.extension ▸ hroom) (width_advanced m).le
  | @adopt vs peer a hnodup hpos hunbound hids hroom ha =>
    have hcons := (h.conserved .other).allocWithVirtual hnodup hpos hunbound (by simp [hids]) ha
    obtain ⟨m, ps, rest, rfl, ht⟩ := allocWithVirtual_spec (h.conserved .other) ha
    exact h.update hcons (ht.extension ▸ hroom) (width_advanced m).le

/-! ## Sequences of side steps -/

/-- A sequence of side steps, with all its copies in order. -/
inductive Chain (C : Composite) (m : Mode) :
    Pair → Pair → List (Side × KvMove) → Prop
  | nil (P : Pair) : Chain C m P P []
  | cons {P Q R : Pair} {moves moves' : List (Side × KvMove)}
      (head : SideStep C P m Q moves) (tail : Chain C m Q R moves') :
      Chain C m P R (moves ++ moves')

namespace Chain

variable {m : Mode} {Q R : Pair} {moves moves' : List (Side × KvMove)}

theorem single (h : SideStep C P m Q moves) : Chain C m P Q moves := by
  have := Chain.cons h (Chain.nil Q)
  rwa [List.append_nil] at this

theorem trans (h : Chain C m P Q moves) (h' : Chain C m Q R moves') :
    Chain C m P R (moves ++ moves') := by
  induction h with
  | nil => exact h'
  | cons head _ ih =>
    rw [List.append_assoc]
    exact Chain.cons head (ih h')

end Chain

theorem PairInv.chain {m : Mode} {P' : Pair} {moves : List (Side × KvMove)}
    (h : PairInv C P) (hchain : Chain C m P P' moves) : PairInv C P' := by
  induction hchain with
  | nil => exact h
  | cons head _ ih => exact ih (h.sideStep head)

/-! ## The gates leave room -/

/-- The per-side gate. -/
theorem gapRoom_of_gate {n : ℕ} (h : PairInv C P) (hgate : (n : ℤ) * (C.cfg s).pageSize ≤
      availableSize (C.cfg s) (P s) (C.peerOf P s)) :
    GapRoom C P s (n - (P s).freePhysPages.length) := by
  have hpages := (le_availableSize_iff (h.conserved s)).mp hgate
  have hpos := (C.cfg s).entryBytes_pos
  rw [C.gap_eq] at hpages
  by_cases hm : n - (P s).freePhysPages.length = 0
  · exact Or.inl hm
  · right
    set gap := (C.pool.totalBytes : ℤ) - reach (C.cfg s) (P s) -
      reach (C.cfg s.peer) (P s.peer) with hgap
    have hle : ((n - (P s).freePhysPages.length : ℕ) : ℤ) ≤
        max 0 gap / ((C.cfg s).entryBytesPerPage : ℤ) := by
      have := min_le_left (max 0 gap / ((C.cfg s).entryBytesPerPage : ℤ))
        ((C.cfg s).capacity - width (C.cfg s) (P s))
      omega
    have hbytes := (Int.le_ediv_iff_mul_le hpos).mp hle
    have hone : (C.cfg s).entryBytesPerPage ≤
        ((n - (P s).freePhysPages.length : ℕ) : ℤ) * (C.cfg s).entryBytesPerPage := by
      exact le_mul_of_one_le_left hpos.le (by omega)
    have : max 0 gap = gap := max_eq_right (by omega)
    omega

/-- An `alloc*` of one side is a chain: a flush of the peer, then a binding. -/
theorem storeAlloc_chain {r : AllocResult} {peer' : Peer} {out : PairResult} (h : PairInv C P)
    (ho : AllocOutcome (C.cfg s) (P s) (C.peerOf P s) r peer')
    (hout : storeAlloc P s (.ok r) = .ok out) : Chain C .bind P out.state out.moves := by
  obtain rfl := Except.ok.inj hout
  obtain ⟨hpeer, hpeerEq, halloc⟩ := ho
  -- The state after the peer's part, in which the own part is evaluated.
  have hfirst : ∃ Q, Chain C .bind P Q (labelled s.peer r.peerMoves) ∧
      Q = update P s.peer (r.peer.getD (P s.peer)) ∧
      peer' = C.peerOf Q s := by
    generalize hp : C.peerOf P s = p at hpeer
    generalize hmoves : r.peerMoves = moves at hpeer ⊢
    cases hpeer with
    | same =>
      refine ⟨P, Chain.nil P, ?_, hp.symm⟩
      rw [hpeerEq, ← hp]
      simp [Composite.peerOf]
    | @flushed cp p q fr hflush =>
      obtain ⟨rfl, rfl⟩ := Prod.mk.inj (Option.some.inj hp)
      refine ⟨_, Chain.single (SideStep.flush (Or.inl rfl) hflush), ?_, ?_⟩
      · rw [hpeerEq]
        rfl
      · simp [Composite.peerOf]
  obtain ⟨Q, hchain, hQ, hpeerQ⟩ := hfirst
  have hinv := h.chain hchain
  have hsame : Q s = P s := by rw [hQ, update_of_ne s.peer_ne.symm]
  show Chain C .bind P (update _ s r.alloc) _
  rw [← hQ]
  rcases halloc with heq | ⟨hown, n, hgate, hconsume⟩
  · rw [heq, ← hsame, update_eq_self]
    exact hchain
  · rw [hpeerQ, ← hsame] at hgate hconsume
    have hstep := SideStep.consume
      (ids_length_of_gate (hinv.conserved s) hown hgate)
      (gapRoom_of_gate hinv hgate) hconsume
    have := hchain.trans (Chain.single hstep)
    rwa [List.append_nil] at this

end Sglang.MultiEnded
