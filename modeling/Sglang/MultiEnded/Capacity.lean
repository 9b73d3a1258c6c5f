import Sglang.MultiEnded.SharedIds

/-!
# What the allocation gates promise

An `alloc*` call leaves its own side as it was or binds every virtual page it takes.
The gate admits all that the schedulable size counts: own holes, own room to extend,
and the bytes that one urgent flush of the peer gives back.
-/

namespace Sglang.MultiEnded

open Sglang.Support Sglang.PagedAlloc Sglang.UnifiedPool List Function

variable {C : Composite} {P : Pair} {s : Side} {c : Config} {a b : Allocator} {peer : Peer}
  {n sortBound : ℕ} {out : List ℤ} {q : FlushQueries} {r : AllocResult}

/-! ## All or nothing -/

/-- Gap bytes that an urgent flush of the peer releases; pages that wait for a forward are
not counted. -/
def peerDrainableHoleBytes (peer : Peer) : ℤ :=
  match peer with
  | none => 0
  | some (cp, p) =>
    if ¬ cp.lazyCompaction then 0 else (p.freePhysPages.length : ℤ) * cp.entryBytesPerPage

def schedulableAvailableSize (c : Config) (a : Allocator) (peer : Peer) : ℤ :=
  availableTokens c a peer (peerDrainableHoleBytes peer)

/-- No hole and no page that waits for a forward; the watermark stands behind the live
pages. -/
structure Packed (c : Config) (a : Allocator) : Prop where
  holes : a.freePhysPages = []
  pending : a.pendingReuse = []
  watermark : a.watermarkPhysical = match c.growDirection with
    | .up => (c.minPageIndex : ℤ) + a.livePageCount
    | .down => (c.numPages : ℤ) - 1 - a.livePageCount

section Flushed

variable {r : FlushResult} (hlazy : c.lazyCompaction = true) (hspec : FlushSpec c a true r)
include hlazy hspec

theorem width_flushed : width c r.alloc = a.livePageCount := by
  obtain ⟨hholes, hpending⟩ := hspec.urgent_empty hlazy rfl
  have hlive := hspec.conserved.live hlazy
  rw [heldPages, unboundPages, pendingPages, hholes, hpending] at hlive
  rw [← hspec.live, hlive]
  exact (sub_zero _).symm

theorem packed_flushed : Packed c r.alloc := by
  obtain ⟨hholes, hpending⟩ := hspec.urgent_empty hlazy rfl
  refine ⟨hholes, hpending, ?_⟩
  have hwidth := width_flushed hlazy hspec
  rw [hspec.live]
  unfold width Config.depth at hwidth
  cases hd : c.growDirection with
  | up =>
    simp only [hd] at hwidth ⊢
    omega
  | down =>
    simp only [hd] at hwidth ⊢
    omega

/-- An urgent flush gives back at least the holes. -/
theorem width_flushed_le (h : Conserved c a) :
    width c r.alloc ≤ width c a - a.freePhysPages.length := by
  rw [width_flushed hlazy hspec, h.live hlazy, heldPages, unboundPages, length_append]
  omega

end Flushed

/-- The credited bytes are what the flush of the peer frees. -/
theorem gap_flushed {r : FlushResult} (hinv : PairInv C P) (hlazy : C.lazyCompaction = true)
    (hr : flush (C.cfg s.peer) (P s.peer) true q = .ok r) :
    currentGapBytes (C.cfg s) (P s) (C.peerOf P s) + peerDrainableHoleBytes (C.peerOf P s) ≤
      currentGapBytes (C.cfg s) (P s) (some (C.cfg s.peer, r.alloc)) := by
  have hspec := hinv.flush_spec (Or.inl rfl) hr
  have hcredit : peerDrainableHoleBytes (C.peerOf P s) =
      ((P s.peer).freePhysPages.length : ℤ) * (C.cfg s.peer).entryBytesPerPage :=
    if_neg (not_not.mpr hlazy)
  have hpeer := width_flushed_le hlazy hspec (hinv.conserved s.peer)
  have hmul := mul_le_mul_of_nonneg_right hpeer (C.cfg s.peer).entryBytes_pos.le
  have hreach := reach_sub (C.cfg s.peer) (P s.peer) r.alloc
  have hzero := hspec.conserved.width_nonneg
  rw [C.gap_eq, currentGapBytes_eq (C.direction_peer s) (C.total_peer s), hcredit]
  rw [sub_mul] at hreach hmul
  rcases hinv.separated with hsum | hempty
  · have := hsum s
    show _ ≤ max 0 ((C.pool.totalBytes : ℤ) - _ - _)
    omega
  · -- An empty side has nothing to give.
    have hnone := (hinv.conserved s.peer).free_nil (hempty s.peer)
    have hsame : width (C.cfg s.peer) r.alloc = 0 := by
      have := hempty s.peer
      omega
    rw [hsame, hempty s.peer] at hreach
    rw [hnone, length_nil, Nat.cast_zero, zero_mul, add_zero]
    show _ ≤ max 0 ((C.pool.totalBytes : ℤ) - _ - _)
    omega

/-- The gate passes for every request within the schedulable size. -/
theorem capacityGate_schedulable (hinv : PairInv C P) (hlazy : C.lazyCompaction = true)
    (hn : (n : ℤ) * (C.cfg s).pageSize ≤
      schedulableAvailableSize (C.cfg s) (P s) (C.peerOf P s)) :
    ∃ Q moves, PairInv C Q ∧ Q s = P s ∧
      (n : ℤ) * (C.cfg s).pageSize ≤ availableSize (C.cfg s) (Q s) (C.peerOf Q s) ∧
      capacityGate (C.cfg s) (P s) (C.peerOf P s) ((n : ℤ) * (C.cfg s).pageSize) q =
        .ok (C.peerOf Q s, moves, true) := by
  by_cases hgate : (n : ℤ) * (C.cfg s).pageSize ≤ availableSize (C.cfg s) (P s) (C.peerOf P s)
  · exact ⟨P, [], hinv, rfl, hgate, capacityGate_pass hgate⟩
  obtain ⟨r, hr, -⟩ := flush_spec (q := q) (hinv.conserved s.peer) (Or.inl rfl)
  have hQ : update P s.peer r.alloc s = P s := update_of_ne s.peer_ne.symm _ _
  have hpeer : C.peerOf (update P s.peer r.alloc) s = some (C.cfg s.peer, r.alloc) := by
    rw [Composite.peerOf, update_self]
  have henough : (n : ℤ) * (C.cfg s).pageSize ≤
      availableSize (C.cfg s) (P s) (some (C.cfg s.peer, r.alloc)) := by
    have hpages := (le_availableTokens_iff (hinv.conserved s)).mp hn
    have hgap := Int.ediv_le_ediv (C.cfg s).entryBytes_pos (gap_flushed (s := s) hinv hlazy hr)
    exact (le_availableSize_iff (hinv.conserved s)).mpr
      (hpages.trans (add_le_add_left (min_le_min_right _ hgap) _))
  refine ⟨update P s.peer r.alloc, r.moves,
    hinv.sideStep (SideStep.flush (m := .bind) (Or.inl rfl) hr), hQ, ?_, ?_⟩
  · rw [hQ, hpeer]
    exact henough
  · rw [hpeer]
    unfold capacityGate
    rw [if_pos (not_le.mp hgate)]
    unfold flushPeerForAlloc Composite.peerOf
    rw [show (C.cfg s).lazyCompaction = true from hlazy]
    simp only [hr, henough, decide_true]

/-- What is schedulable on a side can be allocated there, and an urgent flush packs it. -/
structure Realizable (C : Composite) (P : Pair) (s : Side) : Prop where
  granted : ∀ (n : ℕ) (q : FlushQueries), (n : ℤ) * (C.cfg s).pageSize ≤
    schedulableAvailableSize (C.cfg s) (P s) (C.peerOf P s) → ∃ r vs,
      alloc (C.cfg s) (P s) (C.peerOf P s) (n * (C.cfg s).pageSize) q = .ok r ∧
      r.ids = some (expandPages (C.cfg s).pageSize vs) ∧ vs.length = n ∧ vs.Nodup ∧
      ∀ v ∈ vs, 0 < v ∧ (P s).virtualToPhysical v = -1
  packed : ∀ q, ∃ r, flush (C.cfg s) (P s) true q = .ok r ∧ Packed (C.cfg s) r.alloc

/-- In every state of a settled run of a lazy Mamba pair both sides can allocate all that
they call schedulable. -/
theorem realizable_of_run (hkind : C.kind = .mamba) (hlazy : C.lazyCompaction = true)
    (hrun : SettledRun C P) (s : Side) : Realizable C P s := by
  have hinv := hrun.inv.pair
  have hcons := hinv.conserved s
  have hown : (C.cfg s).isIdOwner = true := by
    cases s with
    | full => rfl
    | other => simp [Composite.cfg, Config.ofPool, Composite.isIdOwner, hkind]
  refine ⟨fun n q hn => ?_, fun q => ?_⟩
  · by_cases hzero : n = 0
    · subst hzero
      exact ⟨_, [], by simp only [alloc, hown, Nat.zero_mul]; rfl, rfl, rfl, nodup_nil, by simp⟩
    obtain ⟨Q, moves, hQ, hsame, hfit, hg⟩ := capacityGate_schedulable (q := q) hinv hlazy hn
    have hpages := (le_availableSize_iff (hQ.conserved s)).mp hfit
    have henough := ids_length_of_gate (hQ.conserved s) hown hfit
    have hindex := min_le_right (currentGapBytes (C.cfg s) (Q s) (C.peerOf Q s) /
      ((C.cfg s).entryBytesPerPage : ℤ)) ((C.cfg s).capacity - width (C.cfg s) (Q s))
    obtain ⟨b, hb⟩ := allocBind_succeeds hQ ((Q s).freeVirtualIds.take n)
      (gapRoom_of_gate hQ hfit) (by omega)
    have hc : consumeVirtual (C.cfg s) (Q s) (C.peerOf Q s) n =
        some { b with freeVirtualIds := (Q s).freeVirtualIds.drop n } := by
      simp [consumeVirtual, hb]
    rw [hsame] at hc henough
    refine ⟨_, (P s).freeVirtualIds.take n, alloc_of_gate hown hzero (by exact_mod_cast hg) hc, rfl,
      by simp [henough], hcons.ids_nodup.sublist (take_sublist _ _), fun v hv => ?_⟩
    have hmem := mem_of_mem_take hv
    exact ⟨hcons.ids_pos v hmem, hcons.ids_unbound v hmem⟩
  · obtain ⟨r, hr, hspec⟩ := flush_spec (q := q) hcons (Or.inl rfl)
    exact ⟨r, hr, packed_flushed hlazy hspec⟩

/-- Only one page is available beside the Mamba side, but four are schedulable. -/
theorem realizable_holedPair :
    availableSize (roomyPair.cfg .full) (holedPair .full) (roomyPair.peerOf holedPair .full) = 2 ∧
    schedulableAvailableSize (roomyPair.cfg .full) (holedPair .full)
      (roomyPair.peerOf holedPair .full) = 8 ∧ Realizable roomyPair holedPair .full :=
  ⟨by decide, by decide, realizable_of_run rfl rfl settledRun_holedPair .full⟩

/-- The second pass replaces the entry of the first, so page `7` is neither live nor a hole
and an urgent flush leaves it below the watermark. -/
theorem secondPass_not_realizable : ForwardRun roomyPair (fun _ _ => True) secondPass ∧
      ¬ Realizable roomyPair secondPass .full := by
  refine ⟨forwardRun_secondPass, fun h => ?_⟩
  obtain ⟨r, hr, hpacked⟩ := h.packed unfired
  have hout : (flush (roomyPair.cfg .full) (secondPass .full) true unfired).map (fun r =>
      (r.alloc.watermarkPhysical, r.alloc.livePageCount)) = .ok (7, 2) := by decide
  rw [hr] at hout
  obtain ⟨hwm, hlive⟩ := Prod.mk.inj (Except.ok.inj hout)
  have := hpacked.watermark
  rw [hwm, hlive] at this
  exact absurd this (by decide)

end Sglang.MultiEnded
