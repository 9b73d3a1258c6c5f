import Sglang.MultiEnded.PairInvariant

/-!
# Joint allocation of the SWA pair

A joint allocation binds the same virtual pages on both sides. The full side
is gated a second time on its own; the swa side is not, so its room has to
follow from the joint byte budget. `SwaInv` says that a virtual page bound on
the swa side is bound on the full side, which is why the pages minted by the
full side are always unbound on the swa side.
-/

namespace Sglang.MultiEnded

open Sglang.Support Sglang.PagedAlloc Sglang.UnifiedPool Function

variable {C : Composite} {P : Pair} {n : ℕ} {b a : Allocator}

/-! ## The joint byte budget -/

/-- The three phases of the lazy formula: the side with fewer holes `h₁`
extends while the other drains, then both extend. The formula admits exactly
the requests whose extensions of the two sides fit the gap. -/
theorem le_phases_iff {gap e₁ e₂ n h₁ h₂ : ℤ} (hgap : 0 ≤ gap) (he₁ : 0 < e₁)
    (he₂ : 0 < e₂) (hle : h₁ ≤ h₂) : n ≤ h₁ + min (h₂ - h₁) (gap / e₁) +
      (gap - min (h₂ - h₁) (gap / e₁) * e₁) / (e₁ + e₂) ↔
    max 0 (n - h₁) * e₁ + max 0 (n - h₂) * e₂ ≤ gap := by
  set k := min (h₂ - h₁) (gap / e₁) with hk
  set j := (gap - k * e₁) / (e₁ + e₂) with hj
  have hdiv0 : 0 ≤ gap / e₁ := Int.ediv_nonneg hgap he₁.le
  have hk0 : 0 ≤ k := le_min (by omega) hdiv0
  have hkgap : k * e₁ ≤ gap := (Int.le_ediv_iff_mul_le he₁).mp (min_le_right _ _)
  have hj0 : 0 ≤ j := Int.ediv_nonneg (by omega) (by omega)
  have hjgap : j * (e₁ + e₂) ≤ gap - k * e₁ := Int.ediv_mul_le _ (by omega)
  constructor
  · intro hn
    have hxle : max 0 (n - h₁) ≤ k + j := by omega
    have hyle : max 0 (n - h₂) ≤ j := by
      by_cases hroom : h₂ - h₁ ≤ gap / e₁
      · have : k = h₂ - h₁ := min_eq_left hroom
        omega
      · -- The gap is used up in the second phase, so nothing is left for both.
        have hkeq : k = gap / e₁ := min_eq_right (by omega)
        have hrest : gap - k * e₁ < e₁ + e₂ := by
          have hmod := Int.emod_lt_of_pos gap he₁
          have hdecomp := Int.mul_ediv_add_emod gap e₁
          rw [hkeq, mul_comm]
          omega
        have hjzero : j = 0 := Int.ediv_eq_zero_of_lt (by omega) hrest
        omega
    calc
      max 0 (n - h₁) * e₁ + max 0 (n - h₂) * e₂ ≤ (k + j) * e₁ + j * e₂ :=
        add_le_add (mul_le_mul_of_nonneg_right hxle he₁.le)
          (mul_le_mul_of_nonneg_right hyle he₂.le)
      _ = k * e₁ + j * (e₁ + e₂) := by ring
      _ ≤ gap := by omega
  · intro hfit
    by_cases hn : n ≤ h₂
    · -- The second phase serves what the first does not.
      have hx : max 0 (n - h₁) ≤ gap / e₁ := by
        rw [Int.le_ediv_iff_mul_le he₁]
        rw [max_eq_left (show n - h₂ ≤ 0 by omega)] at hfit
        omega
      have : max 0 (n - h₁) ≤ k := le_min (by omega) hx
      omega
    · rw [max_eq_right (show 0 ≤ n - h₁ by omega), max_eq_right (show 0 ≤ n - h₂ by omega)] at hfit
      have hsplit : (n - h₁) * e₁ + (n - h₂) * e₂ =
          (h₂ - h₁) * e₁ + (n - h₂) * (e₁ + e₂) := by ring
      have hboth : 0 ≤ (n - h₂) * (e₁ + e₂) := mul_nonneg (by omega) (by omega)
      have hkeq : k = h₂ - h₁ := min_eq_left ((Int.le_ediv_iff_mul_le he₁).mpr (by omega))
      have : n - h₂ ≤ j := by
        rw [hj, Int.le_ediv_iff_mul_le (by omega), hkeq]
        omega
      omega

/-- Pages of a side that `n` pages need beyond its holes. -/
def extension (P : Pair) (s : Side) (n : ℕ) : ℕ := n - (P s).freePhysPages.length

theorem jointGapBytes_eq (C : Composite) (P : Pair) :
    jointGapBytes C P = max 0 ((C.pool.totalBytes : ℤ) -
      reach (C.cfg .full) (P .full) - reach (C.cfg .other) (P .other)) := by
  have h := C.gap_eq P .full
  unfold currentGapBytes at h
  unfold jointGapBytes
  cases hd : (C.cfg .full).growDirection with
  | up =>
    simp only [hd] at h
    exact h
  | down =>
    simp only [hd] at h
    exact h

/-- What the joint gate guarantees for `n` pages. -/
structure JointRoom (C : Composite) (P : Pair) (n : ℕ) : Prop where
  bytes : (extension P .full n : ℤ) * (C.cfg .full).entryBytesPerPage +
    (extension P .other n : ℤ) * (C.cfg .other).entryBytesPerPage ≤ jointGapBytes C P
  index : (n : ℤ) ≤ (P .full).freePhysPages.length +
    ((C.cfg .full).capacity - width (C.cfg .full) (P .full))
  indexOther : (n : ℤ) ≤ (P .other).freePhysPages.length +
    ((C.cfg .other).capacity - width (C.cfg .other) (P .other))

theorem extension_eq (s : Side) (n : ℕ) : (extension P s n : ℤ) =
    max 0 ((n : ℤ) - (P s).freePhysPages.length) := by
  unfold extension
  omega

/-- `k` pages on both sides, holes first, fit the gap and both index spaces. -/
structure JointFits (C : Composite) (P : Pair) (k : ℤ) : Prop where
  bytes : max 0 (k - (P .full).freePhysPages.length) * (C.cfg .full).entryBytesPerPage +
    max 0 (k - (P .other).freePhysPages.length) * (C.cfg .other).entryBytesPerPage ≤
      jointGapBytes C P
  index : ∀ s, k ≤ (P s).freePhysPages.length + ((C.cfg s).numPages - (C.cfg s).minPageIndex -
    allocatedPages (C.cfg s) (P s))

theorem jointGapBytes_nonneg : 0 ≤ jointGapBytes C P := by
  rw [jointGapBytes_eq]
  exact le_max_left _ _

/-- The joint budget is the largest number of pages that fits both sides. -/
theorem jointAvailableSize_exact (h : PairInv C P) :
    ∃ k, jointAvailableSize C P = k * (C.cfg .full).pageSize ∧ ∀ n, n ≤ k ↔ JointFits C P n := by
  have hef := (C.cfg .full).entryBytes_pos
  have hes := (C.cfg .other).entryBytes_pos
  have hgap := jointGapBytes_nonneg (C := C) (P := P)
  have hfits : ∀ n, JointFits C P n ↔ _ := fun n =>
    ⟨fun h => And.intro (And.intro h.bytes (h.index .full)) (h.index .other),
      fun h => ⟨h.1.1, fun s => s.casesOn h.1.2 h.2⟩⟩
  unfold jointAvailableSize
  by_cases hlazy : C.lazyCompaction = true
  · rw [if_neg (not_not.mpr hlazy)]
    refine ⟨_, rfl, fun n => ?_⟩
    rw [hfits, le_min_iff, le_min_iff]
    refine and_congr_left' (and_congr_left' ?_)
    by_cases hholes : ((P .full).freePhysPages.length : ℤ) ≤ (P .other).freePhysPages.length
    · simp only [if_pos hholes, min_eq_left hholes]
      exact le_phases_iff hgap hef hes hholes
    · have hholes' : ((P .other).freePhysPages.length : ℤ) ≤
          (P .full).freePhysPages.length := by omega
      simp only [if_neg hholes, min_eq_right hholes']
      rw [add_comm ((C.cfg .full).entryBytesPerPage : ℤ), add_comm (max 0 _ * _)]
      exact le_phases_iff hgap hes hef hholes'
  · rw [if_pos (by simpa using hlazy)]
    refine ⟨_, rfl, fun n => ?_⟩
    have hnone : ∀ s, (P s).freePhysPages = [] := fun s =>
      ((h.conserved s).eager (show C.lazyCompaction = false by simpa using hlazy)).1
    rw [hfits, le_min_iff, le_min_iff]
    simp only [hnone, List.length_nil, Nat.cast_zero, sub_zero, zero_add]
    refine and_congr_left' (and_congr_left' ?_)
    rw [← mul_add, Int.le_ediv_iff_mul_le (by omega)]
    refine ⟨fun hn => ?_, (mul_le_mul_of_nonneg_right (le_max_right _ _) (by omega)).trans⟩
    rcases le_total 0 n with hpos | hneg
    · rwa [max_eq_right hpos]
    · rwa [max_eq_left hneg, zero_mul]

theorem le_jointAvailableSize_iff (h : PairInv C P) {n : ℤ} :
    n * (C.cfg .full).pageSize ≤ jointAvailableSize C P ↔ JointFits C P n := by
  obtain ⟨k, hk, hfits⟩ := jointAvailableSize_exact h
  rw [hk, ← hfits]
  exact mul_le_mul_iff_left₀ (C.cfg .full).pageSize_pos_int

theorem jointRoom_of_gate (h : PairInv C P)
    (hgate : (n : ℤ) * (C.cfg .full).pageSize ≤ jointAvailableSize C P) : JointRoom C P n := by
  have hfits := (le_jointAvailableSize_iff h).mp hgate
  have hindex : ∀ s, (n : ℤ) ≤ (P s).freePhysPages.length +
      ((C.cfg s).capacity - width (C.cfg s) (P s)) := fun s => by
    have := hfits.index s
    rwa [allocatedPages_eq, max_eq_right (h.conserved s).width_nonneg] at this
  refine ⟨?_, hindex .full, hindex .other⟩
  rw [extension_eq, extension_eq]
  exact hfits.bytes

/-- The full side's own gate lets the request through. -/
theorem JointRoom.full_gate (h : PairInv C P) (hr : JointRoom C P n) :
    (n : ℤ) * (C.cfg .full).pageSize ≤
      availableSize (C.cfg .full) (P .full) (C.peerOf P .full) := by
  have hef := (C.cfg .full).entryBytes_pos
  have hes : (0 : ℤ) ≤ (C.cfg .other).entryBytesPerPage := by positivity
  have hother : (0 : ℤ) ≤ (extension P .other n : ℤ) *
      (C.cfg .other).entryBytesPerPage := mul_nonneg (by positivity) hes
  have hbytes : (extension P .full n : ℤ) ≤
      jointGapBytes C P / ((C.cfg .full).entryBytesPerPage : ℤ) := by
    rw [Int.le_ediv_iff_mul_le hef]
    have := hr.bytes
    omega
  have hext := extension_eq (P := P) .full n
  have hindex := hr.index
  rw [le_availableSize_iff (h.conserved .full), C.gap_eq P .full]
  change _ ≤ min (max 0 ((C.pool.totalBytes : ℤ) -
    reach (C.cfg .full) (P .full) - reach (C.cfg .other) (P .other)) / _) _ + _
  rw [← jointGapBytes_eq]
  have hmin : (n : ℤ) - (P .full).freePhysPages.length ≤
      min (jointGapBytes C P / ((C.cfg .full).entryBytesPerPage : ℤ))
        ((C.cfg .full).capacity - width (C.cfg .full) (P .full)) :=
    le_min (by omega) (by omega)
  omega

/-! ## Bound virtual pages -/

section Bound

variable {c : Config} {a b : Allocator}

theorem FlushSpec.unbound_iff {urgent : Bool} {r : FlushResult}
    (hspec : FlushSpec c a urgent r) (h : Conserved c a) (v : ℤ) :
    r.alloc.virtualToPhysical v = -1 ↔ a.virtualToPhysical v = -1 := by
  obtain ⟨srcs, dsts, hrel⟩ := hspec.relocated
  exact hrel.eq_iff (fun hmem => (h.pool.outside _ hmem).2 rfl) v

theorem FreeSpec.unbound_iff {vs : List ℤ} {moves : List KvMove}
    (hspec : FreeSpec c a vs b moves) (h : Conserved c a) (v : ℤ) :
    b.virtualToPhysical v = -1 ↔ a.virtualToPhysical v = -1 ∨ v ∈ vs := by
  obtain ⟨srcs, dsts, hrel⟩ := hspec.relocated
  rw [hrel.eq_iff (fun hmem => (h.pool.outside _ hmem).2 rfl) v]
  by_cases hv : v ∈ vs
  · simp [fill_of_mem hv, hv]
  · simp [fill_of_notMem hv, hv]

theorem boundState_unbound_iff {vs ps rest ids : List ℤ} {m n : ℕ}
    (h : Conserved c a) (ht : TakenPages c a ps rest m n) (hvs : vs.Nodup)
    (hlen : vs.length = n) (v : ℤ) : (boundState c a vs ps rest ids m n).virtualToPhysical v = -1 ↔
      a.virtualToPhysical v = -1 ∧ v ∉ vs := by
  have hnull : (-1 : ℤ) ∉ ps := by
    intro hmem
    have hunbound := ht.perm_unbound.mem_iff.mp (List.mem_append_right _ hmem)
    rcases List.mem_append.mp hunbound with hold | hnew
    · exact (h.pool.outside _ ((h.pool.mem_iff _).mp hold).1).2 rfl
    · exact (freshPages_outside h ht.room _ hnew).2.2 rfl
  exact scatter_eq_null_iff hvs (hlen.trans ht.length_eq.symm) hnull

end Bound

/-! ## The invariant of shared ids -/

/-- Virtual pages the full side has minted: on its free list or bound. -/
def Minted (a : Allocator) (v : ℤ) : Prop :=
  v ∈ a.freeVirtualIds ∨ (v ≠ 0 ∧ a.virtualToPhysical v ≠ -1)

/-- What holds of the SWA pair besides `PairInv`. -/
structure SwaInv (C : Composite) (P : Pair) : Prop where
  other_ids : (P .other).freeVirtualIds = []
  bound_sub : ∀ v, v ≠ 0 → (P .other).virtualToPhysical v ≠ -1 → (P .full).virtualToPhysical v ≠ -1
  minted_range : ∀ v, Minted (P .full) v →
    ((C.cfg .full).minPageIndex : ℤ) ≤ v ∧ v < (C.cfg .full).numPages

theorem swaInv_clear (hkind : C.kind = .swa) : SwaInv C C.clear where
  other_ids := by
    have hown : (C.cfg .other).isIdOwner = false := by
      show C.isIdOwner .other = false
      simp [Composite.isIdOwner, hkind]
    show (clear (C.cfg .other)).freeVirtualIds = []
    simp [clear, hown]
  bound_sub := by
    intro v hv hbound
    exact absurd (show (clear (C.cfg .other)).virtualToPhysical v = -1 by
      simp [clear, hv]) hbound
  minted_range := by
    rintro v (hv | ⟨hv, hbound⟩)
    · have hown : (C.cfg .full).isIdOwner = true := rfl
      have hmem : v ∈ (clear (C.cfg .full)).freeVirtualIds := hv
      simpa [clear, hown] using hmem
    · exact absurd (show (clear (C.cfg .full)).virtualToPhysical v = -1 by
        simp [clear, hv]) hbound

/-- A change of the full side that mints nothing and unbinds only what the swa
side has released. -/
theorem SwaInv.update_full (h : SwaInv C P) (hminted : ∀ v, Minted b v → Minted (P .full) v)
    (hbound : ∀ v, v ≠ 0 → (P .other).virtualToPhysical v ≠ -1 → b.virtualToPhysical v ≠ -1) :
    SwaInv C (update P .full b) where
  other_ids := h.other_ids
  bound_sub := hbound
  minted_range := fun v hv => h.minted_range v (hminted v hv)

/-- A change of the swa side that binds only what the full side has bound. -/
theorem SwaInv.update_other (h : SwaInv C P) (hids : b.freeVirtualIds = [])
    (hbound : ∀ v, v ≠ 0 → b.virtualToPhysical v ≠ -1 → (P .full).virtualToPhysical v ≠ -1) :
    SwaInv C (update P .other b) where
  other_ids := hids
  bound_sub := hbound
  minted_range := h.minted_range

theorem SwaInv.flush {s : Side} {urgent : Bool} {q : FlushQueries}
    {r : FlushResult} (h : SwaInv C P) (hinv : PairInv C P)
    (held : HeldEventFree (P s) urgent q) (hr : flush (C.cfg s) (P s) urgent q = .ok r) :
    SwaInv C (update P s r.alloc) := by
  have hspec := hinv.flush_spec held hr
  have hiff := hspec.unbound_iff (hinv.conserved s)
  cases s with
  | full =>
    refine h.update_full ?_ ?_
    · rintro v (hv | ⟨hv, hb⟩)
      · exact Or.inl (hspec.ids ▸ hv)
      · exact Or.inr ⟨hv, fun hn => hb ((hiff v).mpr hn)⟩
    · intro v hv hb hn
      exact h.bound_sub v hv hb ((hiff v).mp hn)
  | other =>
    refine h.update_other (hspec.ids.trans h.other_ids) ?_
    intro v hv hb
    exact h.bound_sub v hv fun hn => hb ((hiff v).mpr hn)

theorem SwaInv.free_other {ts : List ℤ} {moves : List KvMove}
    (h : SwaInv C P) (hinv : PairInv C P) (hkind : C.kind = .swa)
    (hts : Freeable (C.cfg .other) (P .other) ts)
    (hf : free (C.cfg .other) (P .other) ts = .ok (a, moves)) :
    SwaInv C (update P .other a) := by
  have hspec := free_spec_of_ok (hinv.conserved .other) hts hf
  have hown : (C.cfg .other).isIdOwner = false := by
    show C.isIdOwner .other = false
    simp [Composite.isIdOwner, hkind]
  refine h.update_other ?_ ?_
  · rw [hspec.ids, recycleVirtual, hown]
    exact h.other_ids
  · intro v hv hb
    refine h.bound_sub v hv fun hn => hb ?_
    exact (hspec.unbound_iff (hinv.conserved .other) v).mpr (Or.inl hn)

theorem SwaInv.free_full {ts : List ℤ} {moves : List KvMove} (h : SwaInv C P) (hinv : PairInv C P)
    (hts : Freeable (C.cfg .full) (P .full) ts) (hreleased : ∀ v ∈ freedVPages (C.cfg .full) ts,
      (P .other).virtualToPhysical v = -1) (hf : free (C.cfg .full) (P .full) ts = .ok (a, moves)) :
    SwaInv C (update P .full a) := by
  have hspec := free_spec_of_ok (hinv.conserved .full) hts hf
  have hiff := hspec.unbound_iff (hinv.conserved .full)
  have hown : (C.cfg .full).isIdOwner = true := rfl
  refine h.update_full ?_ ?_
  · rintro v (hv | ⟨hv, hb⟩)
    · rw [hspec.ids, recycleVirtual, hown, if_pos rfl] at hv
      rcases List.mem_append.mp hv with hv | hv
      · exact Or.inl hv
      · exact Or.inr (hts.pages v hv)
    · exact Or.inr ⟨hv, fun hn => hb ((hiff v).mpr (Or.inl hn))⟩
  · intro v hv hb hn
    rcases (hiff v).mp hn with hold | hmem
    · exact h.bound_sub v hv hb hold
    · exact hb (hreleased v hmem)

/-! ## A joint binding -/

/-- A joint binding of the first `n` free ids of the full side: the request
passes the joint gate, and the sides become `a` and `b`. -/
structure JointBound (C : Composite) (P : Pair) (n : ℕ) (a b : Allocator) :
    Prop where
  gate : (n : ℤ) * (C.cfg .full).pageSize ≤ jointAvailableSize C P
  full : consumeVirtual (C.cfg .full) (P .full) (C.peerOf P .full) n = some a
  other : allocWithVirtual (C.cfg .other) (P .other)
    (some (C.cfg .full, a)) ((P .full).freeVirtualIds.take n) = .ok b

/-- The bytes the full side took are part of the joint budget, so the swa side
still has its own share. -/
theorem JointRoom.other_room {peer : Peer} (hinv : PairInv C P) (hroom : JointRoom C P n)
    (ha : consumeVirtual (C.cfg .full) (P .full) peer n = some a) :
    GapRoom C (update P .full a) .other (n - (P .other).freePhysPages.length) := by
  have hfull := hinv.conserved .full
  have henough := ids_length_of_gate hfull rfl (hroom.full_gate hinv)
  obtain ⟨m, ps, rest, rfl, ht⟩ := consumeVirtual_spec hfull henough ha
  set a := boundState (C.cfg .full) (P .full)
    ((P .full).freeVirtualIds.take n) ps rest
    ((P .full).freeVirtualIds.drop n) m n
  have hreach : reach (C.cfg .full) a = reach (C.cfg .full) (P .full) +
      (extension P .full n : ℤ) * (C.cfg .full).entryBytesPerPage := by
    have hsub := reach_sub (C.cfg .full) (P .full) a
    have hwidth : width (C.cfg .full) a = width (C.cfg .full) (P .full) + m := width_advanced m
    rw [hwidth, ht.extension, add_sub_cancel_left] at hsub
    unfold extension
    omega
  by_cases hzero : extension P .other n = 0
  · exact Or.inl hzero
  · right
    have hbytes := hroom.bytes
    have hes := (C.cfg .other).entryBytes_pos
    have hpos : (0 : ℤ) < (extension P .other n : ℤ) *
        (C.cfg .other).entryBytesPerPage := mul_pos (by omega) hes
    have hnonneg : (0 : ℤ) ≤ (extension P .full n : ℤ) *
        (C.cfg .full).entryBytesPerPage := by positivity
    rw [jointGapBytes_eq] at hbytes
    show reach (C.cfg .other) (P .other) + (extension P .other n : ℤ) *
      (C.cfg .other).entryBytesPerPage + reach (C.cfg .full) a ≤ _
    rw [hreach]
    omega

theorem joint_bind (hinv : PairInv C P) (h : SwaInv C P) (hbind : JointBound C P n a b) :
    Chain C .bind P (update (update P .full a) .other b) [] ∧
      SwaInv C (update (update P .full a) .other b) := by
  obtain ⟨hjoint, ha, hb⟩ := hbind
  have hroom := jointRoom_of_gate hinv hjoint
  have hgate := hroom.full_gate hinv
  have hfull := hinv.conserved .full
  have henough := ids_length_of_gate hfull rfl hgate
  have hlen : ((P .full).freeVirtualIds.take n).length = n := by simp [henough]
  have hnodup := hfull.ids_nodup.sublist (List.take_sublist n (P .full).freeVirtualIds)
  have hsub : ∀ v ∈ (P .full).freeVirtualIds.take n,
      v ∈ (P .full).freeVirtualIds := fun v hv => List.mem_of_mem_take hv
  have hstep := SideStep.consume henough (gapRoom_of_gate hinv hgate) ha
  have hroomOther := hroom.other_room hinv ha
  obtain ⟨m, ps, rest, rfl, ht⟩ := consumeVirtual_spec hfull henough ha
  set a := boundState (C.cfg .full) (P .full)
    ((P .full).freeVirtualIds.take n) ps rest
    ((P .full).freeVirtualIds.drop n) m n with ha_def
  have hbound : ∀ v, a.virtualToPhysical v = -1 ↔
      (P .full).virtualToPhysical v = -1 ∧ v ∉ (P .full).freeVirtualIds.take n :=
    boundState_unbound_iff hfull ht hnodup hlen
  have hminted : ∀ v, Minted a v → Minted (P .full) v := by
    rintro v (hv | ⟨hv, hne⟩)
    · exact Or.inl (List.mem_of_mem_drop hv)
    · by_cases hmem : v ∈ (P .full).freeVirtualIds.take n
      · exact Or.inl (hsub v hmem)
      · exact Or.inr ⟨hv, fun hn => hne ((hbound v).mpr ⟨hn, hmem⟩)⟩
  have hswa₁ : SwaInv C (update P .full a) :=
    h.update_full hminted fun v hv hne hn => h.bound_sub v hv hne ((hbound v).mp hn).1
  have hunbound : ∀ v ∈ (P .full).freeVirtualIds.take n,
      (P .other).virtualToPhysical v = -1 := by
    intro v hv
    by_contra hne
    have hpos := hfull.ids_pos v (hsub v hv)
    exact h.bound_sub v (by omega) hne (hfull.ids_unbound v (hsub v hv))
  have hstep' : SideStep C (update P .full a) .bind _ [] :=
    SideStep.adopt hnodup (fun v hv => hfull.ids_pos v (hsub v hv)) hunbound
      h.other_ids (hlen.symm ▸ hroomOther) hb
  refine ⟨Chain.cons hstep (Chain.single hstep'), ?_⟩
  obtain ⟨m', ps', rest', rfl, ht'⟩ := allocWithVirtual_spec (hinv.conserved .other) hb
  refine hswa₁.update_other h.other_ids ?_
  intro v hv hne hn
  obtain ⟨hold, hmem⟩ := (hbound v).mp hn
  refine hne ((boundState_unbound_iff (hinv.conserved .other) ht' hnodup rfl v).mpr ⟨?_, hmem⟩)
  by_contra hother
  exact h.bound_sub v hv hother hold

end Sglang.MultiEnded
