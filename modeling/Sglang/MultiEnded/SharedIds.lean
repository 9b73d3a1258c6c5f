import Sglang.MultiEnded.ByteDisjoint

/-!
# Ids shared by the two sides of the SWA pair

The full side mints virtual pages from its own page count, and the swa side
binds the same pages in a table sized by its page count. Freed ids go to the
back of the free list, so a run that allocates and frees one page at a time
visits every id: the table of the swa side is respected by every run exactly
when it is at least as long as the one of the full side, or when no page can
ever be allocated.
-/

namespace Sglang.MultiEnded

open Sglang.Support Sglang.PagedAlloc Sglang.UnifiedPool List Function

variable {C : Composite} {P : Pair} {c : Config} {a : Allocator} {n : ℕ}

/-- Every virtual page bound on the swa side is a row of its table in front of
the sentinel. -/
def SwaIdsInTable (C : Composite) (P : Pair) : Prop :=
  ∀ v, v ≠ 0 → (P .other).virtualToPhysical v ≠ -1 → v < (C.cfg .other).numPages

/-! ## Allocations that fit succeed -/

theorem extendWatermark_succeeds {s : Side} {m : ℕ}
    (hroom : reach (C.cfg s) (P s) + m * (C.cfg s).entryBytesPerPage +
      reach (C.cfg s.peer) (P s.peer) ≤ C.pool.totalBytes)
    (hindex : width (C.cfg s) (P s) + m ≤ (C.cfg s).capacity) :
    ∃ a, extendWatermark (C.cfg s) (P s) (C.peerOf P s) m = some a := by
  have he := (C.cfg s).entryBytes_pos
  have hpeer := C.direction_peer s
  have htotal : (C.cfg s.peer).totalBytes = C.pool.totalBytes := rfl
  have htotal' : (C.cfg s).totalBytes = C.pool.totalBytes := rfl
  unfold reach at hroom
  unfold width Config.depth Config.capacity at hindex
  unfold extendWatermark Composite.peerOf
  cases hd : (C.cfg s).growDirection with
  | up =>
    simp only [hd, hpeer, GrowDirection.flip, htotal, byteHighFrontier]
      at hroom hindex ⊢
    have hbytes : (P s).watermarkPhysical + m ≤
        byteLowFrontier (C.cfg s.peer) (P s.peer) / ((C.cfg s).entryBytesPerPage : ℤ) := by
      rw [Int.le_ediv_iff_mul_le he, add_mul]
      omega
    rw [if_neg (by omega), if_neg (by simpa using hbytes)]
    exact ⟨_, rfl⟩
  | down =>
    simp only [hd, hpeer, GrowDirection.flip, htotal', byteLowFrontier]
      at hroom hindex ⊢
    have hbytes : byteHighFrontier (C.cfg s.peer) (P s.peer) /
        ((C.cfg s).entryBytesPerPage : ℤ) ≤ (P s).watermarkPhysical - m + 1 := by
      refine Int.ediv_le_of_le_mul he ?_
      have hexpand : ((P s).watermarkPhysical - m + 1) *
          ((C.cfg s).entryBytesPerPage : ℤ) =
          ((P s).watermarkPhysical + 1) * (C.cfg s).entryBytesPerPage -
            m * (C.cfg s).entryBytesPerPage := by ring
      omega
    rw [if_neg (by omega), if_neg (by simpa using hbytes)]
    exact ⟨_, rfl⟩

theorem extendWatermarkEager_succeeds {m : ℕ} (hindex : width c a + m ≤ c.capacity) :
    ∃ b, extendWatermarkEager c a m = some b := by
  unfold width Config.depth Config.capacity at hindex
  unfold extendWatermarkEager
  cases hd : c.growDirection with
  | up =>
    simp only [hd] at hindex
    exact ⟨_, if_neg (by omega)⟩
  | down =>
    simp only [hd] at hindex
    exact ⟨_, if_neg (by omega)⟩

/-- Binding pages that fit the gap and the index space succeeds. -/
theorem allocBind_succeeds {s : Side} (hinv : PairInv C P)
    (vs : List ℤ) (hroom : GapRoom C P s (n - (P s).freePhysPages.length))
    (hindex : (n : ℤ) ≤ (P s).freePhysPages.length + ((C.cfg s).capacity - width (C.cfg s) (P s))) :
    ∃ a, allocBindFastOrSlow (C.cfg s) (P s) (C.peerOf P s) vs n = some a := by
  have hextend : n - (P s).freePhysPages.length ≠ 0 → ∃ a, extendWatermark
      (C.cfg s) (P s) (C.peerOf P s) (n - (P s).freePhysPages.length) = some a := by
    intro hm
    rcases hroom with hzero | hbytes
    · exact absurd hzero hm
    · exact extendWatermark_succeeds hbytes (by omega)
  unfold allocBindFastOrSlow
  by_cases hn : n = 0
  · exact ⟨_, if_pos hn⟩
  rw [if_neg hn]
  by_cases hfast : ¬ (C.cfg s).lazyCompaction ∨ (P s).freePhysPages = []
  · have hfree : (P s).freePhysPages = [] := by
      rcases hfast with hlazy | hfree
      · exact ((hinv.conserved s).eager (by simpa using hlazy)).1
      · exact hfree
    rw [hfree] at hextend
    rw [hfree, length_nil] at hindex
    have hext : ∃ a, (if (C.cfg s).lazyCompaction = true then
        extendWatermark (C.cfg s) (P s) (C.peerOf P s) n
        else extendWatermarkEager (C.cfg s) (P s) n) = some a := by
      by_cases hlazy : (C.cfg s).lazyCompaction = true
      · rw [if_pos hlazy]
        exact hextend hn
      · rw [if_neg hlazy]
        exact extendWatermarkEager_succeeds (by omega)
    obtain ⟨a, ha⟩ := hext
    rw [if_pos hfast]
    simp only [ha]
    exact ⟨_, rfl⟩
  · rw [if_neg hfast]
    have hmore : n - min n (P s).freePhysPages.length = n - (P s).freePhysPages.length := by omega
    have htake : ∃ b, takePhysicalPages (C.cfg s) (P s) (C.peerOf P s) n =
        some b := by
      unfold takePhysicalPages
      dsimp only
      rw [hmore]
      by_cases hpos : n - (P s).freePhysPages.length > 0
      · obtain ⟨a, ha⟩ := hextend (by omega)
        simp only [if_pos hpos, ha]
        exact ⟨_, rfl⟩
      · simp only [if_neg hpos]
        exact ⟨_, rfl⟩
    obtain ⟨⟨a, ps⟩, hb⟩ := htake
    simp only [hb]
    exact ⟨_, rfl⟩

/-- A request within the joint budget is bound on both sides. -/
theorem jointBound_of_gate (hinv : PairInv C P)
    (hgate : (n : ℤ) * (C.cfg .full).pageSize ≤ jointAvailableSize C P) :
    ∃ a b, JointBound C P n a b := by
  have hroom := jointRoom_of_gate hinv hgate
  have hfull := hroom.full_gate hinv
  obtain ⟨a₁, ha₁⟩ := allocBind_succeeds hinv
    ((P .full).freeVirtualIds.take n) (gapRoom_of_gate hinv hfull) hroom.index
  have ha : consumeVirtual (C.cfg .full) (P .full) (C.peerOf P .full) n =
      some { a₁ with freeVirtualIds := (P .full).freeVirtualIds.drop n } := by
    simp [consumeVirtual, ha₁]
  set a : Allocator :=
    { a₁ with freeVirtualIds := (P .full).freeVirtualIds.drop n }
  have henough := ids_length_of_gate (hinv.conserved .full) rfl hfull
  have hlen : ((P .full).freeVirtualIds.take n).length = n := by simp [henough]
  have hinv₁ : PairInv C (update P .full a) :=
    hinv.sideStep (SideStep.consume henough (gapRoom_of_gate hinv hfull) ha)
  obtain ⟨b, hb⟩ := allocBind_succeeds hinv₁
    ((P .full).freeVirtualIds.take n) (hroom.other_room hinv ha)
    hroom.indexOther
  refine ⟨a, b, hgate, ha, allocWithVirtual_eq_ok_iff.mpr ?_⟩
  rw [hlen]
  exact hb

/-- `alloc` of whole pages within the joint budget. -/
theorem jointAlloc_bound {b : Allocator} (q : FlushQueries)
    (hinv : PairInv C P) (hbound : JointBound C P n a b) :
    jointAlloc C P (n * (C.cfg .full).pageSize) q = .ok ⟨update (update P .full a) .other b, [],
      some (expandPages (C.cfg .full).pageSize ((P .full).freeVirtualIds.take n))⟩ := by
  have hps := (C.cfg .full).pageSize_pos
  have hgate : ((n * (C.cfg .full).pageSize : ℕ) : ℤ) ≤ jointAvailableSize C P := by
    exact_mod_cast hbound.gate
  have hfull : ((n * (C.cfg .full).pageSize : ℕ) : ℤ) ≤
      availableSize (C.cfg .full) (P .full) (C.peerOf P .full) := by
    exact_mod_cast (jointRoom_of_gate hinv hbound.gate).full_gate hinv
  have hconsume := hbound.full
  have halloc : alloc (C.cfg .full) (P .full) (C.peerOf P .full)
      (n * (C.cfg .full).pageSize) q = .ok ⟨a, some (P .other), [],
        some (expandPages (C.cfg .full).pageSize ((P .full).freeVirtualIds.take n))⟩ := by
    by_cases hn : n = 0
    · subst hn
      obtain rfl := Option.some.inj hconsume
      simp [alloc, expandPages, Composite.peerOf, Side.peer,
        show (C.cfg .full).isIdOwner = true from rfl]
    · exact alloc_of_gate rfl hn (capacityGate_pass hfull) hconsume
  unfold jointAlloc jointWith jointGate
  rw [if_neg (not_lt.mpr hgate), Nat.mul_div_cancel n hps]
  simp only [halloc, storeAlloc, bindSwa, Option.getD_some]
  have hother := hbound.other
  simp only [Composite.peerOf, Side.peer, update_self,
    update_of_ne (show Side.other ≠ Side.full by decide), hother,
    nil_append, labelled, map_nil, update_eq_self]

/-! ## States with nothing bound -/

/-- Without bound pages the whole band is unbound. -/
theorem Conserved.length_unbound (h : Conserved c a)
    (hnone : ∀ v, v ≠ 0 → a.virtualToPhysical v = -1) :
    ((unboundPages a).length : ℤ) = width c a := by
  have hbound : ((bandPages c a).filter fun p => BoundPage a p) = [] := by
    rw [filter_eq_nil_iff]
    intro p hp hbp
    obtain ⟨hpos, hne⟩ : BoundPage a p := by simpa using hbp
    have hinverse := h.pool.inverse.right hne
    by_cases hzero : a.physicalToVirtual p = 0
    · rw [hzero] at hinverse
      have := h.band_pos (mem_bandPages.mp hp)
      have := h.sink
      omega
    · rw [hnone _ hzero] at hinverse
      have := h.band_pos (mem_bandPages.mp hp)
      omega
  have hlen := h.length_bound
  rw [hbound, heldPages] at hlen
  simp only [length_nil, Nat.cast_zero] at hlen
  omega

/-- An empty band has no hole. -/
theorem Conserved.free_nil (h : Conserved c a) (hzero : width c a = 0) : a.freePhysPages = [] := by
  rw [eq_nil_iff_forall_not_mem]
  intro p hp
  have hmem := ((h.pool.mem_iff p).mp (mem_append_left _ hp)).1
  rw [mem_band_iff] at hmem
  omega

theorem Conserved.unbound_of_empty
    (h : Conserved c a) (hzero : width c a = 0) {v : ℤ} (hv : v ≠ 0) :
    a.virtualToPhysical v = -1 := by
  by_contra hne
  have hmem := h.physical_mem_band hv hne
  rw [mem_band_iff] at hmem
  omega

/-- The joint budget of a pair with two empty bands is the initial one. -/
theorem jointAvailableSize_of_empty (hinv : PairInv C P) (hzero : ∀ s, width (C.cfg s) (P s) = 0) :
    jointAvailableSize C P = jointAvailableSize C C.clear := by
  have hgap : jointGapBytes C P = jointGapBytes C C.clear := by
    have hreach : ∀ s, reach (C.cfg s) (P s) =
        reach (C.cfg s) (C.clear s) := fun s => reach_of_width_zero (hzero s)
    rw [jointGapBytes_eq, jointGapBytes_eq, hreach, hreach]
  have hpages : ∀ s, allocatedPages (C.cfg s) (P s) =
      allocatedPages (C.cfg s) (C.clear s) := fun s => by
    rw [allocatedPages_eq, allocatedPages_eq, hzero s]
    exact congrArg (max 0) (width_clear (C.cfg s)).symm
  have hfree : ∀ s, (P s).freePhysPages = (C.clear s).freePhysPages := fun s =>
    (hinv.conserved s).free_nil (hzero s)
  unfold jointAvailableSize
  simp [hgap, hpages, hfree]

/-- Holes on both sides are enough for one page. -/
theorem page_le_jointAvailableSize_of_holes (hinv : PairInv C P)
    (hholes : ∀ s, 1 ≤ (P s).freePhysPages.length) :
    ((1 : ℕ) : ℤ) * (C.cfg .full).pageSize ≤ jointAvailableSize C P := by
  have hzero : ∀ s, max 0 (((1 : ℕ) : ℤ) - (P s).freePhysPages.length) = 0 := fun s => by
    have := hholes s
    omega
  refine (le_jointAvailableSize_iff hinv).mpr ⟨?_, fun s => ?_⟩
  · rw [hzero, hzero, zero_mul, zero_mul]
    exact jointGapBytes_nonneg
  · obtain ⟨p, hp⟩ := exists_mem_of_length_pos (hholes s)
    have hmem := (((hinv.conserved s).pool.mem_iff p).mp (mem_append_left _ hp)).1
    have hle := (hinv.conserved s).width_le_of_mem hmem
    have := hholes s
    rw [allocatedPages_eq, max_eq_right (hinv.conserved s).width_nonneg]
    unfold Config.capacity at hle
    omega

/-! ## Rounds of one allocation and one free -/

/-- Nothing is bound, and the free ids of the full side have been rotated `k`
times. -/
structure Idle (C : Composite) (k : ℕ) (P : Pair) : Prop where
  run : SettledRun C P
  quiet : Quiet P
  unbound : ∀ s v, v ≠ 0 → (P s).virtualToPhysical v = -1
  ids : (P .full).freeVirtualIds =
    (pageRange (C.cfg .full).minPageIndex (C.cfg .full).numPages).rotate k
  bands : (∀ s, width (C.cfg s) (P s) = 0) ∨
    (C.lazyCompaction = true ∧ ∀ s, 1 ≤ width (C.cfg s) (P s))

theorem idle_clear : Idle C 0 C.clear where
  run := ForwardRun.clear
  quiet := fun _ => ⟨rfl, rfl⟩
  unbound := fun s v hv => by
    show (clear (C.cfg s)).virtualToPhysical v = -1
    simp [clear, hv]
  ids := by rw [rotate_zero]; rfl
  bands := Or.inl fun s => width_clear (C.cfg s)

section Round

variable {k : ℕ}

theorem Idle.holes (h : Idle C k P) (s : Side) :
    ((P s).freePhysPages.length : ℤ) = width (C.cfg s) (P s) := by
  have hinv := h.run.inv.pair
  have hlen := (hinv.conserved s).length_unbound (h.unbound s)
  rwa [unboundPages, pendingPages, (h.quiet s).2, flatMap_nil, append_nil] at hlen

/-- One page can be allocated in every idle state if it can be initially. -/
theorem Idle.gate (h : Idle C k P)
    (hclear : ((C.cfg .full).pageSize : ℤ) ≤ jointAvailableSize C C.clear) :
    ((1 : ℕ) : ℤ) * (C.cfg .full).pageSize ≤ jointAvailableSize C P := by
  have hinv := h.run.inv.pair
  rcases h.bands with hzero | ⟨-, hwidth⟩
  · rw [jointAvailableSize_of_empty hinv hzero, Nat.cast_one, one_mul]
    exact hclear
  · refine page_le_jointAvailableSize_of_holes hinv fun s => ?_
    have := h.holes s
    have := hwidth s
    omega

/-- Binding one page in an idle state binds the head of the free ids on both
sides, and widens the bands to at least one page. -/
theorem Idle.bound {a b : Allocator} {v : ℤ} {rest : List ℤ}
    (h : Idle C k P) (hbound : JointBound C P 1 a b) (hids : (P .full).freeVirtualIds = v :: rest) :
    (∀ w, w ≠ 0 → (a.virtualToPhysical w = -1 ↔ w ≠ v)) ∧
      (∀ w, w ≠ 0 → (b.virtualToPhysical w = -1 ↔ w ≠ v)) ∧
      a.freeVirtualIds = rest ∧ 1 ≤ width (C.cfg .full) a ∧ 1 ≤ width (C.cfg .other) b := by
  have hinv := h.run.inv.pair
  obtain ⟨hgate, ha, hb⟩ := hbound
  have htake : (P .full).freeVirtualIds.take 1 = [v] := by rw [hids]; rfl
  rw [htake] at hb
  have henough : 1 ≤ (P .full).freeVirtualIds.length := by rw [hids]; simp
  obtain ⟨m, ps, left, rfl, ht⟩ := consumeVirtual_spec (hinv.conserved .full) henough ha
  obtain ⟨m', ps', left', rfl, ht'⟩ := allocWithVirtual_spec (hinv.conserved .other) hb
  refine ⟨?_, ?_, ?_, ?_, ?_⟩
  · intro w hw
    rw [htake, boundState_unbound_iff (hinv.conserved .full) ht (nodup_singleton v) rfl]
    simp [h.unbound .full w hw]
  · intro w hw
    rw [boundState_unbound_iff (hinv.conserved .other) ht' (nodup_singleton v) rfl]
    simp [h.unbound .other w hw]
  · rw [hids]
    rfl
  · have hwidth : width (C.cfg .full) _ = width (C.cfg .full) (P .full) + m :=
      width_advanced m
    have hext := ht.extension
    have hholes := h.holes .full
    rw [show width (C.cfg .full) (boundState (C.cfg .full) (P .full) _ ps left
      _ m 1) = _ from hwidth]
    omega
  · have hwidth : width (C.cfg .other) _ =
        width (C.cfg .other) (P .other) + m' := width_advanced m'
    have hext := ht'.extension
    have hholes := h.holes .other
    rw [show width (C.cfg .other) (boundState (C.cfg .other) (P .other) _ ps'
      left' _ m' _) = _ from hwidth]
    simp only [length_singleton] at hext
    omega

theorem freedVPages_singleton (c : Config) (v : ℤ) : freedVPages c [v * c.pageSize] = [v] := by
  have hps : (c.pageSize : ℤ) ≠ 0 := c.pageSize_pos_int.ne'
  unfold freedVPages
  by_cases hone : c.lazyCompaction = true ∧ c.pageSize = 1
  · rw [if_pos hone, hone.2]
    simp
  · rw [if_neg hone]
    simp [uniquePages, sortPages, Int.mul_ediv_cancel v hps]

/-- One round: the head of the free ids is bound on both sides and freed. -/
theorem Idle.round {v : ℤ} {rest : List ℤ} (hkind : C.kind = .swa) (h : Idle C k P)
    (hclear : ((C.cfg .full).pageSize : ℤ) ≤ jointAvailableSize C C.clear)
    (hids : (P .full).freeVirtualIds = v :: rest) :
    (∃ Q, SettledRun C Q ∧ (Q .other).virtualToPhysical v ≠ -1) ∧ ∃ Q, Idle C (k + 1) Q := by
  have hinv := h.run.inv.pair
  have hv : 0 < v := (hinv.conserved .full).ids_pos v (by rw [hids]; simp)
  obtain ⟨a, b, hbound⟩ := jointBound_of_gate hinv (h.gate hclear)
  have halloc := jointAlloc_bound unfired hinv hbound
  rw [Nat.one_mul] at halloc
  obtain ⟨ha, hb, hrest, hwa, hwb⟩ := h.bound hbound hids
  set Q : Pair := update (update P .full a) .other b with hQ
  have hlegal : (PairOp.jointAlloc (C.cfg .full).pageSize unfired).Legal C P := hkind
  have hrun : SettledRun C Q := h.run.step hlegal trivial halloc
  have hquiet : Quiet Q := h.quiet.step h.run.inv hlegal halloc
  have hva : (Q .full).virtualToPhysical v ≠ -1 := fun hn => (ha v hv.ne').mp hn rfl
  have hvb : (Q .other).virtualToPhysical v ≠ -1 := fun hn => (hb v hv.ne').mp hn rfl
  refine ⟨⟨Q, hrun, hvb⟩, ?_⟩
  have hinvQ := hrun.inv.pair
  have hpage : v * ((C.cfg .full).pageSize : ℤ) /
      ((C.cfg .full).pageSize : ℤ) = v :=
    Int.mul_ediv_cancel v (C.cfg .full).pageSize_pos_int.ne'
  have hts : Freeable (C.cfg .full) (Q .full)
      [v * ((C.cfg .full).pageSize : ℤ)] :=
    { bound := by
        intro t ht
        rw [mem_singleton.mp ht, hpage]
        exact ⟨hv.ne', hva⟩
      unique := fun _ _ => nodup_singleton _ }
  obtain ⟨a', b', moves, hfree, ⟨mb, hspecb⟩, ⟨ma, hspeca⟩, -⟩ :=
    jointFree_spec hinvQ (hrun.inv.swa hkind) hkind hts
  have hlegal' : (PairOp.jointFree [v * ((C.cfg .full).pageSize : ℤ)]).Legal C Q := ⟨hkind, hts⟩
  have hrun' : SettledRun C (update (update Q .other b') .full a') :=
    hrun.step hlegal' trivial hfree
  rw [freedVPages_singleton] at hspeca
  have hvfree : v ∈ freedVPages (C.cfg .other)
      (liveSwa C Q [v * ((C.cfg .full).pageSize : ℤ)]) :=
    mem_freed_liveSwa hinvQ hkind hv.ne' (by rw [freedVPages_singleton]; simp) hvb
  have hunbound : ∀ s w, w ≠ 0 →
      (update (update Q .other b') .full a' s).virtualToPhysical w = -1 := by
    intro s w hw
    cases s with
    | full =>
      show a'.virtualToPhysical w = -1
      rw [hspeca.unbound_iff (hinvQ.conserved .full), mem_singleton]
      by_cases hwv : w = v
      · exact Or.inr hwv
      · exact Or.inl ((ha w hw).mpr hwv)
    | other =>
      show b'.virtualToPhysical w = -1
      rw [hspecb.unbound_iff (hinvQ.conserved .other)]
      by_cases hwv : w = v
      · exact Or.inr (hwv ▸ hvfree)
      · exact Or.inl ((hb w hw).mpr hwv)
  refine ⟨_, hrun', hquiet.step hrun.inv hlegal' hfree, hunbound, ?_, ?_⟩
  · show a'.freeVirtualIds = _
    rw [hspeca.ids, ← rotate_rotate, ← h.ids, hids]
    show a.freeVirtualIds ++ [v] = _
    rw [hrest, rotate_cons_succ, rotate_zero]
  · by_cases hlazy : C.lazyCompaction = true
    · refine Or.inr ⟨hlazy, fun s => ?_⟩
      cases s with
      | full => exact hwa.trans (hspeca.width_lazy hlazy).ge
      | other => exact hwb.trans (hspecb.width_lazy hlazy).ge
    · -- Eager compaction leaves no hole, so nothing of the band remains.
      left
      intro s
      have hinv' := hrun'.inv.pair
      have hlen := (hinv'.conserved s).length_unbound (hunbound s)
      have heager : (C.cfg s).lazyCompaction = false := by
        show C.lazyCompaction = false
        simpa using hlazy
      obtain ⟨hfree', hpending⟩ := (hinv'.conserved s).eager heager
      rw [unboundPages, pendingPages, hfree', hpending] at hlen
      exact hlen.symm

/-- Every number of rounds can be run. -/
theorem exists_idle (hkind : C.kind = .swa)
    (hclear : ((C.cfg .full).pageSize : ℤ) ≤ jointAvailableSize C C.clear)
    (k : ℕ) : ∃ P, Idle C k P := by
  induction k with
  | zero => exact ⟨_, idle_clear⟩
  | succ k ih =>
    obtain ⟨P, h⟩ := ih
    have hinv := h.run.inv.pair
    have hroom := jointRoom_of_gate hinv (h.gate hclear)
    have henough := ids_length_of_gate (hinv.conserved .full) rfl (hroom.full_gate hinv)
    cases hids : (P .full).freeVirtualIds with
    | nil => simp [hids] at henough
    | cons v rest => exact (h.round hkind hclear hids).2

/-- After `k` rounds the next id is `min_page_index + k`. -/
theorem Idle.next_id (h : Idle C k P)
    (hk : (C.cfg .full).minPageIndex + k < (C.cfg .full).numPages) :
    ∃ rest, (P .full).freeVirtualIds = ((C.cfg .full).minPageIndex + k : ℤ) :: rest := by
  have hlen : k < (pageRange (C.cfg .full).minPageIndex
      (C.cfg .full).numPages).length := by
    rw [length_pageRange]
    omega
  have hhead : (P .full).freeVirtualIds.head? =
      some ((C.cfg .full).minPageIndex + k : ℤ) := by
    rw [h.ids, List.head?_rotate hlen]
    unfold pageRange
    rw [List.getElem?_map, List.getElem?_range (by omega)]
    rfl
  exact List.head?_eq_some_iff.mp hhead

end Round

/-! ## Pairs that never allocate -/

/-- Both bands are empty. -/
def Barren (C : Composite) (P : Pair) : Prop := ∀ s, width (C.cfg s) (P s) = 0

theorem NoWider.barren {Q : Pair} (h : NoWider C P Q) (hinv : PairInv C Q)
    (hP : Barren C P) : Barren C Q := by
  intro s
  have := h s
  have := hP s
  have := (hinv.conserved s).width_nonneg
  omega

theorem barren_jointWith {need : ℤ} {q : FlushQueries}
    {allocFull : Pair → Except AllocError AllocResult} {out : PairResult}
    (hinv : PairInv C P) (h : SwaInv C P)
    (hclear : jointAvailableSize C C.clear < (C.cfg .full).pageSize)
    (hP : Barren C P) (hreq : FullRequest C n need allocFull)
    (hout : jointWith C P n need q allocFull = .ok out) : Barren C out.state := by
  obtain ⟨Q, ⟨hchain, hwider⟩, heq | ⟨a, b, hbound, heq⟩⟩ := jointWith_cases hinv h hreq hout
  · rw [heq]
    exact hwider.barren (hinv.chain hchain.chain) hP
  · have hinvQ := hinv.chain hchain.chain
    have hQ := hwider.barren hinvQ hP
    obtain ⟨hgate, ha, hb⟩ := hbound
    rw [jointAvailableSize_of_empty hinvQ hQ] at hgate
    have hn : n = 0 := by
      by_contra hne
      have hle : ((C.cfg .full).pageSize : ℤ) ≤
          (n : ℤ) * (C.cfg .full).pageSize :=
        le_mul_of_one_le_left (by positivity) (by omega)
      omega
    subst hn
    obtain rfl : Q .full = a := Option.some.inj ha
    obtain rfl : Q .other = b := Except.ok.inj hb
    rw [heq, update_eq_self, update_eq_self]
    exact hQ

theorem barren_step {op : PairOp} {r : PairResult} (hkind : C.kind = .swa)
    (hclear : jointAvailableSize C C.clear < (C.cfg .full).pageSize)
    (hinv : RunInv C P) (hP : Barren C P) (hlegal : op.Legal C P) (hsettled : op.Settled P)
    (hstep : op.step C P = .ok r) : Barren C r.state := by
  have hpair := (hinv.step hlegal hsettled hstep).2.pair
  cases op with
  | alloc s n q => exact absurd hkind hlegal
  | allocExtend s reqs q => exact absurd hkind hlegal
  | allocDecode s reqs q => exact absurd hkind hlegal
  | free s ts => exact absurd hkind hlegal.1
  | jointAlloc n q =>
    exact barren_jointWith hinv.pair (hinv.swa hkind) hclear hP (fullRequest_alloc C n q) hstep
  | jointAllocExtend reqs q =>
    exact barren_jointWith hinv.pair (hinv.swa hkind) hclear hP (fullRequest_paged C _ _ _ q) hstep
  | jointAllocDecode reqs q =>
    exact barren_jointWith hinv.pair (hinv.swa hkind) hclear hP (fullRequest_paged C _ _ _ q) hstep
  | jointFree ts =>
    obtain ⟨a, b, moves, heq, ⟨mb, hb⟩, ⟨ma, ha⟩, -⟩ :=
      jointFree_spec hinv.pair (hinv.swa hkind) hkind hlegal.2
    have hr : MultiEnded.jointFree C P ts = .ok r := hstep
    rw [heq] at hr
    obtain rfl := Except.ok.inj hr
    have hfirst : NoWider C P (update P .other b) := noWider_update hb.width_le
    have hsecond : NoWider C (update P .other b) _ := noWider_update ha.width_le
    exact (hfirst.trans hsecond).barren hpair hP
  | freeSwa ts =>
    obtain ⟨b, moves, heq, hb, -⟩ := freeSwa_spec hinv.pair (hinv.swa hkind) hkind hlegal.2
    have hr : MultiEnded.freeSwa C P ts = .ok r := hstep
    rw [heq] at hr
    obtain rfl := Except.ok.inj hr
    exact (noWider_update hb.width_le).barren hpair hP
  | flush s urgent q => exact (noWider_flush hinv.pair hsettled hstep).barren hpair hP

theorem ForwardRun.barren (hkind : C.kind = .swa)
    (hclear : jointAvailableSize C C.clear < (C.cfg .full).pageSize)
    (hrun : SettledRun C P) : Barren C P := by
  induction hrun with
  | clear => exact fun s => width_clear (C.cfg s)
  | step hrun hlegal hsettled hstep ih =>
    exact barren_step hkind hclear hrun.inv ih hlegal hsettled hstep
  | record hrun hrec hstep ih =>
    exact (noWider_update (hrec.sameBindings hstep).width.le).barren
      (hrun.inv.record hrec hstep).pair ih

/-! ## The table of the swa side -/

/-- If the full side has more pages and a page can be allocated at all, the ids
come to one at or past the end of the swa table. -/
theorem exists_idle_past (hkind : C.kind = .swa)
    (hpages : (C.cfg .other).numPages < (C.cfg .full).numPages)
    (hclear : ((C.cfg .full).pageSize : ℤ) ≤ jointAvailableSize C C.clear) :
    ∃ k P, Idle C k P ∧ ∃ v rest, (P .full).freeVirtualIds = v :: rest ∧
      ((C.cfg .other).numPages : ℤ) ≤ v := by
  have hcapacity : (C.cfg .full).minPageIndex < (C.cfg .full).numPages := by
    have hroom := jointRoom_of_gate pairInv_clear (idle_clear.gate hclear)
    have hindex := hroom.index
    have hw : width (C.cfg .full) (C.clear .full) = 0 := width_clear _
    have hf : (C.clear .full).freePhysPages = [] := rfl
    rw [hf, length_nil] at hindex
    unfold Config.capacity at hindex
    omega
  have hle := le_max_left (C.cfg .full).minPageIndex (C.cfg .other).numPages
  obtain ⟨k, hk⟩ := Nat.exists_eq_add_of_le hle
  obtain ⟨P, h⟩ := exists_idle hkind hclear k
  obtain ⟨rest, hids⟩ := h.next_id (by omega)
  exact ⟨k, P, h, _, rest, hids, by omega⟩

/-- The swa binding stays inside its table in every run exactly when the full
side has at most as many pages, or no page can ever be allocated. -/
theorem swaIdsInTable_iff (hkind : C.kind = .swa) : (∀ P, SettledRun C P → SwaIdsInTable C P) ↔
      (C.cfg .full).numPages ≤ (C.cfg .other).numPages ∨
        jointAvailableSize C C.clear < (C.cfg .full).pageSize := by
  constructor
  · intro hall
    by_contra hnot
    rw [not_or, not_le, not_lt] at hnot
    obtain ⟨k, P, h, v, rest, hids, hv⟩ := exists_idle_past hkind hnot.1 hnot.2
    obtain ⟨⟨Q, hrun, hbound⟩, -⟩ := h.round hkind hnot.2 hids
    have hpos := (h.run.inv.pair.conserved .full).ids_pos v (by simp [hids])
    have hlt := hall Q hrun v hpos.ne' hbound
    omega
  · rintro (hpages | hclear) P hrun v hv hbound
    · have hswa := hrun.inv.swa hkind
      have hrange := hswa.minted_range v (Or.inr ⟨hv, hswa.bound_sub v hv hbound⟩)
      omega
    · have hbarren := hrun.barren hkind hclear
      exact absurd ((hrun.inv.pair.conserved .other).unbound_of_empty (hbarren .other) hv) hbound

/-- An attention sub-pool with 12 bytes a slot. -/
def wideAttention : MHASubPoolSpec :=
  { thinAttention with
    headDim := 6
    vHeadDim := 6
    headDim_pos := by decide
    vHeadDim_pos := by decide }

/-- The lazy SWA composite over a pool of 40 bytes with pages of one slot. -/
def lazySwaPair (full swa : MHASubPoolSpec)
    (haccepted : ∀ d, acceptsSubPool 40 (fun d => match d with
      | .up => .mha full
      | .down => .mha swa) d = true)
    (hids : minSlotIndexOf (fun d => match d with
      | .up => .mha full
      | .down => .mha swa) .up + 1 - 1 ≤ 40 / full.entryBytes) : Composite where
  pool :=
    { totalBytes := 40
      pageSize := 1
      spec := fun d => match d with
        | .up => .mha full
        | .down => .mha swa
      pageSize_pos := le_rfl
      accepted := haccepted }
  kind := .swa
  fullDirection := .up
  needSort := false
  lazyCompaction := true
  sortFreeListAfterMerge := false
  lazyMaxMovesPerCall := 4096
  specs := trivial
  ids_full := by
    simpa [UnifiedKVPool.minPageIndex, UnifiedKVPool.numPages,
      UnifiedKVPool.allocPageSize, SubPoolSpec.allocPageSize,
      UnifiedKVPool.maxSlots, UnifiedKVPool.entryBytes,
      UnifiedKVPool.minSlotIndex, SubPoolSpec.entryBytes] using hids
  ids_other := fun h => by cases h

/-- The full side has two bytes a slot and twenty pages, the swa side twelve
bytes a slot and three pages. -/
def unevenSwaPair : Composite :=
  lazySwaPair thinAttention wideAttention (by intro d; cases d <;> decide) (by decide)

/-- Both sides have twenty pages. -/
def evenSwaPair : Composite :=
  lazySwaPair thinAttention thinAttention (by intro d; cases d <;> decide) (by decide)

/-- With equal page counts the first allocation stays in the table. -/
theorem swaIdsInTable_evenSwaPair :
    SwaIdsInTable evenSwaPair ((PairOp.jointAlloc 1 unfired).next evenSwaPair
      evenSwaPair.clear) := by
  have hclear : SettledRun evenSwaPair evenSwaPair.clear := ForwardRun.clear
  have hrun := hclear.next (.jointAlloc 1 unfired) rfl trivial (by decide)
  exact (swaIdsInTable_iff rfl).mpr (Or.inl (by decide)) _ hrun

/-- The first page allocated has id `6`, past the three rows of the swa table
and its sentinel. -/
theorem unevenSwaPair_not_swaIdsInTable :
    SettledRun unevenSwaPair ((PairOp.jointAlloc 1 unfired).next unevenSwaPair
      unevenSwaPair.clear) ∧
      ¬ SwaIdsInTable unevenSwaPair ((PairOp.jointAlloc 1 unfired).next
        unevenSwaPair unevenSwaPair.clear) := by
  constructor
  · exact ForwardRun.clear.next (.jointAlloc 1 unfired) rfl trivial (by decide)
  · intro h
    exact absurd (h 6 (by decide) (by decide)) (by decide)

/-! ## The joint budget -/

/-- `alloc` of `n` pages returns that many ids, whose pages have rows in the swa
table. -/
def Granted (C : Composite) (P : Pair) (n : ℕ) : Prop :=
  ∀ q, ∃ r ids, jointAlloc C P (n * (C.cfg .full).pageSize) q = .ok r ∧ r.ids = some ids ∧
    ids.length = n * (C.cfg .full).pageSize ∧
    ∀ t ∈ ids, t / ((C.cfg .full).pageSize : ℤ) < (C.cfg .other).numPages

/-- `available_size()` is the page size times the largest number of pages that
fits both sides, and a request within it is granted. -/
structure BudgetExact (C : Composite) (P : Pair) : Prop where
  largest : ∃ k, jointAvailableSize C P = k * (C.cfg .full).pageSize ∧
    IsGreatest {k | JointFits C P k} k
  granted : ∀ n : ℕ, (n : ℤ) * (C.cfg .full).pageSize ≤ jointAvailableSize C P → Granted C P n

theorem granted_iff (hinv : PairInv C P)
    (hgate : (n : ℤ) * (C.cfg .full).pageSize ≤ jointAvailableSize C P) : Granted C P n ↔
      ∀ v ∈ (P .full).freeVirtualIds.take n, v < (C.cfg .other).numPages := by
  have hps := (C.cfg .full).pageSize_pos
  obtain ⟨a, b, hbound⟩ := jointBound_of_gate hinv hgate
  have henough := ids_length_of_gate (hinv.conserved .full) rfl
    ((jointRoom_of_gate hinv hgate).full_gate hinv)
  constructor
  · intro h v hv
    obtain ⟨r, ids, halloc, hret, -, hrows⟩ := h unfired
    rw [jointAlloc_bound unfired hinv hbound] at halloc
    obtain rfl := Except.ok.inj halloc
    obtain rfl := Option.some.inj hret
    have hpage := Int.mul_ediv_cancel v (C.cfg .full).pageSize_pos_int.ne'
    have hlt := hrows (v * (C.cfg .full).pageSize) ((mem_expandPages_iff hps).mpr (by rwa [hpage]))
    rwa [hpage] at hlt
  · intro hrows q
    refine ⟨_, _, jointAlloc_bound q hinv hbound, rfl, by simp [expandPages, henough], ?_⟩
    exact fun t ht => hrows _ ((mem_expandPages_iff hps).mp ht)

/-- The joint budget is exact and can be allocated in every state of every run
exactly when the ids of the full side have rows in the swa table, or no page can
ever be allocated. -/
theorem budgetExact_iff (hkind : C.kind = .swa) : (∀ P, SettledRun C P → BudgetExact C P) ↔
      (C.cfg .full).numPages ≤ (C.cfg .other).numPages ∨
        jointAvailableSize C C.clear < (C.cfg .full).pageSize := by
  constructor
  · intro hall
    by_contra hnot
    rw [not_or, not_le, not_lt] at hnot
    obtain ⟨k, P, h, v, rest, hids, hv⟩ := exists_idle_past hkind hnot.1 hnot.2
    have hgate := h.gate hnot.2
    have hlt := (granted_iff h.run.inv.pair hgate).mp ((hall P h.run).granted 1 hgate) v
      (by simp [hids])
    omega
  · intro hcond P hrun
    have hinv := hrun.inv.pair
    obtain ⟨k, hk, hfits⟩ := jointAvailableSize_exact hinv
    refine ⟨⟨k, hk, (hfits k).mp le_rfl, fun n hn => (hfits n).mpr hn⟩, fun n hgate => ?_⟩
    refine (granted_iff hinv hgate).mpr fun v hv => ?_
    rcases hcond with hpages | hclear
    · have hrange := (hrun.inv.swa hkind).minted_range v (Or.inl (mem_of_mem_take hv))
      omega
    · rw [jointAvailableSize_of_empty hinv (hrun.barren hkind hclear)] at hgate
      have hn : n = 0 := by
        by_contra hne
        have hle : ((C.cfg .full).pageSize : ℤ) ≤ (n : ℤ) * (C.cfg .full).pageSize :=
          le_mul_of_one_le_left (by positivity) (by omega)
        omega
      simp [hn] at hv

/-- Four pages are bound on both sides and a forward runs on the full side. -/
def forwardSwaPair : Pair :=
  let P := (PairOp.jointAlloc 4 unfired).next evenSwaPair evenSwaPair.clear
  update P .full (setLatestForwardDoneEvent (P .full) (some 0))

/-- Virtual page `1` is freed and a partial pass moves page `4` of the full side into its
place; virtual page `3` then leaves the window. -/
def holedSwaPair : Pair :=
  (PairOp.freeSwa [3]).next evenSwaPair ((PairOp.flush .full false unfired).next evenSwaPair
    ((PairOp.jointFree [1]).next evenSwaPair forwardSwaPair))

theorem settledRun_holedSwaPair : SettledRun evenSwaPair holedSwaPair := by
  have h₀ : SettledRun evenSwaPair evenSwaPair.clear := ForwardRun.clear
  have h₁ := h₀.next (.jointAlloc 4 unfired) rfl trivial (by decide)
  have h₂ := h₁.record (s := .full)
    (show Op.Records (.setLatestForwardDoneEvent (some 0)) from trivial) rfl
  have h₃ := h₂.next (.jointFree [1]) ⟨rfl, by decide, by decide⟩ trivial (by decide)
  have h₄ := h₃.next (.flush .full false unfired) trivial
    (Or.inr fun e _ he => absurd he (by decide +revert)) (by decide)
  exact h₄.next (.freeSwa [3]) ⟨rfl, by decide⟩ trivial (by decide)

/-- One page of the full side waits for the forward and the swa side has two holes. -/
theorem budgetExact_holedSwaPair : jointAvailableSize evenSwaPair holedSwaPair = 6 ∧
      BudgetExact evenSwaPair holedSwaPair :=
  ⟨by decide, (budgetExact_iff rfl).mpr (Or.inl (by decide)) _ settledRun_holedSwaPair⟩

/-- The first page has id `6`; binding it on the swa side indexes past the three
rows of the table and its sentinel. -/
theorem unevenSwaPair_not_budgetExact : SettledRun unevenSwaPair unevenSwaPair.clear ∧
      (1 : ℤ) ≤ jointAvailableSize unevenSwaPair unevenSwaPair.clear ∧
      ¬ BudgetExact unevenSwaPair unevenSwaPair.clear := by
  refine ⟨ForwardRun.clear, by decide, fun h => ?_⟩
  have hlt := (granted_iff pairInv_clear (by decide)).mp (h.granted 1 (by decide)) 6 (by decide)
  exact absurd hlt (by decide)

end Sglang.MultiEnded
