import Sglang.MultiEnded.Take

/-!
# Releasing pages

`free` unbinds the virtual pages of the given tokens. The lazy path leaves
holes in the band; the eager path moves the survivors of the vacated end of the
band into them and retreats the watermark.
-/

namespace Sglang.MultiEnded

open Sglang.Support Sglang.PagedAlloc Sglang.UnifiedPool List

variable {c : Config} {a : Allocator} {f f' : ℤ → ℤ} {srcs dsts ts : List ℤ} {moves : List KvMove}
  {p : ℤ}

/-- The copies of one batch of page moves. -/
def copyMoves (c : Config) (srcs dsts : List ℤ) : List KvMove :=
  if srcs = [] then []
  else [⟨expandPages c.pageSize dsts, expandPages c.pageSize srcs⟩]

/-- The bindings `f` become `f'` while the contents of `srcs` are copied to
`dsts`, pages of the band that no binding of `f` uses. -/
structure Relocated (c : Config) (pages : Set ℤ) (f f' : ℤ → ℤ)
    (srcs dsts : List ℤ) (moves : List KvMove) : Prop where
  length_eq : srcs.length = dsts.length
  moves_eq : moves = copyMoves c srcs dsts
  srcs_nodup : srcs.Nodup
  dsts_nodup : dsts.Nodup
  srcs_band : ∀ s ∈ srcs, s ∈ pages
  dsts_band : ∀ d ∈ dsts, d ∈ pages
  dsts_unused : ∀ v, f v ∉ dsts
  moved : ∀ v s d, (s, d) ∈ srcs.zip dsts → f v = s → f' v = d
  kept : ∀ v, f v ∉ srcs → f' v = f v

/-- Nothing moves. -/
theorem Relocated.refl (pages : Set ℤ) (f : ℤ → ℤ) : Relocated c pages f f [] [] [] where
  length_eq := rfl
  moves_eq := rfl
  srcs_nodup := nodup_nil
  dsts_nodup := nodup_nil
  srcs_band := by simp
  dsts_band := by simp
  dsts_unused := by simp
  moved := by simp
  kept := fun _ _ => rfl

theorem Relocated.mono {pages pages' : Set ℤ}
    (h : Relocated c pages f f' srcs dsts moves) (hsub : pages ⊆ pages') :
    Relocated c pages' f f' srcs dsts moves :=
  { h with
    srcs_band := fun s hs => hsub (h.srcs_band s hs)
    dsts_band := fun d hd => hsub (h.dsts_band d hd) }

/-- Relocation keeps what is bound outside the pages, and what is not bound. -/
theorem Relocated.eq_iff {pages : Set ℤ}
    (h : Relocated c pages f f' srcs dsts moves) (hp : p ∉ pages) (v : ℤ) : f' v = p ↔ f v = p := by
  by_cases hv : f v ∈ srcs
  · obtain ⟨d, hd⟩ := exists_mem_zip_of_mem h.length_eq hv
    rw [h.moved v _ d hd rfl]
    constructor
    · rintro rfl
      exact absurd (h.dsts_band _ (of_mem_zip hd).2) hp
    · intro heq
      exact absurd (heq ▸ h.srcs_band _ hv) hp
  · rw [h.kept v hv]

theorem Relocated.virtualSide {pages : Set ℤ} {ids : List ℤ} {held : ℤ}
    (h : Relocated c pages f f' srcs dsts moves) (hpos : ∀ p ∈ pages, 0 < p)
    (V : VirtualSide c f ids held) : VirtualSide c f' ids held := by
  have hout : ∀ p ≤ 0, ∀ v, f' v = p ↔ f v = p := fun p hp =>
    h.eq_iff fun hmem => absurd (hpos p hmem) (not_lt.mpr hp)
  exact
    { V with
      anchor := fun v hv => V.anchor v ((hout 0 le_rfl v).mp hv)
      sink := ((hout _ V.sink 0).mpr rfl).trans_le V.sink
      bound_nonneg := fun v hv => V.bound_nonneg v fun heq => hv ((hout _ (by omega) v).mpr heq)
      ids_unbound := fun v hv => (hout _ (by omega) v).mpr (V.ids_unbound v hv) }

theorem mem_zip_map_left {is xs : List ℤ} {i x : ℤ}
    (h : (i, x) ∈ is.zip xs) : (f i, x) ∈ (is.map f).zip xs := by
  rw [zip_map_left]
  exact mem_map.mpr ⟨(i, x), h, rfl⟩

/-- A bulk remap of a pool relocates its bindings. -/
theorem Relocated.of_pool {pages : Set ℤ} {g : ℤ → ℤ} {unbound rest : List ℤ}
    (h : SlotPool f g (-1) (-1) 0 pages unbound) (hsrcs : srcs.Nodup)
    (hbound : ∀ p ∈ srcs, g p ≠ -1 ∧ p ≠ 0)
    (hperm : unbound.Perm (dsts ++ rest)) (hlen : srcs.length = dsts.length) :
    Relocated c pages f (scatter f (srcs.map g) dsts) srcs dsts (copyMoves c srcs dsts) := by
  have hp := h.perm hperm
  have hvs : (srcs.map g).Nodup := h.inverse.nodup_map_right hsrcs fun p hp => (hbound p hp).1
  refine
    { length_eq := hlen
      moves_eq := rfl
      srcs_nodup := hsrcs
      dsts_nodup := (nodup_append.mp hp.nodup).1
      srcs_band := fun s hs => h.mem_band (hbound s hs).1 (hbound s hs).2
      dsts_band := fun d hd => ((hp.mem_iff d).mp (mem_append_left _ hd)).1
      dsts_unused := ?_
      moved := ?_
      kept := ?_ }
  · intro v hv
    obtain ⟨hband, hfree⟩ := (hp.mem_iff _).mp (mem_append_left _ hv)
    have hne : f v ≠ -1 := fun heq => (h.outside _ hband).2 heq
    exact h.inverse.ne_null_right hne hfree
  · intro v s d hzip hv
    have hs := (hbound s (of_mem_zip hzip).1).1
    have hgs : g s = v := by
      rw [← hv]
      exact h.inverse.left (hv ▸ h.inverse.ne_null_left hs)
    exact scatter_of_mem_zip hvs (hgs ▸ mem_zip_map_left hzip)
  · intro v hv
    refine scatter_of_notMem fun hmem => hv ?_
    obtain ⟨s, hs, rfl⟩ := mem_map.mp hmem
    rwa [h.inverse.right (hbound s hs).1]

/-! ## The pages of a free -/

/-- The caller's contract of `free`: every token lies on a bound page, and
token ids are unique where the lazy path does not remove duplicates. -/
structure Freeable (c : Config) (a : Allocator) (ts : List ℤ) : Prop where
  bound : ∀ t ∈ ts, t / (c.pageSize : ℤ) ≠ 0 ∧ a.virtualToPhysical (t / (c.pageSize : ℤ)) ≠ -1
  unique : c.lazyCompaction = true → c.pageSize = 1 → ts.Nodup

/-- The virtual pages a free releases. -/
def freedVPages (c : Config) (ts : List ℤ) : List ℤ :=
  if c.lazyCompaction = true ∧ c.pageSize = 1 then ts
  else uniquePages c.pageSize ts

theorem mem_freedVPages {v : ℤ} : v ∈ freedVPages c ts ↔ ∃ t ∈ ts, t / (c.pageSize : ℤ) = v := by
  unfold freedVPages
  by_cases h : c.lazyCompaction = true ∧ c.pageSize = 1
  · simp [h]
  · rw [if_neg h]
    exact mem_uniquePages

theorem Freeable.nodup (hf : Freeable c a ts) : (freedVPages c ts).Nodup := by
  unfold freedVPages
  by_cases h : c.lazyCompaction = true ∧ c.pageSize = 1
  · rw [if_pos h]
    exact hf.unique h.1 h.2
  · rw [if_neg h]
    exact nodup_uniquePages _ _

theorem Freeable.pages (hf : Freeable c a ts) :
    ∀ v ∈ freedVPages c ts, v ≠ 0 ∧ a.virtualToPhysical v ≠ -1 := by
  intro v hv
  obtain ⟨t, ht, rfl⟩ := mem_freedVPages.mp hv
  exact hf.bound t ht

/-- Recycling bound pages keeps the virtual side. -/
theorem Conserved.recycled {vs : List ℤ} (h : Conserved c a) (hvs : vs.Nodup)
    (hbound : ∀ v ∈ vs, v ≠ 0 ∧ a.virtualToPhysical v ≠ -1) :
    VirtualSide c (fill a.virtualToPhysical vs (-1)) (recycleVirtual c a vs)
      (heldPages c a - vs.length) := by
  have hfresh : ∀ v ∈ a.freeVirtualIds, v ∉ vs := fun v hv hmem =>
    (hbound v hmem).2 (h.ids_unbound v hv)
  have hids : ∀ v ∈ recycleVirtual c a vs, v ∈ a.freeVirtualIds ∨ v ∈ vs := by
    intro v hv
    unfold recycleVirtual at hv
    split at hv
    · exact mem_append.mp hv
    · exact Or.inl hv
  refine ⟨fun v hv => ?_, ?_, fun v hv => ?_, ?_, fun v hv => ?_, fun v hv => ?_, fun hown => ?_⟩
  · by_cases hmem : v ∈ vs
    · simp [fill_of_mem hmem] at hv
    · rw [fill_of_notMem hmem] at hv
      exact h.anchor v hv
  · rw [fill_of_notMem fun hmem => (hbound 0 hmem).1 rfl]
    exact h.sink
  · by_cases hmem : v ∈ vs
    · exact absurd (fill_of_mem hmem) hv
    · rw [fill_of_notMem hmem] at hv
      exact h.bound_nonneg v hv
  · unfold recycleVirtual
    split
    · exact h.ids_nodup.append hvs hfresh
    · exact h.ids_nodup
  · rcases hids v hv with hv | hv
    · exact h.ids_pos v hv
    · exact lt_of_le_of_ne (h.bound_nonneg v (hbound v hv).2) (hbound v hv).1.symm
  · rcases hids v hv with hv | hv
    · rw [fill_of_notMem (hfresh v hv), h.ids_unbound v hv]
    · exact fill_of_mem hv
  · have := h.ids_enough hown
    simp only [recycleVirtual, hown, if_true, length_append]
    omega

/-! ## The lazy path -/

theorem freeLazy_eq (hlazy : c.lazyCompaction = true) (ts : List ℤ) : freeLazy c a ts = { a with
        virtualToPhysical := fill a.virtualToPhysical (freedVPages c ts) (-1)
        physicalToVirtual := fill a.physicalToVirtual
          ((freedVPages c ts).map a.virtualToPhysical) (-1)
        freeVirtualIds := recycleVirtual c a (freedVPages c ts)
        freePhysPages := c.mergeFree a.freePhysPages ((freedVPages c ts).map a.virtualToPhysical)
        livePageCount := a.livePageCount - (freedVPages c ts).length } := by
  simp [freeLazy, freedVPages, hlazy]

theorem Conserved.freeLazy (h : Conserved c a)
    (hlazy : c.lazyCompaction = true) (hf : Freeable c a ts) : Conserved c (freeLazy c a ts) := by
  have hpages := hf.pages
  have hpool := h.pool.release hf.nodup fun v hv =>
    ⟨(hpages v hv).2, h.physical_ne_zero (hpages v hv).1⟩
  have hids := h.recycled hf.nodup hpages
  rw [freeLazy_eq hlazy]
  set vs := freedVPages c ts
  have hperm : (unboundPages a ++ vs.map a.virtualToPhysical).Perm
      (c.mergeFree a.freePhysPages (vs.map a.virtualToPhysical) ++ pendingPages a) := by
    calc
      (unboundPages a ++ vs.map a.virtualToPhysical).Perm
          ((a.freePhysPages ++ vs.map a.virtualToPhysical) ++ pendingPages a) := by
        rw [unboundPages, append_assoc, append_assoc]
        exact perm_append_comm.append_left _
      List.Perm _ _ := (c.perm_mergeFree _ _).symm.append_right _
  have hcount := hperm.length_eq
  rw [length_append, length_map] at hcount
  have hheld : width c a - ((c.mergeFree a.freePhysPages (vs.map a.virtualToPhysical) ++
      pendingPages a).length : ℤ) = heldPages c a - vs.length := by
    rw [heldPages]
    omega
  rw [← hheld] at hids
  exact
    { pool := hpool.perm hperm
      width_nonneg := h.width_nonneg
      width_le := h.width_le
      pendingCpu := h.pendingCpu
      keys_nodup := h.keys_nodup
      live := fun _ => (congrArg (· - (vs.length : ℤ)) (h.live hlazy)).trans hheld.symm
      sorted := fun hs => c.sorted_mergeFree hs _ _
      eager := fun hfalse => by simp [hlazy] at hfalse
      toVirtualSide := hids }

/-! ## Eager compaction -/

theorem length_le_width {l : List ℤ} (h : 0 ≤ width c a) (hl : l.Nodup)
    (hband : ∀ p ∈ l, p ∈ band c a) : (l.length : ℤ) ≤ width c a := by
  have hnodup : (l.map c.depth).Nodup := hl.map fun p p' heq => c.depth_inj.mp heq
  have hsub : (l.map c.depth).toFinset ⊆ Finset.Ico 0 (width c a) := by
    intro d hd
    rw [mem_toFinset, mem_map] at hd
    obtain ⟨p, hp, rfl⟩ := hd
    exact Finset.mem_Ico.mpr (hband p hp)
  have hcard := Finset.card_le_card hsub
  rw [toFinset_card_of_nodup hnodup, Int.card_Ico, length_map] at hcard
  omega

/-- The `k` pages next to the watermark. -/
def vacatedPages (c : Config) (a : Allocator) (k : ℕ) : List ℤ :=
  pageRange (vacatedBand c a.watermarkPhysical k).1 (vacatedBand c a.watermarkPhysical k).2

theorem mem_vacatedPages {k : ℕ} : p ∈ vacatedPages c a k ↔
      width c a - k ≤ c.depth p ∧ c.depth p < width c a := by
  unfold vacatedPages vacatedBand width Config.depth
  rw [mem_pageRange]
  cases c.growDirection <;> simp only <;> omega

theorem length_vacatedPages (k : ℕ) : (vacatedPages c a k).length = k := by
  unfold vacatedPages vacatedBand
  rw [length_pageRange]
  cases c.growDirection <;> simp only <;> omega

theorem watermarkInSpace_iff {wm : ℤ} : watermarkInSpace c wm = true ↔ 0 ≤ c.depth wm := by
  unfold watermarkInSpace Config.depth
  cases c.growDirection <;> simp only [decide_eq_true_eq] <;> omega

theorem freedInBand_iff {ps : List ℤ} :
    freedInBand c a.watermarkPhysical ps = true ↔ ∀ p ∈ ps, p ∈ band c a := by
  simp only [mem_band_iff]
  unfold freedInBand width Config.depth
  cases c.growDirection with
  | up | down =>
    simp only [all_eq_true, decide_eq_true_eq, Bool.and_eq_true]
    refine forall₂_congr fun p _ => ?_
    omega

section Compaction

variable (c : Config) (a : Allocator) (ps : List ℤ)

/-- The survivors of the vacated pages. -/
def survivors : List ℤ := (vacatedPages c a ps.length).filter fun s => s ∉ ps

/-- The freed pages of the kept band. -/
def keptHoles : List ℤ :=
  sortPages (ps.filter fun h => c.beyond (c.retreat a.watermarkPhysical ps.length) h)

/-- The freed pages of the vacated end. -/
def vacatedHoles : List ℤ :=
  ps.filter fun h => !c.beyond (c.retreat a.watermarkPhysical ps.length) h

end Compaction

variable {ps : List ℤ}

theorem perm_keptHoles : ps.Perm (keptHoles c a ps ++ vacatedHoles c a ps) :=
  calc
    ps.Perm (ps.filter _ ++ ps.filter _) := (filter_append_perm _ ps).symm
    List.Perm _ _ := (perm_sortPages _).symm.append_right _

theorem mem_vacatedHoles (hband : ∀ p ∈ ps, p ∈ band c a) :
    p ∈ vacatedHoles c a ps ↔ p ∈ ps ∧ p ∈ vacatedPages c a ps.length := by
  unfold vacatedHoles
  rw [mem_filter, mem_vacatedPages]
  constructor
  · rintro ⟨hp, hnot⟩
    rw [Bool.not_eq_true', ← Bool.not_eq_true, c.beyond_iff, c.depth_retreat] at hnot
    exact ⟨hp, not_lt.mp hnot, (hband p hp).2⟩
  · rintro ⟨hp, hle, _⟩
    refine ⟨hp, ?_⟩
    rw [Bool.not_eq_true', ← Bool.not_eq_true, c.beyond_iff, c.depth_retreat]
    exact not_lt.mpr hle

/-- The survivors and the freed vacated pages are all the vacated pages. -/
theorem perm_vacatedPages (hnodup : ps.Nodup) (hband : ∀ p ∈ ps, p ∈ band c a) :
    (vacatedHoles c a ps ++ survivors c a ps).Perm (vacatedPages c a ps.length) := by
  have hvac : (vacatedPages c a ps.length).Nodup := nodup_pageRange _ _
  refine (perm_ext_iff_of_nodup ?_ hvac).mpr ?_
  · refine (hnodup.filter _).append (hvac.filter _) fun p hh hs => ?_
    have := (mem_filter.mp hs).2
    simp only [decide_eq_true_eq] at this
    exact this ((mem_vacatedHoles hband).mp hh).1
  · intro p
    rw [mem_append, mem_vacatedHoles hband, survivors]
    by_cases hp : p ∈ ps <;> simp [hp]

theorem length_survivors (hnodup : ps.Nodup) (hband : ∀ p ∈ ps, p ∈ band c a) :
    (survivors c a ps).length = (keptHoles c a ps).length := by
  have hall := (perm_vacatedPages hnodup hband).length_eq
  have hsplit : ps.length =
      (keptHoles c a ps ++ vacatedHoles c a ps).length :=
    perm_keptHoles.length_eq
  rw [length_vacatedPages, length_append] at hall
  rw [length_append] at hsplit
  omega

/-- The allocator after compaction, for tables `f` and `g` of the freed state. -/
def compacted (c : Config) (a : Allocator) (ps : List ℤ) : Allocator :=
  { a with
    watermarkPhysical := c.retreat a.watermarkPhysical ps.length
    virtualToPhysical := scatter a.virtualToPhysical
      ((survivors c a ps).map a.physicalToVirtual) (keptHoles c a ps)
    physicalToVirtual := scatter
      (fill a.physicalToVirtual (vacatedPages c a ps.length) (-1))
      (keptHoles c a ps) ((survivors c a ps).map a.physicalToVirtual) }

theorem width_compacted (c : Config) (a : Allocator) (ps : List ℤ) :
    width c (compacted c a ps) = width c a - ps.length :=
  c.depth_retreat _ _

theorem compactPending_eq (hne : ps ≠ []) (hnodup : ps.Nodup)
    (hwidth : 0 ≤ width c a) (hband : ∀ p ∈ ps, p ∈ band c a) :
    compactPending c a ps = .ok (compacted c a ps,
      copyMoves c (survivors c a ps) (keptHoles c a ps)) := by
  have hlen := length_le_width hwidth hnodup hband
  have hspace : watermarkInSpace c
      (c.retreat a.watermarkPhysical ps.length) = true := by
    rw [watermarkInSpace_iff, c.depth_retreat]
    unfold width at hlen
    omega
  have hfreed := freedInBand_iff.mpr hband
  have hcount := length_survivors hnodup hband
  unfold compactPending
  simp only [hnodup.dedup, if_neg hne, hspace, hfreed, not_true_eq_false, if_false]
  change (if (survivors c a ps).length ≠ (keptHoles c a ps).length then _
    else if survivors c a ps = [] then _ else _) = _
  rw [if_neg (not_not.mpr hcount)]
  by_cases hs : survivors c a ps = []
  · have hk : keptHoles c a ps = [] := by
      rw [hs] at hcount
      exact length_eq_zero_iff.mp hcount.symm
    simp [compacted, copyMoves, hs, hk, scatter, vacatedPages]
  · simp only [compacted, copyMoves, if_neg hs]
    rfl

theorem notMem_of_mem_survivors (hp : p ∈ survivors c a ps) : p ∉ ps := by
  simpa using (mem_filter.mp hp).2

theorem mem_band_of_mem_survivors (hlen : (ps.length : ℤ) ≤ width c a)
    (hp : p ∈ survivors c a ps) : p ∈ band c a := by
  obtain ⟨hle, hlt⟩ := mem_vacatedPages.mp (mem_filter.mp hp).1
  exact ⟨by omega, hlt⟩

/-- The survivors' partners are not affected by clearing the freed pages. -/
theorem map_survivors : (survivors c a ps).map (fill a.physicalToVirtual ps (-1)) =
    (survivors c a ps).map a.physicalToVirtual :=
  map_congr_left fun _ hp => fill_of_notMem (notMem_of_mem_survivors hp)

/-- Clearing the vacated pages first and rebinding then gives the table that
moving the survivors gives. -/
theorem compacted_physicalToVirtual (hnodup : ps.Nodup) (hband : ∀ p ∈ ps, p ∈ band c a) :
    (compacted c a ps).physicalToVirtual =
      fill (scatter (fill a.physicalToVirtual ps (-1)) (keptHoles c a ps)
          ((survivors c a ps).map (fill a.physicalToVirtual ps (-1)))) (survivors c a ps) (-1) := by
  have hsplit : ps.Perm (keptHoles c a ps ++ vacatedHoles c a ps) := perm_keptHoles
  have hlen : (keptHoles c a ps).length =
      ((survivors c a ps).map a.physicalToVirtual).length := by
    rw [length_map, length_survivors hnodup hband]
  have hkept : (keptHoles c a ps).Nodup := (nodup_append.mp (hsplit.nodup_iff.mp hnodup)).1
  have hvac := perm_vacatedPages hnodup hband
  rw [map_survivors]
  funext p
  show scatter _ _ _ p = _
  by_cases hs : p ∈ survivors c a ps
  · have hk : p ∉ keptHoles c a ps := fun hmem =>
      notMem_of_mem_survivors hs (hsplit.mem_iff.mpr (mem_append_left _ hmem))
    rw [scatter_of_notMem hk, fill_of_mem (mem_filter.mp hs).1, fill_of_mem hs]
  · rw [fill_of_notMem hs]
    refine scatter_congr hkept hlen fun hk => ?_
    have hiff : p ∈ vacatedPages c a ps.length ↔ p ∈ ps := by
      rw [← hvac.mem_iff, mem_append, hsplit.mem_iff, mem_append, or_iff_left hs, or_iff_right hk]
    by_cases hp : p ∈ ps
    · rw [fill_of_mem hp, fill_of_mem (hiff.mpr hp)]
    · rw [fill_of_notMem hp, fill_of_notMem fun hv => hp (hiff.mp hv)]

/-! ## The eager path -/

/-- The state in which `free` calls the compaction. -/
def unmapped (c : Config) (a : Allocator) (vs : List ℤ) : Allocator :=
  { a with
    virtualToPhysical := fill a.virtualToPhysical vs (-1)
    freeVirtualIds := recycleVirtual c a vs }

/-- The allocator after an eager free of the virtual pages `vs`. -/
def freedEager (c : Config) (a : Allocator) (vs : List ℤ) : Allocator :=
  compacted c (unmapped c a vs) (vs.map a.virtualToPhysical)

theorem width_freedEager (c : Config) (a : Allocator) (vs : List ℤ) :
    width c (freedEager c a vs) = width c a - vs.length := by
  have h := width_compacted c (unmapped c a vs) (vs.map a.virtualToPhysical)
  rwa [length_map] at h

/-- The survivors move into the kept holes, and the band that remains is bound
throughout. -/
theorem compacted_pool (hf : a.virtualToPhysical = f) (hwidth : 0 ≤ width c a)
    (h : SlotPool f (fill a.physicalToVirtual ps (-1)) (-1) (-1) 0 (band c a) ps) :
    Relocated c (band c a) f (compacted c a ps).virtualToPhysical
        (survivors c a ps) (keptHoles c a ps) (copyMoves c (survivors c a ps) (keptHoles c a ps)) ∧
      SlotPool (compacted c a ps).virtualToPhysical (compacted c a ps).physicalToVirtual (-1) (-1) 0
        (band c (compacted c a ps)) [] := by
  have hband : ∀ p ∈ ps, p ∈ band c a := fun p hp => ((h.mem_iff p).mp hp).1
  have hlen := length_le_width hwidth h.nodup hband
  have hsurv : (survivors c a ps).Nodup := (nodup_pageRange _ _).filter _
  have hbound : ∀ p ∈ survivors c a ps,
      fill a.physicalToVirtual ps (-1) p ≠ -1 ∧ p ≠ 0 := by
    intro p hp
    have hmem := mem_band_of_mem_survivors hlen hp
    exact ⟨h.bound_of_notMem hmem (notMem_of_mem_survivors hp), (h.outside p hmem).1⟩
  have hcount := length_survivors h.nodup hband
  have hvac := perm_vacatedPages h.nodup hband
  have hv2p : (compacted c a ps).virtualToPhysical = scatter f
      ((survivors c a ps).map (fill a.physicalToVirtual ps (-1)))
      (keptHoles c a ps) := by
    rw [map_survivors, ← hf]
    rfl
  constructor
  · rw [hv2p]
    exact Relocated.of_pool h hsurv hbound perm_keptHoles hcount
  · rw [hv2p, compacted_physicalToVirtual h.nodup hband]
    have hnone : (vacatedHoles c a ps ++ survivors c a ps).Perm
        ([] ++ (vacatedHoles c a ps ++ survivors c a ps)) := List.Perm.refl _
    refine (h.relocate hsurv hbound perm_keptHoles hcount).shrink hnone ?_
    intro p
    rw [hvac.mem_iff, mem_vacatedPages, mem_band_iff, mem_band_iff, width_compacted]
    omega

theorem free_eager_eq (h : Conserved c a)
    (hlazy : c.lazyCompaction = false) (hf : Freeable c a ts) (hne : ts ≠ []) :
    ∃ srcs dsts, free c a ts = .ok (freedEager c a (freedVPages c ts), copyMoves c srcs dsts) ∧
      Relocated c (band c a) (fill a.virtualToPhysical (freedVPages c ts) (-1))
        (freedEager c a (freedVPages c ts)).virtualToPhysical srcs dsts (copyMoves c srcs dsts) ∧
      SlotPool (freedEager c a (freedVPages c ts)).virtualToPhysical
        (freedEager c a (freedVPages c ts)).physicalToVirtual (-1) (-1) 0
        (band c (freedEager c a (freedVPages c ts))) [] := by
  have hpages := hf.pages
  have hempty : unboundPages a = [] := by
    obtain ⟨hfree, hpending⟩ := h.eager hlazy
    simp [unboundPages, pendingPages, hfree, hpending]
  have hpool := h.pool.release hf.nodup fun v hv =>
    ⟨(hpages v hv).2, h.physical_ne_zero (hpages v hv).1⟩
  rw [hempty] at hpool
  have hvs : freedVPages c ts = uniquePages c.pageSize ts := by simp [freedVPages, hlazy]
  have hband : ∀ p ∈ (freedVPages c ts).map a.virtualToPhysical,
      p ∈ band c a := fun p hp => ((hpool.mem_iff p).mp hp).1
  have hps : (freedVPages c ts).map a.virtualToPhysical ≠ [] := by
    obtain ⟨t, ht⟩ := exists_mem_of_ne_nil ts hne
    exact ne_nil_of_mem (mem_map_of_mem (mem_freedVPages.mpr ⟨t, ht, rfl⟩))
  have hstale : ((freedVPages c ts).map a.virtualToPhysical).any
      (fun p => decide (p < 0)) = false := by
    rw [any_eq_false]
    intro p hp
    have := h.band_pos (hband p hp)
    simp only [decide_eq_true_eq]
    omega
  obtain ⟨hreloc, hfinal⟩ :=
    compacted_pool (a := unmapped c a (freedVPages c ts)) rfl h.width_nonneg hpool
  refine ⟨_, _, ?_, hreloc, hfinal⟩
  rw [hvs] at hstale hps hband hpool ⊢
  unfold free
  rw [if_neg hne, if_neg (by simp [hlazy])]
  dsimp only
  rw [hstale, if_neg Bool.false_ne_true]
  exact compactPending_eq hps hpool.nodup h.width_nonneg hband

theorem Conserved.freedEager {vs : List ℤ}
    (h : Conserved c a) (hlazy : c.lazyCompaction = false) (hvs : vs.Nodup)
    (hbound : ∀ v ∈ vs, v ≠ 0 ∧ a.virtualToPhysical v ≠ -1)
    (hreloc : Relocated c (band c a) (fill a.virtualToPhysical vs (-1))
      (freedEager c a vs).virtualToPhysical srcs dsts moves)
    (hpool : SlotPool (freedEager c a vs).virtualToPhysical
      (freedEager c a vs).physicalToVirtual (-1) (-1) 0 (band c (freedEager c a vs)) []) :
    Conserved c (freedEager c a vs) := by
  obtain ⟨hfree, hpending⟩ := h.eager hlazy
  have hold : unboundPages a = [] := by simp [unboundPages, pendingPages, hfree, hpending]
  have hempty : unboundPages (MultiEnded.freedEager c a vs) = [] := hold
  have hwidth := width_freedEager c a vs
  have hband : ∀ p ∈ vs.map a.virtualToPhysical, p ∈ band c a := by
    intro p hp
    obtain ⟨v, hv, rfl⟩ := mem_map.mp hp
    exact h.physical_mem_band (hbound v hv).1 (hbound v hv).2
  have hps : (vs.map a.virtualToPhysical).Nodup := by
    refine List.Nodup.map_on ?_ hvs
    intro v hv w hw heq
    rw [← h.pool.inverse.left (hbound v hv).2, heq, h.pool.inverse.left (hbound w hw).2]
  have hlen := length_le_width h.width_nonneg hps hband
  rw [length_map] at hlen
  have hheld : heldPages c (MultiEnded.freedEager c a vs) = heldPages c a - vs.length := by
    rw [heldPages, hempty, heldPages, hold]
    omega
  refine
    { pool := hempty ▸ hpool
      width_nonneg := by omega
      width_le := ?_
      pendingCpu := h.pendingCpu
      keys_nodup := h.keys_nodup
      live := fun htrue => by simp [hlazy] at htrue
      sorted := h.sorted
      eager := h.eager
      toVirtualSide := ?_ }
  · rw [hheld]
    exact hreloc.virtualSide (fun _ => h.band_pos) (h.recycled hvs hbound)
  · have := h.width_le
    omega

/-! ## Both paths -/

/-- What a free of the virtual pages `vs` does. -/
structure FreeSpec (c : Config) (a : Allocator) (vs : List ℤ) (a' : Allocator)
    (moves : List KvMove) : Prop where
  conserved : Conserved c a'
  relocated : ∃ srcs dsts, Relocated c (band c a)
    (fill a.virtualToPhysical vs (-1)) a'.virtualToPhysical srcs dsts moves
  ids : a'.freeVirtualIds = recycleVirtual c a vs
  width_le : width c a' ≤ width c a
  width_lazy : c.lazyCompaction = true → width c a' = width c a
  pending : a'.pendingReuse = a.pendingReuse
  latest : a'.latestForwardDoneEvent = a.latestForwardDoneEvent
  inflight : a'.inflightForward = a.inflightForward

theorem fill_nil (t : ℤ → ℤ) (x : ℤ) : fill t [] x = t := by
  funext j
  simp [fill]

/-- A free of bound tokens succeeds and keeps the invariant. -/
theorem free_spec (h : Conserved c a) (hf : Freeable c a ts) :
    ∃ a' moves, free c a ts = .ok (a', moves) ∧ FreeSpec c a (freedVPages c ts) a' moves := by
  by_cases hne : ts = []
  · subst hne
    have hvs : freedVPages c [] = [] := by simp [freedVPages, uniquePages, sortPages]
    refine ⟨a, [], rfl, ?_⟩
    rw [hvs]
    exact
      { conserved := h
        relocated := ⟨[], [], by
          exact Relocated.refl _ _⟩
        ids := by simp [recycleVirtual]
        width_le := le_rfl
        width_lazy := fun _ => rfl
        pending := rfl
        latest := rfl
        inflight := rfl }
  by_cases hlazy : c.lazyCompaction = true
  · refine ⟨freeLazy c a ts, [], by simp [free, hne, hlazy], ?_⟩
    refine
      { conserved := h.freeLazy hlazy hf
        relocated := ⟨[], [], ?_⟩
        ids := ?_
        width_le := ?_
        width_lazy := fun _ => ?_
        pending := ?_
        latest := ?_
        inflight := ?_ }
    all_goals rw [freeLazy_eq hlazy]
    · exact Relocated.refl _ _
    · rfl
    · rfl
  · have hfalse : c.lazyCompaction = false := by simpa using hlazy
    obtain ⟨srcs, dsts, heq, hreloc, hpool⟩ := free_eager_eq h hfalse hf hne
    refine ⟨_, _, heq, ?_⟩
    exact
      { conserved := h.freedEager hfalse hf.nodup hf.pages hreloc hpool
        relocated := ⟨srcs, dsts, hreloc⟩
        ids := rfl
        width_le := by
          rw [width_freedEager]
          exact Int.sub_le_self _ (by omega)
        width_lazy := fun hlazy => by rw [hfalse] at hlazy; cases hlazy
        pending := rfl
        latest := rfl
        inflight := rfl }

theorem free_spec_of_ok (h : Conserved c a) (hf : Freeable c a ts) {b : Allocator}
    {moves : List KvMove} (hok : free c a ts = .ok (b, moves)) :
    FreeSpec c a (freedVPages c ts) b moves := by
  obtain ⟨a', moves', heq, hspec⟩ := free_spec h hf
  rw [hok] at heq
  obtain ⟨rfl, rfl⟩ := Prod.mk.inj (Except.ok.inj heq)
  exact hspec

end Sglang.MultiEnded
