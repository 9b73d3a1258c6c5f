import Sglang.PagedAlloc.SwaPairs

/-!
# Conservation of window pages

A window page is allocated exactly while some allocated full index maps into it, so it is
returned once however `free_swa` and `free` of the same indices are ordered.
-/

namespace Sglang.PagedAlloc

open MultiEnded (mem_uniquePages)
open Sglang.Support (fill fill_of_mem fill_of_notMem)
open SwaAllocator List
open Multiset (coe_add coe_nodup mem_coe)
open KVAllocator (free_spec freedPages mem_freedPages nodup_freedPages Sound)

variable {c : SwaConfig} {s s' : SwaAllocator} {live live' : Set ℤ} {q : ℤ} {l : List ℤ} {w : ℤ → ℤ}

/-! ## Freeing -/

/-- `free_swa` reaches exactly the indices on the pages it is given. -/
theorem mem_mappingIndices {x : ℤ} : x ∈ mappingIndices c l ↔ x ∈ pageMates c l := by
  unfold mappingIndices pageMates
  rw [Set.mem_ofPred_eq]
  split
  · rename_i hone
    simp [hone]
  · rw [mem_expandPages_iff c.pageSize_pos, mem_uniquePages]

theorem freeSwa_eq (c : SwaConfig) (s : SwaAllocator) (l : List ℤ) : s.freeSwa c l = { s with
        swa := s.swa.free c.swa (((mappingIndices c l).map s.fullToSwa).filter (0 < ·))
        fullToSwa := fill s.fullToSwa (mappingIndices c l) 0 } := by
  unfold freeSwa
  split
  · rename_i hnil
    subst hnil
    have hnone : mappingIndices c [] = [] := by
      rw [eq_nil_iff_forall_not_mem]
      intro x hx
      obtain ⟨t, ht, -⟩ := mem_mappingIndices.mp hx
      cases ht
    have hfill : fill s.fullToSwa [] 0 = s.fullToSwa := by
      funext x
      exact fill_of_notMem not_mem_nil
    rw [hnone, hfill]
    simp [KVAllocator.free, KVAllocator.freePaged, KVAllocator.freeWith]
  · rfl

namespace SwaInv

/-- Different full indices have different window slots. -/
theorem eq_of_mapped (V : SwaInv c s live w) {x y : ℤ} (hx : x ≠ -1) (hy : y ≠ -1)
    (h : s.fullToSwa x ≠ 0) (heq : s.fullToSwa x = s.fullToSwa y) : x = y := by
  have hy' : s.fullToSwa y ≠ 0 := heq ▸ h
  rw [V.entry x hx h, V.entry y hy hy'] at heq
  have hpage := congrArg (· / (c.pageSize : ℤ)) heq
  have hoff := congrArg (· % (c.pageSize : ℤ)) heq
  simp only [shift_div c.pageSize_pos, shift_mod] at hpage hoff
  rw [← Int.ediv_mul_add_emod x c.pageSize, ← Int.ediv_mul_add_emod y c.pageSize,
    V.bijOn.injOn ⟨x, hx, h, rfl⟩ ⟨y, hy, hy', rfl⟩ hpage, hoff]

theorem page_of_mapped (V : SwaInv c s live w) {x : ℤ} (hx : x ≠ -1) (h : s.fullToSwa x ≠ 0) :
    s.fullToSwa x / (c.pageSize : ℤ) = w (x / (c.pageSize : ℤ)) ∧
      s.fullToSwa x / (c.pageSize : ℤ) ∈ s.swa.taken c.swa := by
  have hpage := shift_div (w := w) (x := x) c.pageSize_pos
  rw [← V.entry x hx h] at hpage
  exact ⟨hpage, hpage ▸ V.bijOn.mapsTo ⟨x, hx, h, rfl⟩⟩

variable {l : List ℤ}

variable (V : SwaInv c s live w)
include V

section

variable (hl : ∀ x ∈ l, x / (c.pageSize : ℤ) ∈ c.full.pool)
include hl

/-- The window pages `free_swa` returns. -/
theorem mem_swaFreed :
    q ∈ freedPages c.swa (((mappingIndices c l).map s.fullToSwa).filter (0 < ·)) ↔
      q ∈ w '' (mappedPages c s ∩ { q | ∃ x ∈ l, x / (c.pageSize : ℤ) = q }) := by
  rw [mem_freedPages]
  constructor
  · rintro ⟨y, hy, rfl⟩
    obtain ⟨hmem, hpos⟩ := mem_filter.mp hy
    obtain ⟨x, hx, rfl⟩ := mem_map.mp hmem
    obtain ⟨t, ht, htx⟩ := mem_mappingIndices.mp hx
    have hne := ne_sentinel c.pageSize_pos (htx ▸ hl t ht)
    have hpos := of_decide_eq_true hpos
    exact ⟨_, ⟨⟨x, hne, hpos.ne', rfl⟩, t, ht, htx⟩, (V.page_of_mapped hne hpos.ne').1.symm⟩
  · rintro ⟨_, ⟨⟨x, hx, hne, rfl⟩, t, ht, htx⟩, rfl⟩
    obtain ⟨hpage, htaken⟩ := V.page_of_mapped hx hne
    refine ⟨s.fullToSwa x, mem_filter.mpr ⟨mem_map.mpr ⟨x, ?_, rfl⟩, ?_⟩, hpage⟩
    · exact mem_mappingIndices.mpr ⟨t, ht, htx⟩
    · exact decide_eq_true (pos_of_mem_pool c.pageSize_pos htaken.1)

theorem nodup_swaFreed (hnodup : c.pageSize = 1 → l.Nodup) :
    (freedPages c.swa (((mappingIndices c l).map s.fullToSwa).filter (0 < ·))).Nodup := by
  refine nodup_freedPages fun hone => ?_
  have hone : c.pageSize = 1 := hone
  rw [mappingIndices, if_pos hone, filter_map]
  refine List.Nodup.map_on ?_ ((hnodup hone).filter _)
  intro x hx y hy heq
  obtain ⟨hx, hpos⟩ := mem_filter.mp hx
  have hpos := of_decide_eq_true hpos
  exact V.eq_of_mapped (ne_sentinel c.pageSize_pos (hl x hx))
    (ne_sentinel c.pageSize_pos (hl y (mem_filter.mp hy).1)) (by omega) heq

/-- Window halves are given up, after pages of the full pool were. -/
theorem freeSwa {full : KVAllocator} (hnodup : c.pageSize = 1 → l.Nodup)
    (hfull : full.Sound c.full) (hready : full.isNotInFreeGroup = true)
    (hgone : ∀ x ∈ live, x ∉ live' → x ∈ pageMates c l)
    (hpage : ∀ x ∈ live', x / (c.pageSize : ℤ) ∈ full.taken c.full) :
    SwaInv c (SwaAllocator.freeSwa c { s with full } l) live' w := by
  obtain ⟨havail, hswaready⟩ := free_spec
    (l := ((mappingIndices c l).map s.fullToSwa).filter (0 < ·)) V.swa_ready
  obtain ⟨Sswa, htaken⟩ := V.swa.give (V.nodup_swaFreed hl hnodup) (fun q hq => by
    obtain ⟨r, hr, rfl⟩ := (V.mem_swaFreed hl).mp hq
    exact V.bijOn.mapsTo hr.1) havail
  have hfreed : { q | q ∈
      freedPages c.swa (((mappingIndices c l).map s.fullToSwa).filter (0 < ·)) } =
      w '' (mappedPages c s ∩ { q | ∃ x ∈ l, x / (c.pageSize : ℤ) = q }) :=
    Set.ext fun q => V.mem_swaFreed hl
  have hcut : ∀ {x}, x ∈ pageMates c l → fill s.fullToSwa (mappingIndices c l) 0 x = 0 := fun hx =>
    fill_of_mem (mem_mappingIndices.mpr hx)
  have hkeep : ∀ {x}, x ∉ pageMates c l → fill s.fullToSwa (mappingIndices c l) 0 x =
      s.fullToSwa x := fun hx => fill_of_notMem fun h => hx (mem_mappingIndices.mp h)
  have hmapped : { q | ∃ x, x ≠ -1 ∧ fill s.fullToSwa (mappingIndices c l) 0 x ≠ 0 ∧
      x / (c.pageSize : ℤ) = q } =
      mappedPages c s \ { q | ∃ x ∈ l, x / (c.pageSize : ℤ) = q } := by
    ext q
    constructor
    · rintro ⟨x, hx, hne, rfl⟩
      have hnot : x ∉ pageMates c l := fun h => hne (hcut h)
      rw [hkeep hnot] at hne
      exact ⟨⟨x, hx, hne, rfl⟩, hnot⟩
    · rintro ⟨⟨x, hx, hne, rfl⟩, hnot⟩
      exact ⟨x, hx, by rwa [hkeep hnot], rfl⟩
  rw [freeSwa_eq]
  refine ⟨hfull, hready, Sswa, hswaready, hpage, ?_, ?_, ?_, ?_⟩
  · refine (hkeep ?_).trans V.sentinel
    rintro ⟨x, hx, heq⟩
    exact ne_sentinel c.pageSize_pos (heq ▸ hl x hx) rfl
  · intro x hx hnot
    by_cases hin : x ∈ pageMates c l
    · exact hcut hin
    · exact (hkeep hin).trans (V.unmapped x hx fun hlive => hin (hgone x hlive hnot))
  · intro x hx hne
    have hnot : x ∉ pageMates c l := fun h => hne (hcut h)
    exact (hkeep hnot).trans (V.entry x hx (hkeep hnot ▸ hne))
  · change Set.BijOn w { q | ∃ x, _ } (KVAllocator.taken c.swa (s.swa.free c.swa _))
    rw [hmapped, htaken, hfreed, ← V.bijOn.image_eq, ← V.bijOn.injOn.image_sdiff]
    exact (V.bijOn.injOn.mono Set.sdiff_subset).bijOn_image

end

/-- Both halves of allocated pages are given up. -/
theorem release (hl : ∀ x ∈ l, x ∈ live) (hnodup : c.pageSize = 1 → l.Nodup) :
    SwaInv c (SwaAllocator.freeSwa c { s with full := s.full.free c.full l } l)
      (live \ pageMates c l) w := by
  obtain ⟨havail, hready⟩ := free_spec (c := c.full) V.full_ready
  obtain ⟨Sfull, htaken⟩ := V.full.give (nodup_freedPages hnodup) (fun q hq => by
    obtain ⟨x, hx, rfl⟩ := mem_freedPages.mp hq
    exact V.live_page x (hl x hx)) havail
  refine V.freeSwa (fun x hx => (V.live_page x (hl x hx)).1) hnodup Sfull hready ?_ ?_
  · intro x hx hnot
    by_contra hin
    exact hnot ⟨hx, hin⟩
  · rintro x ⟨hx, hnot⟩
    rw [htaken]
    exact ⟨V.live_page x hx, fun hin => hnot (mem_freedPages.mp hin)⟩

/-- The invariant does not read the group. -/
theorem regroup (b : Bool) (g : List (List ℤ)) :
    SwaInv c { s with isNotInFreeGroup := b, freeGroup := g } live w :=
  ⟨V.full, V.full_ready, V.swa, V.swa_ready, V.live_page, V.sentinel, V.unmapped, V.entry, V.bijOn⟩

end SwaInv

/-! ## Runs -/

/-- The invariant of runs: what waits in a free group is still allocated. -/
structure SwaOk (c : SwaConfig) (s : SwaAllocator) (live : Set ℤ) : Prop where
  inv : ∃ w, SwaInv c s live w
  pending_live : ∀ x ∈ s.pending, x ∈ live
  pending_nodup : c.pageSize = 1 → s.pending.Nodup

namespace SwaOk

theorem clear (c : SwaConfig) : SwaOk c (SwaAllocator.clear c) ∅ :=
  ⟨⟨id, SwaInv.clear c⟩, fun _ hx => absurd hx not_mem_nil, fun _ => nodup_nil⟩

theorem of_inv (O : SwaOk c s live) (V : ∃ w, SwaInv c s' live' w) (hsub : live ⊆ live')
    (hpending : s'.pending = s.pending) : SwaOk c s' live' :=
  ⟨V, fun x hx => hsub (O.pending_live x (hpending ▸ hx)), fun hone =>
    hpending ▸ O.pending_nodup hone⟩

/-- Outside a group nothing waits. -/
theorem of_ready (V : SwaInv c s live w) (h : s.isNotInFreeGroup = true) : SwaOk c s live := by
  have hnil : s.pending = [] := if_pos h
  exact ⟨⟨w, V⟩, fun _ hx => absurd (hnil ▸ hx) not_mem_nil, fun _ => hnil ▸ nodup_nil⟩

end SwaOk

theorem free_ready (hgroup : s.isNotInFreeGroup = true) (h : s.free c l = some s') :
    s' = SwaAllocator.freeSwa c { s with full := s.full.free c.full l } l := by
  simp only [SwaAllocator.free, hgroup, if_true] at h
  split at h
  · rename_i hnil
    cases h
    rw [hnil]
    simp [SwaAllocator.freeSwa, KVAllocator.free, KVAllocator.freePaged, KVAllocator.freeWith]
  · split at h
    · rw [hgroup]
      exact (Option.some.inj h).symm
    · cases h

theorem isNotInFreeGroup_freeSwa (c : SwaConfig) (s : SwaAllocator) (l : List ℤ) :
    (s.freeSwa c l).isNotInFreeGroup = s.isNotInFreeGroup := by
  rw [freeSwa_eq]

theorem SwaOk.free (O : SwaOk c s live) (hl : ∀ x ∈ l, x ∈ live)
    (hnodup : c.pageSize = 1 → l.Nodup) (hgroup : s.isNotInFreeGroup = true)
    (h : s.free c l = some s') : SwaOk c s' (live \ pageMates c l) := by
  obtain ⟨w, V⟩ := O.inv
  rw [free_ready hgroup h]
  refine SwaOk.of_ready (V.release hl hnodup) ?_
  rw [isNotInFreeGroup_freeSwa]
  exact hgroup

/-- A free that waits for the end of the group. -/
theorem SwaOk.defer (O : SwaOk c s live)
    (hl : ∀ x ∈ l, x ∈ live ∧ x ∉ pageMates c s.pending) (hnodup : c.pageSize = 1 → l.Nodup)
    (hgroup : s.isNotInFreeGroup = false) (h : s.free c l = some s') : SwaOk c s' live := by
  simp only [SwaAllocator.free, hgroup, Bool.false_eq_true, if_false] at h
  split at h
  · cases h
    exact O
  · split at h
    · cases h
      have hold : s.pending = s.freeGroup.flatten := if_neg (by rw [hgroup]; decide)
      have hnew : SwaAllocator.pending
          { s with isNotInFreeGroup := false, freeGroup := s.freeGroup ++ [l] } =
          s.pending ++ l := by
        rw [hold]
        change (s.freeGroup ++ [l]).flatten = _
        rw [flatten_append, flatten_singleton]
      obtain ⟨w, V⟩ := O.inv
      refine ⟨⟨w, V.regroup false _⟩, fun x hx => ?_, fun hone => ?_⟩
      · rw [hnew] at hx
        rcases mem_append.mp hx with hx | hx
        · exact O.pending_live x hx
        · exact (hl x hx).1
      · rw [hnew, nodup_append']
        exact ⟨O.pending_nodup hone, hnodup hone, fun x hx hx' => (hl x hx').2 ⟨x, hx, rfl⟩⟩
    · cases h

theorem SwaOk.groupEnd (O : SwaOk c s live) (hgroup : s.isNotInFreeGroup = false)
    (h : s.freeGroupEnd c = some s') : SwaOk c s' (live \ pageMates c s.freeGroup.flatten) := by
  have hold : s.pending = s.freeGroup.flatten := if_neg (by rw [hgroup]; decide)
  obtain ⟨w, V⟩ := O.inv
  have hready := SwaOk.of_ready (V.regroup true s.freeGroup) rfl
  have hlive := O.pending_live
  have hnodup := O.pending_nodup
  rw [hold] at hlive hnodup
  unfold SwaAllocator.freeGroupEnd at h
  split at h
  · exact hready.free hlive hnodup rfl h
  · rename_i hnil
    rw [not_not] at hnil
    cases h
    have hnone : pageMates c s.freeGroup.flatten = ∅ := by
      rw [hnil]
      simp [pageMates]
    rw [hnone, Set.sdiff_empty]
    exact hready

theorem SwaOk.step (O : SwaOk c s live) {op : SwaOp} (hop : op.Legal c s live)
    (hback : op.Backed c s) (h : op.run c s live = some (s', live')) : SwaOk c s' live' := by
  obtain ⟨w, V⟩ := O.inv
  cases op with
  | alloc n =>
    obtain ⟨⟨out, t⟩, hout, heq⟩ := Option.map_eq_some_iff.mp h
    cases heq
    obtain ⟨V', hpending⟩ := alloc_inv V hout
    exact O.of_inv V' Set.subset_union_left hpending
  | allocExtend reqs =>
    obtain ⟨⟨out, t⟩, hout, heq⟩ := Option.map_eq_some_iff.mp h
    cases heq
    obtain ⟨V', hpending⟩ := allocExtend_inv V hop hback hout
    exact O.of_inv V' Set.subset_union_left hpending
  | allocExtendSwaTail r tail =>
    obtain ⟨⟨out, t⟩, hout, heq⟩ := Option.map_eq_some_iff.mp h
    cases heq
    obtain ⟨V', hpending⟩ := allocExtendSwaTail_inv V hop.1 hop.2 hout
    exact O.of_inv V' Set.subset_union_left hpending
  | allocDecode reqs =>
    obtain ⟨⟨out, t⟩, hout, heq⟩ := Option.map_eq_some_iff.mp h
    cases heq
    obtain ⟨V', hpending⟩ := allocDecode_inv V hop hback hout
    exact O.of_inv V' Set.subset_union_left hpending
  | free l =>
    obtain ⟨t, ht, heq⟩ := Option.map_eq_some_iff.mp h
    cases hgroup : s.isNotInFreeGroup with
    | true =>
      rw [hgroup] at heq
      cases heq
      exact O.free (fun x hx => (hop.1 x hx).1) hop.2 hgroup ht
    | false =>
      rw [hgroup] at heq
      cases heq
      exact O.defer hop.1 hop.2 hgroup ht
  | freeSwa l =>
    cases h
    have V' := V.freeSwa hop.1 hop.2 V.full V.full_ready
      (fun x hx hnot => absurd hx hnot) V.live_page
    refine O.of_inv ⟨w, V'⟩ subset_rfl ?_
    rw [freeSwa_eq]
    rfl
  | freeGroupBegin =>
    cases h
    refine ⟨⟨w, V.regroup false []⟩, fun x hx => absurd hx not_mem_nil, fun _ => ?_⟩
    exact nodup_nil
  | freeGroupEnd =>
    obtain ⟨t, ht, heq⟩ := Option.map_eq_some_iff.mp h
    cases heq
    exact O.groupEnd hop ht

theorem SwaOk.of_run (h : BackedRun c s live) : SwaOk c s live := by
  induction h with
  | start => exact SwaOk.clear c
  | step _ hop hback hok ih => exact ih.step hop hback hok

/-- No window page is lost, shared or returned twice. -/
structure SwaConserved (c : SwaConfig) (s : SwaAllocator) (live : Set ℤ) : Prop where
  injective : ∀ x ∈ live, ∀ y ∈ live, s.fullToSwa x ≠ 0 → s.fullToSwa x = s.fullToSwa y → x = y
  mapped_in_pool : ∀ x ∈ live, s.fullToSwa x ≠ 0 → s.fullToSwa x / (c.pageSize : ℤ) ∈ c.swa.pool
  allocated_iff : ∀ q ∈ c.swa.pool, q ∉ s.swa.freePages ++ s.swa.releasePages ↔
    ∃ x ∈ live, s.fullToSwa x ≠ 0 ∧ s.fullToSwa x / (c.pageSize : ℤ) = q
  returned_once : (s.swa.freePages ++ s.swa.releasePages).Nodup
  returned_in_pool : ∀ q ∈ s.swa.freePages ++ s.swa.releasePages, q ∈ c.swa.pool

theorem SwaInv.conserved (V : SwaInv c s live w) : SwaConserved c s live := by
  have hne : ∀ x ∈ live, x ≠ -1 := fun x hx => ne_sentinel c.pageSize_pos (V.live_page x hx).1
  have havail : s.swa.avail = ((s.swa.freePages ++ s.swa.releasePages : List ℤ) : Multiset ℤ) :=
    coe_add _ _
  have hmem : ∀ {q}, q ∈ s.swa.avail ↔ q ∈ s.swa.freePages ++ s.swa.releasePages := by
    intro q
    rw [havail, mem_coe]
  refine ⟨?_, ?_, ?_, ?_, ?_⟩
  · intro x hx y hy h heq
    exact V.eq_of_mapped (hne x hx) (hne y hy) h heq
  · intro x hx h
    exact (V.page_of_mapped (hne x hx) h).2.1
  · intro q hq
    rw [← hmem]
    constructor
    · intro hnot
      obtain ⟨_, ⟨x, hx, h, rfl⟩, hpage⟩ := V.bijOn.surjOn ⟨hq, hnot⟩
      exact ⟨x, V.live_of_mapped hx h, h, (V.page_of_mapped hx h).1.trans hpage⟩
    · rintro ⟨x, hx, h, rfl⟩
      exact (V.page_of_mapped (hne x hx) h).2.2
  · rw [← coe_nodup, ← havail]
    exact V.swa.nodup
  · intro q hq
    exact V.swa.pool q (hmem.mpr hq)

/-- Window slots are conserved along every run whose allocations are backed. -/
theorem swaConserved_of_backedRun (h : BackedRun c s live) : SwaConserved c s live := by
  obtain ⟨w, V⟩ := (SwaOk.of_run h).inv
  exact V.conserved

/-- Two pages of two slots in each pool. -/
def twoPages : SwaConfig where
  size := 4
  sizeSwa := 4
  pageSize := 2
  pageSize_pos := Nat.two_pos
  needSort := true

/-- A request of one token. -/
def oneToken : ExtendReq where
  prefixLen := 0
  seqLen := 1
  lastLoc := -1
  prefix_le := by decide

theorem legal_oneTokens (s : SwaAllocator) (live : Set ℤ) :
    (SwaOp.allocExtend [oneToken, oneToken]).Legal twoPages s live := by
  intro r hr hpart
  simp only [mem_cons, not_mem_nil, or_false, or_self] at hr
  subst hr
  exact absurd rfl hpart

theorem backed_oneTokens (s : SwaAllocator) :
    (SwaOp.allocExtend [oneToken, oneToken]).Backed twoPages s := by
  intro r hr hpart
  simp only [mem_cons, not_mem_nil, or_false, or_self] at hr
  subst hr
  exact absurd rfl hpart

theorem legal_freeSwa_twoPages (s : SwaAllocator) (live : Set ℤ)
    (hl : ∀ x ∈ l, x / 2 ∈ twoPages.full.pool) : (SwaOp.freeSwa l).Legal twoPages s live :=
  ⟨hl, fun h => absurd h (by decide)⟩

theorem legal_free_twoPages (s : SwaAllocator) (live : Set ℤ)
    (hl : ∀ x ∈ l, x ∈ live) (hgroup : s.isNotInFreeGroup = true) :
    (SwaOp.free l).Legal twoPages s live := by
  have hnil : s.pending = [] := if_pos hgroup
  refine ⟨fun x hx => ⟨hl x hx, ?_⟩, fun h => absurd h (by decide)⟩
  rintro ⟨t, ht, -⟩
  rw [hnil] at ht
  cases ht

/-- The window half of a page is given up first, then both halves of both pages. -/
theorem swaConserved_twoPages : ∃ (s : SwaAllocator) (live : Set ℤ), BackedRun twoPages s live ∧
      s.swa.freePages ++ s.swa.releasePages = [2, 1] ∧ SwaConserved twoPages s live := by
  have hrun₁ := BackedRun.step BackedRun.start (legal_oneTokens _ _) (backed_oneTokens _) rfl
  have hrun₂ := BackedRun.step hrun₁ (legal_freeSwa_twoPages _ _ (l := [2]) (by decide)) trivial rfl
  have hrun₃ := BackedRun.step hrun₂
    (legal_free_twoPages _ _ (fun x hx => Or.inr hx) rfl) trivial rfl
  exact ⟨_, _, hrun₃, rfl, swaConserved_of_backedRun hrun₃⟩

/-- Both requests go on behind their first token. -/
theorem legal_decode_twoPages (s : SwaAllocator) {live : Set ℤ}
    (hlive : ∀ x, x ∈ live ↔ x = 2 ∨ x = 4) :
    (SwaOp.allocDecode [⟨2, 2, by decide⟩, ⟨2, 4, by decide⟩]).Legal twoPages s live := by
  have hnew : ∀ q x : ℤ, q % 2 = 0 → x / 2 = q / 2 → q < x → x ∉ live := by
    intro q x hq hpage hlt hx
    rcases (hlive x).mp hx with rfl | rfl <;> omega
  intro r hr _
  rcases mem_cons.mp hr with rfl | hr
  · exact ⟨(hlive 2).mpr (Or.inl rfl), rfl, fun x => hnew 2 x rfl⟩
  · rcases mem_singleton.mp hr with rfl
    exact ⟨(hlive 4).mpr (Or.inr rfl), rfl, fun x => hnew 4 x rfl⟩

/-- Requests that go on in pages without a window half share the slot behind the padding slot. -/
theorem shared_swa_slot_twoPages : ∃ (s : SwaAllocator) (live : Set ℤ), SwaRun twoPages s live ∧
      3 ∈ live ∧ 5 ∈ live ∧ s.fullToSwa 3 = 1 ∧ s.fullToSwa 5 = 1 := by
  have hrun₁ := SwaRun.step SwaRun.start (legal_oneTokens _ _) rfl
  have hrun₂ := SwaRun.step hrun₁ (legal_freeSwa_twoPages _ _ (l := [2, 4]) (by decide)) rfl
  have hlive : ∀ x : ℤ, x ∈ (∅ ∪ { x | x ∈ [2, 4] } : Set ℤ) ↔ x = 2 ∨ x = 4 := by
    intro x
    simp
  have hrun₃ := SwaRun.step hrun₂ (legal_decode_twoPages _ hlive) rfl
  exact ⟨_, _, hrun₃, Or.inr (by decide), Or.inr (by decide), by decide, by decide⟩

def tokenPages : SwaConfig := { twoPages with pageSize := 1, pageSize_pos := Nat.one_pos }

/-- With pages of one token an index that one call names twice comes back twice. -/
theorem swa_page_returned_twice : ∃ (s : SwaAllocator) (live : Set ℤ),
    SwaRun tokenPages s live ∧ 1 ∈ live ∧
      ¬((s.freeSwa tokenPages [1, 1]).swa.avail).Nodup := by
  have hrun := SwaRun.step SwaRun.start
    (show SwaOp.Legal tokenPages (.clear tokenPages) ∅ (.alloc 1) from trivial) rfl
  exact ⟨_, _, hrun, Or.inr (by decide), by decide⟩

end Sglang.PagedAlloc
