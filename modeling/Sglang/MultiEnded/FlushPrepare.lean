import Sglang.MultiEnded.Release

/-!
# Preparing a flush

Before the survivor walk a flush returns settled pages to the free list, sorts
it, and retreats the watermark past the holes next to it. Each step only
rearranges the unbound pages of the band, or gives up a part of them.
-/

namespace Sglang.MultiEnded

open Sglang.Support Sglang.PagedAlloc Sglang.UnifiedPool List

variable {c : Config} {a : Allocator}

/-- The tables may be rewritten and the unbound pages rearranged between the free
list and the pending entries. -/
theorem Conserved.rearrange {f g : ℤ → ℤ} {free : List ℤ} {entries : List (Event × List ℤ)}
    {cpu : Finset ℤ} (h : Conserved c a) (hlazy : c.lazyCompaction = true)
    (hpool : SlotPool f g (-1) (-1) 0 (band c a) (free ++ entries.flatMap Prod.snd))
    (hside : VirtualSide c f a.freeVirtualIds (heldPages c a))
    (hlen : (unboundPages a).length = (free ++ entries.flatMap Prod.snd).length)
    (hcpu : cpu = (entries.flatMap Prod.snd).toFinset) (hkeys : (entries.map Prod.fst).Nodup)
    (hsorted : c.sortFreeListAfterMerge = true → free.Pairwise (· ≤ ·)) : Conserved c { a with
      virtualToPhysical := f
      physicalToVirtual := g
      freePhysPages := free
      pendingReuse := entries
      pendingReusePagesCpu := cpu } := by
  have hheld : width c a - ((free ++ entries.flatMap Prod.snd).length : ℤ) = heldPages c a := by
    rw [← hlen]
    rfl
  exact
    { h with
      pool := hpool
      pendingCpu := hcpu
      keys_nodup := hkeys
      live := fun hl => (h.live hl).trans hheld.symm
      sorted := hsorted
      eager := fun hfalse => by simp [hlazy] at hfalse
      toVirtualSide := hside.of_eq hheld }

/-! ## Draining -/

theorem perm_filter_flatMap {α β : Type*} (l : List α) (p : α → Bool) (g : α → List β) :
    (l.flatMap g).Perm ((l.filter p).flatMap g ++ (l.filter fun x => !p x).flatMap g) := by
  rw [← flatMap_append]
  exact (filter_append_perm p l).symm.flatMap_right g

/-- Draining rearranges the unbound pages; the table fields stay. -/
theorem drainPendingReuse_eq (urgent : Bool) (fired : Event → Bool) :
    drainPendingReuse c a urgent fired = { a with
        pendingReuse := a.pendingReuse.filter fun e => !(fired e.1 || urgent)
        pendingReusePagesCpu := (drainPendingReuse c a urgent fired).pendingReusePagesCpu
        freePhysPages := (drainPendingReuse c a urgent fired).freePhysPages } := by
  unfold drainPendingReuse
  dsimp only
  by_cases h : (a.pendingReuse.filter fun e => fired e.1 || urgent) = []
  · rw [if_pos h]
    have hall : (a.pendingReuse.filter fun e => !(fired e.1 || urgent)) =
        a.pendingReuse := by
      rw [filter_eq_nil_iff] at h
      refine filter_eq_self.mpr fun e he => ?_
      simpa using h e he
    rw [hall]
  · rw [if_neg h]

theorem Conserved.drainPendingReuse (h : Conserved c a)
    (hlazy : c.lazyCompaction = true) (urgent : Bool) (fired : Event → Bool) :
    Conserved c (drainPendingReuse c a urgent fired) := by
  unfold MultiEnded.drainPendingReuse
  dsimp only
  set ready := a.pendingReuse.filter fun e => fired e.1 || urgent with hready
  by_cases hnil : ready = []
  · rw [if_pos hnil]
    exact h
  rw [if_neg hnil]
  set rest := a.pendingReuse.filter fun e => !(fired e.1 || urgent) with hrest
  have hsplit : (pendingPages a).Perm
      (ready.flatMap Prod.snd ++ rest.flatMap Prod.snd) :=
    perm_filter_flatMap a.pendingReuse _ _
  have hnodup : (ready.flatMap Prod.snd ++ rest.flatMap Prod.snd).Nodup :=
    hsplit.nodup_iff.mp (nodup_append.mp h.pool.nodup).2.1
  have hdisj := disjoint_of_nodup_append hnodup
  have hperm : (unboundPages a).Perm
      (c.mergeFree a.freePhysPages (ready.flatMap Prod.snd) ++ rest.flatMap Prod.snd) := by
    refine (hsplit.append_left _).trans ?_
    rw [← append_assoc]
    exact (c.perm_mergeFree _ _).symm.append_right _
  refine h.rearrange hlazy (h.pool.perm hperm) h.toVirtualSide hperm.length_eq ?_ ?_
    (fun hs => c.sorted_mergeFree hs _ _)
  · ext p
    rw [Finset.mem_sdiff, h.pendingCpu, mem_toFinset, mem_toFinset,
      mem_toFinset, hsplit.mem_iff, mem_append]
    constructor
    · rintro ⟨hr | hr, hnot⟩
      · exact absurd hr hnot
      · exact hr
    · intro hr
      exact ⟨Or.inr hr, fun hready => hdisj hready hr⟩
  · exact h.keys_nodup.sublist ((filter_sublist).map _)

/-! ## Sorting -/

/-- The free list before the walk is sorted either way. -/
def sortedForFlush (c : Config) (a : Allocator) : Allocator :=
  if ¬ c.sortFreeListAfterMerge ∧ a.freePhysPages.length > 1 then
    { a with freePhysPages := sortPages a.freePhysPages }
  else a

theorem flushPrepare_eq (urgent : Bool) (q : FlushQueries) :
    flushPrepare c a urgent q = absorbBoundaryHoles c
      (sortedForFlush c (drainPendingReuse c a urgent q.drain)) :=
  rfl

theorem Conserved.sortedForFlush (h : Conserved c a) (hlazy : c.lazyCompaction = true) :
    Conserved c (sortedForFlush c a) ∧ (sortedForFlush c a).freePhysPages.Pairwise (· ≤ ·) := by
  unfold MultiEnded.sortedForFlush
  by_cases hsort : ¬ c.sortFreeListAfterMerge ∧ a.freePhysPages.length > 1
  · rw [if_pos hsort]
    have hperm : (unboundPages a).Perm (sortPages a.freePhysPages ++ pendingPages a) :=
      (perm_sortPages _).symm.append_right _
    exact ⟨h.rearrange hlazy (h.pool.perm hperm) h.toVirtualSide hperm.length_eq h.pendingCpu
      h.keys_nodup fun _ => pairwise_sortPages _, pairwise_sortPages _⟩
  · rw [if_neg hsort]
    refine ⟨h, ?_⟩
    by_cases hs : c.sortFreeListAfterMerge = true
    · exact h.sorted hs
    · have hle : a.freePhysPages.length ≤ 1 := by
        by_contra hgt
        exact hsort ⟨by simpa using hs, not_le.mp hgt⟩
      match a.freePhysPages, hle with
      | [], _ => exact List.Pairwise.nil
      | [p], _ => exact pairwise_singleton _ _

/-! ## Absorbing the boundary -/

/-- The leading run of holes is the run of pages from `p` inward. -/
theorem mem_take_boundaryRun (holes : List ℤ) : ∀ p x : ℤ, x ∈ holes.take (boundaryRun c p holes) ↔
      c.depth p - boundaryRun c p holes < c.depth x ∧ c.depth x ≤ c.depth p := by
  induction holes with
  | nil =>
    intro p x
    simp only [boundaryRun, take_nil, not_mem_nil, false_iff]
    omega
  | cons h holes ih =>
    intro p x
    by_cases hp : h = p
    · subst hp
      simp only [boundaryRun, if_true, take_succ_cons, mem_cons, ih, c.depth_inward]
      rw [← c.depth_inj]
      push_cast
      omega
    · simp only [boundaryRun, if_neg hp, take_zero, not_mem_nil, false_iff]
      push_cast
      omega

theorem boundaryRun_le (holes : List ℤ) : ∀ p : ℤ, boundaryRun c p holes ≤ holes.length := by
  induction holes with
  | nil => intro p; simp [boundaryRun]
  | cons h holes ih =>
    intro p
    by_cases hp : h = p
    · simpa [boundaryRun, hp] using ih (c.inward p)
    · simp [boundaryRun, hp]

/-- The holes next to the watermark, in watermark order. -/
def boundaryHoles (c : Config) (a : Allocator) : List ℤ :=
  (c.holesFromWatermark a.freePhysPages).take
    (boundaryRun c (c.inward a.watermarkPhysical) (c.holesFromWatermark a.freePhysPages))

theorem length_boundaryHoles : (boundaryHoles c a).length =
    boundaryRun c (c.inward a.watermarkPhysical) (c.holesFromWatermark a.freePhysPages) := by
  unfold boundaryHoles
  rw [length_take]
  exact min_eq_left (boundaryRun_le _ _)

theorem mem_boundaryHoles {p : ℤ} : p ∈ boundaryHoles c a ↔
    width c a - (boundaryHoles c a).length ≤ c.depth p ∧ c.depth p < width c a := by
  rw [length_boundaryHoles]
  unfold boundaryHoles
  rw [mem_take_boundaryRun, c.depth_inward]
  unfold width
  omega

/-- Absorbing splits the boundary holes off the free list. -/
theorem absorbBoundaryHoles_free : a.freePhysPages.Perm ((absorbBoundaryHoles c a).freePhysPages ++
        boundaryHoles c a) ∧ (absorbBoundaryHoles c a).freePhysPages.Sublist a.freePhysPages := by
  unfold absorbBoundaryHoles boundaryHoles Config.holesFromWatermark
  cases c.growDirection with
  | up =>
    dsimp only
    refine ⟨?_, take_sublist _ _⟩
    rw [take_reverse]
    calc
      a.freePhysPages.Perm (a.freePhysPages.take _ ++
          a.freePhysPages.drop _) := by rw [take_append_drop]
      List.Perm _ _ := (reverse_perm _).symm.append_left _
  | down =>
    dsimp only
    refine ⟨?_, drop_sublist _ _⟩
    calc
      a.freePhysPages.Perm (a.freePhysPages.take _ ++
          a.freePhysPages.drop _) := by rw [take_append_drop]
      List.Perm _ _ := perm_append_comm

theorem width_absorbBoundaryHoles : width c (absorbBoundaryHoles c a) =
    width c a - (boundaryHoles c a).length := by
  rw [length_boundaryHoles]
  exact c.depth_retreat _ _

theorem Conserved.absorbBoundaryHoles (h : Conserved c a) (hlazy : c.lazyCompaction = true) :
    Conserved c (absorbBoundaryHoles c a) := by
  obtain ⟨hfree, hsub⟩ := absorbBoundaryHoles_free
  have hwidth := width_absorbBoundaryHoles (c := c) (a := a)
  have hperm : (unboundPages a).Perm
      (unboundPages (MultiEnded.absorbBoundaryHoles c a) ++ boundaryHoles c a) := by
    calc
      (unboundPages a).Perm
          (((MultiEnded.absorbBoundaryHoles c a).freePhysPages ++
            boundaryHoles c a) ++ pendingPages a) := hfree.append_right _
      List.Perm _ _ := by
        rw [unboundPages, append_assoc, append_assoc]
        exact perm_append_comm.append_left _
  have hlen := hperm.length_eq
  rw [length_append] at hlen
  have hheld : heldPages c (MultiEnded.absorbBoundaryHoles c a) = heldPages c a := by
    rw [heldPages, hwidth, heldPages]
    omega
  have hbound := length_le_width h.width_nonneg
    (nodup_append.mp (hperm.nodup_iff.mp h.pool.nodup)).2.1
    (fun p hp => ((h.pool.mem_iff p).mp (hperm.mem_iff.mpr (mem_append_right _ hp))).1)
  refine
    { h with
      pool := ?_
      width_nonneg := by omega
      width_le := ?_
      live := fun hl => (h.live hl).trans hheld.symm
      sorted := fun hs => (h.sorted hs).sublist hsub
      eager := fun hfalse => by simp [hlazy] at hfalse
      toVirtualSide := h.toVirtualSide.of_eq hheld }
  · refine h.pool.shrink hperm ?_
    intro p
    rw [mem_boundaryHoles, mem_band_iff, mem_band_iff, hwidth]
    omega
  · have := h.width_le
    omega

/-! ## The prepared state -/

/-- What the preparation leaves for the walk. -/
structure Prepared (c : Config) (a a₀ : Allocator) (urgent : Bool)
    (q : FlushQueries) : Prop where
  conserved : Conserved c a₀
  sorted : a₀.freePhysPages.Pairwise (· ≤ ·)
  width_le : width c a₀ ≤ width c a
  same : ∃ wm free cpu, a₀ = { a with
    watermarkPhysical := wm
    freePhysPages := free
    pendingReuse := a.pendingReuse.filter fun e => !(q.drain e.1 || urgent)
    pendingReusePagesCpu := cpu }

theorem flushPrepare_prepared (h : Conserved c a)
    (hlazy : c.lazyCompaction = true) (urgent : Bool) (q : FlushQueries) :
    Prepared c a (flushPrepare c a urgent q) urgent q := by
  have hdrain := h.drainPendingReuse hlazy urgent q.drain
  obtain ⟨hsort, hsorted⟩ := hdrain.sortedForFlush hlazy
  set b := drainPendingReuse c a urgent q.drain with hb
  have hbeq := drainPendingReuse_eq (c := c) (a := a) urgent q.drain
  have hsame : ∃ free, sortedForFlush c b = { b with freePhysPages := free } := by
    unfold sortedForFlush
    by_cases hs : ¬ c.sortFreeListAfterMerge ∧ b.freePhysPages.length > 1
    · exact ⟨_, if_pos hs⟩
    · exact ⟨b.freePhysPages, if_neg hs⟩
  obtain ⟨free, hfree⟩ := hsame
  rw [flushPrepare_eq, ← hb]
  refine
    { conserved := hsort.absorbBoundaryHoles hlazy
      sorted := hsorted.sublist absorbBoundaryHoles_free.2
      width_le := ?_
      same := ?_ }
  · rw [width_absorbBoundaryHoles]
    have : width c (sortedForFlush c b) = width c a := by
      rw [hfree, hb, hbeq]
      rfl
    omega
  · unfold absorbBoundaryHoles
    rw [hfree, hb, hbeq]
    exact ⟨_, _, _, rfl⟩

end Sglang.MultiEnded
