import Mathlib.Data.Int.Range
import Sglang.MultiEnded.Allocator
import Sglang.Support.SlotPool

/-!
# The allocated band and its invariant

Both grow directions allocate a band of pages next to their own end of the
buffer. `depth` counts from that end, so that the band of either direction is
the set of pages of depth `0, …, width - 1` and every statement is made once.
`Conserved` is the invariant of an allocator: its band is a `SlotPool` whose
unbound slots are the free list and the pages pending reuse.
-/

namespace Sglang.MultiEnded

open Sglang.Support Sglang.PagedAlloc Sglang.UnifiedPool

/-! ## Page lists -/

variable {p : ℤ}

@[simp] theorem mem_pageRange {lo hi : ℤ} : p ∈ pageRange lo hi ↔ lo ≤ p ∧ p < hi :=
  Int.mem_range_iff

theorem nodup_pageRange (lo hi : ℤ) : (pageRange lo hi).Nodup :=
  List.nodup_range.map fun i j hij => by simpa using hij

@[simp] theorem length_pageRange (lo hi : ℤ) : (pageRange lo hi).length = (hi - lo).toNat := by
  simp [pageRange]

theorem perm_sortPages (l : List ℤ) : (sortPages l).Perm l := List.perm_insertionSort _ l

@[simp] theorem mem_sortPages {l : List ℤ} : p ∈ sortPages l ↔ p ∈ l := (perm_sortPages l).mem_iff

theorem pairwise_sortPages (l : List ℤ) : (sortPages l).Pairwise (· ≤ ·) :=
  List.pairwise_insertionSort _ l

theorem nodup_uniquePages (pageSize : ℕ) (ids : List ℤ) : (uniquePages pageSize ids).Nodup :=
  (perm_sortPages _).nodup_iff.mpr (List.nodup_dedup _)

@[simp] theorem mem_uniquePages {pageSize : ℕ} {ids : List ℤ} :
    p ∈ uniquePages pageSize ids ↔ ∃ t ∈ ids, t / (pageSize : ℤ) = p := by
  simp [uniquePages]

namespace Config

variable (c : Config) {p : ℤ}

theorem entryBytes_pos : (0 : ℤ) < c.entryBytesPerPage :=
  Int.natCast_pos.mpr c.entryBytesPerPage_pos

theorem pageSize_pos_int : (0 : ℤ) < c.pageSize := Int.natCast_pos.mpr c.pageSize_pos

theorem perm_mergeFree (free pages : List ℤ) : (c.mergeFree free pages).Perm (free ++ pages) := by
  by_cases h : c.sortFreeListAfterMerge = true
  · simpa [mergeFree, h] using perm_sortPages (free ++ pages)
  · simp [mergeFree, h]

theorem sorted_mergeFree (h : c.sortFreeListAfterMerge = true) (free pages : List ℤ) :
    (c.mergeFree free pages).Pairwise (· ≤ ·) := by
  simpa [mergeFree, h] using pairwise_sortPages (free ++ pages)

/-! ## Depth -/

/-- Distance of a page from the end of the buffer this side grows from. -/
def depth (p : ℤ) : ℤ :=
  match c.growDirection with
  | .up => p - c.minPageIndex
  | .down => (c.numPages : ℤ) - 1 - p

/-- Pages this side may ever allocate. -/
def capacity : ℤ := (c.numPages : ℤ) - c.minPageIndex

/-- The watermark after taking `n` more pages. -/
def advance (wm n : ℤ) : ℤ :=
  match c.growDirection with
  | .up => wm + n
  | .down => wm - n

theorem depth_inj {p' : ℤ} : c.depth p = c.depth p' ↔ p = p' := by
  unfold depth
  cases c.growDirection <;> simp only <;> omega

theorem depth_inward (p : ℤ) : c.depth (c.inward p) = c.depth p - 1 := by
  unfold depth inward
  cases c.growDirection <;> simp only <;> omega

theorem depth_retreat (wm n : ℤ) : c.depth (c.retreat wm n) = c.depth wm - n := by
  unfold depth retreat
  cases c.growDirection <;> simp only <;> omega

theorem depth_advance (wm n : ℤ) : c.depth (c.advance wm n) = c.depth wm + n := by
  unfold depth advance
  cases c.growDirection <;> simp only <;> omega

theorem advance_zero (wm : ℤ) : c.advance wm 0 = wm := by
  unfold advance
  cases c.growDirection <;> simp

theorem beyond_iff {h : ℤ} : c.beyond h p = true ↔ c.depth p < c.depth h := by
  unfold beyond depth
  cases c.growDirection <;> simp only [decide_eq_true_eq] <;> omega

theorem inTable_iff : c.inTable p = true ↔ 0 ≤ c.depth p := by
  unfold inTable depth
  cases c.growDirection <;> simp only [decide_eq_true_eq] <;> omega

/-- Allocatable pages are rows of the table above the reserved ones. -/
theorem page_bounds (h0 : 0 ≤ c.depth p) (h1 : c.depth p < c.capacity) :
    (c.minPageIndex : ℤ) ≤ p ∧ p < c.numPages := by
  unfold depth at h0 h1
  unfold capacity at h1
  cases hd : c.growDirection <;> simp only [hd] at h0 h1 <;> omega

theorem page_pos (h0 : 0 ≤ c.depth p) (h1 : c.depth p < c.capacity) : 0 < p := by
  have hmin := c.minPageIndex_pos
  have := (c.page_bounds h0 h1).1
  omega

/-- A page at a given depth. -/
def pageAt (k : ℤ) : ℤ :=
  match c.growDirection with
  | .up => c.minPageIndex + k
  | .down => (c.numPages : ℤ) - 1 - k

theorem depth_pageAt (k : ℤ) : c.depth (c.pageAt k) = k := by
  unfold depth pageAt
  cases c.growDirection <;> simp only <;> omega

end Config

/-! ## The band -/

section Band

variable (c : Config) (a : Allocator)

/-- Number of pages between the own end and the watermark. -/
def width : ℤ := c.depth a.watermarkPhysical

/-- The pages between the own end and the watermark. -/
def band : Set ℤ := {p | 0 ≤ c.depth p ∧ c.depth p < width c a}

/-- The unbound pages of the band, as the allocator keeps them. -/
def unboundPages : List ℤ := a.freePhysPages ++ pendingPages a

/-- Number of bound pages of the band. -/
def heldPages : ℤ := width c a - (unboundPages a).length

end Band

theorem mem_band_iff {c : Config} {a : Allocator} :
    p ∈ band c a ↔ 0 ≤ c.depth p ∧ c.depth p < width c a :=
  Iff.rfl

theorem allocatedPages_eq (c : Config) (a : Allocator) :
    allocatedPages c a = max 0 (width c a) := by
  unfold allocatedPages width Config.depth
  cases c.growDirection <;> rfl

/-- The virtual side of an allocator: the anchor alone may be bound to page `0`, the
free ids are unbound rows, and with the `held` pages they fill the index space. -/
structure VirtualSide (c : Config) (f : ℤ → ℤ) (ids : List ℤ) (held : ℤ) : Prop where
  anchor : ∀ v, f v = 0 → v = 0
  sink : f 0 ≤ 0
  bound_nonneg : ∀ v, f v ≠ -1 → 0 ≤ v
  ids_nodup : ids.Nodup
  ids_pos : ∀ v ∈ ids, 0 < v
  ids_unbound : ∀ v ∈ ids, f v = -1
  ids_enough : c.isIdOwner = true → c.capacity ≤ ids.length + held

theorem VirtualSide.of_eq {c : Config} {f : ℤ → ℤ} {ids : List ℤ} {held held' : ℤ}
    (V : VirtualSide c f ids held) (h : held' = held) : VirtualSide c f ids held' :=
  h ▸ V

/-- The invariant of one allocator. -/
structure Conserved (c : Config) (a : Allocator) : Prop extends
    VirtualSide c a.virtualToPhysical a.freeVirtualIds (heldPages c a) where
  pool : SlotPool a.virtualToPhysical a.physicalToVirtual (-1) (-1) 0 (band c a) (unboundPages a)
  width_nonneg : 0 ≤ width c a
  width_le : width c a = 0 ∨ width c a ≤ c.capacity
  pendingCpu : a.pendingReusePagesCpu = (pendingPages a).toFinset
  keys_nodup : (a.pendingReuse.map Prod.fst).Nodup
  live : c.lazyCompaction = true → a.livePageCount = heldPages c a
  sorted : c.sortFreeListAfterMerge = true → a.freePhysPages.Pairwise (· ≤ ·)
  eager : c.lazyCompaction = false → a.freePhysPages = [] ∧ a.pendingReuse = []

/-! ## The initial state -/

theorem width_clear (c : Config) : width c (clear c) = 0 := by
  unfold width clear Config.depth
  cases c.growDirection <;> simp

theorem heldPages_clear (c : Config) : heldPages c (clear c) = 0 := by
  rw [heldPages, width_clear]
  rfl

theorem partialInverse_clear (c : Config) :
    PartialInverse (clear c).virtualToPhysical (clear c).physicalToVirtual (-1) (-1) := by
  intro v p
  simp only [clear]
  grind

theorem conserved_clear (c : Config) : Conserved c (clear c) := by
  have hband : band c (clear c) = ∅ := by
    ext p
    rw [mem_band_iff, width_clear]
    simp only [Set.mem_empty_iff_false, iff_false]
    omega
  have hids : ∀ v ∈ (clear c).freeVirtualIds, 0 < v := by
    intro v hv
    have hmin := c.minPageIndex_pos
    by_cases hown : c.isIdOwner = true
    · simp only [clear, hown, if_true, mem_pageRange] at hv
      omega
    · simp [clear, hown] at hv
  refine
    { pool :=
        { inverse := partialInverse_clear c
          bound_cases := ?_
          nodup := List.nodup_nil
          mem_iff := fun p => by simp [hband, show unboundPages (clear c) = [] from rfl]
          outside := by simp [hband] }
      width_nonneg := (width_clear c).ge
      width_le := Or.inl (width_clear c)
      pendingCpu := rfl
      keys_nodup := List.nodup_nil
      live := fun _ => (heldPages_clear c).symm
      sorted := fun _ => List.Pairwise.nil
      eager := fun _ => ⟨rfl, rfl⟩
      anchor := ?_
      sink := ?_
      bound_nonneg := ?_
      ids_nodup := ?_
      ids_pos := hids
      ids_unbound := ?_
      ids_enough := ?_ }
  · intro v hv
    by_contra h0
    simp [clear, h0] at hv
  · show (if (0 : ℤ) = 0 ∧ c.numPages ≠ 0 then (0 : ℤ) else -1) ≤ 0
    split
    · exact le_rfl
    · omega
  · intro v hv
    by_contra h0
    have hne : v ≠ 0 := by omega
    simp [clear, hne] at hv
  · by_cases hown : c.isIdOwner = true
    · simpa [clear, hown] using nodup_pageRange c.minPageIndex c.numPages
    · simp [clear, hown]
  · intro v hv
    have hne : v ≠ 0 := (hids v hv).ne'
    simp [clear, hne]
  · intro hown
    have hrange := c.ids_range hown
    rw [heldPages_clear]
    simp only [clear, hown, if_true, length_pageRange, Config.capacity]
    omega
  · intro p hp
    left
    by_contra h0
    simp [clear, h0] at hp

namespace Conserved

variable {c : Config} {a : Allocator} {p : ℤ}

variable (h : Conserved c a)
include h

/-- A bound virtual page other than the anchor sits in the band. -/
theorem physical_ne_zero {v : ℤ} (hv : v ≠ 0) : a.virtualToPhysical v ≠ 0 :=
  fun h0 => hv (h.anchor v h0)

theorem physical_mem_band {v : ℤ} (hv : v ≠ 0)
    (hbound : a.virtualToPhysical v ≠ -1) : a.virtualToPhysical v ∈ band c a :=
  h.pool.mem_band (h.pool.inverse.ne_null_right hbound) (h.physical_ne_zero hv)

theorem width_le_of_mem (hp : p ∈ band c a) : width c a ≤ c.capacity := by
  rw [mem_band_iff] at hp
  rcases h.width_le with h0 | hle
  · omega
  · exact hle

theorem band_pos (hp : p ∈ band c a) : 0 < p :=
  c.page_pos hp.1 (lt_of_lt_of_le hp.2 (h.width_le_of_mem hp))

/-- The event fields do not take part in the invariant. -/
theorem setEvents (latest : Option Event) (inflight : Option (Event × List ℤ)) :
    Conserved c { a with
      latestForwardDoneEvent := latest, inflightForward := inflight } :=
  { h with }

end Conserved

end Sglang.MultiEnded
