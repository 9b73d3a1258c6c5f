import Mathlib.Algebra.BigOperators.Group.List.Basic
import Mathlib.Data.List.Basic
import Mathlib.Tactic.Ring
import Mathlib.Tactic.Linarith

/-!
# Byte layout of the unified KV pool

One `uint8` buffer is shared by two sub-pools, one growing up from byte zero
and one growing down from the top. This module embeds the sub-pool
specifications, the acceptance checks of `UnifiedKVPool.__init__`, and the
strided views of `layout/page_major.py`, in the form of the byte rows that one
slot occupies.
-/

namespace Sglang.UnifiedPool

inductive GrowDirection where
  | up
  | down
  deriving DecidableEq, Repr

/-- The other end of the buffer. -/
def GrowDirection.flip : GrowDirection → GrowDirection
  | .up => .down
  | .down => .up

/-- Per-slot layout of an attention sub-pool. The positivity fields are the
assertions of `__post_init__`; `vHeadDim` is already defaulted to `headDim`. -/
structure MHASubPoolSpec where
  layerNum : ℕ
  headNum : ℕ
  headDim : ℕ
  vHeadDim : ℕ
  itemsize : ℕ
  layerNum_pos : 0 < layerNum
  headNum_pos : 0 < headNum
  headDim_pos : 0 < headDim
  vHeadDim_pos : 0 < vHeadDim
  itemsize_pos : 0 < itemsize

variable (s : MHASubPoolSpec)

namespace MHASubPoolSpec

def kRowBytes : ℕ := s.headNum * s.headDim * s.itemsize

def vRowBytes : ℕ := s.headNum * s.vHeadDim * s.itemsize

def entryBytes : ℕ := s.layerNum * (s.kRowBytes + s.vRowBytes)

def pageBytes (pageSize : ℕ) : ℕ := pageSize * s.entryBytes

def layerKOffsetInPage (layer pageSize : ℕ) : ℕ :=
  layer * pageSize * (s.kRowBytes + s.vRowBytes)

def layerVOffsetInPage (layer pageSize : ℕ) : ℕ :=
  s.layerKOffsetInPage layer pageSize + pageSize * s.kRowBytes

theorem kRowBytes_pos : 0 < s.kRowBytes :=
  Nat.mul_pos (Nat.mul_pos s.headNum_pos s.headDim_pos) s.itemsize_pos

theorem vRowBytes_pos : 0 < s.vRowBytes :=
  Nat.mul_pos (Nat.mul_pos s.headNum_pos s.vHeadDim_pos) s.itemsize_pos

end MHASubPoolSpec

/-- Per-slot layout of a Mamba sub-pool: one shape per convolution tensor and
one temporal shape, each repeated over the layers. -/
structure MambaSubPoolSpec where
  layerNum : ℕ
  convStateShapes : List (List ℕ)
  convItemsize : ℕ
  temporalStateShape : List ℕ
  temporalItemsize : ℕ
  layerNum_pos : 0 < layerNum
  convStateShapes_ne : convStateShapes ≠ []
  convItemsize_pos : 0 < convItemsize
  temporalItemsize_pos : 0 < temporalItemsize

namespace MambaSubPoolSpec

def convRowBytes (s : MambaSubPoolSpec) (shape : List ℕ) : ℕ := shape.prod * s.convItemsize

def temporalRowBytes (s : MambaSubPoolSpec) : ℕ := s.temporalStateShape.prod * s.temporalItemsize

/-- Bytes of the convolution region, in front of the temporal one. -/
def convRegionBytes (s : MambaSubPoolSpec) : ℕ :=
  (s.convStateShapes.map fun shape => s.layerNum * s.convRowBytes shape).sum

def entryBytes (s : MambaSubPoolSpec) : ℕ := s.convRegionBytes + s.layerNum * s.temporalRowBytes

end MambaSubPoolSpec

inductive SubPoolSpec where
  | mha (spec : MHASubPoolSpec)
  | mamba (spec : MambaSubPoolSpec)

/-- A contiguous run of bytes of the raw buffer. -/
structure ByteRow where
  start : ℕ
  len : ℕ
  deriving DecidableEq, Repr

/-- The byte addresses of a row, in order. -/
def ByteRow.bytes (r : ByteRow) : List ℕ := List.range' r.start r.len

@[simp] theorem ByteRow.mem_bytes {r : ByteRow} {b : ℕ} :
    b ∈ r.bytes ↔ r.start ≤ b ∧ b < r.start + r.len := by
  simp [ByteRow.bytes, List.mem_range'_1]

/-- The two rows of one layer of a token in the page-major layout: within a
page block, the K rows of all its slots come first and the V rows follow. -/
def mhaLayerRows (pageSize t layer : ℕ) : List ByteRow :=
  let page := t / pageSize
  let slot := t % pageSize
  [⟨page * s.pageBytes pageSize + s.layerKOffsetInPage layer pageSize +
      slot * s.kRowBytes, s.kRowBytes⟩,
    ⟨page * s.pageBytes pageSize + s.layerVOffsetInPage layer pageSize +
      slot * s.vRowBytes, s.vRowBytes⟩]

/-- All rows of a token, as addressed by `build_page_major_mha_views`. -/
def mhaSlotRows (pageSize t : ℕ) : List ByteRow :=
  (List.range s.layerNum).flatMap (mhaLayerRows s pageSize t)

/-- The rows of one state tensor in the envelope that starts at `base`. -/
def tensorRows (layerNum base rowBytes : ℕ) : List ByteRow :=
  (List.range layerNum).map fun layer => ⟨base + layer * rowBytes, rowBytes⟩

/-- The convolution rows of an envelope: `base` moves past each tensor. -/
def convRows (s : MambaSubPoolSpec) : ℕ → List (List ℕ) → List ByteRow
  | _, [] => []
  | base, shape :: rest =>
    tensorRows s.layerNum base (s.convRowBytes shape) ++
      convRows s (base + s.layerNum * s.convRowBytes shape) rest

/-- All rows of a Mamba slot, as addressed by `build_page_major_mamba_views`;
the state is always slot-granular. -/
def mambaSlotRows (s : MambaSubPoolSpec) (t : ℕ) : List ByteRow :=
  convRows s (t * s.entryBytes) s.convStateShapes ++
    tensorRows s.layerNum (t * s.entryBytes + s.convRegionBytes) s.temporalRowBytes

namespace SubPoolSpec

def entryBytes : SubPoolSpec → ℕ
  | mha s => s.entryBytes
  | mamba s => s.entryBytes

/-- The rows that a write to physical slot `t` touches, over all layers. -/
def slotRows : SubPoolSpec → ℕ → ℕ → List ByteRow
  | mha s, pageSize, t => mhaSlotRows s pageSize t
  | mamba s, _, t => mambaSlotRows s t

/-- The divisibility checks made while the views over the raw buffer are
built: `raw.view(dtype)` and the assertions of the Mamba builder. -/
def viewsAligned : SubPoolSpec → ℕ → Bool
  | mha s, totalBytes => totalBytes % s.itemsize = 0
  | mamba s, totalBytes =>
    s.entryBytes % s.convItemsize = 0 && totalBytes % s.convItemsize = 0 &&
      s.entryBytes % s.temporalItemsize = 0 &&
      s.convRegionBytes % s.temporalItemsize = 0 &&
      totalBytes % s.temporalItemsize = 0

/-- Page size of the sub-allocator: Mamba state stays slot-granular. -/
def allocPageSize : SubPoolSpec → ℕ → ℕ
  | mha _, pageSize => pageSize
  | mamba _, _ => 1

end SubPoolSpec

/-- Largest per-slot footprint of the two sub-pools. -/
def entryMax (spec : GrowDirection → SubPoolSpec) : ℕ :=
  max (spec .up).entryBytes (spec .down).entryBytes

/-- First slot of a sub-pool that may hold real data. -/
def minSlotIndexOf (spec : GrowDirection → SubPoolSpec)
    (d : GrowDirection) : ℕ :=
  (entryMax spec + (spec d).entryBytes - 1) / (spec d).entryBytes

/-- The checks of `UnifiedKVPool.__init__` for one sub-pool. A zero
`entry_bytes` raises on the division. -/
def acceptsSubPool (totalBytes : ℕ) (spec : GrowDirection → SubPoolSpec)
    (d : GrowDirection) : Bool :=
  0 < (spec d).entryBytes &&
    minSlotIndexOf spec d < totalBytes / (spec d).entryBytes &&
    (spec d).viewsAligned totalBytes

/-- An accepted pool. The two sub-pools are named by their grow direction:
the constructor requires one of each. -/
structure UnifiedKVPool where
  totalBytes : ℕ
  pageSize : ℕ
  spec : GrowDirection → SubPoolSpec
  pageSize_pos : 1 ≤ pageSize
  accepted : ∀ d, acceptsSubPool totalBytes spec d = true

namespace UnifiedKVPool

variable (pool : UnifiedKVPool) (d : GrowDirection)

def entryBytes : ℕ := (pool.spec d).entryBytes

def maxSlots : ℕ := pool.totalBytes / pool.entryBytes d

def minSlotIndex : ℕ := minSlotIndexOf pool.spec d

/-! The page-aware quantities of the sub-allocator (`MultiEndedAllocator`). -/

def allocPageSize : ℕ := (pool.spec d).allocPageSize pool.pageSize

def numPages : ℕ := pool.maxSlots d / pool.allocPageSize d

def minPageIndex : ℕ := (pool.minSlotIndex d + pool.allocPageSize d - 1) / pool.allocPageSize d

def entryBytesPerPage : ℕ := pool.entryBytes d * pool.allocPageSize d

theorem entryBytes_pos : 0 < pool.entryBytes d := by
  have h := pool.accepted d
  simp only [acceptsSubPool, Bool.and_eq_true, decide_eq_true_eq] at h
  exact h.1.1

theorem minSlotIndex_lt_maxSlots : pool.minSlotIndex d < pool.maxSlots d := by
  have h := pool.accepted d
  simp only [acceptsSubPool, Bool.and_eq_true, decide_eq_true_eq] at h
  exact h.1.2

theorem allocPageSize_pos : 0 < pool.allocPageSize d := by
  have hps := pool.pageSize_pos
  unfold allocPageSize SubPoolSpec.allocPageSize
  cases pool.spec d with
  | mha s => exact hps
  | mamba s => exact Nat.one_pos

theorem entryBytesPerPage_pos : 0 < pool.entryBytesPerPage d :=
  Nat.mul_pos (entryBytes_pos pool d) (allocPageSize_pos pool d)

theorem entryBytes_le_entryMax : pool.entryBytes d ≤ entryMax pool.spec := by
  cases d with
  | up => exact le_max_left _ _
  | down => exact le_max_right _ _

/-- Rounding up to a multiple never loses anything. -/
theorem le_ceilDiv_mul (a b : ℕ) (hb : 0 < b) : a ≤ (a + b - 1) / b * b := by
  have h := Nat.div_add_mod (a + b - 1) b
  have hlt := Nat.mod_lt (a + b - 1) hb
  rw [Nat.mul_comm] at h
  omega

theorem entryMax_le_minSlotIndex_mul :
    entryMax pool.spec ≤ pool.minSlotIndex d * pool.entryBytes d :=
  le_ceilDiv_mul _ _ (entryBytes_pos pool d)

theorem minSlotIndex_pos : 0 < pool.minSlotIndex d := by
  have hmax := entryMax_le_minSlotIndex_mul pool d
  have hentry := entryBytes_pos pool d
  have hle := entryBytes_le_entryMax pool d
  by_contra hzero
  have : pool.minSlotIndex d = 0 := by omega
  rw [this, Nat.zero_mul] at hmax
  omega

theorem minSlotIndex_le_minPageIndex_mul :
    pool.minSlotIndex d ≤ pool.minPageIndex d * pool.allocPageSize d :=
  le_ceilDiv_mul _ _ (allocPageSize_pos pool d)

theorem minPageIndex_pos : 0 < pool.minPageIndex d := by
  have hslot := minSlotIndex_pos pool d
  have hle := minSlotIndex_le_minPageIndex_mul pool d
  by_contra hzero
  have : pool.minPageIndex d = 0 := by omega
  rw [this, Nat.zero_mul] at hle
  omega

/-- The reserved-sink invariant of the allocator's comment: real data of every
sub-pool starts at or above `entryMax`. -/
theorem entryMax_le_firstByte :
    entryMax pool.spec ≤ pool.minPageIndex d * pool.entryBytesPerPage d := by
  calc
    entryMax pool.spec ≤ pool.minSlotIndex d * pool.entryBytes d :=
      entryMax_le_minSlotIndex_mul pool d
    _ ≤ pool.minPageIndex d * pool.allocPageSize d * pool.entryBytes d :=
      Nat.mul_le_mul_right _ (minSlotIndex_le_minPageIndex_mul pool d)
    _ = pool.minPageIndex d * pool.entryBytesPerPage d := by
      unfold entryBytesPerPage
      ring

/-- All pages of a sub-pool lie inside the buffer. -/
theorem numPages_mul_le_totalBytes :
    pool.numPages d * pool.entryBytesPerPage d ≤ pool.totalBytes := by
  calc
    pool.numPages d * pool.entryBytesPerPage d =
        pool.maxSlots d / pool.allocPageSize d * pool.allocPageSize d * pool.entryBytes d := by
      unfold numPages entryBytesPerPage
      ring
    _ ≤ pool.maxSlots d * pool.entryBytes d := Nat.mul_le_mul_right _ (Nat.div_mul_le_self _ _)
    _ ≤ pool.totalBytes := Nat.div_mul_le_self _ _

end UnifiedKVPool

end Sglang.UnifiedPool
