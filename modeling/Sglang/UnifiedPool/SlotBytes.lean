import Sglang.Support.SlotMemory
import Sglang.UnifiedPool.Layout

/-!
# The bytes of one slot

The rows of a slot, over all layers, are disjoint from the rows of every other
slot of the same sub-pool and lie inside the slot's page block. For an
attention sub-pool the owner of a byte is recovered from its address: the page
by division by the page bytes, the slot from the position inside the K or the V
part of a layer block.
-/

namespace Sglang.UnifiedPool

open Sglang.Support List ByteRow

/-! ## Attention sub-pools -/

namespace MHASubPoolSpec

variable (s : MHASubPoolSpec) (pageSize : ℕ)

/-- Bytes of one layer of a page block. -/
def layerBytes : ℕ := pageSize * (s.kRowBytes + s.vRowBytes)

/-- The slot that owns the byte `b`. -/
def slotOf (b : ℕ) : ℕ :=
  let r := b % s.layerBytes pageSize
  b / s.pageBytes pageSize * pageSize +
    if r < pageSize * s.kRowBytes then r / s.kRowBytes
    else (r - pageSize * s.kRowBytes) / s.vRowBytes

variable {s pageSize}

theorem pageBytes_eq : s.pageBytes pageSize = s.layerNum * s.layerBytes pageSize := by
  unfold pageBytes layerBytes entryBytes
  ring

theorem layerKOffset_eq (layer : ℕ) : s.layerKOffsetInPage layer pageSize =
    layer * s.layerBytes pageSize := by
  unfold layerKOffsetInPage layerBytes
  ring

/-- An address given by page, layer and position in the layer block. -/
theorem address_div_mod (page : ℕ) {layer r : ℕ} (hlayer : layer < s.layerNum)
    (hr : r < s.layerBytes pageSize) :
    (page * s.pageBytes pageSize + layer * s.layerBytes pageSize + r) /
        s.pageBytes pageSize = page ∧
      (page * s.pageBytes pageSize + layer * s.layerBytes pageSize + r) %
        s.layerBytes pageSize = r := by
  have hstep : (layer + 1) * s.layerBytes pageSize ≤
      s.layerNum * s.layerBytes pageSize := Nat.mul_le_mul_right _ hlayer
  rw [Nat.add_mul, Nat.one_mul] at hstep
  constructor
  · rw [Nat.add_assoc, Nat.mul_comm page]
    rw [Nat.mul_add_div (by rw [pageBytes_eq]; omega)]
    rw [Nat.div_eq_of_lt (by rw [pageBytes_eq]; omega), Nat.add_zero]
  · have hsplit : page * s.pageBytes pageSize +
        layer * s.layerBytes pageSize + r =
        s.layerBytes pageSize * (page * s.layerNum + layer) + r := by
      rw [pageBytes_eq]
      ring
    rw [hsplit, Nat.mul_add_mod, Nat.mod_eq_of_lt hr]

/-- Position of a row of a slot inside the K or the V part. -/
theorem row_position (row : ℕ) {slot n o : ℕ} (hslot : slot < n) (ho : o < row) :
    slot * row + o < n * row ∧ (slot * row + o) / row = slot := by
  have hstep : (slot + 1) * row ≤ n * row := Nat.mul_le_mul_right _ hslot
  rw [Nat.add_mul, Nat.one_mul] at hstep
  constructor
  · omega
  · rw [Nat.mul_comm slot, Nat.mul_add_div (by omega), Nat.div_eq_of_lt ho, Nat.add_zero]

/-- Every byte of a slot knows its page and its slot. -/
theorem owner_of_mem {t layer b : ℕ} (hps : 0 < pageSize)
    (hlayer : layer < s.layerNum) {r : ByteRow}
    (hr : r ∈ mhaLayerRows s pageSize t layer) (hb : b ∈ r.bytes) :
    b / s.pageBytes pageSize = t / pageSize ∧ s.slotOf pageSize b = t := by
  have hslot : t % pageSize < pageSize := Nat.mod_lt _ hps
  have ht := Nat.div_add_mod t pageSize
  rw [Nat.mul_comm] at ht
  have hblock : s.layerBytes pageSize =
      pageSize * s.kRowBytes + pageSize * s.vRowBytes := Nat.mul_add _ _ _
  simp only [mhaLayerRows, mem_cons, not_mem_nil, or_false] at hr
  rcases hr with rfl | rfl
  · obtain ⟨hlow, hhigh⟩ := mem_bytes.mp hb
    obtain ⟨o, rfl⟩ := Nat.exists_eq_add_of_le hlow
    simp only [layerKOffset_eq] at hhigh ⊢
    obtain ⟨hlt, hdiv⟩ := row_position s.kRowBytes hslot
      (show o < s.kRowBytes by omega)
    obtain ⟨hpage, hmod⟩ := address_div_mod (t / pageSize) hlayer
      (show t % pageSize * s.kRowBytes + o < s.layerBytes pageSize by omega)
    rw [Nat.add_assoc (_ + _) _ o]
    refine ⟨hpage, ?_⟩
    unfold slotOf
    rw [hpage, hmod]
    simp only [hlt, if_true, hdiv]
    exact ht
  · obtain ⟨hlow, hhigh⟩ := mem_bytes.mp hb
    obtain ⟨o, rfl⟩ := Nat.exists_eq_add_of_le hlow
    simp only [layerVOffsetInPage, layerKOffset_eq] at hhigh ⊢
    obtain ⟨hlt, hdiv⟩ := row_position s.vRowBytes hslot
      (show o < s.vRowBytes by omega)
    obtain ⟨hpage, hmod⟩ := address_div_mod (t / pageSize) hlayer
      (show pageSize * s.kRowBytes + (t % pageSize * s.vRowBytes + o) <
        s.layerBytes pageSize by omega)
    have hassoc : t / pageSize * s.pageBytes pageSize +
        (layer * s.layerBytes pageSize + pageSize * s.kRowBytes) +
        t % pageSize * s.vRowBytes + o =
        t / pageSize * s.pageBytes pageSize + layer * s.layerBytes pageSize +
          (pageSize * s.kRowBytes + (t % pageSize * s.vRowBytes + o)) := by
      ring
    rw [hassoc]
    refine ⟨hpage, ?_⟩
    unfold slotOf
    rw [hpage, hmod]
    simp only [Nat.add_sub_cancel_left, hdiv]
    rw [if_neg (by omega)]
    exact ht

/-- The rows of a slot in increasing order, each after the end of the one
before. -/
theorem pairwise_mhaSlotRows (t : ℕ) (hps : 0 < pageSize) : (mhaSlotRows s pageSize t).Pairwise
      fun r r' => r.start + r.len ≤ r'.start := by
  have hslot : t % pageSize < pageSize := Nat.mod_lt _ hps
  have hk : (t % pageSize + 1) * s.kRowBytes ≤ pageSize * s.kRowBytes :=
    Nat.mul_le_mul_right _ hslot
  have hv : (t % pageSize + 1) * s.vRowBytes ≤ pageSize * s.vRowBytes :=
    Nat.mul_le_mul_right _ hslot
  rw [Nat.add_mul, Nat.one_mul] at hk hv
  unfold mhaSlotRows
  rw [pairwise_flatMap]
  constructor
  · intro layer _
    simp only [mhaLayerRows, layerVOffsetInPage, pairwise_cons,
      mem_singleton, forall_eq, not_mem_nil, false_implies,
      implies_true, List.Pairwise.nil, and_true]
    omega
  · refine pairwise_lt_range.imp fun {l l'} hlt => ?_
    have hstep : (l + 1) * s.layerBytes pageSize ≤
        l' * s.layerBytes pageSize := Nat.mul_le_mul_right _ hlt
    have hblock : s.layerBytes pageSize =
        pageSize * s.kRowBytes + pageSize * s.vRowBytes := Nat.mul_add _ _ _
    rw [Nat.add_mul, Nat.one_mul] at hstep
    intro r hr r' hr'
    simp only [mhaLayerRows, layerVOffsetInPage, layerKOffset_eq,
      mem_cons, not_mem_nil, or_false] at hr hr'
    rcases hr with rfl | rfl
    · rcases hr' with rfl | rfl <;> simp only <;> omega
    · rcases hr' with rfl | rfl <;> simp only <;> omega

end MHASubPoolSpec

theorem nodup_flatMap_bytes {rows : List ByteRow}
    (h : rows.Pairwise fun r r' => r.start + r.len ≤ r'.start) :
    (rows.flatMap bytes).Nodup := by
  rw [nodup_flatMap]
  refine ⟨fun r _ => nodup_range', h.imp fun {r r'} hle b hb hb' => ?_⟩
  have hlt := (mem_bytes.mp hb).2
  have hge := (mem_bytes.mp hb').1
  omega

theorem length_mhaSlotBytes (s : MHASubPoolSpec) (pageSize t : ℕ) :
    ((mhaSlotRows s pageSize t).flatMap bytes).length = s.entryBytes := by
  rw [mhaSlotRows, flatMap_assoc, length_flatMap]
  simp [mhaLayerRows, bytes, MHASubPoolSpec.entryBytes]

/-! ## Mamba sub-pools -/

theorem tensorBytes_eq (layerNum base rowBytes : ℕ) :
    (tensorRows layerNum base rowBytes).flatMap bytes = List.range' base (layerNum * rowBytes) := by
  induction layerNum with
  | zero => simp [tensorRows]
  | succ n ih =>
    have hsplit : tensorRows (n + 1) base rowBytes =
        tensorRows n base rowBytes ++ [⟨base + n * rowBytes, rowBytes⟩] := by
      simp [tensorRows, range_succ]
    rw [hsplit, flatMap_append, ih, Nat.add_mul, Nat.one_mul]
    simp [bytes]

theorem convBytes_eq (s : MambaSubPoolSpec) (shapes : List (List ℕ))
    (base : ℕ) : (convRows s base shapes).flatMap bytes = List.range' base
        (shapes.map fun shape => s.layerNum * s.convRowBytes shape).sum := by
  induction shapes generalizing base with
  | nil => rfl
  | cons shape rest ih =>
    rw [convRows, flatMap_append, tensorBytes_eq, ih, map_cons, sum_cons]
    simp

/-- A Mamba slot is one envelope of consecutive bytes. -/
theorem mambaSlotBytes_eq (s : MambaSubPoolSpec) (t : ℕ) :
    (mambaSlotRows s t).flatMap bytes = List.range' (t * s.entryBytes) s.entryBytes := by
  rw [mambaSlotRows, flatMap_append, convBytes_eq, tensorBytes_eq]
  have hregion : (s.convStateShapes.map fun shape =>
      s.layerNum * s.convRowBytes shape).sum = s.convRegionBytes := rfl
  have hentry : s.entryBytes = s.convRegionBytes + s.layerNum * s.temporalRowBytes := rfl
  rw [hregion, hentry]
  simp

/-! ## Both kinds -/

namespace UnifiedKVPool

variable (pool : UnifiedKVPool) (d : GrowDirection)

/-- The byte addresses of slot `t` of a sub-pool, over all layers. -/
def slotBytes (t : ℕ) : List ℕ := ((pool.spec d).slotRows pool.pageSize t).flatMap bytes

variable {pool d}

theorem slotBytes_mha {s : MHASubPoolSpec} (hs : pool.spec d = .mha s)
    (t : ℕ) : pool.slotBytes d t = (mhaSlotRows s pool.pageSize t).flatMap bytes := by
  simp [slotBytes, hs, SubPoolSpec.slotRows]

theorem slotBytes_mamba {s : MambaSubPoolSpec} (hs : pool.spec d = .mamba s)
    (t : ℕ) : pool.slotBytes d t = List.range' (t * s.entryBytes) s.entryBytes := by
  simp [slotBytes, hs, SubPoolSpec.slotRows, mambaSlotBytes_eq]

theorem owner_of_mem_slotBytes {t b : ℕ} {s : MHASubPoolSpec}
    (hs : pool.spec d = .mha s) (hb : b ∈ pool.slotBytes d t) :
    b / s.pageBytes pool.pageSize = t / pool.pageSize ∧ s.slotOf pool.pageSize b = t := by
  rw [slotBytes_mha hs] at hb
  obtain ⟨r, hr, hbr⟩ := mem_flatMap.mp hb
  obtain ⟨layer, hlayer, hrow⟩ := mem_flatMap.mp hr
  exact MHASubPoolSpec.owner_of_mem pool.pageSize_pos (mem_range.mp hlayer) hrow hbr

/-- The bytes of a slot lie in the block of its page. -/
theorem page_of_mem_slotBytes {t b : ℕ} (hb : b ∈ pool.slotBytes d t) :
    b / pool.entryBytesPerPage d = t / pool.allocPageSize d := by
  have hpos := pool.entryBytes_pos d
  cases hs : pool.spec d with
  | mha s =>
    have howner := (owner_of_mem_slotBytes hs hb).1
    have hpage : pool.entryBytesPerPage d = s.pageBytes pool.pageSize := by
      simp [MHASubPoolSpec.pageBytes, entryBytesPerPage, entryBytes,
        allocPageSize, hs, SubPoolSpec.entryBytes, SubPoolSpec.allocPageSize, Nat.mul_comm]
    have hps : pool.allocPageSize d = pool.pageSize := by
      simp [allocPageSize, hs, SubPoolSpec.allocPageSize]
    rw [hpage, hps]
    exact howner
  | mamba s =>
    rw [slotBytes_mamba hs, mem_range'_1] at hb
    have hentry : pool.entryBytes d = s.entryBytes := by
      simp [entryBytes, hs, SubPoolSpec.entryBytes]
    have hps : pool.allocPageSize d = 1 := by simp [allocPageSize, hs, SubPoolSpec.allocPageSize]
    rw [hentry] at hpos
    rw [entryBytesPerPage, hps, hentry, Nat.mul_one, Nat.div_one]
    refine Nat.div_eq_of_lt_le ?_ ?_
    · exact hb.1
    · rw [Nat.add_mul, Nat.one_mul]
      exact hb.2

/-- The slots of a sub-pool are disjoint and all of one size. -/
theorem disjointSlots (pool : UnifiedKVPool) (d : GrowDirection) :
    DisjointSlots (pool.slotBytes d) (pool.entryBytes d) := by
  cases hs : pool.spec d with
  | mha s =>
    have hentry : pool.entryBytes d = s.entryBytes := by
      simp [entryBytes, hs, SubPoolSpec.entryBytes]
    refine ⟨fun t => ?_, fun t => ?_, fun t t' hne b hb hb' => hne ?_⟩
    · rw [slotBytes_mha hs, length_mhaSlotBytes, hentry]
    · rw [slotBytes_mha hs]
      exact nodup_flatMap_bytes (MHASubPoolSpec.pairwise_mhaSlotRows t pool.pageSize_pos)
    · rw [← (owner_of_mem_slotBytes hs hb).2, (owner_of_mem_slotBytes hs hb').2]
  | mamba s =>
    have hentry : pool.entryBytes d = s.entryBytes := by
      simp [entryBytes, hs, SubPoolSpec.entryBytes]
    have hps : pool.allocPageSize d = 1 := by simp [allocPageSize, hs, SubPoolSpec.allocPageSize]
    refine ⟨fun t => ?_, fun t => ?_, fun t t' hne b hb hb' => hne ?_⟩
    · rw [slotBytes_mamba hs, length_range', hentry]
    · rw [slotBytes_mamba hs]
      exact nodup_range'
    · have h := page_of_mem_slotBytes hb
      have h' := page_of_mem_slotBytes hb'
      rw [hps, Nat.div_one] at h h'
      exact h.symm.trans h'

end UnifiedKVPool

end Sglang.UnifiedPool
