import Sglang.UnifiedPool.Layout

/-!
# Isolation of the padding sink

Writes of padded tokens go to physical slot `0` of either sub-pool. The pool
reserves the bytes below `entryMax` for them, which is enough when a slot is
one contiguous envelope. With `page_size > 1` the rows of slot `0` of an
attention sub-pool are spread over its whole first page block, and the other
sub-pool may own pages between them.
-/

namespace Sglang.UnifiedPool

open List

namespace UnifiedKVPool

/-- The bytes touched by a write to slot `0` of sub-pool `d`. -/
def WrittenBySlotZero (pool : UnifiedKVPool) (d : GrowDirection) (b : ℕ) :
    Prop :=
  ∃ r ∈ (pool.spec d).slotRows pool.pageSize 0, b ∈ r.bytes

/-- The bytes of the pages that the allocator of sub-pool `d` may hand out. -/
def InAllocatablePage (pool : UnifiedKVPool) (d : GrowDirection) (b : ℕ) :
    Prop :=
  ∃ p, pool.minPageIndex d ≤ p ∧ p < pool.numPages d ∧
    p * pool.entryBytesPerPage d ≤ b ∧ b < (p + 1) * pool.entryBytesPerPage d

/-- No byte written through slot `0` of either sub-pool belongs to a page that
either allocator may hand out. -/
def SinkIsolated (pool : UnifiedKVPool) : Prop :=
  ∀ d d' b, pool.WrittenBySlotZero d b → ¬pool.InAllocatablePage d' b

/-- First byte of the allocatable pages of a sub-pool. -/
def firstByte (pool : UnifiedKVPool) (d : GrowDirection) : ℕ :=
  pool.minPageIndex d * pool.entryBytesPerPage d

/-- One past the last byte of the allocatable pages of a sub-pool. -/
def endByte (pool : UnifiedKVPool) (d : GrowDirection) : ℕ :=
  pool.numPages d * pool.entryBytesPerPage d

/-- A row that ends before the allocatable pages of `d` start, or starts after
they end. -/
def RowClear (pool : UnifiedKVPool) (d : GrowDirection)
    (start len : ℕ) : Prop :=
  start + len ≤ pool.firstByte d ∨ pool.endByte d ≤ start

/-- Every K and V row of slot `0` of an attention sub-pool avoids the
allocatable range of the opposite sub-pool (when that range is not empty). -/
def SlotZeroRowsClear (pool : UnifiedKVPool) : Prop :=
  ∀ d s, pool.spec d = .mha s →
    pool.firstByte d.flip < pool.endByte d.flip →
    ∀ layer < s.layerNum,
      pool.RowClear d.flip (s.layerKOffsetInPage layer pool.pageSize)
          s.kRowBytes ∧
        pool.RowClear d.flip (s.layerVOffsetInPage layer pool.pageSize) s.vRowBytes

variable {pool : UnifiedKVPool} {d : GrowDirection} {b : ℕ} {s : MHASubPoolSpec}

/-- The allocatable pages are one contiguous byte range. -/
theorem inAllocatablePage_iff : pool.InAllocatablePage d b ↔
      pool.firstByte d ≤ b ∧ b < pool.endByte d := by
  have hpos := entryBytesPerPage_pos pool d
  constructor
  · rintro ⟨p, hmin, hmax, hlo, hhi⟩
    refine ⟨le_trans (Nat.mul_le_mul_right _ hmin) hlo, ?_⟩
    exact lt_of_lt_of_le hhi (Nat.mul_le_mul_right _ hmax)
  · rintro ⟨hlo, hhi⟩
    refine ⟨b / pool.entryBytesPerPage d, ?_, ?_, Nat.div_mul_le_self _ _, ?_⟩
    · exact (Nat.le_div_iff_mul_le hpos).mpr hlo
    · exact (Nat.div_lt_iff_lt_mul hpos).mpr hhi
    · rw [Nat.add_mul, Nat.one_mul]
      exact Nat.lt_div_mul_add hpos

/-- A nonempty row misses the allocatable range exactly when it is clear of
it, provided the range is not empty. -/
theorem row_disjoint_iff_rowClear
    {start len : ℕ} (hlen : 0 < len) (hne : pool.firstByte d < pool.endByte d) :
    (∀ b, start ≤ b → b < start + len → ¬pool.InAllocatablePage d b) ↔
      pool.RowClear d start len := by
  simp only [inAllocatablePage_iff, RowClear]
  constructor
  · intro h
    by_contra hclear
    push Not at hclear
    -- the larger of the two starting points lies in both ranges
    apply h (max start (pool.firstByte d)) (le_max_left _ _)
    · exact max_lt (by omega) hclear.1
    · exact ⟨le_max_right _ _, max_lt hclear.2 hne⟩
  · rintro (hbelow | habove) b hlo hhi ⟨hfirst, hend⟩
    · omega
    · omega

theorem slotRows_zero_mha (hs : pool.spec d = .mha s) : pool.WrittenBySlotZero d b ↔
      ∃ layer < s.layerNum, (s.layerKOffsetInPage layer pool.pageSize ≤ b ∧
            b < s.layerKOffsetInPage layer pool.pageSize + s.kRowBytes) ∨
          (s.layerVOffsetInPage layer pool.pageSize ≤ b ∧
            b < s.layerVOffsetInPage layer pool.pageSize + s.vRowBytes) := by
  simp only [WrittenBySlotZero, hs, SubPoolSpec.slotRows, mhaSlotRows,
    mem_flatMap, mem_range, mhaLayerRows, Nat.zero_div,
    Nat.zero_mul, Nat.zero_mod, Nat.zero_add, Nat.add_zero, mem_cons,
    not_mem_nil, or_false]
  constructor
  · rintro ⟨r, ⟨layer, hlayer, rfl | rfl⟩, hb⟩
    · exact ⟨layer, hlayer, Or.inl (ByteRow.mem_bytes.mp hb)⟩
    · exact ⟨layer, hlayer, Or.inr (ByteRow.mem_bytes.mp hb)⟩
  · rintro ⟨layer, hlayer, hb | hb⟩
    · exact ⟨_, ⟨layer, hlayer, Or.inl rfl⟩, ByteRow.mem_bytes.mpr hb⟩
    · exact ⟨_, ⟨layer, hlayer, Or.inr rfl⟩, ByteRow.mem_bytes.mpr hb⟩

/-- The rows of a token stay inside its page block. -/
theorem layerOffset_le_pageBytes {layer : ℕ} (pageSize : ℕ) (hlayer : layer < s.layerNum) :
    s.layerVOffsetInPage layer pageSize + pageSize * s.vRowBytes ≤ s.pageBytes pageSize := by
  have hstep : (layer + 1) * (pageSize * (s.kRowBytes + s.vRowBytes)) ≤
      s.layerNum * (pageSize * (s.kRowBytes + s.vRowBytes)) :=
    Nat.mul_le_mul_right _ hlayer
  calc
    s.layerVOffsetInPage layer pageSize + pageSize * s.vRowBytes =
        (layer + 1) * (pageSize * (s.kRowBytes + s.vRowBytes)) := by
      unfold MHASubPoolSpec.layerVOffsetInPage
        MHASubPoolSpec.layerKOffsetInPage
      ring
    _ ≤ s.layerNum * (pageSize * (s.kRowBytes + s.vRowBytes)) := hstep
    _ = s.pageBytes pageSize := by
      unfold MHASubPoolSpec.pageBytes MHASubPoolSpec.entryBytes
      ring

/-- Slot `0` of an attention sub-pool lies in its own page `0`. -/
theorem writtenBySlotZero_lt_pageBytes (hs : pool.spec d = .mha s)
    (hb : pool.WrittenBySlotZero d b) : b < s.pageBytes pool.pageSize := by
  obtain ⟨layer, hlayer, hrow⟩ := (slotRows_zero_mha hs).mp hb
  have hpage := layerOffset_le_pageBytes pool.pageSize hlayer
  have hv : s.vRowBytes ≤ pool.pageSize * s.vRowBytes := Nat.le_mul_of_pos_left _ pool.pageSize_pos
  have hk : s.kRowBytes ≤ pool.pageSize * s.kRowBytes := Nat.le_mul_of_pos_left _ pool.pageSize_pos
  have hkv : s.layerKOffsetInPage layer pool.pageSize +
      pool.pageSize * s.kRowBytes = s.layerVOffsetInPage layer pool.pageSize := rfl
  rcases hrow with hrow | hrow <;> omega

theorem tensorRows_bounds {layerNum base rowBytes : ℕ} {r : ByteRow}
    (hr : r ∈ tensorRows layerNum base rowBytes) :
    base ≤ r.start ∧ r.start + r.len ≤ base + layerNum * rowBytes := by
  obtain ⟨layer, hlayer, rfl⟩ := mem_map.mp hr
  have hstep : (layer + 1) * rowBytes ≤ layerNum * rowBytes :=
    Nat.mul_le_mul_right _ (mem_range.mp hlayer)
  rw [Nat.add_mul, Nat.one_mul] at hstep
  constructor
  · simp
  · simp only
    omega

theorem convRows_bounds {s : MambaSubPoolSpec} {shapes : List (List ℕ)} :
    ∀ {base : ℕ} {r : ByteRow}, r ∈ convRows s base shapes →
      base ≤ r.start ∧ r.start + r.len ≤ base +
        (shapes.map fun shape => s.layerNum * s.convRowBytes shape).sum := by
  induction shapes with
  | nil => intro base r hr; simp [convRows] at hr
  | cons shape rest ih =>
    intro base r hr
    simp only [convRows, mem_append] at hr
    simp only [map_cons, sum_cons]
    rcases hr with hr | hr
    · have h := tensorRows_bounds hr
      omega
    · have h := ih hr
      omega

/-- A Mamba slot is one contiguous envelope of `entryBytes`. -/
theorem mambaSlotRows_bounds {s : MambaSubPoolSpec} {t : ℕ} {r : ByteRow}
    (hr : r ∈ mambaSlotRows s t) :
    t * s.entryBytes ≤ r.start ∧ r.start + r.len ≤ (t + 1) * s.entryBytes := by
  have hentry : (t + 1) * s.entryBytes =
      t * s.entryBytes + (s.convRegionBytes + s.layerNum * s.temporalRowBytes) := by
    rw [Nat.add_mul, Nat.one_mul]
    rfl
  rw [hentry]
  rcases mem_append.mp hr with hr | hr
  · have h := convRows_bounds hr
    change _ ∧ _ ≤ t * s.entryBytes + s.convRegionBytes at h
    omega
  · have h := tensorRows_bounds hr
    omega

/-- Slot `0` of a Mamba sub-pool never leaves the reserved bytes. -/
theorem writtenBySlotZero_mamba_lt {s : MambaSubPoolSpec} (hs : pool.spec d = .mamba s)
    (hb : pool.WrittenBySlotZero d b) : b < entryMax pool.spec := by
  obtain ⟨r, hr, hmem⟩ := hb
  simp only [hs, SubPoolSpec.slotRows] at hr
  have hbounds := mambaSlotRows_bounds hr
  have hle := entryBytes_le_entryMax pool d
  have hentry : pool.entryBytes d = s.entryBytes := by simp [entryBytes, hs, SubPoolSpec.entryBytes]
  rw [Nat.zero_add, Nat.one_mul] at hbounds
  rw [hentry] at hle
  have := (ByteRow.mem_bytes.mp hmem).2
  omega

/-- The sink of a sub-pool never reaches the pages of the same sub-pool. -/
theorem not_inAllocatablePage_self (hb : pool.WrittenBySlotZero d b) :
    ¬pool.InAllocatablePage d b := by
  rw [inAllocatablePage_iff]
  rintro ⟨hfirst, -⟩
  cases hs : pool.spec d with
  | mha s =>
    have hlt := writtenBySlotZero_lt_pageBytes hs hb
    have hpage : s.pageBytes pool.pageSize = pool.entryBytesPerPage d := by
      simp [MHASubPoolSpec.pageBytes, entryBytesPerPage, entryBytes,
        allocPageSize, hs, SubPoolSpec.entryBytes, SubPoolSpec.allocPageSize, Nat.mul_comm]
    have hmin : pool.entryBytesPerPage d ≤ pool.firstByte d :=
      Nat.le_mul_of_pos_left _ (minPageIndex_pos pool d)
    omega
  | mamba s =>
    have hlt := writtenBySlotZero_mamba_lt hs hb
    have hmin := entryMax_le_firstByte pool d
    unfold firstByte at hfirst
    omega

theorem GrowDirection.eq_or_eq_flip (d d' : GrowDirection) : d' = d ∨ d' = d.flip := by
  cases d <;> cases d' <;> simp [GrowDirection.flip]

/-- The padding sink is isolated exactly when the scattered rows of slot `0`
of each attention sub-pool avoid the pages of the opposite sub-pool. -/
theorem sinkIsolated_iff_slotZeroRowsClear (pool : UnifiedKVPool) :
    pool.SinkIsolated ↔ pool.SlotZeroRowsClear := by
  constructor
  · intro h d s hs hne layer hlayer
    constructor
    · apply (row_disjoint_iff_rowClear s.kRowBytes_pos hne).mp
      intro b hlo hhi
      exact h d d.flip b ((slotRows_zero_mha hs).mpr ⟨layer, hlayer, Or.inl ⟨hlo, hhi⟩⟩)
    · apply (row_disjoint_iff_rowClear s.vRowBytes_pos hne).mp
      intro b hlo hhi
      exact h d d.flip b ((slotRows_zero_mha hs).mpr ⟨layer, hlayer, Or.inr ⟨hlo, hhi⟩⟩)
  · intro h d d' b hb hpage
    rcases GrowDirection.eq_or_eq_flip d d' with rfl | rfl
    · exact not_inAllocatablePage_self hb hpage
    · cases hs : pool.spec d with
      | mamba s =>
        have hlt := writtenBySlotZero_mamba_lt hs hb
        have hmin := entryMax_le_firstByte pool d.flip
        have hfirst := (inAllocatablePage_iff.mp hpage).1
        unfold firstByte at hfirst
        omega
      | mha s =>
        have hrange := inAllocatablePage_iff.mp hpage
        have hne : pool.firstByte d.flip < pool.endByte d.flip := lt_of_le_of_lt hrange.1 hrange.2
        obtain ⟨layer, hlayer, hrow⟩ := (slotRows_zero_mha hs).mp hb
        obtain ⟨hk, hv⟩ := h d s hs hne layer hlayer
        rcases hrow with ⟨hlo, hhi⟩ | ⟨hlo, hhi⟩
        · exact (row_disjoint_iff_rowClear s.kRowBytes_pos hne).mpr hk
            b hlo hhi hpage
        · exact (row_disjoint_iff_rowClear s.vRowBytes_pos hne).mpr hv
            b hlo hhi hpage

/-- At `page_size = 1` slot `0` is one envelope below `entryMax`, and the
reservation is enough whatever the two specifications are. -/
theorem slotZeroRowsClear_of_pageSize_eq_one
    (hps : pool.pageSize = 1) : pool.SlotZeroRowsClear := by
  intro d s hs hne layer hlayer
  have hpage := layerOffset_le_pageBytes 1 hlayer
  have hentry : s.pageBytes 1 = pool.entryBytes d := by
    simp [MHASubPoolSpec.pageBytes, entryBytes, hs, SubPoolSpec.entryBytes]
  have hmax := entryBytes_le_entryMax pool d
  have hfirst : entryMax pool.spec ≤ pool.firstByte d.flip := entryMax_le_firstByte pool d.flip
  have hkv : s.layerKOffsetInPage layer 1 + 1 * s.kRowBytes = s.layerVOffsetInPage layer 1 := rfl
  rw [hps]
  constructor
  · left
    omega
  · left
    omega

end UnifiedKVPool

/-! ## A pool whose sink is not isolated -/

/-- Two layers with 4-byte K and V rows: 16 bytes a slot. -/
def wideSpec : MHASubPoolSpec :=
  ⟨2, 1, 4, 4, 1, Nat.two_pos, Nat.one_pos, Nat.succ_pos 3, Nat.succ_pos 3, Nat.one_pos⟩

/-- One layer with 1-byte K and V rows: 2 bytes a slot. -/
def narrowSpec : MHASubPoolSpec :=
  ⟨1, 1, 1, 1, 1, Nat.one_pos, Nat.one_pos, Nat.one_pos, Nat.one_pos, Nat.one_pos⟩

/-- A 256-byte pool with pages of two slots: the second layer of the wide
sub-pool's slot `0` starts at byte 16, where page 4 of the narrow one lies. -/
def unevenPool : UnifiedKVPool where
  totalBytes := 256
  pageSize := 2
  spec := fun d => match d with
    | .up => .mha wideSpec
    | .down => .mha narrowSpec
  pageSize_pos := Nat.two_pos
  accepted := by intro d; cases d <;> decide

theorem slotZeroRowsClear_unevenPool :
    { unevenPool with pageSize := 1, pageSize_pos := le_rfl }.SlotZeroRowsClear :=
  UnifiedKVPool.slotZeroRowsClear_of_pageSize_eq_one rfl

theorem unevenPool_not_sinkIsolated : ¬unevenPool.SinkIsolated := by
  intro h
  refine h .up .down 16 ⟨⟨16, 4⟩, by decide, by decide⟩ ⟨4, ?_⟩
  decide

end Sglang.UnifiedPool
