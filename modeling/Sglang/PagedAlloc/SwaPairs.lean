import Mathlib.Data.Set.Function
import Sglang.PagedAlloc.Swa

/-!
# Paired pages

The table of the sliding-window allocator pairs full pages with window pages and keeps the
offset inside the page. Allocation extends the pairing by the pages taken in both pools, or
writes on in pages that are paired already.
-/

namespace Sglang.PagedAlloc

open MultiEnded (mem_pageRange)
open Sglang.Support (scatter fill scatter_of_notMem scatter_map map_scatter fill_of_mem
  fill_of_notMem)
open SwaAllocator List
open KVAllocator

variable {c : SwaConfig} {s s' : SwaAllocator} {live live' : Set ℤ} {q : ℤ} {p n : ℕ} {x : ℤ}
  {a b out : List ℤ} {r : ExtendReq} {reqs : List ExtendReq} {w : ℤ → ℤ}

/-- The slot at the same offset of the page assigned by `w`. -/
def shift (p : ℕ) (w : ℤ → ℤ) (x : ℤ) : ℤ := w (x / (p : ℤ)) * p + x % (p : ℤ)

theorem shift_div (hp : 0 < p) : shift p w x / (p : ℤ) = w (x / (p : ℤ)) := by
  have hp' : (0 : ℤ) < p := by exact_mod_cast hp
  rw [shift, Int.add_comm, Int.add_mul_ediv_right _ _ hp'.ne',
    Int.ediv_eq_zero_of_lt (Int.emod_nonneg _ hp'.ne') (Int.emod_lt_of_pos _ hp'), zero_add]

theorem shift_mod : shift p w x % (p : ℤ) = x % (p : ℤ) := by
  rw [shift, Int.add_comm, Int.add_mul_emod_self_right, Int.emod_emod]

/-- The full pages that have a window half. -/
def mappedPages (c : SwaConfig) (s : SwaAllocator) : Set ℤ :=
  { q | ∃ x, x ≠ -1 ∧ s.fullToSwa x ≠ 0 ∧ x / (c.pageSize : ℤ) = q }

/-- The table is a pairing `w` of the mapped pages with the window pages handed out. -/
structure SwaInv (c : SwaConfig) (s : SwaAllocator) (live : Set ℤ) (w : ℤ → ℤ) : Prop where
  full : s.full.Sound c.full
  full_ready : s.full.isNotInFreeGroup = true
  swa : s.swa.Sound c.swa
  swa_ready : s.swa.isNotInFreeGroup = true
  live_page : ∀ x ∈ live, x / (c.pageSize : ℤ) ∈ s.full.taken c.full
  sentinel : s.fullToSwa (-1) = -1
  unmapped : ∀ x, x ≠ -1 → x ∉ live → s.fullToSwa x = 0
  entry : ∀ x, x ≠ -1 → s.fullToSwa x ≠ 0 → s.fullToSwa x = shift c.pageSize w x
  bijOn : Set.BijOn w (mappedPages c s) (s.swa.taken c.swa)

theorem mem_pool {c : PoolConfig} : q ∈ c.pool ↔ 1 ≤ q ∧ q < c.numPages + 1 := mem_pageRange

/-- Slots of pages of the pool are positive. -/
theorem pos_of_mem_pool {c : PoolConfig} (hp : 0 < p) (h : x / (p : ℤ) ∈ c.pool) : 0 < x := by
  by_contra hx
  have hle : x / (p : ℤ) ≤ 0 / (p : ℤ) := Int.ediv_le_ediv (by exact_mod_cast hp) (not_lt.mp hx)
  rw [Int.zero_ediv] at hle
  have := (mem_pool.mp h).1
  omega

theorem ne_sentinel {c : PoolConfig} (hp : 0 < p) (h : x / (p : ℤ) ∈ c.pool) : x ≠ -1 := by
  have := pos_of_mem_pool hp h
  omega

namespace SwaInv

theorem live_of_mapped (V : SwaInv c s live w) (hx : x ≠ -1) (h : s.fullToSwa x ≠ 0) :
    x ∈ live := by
  by_contra hnot
  exact h (V.unmapped x hx hnot)

theorem mapped_subset (V : SwaInv c s live w) : mappedPages c s ⊆ s.full.taken c.full := by
  rintro q ⟨x, hx, hne, rfl⟩
  exact V.live_page x (V.live_of_mapped hx hne)

theorem clear (c : SwaConfig) : SwaInv c (SwaAllocator.clear c) ∅ id := by
  have hnone : mappedPages c (SwaAllocator.clear c) = ∅ := by
    rw [Set.eq_empty_iff_forall_notMem]
    rintro q ⟨x, hx, hne, -⟩
    exact hne (if_neg hx)
  have htaken : (SwaAllocator.clear c).swa.taken c.swa = ∅ := by
    rw [Set.eq_empty_iff_forall_notMem]
    rintro q ⟨hpool, hnot⟩
    exact hnot (by rw [SwaAllocator.clear, avail_clear]; exact Multiset.mem_coe.mpr hpool)
  refine ⟨Sound.clear _, rfl, Sound.clear _, rfl, fun x hx => hx.elim, rfl, fun x hx _ => if_neg hx,
    fun x hx hne => absurd (if_neg hx) hne, ?_⟩
  rw [hnone, htaken]
  exact Set.bijOn_empty _

end SwaInv

/-! ## Writing pairs -/

theorem bijOn_map {f : ℤ → ℤ} (hb : a.map f = b) (hnodup : b.Nodup) :
    Set.BijOn f { q | q ∈ a } { q | q ∈ b } := by
  subst hb
  exact ⟨fun q hq => mem_map_of_mem hq, fun x hx y hy => inj_on_of_nodup_map hnodup hx hy,
    fun q hq => mem_map.mp hq⟩

/-- Pages are taken in both pools and the table is written for them. -/
theorem SwaInv.assign (V : SwaInv c s live w) {full swa : KVAllocator} {l : List ℤ} {d : ℕ}
    {w' t : ℤ → ℤ} (hfull : s.full.avail = (a : Multiset ℤ) + full.avail)
    (hswa : s.swa.avail = (b : Multiset ℤ) + swa.avail)
    (hready : full.isNotInFreeGroup = s.full.isNotInFreeGroup)
    (hready' : swa.isNotInFreeGroup = s.swa.isNotInFreeGroup)
    (hkeep : ∀ q ∈ s.full.taken c.full, w' q = w q) (hb : (a.drop d).map w' = b)
    (hpage : ∀ x ∈ l, x / (c.pageSize : ℤ) ∈ mappedPages c s ∨ x / (c.pageSize : ℤ) ∈ a.drop d)
    (hcover : ∀ q ∈ a.drop d, ∃ x ∈ l, x / (c.pageSize : ℤ) = q)
    (ht : ∀ x, t x = if x ∈ l then shift c.pageSize w' x else s.fullToSwa x)
    (hsub : live ⊆ live') (hxs : ∀ x ∈ l, x ∈ live')
    (hnew : ∀ x ∈ live', x / (c.pageSize : ℤ) ∈ a ∨
      ∃ y ∈ live, x / (c.pageSize : ℤ) = y / (c.pageSize : ℤ)) :
    SwaInv c { s with full, swa, fullToSwa := t } live' w' := by
  have hp := c.pageSize_pos
  obtain ⟨Sfull, hfn, hfresh, hfulltaken⟩ := V.full.take hfull
  obtain ⟨Sswa, hsn, hswafresh, hswataken⟩ := V.swa.take hswa
  have hdrop : ∀ q ∈ a.drop d, q ∈ c.full.pool ∧ q ∉ s.full.taken c.full := fun q hq =>
    hfresh q (mem_of_mem_drop hq)
  have hin : ∀ x ∉ l, t x = s.fullToSwa x := fun x hx => (ht x).trans (if_neg hx)
  have hout : ∀ x ∈ l, t x = shift c.pageSize w' x := fun x hx => (ht x).trans (if_pos hx)
  -- the pairing of the old and of the new pages
  have hold : Set.BijOn w' (mappedPages c s) (s.swa.taken c.swa) :=
    V.bijOn.congr fun q hq => (hkeep q (V.mapped_subset hq)).symm
  have hnewbij := bijOn_map hb hsn
  have hbij : Set.BijOn w' (mappedPages c s ∪ { q | q ∈ a.drop d }) (swa.taken c.swa) := by
    rw [hswataken]
    refine hold.union hnewbij ?_
    have hdisj : Disjoint (mappedPages c s) { q | q ∈ a.drop d } :=
      Set.disjoint_left.mpr fun q hq hmem => (hdrop q hmem).2 (V.mapped_subset hq)
    rw [Set.injOn_union hdisj]
    exact ⟨hold.injOn, hnewbij.injOn, fun q hq r hr heq =>
      (hswafresh _ (hnewbij.mapsTo hr)).2 (heq ▸ hold.mapsTo hq)⟩
  have hxpage : ∀ x ∈ l, x / (c.pageSize : ℤ) ∈ c.full.pool ∧ t x ≠ 0 := by
    intro x hx
    refine ⟨(hpage x hx).elim (fun h => (V.mapped_subset h).1) fun h => (hdrop _ h).1, ?_⟩
    have hpool := (hbij.mapsTo (hpage x hx)).1
    rw [← shift_div (w := w') hp, ← hout x hx] at hpool
    exact (pos_of_mem_pool hp hpool).ne'
  have hmapped : mappedPages c { s with full, swa, fullToSwa := t } =
      mappedPages c s ∪ { q | q ∈ a.drop d } := by
    ext q
    constructor
    · rintro ⟨x, hx, hne, rfl⟩
      by_cases hmem : x ∈ l
      · exact hpage x hmem
      · exact Or.inl ⟨x, hx, by rwa [← hin x hmem], rfl⟩
    · have hwrite : ∀ x ∈ l, x / (c.pageSize : ℤ) ∈
          mappedPages c { s with full, swa, fullToSwa := t } := fun x hx =>
        ⟨x, ne_sentinel hp (hxpage x hx).1, (hxpage x hx).2, rfl⟩
      rintro (⟨x, hx, hne, rfl⟩ | hq)
      · by_cases hmem : x ∈ l
        · exact hwrite x hmem
        · exact ⟨x, hx, by rwa [← hin x hmem] at hne, rfl⟩
      · obtain ⟨x, hx, rfl⟩ := hcover q hq
        exact hwrite x hx
  refine ⟨Sfull, hready.trans V.full_ready, Sswa, hready'.trans V.swa_ready, ?_, ?_, ?_, ?_, ?_⟩
  · intro x hx
    rw [hfulltaken]
    rcases hnew x hx with hmem | ⟨y, hy, hxy⟩
    · exact Or.inr hmem
    · exact Or.inl (hxy ▸ V.live_page y hy)
  · exact (hin (-1) fun hmem => ne_sentinel hp (hxpage _ hmem).1 rfl).trans V.sentinel
  · intro x hx hnot
    exact (hin x fun hmem => hnot (hxs x hmem)).trans
      (V.unmapped x hx fun hlive => hnot (hsub hlive))
  · intro x hx hne
    by_cases hmem : x ∈ l
    · exact hout x hmem
    · have hne' : s.fullToSwa x ≠ 0 := hin x hmem ▸ hne
      refine (hin x hmem).trans ((V.entry x hx hne').trans ?_)
      rw [shift, shift, hkeep _ (V.live_page x (V.live_of_mapped hx hne'))]
  · rw [hmapped]
    exact hbij

/-- A pairing that takes the new pages to the new window pages. -/
theorem SwaInv.exists_pairing (V : SwaInv c s live w) {full : KVAllocator}
    (hfull : s.full.avail = (a : Multiset ℤ) + full.avail) {d : ℕ}
    (hlen : (a.drop d).length = b.length) :
    ∃ w' : ℤ → ℤ, (∀ q ∈ s.full.taken c.full, w' q = w q) ∧ (a.drop d).map w' = b := by
  obtain ⟨-, hnodup, hfresh, -⟩ := V.full.take hfull
  refine ⟨scatter w (a.drop d) b, fun q hq => ?_,
    map_scatter (hnodup.sublist (drop_sublist d a)) hlen⟩
  exact scatter_of_notMem fun hmem => (hfresh q (mem_of_mem_drop hmem)).2 hq

/-! ## What the kernels write -/

theorem runSlots_map (hp : 0 < p) (h : n ≤ a.length * p) :
    runSlots p (a.map w) n = (runSlots p a n).map (shift p w) := by
  rw [runSlots, runSlots, map_map]
  apply map_congr_left
  intro i hi
  have hlt : i / p < a.length :=
    Nat.div_lt_of_lt_mul (by rw [Nat.mul_comm]; exact (mem_range.mp hi).trans_le h)
  rw [Function.comp_apply, shift, slot_div hp, slot_mod hp, getD_eq_getElem _ _ hlt,
    getD_eq_getElem _ _ (by rwa [length_map]), getElem_map]

/-- One request, extended in both pools. -/
theorem extendOne_shift (hp : 0 < p) {z : ℤ} (hr : r.Follows p)
    (hz : r.prefixLen % p ≠ 0 → z = shift p w r.lastLoc) (ha : r.numNewPages p ≤ a.length) :
    extendOne p { r with lastLoc := z } (a.map w) = (extendOne p r a).map (shift p w) := by
  have hroom : r.seqLen - numPagesFor p r.prefixLen * p ≤ a.length * p := by
    have hge := numPagesFor_mul_ge hp (r.seqLen - numPagesFor p r.prefixLen * p)
    rw [← length_newPages hp] at hge
    exact hge.trans (Nat.mul_le_mul_right p ha)
  rw [extendOne_eq hp, extendOne_eq hp, map_append, runSlots_map hp hroom, map_map]
  congr 1
  apply map_congr_left
  intro i hi
  obtain ⟨hpart, hi'⟩ := room_in_page hp (mem_range.mp hi)
  obtain ⟨hdiv, hmod, hlast⟩ := step_in_page hp (hr hpart) hpart hi'
  rw [hz hpart, Function.comp_apply, shift, shift, hdiv, hmod, hlast]
  push_cast
  ring

/-- A batch, extended in both pools. -/
theorem allocExtendKernel_shift (hp : 0 < p) (s : SwaAllocator) (hr : ∀ r ∈ reqs, r.Follows p)
    (hz : ∀ r ∈ reqs, r.prefixLen % p ≠ 0 → s.fullToSwa r.lastLoc = shift p w r.lastLoc)
    (ha : getNumNewPages p reqs ≤ a.length) :
    allocExtendKernel p (reqs.map s.swaReq) (a.map w) =
      (allocExtendKernel p reqs a).map (shift p w) := by
  induction reqs generalizing a with
  | nil => rfl
  | cons r reqs ih =>
    rw [getNumNewPages_cons] at ha
    have hrest := ih (a := a.drop (r.numNewPages p)) (fun r hr' => hr r (mem_cons_of_mem _ hr'))
      (fun r hr' => hz r (mem_cons_of_mem _ hr')) (by rw [length_drop]; omega)
    rw [map_drop] at hrest
    rw [map_cons, allocExtendKernel, allocExtendKernel, map_append, ← hrest,
      ← extendOne_shift hp (hr r mem_cons_self) (hz r mem_cons_self) (by omega)]
    rfl

/-! ## Allocation -/

theorem of_bind_paired {α : Type} {outFull outSwa : Option (List ℤ) × KVAllocator}
    {k : List ℤ × List ℤ × SwaAllocator → Option α} {r : α}
    (h : (s.paired outFull outSwa >>= k) = some r) : ∃ f w s', outFull = (some f, s'.full) ∧
      outSwa = (some w, s'.swa) ∧ s' = { s with full := s'.full, swa := s'.swa } ∧
      k (f, w, s') = some r := by
  obtain ⟨of, kf⟩ := outFull
  obtain ⟨os, ks⟩ := outSwa
  unfold paired at h
  cases of with
  | none => cases h
  | some f =>
    cases os with
    | none => cases h
    | some w => exact ⟨f, w, _, rfl, rfl, rfl, h⟩

theorem SwaAllocator.Continues.follows (h : Continues c live r) : r.Follows c.pageSize :=
  fun hpart =>
  (h hpart).2.1

/-- Both pools extended for the same batch. -/
theorem SwaInv.extended (V : SwaInv c s live w)
    {full swa : KVAllocator} (hcont : ∀ r ∈ reqs, Continues c live r)
    (hback : ∀ r ∈ reqs, s.Backed c r) (ha : a.length = getNumNewPages c.pageSize reqs)
    (hb : b.length = getNumNewPages c.pageSize reqs)
    (hfull : s.full.avail = (a : Multiset ℤ) + full.avail)
    (hswa : s.swa.avail = (b : Multiset ℤ) + swa.avail)
    (hready : full.isNotInFreeGroup = s.full.isNotInFreeGroup)
    (hready' : swa.isNotInFreeGroup = s.swa.isNotInFreeGroup) : ∃ w', SwaInv c { s with
        full, swa
        fullToSwa := scatter s.fullToSwa (allocExtendKernel c.pageSize reqs a)
          (allocExtendKernel c.pageSize (reqs.map s.swaReq) b) }
      (live ∪ { x | x ∈ allocExtendKernel c.pageSize reqs a }) w' := by
  have hp := c.pageSize_pos
  have hfollows : ∀ r ∈ reqs, r.Follows c.pageSize := fun r hr => (hcont r hr).follows
  obtain ⟨w', hkeep, hmap⟩ := V.exists_pairing (d := 0) hfull (ha.trans hb.symm)
  obtain ⟨hpages, hcover⟩ := allocExtendKernel_pages hp hfollows ha
  -- requests go on in pages that are paired
  have hlast : ∀ r ∈ reqs, r.prefixLen % c.pageSize ≠ 0 → r.lastLoc ∈ live ∧
      r.lastLoc / (c.pageSize : ℤ) ∈ mappedPages c s ∧
      s.fullToSwa r.lastLoc = shift c.pageSize w' r.lastLoc := by
    intro r hr hpart
    have hlive := (hcont r hr hpart).1
    have htaken := V.live_page _ hlive
    have hne := ne_sentinel hp htaken.1
    refine ⟨hlive, ⟨_, hne, hback r hr hpart, rfl⟩, ?_⟩
    rw [V.entry _ hne (hback r hr hpart), shift, shift, hkeep _ htaken]
  have hshift := allocExtendKernel_shift (w := w') hp s hfollows (fun r hr h => (hlast r hr h).2.2)
    ha.ge
  rw [drop_zero] at hmap
  rw [hmap] at hshift
  refine ⟨w', V.assign (d := 0) hfull hswa hready hready' hkeep hmap ?_ hcover (fun x => ?_)
    Set.subset_union_left (fun x hx => Or.inr hx) ?_⟩
  · intro x hx
    rcases hpages x hx with hmem | ⟨r, hr, hpart, hpage⟩
    · exact Or.inr hmem
    · exact Or.inl (hpage ▸ (hlast r hr hpart).2.1)
  · rw [hshift, scatter_map]
  · rintro x (hx | hx)
    · exact Or.inr ⟨x, hx, rfl⟩
    · rcases hpages x hx with hmem | ⟨r, hr, hpart, hpage⟩
      · exact Or.inl hmem
      · exact Or.inr ⟨r.lastLoc, (hlast r hr hpart).1, hpage⟩

theorem getNumNewPages_swaReq (p : ℕ) (s : SwaAllocator) (reqs : List ExtendReq) :
    getNumNewPages p (reqs.map s.swaReq) = getNumNewPages p reqs := by
  simp only [getNumNewPages, map_map]
  rfl

theorem allocExtend_inv (V : SwaInv c s live w)
    (hcont : ∀ r ∈ reqs, Continues c live r) (hback : ∀ r ∈ reqs, s.Backed c r)
    (h : s.allocExtend c reqs = some (out, s')) :
    (∃ w', SwaInv c s' (live ∪ { x | x ∈ out }) w') ∧ s'.pending = s.pending := by
  simp only [SwaAllocator.allocExtend] at h
  split at h
  · cases h
  · obtain ⟨f, g, s₁, hf, hg, hs, heq⟩ := of_bind_paired h
    cases heq
    obtain ⟨a, ha, hfull, hready, rfl⟩ := allocExtend_spec hf
    obtain ⟨b, hb, hswa, hready', rfl⟩ := allocExtend_spec hg
    change b.length = getNumNewPages c.pageSize _ at hb
    rw [getNumNewPages_swaReq] at hb
    rw [hs]
    exact ⟨V.extended hcont hback ha hb hfull hswa hready hready', rfl⟩

theorem allocDecode_inv (V : SwaInv c s live w) {reqs : List DecodeReq}
    (hcont : ∀ r ∈ reqs, Continues c live (toExtend r))
    (hback : ∀ r ∈ reqs, s.Backed c (toExtend r))
    (h : s.allocDecode c reqs = some (out, s')) :
    (∃ w', SwaInv c s' (live ∪ { x | x ∈ out }) w') ∧ s'.pending = s.pending := by
  simp only [SwaAllocator.allocDecode] at h
  split at h
  · cases h
  · rename_i hp
    rw [not_not] at hp
    obtain ⟨f, g, s₁, hf, hg, hs, heq⟩ := of_bind_paired h
    cases heq
    obtain ⟨a, ha, hfull, hready, rfl⟩ := allocDecode_spec hp hf
    obtain ⟨b, hb, hswa, hready', rfl⟩ := allocDecode_spec hp hg
    have hmap : (reqs.map s.swaDecodeReq).map toExtend =
        (reqs.map toExtend).map s.swaReq := by
      rw [map_map, map_map]
      rfl
    change b.length = getNumNewPages c.pageSize _ at hb
    rw [hmap, getNumNewPages_swaReq] at hb
    rw [hs, hmap]
    refine ⟨V.extended ?_ ?_ ha hb hfull hswa hready hready', rfl⟩
    · intro e he
      obtain ⟨r, hr, rfl⟩ := mem_map.mp he
      exact hcont r hr
    · intro e he
      obtain ⟨r, hr, rfl⟩ := mem_map.mp he
      exact hback r hr

theorem alloc_inv (V : SwaInv c s live w) (h : s.alloc c n = some (out, s')) :
    (∃ w', SwaInv c s' (live ∪ { x | x ∈ out }) w') ∧ s'.pending = s.pending := by
  unfold SwaAllocator.alloc at h
  split at h
  · cases h
  · rename_i hone
    rw [not_not] at hone
    split at h
    · cases h
    · split at h
      · cases h
      · obtain ⟨f, g, s₁, hf, hg, hs, heq⟩ := of_bind_paired h
        cases heq
        obtain ⟨hflen, hfull, hready⟩ := alloc_spec hf
        obtain ⟨hglen, hswa, hready'⟩ := alloc_spec hg
        obtain ⟨w', hkeep, hmap⟩ := V.exists_pairing (d := 0) hfull (hflen.trans hglen.symm)
        have hdiv : ∀ x : ℤ, x / (c.pageSize : ℤ) = x := by simp [hone]
        have hshift : shift c.pageSize w' = w' := by
          funext x
          simp [shift, hone]
        rw [hs]
        refine ⟨⟨w', V.assign (d := 0) (l := out) hfull hswa hready hready' hkeep hmap ?_ ?_
          (fun x => ?_) Set.subset_union_left (fun x hx => Or.inr hx) ?_⟩, rfl⟩
        · exact fun x hx => Or.inr ((hdiv x).symm ▸ hx)
        · exact fun q hq => ⟨q, hq, hdiv q⟩
        · rw [hshift, ← hmap, drop_zero]
          exact scatter_map w'
        · rintro x (hx | hx)
          · exact Or.inr ⟨x, hx, rfl⟩
          · exact Or.inl ((hdiv x).symm ▸ hx)

theorem runSlots_take_drop (hp : 0 < p) {d : ℕ} (hd : d ≤ a.length) :
    runSlots p a (d * p + n) = runSlots p (a.take d) (d * p) ++ runSlots p (a.drop d) n := by
  conv_lhs => rw [← take_append_drop d a]
  exact runSlots_add hp (by rw [length_take_of_le hd])

/-- A tail that starts at a page boundary lies on the last new pages. -/
theorem extendOne_tail {tail : ℕ} (hcont : Continues c live r)
    (ha : a.length = r.numNewPages c.pageSize) (htail : tail ≤ r.seqLen - r.prefixLen)
    (hdvd : c.pageSize ∣ r.seqLen - tail) :
    ∃ (d : ℕ) (front : List ℤ), (a.drop d).length = numPagesFor c.pageSize tail ∧
      front.length = r.seqLen - r.prefixLen - tail ∧
      extendOne c.pageSize r a = front ++ runSlots c.pageSize (a.drop d) tail ∧
      ∀ x ∈ front, r.prefixLen % c.pageSize ≠ 0 ∧
          x / (c.pageSize : ℤ) = r.lastLoc / (c.pageSize : ℤ) ∧ r.lastLoc < x ∨
        x / (c.pageSize : ℤ) ∈ a.take d := by
  have hp := c.pageSize_pos
  set p := c.pageSize with hpdef
  have hle := r.prefix_le
  have hge := numPagesFor_mul_ge hp r.prefixLen
  obtain ⟨k, hk⟩ := hdvd
  have hstart : numPagesFor p r.prefixLen ≤ k := by
    rw [numPagesFor_le_iff hp, Nat.mul_comm]
    omega
  obtain ⟨d, rfl⟩ := Nat.exists_eq_add_of_le hstart
  have hmul : p * (numPagesFor p r.prefixLen + d) = numPagesFor p r.prefixLen * p + d * p := by ring
  rw [hmul] at hk
  have hrest : r.seqLen - numPagesFor p r.prefixLen * p = d * p + tail := by omega
  rw [length_newPages hp, hrest, numPagesFor_add hp (Nat.dvd_mul_left _ _),
    Nat.mul_div_cancel _ hp] at ha
  have hsplit := extendOne_eq hp r a
  rw [hrest, runSlots_take_drop hp (by omega), ← append_assoc] at hsplit
  refine ⟨d, _, by rw [length_drop]; omega, ?_, hsplit, fun x hx => ?_⟩
  · rw [length_append, length_map, length_range, length_runSlots,
      min_eq_right (by omega)]
    omega
  · rcases mem_append.mp hx with hx | hx
    · obtain ⟨i, hi, rfl⟩ := mem_map.mp hx
      obtain ⟨hpart, hroom⟩ := room_in_page hp (mem_range.mp hi)
      have hstep := step_in_page hp (hcont hpart).2.1 hpart hroom
      exact Or.inl ⟨hpart, hstep.1, by omega⟩
    · obtain ⟨i, hi, rfl⟩ := mem_map.mp hx
      have hlt : i / p < (a.take d).length := by
        rw [length_take_of_le (by omega)]
        exact Nat.div_lt_of_lt_mul (by rw [Nat.mul_comm]; exact mem_range.mp hi)
      rw [slot_div hp, getD_eq_getElem _ _ hlt]
      exact Or.inr (getElem_mem _)

theorem allocExtendSwaTail_inv (V : SwaInv c s live w) {tail : ℕ}
    (hcont : Continues c live r) (hdvd : c.pageSize ∣ r.seqLen - tail)
    (h : s.allocExtendSwaTail c r tail = some (out, s')) :
    (∃ w', SwaInv c s' (live ∪ { x | x ∈ out }) w') ∧ s'.pending = s.pending := by
  have hp := c.pageSize_pos
  have hone : ∀ a, allocExtendKernel c.pageSize [r] a = extendOne c.pageSize r a := fun a =>
    append_nil _
  have hcount : getNumNewPages c.pageSize [r] = r.numNewPages c.pageSize := by simp [getNumNewPages]
  simp only [SwaAllocator.allocExtendSwaTail] at h
  split at h
  · cases h
  · rename_i hguard
    rw [not_or, not_or, not_lt] at hguard
    obtain ⟨-, htail, -⟩ := hguard
    have hnew : ∀ {a : List ℤ}, a.length = r.numNewPages c.pageSize →
        ∀ x ∈ live ∪ { x | x ∈ extendOne c.pageSize r a }, x / (c.pageSize : ℤ) ∈ a ∨
          ∃ y ∈ live, x / (c.pageSize : ℤ) = y / (c.pageSize : ℤ) := by
      rintro a ha x (hx | hx)
      · exact Or.inr ⟨x, hx, rfl⟩
      · rcases extendOne_page hp hcont.follows ha hx with ⟨hpart, hpage, -⟩ | hmem
        · exact Or.inr ⟨r.lastLoc, (hcont hpart).1, hpage⟩
        · exact Or.inl hmem
    split at h
    · -- no window slots at all
      simp only [Option.bind_eq_bind, Option.bind_eq_some_iff] at h
      obtain ⟨f, hf, heq⟩ := h
      cases heq
      obtain ⟨a, ha, hfull, hready, rfl⟩ := allocExtend_spec (Prod.ext hf rfl : _ = (some out, _))
      change a.length = getNumNewPages c.pageSize _ at ha
      rw [hcount] at ha
      change (∃ w', SwaInv c _ (live ∪ { x | x ∈ allocExtendKernel c.pageSize [r] a }) w') ∧ _
      rw [hone]
      exact ⟨⟨w, V.assign (d := a.length) (l := []) hfull (zero_add _).symm hready rfl
        (fun _ _ => rfl) (by simp) (by simp) (by simp) (fun _ => rfl) Set.subset_union_left
        (by simp) (hnew ha)⟩, rfl⟩
    · obtain ⟨f, g, s₁, hf, hg, hs, heq⟩ := of_bind_paired h
      cases heq
      obtain ⟨a, ha, hfull, hready, rfl⟩ := allocExtend_spec hf
      obtain ⟨b, hb, hswa, hready', rfl⟩ := allocExtend_spec hg
      change a.length = getNumNewPages c.pageSize _ at ha
      change b.length = getNumNewPages c.pageSize _ at hb
      rw [hcount] at ha
      have hb' : b.length = numPagesFor c.pageSize tail := by
        rw [hb]
        simp [getNumNewPages, ExtendReq.numNewPages, numPagesFor_zero hp]
      obtain ⟨d, front, hdrop, hfront, hsplit, hpages⟩ :=
        extendOne_tail hcont ha (not_lt.mp htail) hdvd
      obtain ⟨w', hkeep, hmap⟩ := V.exists_pairing hfull (hdrop.trans hb'.symm)
      obtain ⟨-, hnodup, hfresh, -⟩ := V.full.take hfull
      rw [← take_append_drop d a, nodup_append'] at hnodup
      have hout : allocExtendKernel c.full.pageSize [r] a =
          front ++ runSlots c.pageSize (a.drop d) tail := (hone a).trans hsplit
      have hswaout : allocExtendKernel c.swa.pageSize [⟨0, tail, -1, Nat.zero_le _⟩] b =
          (runSlots c.pageSize (a.drop d) tail).map (shift c.pageSize w') := by
        refine (append_nil _).trans ((extendOne_eq hp _ _).trans ?_)
        rw [← runSlots_map hp (by rw [hdrop]; exact numPagesFor_mul_ge hp tail), hmap]
        simp [numPagesFor_zero hp]
      have hrun : ∀ {q}, (∃ x ∈ runSlots c.pageSize (a.drop d) tail, x / (c.pageSize : ℤ) = q) ↔
          q ∈ a.drop d := by
        intro q
        rw [(pageRun_runSlots hp hdrop).mem_pageIds_iff hp, pageIds_runSlots hp hdrop]
      -- the slots in front of the tail are new, so they have no window slot
      have hzero : ∀ x ∈ front, x ∉ runSlots c.pageSize (a.drop d) tail ∧ s.fullToSwa x = 0 := by
        intro x hx
        have hpool : x / (c.pageSize : ℤ) ∉ a.drop d ∧ x / (c.pageSize : ℤ) ∈ c.full.pool ∧
            x ∉ live := by
          rcases hpages x hx with ⟨hpart, hpage, hlt⟩ | htake
          · have htaken := V.live_page _ (hcont hpart).1
            rw [hpage]
            exact ⟨fun hmem => (hfresh _ (mem_of_mem_drop hmem)).2 htaken, htaken.1,
              (hcont hpart).2.2 x hpage hlt⟩
          · exact ⟨fun hmem => hnodup.2.2 htake hmem, (hfresh _ (mem_of_mem_take htake)).1,
              fun hlive => (hfresh _ (mem_of_mem_take htake)).2 (V.live_page x hlive)⟩
        exact ⟨fun hmem => hpool.1 (hrun.mp ⟨x, hmem, rfl⟩),
          V.unmapped x (ne_sentinel hp hpool.2.1) hpool.2.2⟩
      rw [hs, hout, hswaout, drop_left' hfront, take_left' hfront]
      refine ⟨⟨w', V.assign (l := runSlots c.pageSize (a.drop d) tail) hfull hswa hready hready'
        hkeep hmap (fun x hx => Or.inr (hrun.mp ⟨x, hx, rfl⟩)) (fun q => hrun.mpr) (fun x => ?_)
        Set.subset_union_left (fun x hx => Or.inr (mem_append_right _ hx)) ?_⟩, rfl⟩
      · by_cases hx : x ∈ front
        · rw [fill_of_mem hx, if_neg (hzero x hx).1, (hzero x hx).2]
        · rw [fill_of_notMem hx]
          exact scatter_map _
      · rw [← hsplit]
        exact hnew ha

end Sglang.PagedAlloc
