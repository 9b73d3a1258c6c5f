import Mathlib.Data.Multiset.AddSub
import Mathlib.Data.Nat.ModEq
import Mathlib.Tactic.Abel
import Sglang.PagedAlloc.PageRun

/-!
# The token and the paged allocator

`TokenToKVPoolAllocator` serves pools of page size 1, `PagedTokenToKVPoolAllocator` the
others. Freed pages go to `free_pages`, or to `release_pages` where the list is
sorted lazily; inside a free group they are only noted. `avail` is the multiset of pages
on both lists: every operation moves pages between it and the caller.
-/

namespace Sglang.PagedAlloc

open List

open MultiEnded (pageRange sortPages uniquePages perm_sortPages mem_uniquePages nodup_uniquePages)

/-- Constructor arguments. -/
structure PoolConfig where
  size : ℕ
  pageSize : ℕ
  pageSize_pos : 0 < pageSize
  needSort : Bool

structure KVAllocator where
  freePages : List ℤ
  releasePages : List ℤ
  isNotInFreeGroup : Bool
  freeGroup : List (List ℤ)
  deriving DecidableEq

def PoolConfig.numPages (c : PoolConfig) : ℕ := c.size / c.pageSize

/-- All pages but the padding page 0. -/
def PoolConfig.pool (c : PoolConfig) : List ℤ := pageRange 1 (c.numPages + 1)

namespace KVAllocator

variable (c : PoolConfig) (a : KVAllocator)

def clear : KVAllocator where
  freePages := c.pool
  releasePages := []
  isNotInFreeGroup := true
  freeGroup := []

def availableSize : ℕ := (a.freePages.length + a.releasePages.length) * c.pageSize

def mergeAndSortFree : KVAllocator :=
  if a.releasePages.length > 0 then
    { a with freePages := sortPages (a.freePages ++ a.releasePages), releasePages := [] }
  else a

/-- The lists are merged when `free_pages` may be too short. -/
def prepare (want : ℕ) : KVAllocator :=
  if c.needSort && decide (want > a.freePages.length) then a.mergeAndSortFree else a

/-- `alloc` of the token allocator. -/
def alloc (needSize : ℕ) : Option (List ℤ) × KVAllocator :=
  let a := a.prepare c needSize
  if needSize > a.freePages.length then (none, a)
  else (some (a.freePages.take needSize), { a with freePages := a.freePages.drop needSize })

/-- `alloc_extend` of the paged allocator. -/
def allocExtend (reqs : List ExtendReq) : Option (List ℤ) × KVAllocator :=
  let extendNumTokens := (reqs.map fun r => r.seqLen - r.prefixLen).sum
  let a := a.prepare c (extendNumTokens / c.pageSize + reqs.length + 1)
  let outIndices := allocExtendKernel c.pageSize reqs a.freePages
  let numNewPages := getNumNewPages c.pageSize reqs
  if numNewPages > a.freePages.length then (none, a)
  else (some outIndices, { a with freePages := a.freePages.drop numNewPages })

/-- `alloc_decode` of the paged allocator. -/
def allocDecode (reqs : List DecodeReq) : Option (List ℤ) × KVAllocator :=
  let a := a.prepare c reqs.length
  let outIndices := allocDecodeKernel c.pageSize reqs a.freePages
  let numNewPages := getNumNewPagesDecode c.pageSize reqs
  if numNewPages > a.freePages.length then (none, a)
  else (some outIndices, { a with freePages := a.freePages.drop numNewPages })

/-- The pages a freed index list stands for. -/
def freedPages (freeIndex : List ℤ) : List ℤ :=
  if c.pageSize = 1 then freeIndex else uniquePages c.pageSize freeIndex

/-- `free`, with the way in which the indices join a list. -/
def freeWith (freeIndex : List ℤ) (join : List ℤ → List ℤ) : KVAllocator :=
  if freeIndex = [] then a
  else if a.isNotInFreeGroup then
    if c.needSort then { a with releasePages := join a.releasePages }
    else { a with freePages := join a.freePages }
  else { a with freeGroup := a.freeGroup ++ [freeIndex] }

/-- `free` of the paged allocator, which prepends. -/
def freePaged (freeIndex : List ℤ) : KVAllocator :=
  a.freeWith c freeIndex (uniquePages c.pageSize freeIndex ++ ·)

/-- `free`; the token allocator appends. -/
def free (freeIndex : List ℤ) : KVAllocator :=
  if c.pageSize = 1 then a.freeWith c freeIndex (· ++ freeIndex) else a.freePaged c freeIndex

/-! ## Specifications -/

/-- The pages on the allocator's lists. -/
def avail : Multiset ℤ := (a.freePages : Multiset ℤ) + (a.releasePages : Multiset ℤ)

/-- How many pages an allocation can come to: `release_pages` is merged only with `need_sort`. -/
def supply : ℕ := a.freePages.length + if c.needSort then a.releasePages.length else 0

/-- The pages handed out. -/
def taken : Set ℤ := { q | q ∈ c.pool ∧ q ∉ a.avail }

/-- The pages on the lists are distinct pages of the pool. -/
structure Sound : Prop where
  nodup : a.avail.Nodup
  pool : ∀ q ∈ a.avail, q ∈ c.pool

theorem avail_clear : (clear c).avail = (c.pool : Multiset ℤ) := by
  simp [avail, clear]

variable {c a} {a' : KVAllocator} {out l : List ℤ} {reqs : List ExtendReq}

namespace Sound

theorem clear (c : PoolConfig) : Sound c (clear c) := by
  constructor
  · rw [avail_clear]
    exact Multiset.coe_nodup.mpr (MultiEnded.nodup_pageRange _ _)
  · intro q hq
    rwa [avail_clear, Multiset.mem_coe] at hq

/-- Pages are handed out. -/
theorem take (h : Sound c a) (hl : a.avail = (l : Multiset ℤ) + a'.avail) : Sound c a' ∧
    l.Nodup ∧ (∀ q ∈ l, q ∈ c.pool ∧ q ∉ a.taken c) ∧ a'.taken c = a.taken c ∪ { q | q ∈ l } := by
  have hnodup := h.nodup
  rw [hl, Multiset.nodup_add] at hnodup
  obtain ⟨hnl, hn', hdisj⟩ := hnodup
  have hmem : ∀ q, q ∈ a.avail ↔ q ∈ l ∨ q ∈ a'.avail := by simp [hl]
  refine ⟨⟨hn', fun q hq => h.pool q ((hmem q).mpr (Or.inr hq))⟩, Multiset.coe_nodup.mp hnl,
    fun q hq => ⟨h.pool q ((hmem q).mpr (Or.inl hq)), fun ht => ht.2 ((hmem q).mpr (Or.inl hq))⟩,
      ?_⟩
  ext q
  constructor
  · rintro ⟨hpool, hnot⟩
    by_cases hq : q ∈ l
    · exact Or.inr hq
    · exact Or.inl ⟨hpool, fun hin => ((hmem q).mp hin).elim hq hnot⟩
  · rintro (⟨hpool, hnot⟩ | hq)
    · exact ⟨hpool, fun hin => hnot ((hmem q).mpr (Or.inr hin))⟩
    · exact ⟨h.pool q ((hmem q).mpr (Or.inl hq)), fun hin =>
        Multiset.disjoint_left.mp hdisj (Multiset.mem_coe.mpr hq) hin⟩

/-- Pages are given back. -/
theorem give (h : Sound c a) (hnodup : l.Nodup) (htaken : ∀ q ∈ l, q ∈ a.taken c)
    (hl : a'.avail = (l : Multiset ℤ) + a.avail) :
    Sound c a' ∧ a'.taken c = a.taken c \ { q | q ∈ l } := by
  have hmem : ∀ q, q ∈ a'.avail ↔ q ∈ l ∨ q ∈ a.avail := by simp [hl]
  refine ⟨⟨?_, fun q hq => ((hmem q).mp hq).elim (fun hq => (htaken q hq).1) (h.pool q)⟩, ?_⟩
  · rw [hl, Multiset.nodup_add, Multiset.disjoint_left]
    exact ⟨Multiset.coe_nodup.mpr hnodup, h.nodup, fun hq hin => (htaken _ hq).2 hin⟩
  · ext q
    simp only [taken, Set.mem_sdiff, Set.mem_ofPred_eq, hmem, not_or]
    tauto

end Sound

theorem prepare_spec (want : ℕ) : (a.prepare c want).avail = a.avail ∧
    (a.prepare c want).isNotInFreeGroup = a.isNotInFreeGroup := by
  unfold prepare mergeAndSortFree
  split
  · split
    · refine ⟨?_, rfl⟩
      have hsort : (sortPages (a.freePages ++ a.releasePages) : Multiset ℤ) =
          (a.freePages : Multiset ℤ) + (a.releasePages : Multiset ℤ) := by
        rw [Multiset.coe_add]
        exact Multiset.coe_eq_coe.mpr (perm_sortPages _)
      simp [avail, hsort]
    · exact ⟨rfl, rfl⟩
  · exact ⟨rfl, rfl⟩

/-- A pre-check that does not underestimate finds every page there is. -/
theorem lt_prepare_iff {m want : ℕ} (hm : m ≤ want) :
    m > (a.prepare c want).freePages.length ↔ m > a.supply c := by
  unfold prepare mergeAndSortFree supply
  cases c.needSort with
  | false => simp
  | true =>
    by_cases hwant : want > a.freePages.length
    · by_cases hrel : a.releasePages.length > 0
      · simp [hwant, hrel, (perm_sortPages (a.freePages ++ a.releasePages)).length_eq]
      · simp [hwant, show a.releasePages.length = 0 by omega]
    · simp only [hwant, decide_false, Bool.and_false, Bool.false_eq_true, if_false, if_true]
      omega

/-- Pages are taken from the front of `free_pages`. -/
theorem avail_take (n : ℕ) : a.avail = (a.freePages.take n : Multiset ℤ) +
      ({ a with freePages := a.freePages.drop n } : KVAllocator).avail := by
  have hsplit : (a.freePages : Multiset ℤ) =
      (a.freePages.take n : Multiset ℤ) + (a.freePages.drop n : Multiset ℤ) := by
    rw [Multiset.coe_add, take_append_drop]
  rw [avail, avail, ← add_assoc, ← hsplit]

theorem alloc_spec {n : ℕ} (h : a.alloc c n = (some out, a')) :
    out.length = n ∧ a.avail = (out : Multiset ℤ) + a'.avail ∧
      a'.isNotInFreeGroup = a.isNotInFreeGroup := by
  obtain ⟨havail, hgroup⟩ := prepare_spec (a := a) (c := c) n
  simp only [alloc] at h
  split at h
  · cases h
  · rename_i hlen
    cases h
    refine ⟨?_, ?_, hgroup⟩
    · rw [length_take, min_eq_left (by omega)]
    · rw [← havail]
      exact avail_take n

/-- The end of both paged allocations: the counted pages are taken. -/
theorem grant_spec {b : KVAllocator}
    (h : (if getNumNewPages c.pageSize reqs > b.freePages.length then (none, b)
      else (some (allocExtendKernel c.pageSize reqs b.freePages),
        { b with freePages := b.freePages.drop (getNumNewPages c.pageSize reqs) })) =
      (some out, a')) :
    ∃ taken : List ℤ, taken.length = getNumNewPages c.pageSize reqs ∧
      b.avail = (taken : Multiset ℤ) + a'.avail ∧
      a'.isNotInFreeGroup = b.isNotInFreeGroup ∧
      out = allocExtendKernel c.pageSize reqs taken := by
  split at h
  · cases h
  · rename_i hlen
    have htake : (b.freePages.take (getNumNewPages c.pageSize reqs)).length =
        getNumNewPages c.pageSize reqs := by
      rw [length_take, min_eq_left (by omega)]
    cases h
    refine ⟨_, htake, avail_take _, rfl, ?_⟩
    conv_lhs => rw [← take_append_drop (getNumNewPages c.pageSize reqs) b.freePages]
    exact allocExtendKernel_append c.pageSize_pos htake.ge

theorem allocExtend_spec (h : a.allocExtend c reqs = (some out, a')) :
    ∃ taken : List ℤ, taken.length = getNumNewPages c.pageSize reqs ∧
      a.avail = (taken : Multiset ℤ) + a'.avail ∧ a'.isNotInFreeGroup = a.isNotInFreeGroup ∧
      out = allocExtendKernel c.pageSize reqs taken := by
  obtain ⟨havail, hgroup⟩ := prepare_spec
    ((reqs.map fun r => r.seqLen - r.prefixLen).sum / c.pageSize + reqs.length + 1)
  rw [← havail, ← hgroup]
  exact grant_spec h

/-! ## Decoding -/

/-- A decode step is an extension by one token. -/
def toExtend (r : DecodeReq) : ExtendReq where
  prefixLen := r.seqLen - 1
  seqLen := r.seqLen
  lastLoc := r.lastLoc
  prefix_le := Nat.sub_le _ _

theorem extendOne_toExtend (hp : 0 < c.pageSize) (r : DecodeReq) (taken : List ℤ) :
    extendOne c.pageSize (toExtend r) taken = [decodeOne c.pageSize r taken] := by
  have hpos := r.seqLen_pos
  have hge := numPagesFor_mul_ge hp (r.seqLen - 1)
  rw [extendOne_eq hp, decodeOne]
  simp only [toExtend]
  by_cases hfits : r.seqLen ≤ numPagesFor c.pageSize (r.seqLen - 1) * c.pageSize
  · have hnone : r.numNewPages c.pageSize = 0 := by
      rw [DecodeReq.numNewPages, Nat.sub_eq_zero_iff_le]
      exact (numPagesFor_le_iff hp).mpr hfits
    rw [min_eq_left hfits, if_pos hnone, show r.seqLen - (r.seqLen - 1) = 1 by omega,
      Nat.sub_eq_zero_of_le hfits]
    simp [runSlots]
  · have hone : ¬r.numNewPages c.pageSize = 0 := by
      rwa [DecodeReq.numNewPages, Nat.sub_eq_zero_iff_le, numPagesFor_le_iff hp]
    rw [min_eq_right (not_le.mp hfits).le, if_neg hone,
      show numPagesFor c.pageSize (r.seqLen - 1) * c.pageSize - (r.seqLen - 1) = 0 by omega,
      show r.seqLen - numPagesFor c.pageSize (r.seqLen - 1) * c.pageSize = 1 by omega]
    simp [runSlots]

theorem allocDecodeKernel_eq (hp : 0 < c.pageSize) (reqs : List DecodeReq) (pages : List ℤ) :
    allocDecodeKernel c.pageSize reqs pages =
      allocExtendKernel c.pageSize (reqs.map toExtend) pages := by
  induction reqs generalizing pages with
  | nil => rfl
  | cons r reqs ih =>
    rw [allocDecodeKernel, map_cons, allocExtendKernel, extendOne_toExtend hp, ih]
    rfl

/-- `get_num_new_pages(decode=True)` counts the pages that are opened, if pages
are longer than one token. -/
theorem getNumNewPagesDecode_eq (hp : 1 < c.pageSize) (reqs : List DecodeReq) :
    getNumNewPagesDecode c.pageSize reqs = getNumNewPages c.pageSize (reqs.map toExtend) := by
  have hone : ∀ r : DecodeReq, (toExtend r).numNewPages c.pageSize =
      if r.seqLen % c.pageSize = 1 then 1 else 0 := by
    intro r
    have hp0 : 0 < c.pageSize := by omega
    obtain ⟨k, hk⟩ : ∃ k, r.seqLen = k + 1 := ⟨r.seqLen - 1, by have := r.seqLen_pos; omega⟩
    have hopens : (k + 1) % c.pageSize = 1 ↔ c.pageSize ∣ k := by
      rw [← Nat.modEq_zero_iff_dvd, ← Nat.ModEq.add_iff_right (Nat.ModEq.refl 1), Nat.ModEq,
        Nat.zero_add, Nat.mod_eq_of_lt hp]
    simp only [ExtendReq.numNewPages, toExtend, hk, Nat.add_sub_cancel, numPagesFor_succ hp0,
      hopens]
    split_ifs with hdvd
    · rw [numPagesFor_of_dvd hp0 hdvd, Nat.add_sub_cancel_left]
    · have hlt : k / c.pageSize * c.pageSize < k :=
        (Nat.div_mul_le_self _ _).lt_of_ne fun heq => hdvd (heq ▸ Nat.dvd_mul_left _ _)
      have := (lt_numPagesFor_iff hp0).mpr hlt
      omega
  induction reqs with
  | nil => rfl
  | cons r reqs ih =>
    rw [getNumNewPages] at ih
    rw [getNumNewPages, map_cons, map_cons, sum_cons, ← ih, hone,
      getNumNewPagesDecode, getNumNewPagesDecode, countP_cons, Nat.add_comm]
    simp

theorem allocDecode_spec (hp : 1 < c.pageSize) {reqs : List DecodeReq}
    (h : a.allocDecode c reqs = (some out, a')) :
    ∃ taken : List ℤ, taken.length = getNumNewPages c.pageSize (reqs.map toExtend) ∧
      a.avail = (taken : Multiset ℤ) + a'.avail ∧ a'.isNotInFreeGroup = a.isNotInFreeGroup ∧
      out = allocExtendKernel c.pageSize (reqs.map toExtend) taken := by
  obtain ⟨havail, hgroup⟩ := prepare_spec reqs.length
  rw [← havail, ← hgroup]
  simp only [allocDecode, getNumNewPagesDecode_eq hp, allocDecodeKernel_eq c.pageSize_pos] at h
  exact grant_spec h

/-! ## Freeing -/

theorem freeWith_spec {join : List ℤ → List ℤ} {pages : List ℤ} (hnil : l = [] → pages = [])
    (hjoin : ∀ old, (join old : Multiset ℤ) = (pages : Multiset ℤ) + (old : Multiset ℤ))
    (h : a.isNotInFreeGroup = true) :
    (a.freeWith c l join).avail = (pages : Multiset ℤ) + a.avail ∧
      (a.freeWith c l join).isNotInFreeGroup = true := by
  unfold freeWith
  split
  · rename_i hl
    simp [hnil hl, h]
  · split <;> exact ⟨by simp only [avail, hjoin]; abel, h⟩

theorem free_spec (h : a.isNotInFreeGroup = true) :
    (a.free c l).avail = (freedPages c l : Multiset ℤ) + a.avail ∧
      (a.free c l).isNotInFreeGroup = true := by
  unfold free freedPages
  split
  · exact freeWith_spec id (fun old => by rw [← Multiset.coe_add, add_comm]) h
  · refine freeWith_spec (fun hl => ?_) (fun old => (Multiset.coe_add _ _).symm) h
    simp [hl, uniquePages, sortPages]

theorem mem_freedPages {q : ℤ} : q ∈ freedPages c l ↔ ∃ x ∈ l, x / (c.pageSize : ℤ) = q := by
  unfold freedPages
  split
  · rename_i hone
    simp [hone]
  · exact mem_uniquePages

theorem nodup_freedPages (h : c.pageSize = 1 → l.Nodup) : (freedPages c l).Nodup := by
  unfold freedPages
  split
  · rename_i hone
    exact h hone
  · exact nodup_uniquePages _ _

/-- Tokens are their own pages in a pool of page size 1. -/
theorem pageIds_one (l : List ℤ) : pageIds 1 l = l := by
  apply ext_getElem
  · simp [numPagesFor]
  · intro k hk hk'
    simp only [pageIds, getElem_map, getElem_range, Nat.mul_one, Nat.cast_one, Int.ediv_one]
    exact getD_eq_getElem _ _ hk'

theorem pageRun_one (l : List ℤ) : PageRun 1 l := by
  rw [PageRun, pageIds_one]
  apply ext_getElem
  · simp
  · intro k hk hk'
    simp only [runSlots, getElem_map, getElem_range, Nat.div_one, Nat.mod_one,
      Nat.cast_one, mul_one, Nat.cast_zero, add_zero]
    exact (getD_eq_getElem _ _ hk).symm

theorem runSlots_one {k : ℕ} (h : k ≤ l.length) : runSlots 1 l k = l.take k := by
  have hlen : (l.take k).length = k := length_take_of_le h
  have hrun := pageRun_one (l.take k)
  rw [PageRun, pageIds_one, hlen] at hrun
  conv_lhs => rw [← take_append_drop k l]
  rw [runSlots_append (by rw [hlen, Nat.mul_one]), ← hrun]

theorem freedPages_perm (h : PageRun c.pageSize l) (hnodup : (pageIds c.pageSize l).Nodup) :
    (freedPages c l).Perm (pageIds c.pageSize l) := by
  unfold freedPages
  split
  · rename_i hone
    rw [hone, pageIds_one]
  · exact h.uniquePages_perm c.pageSize_pos hnodup

end KVAllocator

end Sglang.PagedAlloc
