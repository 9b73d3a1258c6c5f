import Sglang.PagedAlloc.Allocator
import Sglang.Support.Reachable

/-!
# Pages of the paged allocator

`PagedTokenToKVPoolAllocator` cuts its pool into pages. Along every run the pages
on its two lists and the allocated pages are the pool, each once, and an
allocation fails exactly when both lists together are too short. The number of
pages `alloc_decode` takes is counted by `seq_len % page_size == 1`, which no
length satisfies for pages of one token.
-/

namespace Sglang.PagedAlloc

open List Sglang.Support

open MultiEnded (uniquePages perm_sortPages mem_uniquePages nodup_uniquePages)

namespace KVAllocator

variable (c : PoolConfig) (a : KVAllocator)

/-- `alloc` of the paged allocator: whole pages, with all the indices on them. -/
def allocPaged (needSize : ℕ) : Option (List ℤ) × KVAllocator :=
  let r := a.alloc c (needSize / c.pageSize)
  (r.1.map (expandPages c.pageSize), r.2)

def freeGroupBegin : KVAllocator := { a with isNotInFreeGroup := false, freeGroup := [] }

def freeGroupEnd : KVAllocator :=
  let a := { a with isNotInFreeGroup := true }
  if a.freeGroup ≠ [] then a.freePaged c a.freeGroup.flatten else a

end KVAllocator

open KVAllocator

inductive PagedOp
  | alloc (needSize : ℕ)
  | allocExtend (reqs : List ExtendReq)
  | allocDecode (reqs : List DecodeReq)
  | free (freeIndex : List ℤ)
  | freeGroupBegin
  | freeGroupEnd

/-- The pages of some indices. -/
def pagesOf (c : PoolConfig) (l : List ℤ) : Set ℤ := { q | ∃ x ∈ l, x / (c.pageSize : ℤ) = q }

/-- The allocator after an allocation, with the pages that are allocated then. -/
def handOut (c : PoolConfig) (live : Set ℤ) (r : Option (List ℤ) × KVAllocator) :
    KVAllocator × Set ℤ := (r.2, live ∪ pagesOf c (r.1.getD []))

/-- A request at a page boundary, or one that goes on in an allocated page. -/
def GoesOn (c : PoolConfig) (live : Set ℤ) (r : ExtendReq) : Prop :=
  r.prefixLen % c.pageSize ≠ 0 → r.lastLoc / c.pageSize ∈ live ∧
    (r.lastLoc + 1) % c.pageSize = ((r.prefixLen % c.pageSize : ℕ) : ℤ)

namespace PagedOp

variable (c : PoolConfig) (s : KVAllocator × Set ℤ)

/-- The allocator after a call, with the pages that are allocated then. -/
def run : PagedOp → Option (KVAllocator × Set ℤ)
  | alloc needSize => some (handOut c s.2 (s.1.allocPaged c needSize))
  | allocExtend reqs => some (handOut c s.2 (s.1.allocExtend c reqs))
  | allocDecode reqs => some (handOut c s.2 (s.1.allocDecode c reqs))
  | free freeIndex => some (s.1.freePaged c freeIndex,
      if s.1.isNotInFreeGroup then s.2 \ pagesOf c freeIndex else s.2)
  | freeGroupBegin => some (s.1.freeGroupBegin, s.2)
  | freeGroupEnd => some (s.1.freeGroupEnd c, s.2 \ pagesOf c s.1.freeGroup.flatten)

/-- Requests go on where they ended, only allocated pages are freed, groups are not nested. -/
def Legal : PagedOp → Prop
  | alloc _ => True
  | allocExtend reqs => ∀ r ∈ reqs, GoesOn c s.2 r
  | allocDecode reqs => ∀ r ∈ reqs, GoesOn c s.2 (toExtend r)
  | free freeIndex => ∀ x ∈ freeIndex, x / (c.pageSize : ℤ) ∈ s.2
  | freeGroupBegin => s.1.isNotInFreeGroup = true
  | freeGroupEnd => s.1.isNotInFreeGroup = false

/-- The pages of a decode step are longer than one token. -/
def Counted : PagedOp → Prop
  | allocDecode _ => 1 < c.pageSize
  | _ => True

end PagedOp

variable {c : PoolConfig} {a a' : KVAllocator} {live : Set ℤ} {s s' : KVAllocator × Set ℤ}

/-! ## When an allocation fails -/

/-- `release_pages` is used only where the list is sorted. -/
def Eager (c : PoolConfig) (a : KVAllocator) : Prop := c.needSort = false → a.releasePages = []

theorem supply_eq (h : Eager c a) :
    a.supply c = a.freePages.length + a.releasePages.length := by
  unfold supply
  split
  · rfl
  · rename_i hsort
    rw [h (by simpa using hsort), length_nil]

theorem getNumNewPages_le {p : ℕ} (hp : 0 < p) (reqs : List ExtendReq) :
    getNumNewPages p reqs ≤ (reqs.map fun r => r.seqLen - r.prefixLen).sum / p + reqs.length := by
  induction reqs with
  | nil => simp [getNumNewPages]
  | cons r reqs ih =>
    have hone : r.numNewPages p ≤ (r.seqLen - r.prefixLen) / p + 1 := by
      have hge := numPagesFor_mul_ge hp r.prefixLen
      rw [length_newPages hp, ← Nat.add_div_right _ hp]
      exact Nat.div_le_div_right (by omega)
    have hsum : (r.seqLen - r.prefixLen) / p + _ / p ≤ (r.seqLen - r.prefixLen +
      (reqs.map fun r => r.seqLen - r.prefixLen).sum) / p := Nat.div_add_div_le_add_div
    rw [getNumNewPages_cons, map_cons, sum_cons, length_cons]
    omega

/-- The end of the three allocations, from the prepared lists. -/
def granted (b : KVAllocator) (count : ℕ) (out : List ℤ) : Option (List ℤ) × KVAllocator :=
  if count > b.freePages.length then (none, b)
  else (some out, { b with freePages := b.freePages.drop count })

theorem granted_eq_none_iff {b : KVAllocator} {count : ℕ} {out : List ℤ} :
    (granted b count out).1 = none ↔ count > b.freePages.length := by
  unfold granted
  split <;> simp [*]

theorem allocPaged_eq (n : ℕ) : a.allocPaged c n =
    granted (a.prepare c (n / c.pageSize)) (n / c.pageSize)
      (expandPages c.pageSize ((a.prepare c (n / c.pageSize)).freePages.take
        (n / c.pageSize))) := by
  unfold allocPaged KVAllocator.alloc granted
  dsimp only
  split <;> rfl

/-- An allocation returns nothing. -/
def Fails (r : Option (List ℤ) × KVAllocator) : Prop := r.1 = none

section Failure

variable (h : Eager c a)
include h

theorem allocPaged_fails_iff (n : ℕ) : Fails (a.allocPaged c n) ↔
    n / c.pageSize > a.freePages.length + a.releasePages.length := by
  rw [Fails, allocPaged_eq, granted_eq_none_iff, lt_prepare_iff le_rfl, supply_eq h]

theorem allocExtend_fails_iff (reqs : List ExtendReq) : Fails (a.allocExtend c reqs) ↔
    getNumNewPages c.pageSize reqs > a.freePages.length + a.releasePages.length := by
  have hle := getNumNewPages_le c.pageSize_pos reqs
  rw [← supply_eq h, ← lt_prepare_iff (hle.trans (Nat.le_succ _))]
  exact granted_eq_none_iff

theorem allocDecode_fails_iff (hp : 1 < c.pageSize) (reqs : List DecodeReq) :
    Fails (a.allocDecode c reqs) ↔ getNumNewPages c.pageSize (reqs.map toExtend) >
      a.freePages.length + a.releasePages.length := by
  have hle : getNumNewPagesDecode c.pageSize reqs ≤ reqs.length := countP_le_length
  rw [← getNumNewPagesDecode_eq hp, ← supply_eq h, ← lt_prepare_iff hle]
  exact granted_eq_none_iff

end Failure

/-! ## The pages along a run -/

/-- The lists hold the pages that are not allocated, and a group allocated ones. -/
structure PagesKept (c : PoolConfig) (s : KVAllocator × Set ℤ) : Prop where
  sound : Sound c s.1
  live : s.2 = s.1.taken c
  eager : Eager c s.1
  group : s.1.isNotInFreeGroup = false → ∀ x ∈ s.1.freeGroup.flatten, x / (c.pageSize : ℤ) ∈ s.2

theorem prepare_frame (want : ℕ) : (a.prepare c want).freeGroup = a.freeGroup ∧
    (Eager c a → Eager c (a.prepare c want)) := by
  unfold prepare mergeAndSortFree
  split
  · split
    · exact ⟨rfl, fun _ _ => rfl⟩
    · exact ⟨rfl, id⟩
  · exact ⟨rfl, id⟩

/-- Pages go to the caller. -/
theorem PagesKept.grant (h : PagesKept c (a, live)) (want : ℕ) {count : ℕ} {out : List ℤ}
    (hout : count ≤ (a.prepare c want).freePages.length → live ∪ pagesOf c out =
      live ∪ { q | q ∈ (a.prepare c want).freePages.take count }) :
    PagesKept c (handOut c live (granted (a.prepare c want) count out)) := by
  obtain ⟨havail, hnot⟩ := prepare_spec (a := a) (c := c) want
  obtain ⟨hgroup, heager⟩ := prepare_frame (a := a) (c := c) want
  have hlive : live = a.taken c := h.live
  unfold handOut granted
  split
  · refine ⟨⟨havail ▸ h.sound.nodup, havail ▸ h.sound.pool⟩, ?_, heager h.eager, ?_⟩
    · simp [pagesOf, hlive, taken, havail]
    · simpa [pagesOf, hnot, hgroup] using h.group
  · obtain ⟨hsound, -, -, htaken⟩ := h.sound.take (havail.symm.trans (avail_take count))
    refine ⟨hsound, ?_, heager h.eager, fun hin x hx => Or.inl ?_⟩
    · rw [htaken, ← h.live]
      exact hout (by omega)
    · exact h.group (hnot ▸ hin) x (hgroup ▸ hx)

/-- Beside allocated pages, the new indices lie on the pages taken, and on all of them. -/
theorem pages_kernel {reqs : List ExtendReq} {free : List ℤ} (hreqs : ∀ r ∈ reqs, GoesOn c live r)
    (hle : getNumNewPages c.pageSize reqs ≤ free.length) :
    live ∪ pagesOf c (allocExtendKernel c.pageSize reqs free) =
      live ∪ { q | q ∈ free.take (getNumNewPages c.pageSize reqs) } := by
  have hlen := length_take_of_le hle
  obtain ⟨hpages, hcover⟩ := allocExtendKernel_pages c.pageSize_pos
    (fun r hr hpart => (hreqs r hr hpart).2) hlen
  rw [← allocExtendKernel_append c.pageSize_pos hlen.ge (v := free.drop _),
    take_append_drop] at hpages hcover
  refine Set.Subset.antisymm (Set.union_subset Set.subset_union_left ?_)
    (Set.union_subset_union_right live hcover)
  rintro _ ⟨x, hx, rfl⟩
  rcases hpages x hx with hmem | ⟨r, hr, hpart, hpage⟩
  · exact Or.inr hmem
  · exact Or.inl (hpage ▸ (hreqs r hr hpart).1)

theorem pagesOf_expandPages (l : List ℤ) :
    pagesOf c (expandPages c.pageSize l) = { q | q ∈ l } := by
  ext q
  simp only [pagesOf, Set.mem_ofPred_eq, mem_expandPages_iff c.pageSize_pos]
  refine ⟨fun ⟨x, hx, hq⟩ => hq ▸ hx, fun hq => ⟨q * c.pageSize, ?_⟩⟩
  rw [Int.mul_ediv_cancel q (by exact_mod_cast c.pageSize_pos.ne')]
  exact ⟨hq, rfl⟩

/-- Pages come back from the caller. -/
theorem PagesKept.give (h : PagesKept c (a, live)) (hgroup : a.isNotInFreeGroup = true) {l : List ℤ}
    (hl : ∀ x ∈ l, x / (c.pageSize : ℤ) ∈ live) :
    PagesKept c (a.freePaged c l, live \ pagesOf c l) := by
  have hpages : pagesOf c l = { q | q ∈ uniquePages c.pageSize l } :=
    Set.ext fun q => mem_uniquePages.symm
  have htaken : ∀ q ∈ uniquePages c.pageSize l, q ∈ a.taken c := by
    intro q hq
    obtain ⟨x, hx, rfl⟩ := mem_uniquePages.mp hq
    exact h.live ▸ hl x hx
  rw [hpages, show live = a.taken c from h.live]
  have hgive (b : KVAllocator) (hb : b.avail = (uniquePages c.pageSize l : Multiset ℤ) + a.avail) :=
    h.sound.give (nodup_uniquePages c.pageSize l) htaken hb
  unfold freePaged freeWith
  rw [if_pos hgroup]
  split
  · rename_i hnil
    simpa [hnil, uniquePages, MultiEnded.sortPages, ← h.live] using h
  · split
    · rename_i hsort
      obtain ⟨hsound, heq⟩ := hgive
        { a with releasePages := uniquePages c.pageSize l ++ a.releasePages }
        (by simp only [avail, ← Multiset.coe_add]; abel)
      exact ⟨hsound, heq.symm, fun hno => by simp [hsort] at hno,
        fun hin => by simp [hgroup] at hin⟩
    · obtain ⟨hsound, heq⟩ := hgive
        { a with freePages := uniquePages c.pageSize l ++ a.freePages }
        (by simp only [avail, ← Multiset.coe_add]; abel)
      exact ⟨hsound, heq.symm, h.eager, fun hin => by simp [hgroup] at hin⟩

theorem PagesKept.step (h : PagesKept c s) {op : PagedOp} (hlegal : op.Legal c s)
    (hop : op.Counted c) (hrun : op.run c s = some s') : PagesKept c s' := by
  obtain ⟨a, live⟩ := s
  cases op with
  | alloc n =>
    cases hrun
    rw [allocPaged_eq]
    exact h.grant _ fun _ => by rw [pagesOf_expandPages]
  | allocExtend reqs =>
    cases hrun
    exact h.grant _ (pages_kernel hlegal)
  | allocDecode reqs =>
    cases hrun
    refine h.grant _ fun hle => ?_
    rw [getNumNewPagesDecode_eq hop] at hle ⊢
    rw [allocDecodeKernel_eq c.pageSize_pos]
    exact pages_kernel (forall_mem_map.mpr hlegal) hle
  | free l =>
    cases hrun
    by_cases hgroup : a.isNotInFreeGroup = true
    · rw [if_pos hgroup]
      exact h.give hgroup hlegal
    · unfold freePaged freeWith
      rw [if_neg hgroup, if_neg hgroup]
      split
      · exact h
      · refine ⟨⟨h.sound.nodup, h.sound.pool⟩, h.live, h.eager, fun hin x hx => ?_⟩
        simp only [flatten_append, flatten_singleton, mem_append] at hx
        exact hx.elim (h.group hin x) (hlegal x)
  | freeGroupBegin =>
    cases hrun
    exact ⟨⟨h.sound.nodup, h.sound.pool⟩, h.live, h.eager, fun _ x hx => nomatch hx⟩
  | freeGroupEnd =>
    cases hrun
    have hopen : PagesKept c ({ a with isNotInFreeGroup := true }, live) :=
      ⟨⟨h.sound.nodup, h.sound.pool⟩, h.live, h.eager, fun hin => nomatch hin⟩
    have hgive := hopen.give rfl (h.group hlegal)
    unfold freeGroupEnd
    dsimp only
    split
    · exact hgive
    · simp_all [freePaged, freeWith, pagesOf]

/-- Every page is on one list or allocated, and an allocation fails only for want of pages. -/
theorem pages_of_run (h : Reachable (· = (clear c, ∅)) (fun s op => op.Legal c s ∧ op.Counted c)
      (PagedOp.run c) s) :
    (s.1.freePages ++ s.1.releasePages).Nodup ∧
      (∀ q ∈ s.2, q ∉ s.1.freePages ++ s.1.releasePages) ∧
      (∀ q, q ∈ s.1.freePages ++ s.1.releasePages ∨ q ∈ s.2 ↔ q ∈ c.pool) ∧
      (∀ n, Fails (s.1.allocPaged c n) ↔
        n / c.pageSize > s.1.freePages.length + s.1.releasePages.length) ∧
      (∀ reqs, Fails (s.1.allocExtend c reqs) ↔
        getNumNewPages c.pageSize reqs > s.1.freePages.length + s.1.releasePages.length) ∧
      (1 < c.pageSize → ∀ reqs, Fails (s.1.allocDecode c reqs) ↔
        getNumNewPages c.pageSize (reqs.map toExtend) >
          s.1.freePages.length + s.1.releasePages.length) := by
  have hkept : PagesKept c s := by
    refine h.invariant ?_ fun op hkept hok hrun => hkept.step hok.1 hok.2 hrun
    rintro _ rfl
    refine ⟨Sound.clear c, ?_, fun _ => rfl, fun hin => nomatch hin⟩
    ext q
    simp [taken, avail_clear]
  have hmem : ∀ q, q ∈ s.1.freePages ++ s.1.releasePages ↔ q ∈ s.1.avail := by simp [avail]
  have hnodup := hkept.sound.nodup
  rw [avail, Multiset.coe_add, Multiset.coe_nodup] at hnodup
  simp only [hmem, hkept.live]
  refine ⟨hnodup, fun q hq => hq.2, fun q => ?_, allocPaged_fails_iff hkept.eager,
    allocExtend_fails_iff hkept.eager, allocDecode_fails_iff hkept.eager⟩
  refine ⟨fun hq => hq.elim (hkept.sound.pool q) And.left, fun hq => ?_⟩
  exact or_iff_not_imp_left.mpr fun hin => ⟨hq, hin⟩

/-- A pool of two pages. -/
def twoPagePool (pageSize : ℕ) (hp : 0 < pageSize) : PoolConfig where
  size := 2 * pageSize
  pageSize := pageSize
  pageSize_pos := hp
  needSort := true

/-- A sequence of one token is begun. -/
def firstToken : DecodeReq := ⟨1, -1, Nat.one_pos⟩

theorem legal_firstToken (c : PoolConfig) (s : KVAllocator × Set ℤ) :
    (PagedOp.allocDecode [firstToken]).Legal c s :=
  fun r hr => by simp_all [GoesOn, toExtend, firstToken]

/-- A decode step takes one page; one for two sequences then fails. -/
theorem pages_of_run_firstTokens :
    let c := twoPagePool 4 (by decide)
    Fails (((clear c).allocDecode c [firstToken]).2.allocDecode c [firstToken, firstToken]) := by
  intro c
  have hrun := pages_of_run (c := c) (.step (.start rfl) (a := .allocDecode [firstToken])
    ⟨legal_firstToken c _, (by decide : 1 < 4)⟩ rfl)
  exact (hrun.2.2.2.2.2 (by decide) [firstToken, firstToken]).mpr (by decide)

/-- With pages of one token the page that is handed out stays on the list. -/
theorem shared_page_firstToken :
    let c := twoPagePool 1 (by decide)
    ∃ s, Reachable (· = (clear c, ∅)) (fun s op => op.Legal c s) (PagedOp.run c) s ∧
      ∃ q ∈ s.2, q ∈ s.1.freePages := by
  intro c
  exact ⟨_, .step (.start rfl) (legal_firstToken c _) rfl, 1, Or.inr ⟨1, by decide, by decide⟩,
    by decide⟩

end Sglang.PagedAlloc
