import Mathlib.Algebra.BigOperators.Group.List.Basic
import Mathlib.Data.List.Basic
import Mathlib.Tactic.Linarith
import Mathlib.Tactic.Ring

/-!
# The paged extend and decode kernels

Each program of `alloc_extend_kernel` serves one request of the batch. It
first fills the old partial page behind `last_loc`, then whole new pages, then
a new partial page. The page a program starts at is a prefix sum over the
requests before it; here the batch is folded from the left and each request
sees the free pages its predecessors left.
-/

namespace Sglang.PagedAlloc

/-- Pages covering `n` tokens. -/
def numPagesFor (pageSize n : ℕ) : ℕ := (n + pageSize - 1) / pageSize

/-- One request of an extend batch. -/
structure ExtendReq where
  prefixLen : ℕ
  seqLen : ℕ
  lastLoc : ℤ
  prefix_le : prefixLen ≤ seqLen

variable (pageSize : ℕ)

def ExtendReq.numNewPages (r : ExtendReq) : ℕ :=
  numPagesFor pageSize r.seqLen - numPagesFor pageSize r.prefixLen

def getNumNewPages (reqs : List ExtendReq) : ℕ :=
  (reqs.map (ExtendReq.numNewPages pageSize)).sum

/-- The program of one request; `pages` are the free pages from the request's
own start position on. -/
def extendOne (r : ExtendReq) (pages : List ℤ) : List ℤ :=
  let aligned := numPagesFor pageSize r.prefixLen * pageSize
  let numPart1 := min r.seqLen aligned - r.prefixLen
  let part1 := (List.range numPart1).map fun i : ℕ => r.lastLoc + 1 + (i : ℤ)
  if r.prefixLen + numPart1 = r.seqLen then part1
  else
    let numPart2 := r.seqLen / pageSize * pageSize - aligned
    let part2 := (List.range numPart2).map fun i : ℕ =>
      pages.getD (i / pageSize) 0 * pageSize + ((i % pageSize : ℕ) : ℤ)
    if r.prefixLen + numPart1 + numPart2 = r.seqLen then part1 ++ part2
    else
      let numPart3 := r.seqLen - r.seqLen / pageSize * pageSize
      let startLoc := pages.getD (r.numNewPages pageSize - 1) 0
      part1 ++ part2 ++ (List.range numPart3).map fun i : ℕ => startLoc * pageSize + (i : ℤ)

def allocExtendKernel (pageSize : ℕ) : List ExtendReq → List ℤ → List ℤ
  | [], _ => []
  | r :: rs, free =>
    extendOne pageSize r free ++ allocExtendKernel pageSize rs (free.drop (r.numNewPages pageSize))

/-- One request of a decode batch; its prefix length is `seqLen - 1`. -/
structure DecodeReq where
  seqLen : ℕ
  lastLoc : ℤ
  seqLen_pos : 1 ≤ seqLen

def DecodeReq.numNewPages (r : DecodeReq) : ℕ :=
  numPagesFor pageSize r.seqLen - numPagesFor pageSize (r.seqLen - 1)

/-- `get_num_new_pages(decode=True)`: a page is opened where the sequence
length is one past a page boundary. -/
def getNumNewPagesDecode (reqs : List DecodeReq) : ℕ :=
  reqs.countP fun r => r.seqLen % pageSize = 1

def decodeOne (r : DecodeReq) (pages : List ℤ) : ℤ :=
  if r.numNewPages pageSize = 0 then r.lastLoc + 1
  else pages.getD 0 0 * pageSize

def allocDecodeKernel (pageSize : ℕ) : List DecodeReq → List ℤ → List ℤ
  | [], _ => []
  | r :: rs, free =>
    decodeOne pageSize r free :: allocDecodeKernel pageSize rs (free.drop (r.numNewPages pageSize))

/-- Expansion of page ids to the token ids of those pages, in order. -/
def expandPages (pages : List ℤ) : List ℤ :=
  pages.flatMap fun p => (List.range pageSize).map fun i : ℕ => p * pageSize + (i : ℤ)

/-! ## Page arithmetic -/

variable {pageSize : ℕ}

theorem numPagesFor_le_iff (hps : 0 < pageSize) {k n : ℕ} :
    numPagesFor pageSize n ≤ k ↔ n ≤ k * pageSize := by
  rw [numPagesFor, ← Nat.lt_succ_iff, Nat.div_lt_iff_lt_mul hps, Nat.succ_mul]
  omega

theorem numPagesFor_mul_ge (hps : 0 < pageSize) (n : ℕ) : n ≤ numPagesFor pageSize n * pageSize :=
  (numPagesFor_le_iff hps).mp le_rfl

theorem numPagesFor_mono {m n : ℕ} (h : m ≤ n) : numPagesFor pageSize m ≤ numPagesFor pageSize n :=
  Nat.div_le_div_right (by omega)

/-- A page index lies below `numPagesFor n` exactly when its first token does
lie below `n`. -/
theorem lt_numPagesFor_iff (hps : 0 < pageSize) {k n : ℕ} :
    k < numPagesFor pageSize n ↔ k * pageSize < n := by
  rw [← not_le, numPagesFor_le_iff hps, not_le]

theorem numPagesFor_zero (hps : 0 < pageSize) : numPagesFor pageSize 0 = 0 :=
  Nat.le_zero.mp ((numPagesFor_le_iff hps).mpr (Nat.zero_le _))

theorem numPagesFor_succ (hps : 0 < pageSize) (n : ℕ) :
    numPagesFor pageSize (n + 1) = n / pageSize + 1 := by
  rw [numPagesFor, show n + 1 + pageSize - 1 = n + pageSize by omega, Nat.add_div_right _ hps]

theorem numPagesFor_mul (hps : 0 < pageSize) (k : ℕ) : numPagesFor pageSize (k * pageSize) = k :=
  Nat.le_antisymm ((numPagesFor_le_iff hps).mpr le_rfl)
    (Nat.le_of_mul_le_mul_right (numPagesFor_mul_ge hps _) hps)

theorem numPagesFor_sub_mul (hps : 0 < pageSize) (n k : ℕ) :
    numPagesFor pageSize (n - k * pageSize) = numPagesFor pageSize n - k := by
  refine eq_of_forall_ge_iff fun c => ?_
  rw [numPagesFor_le_iff hps, Nat.sub_le_iff_le_add, Nat.sub_le_iff_le_add, numPagesFor_le_iff hps,
    Nat.add_mul]

theorem slot_div {p : ℕ} (hp : 0 < p) (q : ℤ) (i : ℕ) :
    (q * p + ((i % p : ℕ) : ℤ)) / (p : ℤ) = q := by
  have hlt : ((i % p : ℕ) : ℤ) < p := by exact_mod_cast Nat.mod_lt i hp
  have hp' : (p : ℤ) ≠ 0 := by exact_mod_cast hp.ne'
  rw [Int.add_comm, Int.add_mul_ediv_right _ _ hp',
    Int.ediv_eq_zero_of_lt (Int.natCast_nonneg _) hlt,
    zero_add]

theorem mem_expandPages_iff {p : ℕ} (hp : 0 < p) {pages : List ℤ} {x : ℤ} :
    x ∈ expandPages p pages ↔ x / (p : ℤ) ∈ pages := by
  have hp' : (0 : ℤ) < p := by exact_mod_cast hp
  unfold expandPages
  rw [List.mem_flatMap]
  constructor
  · rintro ⟨q, hq, hx⟩
    obtain ⟨i, hi, rfl⟩ := List.mem_map.mp hx
    have hslot := slot_div hp q i
    rw [Nat.mod_eq_of_lt (List.mem_range.mp hi)] at hslot
    rwa [hslot]
  · intro hq
    have hmod := Int.emod_nonneg x hp'.ne'
    have hlt := Int.emod_lt_of_pos x hp'
    refine ⟨_, hq, List.mem_map.mpr ⟨(x % (p : ℤ)).toNat, List.mem_range.mpr (by omega), ?_⟩⟩
    rw [Int.toNat_of_nonneg hmod]
    exact Int.ediv_mul_add_emod x p

end Sglang.PagedAlloc
