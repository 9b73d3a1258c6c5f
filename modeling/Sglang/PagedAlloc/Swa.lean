import Sglang.PagedAlloc.Allocator
import Sglang.Support.Table

/-!
# The sliding-window allocator

`SWATokenToKVPoolAllocator` pairs a full and a sliding-window pool. Slots are handed
out in both and `full_to_swa_index_mapping` takes a full slot to its window slot, 0 where
there is none. `free_swa` gives up the window half of whole full pages at once, `free`
both halves, possibly deferred to the end of a free group.
-/

namespace Sglang.PagedAlloc

open MultiEnded (uniquePages)
open Sglang.Support (scatter fill)

structure SwaConfig where
  size : ℕ
  sizeSwa : ℕ
  pageSize : ℕ
  pageSize_pos : 0 < pageSize
  needSort : Bool

namespace SwaConfig

variable (c : SwaConfig)

def full : PoolConfig where
  size := c.size
  pageSize := c.pageSize
  pageSize_pos := c.pageSize_pos
  needSort := c.needSort

def swa : PoolConfig where
  size := c.sizeSwa
  pageSize := c.pageSize
  pageSize_pos := c.pageSize_pos
  needSort := c.needSort

end SwaConfig

structure SwaAllocator where
  full : KVAllocator
  swa : KVAllocator
  fullToSwa : ℤ → ℤ
  isNotInFreeGroup : Bool
  freeGroup : List (List ℤ)

namespace SwaAllocator

variable (c : SwaConfig) (s : SwaAllocator)

/-- `clear`; the last entry of the table takes -1 to -1. -/
def clear : SwaAllocator where
  full := KVAllocator.clear c.full
  swa := KVAllocator.clear c.swa
  fullToSwa := fun x => if x = -1 then -1 else 0
  isNotInFreeGroup := true
  freeGroup := []

def setFullToSwaMapping (fullIndices swaIndices : List ℤ) : SwaAllocator :=
  { s with fullToSwa := scatter s.fullToSwa fullIndices swaIndices }

/-- The `None` of a sub-allocator is an assertion failure or the result of the call. -/
def paired (outFull outSwa : Option (List ℤ) × KVAllocator) :
    Option (List ℤ × List ℤ × SwaAllocator) :=
  match outFull.1, outSwa.1 with
  | some fullIndices, some swaIndices =>
    some (fullIndices, swaIndices, { s with full := outFull.2, swa := outSwa.2 })
  | _, _ => none

def alloc (needSize : ℕ) : Option (List ℤ × SwaAllocator) :=
  if c.pageSize ≠ 1 then none
  else if needSize > s.full.availableSize c.full then none
  else if needSize > s.swa.availableSize c.swa then none
  else do
    let (fullIndices, swaIndices, s) ←
      s.paired (s.full.alloc c.full needSize) (s.swa.alloc c.swa needSize)
    some (fullIndices, s.setFullToSwaMapping fullIndices swaIndices)

def newPagesAvailable (numFullPages numSwaPages : ℕ) : Prop :=
  numFullPages ≤ s.full.availableSize c.full / c.pageSize ∧
    numSwaPages ≤ s.swa.availableSize c.swa / c.pageSize

instance (numFullPages numSwaPages : ℕ) :
    Decidable (s.newPagesAvailable c numFullPages numSwaPages) :=
  inferInstanceAs (Decidable (_ ∧ _))

/-- The request as the window pool sees it. -/
def swaReq (r : ExtendReq) : ExtendReq :=
  { r with lastLoc := s.fullToSwa r.lastLoc }

def allocExtend (reqs : List ExtendReq) : Option (List ℤ × SwaAllocator) :=
  let numNewPages := getNumNewPages c.pageSize reqs
  if ¬1 < c.pageSize ∨ ¬s.newPagesAvailable c numNewPages numNewPages then none
  else do
    let (fullIndices, swaIndices, s) ← s.paired (s.full.allocExtend c.full reqs)
      (s.swa.allocExtend c.swa (reqs.map s.swaReq))
    some (fullIndices, s.setFullToSwaMapping fullIndices swaIndices)

/-- `alloc_extend_swa_tail` for the one request of its batch. -/
def allocExtendSwaTail (r : ExtendReq) (swaTailLen : ℕ) : Option (List ℤ × SwaAllocator) :=
  let extendNumTokens := r.seqLen - r.prefixLen
  let numFullPages := getNumNewPages c.pageSize [r]
  let numSwaPages := numPagesFor c.pageSize swaTailLen
  if ¬1 < c.pageSize ∨ extendNumTokens < swaTailLen ∨
      ¬s.newPagesAvailable c numFullPages numSwaPages then none
  else
    if swaTailLen = 0 then do
      let out := s.full.allocExtend c.full [r]
      let fullIndices ← out.1
      some (fullIndices, { s with full := out.2 })
    else do
      let tail : ExtendReq :=
        { prefixLen := 0, seqLen := swaTailLen, lastLoc := -1, prefix_le := Nat.zero_le _ }
      let (fullIndices, swaIndices, s) ← s.paired (s.full.allocExtend c.full [r])
        (s.swa.allocExtend c.swa [tail])
      let s := s.setFullToSwaMapping (fullIndices.drop (extendNumTokens - swaTailLen)) swaIndices
      let front := fullIndices.take (extendNumTokens - swaTailLen)
      some (fullIndices, { s with fullToSwa := fill s.fullToSwa front 0 })

def swaDecodeReq (r : DecodeReq) : DecodeReq :=
  { r with lastLoc := s.fullToSwa r.lastLoc }

def allocDecode (reqs : List DecodeReq) : Option (List ℤ × SwaAllocator) :=
  if ¬1 < c.pageSize then none
  else do
    let (fullIndices, swaIndices, s) ← s.paired (s.full.allocDecode c.full reqs)
      (s.swa.allocDecode c.swa (reqs.map s.swaDecodeReq))
    some (fullIndices, s.setFullToSwaMapping fullIndices swaIndices)

/-- The indices whose window half `free_swa` gives up. -/
def mappingIndices (freeIndex : List ℤ) : List ℤ :=
  if c.pageSize = 1 then freeIndex else expandPages c.pageSize (uniquePages c.pageSize freeIndex)

def freeSwa (freeIndex : List ℤ) : SwaAllocator :=
  if freeIndex = [] then s
  else
    let indices := mappingIndices c freeIndex
    let swaIndices := (indices.map s.fullToSwa).filter (0 < ·)
    { s with
      swa := s.swa.free c.swa swaIndices
      fullToSwa := fill s.fullToSwa indices 0 }

/-- `free` fails if a list outgrew its pool. -/
def free (freeIndex : List ℤ) : Option SwaAllocator :=
  if freeIndex = [] then some s
  else
    let s' :=
      if s.isNotInFreeGroup then
        freeSwa c { s with full := s.full.free c.full freeIndex } freeIndex
      else { s with freeGroup := s.freeGroup ++ [freeIndex] }
    if s'.full.availableSize c.full ≤ c.size ∧ s'.swa.availableSize c.swa ≤ c.sizeSwa then some s'
    else none

def freeGroupBegin : SwaAllocator :=
  { s with isNotInFreeGroup := false, freeGroup := [] }

def freeGroupEnd : Option SwaAllocator :=
  if s.freeGroup ≠ [] then free c { s with isNotInFreeGroup := true } s.freeGroup.flatten
  else some { s with isNotInFreeGroup := true }

/-! ## Runs -/

/-- A request behind a page boundary, or one that goes on at the end of its page. -/
def Continues (live : Set ℤ) (r : ExtendReq) : Prop :=
  r.prefixLen % c.pageSize ≠ 0 → r.lastLoc ∈ live ∧
    (r.lastLoc + 1) % c.pageSize = ((r.prefixLen % c.pageSize : ℕ) : ℤ) ∧
    ∀ x, x / (c.pageSize : ℤ) = r.lastLoc / c.pageSize → r.lastLoc < x → x ∉ live

/-- A request that goes on inside a page still has the window half of that page. -/
def Backed (r : ExtendReq) : Prop := r.prefixLen % c.pageSize ≠ 0 → s.fullToSwa r.lastLoc ≠ 0

/-- The indices waiting for the end of the free group. -/
def pending : List ℤ := if s.isNotInFreeGroup then [] else s.freeGroup.flatten

/-- The indices on the pages of a list. -/
def pageMates (l : List ℤ) : Set ℤ :=
  { x | ∃ t ∈ l, t / (c.pageSize : ℤ) = x / c.pageSize }

end SwaAllocator

/-- The calls on the allocator. -/
inductive SwaOp where
  | alloc (needSize : ℕ)
  | allocExtend (reqs : List ExtendReq)
  | allocExtendSwaTail (r : ExtendReq) (swaTailLen : ℕ)
  | allocDecode (reqs : List DecodeReq)
  | free (freeIndex : List ℤ)
  | freeSwa (freeIndex : List ℤ)
  | freeGroupBegin
  | freeGroupEnd

namespace SwaOp

open SwaAllocator

variable (c : SwaConfig) (s : SwaAllocator) (live : Set ℤ)

/-- The allocator after a successful call, and the full indices allocated then. -/
def run : SwaOp → Option (SwaAllocator × Set ℤ)
  | alloc needSize => (s.alloc c needSize).map fun r => (r.2, live ∪ { x | x ∈ r.1 })
  | allocExtend reqs => (s.allocExtend c reqs).map fun r => (r.2, live ∪ { x | x ∈ r.1 })
  | allocExtendSwaTail r swaTailLen =>
    (s.allocExtendSwaTail c r swaTailLen).map fun r => (r.2, live ∪ { x | x ∈ r.1 })
  | allocDecode reqs => (s.allocDecode c reqs).map fun r => (r.2, live ∪ { x | x ∈ r.1 })
  | free freeIndex => (s.free c freeIndex).map fun s' =>
    (s', if s.isNotInFreeGroup then live \ pageMates c freeIndex else live)
  | freeSwa freeIndex => some (s.freeSwa c freeIndex, live)
  | freeGroupBegin => some (s.freeGroupBegin, live)
  | freeGroupEnd => (s.freeGroupEnd c).map fun s' => (s', live \ pageMates c s.freeGroup.flatten)

/-- What callers keep to: allocations go on where their request ended, tails start at a
page boundary, only allocated indices are freed and no page twice, groups are not nested. -/
def Legal : SwaOp → Prop
  | alloc _ => True
  | allocExtend reqs => ∀ r ∈ reqs, Continues c live r
  | allocExtendSwaTail r swaTailLen => Continues c live r ∧ c.pageSize ∣ r.seqLen - swaTailLen
  | allocDecode reqs => ∀ r ∈ reqs, Continues c live (KVAllocator.toExtend r)
  | free freeIndex => (∀ x ∈ freeIndex, x ∈ live ∧ x ∉ pageMates c s.pending) ∧
      (c.pageSize = 1 → freeIndex.Nodup)
  | freeSwa freeIndex => (∀ x ∈ freeIndex, x / (c.pageSize : ℤ) ∈ c.full.pool) ∧
      (c.pageSize = 1 → freeIndex.Nodup)
  | freeGroupBegin => s.isNotInFreeGroup = true
  | freeGroupEnd => s.isNotInFreeGroup = false

/-- No allocation goes on in a page whose window half was given up. -/
def Backed : SwaOp → Prop
  | allocExtend reqs => ∀ r ∈ reqs, s.Backed c r
  | allocDecode reqs => ∀ r ∈ reqs, s.Backed c (KVAllocator.toExtend r)
  | _ => True

end SwaOp

/-- Runs from `clear`, with the allocated full indices. -/
inductive SwaRun (c : SwaConfig) : SwaAllocator → Set ℤ → Prop
  | start : SwaRun c (SwaAllocator.clear c) ∅
  | step {s s' : SwaAllocator} {live live' : Set ℤ} {op : SwaOp} (hrun : SwaRun c s live)
      (hop : op.Legal c s live) (hok : op.run c s live = some (s', live')) : SwaRun c s' live'

/-- Runs whose allocations are backed. -/
inductive BackedRun (c : SwaConfig) : SwaAllocator → Set ℤ → Prop
  | start : BackedRun c (SwaAllocator.clear c) ∅
  | step {s s' : SwaAllocator} {live live' : Set ℤ} {op : SwaOp} (hrun : BackedRun c s live)
      (hop : op.Legal c s live) (hback : op.Backed c s)
      (hok : op.run c s live = some (s', live')) : BackedRun c s' live'

end Sglang.PagedAlloc
