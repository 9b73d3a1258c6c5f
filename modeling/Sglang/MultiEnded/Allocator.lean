import Mathlib.Data.Finset.Dedup
import Mathlib.Data.Finset.SDiff
import Mathlib.Data.List.Sort
import Sglang.PagedAlloc.Kernel
import Sglang.Support.Table
import Sglang.UnifiedPool.Layout

/-!
# The multi-ended allocator

One `MultiEndedAllocator` serves one sub-pool of the unified buffer. Token ids
handed out are virtual; the page tables translate them to physical pages, which
compaction may move. The tables are total functions with `-1` for an unbound
row. Every function takes the peer as an explicit argument, since `alloc*` may
flush it and every gate reads its frontier.

The two grow directions mirror each other. Where the source runs one loop
with the comparison turned around, the loop is written once over the small
direction-dependent helpers of `Config`.
-/

namespace Sglang.MultiEnded

open Sglang.Support Sglang.PagedAlloc Sglang.UnifiedPool

/-- A recorded `torch.cuda.Event`. -/
abbrev Event := ℕ

/-- The assertions and raises of the allocator. -/
inductive AllocError where
  | notIdOwner
  | notPageMultiple
  | outOfPhysicalRoom
  | noReleasePages
  | staleSlot
  | watermarkPastMinimum
  | freedOutsideBand
  | survivorHoleMismatch
  | survivorUnbound
  | jointInconsistency
  deriving DecidableEq, Repr

/-- What the constructor fixes. `ids_range` is the `torch.arange` of
`clear()`, which raises on an inverted range. -/
structure Config where
  growDirection : GrowDirection
  pageSize : ℕ
  numPages : ℕ
  minPageIndex : ℕ
  entryBytesPerPage : ℕ
  totalBytes : ℕ
  isIdOwner : Bool
  needSort : Bool
  lazyCompaction : Bool
  sortFreeListAfterMerge : Bool
  lazyMaxMovesPerCall : ℤ
  pageSize_pos : 0 < pageSize
  minPageIndex_pos : 0 < minPageIndex
  entryBytesPerPage_pos : 0 < entryBytesPerPage
  pages_fit : numPages * entryBytesPerPage ≤ totalBytes
  ids_range : isIdOwner = true → minPageIndex ≤ numPages

/-- The mutable state. `freeVirtualIds` is empty, and never read, for an
allocator that does not own its ids. `pendingReusePagesCpu` is a set. -/
structure Allocator where
  watermarkPhysical : ℤ
  virtualToPhysical : ℤ → ℤ
  physicalToVirtual : ℤ → ℤ
  freeVirtualIds : List ℤ
  freePhysPages : List ℤ
  pendingReuse : List (Event × List ℤ)
  pendingReusePagesCpu : Finset ℤ
  livePageCount : ℤ
  latestForwardDoneEvent : Option Event
  inflightForward : Option (Event × List ℤ)

/-- One call of `move_kv_cache`, token-granular. -/
structure KvMove where
  dst : List ℤ
  src : List ℤ
  deriving DecidableEq, Repr

/-- `range(lo, hi)`. -/
def pageRange (lo hi : ℤ) : List ℤ := (List.range (hi - lo).toNat).map fun i : ℕ => lo + (i : ℤ)

/-- Ascending `torch.sort`. -/
def sortPages (l : List ℤ) : List ℤ := l.insertionSort (· ≤ ·)

/-- `torch.unique(ids // page_size)`. -/
def uniquePages (pageSize : ℕ) (ids : List ℤ) : List ℤ :=
  sortPages (ids.map fun t => t / (pageSize : ℤ)).dedup

namespace Config

variable (c : Config)

/-- Allocator configuration of one side of an accepted pool. -/
def ofPool (pool : UnifiedKVPool) (d : GrowDirection)
    (isIdOwner needSort lazyCompaction sortFreeListAfterMerge : Bool)
    (lazyMaxMovesPerCall : ℤ)
    (hids : isIdOwner = true → pool.minPageIndex d ≤ pool.numPages d) :
    Config where
  growDirection := d
  pageSize := pool.allocPageSize d
  numPages := pool.numPages d
  minPageIndex := pool.minPageIndex d
  entryBytesPerPage := pool.entryBytesPerPage d
  totalBytes := pool.totalBytes
  isIdOwner := isIdOwner
  needSort := needSort
  lazyCompaction := lazyCompaction
  sortFreeListAfterMerge := sortFreeListAfterMerge
  lazyMaxMovesPerCall := lazyMaxMovesPerCall
  pageSize_pos := pool.allocPageSize_pos d
  minPageIndex_pos := pool.minPageIndex_pos d
  entryBytesPerPage_pos := pool.entryBytesPerPage_pos d
  pages_fit := pool.numPages_mul_le_totalBytes d
  ids_range := hids

/-- The page next to `p` on the far side of the watermark. -/
def inward (p : ℤ) : ℤ :=
  match c.growDirection with
  | .up => p - 1
  | .down => p + 1

/-- `h` lies nearer to the watermark than `p`. -/
def beyond (h p : ℤ) : Bool :=
  match c.growDirection with
  | .up => h > p
  | .down => h < p

/-- The bound of the survivor loop. -/
def inTable (p : ℤ) : Bool :=
  match c.growDirection with
  | .up => (c.minPageIndex : ℤ) ≤ p
  | .down => p < (c.numPages : ℤ)

/-- The holes in the order the survivor walk meets them. -/
def holesFromWatermark (holes : List ℤ) : List ℤ :=
  match c.growDirection with
  | .up => holes.reverse
  | .down => holes

/-- The holes in the order they serve as destinations. -/
def holesFromDeep (holes : List ℤ) : List ℤ :=
  match c.growDirection with
  | .up => holes
  | .down => holes.reverse

/-- The watermark after releasing `n` pages next to it. -/
def retreat (wm n : ℤ) : ℤ :=
  match c.growDirection with
  | .up => wm - n
  | .down => wm + n

/-- `cat` onto the free list, with the optional sort of
`SGLANG_SORT_FREE_LIST_AFTER_MERGE`. -/
def mergeFree (free pages : List ℤ) : List ℤ :=
  if c.sortFreeListAfterMerge then sortPages (free ++ pages) else free ++ pages

end Config

variable (c : Config)

/-- Reset to the initial state; page `0` is the padding anchor and the row
`num_pages` is the trailing sentinel. -/
def clear : Allocator where
  watermarkPhysical :=
    match c.growDirection with
    | .up => c.minPageIndex
    | .down => (c.numPages : ℤ) - 1
  virtualToPhysical v := if v = 0 ∧ c.numPages ≠ 0 then 0 else -1
  physicalToVirtual p := if p = 0 ∧ c.numPages ≠ 0 then 0 else -1
  freeVirtualIds := if c.isIdOwner then pageRange c.minPageIndex c.numPages else []
  freePhysPages := []
  pendingReuse := []
  pendingReusePagesCpu := ∅
  livePageCount := 0
  latestForwardDoneEvent := none
  inflightForward := none

/-! ## Size reporting -/

section Frontier

variable (c : Config) (a : Allocator)

def allocatedPages : ℤ :=
  match c.growDirection with
  | .up => max 0 (a.watermarkPhysical - c.minPageIndex)
  | .down => max 0 ((c.numPages : ℤ) - 1 - a.watermarkPhysical)

def byteHighFrontier : ℤ :=
  match c.growDirection with
  | .up => a.watermarkPhysical * c.entryBytesPerPage
  | .down => (c.numPages : ℤ) * c.entryBytesPerPage

def byteLowFrontier : ℤ :=
  match c.growDirection with
  | .up => (c.minPageIndex : ℤ) * c.entryBytesPerPage
  | .down => (a.watermarkPhysical + 1) * c.entryBytesPerPage

end Frontier

/-- The peered allocator, if `bind_peer` was called. -/
abbrev Peer := Option (Config × Allocator)

variable (a : Allocator) (peer : Peer)

def currentGapBytes : ℤ :=
  match c.growDirection with
  | .up =>
    let peerLow : ℤ := match peer with
      | some (cp, p) => byteLowFrontier cp p
      | none => c.totalBytes
    max 0 (peerLow - byteHighFrontier c a)
  | .down =>
    let peerHigh : ℤ := match peer with
      | some (cp, p) => byteHighFrontier cp p
      | none => 0
    max 0 (byteLowFrontier c a - peerHigh)

def availableTokens (extraGapBytes : ℤ) : ℤ :=
  let gapBytes := currentGapBytes c a peer + extraGapBytes
  let pagesByBytes := gapBytes / (c.entryBytesPerPage : ℤ)
  let pagesByIndexSpace := (c.numPages : ℤ) - c.minPageIndex - allocatedPages c a
  let pagesExtend := min pagesByBytes pagesByIndexSpace
  let pagesDrain : ℤ := if c.lazyCompaction then (a.freePhysPages.length : ℤ) else 0
  (pagesExtend + pagesDrain) * c.pageSize

def availableSize : ℤ := availableTokens c a peer 0

/-! ## Physical pages -/

/-- `none` is the `False` of the source. -/
def extendWatermark (n : ℕ) : Option Allocator :=
  match c.growDirection with
  | .up =>
    let newWm := a.watermarkPhysical + n
    if newWm > c.numPages then none
    else if peer.any fun p => newWm > byteLowFrontier p.1 p.2 / (c.entryBytesPerPage : ℤ) then none
    else some { a with watermarkPhysical := newWm }
  | .down =>
    let newWm := a.watermarkPhysical - n
    if newWm < (c.minPageIndex : ℤ) - 1 then none
    else if peer.any fun p =>
        newWm + 1 < byteHighFrontier p.1 p.2 / (c.entryBytesPerPage : ℤ)
      then none
    else some { a with watermarkPhysical := newWm }

/-- The index-only check of the eager path. -/
def extendWatermarkEager (n : ℕ) : Option Allocator :=
  match c.growDirection with
  | .up =>
    let newWm := a.watermarkPhysical + n
    if newWm > c.numPages then none
    else some { a with watermarkPhysical := newWm }
  | .down =>
    let newWm := a.watermarkPhysical - n
    if newWm < (c.minPageIndex : ℤ) - 1 then none
    else some { a with watermarkPhysical := newWm }

/-- The drained part of the free list and the rest of it. -/
def drainFree (free : List ℤ) (n : ℕ) : List ℤ × List ℤ :=
  match c.sortFreeListAfterMerge, c.growDirection with
  | true, .down => ((free.drop (free.length - n)).reverse, free.take (free.length - n))
  | _, _ => (free.take n, free.drop n)

/-- The pages of an applied extension, appended to drained holes. -/
def extendedPages (n : ℕ) : List ℤ :=
  match c.growDirection with
  | .up => pageRange (a.watermarkPhysical - n) a.watermarkPhysical
  | .down => (pageRange (a.watermarkPhysical + 1) (a.watermarkPhysical + n + 1)).reverse

/-- Lazy `take_physical_pages`: extend first, then drain holes. It is only
called with a non-empty free list and `0 < n`; the eager branch of the source
is never reached from the callers. -/
def takePhysicalPages (n : ℕ) : Option (Allocator × List ℤ) :=
  let nDrain := min n a.freePhysPages.length
  let needMore := n - nDrain
  let extended := if needMore > 0 then extendWatermark c a peer needMore else some a
  match extended with
  | none => none
  | some a =>
    let drained := drainFree c a.freePhysPages nDrain
    some ({ a with
        freePhysPages := drained.2
        livePageCount := a.livePageCount + n },
      drained.1 ++ extendedPages c a needMore)

def bind (virtualIds physicalIds : List ℤ) : Allocator :=
  { a with
    virtualToPhysical := scatter a.virtualToPhysical virtualIds physicalIds
    physicalToVirtual := scatter a.physicalToVirtual physicalIds virtualIds }

/-- The lowest page of an extension by `n`, from the old watermark. -/
def startPhys (startWm : ℤ) (n : ℕ) : ℤ :=
  match c.growDirection with
  | .up => startWm
  | .down => startWm - n + 1

/-- `alloc_bind_inplace` binds an ascending run of pages on the fast path;
holes are drained first on the slow path. -/
def allocBindFastOrSlow (vPages : List ℤ) (n : ℕ) : Option Allocator :=
  if n = 0 then some a
  else if ¬ c.lazyCompaction ∨ a.freePhysPages = [] then
    let extended :=
      if c.lazyCompaction then extendWatermark c a peer n
      else extendWatermarkEager c a n
    match extended with
    | none => none
    | some a' =>
      let start := startPhys c a.watermarkPhysical n
      let a' := bind a' vPages (pageRange start (start + vPages.length))
      some (if c.lazyCompaction then
        { a' with livePageCount := a'.livePageCount + n } else a')
  else
    match takePhysicalPages c a peer n with
    | none => none
    | some (a', physPages) => some (bind a' vPages physPages)

/-! ## Translation -/

/-- Virtual token to physical token, with the tombstone clamp. -/
def translateKvLoc (t : ℤ) : ℤ :=
  max 0 (a.virtualToPhysical (t / (c.pageSize : ℤ)) * c.pageSize + t % (c.pageSize : ℤ))

/-! ## Lazy compaction -/

/-- What `event.query()` answers at the three places one flush asks. -/
structure FlushQueries where
  drain : Event → Bool
  writeSet : Event → Bool
  commit : Event → Bool

/-- The pages of all pending entries, in order. -/
def pendingPages : List ℤ := a.pendingReuse.flatMap Prod.snd

def drainPendingReuse (urgent : Bool) (fired : Event → Bool) : Allocator :=
  let ready := a.pendingReuse.filter fun e => fired e.1 || urgent
  if ready = [] then a
  else
    { a with
      pendingReuse := a.pendingReuse.filter fun e => !(fired e.1 || urgent)
      pendingReusePagesCpu := a.pendingReusePagesCpu \ (ready.flatMap Prod.snd).toFinset
      freePhysPages := c.mergeFree a.freePhysPages (ready.flatMap Prod.snd) }

def maybeDrainPendingReuse (fired : Event → Bool) : Allocator :=
  if ¬ c.lazyCompaction then a else drainPendingReuse c a false fired

/-- The loop of `_topmost_survivor`. `holeRest` is the part of the hole
snapshot the cursor `j` has not passed, nearest to the watermark first. -/
def survivorLoop (c : Config) (pending : Finset ℤ) :
    ℕ → ℤ → List ℤ → Option ℤ × List ℤ
  | 0, _, holeRest => (none, holeRest)
  | fuel + 1, p, holeRest =>
    if c.inTable p then
      let holeRest := holeRest.dropWhile fun h => c.beyond h p
      if holeRest.head? = some p then
        survivorLoop c pending fuel (c.inward p) holeRest.tail
      else if p ∈ pending then
        survivorLoop c pending fuel (c.inward p) holeRest
      else (some p, holeRest)
    else (none, holeRest)

/-- Where the survivor loop starts: at the hint, or next to the watermark. -/
def survivorStart (startHint : Option ℤ) : ℤ :=
  match startHint with
  | none => c.inward a.watermarkPhysical
  | some hint =>
    match c.growDirection with
    | .up => if hint ≥ a.watermarkPhysical then a.watermarkPhysical - 1 else hint
    | .down => if hint ≤ a.watermarkPhysical then a.watermarkPhysical + 1 else hint

/-- The loop visits each page of the table at most once, so `num_pages + 1`
rounds are enough. -/
def topmostSurvivor (startHint : Option ℤ) (holeRest : List ℤ) : Option ℤ × List ℤ :=
  survivorLoop c a.pendingReusePagesCpu (c.numPages + 1) (survivorStart c a startHint) holeRest

/-- Number of leading holes contiguous with the watermark; `holes` is in
watermark order and `p` the page next to the watermark. -/
def boundaryRun (c : Config) : ℤ → List ℤ → ℕ
  | _, [] => 0
  | p, h :: holes => if h = p then boundaryRun c (c.inward p) holes + 1 else 0

/-- Retreat past the holes contiguous with the watermark; the interior holes
stay on the free list. -/
def absorbBoundaryHoles : Allocator :=
  let n := boundaryRun c (c.inward a.watermarkPhysical) (c.holesFromWatermark a.freePhysPages)
  { a with
    watermarkPhysical := c.retreat a.watermarkPhysical n
    freePhysPages :=
      match c.growDirection with
      | .up => a.freePhysPages.take (a.freePhysPages.length - n)
      | .down => a.freePhysPages.drop n }

def settleInflightForward : Allocator :=
  match a.latestForwardDoneEvent with
  | none => a
  | some _ => { a with inflightForward := none }

/-- The physical pages the in-flight forward is about to write. -/
def materializeInflightWriteSet (fired : Event → Bool) : Allocator × Option (List ℤ) :=
  match a.inflightForward with
  | none => (a, none)
  | some (event, oclv) =>
    if fired event then ({ a with inflightForward := none }, none)
    else (a, some (oclv.map fun t => translateKvLoc c a t / (c.pageSize : ℤ)))

/-- Assignment to a dictionary: the last value of a key wins. -/
def assignEntry (e : Event) (pages : List ℤ)
    (entries : List (Event × List ℤ)) : List (Event × List ℤ) :=
  if e ∈ entries.map Prod.fst then
    entries.map fun x => if x.1 = e then (e, pages) else x
  else entries ++ [(e, pages)]

/-- One batch of moves: the remap, the released sources, and the copies. -/
structure Commit where
  alloc : Allocator
  released : List ℤ
  moves : List KvMove

def commitMoveBatch (srcs dsts vMoveds : List ℤ) (latestEvent : Option Event)
    (fired : Event → Bool) : Commit :=
  if srcs = [] then ⟨a, [], []⟩
  else
    let moves := [⟨expandPages c.pageSize dsts, expandPages c.pageSize srcs⟩]
    let a := { a with
      virtualToPhysical := scatter a.virtualToPhysical vMoveds dsts
      physicalToVirtual := fill (scatter a.physicalToVirtual dsts vMoveds) srcs (-1) }
    match latestEvent with
    | none => ⟨a, srcs, moves⟩
    | some e =>
      if fired e then ⟨a, srcs, moves⟩
      else
        ⟨{ a with
            pendingReuse := assignEntry e srcs a.pendingReuse
            pendingReusePagesCpu := a.pendingReusePagesCpu ∪ srcs.toFinset },
          [], moves⟩

/-- The locals of the survivor walk. `dstRest` are the holes the destination
cursor has not taken, in destination order. -/
structure Walk where
  alloc : Allocator
  srcs : List ℤ
  dsts : List ℤ
  vMoveds : List ℤ
  dstRest : List ℤ
  cursor : Option ℤ
  holeRest : List ℤ
  writeSet : Option (List ℤ)
  latestEvent : Option Event
  releasedFired : List ℤ
  moves : List KvMove
  nMoves : ℕ

namespace Walk

/-- Materialize the write set on the first survivor that needs the check. -/
def resolveWriteSet (q : FlushQueries) (w : Walk) : Walk :=
  match w.writeSet with
  | some _ => w
  | none =>
    let m := materializeInflightWriteSet c w.alloc q.writeSet
    { w with alloc := m.1, writeSet := some (m.2.getD []) }

/-- Issue the accumulated moves. -/
def commit (c : Config) (q : FlushQueries) (w : Walk) : Walk :=
  let b := commitMoveBatch c w.alloc w.srcs w.dsts w.vMoveds w.latestEvent q.commit
  { w with
    alloc := b.alloc
    releasedFired := w.releasedFired ++ b.released
    moves := w.moves ++ b.moves
    nMoves := w.nMoves + w.srcs.length }

/-- Urgent write race: issue the accumulated moves, then wait the forward. -/
def commitAndWait (q : FlushQueries) (w : Walk) : Walk :=
  let w := w.commit c q
  { w with
    alloc := { w.alloc with inflightForward := none }
    srcs := []
    dsts := []
    vMoveds := []
    writeSet := some []
    latestEvent := none }

/-- Record the move of `src` into the hole `dst`. -/
def push (w : Walk) (src dst : ℤ) (dstRest : List ℤ) : Walk :=
  { w with
    srcs := w.srcs ++ [src]
    dsts := w.dsts ++ [dst]
    vMoveds := w.vMoveds ++ [w.alloc.physicalToVirtual src]
    dstRest := dstRest
    cursor := some (c.inward src) }

end Walk

/-- The survivor walk. Each round takes a destination, except the single
round that waits for a racing forward. -/
def walkLoop (c : Config) (q : FlushQueries) (urgent : Bool) :
    ℕ → Walk → Except AllocError Walk
  | 0, w => .ok w
  | fuel + 1, w =>
    match w.dstRest with
    | [] => .ok w
    | dst :: dstRest =>
      let found := topmostSurvivor c w.alloc w.cursor w.holeRest
      let w := { w with holeRest := found.2 }
      match found.1 with
      | none => .ok w
      | some src =>
        let w := w.resolveWriteSet c q
        if src ∈ w.writeSet.getD [] then
          if urgent then walkLoop c q urgent fuel (w.commitAndWait c q)
          else .ok w
        else if c.beyond dst src then .ok w
        else if w.alloc.physicalToVirtual src < 0 then
          .error .survivorUnbound
        else
          let w := w.push c src dst dstRest
          if ¬ urgent ∧ (w.srcs.length : ℤ) ≥ c.lazyMaxMovesPerCall then
            .ok w
          else walkLoop c q urgent fuel w

/-- The allocator after a flush, the copies it issued, the number of moves. -/
structure FlushResult where
  alloc : Allocator
  moves : List KvMove
  nMoves : ℕ

/-- The free list before the walk: drained, sorted, boundary absorbed. -/
def flushPrepare (urgent : Bool) (q : FlushQueries) : Allocator :=
  let a := drainPendingReuse c a urgent q.drain
  let a :=
    if ¬ c.sortFreeListAfterMerge ∧ a.freePhysPages.length > 1 then
      { a with freePhysPages := sortPages a.freePhysPages }
    else a
  absorbBoundaryHoles c a

/-- The walk's locals at its start. -/
def walkStart (singlePassAbsorb : Bool) : Walk where
  alloc := if singlePassAbsorb then settleInflightForward a else a
  srcs := []
  dsts := []
  vMoveds := []
  dstRest := c.holesFromDeep a.freePhysPages
  cursor := none
  holeRest := c.holesFromWatermark a.freePhysPages
  writeSet := if singlePassAbsorb then some [] else none
  latestEvent := if singlePassAbsorb then none else a.latestForwardDoneEvent
  releasedFired := []
  moves := []
  nMoves := 0

/-- Exit of an urgent pass: retreat past all holes and empty the free list. -/
def reclaimAll (newWm : ℤ) (nHoles : ℕ) : Allocator :=
  { a with
    watermarkPhysical := c.retreat newWm nHoles
    freePhysPages := [] }

/-- Exit of a partial pass: slice the consumed destinations off the free list
and merge the released sources. -/
def mergeReleased (nDst : ℕ) (released : List ℤ) : Allocator :=
  let rest := match c.growDirection with
    | .up => a.freePhysPages.drop nDst
    | .down => a.freePhysPages.take (a.freePhysPages.length - nDst)
  { a with
    freePhysPages := if released = [] then rest else c.mergeFree rest released }

def flush (urgent : Bool) (q : FlushQueries) : Except AllocError FlushResult :=
  if ¬ c.lazyCompaction then .ok ⟨a, [], 0⟩
  else
    let a := flushPrepare c a urgent q
    let holes := a.freePhysPages
    let singlePassAbsorb := urgent && !holes.isEmpty
    match walkLoop c q urgent (holes.length + 2) (walkStart c a singlePassAbsorb) with
    | .error e => .error e
    | .ok w =>
      let w := w.commit c q
      let out :=
        if singlePassAbsorb then
          reclaimAll c w.alloc a.watermarkPhysical holes.length
        else
          mergeReleased c w.alloc (holes.length - w.dstRest.length) w.releasedFired
      .ok ⟨out, w.moves, w.nMoves⟩

def setLatestForwardDoneEvent (event : Option Event) : Allocator :=
  { a with latestForwardDoneEvent := event }

def setInflightForward (forwardDone : Event) (outCacheLocVirtual : List ℤ) : Allocator :=
  if ¬ c.lazyCompaction then a
  else if outCacheLocVirtual = [] then { a with inflightForward := none }
  else { a with inflightForward := some (forwardDone, outCacheLocVirtual) }

/-! ## Allocation -/

/-- Outcome of an `alloc*` call: this side, the peer it may have flushed with
the copies of that flush, and the returned ids (`none` on shortfall). -/
structure AllocResult where
  alloc : Allocator
  peer : Option Allocator
  peerMoves : List KvMove
  ids : Option (List ℤ)

/-- One urgent peer flush; the last component says whether this side now has
enough room. No event answer matters to an urgent flush. -/
def flushPeerForAlloc (needTokens : ℤ) (q : FlushQueries) :
    Except AllocError (Peer × List KvMove × Bool) :=
  match c.lazyCompaction, peer with
  | true, some (cp, p) =>
    match flush cp p true q with
    | .error e => .error e
    | .ok r =>
      let peer : Peer := some (cp, r.alloc)
      .ok (peer, r.moves, decide (needTokens ≤ availableSize c a peer))
  | _, _ => .ok (peer, [], false)

/-- The capacity gate shared by `alloc`, `alloc_extend` and `alloc_decode`. -/
def capacityGate (needTokens : ℤ) (q : FlushQueries) :
    Except AllocError (Peer × List KvMove × Bool) :=
  if needTokens > availableSize c a peer then
    flushPeerForAlloc c a peer needTokens q
  else .ok (peer, [], true)

/-- Bind the first `n` free virtual ids and consume them; on failure the ids
stay on the free list. -/
def consumeVirtual (n : ℕ) : Option Allocator :=
  let vPages := a.freeVirtualIds.take n
  match allocBindFastOrSlow c a peer vPages n with
  | none => none
  | some a' => some { a' with freeVirtualIds := a.freeVirtualIds.drop n }

def alloc (needSize : ℕ) (q : FlushQueries) : Except AllocError AllocResult :=
  if ¬ c.isIdOwner then .error .notIdOwner
  else if needSize = 0 then .ok ⟨a, peer.map Prod.snd, [], some []⟩
  else if needSize % c.pageSize ≠ 0 then .error .notPageMultiple
  else
    match capacityGate c a peer needSize q with
    | .error e => .error e
    | .ok (peer, moves, false) => .ok ⟨a, peer.map Prod.snd, moves, none⟩
    | .ok (peer, moves, true) =>
      let n := needSize / c.pageSize
      match consumeVirtual c a peer n with
      | none => .ok ⟨a, peer.map Prod.snd, moves, none⟩
      | some a' =>
        .ok ⟨a', peer.map Prod.snd, moves, some (expandPages c.pageSize (a.freeVirtualIds.take n))⟩

/-- Take physical pages for virtual pages minted by the peer. -/
def allocWithVirtual (virtualPages : List ℤ) : Except AllocError Allocator :=
  if virtualPages = [] then .ok a
  else
    match allocBindFastOrSlow c a peer virtualPages virtualPages.length with
    | none => .error .outOfPhysicalRoom
    | some a' => .ok a'

/-- The common part of `alloc_extend` and `alloc_decode`: `n` new pages, the
batch bound of the `need_sort` branch, and the ids the kernel returns. The
base class leaves `release_pages` unset, so the merge of that branch raises. -/
def allocPaged (n sortBound : ℕ)
    (outIndices : List ℤ) (q : FlushQueries) : Except AllocError AllocResult :=
  if ¬ c.isIdOwner then .error .notIdOwner
  else if n > a.freeVirtualIds.length then
    .ok ⟨a, peer.map Prod.snd, [], none⟩
  else
    match capacityGate c a peer ((n : ℤ) * c.pageSize) q with
    | .error e => .error e
    | .ok (peer, moves, false) => .ok ⟨a, peer.map Prod.snd, moves, none⟩
    | .ok (peer, moves, true) =>
      if c.needSort ∧ sortBound > a.freeVirtualIds.length then
        .error .noReleasePages
      else
        match consumeVirtual c a peer n with
        | none => .ok ⟨a, peer.map Prod.snd, moves, none⟩
        | some a' => .ok ⟨a', peer.map Prod.snd, moves, some outIndices⟩

/-- Tokens an extend batch asks for. -/
def extendNumTokens (reqs : List ExtendReq) : ℕ := (reqs.map fun r => r.seqLen - r.prefixLen).sum

def allocExtend (reqs : List ExtendReq) (q : FlushQueries) : Except AllocError AllocResult :=
  allocPaged c a peer (getNumNewPages c.pageSize reqs)
    (extendNumTokens reqs / c.pageSize + reqs.length + 1)
    (allocExtendKernel c.pageSize reqs a.freeVirtualIds) q

def allocDecode (reqs : List DecodeReq) (q : FlushQueries) : Except AllocError AllocResult :=
  allocPaged c a peer (getNumNewPagesDecode c.pageSize reqs) reqs.length
    (allocDecodeKernel c.pageSize reqs a.freeVirtualIds) q

/-! ## Free -/

/-- Append freed virtual pages to the free ids of an id owner. -/
def recycleVirtual (vPages : List ℤ) : List ℤ :=
  if c.isIdOwner then a.freeVirtualIds ++ vPages else a.freeVirtualIds

/-- The lazy path: scatters and one `cat`; no duplicate removal at page size
one. -/
def freeLazy (freeIndex : List ℤ) : Allocator :=
  let freeVPages := if c.pageSize = 1 then freeIndex else uniquePages c.pageSize freeIndex
  let freedPPages := freeVPages.map a.virtualToPhysical
  { a with
    virtualToPhysical := fill a.virtualToPhysical freeVPages (-1)
    physicalToVirtual := fill a.physicalToVirtual freedPPages (-1)
    freeVirtualIds := recycleVirtual c a freeVPages
    freePhysPages := c.mergeFree a.freePhysPages freedPPages
    livePageCount := a.livePageCount - freedPPages.length }

/-- The vacated band next to the old watermark, as `[lo, hi)`. -/
def vacatedBand (wm : ℤ) (k : ℕ) : ℤ × ℤ :=
  match c.growDirection with
  | .up => (wm - k, wm)
  | .down => (wm + 1, wm + k + 1)

/-- Freed pages all lie in the allocated band. -/
def freedInBand (wm : ℤ) (freed : List ℤ) : Bool :=
  match c.growDirection with
  | .up => freed.all fun h => (c.minPageIndex : ℤ) ≤ h && h < wm
  | .down => freed.all fun h => wm < h && h < (c.numPages : ℤ)

/-- The retreated watermark stays in the index space. -/
def watermarkInSpace (newWm : ℤ) : Bool :=
  match c.growDirection with
  | .up => (c.minPageIndex : ℤ) ≤ newWm
  | .down => newWm ≤ (c.numPages : ℤ) - 1

/-- Eager compaction: the survivors of the vacated band move into the holes of
the kept band. -/
def compactPending (freedPages : List ℤ) : Except AllocError (Allocator × List KvMove) :=
  let freed := freedPages.dedup
  if freed = [] then .ok (a, [])
  else
    let newWm := c.retreat a.watermarkPhysical freed.length
    let vacated := vacatedBand c a.watermarkPhysical freed.length
    if ¬ watermarkInSpace c newWm then .error .watermarkPastMinimum
    else if ¬ freedInBand c a.watermarkPhysical freed then
      .error .freedOutsideBand
    else
      let vacatedPages := pageRange vacated.1 vacated.2
      let srcs := vacatedPages.filter fun s => s ∉ freed
      let dsts := sortPages (freed.filter fun h => c.beyond newWm h)
      if srcs.length ≠ dsts.length then .error .survivorHoleMismatch
      else
        let vMoved := srcs.map a.physicalToVirtual
        let cleared := fill a.physicalToVirtual vacatedPages (-1)
        if srcs = [] then
          .ok ({ a with
            watermarkPhysical := newWm, physicalToVirtual := cleared }, [])
        else
          .ok ({ a with
              watermarkPhysical := newWm
              virtualToPhysical := scatter a.virtualToPhysical vMoved dsts
              physicalToVirtual := scatter cleared dsts vMoved },
            [⟨expandPages c.pageSize dsts, expandPages c.pageSize srcs⟩])

def free (freeIndex : List ℤ) : Except AllocError (Allocator × List KvMove) :=
  if freeIndex = [] then .ok (a, [])
  else if c.lazyCompaction then .ok (freeLazy c a freeIndex, [])
  else
    let freeVPages := uniquePages c.pageSize freeIndex
    let freedPPages := freeVPages.map a.virtualToPhysical
    if freedPPages.any fun p => p < 0 then .error .staleSlot
    else
      compactPending c
        { a with
          virtualToPhysical := fill a.virtualToPhysical freeVPages (-1)
          freeVirtualIds := recycleVirtual c a freeVPages }
        freedPPages

end Sglang.MultiEnded
