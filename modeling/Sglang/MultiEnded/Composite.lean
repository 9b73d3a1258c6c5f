import Sglang.MultiEnded.Conservation

/-!
# The two composite allocators

`UnifiedMambaTokenToKVPoolAllocator` and `UnifiedSWATokenToKVPoolAllocator` peer
two allocators at the two ends of one buffer. In the Mamba pair both sides own
their ids and allocate on their own. In the SWA pair the full side mints the
virtual ids and the swa side binds the same ids. `peered` is a bare pair of id
owners joined by `bind_peer`, over any two sub-pools. Copies are logged with
the side whose pool they address, in the order in which they are issued.
-/

namespace Sglang.MultiEnded

open Sglang.Support Sglang.PagedAlloc Sglang.UnifiedPool

inductive CompositeKind where
  | peered
  | mamba
  | swa
  deriving DecidableEq, Repr

/-- The sub-pools of the full and of the other side. -/
def CompositeKind.Admits : CompositeKind → SubPoolSpec → SubPoolSpec → Prop
  | .peered, _, _ => True
  | .mamba, .mha _, .mamba _ => True
  | .swa, .mha _, .mha _ => True
  | _, _, _ => False

theorem CompositeKind.Admits.mamba_other {f o : SubPoolSpec}
    (h : CompositeKind.mamba.Admits f o) : ∃ m, o = .mamba m := by
  cases f with
  | mha => cases o with
      | mha => exact h.elim
      | mamba m => exact ⟨m, rfl⟩
  | mamba => exact h.elim

/-- `other` is the Mamba or the swa allocator. -/
inductive Side where
  | full
  | other
  deriving DecidableEq, Repr

def Side.peer : Side → Side
  | .full => .other
  | .other => .full

/-- A constructed composite. `ids_full` and `ids_other` are the `torch.arange`
of the two sides; the one of a Mamba side never raises. -/
structure Composite where
  pool : UnifiedKVPool
  kind : CompositeKind
  fullDirection : GrowDirection
  needSort : Bool
  lazyCompaction : Bool
  sortFreeListAfterMerge : Bool
  lazyMaxMovesPerCall : ℤ
  specs : kind.Admits (pool.spec fullDirection) (pool.spec fullDirection.flip)
  ids_full : pool.minPageIndex fullDirection ≤ pool.numPages fullDirection
  ids_other : kind = .peered →
    pool.minPageIndex fullDirection.flip ≤ pool.numPages fullDirection.flip

namespace Composite

variable (C : Composite)

def direction : Side → GrowDirection
  | .full => C.fullDirection
  | .other => C.fullDirection.flip

def isIdOwner : Side → Bool
  | .full => true
  | .other => C.kind ≠ .swa

theorem ids_range (s : Side) (h : C.isIdOwner s = true) :
    C.pool.minPageIndex (C.direction s) ≤ C.pool.numPages (C.direction s) := by
  cases s with
  | full => exact C.ids_full
  | other =>
    cases hkind : C.kind with
    | peered => exact C.ids_other hkind
    | swa => simp [isIdOwner, hkind] at h
    | mamba =>
      have hspec := C.specs
      rw [hkind] at hspec
      have hps : C.pool.allocPageSize C.fullDirection.flip = 1 := by
        obtain ⟨m, hm⟩ := hspec.mamba_other
        simp [UnifiedKVPool.allocPageSize, hm, SubPoolSpec.allocPageSize]
      have hlt := C.pool.minSlotIndex_lt_maxSlots C.fullDirection.flip
      simp only [direction, UnifiedKVPool.minPageIndex, UnifiedKVPool.numPages, hps, Nat.div_one]
      omega

/-- The configuration of one side. -/
def cfg (s : Side) : Config :=
  Config.ofPool C.pool (C.direction s) (C.isIdOwner s) C.needSort
    C.lazyCompaction C.sortFreeListAfterMerge C.lazyMaxMovesPerCall
    (C.ids_range s)

end Composite

/-- The states of the two sides. -/
abbrev Pair := Side → Allocator

def Composite.clear (C : Composite) : Pair := fun s => MultiEnded.clear (C.cfg s)

/-- The peer of a side, as that side sees it. -/
def Composite.peerOf (C : Composite) (P : Pair) (s : Side) : Peer := some (C.cfg s.peer, P s.peer)

/-- Outcome of an operation on a pair. -/
structure PairResult where
  state : Pair
  moves : List (Side × KvMove)
  ids : Option (List ℤ)

/-- Label the copies of one side. -/
def labelled (s : Side) (moves : List KvMove) : List (Side × KvMove) := moves.map fun m => (s, m)

section Operations

variable (C : Composite) (P : Pair)

/-- Store the outcome of an `alloc*` of one side. -/
def storeAlloc (s : Side) (r : Except AllocError AllocResult) :
    Except AllocError PairResult :=
  match r with
  | .error e => .error e
  | .ok r => .ok
      ⟨Function.update (Function.update P s.peer (r.peer.getD (P s.peer))) s
          r.alloc,
        labelled s.peer r.peerMoves, r.ids⟩

def pairFree (s : Side) (freeIndex : List ℤ) : Except AllocError PairResult :=
  match free (C.cfg s) (P s) freeIndex with
  | .error e => .error e
  | .ok (a, moves) => .ok ⟨Function.update P s a, labelled s moves, some []⟩

def pairFlush (s : Side) (urgent : Bool) (q : FlushQueries) :
    Except AllocError PairResult :=
  match flush (C.cfg s) (P s) urgent q with
  | .error e => .error e
  | .ok r => .ok ⟨Function.update P s r.alloc, labelled s r.moves, some []⟩

/-! ### The SWA composite -/

/-- The free byte band between the two pools, whichever side is below. -/
def jointGapBytes : ℤ :=
  match (C.cfg .full).growDirection with
  | .up => max 0 (byteLowFrontier (C.cfg .other) (P .other) -
      byteHighFrontier (C.cfg .full) (P .full))
  | .down => max 0 (byteLowFrontier (C.cfg .full) (P .full) -
      byteHighFrontier (C.cfg .other) (P .other))

/-- `UnifiedSWATokenToKVPoolAllocator.available_size`: the joint byte budget
with the three phases of the lazy formula. -/
def jointAvailableSize : ℤ :=
  let fa := P .full
  let sa := P .other
  let cf := C.cfg .full
  let cs := C.cfg .other
  let ef : ℤ := cf.entryBytesPerPage
  let es : ℤ := cs.entryBytesPerPage
  let gapBytes := jointGapBytes C P
  let rf := (cf.numPages : ℤ) - cf.minPageIndex - allocatedPages cf fa
  let rs := (cs.numPages : ℤ) - cs.minPageIndex - allocatedPages cs sa
  if ¬ C.lazyCompaction then
    min (min (gapBytes / (ef + es)) rf) rs * cf.pageSize
  else
    let hf : ℤ := fa.freePhysPages.length
    let hs : ℤ := sa.freePhysPages.length
    let k1 := min hf hs
    let ePhase2 := if hf ≤ hs then ef else es
    let kPhase2Max := if hf ≤ hs then hs else hf
    let k2Room := kPhase2Max - k1
    let k2 := min k2Room (gapBytes / ePhase2)
    let gapBytes := gapBytes - k2 * ePhase2
    let k3 := gapBytes / (ef + es)
    min (min (k1 + k2 + k3) (hf + rf)) (hs + rs) * cf.pageSize

/-- `_flush_both_for_alloc`, one urgent pass on each side. -/
def flushBoth (q : FlushQueries) :
    Except AllocError (Pair × List (Side × KvMove)) :=
  match pairFlush C P .full true q with
  | .error e => .error e
  | .ok r =>
    match pairFlush C r.state .other true q with
    | .error e => .error e
    | .ok r' => .ok (r'.state, r.moves ++ r'.moves)

/-- The joint gate: the state after a possible flush of both sides, and whether
the request now fits. -/
def jointGate (needTokens : ℤ) (q : FlushQueries) :
    Except AllocError (Pair × List (Side × KvMove) × Bool) :=
  if needTokens > jointAvailableSize C P then
    if ¬ C.lazyCompaction then .ok (P, [], false)
    else
      match flushBoth C P q with
      | .error e => .error e
      | .ok (P', moves) => .ok (P', moves, decide (needTokens ≤ jointAvailableSize C P'))
  else .ok (P, [], true)

/-- After the full side allocated, bind the same virtual pages on the swa
side. -/
def bindSwa (newVirtualPages : List ℤ) (moves : List (Side × KvMove))
    (r : Except AllocError PairResult) : Except AllocError PairResult :=
  match r with
  | .error e => .error e
  | .ok r =>
    match r.ids with
    | none => .error .jointInconsistency
    | some ids =>
      match allocWithVirtual (C.cfg .other) (r.state .other)
          (C.peerOf r.state .other) newVirtualPages with
      | .error e => .error e
      | .ok a => .ok ⟨Function.update r.state .other a, moves ++ r.moves, some ids⟩

/-- The joint allocation of `n` pages by `allocFull` on the full side. -/
def jointWith (n : ℕ) (needTokens : ℤ) (q : FlushQueries)
    (allocFull : Pair → Except AllocError AllocResult) :
    Except AllocError PairResult :=
  match jointGate C P needTokens q with
  | .error e => .error e
  | .ok (P, moves, false) => .ok ⟨P, moves, none⟩
  | .ok (P, moves, true) =>
    bindSwa C ((P .full).freeVirtualIds.take n) moves (storeAlloc P .full (allocFull P))

def jointAlloc (needSize : ℕ) (q : FlushQueries) :
    Except AllocError PairResult :=
  jointWith C P (needSize / (C.cfg .full).pageSize) needSize q fun P =>
    alloc (C.cfg .full) (P .full) (C.peerOf P .full) needSize q

def jointAllocExtend (reqs : List ExtendReq) (q : FlushQueries) :
    Except AllocError PairResult :=
  let n := getNumNewPages (C.cfg .full).pageSize reqs
  jointWith C P n ((n : ℤ) * (C.cfg .full).pageSize) q fun P =>
    allocExtend (C.cfg .full) (P .full) (C.peerOf P .full) reqs q

def jointAllocDecode (reqs : List DecodeReq) (q : FlushQueries) :
    Except AllocError PairResult :=
  let n := getNumNewPagesDecode (C.cfg .full).pageSize reqs
  jointWith C P n ((n : ℤ) * (C.cfg .full).pageSize) q fun P =>
    allocDecode (C.cfg .full) (P .full) (C.peerOf P .full) reqs q

/-- The tokens whose virtual page is still bound on the swa side. -/
def liveSwa (freeIndex : List ℤ) : List ℤ :=
  freeIndex.filter fun t => (P .other).virtualToPhysical (t / ((C.cfg .full).pageSize : ℤ)) > 0

/-- Release the swa pages and keep the virtual ids and the full pages. -/
def freeSwa (freeIndex : List ℤ) : Except AllocError PairResult :=
  pairFree C P .other (liveSwa C P freeIndex)

/-- `UnifiedSWATokenToKVPoolAllocator.free`: the swa side first. -/
def jointFree (freeIndex : List ℤ) : Except AllocError PairResult :=
  match freeSwa C P freeIndex with
  | .error e => .error e
  | .ok r =>
    match pairFree C r.state .full freeIndex with
    | .error e => .error e
    | .ok r' => .ok ⟨r'.state, r.moves ++ r'.moves, some []⟩

end Operations

/-- The operations on a pair. The first four address one side of a pair of id
owners, the next five belong to the SWA composite. -/
inductive PairOp where
  | alloc (s : Side) (needSize : ℕ) (q : FlushQueries)
  | allocExtend (s : Side) (reqs : List ExtendReq) (q : FlushQueries)
  | allocDecode (s : Side) (reqs : List DecodeReq) (q : FlushQueries)
  | free (s : Side) (freeIndex : List ℤ)
  | jointAlloc (needSize : ℕ) (q : FlushQueries)
  | jointAllocExtend (reqs : List ExtendReq) (q : FlushQueries)
  | jointAllocDecode (reqs : List DecodeReq) (q : FlushQueries)
  | jointFree (freeIndex : List ℤ)
  | freeSwa (freeIndex : List ℤ)
  | flush (s : Side) (urgent : Bool) (q : FlushQueries)

namespace PairOp

def step (C : Composite) (P : Pair) : PairOp → Except AllocError PairResult
  | alloc s n q => storeAlloc P s (MultiEnded.alloc (C.cfg s) (P s) (C.peerOf P s) n q)
  | allocExtend s reqs q => storeAlloc P s
      (MultiEnded.allocExtend (C.cfg s) (P s) (C.peerOf P s) reqs q)
  | allocDecode s reqs q => storeAlloc P s
      (MultiEnded.allocDecode (C.cfg s) (P s) (C.peerOf P s) reqs q)
  | free s ts => pairFree C P s ts
  | jointAlloc n q => MultiEnded.jointAlloc C P n q
  | jointAllocExtend reqs q => MultiEnded.jointAllocExtend C P reqs q
  | jointAllocDecode reqs q => MultiEnded.jointAllocDecode C P reqs q
  | jointFree ts => MultiEnded.jointFree C P ts
  | freeSwa ts => MultiEnded.freeSwa C P ts
  | flush s urgent q => pairFlush C P s urgent q

/-- Which operations each composite offers, with the contract of its callers:
freed ids are bound, and unique where nothing removes duplicates. -/
def Legal (C : Composite) (P : Pair) : PairOp → Prop
  | alloc _ _ _ | allocExtend _ _ _ | allocDecode _ _ _ => C.kind ≠ .swa
  | free s ts => C.kind ≠ .swa ∧ Freeable (C.cfg s) (P s) ts
  | jointAlloc _ _ | jointAllocExtend _ _ | jointAllocDecode _ _ => C.kind = .swa
  | jointFree ts => C.kind = .swa ∧ Freeable (C.cfg .full) (P .full) ts
  | freeSwa ts => C.kind = .swa ∧ (C.lazyCompaction = true → (C.cfg .other).pageSize = 1 → ts.Nodup)
  | flush _ _ _ => True

end PairOp

end Sglang.MultiEnded
