import Sglang.Radix.PrefixMap
import Sglang.Radix.Stock

/-!
# Requests in front of the cache

A request matches a prefix and locks it, gets fresh slots into its row of
`req_to_token`, hands full pages over to the cache while it runs and the rest when it
finishes. Any number of requests interleave.
-/

namespace Sglang.Radix

open Sglang.PagedAlloc RadixKey

variable {Digest : Type}

/-- A request; `row` is the allocated part of its row of `req_to_token`. -/
structure Req where
  tokens : List ℤ
  extraKey : Option String
  sessionId : Option String
  row : List ℤ
  cacheProtectedLen : ℕ
  lastNode : NodeId
  deriving Inhabited

inductive ServeError where
  | cache (e : RadixError)
  | outOfMemory
  | matchMismatch
  deriving DecidableEq, Repr

/-- The cache with the requests that are running, by `req_pool_idx`. -/
structure Serving (Digest : Type) where
  cache : RadixCache Digest KVAllocator
  live : Finset ℕ
  req : ℕ → Req

/-- The key of the first `n` tokens, as the cache calls build it. -/
def Req.radixKey (C : CacheConfig Digest) (r : Req) (n : ℕ) : RadixKey :=
  RadixKey.pageAligned
    { tokenIds := r.tokens.take n, extraKey := r.extraKey, isBigram := C.isEagle }
    C.pool.pageSize

/-- `kv_indices[start:stop]` -/
def pySlice (l : List ℤ) (start stop : ℕ) : List ℤ := (l.drop start).take (stop - start)

/-- `token_to_kv_pool_allocator.free` -/
def RadixCache.freeIndices (C : CacheConfig Digest) (T : RadixCache Digest KVAllocator)
    (l : List ℤ) : RadixCache Digest KVAllocator :=
  { T with allocator := T.allocator.free C.pool l }

namespace Serving

variable (C : CacheConfig Digest) (w : Serving Digest)

/-- `match_prefix` and `inc_lock_ref` on admission. -/
def arrive (i : ℕ) (tokens : List ℤ) (extraKey sessionId : Option String) (maxPrefixLen : ℕ) :
    Except RadixError (Serving Digest) := do
  let (indices, node, T) ←
    w.cache.matchPrefix C.params { tokenIds := tokens.take maxPrefixLen, extraKey }
  let T ← T.incLockRef node
  .ok { cache := T
        live := insert i w.live
        req := Function.update w.req i
          { tokens, extraKey, sessionId, row := indices
            cacheProtectedLen := indices.length, lastNode := node } }

/-- Output tokens. -/
def appendTokens (i : ℕ) (tokens : List ℤ) : Serving Digest :=
  { w with req := Function.update w.req i { w.req i with tokens := (w.req i).tokens ++ tokens } }

/-- `write_cache_indices`: every request of the batch gets its slice of the new slots. -/
def writeCacheIndices : List (ℕ × ℕ) → List ℤ → (ℕ → Req) → (ℕ → Req)
  | [], _, req => req
  | (i, n) :: rest, outCacheLoc, req =>
    writeCacheIndices rest (outCacheLoc.drop n)
      (Function.update req i { req i with row := (req i).row ++ outCacheLoc.take n })

def extendReq (b : ℕ × ℕ) : ExtendReq where
  prefixLen := (w.req b.1).row.length
  seqLen := (w.req b.1).row.length + b.2
  lastLoc := (w.req b.1).row.getLastD (-1)
  prefix_le := Nat.le_add_right _ _

def decodeReq (i : ℕ) : DecodeReq where
  seqLen := (w.req i).row.length + 1
  lastLoc := (w.req i).row.getLastD (-1)
  seqLen_pos := Nat.le_add_left _ _

/-- Fresh slots, if the allocator had enough. -/
def grant (batch : List (ℕ × ℕ)) (out : Option (List ℤ) × KVAllocator) :
    Except ServeError (Serving Digest) :=
  match out.1 with
  | none => .error .outOfMemory
  | some outCacheLoc =>
    .ok { w with
      cache := { w.cache with allocator := out.2 }
      req := writeCacheIndices batch outCacheLoc w.req }

/-- `alloc_for_extend`; a batch lists requests with the number of their new tokens. -/
def allocForExtend (batch : List (ℕ × ℕ)) : Except ServeError (Serving Digest) :=
  if C.pool.pageSize = 1 then
    w.grant batch (w.cache.allocator.alloc C.pool (batch.map Prod.snd).sum)
  else w.grant batch (w.cache.allocator.allocExtend C.pool (batch.map w.extendReq))

/-- `alloc_for_decode` with one token per request. -/
def allocForDecode (batch : List ℕ) : Except ServeError (Serving Digest) :=
  if C.pool.pageSize = 1 then
    w.grant (batch.map (·, 1)) (w.cache.allocator.alloc C.pool batch.length)
  else w.grant (batch.map (·, 1)) (w.cache.allocator.allocDecode C.pool (batch.map w.decodeReq))

/-- The insertion of `cache_finished_req`, or the free that replaces it. -/
def handOver (r : Req) (isInsert : Bool) (kvIndices : List ℤ) (radixKey : RadixKey) :
    Except RadixError (RadixCache Digest KVAllocator × Option NodeId) :=
  if isInsert then do
    let (prefixLen, last, T) ← w.cache.insert C.params radixKey (some (kvIndices.take radixKey.len))
    .ok (T.freeIndices C (pySlice kvIndices r.cacheProtectedLen prefixLen), some last)
  else .ok (w.cache.freeIndices C (pySlice kvIndices r.cacheProtectedLen radixKey.len), none)

/-- The cache that `cache_finished_req` leaves when `n` slots of the row are committed. -/
def cacheCommitted (i n : ℕ) (isInsert : Bool) :
    Except RadixError (RadixCache Digest KVAllocator) := do
  let r := w.req i
  let isInsert := if C.disableFinishedInsert then false else isInsert
  let tokenIds := r.tokens.take n
  let kvIndices := r.row.take tokenIds.length
  let radixKey := r.radixKey C n
  let (T, sessionLeaf) ← w.handOver C r isInsert kvIndices radixKey
  let T := T.freeIndices C (kvIndices.drop radixKey.len)
  let T ← T.tagSessionLeaf C.params r.sessionId radixKey sessionLeaf
  T.decLockRef r.lastNode

/-- `cache_finished_req`; the whole row is committed. -/
def cacheFinishedReq (i : ℕ) (isInsert : Bool) : Except RadixError (Serving Digest) := do
  let T ← w.cacheCommitted C i (w.req i).row.length isInsert
  .ok { w with cache := T, live := w.live.erase i }

/-- `cache_unfinished_req` with the first `fillLen` tokens filled. -/
def cacheUnfinishedReq (i fillLen : ℕ) : Except ServeError (Serving Digest) := do
  let r := w.req i
  let kvIndices := r.row.take (r.tokens.take fillLen).length
  let radixKey := r.radixKey C fillLen
  let values := kvIndices.take radixKey.len
  let (newPrefixLen, _, T) ←
    (w.cache.insert C.params radixKey (some values)).mapError ServeError.cache
  let T := T.freeIndices C (pySlice kvIndices r.cacheProtectedLen newPrefixLen)
  let (newIndices, newLastNode, T) ← (T.matchPrefix C.params radixKey).mapError ServeError.cache
  if newIndices.length ≠ radixKey.len then .error .matchMismatch
  else do
    let row := r.row.take r.cacheProtectedLen ++ newIndices.drop r.cacheProtectedLen ++
      r.row.drop newIndices.length
    let T ← (T.decLockRef r.lastNode).mapError ServeError.cache
    let T ← (T.incLockRef newLastNode).mapError ServeError.cache
    let T ← (T.tagSessionLeaf C.params r.sessionId radixKey (some newLastNode)).mapError
      ServeError.cache
    .ok { w with
      cache := T
      req := Function.update w.req i
        { r with row, cacheProtectedLen := newIndices.length, lastNode := newLastNode } }

end Serving

/-! ## Runs -/

inductive ServeOp where
  | arrive (i : ℕ) (tokens : List ℤ) (extraKey sessionId : Option String) (maxPrefixLen : ℕ)
  | appendTokens (i : ℕ) (tokens : List ℤ)
  | allocForExtend (batch : List (ℕ × ℕ))
  | allocForDecode (batch : List ℕ)
  | cacheUnfinishedReq (i fillLen : ℕ)
  | cacheFinishedReq (i : ℕ) (isInsert : Bool)
  | evict (pick : ℕ → Finset NodeId → NodeId) (numTokens : ℕ)

namespace ServeOp

variable (C : CacheConfig Digest) (w : Serving Digest)

def run : ServeOp → Except ServeError (Serving Digest)
  | arrive i tokens extraKey sessionId maxPrefixLen =>
    (w.arrive C i tokens extraKey sessionId maxPrefixLen).mapError .cache
  | appendTokens i tokens => .ok (w.appendTokens i tokens)
  | allocForExtend batch => w.allocForExtend C batch
  | allocForDecode batch => w.allocForDecode C batch
  | cacheUnfinishedReq i fillLen => w.cacheUnfinishedReq C i fillLen
  | cacheFinishedReq i isInsert => (w.cacheFinishedReq C i isInsert).mapError .cache
  | evict pick numTokens =>
    (fun r => { w with cache := r.2 }) <$> (w.cache.evict C.params pick numTokens).mapError .cache

/-- The units of `n` tokens. -/
def unitsOf (n : ℕ) : ℕ := if C.isEagle then n - 1 else n

/-- What the scheduler keeps to: slots are allocated for tokens that exist, in batches without
repetition, and the tokens passed to the cache cover the protected prefix. -/
def Legal : ServeOp → Prop
  | arrive i _ _ _ _ => i ∉ w.live
  | appendTokens i _ => i ∈ w.live
  | allocForExtend batch => (batch.map Prod.fst).Nodup ∧ ∀ b ∈ batch, b.1 ∈ w.live ∧
      (w.req b.1).row.length + b.2 ≤ (w.req b.1).tokens.length
  | allocForDecode batch => batch.Nodup ∧ ∀ i ∈ batch, i ∈ w.live ∧ (w.req i).row ≠ [] ∧
      (w.req i).row.length + 1 ≤ (w.req i).tokens.length
  | cacheUnfinishedReq i fillLen => i ∈ w.live ∧ fillLen ≤ (w.req i).row.length ∧
      (w.req i).cacheProtectedLen ≤ unitsOf C fillLen
  | cacheFinishedReq i _ => i ∈ w.live ∧
      (w.req i).cacheProtectedLen ≤ unitsOf C (w.req i).row.length
  | evict pick _ => Picks pick

end ServeOp

/-- A cleared pool in front of an empty cache. -/
def Serving.init (C : CacheConfig Digest) (T : RadixCache Digest KVAllocator) : Serving Digest where
  cache := { T.reset C.params with allocator := KVAllocator.clear C.pool }
  live := ∅
  req := fun _ => default

inductive ServeRun (C : CacheConfig Digest) : Serving Digest → Prop
  | start (T : RadixCache Digest KVAllocator) : ServeRun C (Serving.init C T)
  | step {w w' : Serving Digest} {op : ServeOp} (hrun : ServeRun C w) (hop : op.Legal C w)
      (hok : op.run C w = .ok w') : ServeRun C w'

end Sglang.Radix
