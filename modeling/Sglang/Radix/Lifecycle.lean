import Sglang.Radix.NoLeak

/-!
# The life of a request

A request is prefilled, decodes, may be retracted and prefilled again together with its
output, and is released in the end. `kv_allocated_len` is the length of the row; with
speculative decoding it runs ahead of `kv_committed_len`.
-/

namespace Sglang.Radix

open Sglang.Support Sglang.PagedAlloc RadixKey Function

variable {Digest : Type}

/-- The server arguments that `release_kv_cache` reads. -/
structure LifeConfig (Digest : Type) extends CacheConfig Digest where
  /-- `speculative_algorithm is not None` -/
  speculative : Bool
  stripThinkingCache : Bool

/-- The requests with the counters of their lives. -/
structure Lives (Digest : Type) extends Serving Digest where
  /-- `len(origin_input_ids)` -/
  promptLen : ℕ → ℕ
  reasoningTokens : ℕ → ℕ
  kvCommittedLen : ℕ → ℕ

inductive LifeError where
  | serve (e : ServeError)
  | unexpectedOverallocated
  deriving DecidableEq, Repr

def ceilDiv (x y : ℕ) : ℕ := (x + y - 1) / y

def ceilAlign (x y : ℕ) : ℕ := ceilDiv x y * y

namespace Lives

variable (L : LifeConfig Digest) (W : Lives Digest)

/-- `_cache_commit_len` -/
def cacheCommitLen (i : ℕ) : ℕ :=
  if L.stripThinkingCache ∧ 0 < W.reasoningTokens i then
    min (W.kvCommittedLen i) (W.promptLen i)
  else W.kvCommittedLen i

/-- The free of `pop_overallocated_kv_cache` in `release_kv_cache`. -/
def freeOverallocated (T : RadixCache Digest KVAllocator) (i : ℕ) :
    RadixCache Digest KVAllocator :=
  let startP := W.cacheCommitLen L i
  let endP := (W.req i).row.length
  let startP := if 1 < L.pool.pageSize then ceilAlign startP L.pool.pageSize else startP
  if startP < endP then T.freeIndices L.toCacheConfig (pySlice (W.req i).row startP endP) else T

/-- `release_kv_cache` of a request with a row. -/
def releaseKvCache (i : ℕ) (isInsert : Bool) : Except LifeError (Lives Digest) := do
  let T ← (W.cacheCommitted L.toCacheConfig i (W.cacheCommitLen L i) isInsert).mapError
    fun e => .serve (.cache e)
  if !L.speculative && !L.stripThinkingCache &&
      W.cacheCommitLen L i ≠ (W.req i).row.length then
    .error .unexpectedOverallocated
  else .ok { W with cache := W.freeOverallocated L T i, live := W.live.erase i }

/-- `reset_for_retract` -/
def resetForRetract (i : ℕ) : Lives Digest :=
  { W with
    req := update W.req i { W.req i with row := [], cacheProtectedLen := 0 }
    kvCommittedLen := update W.kvCommittedLen i 0 }

/-- The committed lengths after a batch was prepared, by the new ones. -/
def commitBatch (batch : List ℕ) (committed : ℕ → ℕ) (i : ℕ) : ℕ :=
  if i ∈ batch then committed i else W.kvCommittedLen i

end Lives

/-! ## Runs -/

inductive LifeOp where
  /-- A new request matches its prompt. -/
  | arrive (i : ℕ) (prompt : List ℤ) (extraKey sessionId : Option String) (maxPrefixLen : ℕ)
  /-- A retracted request matches its prompt and output. -/
  | rematch (i maxPrefixLen : ℕ)
  | prefill (batch : List (ℕ × ℕ))
  | decode (batch : List ℕ)
  /-- Slots for draft tokens. -/
  | overallocate (batch : List (ℕ × ℕ))
  /-- Accepted draft tokens. -/
  | accept (i n : ℕ)
  /-- Output tokens, of which `reasoning` are counted as such. -/
  | output (i : ℕ) (tokens : List ℤ) (reasoning : ℕ)
  | cacheUnfinishedReq (i : ℕ)
  | retract (i : ℕ)
  | finish (i : ℕ) (isInsert : Bool)
  | evict (pick : ℕ → Finset NodeId → NodeId) (numTokens : ℕ)

namespace LifeOp

variable (L : LifeConfig Digest) (W : Lives Digest)

def run : LifeOp → Except LifeError (Lives Digest)
  | arrive i prompt extraKey sessionId maxPrefixLen => do
      let w ← (W.arrive L.toCacheConfig i prompt extraKey sessionId maxPrefixLen).mapError
        fun e => .serve (.cache e)
      .ok { toServing := w
            promptLen := update W.promptLen i prompt.length
            reasoningTokens := update W.reasoningTokens i 0
            kvCommittedLen := update W.kvCommittedLen i 0 }
  | rematch i maxPrefixLen => do
      let r := W.req i
      let w ← (W.arrive L.toCacheConfig i r.tokens r.extraKey r.sessionId maxPrefixLen).mapError
        fun e => .serve (.cache e)
      .ok { W with toServing := w, kvCommittedLen := update W.kvCommittedLen i 0 }
  | prefill batch => do
      let w ← (W.allocForExtend L.toCacheConfig batch).mapError .serve
      .ok { W with
        toServing := w
        kvCommittedLen := W.commitBatch (batch.map Prod.fst) fun i => (w.req i).row.length }
  | decode batch => do
      let w ← (W.allocForDecode L.toCacheConfig batch).mapError .serve
      .ok { W with
        toServing := w
        kvCommittedLen := W.commitBatch batch fun i => W.kvCommittedLen i + 1 }
  | overallocate batch => do
      let w ← (W.allocForExtend L.toCacheConfig batch).mapError .serve
      .ok { W with toServing := w }
  | accept i n => .ok { W with
      kvCommittedLen := update W.kvCommittedLen i (W.kvCommittedLen i + n) }
  | output i tokens reasoning => .ok { W with
      toServing := W.appendTokens i tokens
      reasoningTokens := update W.reasoningTokens i (W.reasoningTokens i + reasoning) }
  | cacheUnfinishedReq i => do
      let w ← (W.toServing.cacheUnfinishedReq L.toCacheConfig i (W.kvCommittedLen i)).mapError
        .serve
      .ok { W with toServing := w }
  | retract i => do
      let W' ← W.releaseKvCache L i false
      .ok (W'.resetForRetract i)
  | finish i isInsert => W.releaseKvCache L i isInsert
  | evict pick numTokens => do
      let r ← (W.cache.evict L.params pick numTokens).mapError fun e => .serve (.cache e)
      .ok { W with cache := r.2 }

/-- A request with a row whose computed tokens are known. -/
def Settled (i : ℕ) : Prop :=
  i ∈ W.live ∧ 0 < W.kvCommittedLen i ∧ W.kvCommittedLen i ≤ (W.req i).tokens.length

/-- What the scheduler keeps to. -/
def Legal : LifeOp → Prop
  | arrive i _ _ _ _ => i ∉ W.live
  | rematch i _ => i ∉ W.live
  | prefill batch => (batch.map Prod.fst).Nodup ∧ ∀ b ∈ batch, b.1 ∈ W.live ∧ 0 < b.2
  | decode batch => L.speculative = false ∧ batch.Nodup ∧
      ∀ i ∈ batch, i ∈ W.live ∧ 0 < W.kvCommittedLen i
  | overallocate batch => L.speculative = true ∧ (batch.map Prod.fst).Nodup ∧
      ∀ b ∈ batch, b.1 ∈ W.live ∧ 0 < W.kvCommittedLen b.1
  | accept i n => L.speculative = true ∧ i ∈ W.live ∧ 0 < W.kvCommittedLen i ∧
      W.kvCommittedLen i + n ≤ (W.req i).row.length
  | output i _ _ => i ∈ W.live
  | cacheUnfinishedReq i => Settled W i
  | retract i => Settled W i
  | finish i _ => Settled W i
  | evict pick _ => Picks pick

/-- The part a release hands over covers what the request has locked. -/
def Covers (i : ℕ) : Prop :=
  L.stripThinkingCache = true → 0 < W.reasoningTokens i →
    (W.req i).cacheProtectedLen ≤ ServeOp.unitsOf L.toCacheConfig (W.promptLen i)

def Covered : LifeOp → Prop
  | retract i => Covers L W i
  | finish i _ => Covers L W i
  | _ => True

end LifeOp

/-- A cleared pool, an empty cache and no request. -/
def Lives.init (L : LifeConfig Digest) (T : RadixCache Digest KVAllocator) : Lives Digest where
  toServing := Serving.init L.toCacheConfig T
  promptLen := fun _ => 0
  reasoningTokens := fun _ => 0
  kvCommittedLen := fun _ => 0

/-- Runs in which every release covers the locked prefix. -/
inductive LifeRun (L : LifeConfig Digest) : Lives Digest → Prop
  | start (T : RadixCache Digest KVAllocator) : LifeRun L (Lives.init L T)
  | step {W W' : Lives Digest} {op : LifeOp} (hrun : LifeRun L W) (hop : op.Legal L W)
      (hcov : op.Covered L W) (hok : op.run L W = .ok W') : LifeRun L W'

/-- What a release owes: the pages of the row that no node holds are freed, each once, and
nothing else is; the row is gone, and the pool is divided again. -/
structure CleanRelease (C : CacheConfig Digest) (w w' : Serving Digest) (i : ℕ) : Prop where
  gone : w'.live = w.live.erase i
  others : ∀ j ∈ w'.live, w'.req j = w.req j
  freed : ∃ F : List ℤ, F.Nodup ∧
    (w'.cache.allocator.freePages ++ w'.cache.allocator.releasePages).Perm
      (w.cache.allocator.freePages ++ w.cache.allocator.releasePages ++ F) ∧
    ∀ q, q ∈ F ↔ (∃ s ∈ (w.req i).row, s / (C.pool.pageSize : ℤ) = q) ∧ ∀ n, ¬ w'.Owns C q (.node n)
  division : NoLeak C w'

end Sglang.Radix
