import Mathlib.Data.List.AList
import Mathlib.Data.Finset.Basic
import Mathlib.Logic.Function.Basic
import Sglang.Radix.Key
import Sglang.Support.Pages

/-!
# The radix cache

`RadixCache` of `radix_cache.py` with its mixins of `session_radix_cache.py`
and `events.py`, over a heap of tree nodes addressed by their `id`. Times, hit counts,
priorities and host-side fields are left out: they only decide
the order in which leaves are evicted, which is a parameter of `evict`.

The allocator is any state with a `free`, and page digests are any type with a
chaining hash.
-/

namespace Sglang.Radix

open Sglang.Support

abbrev NodeId := ℕ

/-- What a cache is created with. -/
structure RadixParams (Digest A : Type) where
  pageSize : ℕ
  pageSize_pos : 0 < pageSize
  isEagle : Bool
  enableKvCacheEvents : Bool
  enableSessionRadixCache : Bool
  disableFinishedInsert : Bool
  /-- `get_native_hash` on one page, chained by the prior digest. -/
  nativeHash : Option Digest → List Gram → Digest
  /-- The first sixteen hex digits of a digest, as a number. -/
  leadingBits : Digest → ℕ
  /-- `token_to_kv_pool_allocator.free` -/
  free : A → List ℤ → A

structure TreeNode (Digest : Type) where
  children : AList (fun _ : ChildKey => NodeId)
  parent : Option NodeId
  key : RadixKey
  value : Option (List ℤ)
  lockRef : ℤ
  hashValue : Option (List Digest)
  sessionIds : Finset String

inductive KVEvent where
  | blockStored (blockHashes : List ℤ) (parentBlockHash : Option ℤ) (tokenIds : List Gram)
      (blockSize : ℕ)
  | blockRemoved (blockHashes : List ℤ)
  | allBlocksCleared
  deriving DecidableEq, Repr

structure RadixCache (Digest A : Type) where
  node : NodeId → TreeNode Digest
  /-- `TreeNode.counter` -/
  counter : ℕ
  rootNode : NodeId
  evictableSize : ℤ
  protectedSize : ℤ
  evictableLeaves : Finset NodeId
  sessionLeaves : String → Finset NodeId
  closedSessionIds : List String
  kvEventQueue : List KVEvent
  allocator : A

namespace TreeNode

variable {Digest : Type} (n : TreeNode Digest)

def evicted : Bool := n.value.isNone

/-- The indices of a node that is not evicted. -/
def indices : List ℤ := n.value.getD []

end TreeNode

namespace RadixCache

variable {Digest A : Type} (P : RadixParams Digest A) (T : RadixCache Digest A) (n : NodeId)

def setNode (x : TreeNode Digest) : RadixCache Digest A :=
  { T with node := Function.update T.node n x }

/-! ## Events -/

def hashStrToInt64 (d : Digest) : ℤ :=
  if P.leadingBits d ≥ 2 ^ 63 then P.leadingBits d - 2 ^ 64 else P.leadingBits d

/-- `node.parent.hash_value[-1]`, where the parent has a key and hashes. -/
def parentHash (x : TreeNode Digest) : Option Digest :=
  match x.parent with
  | none => none
  | some p =>
    match (T.node p).hashValue with
    | none => none
    | some hashes => if (T.node p).key.len > 0 then hashes.getLast? else none

def computeNodeHashValues (x : TreeNode Digest) : List Digest :=
  chain P.nativeHash (T.parentHash x) (pages P.pageSize x.key.units)

def splitNodeHashValue (childHashValue : Option (List Digest)) (splitLen pageSize : ℕ) :
    Option (List Digest) × Option (List Digest) :=
  match childHashValue with
  | none => (none, none)
  | some hashes =>
    let splitPages := if pageSize = 1 then splitLen else splitLen / pageSize
    (some (hashes.take splitPages), some (hashes.drop splitPages))

/-- The `BlockStored` events of a node, one for each page; a page without a
hash is an index error. -/
def storeEvents : Option ℤ → List (List Gram) → List Digest → Except RadixError (List KVEvent)
  | _, [], _ => .ok []
  | _, _ :: _, [] => .error .indexError
  | parentBlockHash, page :: rest, d :: hashes => do
      let blockHash := hashStrToInt64 P d
      let events ← storeEvents (some blockHash) rest hashes
      .ok (.blockStored [blockHash] parentBlockHash page page.length :: events)

/-- The hashes of a node, computed if they are not set. -/
def hashValues (x : TreeNode Digest) : List Digest := x.hashValue.getD (T.computeNodeHashValues P x)

/-- The parent named by the first `BlockStored` of a node. -/
def parentBlockHash (x : TreeNode Digest) : Option ℤ :=
  match x.parent with
  | none => none
  | some p =>
    if p = T.rootNode then none
    else ((T.node p).hashValue.bind List.getLast?).map (hashStrToInt64 P)

def recordStoreEvent : Except RadixError (RadixCache Digest A) :=
  if P.enableKvCacheEvents then do
    let x := T.node n
    let hashes := T.hashValues P x
    let events ← storeEvents P (T.parentBlockHash P x) (pages P.pageSize x.key.units) hashes
    .ok { T.setNode n { x with hashValue := some hashes } with
      kvEventQueue := T.kvEventQueue ++ events }
  else .ok T

def recordRemoveEvent : Except RadixError (RadixCache Digest A) :=
  if P.enableKvCacheEvents then
    let x := T.node n
    let hashes := T.hashValues P x
    let count := (pages P.pageSize x.key.units).length
    if hashes.length < count then .error .indexError
    else
      let blockHashes := (hashes.take count).map (hashStrToInt64 P)
      .ok { T.setNode n { x with hashValue := some hashes } with
        kvEventQueue := T.kvEventQueue ++
          if blockHashes = [] then [] else [.blockRemoved blockHashes] }
  else .ok T

def recordAllClearedEvent : RadixCache Digest A :=
  if P.enableKvCacheEvents then
    { T with kvEventQueue := T.kvEventQueue ++ [.allBlocksCleared] }
  else T

/-! ## Tree nodes -/

def reset : RadixCache Digest A :=
  recordAllClearedEvent P
    { T with
      node := Function.update T.node T.counter
        { children := ∅, parent := none, key := { tokenIds := [] }, value := some []
          lockRef := 1, hashValue := some [], sessionIds := ∅ }
      counter := T.counter + 1
      rootNode := T.counter
      evictableSize := 0
      protectedSize := 0
      evictableLeaves := ∅
      sessionLeaves := fun _ => ∅
      closedSessionIds := [] }

/-- Some child is not evicted. -/
def hasResidentChild : Bool :=
  (T.node n).children.entries.any fun child => !(T.node child.2).evicted

def updateLeafStatus : RadixCache Digest A :=
  if (T.node n).evicted || decide ((T.node n).lockRef > 0) then
    { T with evictableLeaves := T.evictableLeaves.erase n }
  else if T.hasResidentChild n then
    { T with evictableLeaves := T.evictableLeaves.erase n }
  else { T with evictableLeaves := insert n T.evictableLeaves }

/-- The assignments of `_split_node` once the parent is known. -/
def splitUnder (key : RadixKey) (child parent : NodeId) (splitLen : ℕ) : RadixCache Digest A :=
  let x := T.node child
  let hashes := splitNodeHashValue x.hashValue splitLen P.pageSize
  let upper : TreeNode Digest :=
    { children := AList.singleton ((key.since splitLen).childKey P.pageSize) child
      parent := x.parent
      key := x.key.upto splitLen
      value := x.value.map fun v => v.take splitLen
      lockRef := x.lockRef
      hashValue := hashes.1
      sessionIds := ∅ }
  let lower : TreeNode Digest :=
    { x with
      parent := some T.counter
      key := x.key.since splitLen
      value := x.value.map fun v => v.drop splitLen
      hashValue := hashes.2 }
  let above : TreeNode Digest :=
    { T.node parent with
      children := (T.node parent).children.insert (key.childKey P.pageSize) T.counter }
  { ((T.setNode T.counter upper).setNode child lower).setNode parent above with
    counter := T.counter + 1 }

def splitNode (key : RadixKey) (child : NodeId) (splitLen : ℕ) :
    Except RadixError (NodeId × RadixCache Digest A) :=
  match (T.node child).parent with
  | none => .error .noParent
  | some parent => .ok (T.counter, T.splitUnder P key child parent splitLen)

/-! ## Lookup and insertion -/

/-- The loop of `_match_prefix_helper`; `value` collects the matched indices. -/
def matchPrefixHelper : ℕ → RadixCache Digest A → NodeId → RadixKey → List ℤ →
    Except RadixError (List ℤ × NodeId × RadixCache Digest A)
  | 0, _, _, _, _ => .error .diverges
  | fuel + 1, T, node, key, value =>
    if key.len > 0 then
      match (T.node node).children.lookup (key.childKey P.pageSize) with
      | none => .ok (value, node, T)
      | some child => do
          let childKey := (T.node child).key
          let prefixLen ← childKey.matchLen key P.pageSize
          if prefixLen < childKey.len then
            let (newNode, T') ← T.splitNode P childKey child prefixLen
            .ok (value ++ (T'.node newNode).indices, newNode, T')
          else
            matchPrefixHelper fuel T child (key.since prefixLen) (value ++ (T.node child).indices)
    else .ok (value, node, T)

def matchPrefix (key : RadixKey) :
    Except RadixError (List ℤ × NodeId × RadixCache Digest A) :=
  let key := (key.maybeToBigramView P.isEagle none).1
  if key.len = 0 then .ok ([], T.rootNode, T)
  else
    let key := key.pageAligned P.pageSize
    if key.len = 0 then .ok ([], T.rootNode, T)
    else matchPrefixHelper P (key.len + 1) T T.rootNode key []

/-- The loop of `_insert_helper`: how far the key is already stored, with what
remains of key and value. -/
def insertLoop : ℕ → RadixCache Digest A → NodeId → RadixKey → List ℤ → ℕ →
    Except RadixError (RadixCache Digest A × NodeId × RadixKey × List ℤ × ℕ)
  | 0, _, _, _, _, _ => .error .diverges
  | fuel + 1, T, node, key, value, total =>
    if key.len > 0 then
      match (T.node node).children.lookup (key.childKey P.pageSize) with
      | none => .ok (T, node, key, value, total)
      | some child => do
          let childKey := (T.node child).key
          let prefixLen ← childKey.matchLen key P.pageSize
          let key := key.since prefixLen
          let value := value.drop prefixLen
          if prefixLen < childKey.len then
            let (newNode, T') ← T.splitNode P childKey child prefixLen
            insertLoop fuel T' newNode key value (total + prefixLen)
          else insertLoop fuel T child key value (total + prefixLen)
    else .ok (T, node, key, value, total)

/-- The new leaf of `_insert_helper`, before its store event. -/
def attachLeaf (node : NodeId) (key : RadixKey) (value : List ℤ) : RadixCache Digest A :=
  let leaf : TreeNode Digest :=
    { children := ∅, parent := some node, key, value := some value, lockRef := 0
      hashValue := none, sessionIds := ∅ }
  let T₁ := T.setNode T.counter leaf
  let above : TreeNode Digest :=
    { T₁.node node with
      children := (T₁.node node).children.insert (key.childKey P.pageSize) T.counter }
  (({ T₁.setNode node above with
      counter := T.counter + 1
      evictableSize := T.evictableSize + key.len }).updateLeafStatus node).updateLeafStatus
    T.counter

def insertHelper (node : NodeId) (key : RadixKey) (value : List ℤ) :
    Except RadixError (ℕ × NodeId × RadixCache Digest A) :=
  if key.len = 0 then .ok (0, node, T)
  else do
    let (T', node, rest, value, total) ← insertLoop P (key.len + 1) T node key value 0
    if rest.len > 0 then
      let T'' ← (T'.attachLeaf P node rest value).recordStoreEvent P T'.counter
      .ok (total, T'.counter, T'')
    else .ok (total, node, T')

/-- The indices `insert` stores; without a value the token ids stand for them. -/
def insertedIndices (key : RadixKey) : Option (List ℤ) → List ℤ
  | some value => value.take key.len
  | none => key.tokenIds.take key.len

protected def insert (key : RadixKey) (value : Option (List ℤ)) :
    Except RadixError (ℕ × NodeId × RadixCache Digest A) :=
  let (key, value) := key.maybeToBigramView P.isEagle value
  let key := key.pageAligned P.pageSize
  T.insertHelper P T.rootNode key (insertedIndices key value)

/-! ## Locks -/

/-- The body of `inc_lock_ref` at one node. -/
def incLockNode : RadixCache Digest A :=
  let x := T.node n
  let T₁ := if x.lockRef = 0 then
      { T with
        evictableSize := T.evictableSize - x.key.len
        protectedSize := T.protectedSize + x.key.len }
    else T
  (T₁.setNode n { x with lockRef := x.lockRef + 1 }).updateLeafStatus n

/-- The body of `dec_lock_ref` at one node. -/
def decLockNode : RadixCache Digest A :=
  let x := T.node n
  let T₁ := if x.lockRef = 1 then
      { T with
        evictableSize := T.evictableSize + x.key.len
        protectedSize := T.protectedSize - x.key.len }
    else T
  (T₁.setNode n { x with lockRef := x.lockRef - 1 }).updateLeafStatus n

/-- Runs a body at a node and at everything above it, the root excluded. -/
def upward (body : RadixCache Digest A → NodeId → RadixCache Digest A) :
    ℕ → RadixCache Digest A → NodeId → Except RadixError (RadixCache Digest A)
  | 0, _, _ => .error .diverges
  | fuel + 1, T, n =>
    if n = T.rootNode then .ok T
    else
      match (T.node n).parent with
      | none => .error .noParent
      | some parent => upward body fuel (body T n) parent

def incLockRef : Except RadixError (RadixCache Digest A) :=
  upward incLockNode (T.counter + 1) T n

def decLockRef : Except RadixError (RadixCache Digest A) :=
  upward decLockNode (T.counter + 1) T n

/-! ## Sessions -/

/-- `_CLOSED_SESSION_TOMBSTONE_LIMIT` -/
def closedSessionTombstoneLimit : ℕ := 8192

/-- The closed session ids, oldest first and at most the limit of them. -/
def rememberClosed (closed : List String) (sid : String) : List String :=
  let closed := closed.erase sid ++ [sid]
  closed.drop (closed.length - closedSessionTombstoneLimit)

def rememberClosedSession (sid : String) : RadixCache Digest A :=
  { T with closedSessionIds := rememberClosed T.closedSessionIds sid }

def discardSessionLeaf : RadixCache Digest A :=
  let x := T.node n
  { T.setNode n { x with sessionIds := ∅ } with
    sessionLeaves := fun sid =>
      if sid ∈ x.sessionIds then (T.sessionLeaves sid).erase n else T.sessionLeaves sid }

/-- `_tag_session_leaf` at a node. -/
def tagNode (sid : String) (n : NodeId) : RadixCache Digest A :=
  if n = T.rootNode then T
  else
    { T.setNode n { T.node n with sessionIds := insert sid (T.node n).sessionIds } with
      sessionLeaves := Function.update T.sessionLeaves sid (insert n (T.sessionLeaves sid)) }

def tagSessionLeaf (sid : Option String) (key : RadixKey) (n : Option NodeId) :
    Except RadixError (RadixCache Digest A) :=
  match sid with
  | none => .ok T
  | some sid =>
    if !P.enableSessionRadixCache || decide (sid ∈ T.closedSessionIds) then .ok T
    else
      match n with
      | some n => .ok (T.tagNode sid n)
      | none => do
          let (_, n, T') ← T.matchPrefix P key
          .ok (T'.tagNode sid n)

/-! ## Deletion -/

/-- The assignments of `_delete_leaf` once the parent is known. -/
def unlink (n parent : NodeId) : RadixCache Digest A :=
  let above : TreeNode Digest :=
    { T.node parent with
      children := (T.node parent).children.erase ((T.node n).key.childKey P.pageSize) }
  let T₁ := (T.setNode parent above).discardSessionLeaf n
  ({ T₁ with
      evictableSize := T.evictableSize - (T.node n).key.len
      evictableLeaves := T.evictableLeaves.erase n }).updateLeafStatus parent

def deleteLeaf : Except RadixError (RadixCache Digest A) :=
  match (T.node n).parent with
  | none => .error .noParent
  | some parent =>
    if (T.node parent).children.lookup ((T.node n).key.childKey P.pageSize) = some n then
      .ok (T.unlink P n parent)
    else .error .missingChildKey

/-- `free(node.value)` followed by `_delete_leaf(node)`. -/
def freeLeaf : Except RadixError (RadixCache Digest A) :=
  ({ T with allocator := P.free T.allocator (T.node n).indices }).deleteLeaf P n

/-- The nodes left on the eviction heap after `x` was deleted. -/
def heapAfter (heap : Finset NodeId) (x parent : NodeId) : Finset NodeId :=
  if (T.node parent).children.entries = [] ∧ (T.node parent).lockRef = 0 then
    insert parent (heap.erase x)
  else heap.erase x

/-- The loop of `evict`. `pick` stands for `heappop` under the eviction
strategy; no node is on the heap twice, so the heap is a set. -/
def evictLoop (pick : ℕ → Finset NodeId → NodeId) (numTokens : ℕ) :
    ℕ → RadixCache Digest A → Finset NodeId → ℕ → Except RadixError (ℕ × RadixCache Digest A)
  | 0, _, _, _ => .error .diverges
  | fuel + 1, T, heap, numEvicted =>
    if numEvicted < numTokens ∧ heap ≠ ∅ then do
      let x := pick fuel heap
      let T₁ ← T.freeLeaf P x
      match (T₁.node x).parent with
      | none => .error .noParent
      | some parent =>
        let T₂ ← T₁.recordRemoveEvent P x
        evictLoop pick numTokens fuel T₂ (T₁.heapAfter heap x parent)
          (numEvicted + (T.node x).indices.length)
    else .ok (numEvicted, T)

def evict (pick : ℕ → Finset NodeId → NodeId) (numTokens : ℕ) :
    Except RadixError (ℕ × RadixCache Digest A) :=
  evictLoop P pick numTokens (T.counter + 1) T T.evictableLeaves 0

def dropHolder (sid : String) (n : NodeId) : RadixCache Digest A :=
  T.setNode n { T.node n with sessionIds := (T.node n).sessionIds.erase sid }

/-- The conditions under which `release_radix_session` leaves a node alone. -/
def Retained : Prop :=
  n = T.rootNode ∨ (T.node n).lockRef ≠ 0 ∨ (T.node n).children.entries ≠ [] ∨
    n ∉ T.evictableLeaves ∨ (T.node n).sessionIds ≠ ∅

instance (n : NodeId) : Decidable (T.Retained n) := inferInstanceAs (Decidable (_ ∨ _ ∨ _ ∨ _ ∨ _))

/-- The inner loop of `release_radix_session`. -/
def releaseUpward (sid : String) : ℕ → RadixCache Digest A → NodeId → ℕ →
    Except RadixError (ℕ × RadixCache Digest A)
  | 0, _, _, _ => .error .diverges
  | fuel + 1, T, n, freed =>
    let T₁ := T.dropHolder sid n
    if T₁.Retained n then .ok (freed, T₁)
    else
      match (T₁.node n).parent with
      | none => .error .noParent
      | some parent => do
          let T₂ ← T₁.freeLeaf P n
          releaseUpward sid fuel T₂ parent (freed + 1)

def releaseLeaves (sid : String) : List NodeId → RadixCache Digest A → ℕ →
    Except RadixError (ℕ × RadixCache Digest A)
  | [], T, freed => .ok (freed, T)
  | leaf :: rest, T, freed =>
    if sid ∈ (T.node leaf).sessionIds then do
      let (freed, T') ← releaseUpward P sid (T.counter + 1) T leaf freed
      releaseLeaves sid rest T' freed
    else releaseLeaves sid rest T freed

/-- `release_radix_session`; `order` lists a set in the order it is iterated. -/
def releaseRadixSession (order : Finset NodeId → List NodeId) (sid : String) :
    Except RadixError (ℕ × RadixCache Digest A) :=
  releaseLeaves P sid (order (T.sessionLeaves sid))
    { T.rememberClosedSession sid with
      sessionLeaves := Function.update T.sessionLeaves sid ∅ } 0

end RadixCache

end Sglang.Radix
