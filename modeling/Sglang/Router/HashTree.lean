import Sglang.Support.Dict

/-!
# The hash tree of the router

`HashTree` indexes the KV-cache events of all workers: a path from the root spells a chain
of block hashes, and a node lists the workers that hold the chain ending there. `by_hash`
takes a block hash to the nodes that carry it, since events name blocks by hash only.

Milliseconds since the process epoch are an argument `now` of the operations that read the
clock; loops over maps and sets run in the order `O`.
-/

namespace Sglang.Router

open Sglang.Support (Dict HashOrder)

structure KvWorkerId where
  url : String
  dpRank : ℕ
  deriving DecidableEq

abbrev NodeId := ℕ

structure Node where
  blockHash : ℤ
  parent : Option NodeId
  workers : Finset KvWorkerId
  children : Dict ℤ NodeId
  lastUsed : ℕ

def Node.newChild (blockHash : ℤ) (parent : NodeId) (now : ℕ) : Node where
  blockHash
  parent := some parent
  workers := ∅
  children := ∅
  lastUsed := now

/-- Neither workers nor children. -/
def Node.isPrunable (n : Node) : Prop := n.workers = ∅ ∧ n.children = ∅

instance (n : Node) : Decidable n.isPrunable := inferInstanceAs (Decidable (_ ∧ _))

structure MatchResult where
  matchedBlocks : ℕ
  workers : Finset KvWorkerId

structure TreeState where
  nodes : Dict NodeId Node
  byHash : Dict ℤ (Finset NodeId)
  nextId : NodeId

def rootId : NodeId := 0

/-- `i64::MIN`; the root is never looked up through `by_hash`. -/
def rootHashSentinel : ℤ := -2 ^ 63

namespace TreeState

def new (now : ℕ) : TreeState where
  nodes := (∅ : Dict NodeId Node).insert rootId
    { blockHash := rootHashSentinel
      parent := none
      workers := ∅
      children := ∅
      lastUsed := now }
  byHash := ∅
  nextId := 1

variable (O : HashOrder NodeId) (s : TreeState)

/-- `by_hash.entry(block_hash).or_default().insert(id)`. -/
def index (blockHash : ℤ) (id : NodeId) : Dict ℤ (Finset NodeId) :=
  s.byHash.insert blockHash (insert id ((s.byHash.lookup blockHash).getD ∅))

def createChild (parentId : NodeId) (blockHash : ℤ) (now : ℕ) : Option NodeId × TreeState :=
  let id := s.nextId
  let nodes := s.nodes.insert id (Node.newChild blockHash parentId now)
  match nodes.lookup parentId with
  | none => (none, { s with nodes := nodes.erase id, nextId := s.nextId + 1 })
  | some _ =>
    (some id,
      { nodes := Dict.modify nodes parentId fun parent =>
          { parent with children := parent.children.insert blockHash id }
        byHash := s.index blockHash id
        nextId := s.nextId + 1 })

variable (worker : KvWorkerId)

def resolveParent (parentHash : Option ℤ) : NodeId :=
  match parentHash with
  | none => rootId
  | some parentHash =>
    match s.byHash.lookup parentHash with
    | none => rootId
    | some candidates =>
      if candidates.card = 1 then (O.list candidates).headD rootId
      else
        -- the first candidate this worker holds
        ((O.list candidates).find? fun cand =>
          (s.nodes.lookup cand).any fun n => worker ∈ n.workers).getD rootId

/-- `child.workers.insert(worker)` and the time stamp. -/
def visit (now : ℕ) (childId : NodeId) : TreeState :=
  { s with nodes := Dict.modify s.nodes childId fun child =>
      { child with workers := insert worker child.workers, lastUsed := now } }

/-- The child of `current` for the hash, created if missing. -/
def childFor (current : NodeId) (h : ℤ) (now : ℕ) : Option NodeId × TreeState :=
  match (s.nodes.lookup current).bind fun n => n.children.lookup h with
  | some id => (some id, s)
  | none => s.createChild current h now

/-- The loop of `insert`. -/
def insertFrom (worker : KvWorkerId) (now : ℕ) : List ℤ → NodeId → TreeState → TreeState
  | [], _, s => s
  | h :: blockHashes, current, s =>
    match s.childFor current h now with
    | (none, s) => s
    | (some childId, s) =>
      match s.nodes.lookup childId with
      | none => s
      | some _ => insertFrom worker now blockHashes childId (s.visit worker now childId)

def insert (parentHash : Option ℤ) (blockHashes : List ℤ) (now : ℕ) : TreeState :=
  if blockHashes = [] then s
  else insertFrom worker now blockHashes (s.resolveParent O worker parentHash) s

/-- `by_hash` without a node; empty sets are dropped. -/
def unindex (blockHash : ℤ) (id : NodeId) : Dict ℤ (Finset NodeId) :=
  match s.byHash.lookup blockHash with
  | none => s.byHash
  | some set =>
    if set.erase id = ∅ then s.byHash.erase blockHash
    else s.byHash.insert blockHash (set.erase id)

/-- One turn of the prune loop: the node leaves its parent, the reverse index and the arena. -/
def detach (cursor parentId : NodeId) (blockHash : ℤ) : TreeState :=
  { s with
    nodes := (Dict.modify s.nodes parentId fun parent =>
      { parent with children := parent.children.erase blockHash }).erase cursor
    byHash := s.unindex blockHash cursor }

/-- The loop of `prune_cascade`. Each turn removes a node, so the size of the arena
bounds the number of turns. -/
def pruneLoop : ℕ → NodeId → TreeState → TreeState
  | 0, _, s => s
  | fuel + 1, cursor, s =>
    if cursor = rootId then s
    else
      match s.nodes.lookup cursor with
      | none => s
      | some n =>
        match n.parent with
        | none => s
        | some parentId =>
          if ¬n.isPrunable then s
          else
            let s := s.detach cursor parentId n.blockHash
            match s.nodes.lookup parentId with
            | none => s
            | some parent =>
              if parentId ≠ rootId ∧ parent.isPrunable then pruneLoop fuel parentId s
              else s

def pruneCascade (start : NodeId) : TreeState := pruneLoop s.nodes.keys.card start s

/-- `node.workers.remove(worker)`. -/
def dropWorker (id : NodeId) : TreeState :=
  { s with nodes := Dict.modify s.nodes id fun node =>
      { node with workers := node.workers.erase worker } }

/-- The loop body of `remove`. -/
def removeAt (s : TreeState) (id : NodeId) : TreeState :=
  match s.nodes.lookup id with
  | none => s
  | some node =>
    if node.workers.erase worker = ∅ ∧ node.children = ∅ then
      (s.dropWorker worker id).pruneCascade id
    else s.dropWorker worker id

/-- The nodes that carry one of the hashes. -/
def targets (blockHashes : List ℤ) : List NodeId :=
  blockHashes.flatMap fun h => (s.byHash.lookup h).elim [] O.list

def remove (blockHashes : List ℤ) : TreeState :=
  (s.targets O blockHashes).foldl (removeAt worker) s

/-- The first loop body of `clear_worker`. -/
def clearAt (acc : TreeState × List NodeId) (id : NodeId) : TreeState × List NodeId :=
  match acc.1.nodes.lookup id with
  | none => acc
  | some node =>
    (acc.1.dropWorker worker id,
      if worker ∈ node.workers ∧ node.workers.erase worker = ∅ ∧ node.children = ∅ then
        acc.2 ++ [id]
      else acc.2)

/-- Prunes the node if it is still there. -/
def pruneIfPresent (s : TreeState) (id : NodeId) : TreeState :=
  if id ∈ s.nodes.keys then s.pruneCascade id else s

def clearWorker : TreeState :=
  let ids := (O.list s.nodes.keys).filter (· ≠ rootId)
  let acc := ids.foldl (clearAt worker) (s, [])
  acc.2.foldl pruneIfPresent acc.1

/-- `last_used` of the child on the way down. -/
def touch (now : ℕ) (childId : NodeId) : TreeState :=
  { s with nodes := Dict.modify s.nodes childId fun child => { child with lastUsed := now } }

/-- The loop of `match_prefix`: the number of matched blocks and the last matched node. -/
def matchFrom (now : ℕ) : List ℤ → NodeId → ℕ → Option NodeId → TreeState →
    (ℕ × Option NodeId) × TreeState
  | [], _, matched, last, s => ((matched, last), s)
  | h :: blockHashes, current, matched, last, s =>
    match (s.nodes.lookup current).bind fun n => n.children.lookup h with
    | none => ((matched, last), s)
    | some childId =>
      matchFrom now blockHashes childId (matched + 1) (some childId) (s.touch now childId)

def matchStart (parentHash : Option ℤ) : NodeId :=
  match parentHash with
  | none => rootId
  | some p =>
    match s.byHash.lookup p with
    | some set => if set.card = 1 then (O.list set).headD rootId else rootId
    | none => rootId

def matchPrefix (parentHash : Option ℤ) (blockHashes : List ℤ) (now : ℕ) :
    MatchResult × TreeState :=
  if blockHashes = [] then (⟨0, ∅⟩, s)
  else
    let r := matchFrom now blockHashes (s.matchStart O parentHash) 0 none s
    (⟨r.1.1, (r.1.2.bind r.2.nodes.lookup).elim ∅ Node.workers⟩, r.2)

def nodeCount : ℕ := s.nodes.keys.card - 1

/-- The first phase of `evict_lru`, with its early exit. -/
def evictEmpty (maxSize : ℕ) : List NodeId → TreeState → TreeState
  | [], s => s
  | id :: ids, s =>
    if s.nodeCount ≤ maxSize then s else evictEmpty maxSize ids (s.pruneIfPresent id)

/-- The loop body of the search for the oldest leaf. -/
def olderLeaf (oldest : Option (ℕ × NodeId)) (id : NodeId) : Option (ℕ × NodeId) :=
  match s.nodes.lookup id with
  | none => oldest
  | some n =>
    if id = rootId ∨ n.children ≠ ∅ then oldest
    else
      match oldest with
      | none => some (n.lastUsed, id)
      | some (cur, _) => if n.lastUsed < cur then some (n.lastUsed, id) else oldest

def oldestLeaf : Option (ℕ × NodeId) := (O.list s.nodes.keys).foldl s.olderLeaf none

/-- `node.workers.clear()`. -/
def clearWorkers (id : NodeId) : TreeState :=
  { s with nodes := Dict.modify s.nodes id fun node => { node with workers := ∅ } }

/-- The second phase of `evict_lru`. -/
def evictOldest (maxSize : ℕ) : ℕ → TreeState → TreeState
  | 0, s => s
  | iters + 1, s =>
    if s.nodeCount > maxSize then
      match s.oldestLeaf O with
      | none => s
      | some (_, victim) => evictOldest maxSize iters ((s.clearWorkers victim).pruneCascade victim)
    else s

def emptyLeaves : List NodeId :=
  (O.list s.nodes.keys).filter fun id => id ≠ rootId ∧ (s.nodes.lookup id).any fun n => n.isPrunable

/-- The number of removed nodes and the tree without them. -/
def evictLru (maxSize : ℕ) : ℕ × TreeState :=
  if s.nodeCount ≤ maxSize then (0, s)
  else
    let countBefore := s.nodes.keys.card
    let s₁ := evictEmpty maxSize (s.emptyLeaves O) s
    let s₂ := evictOldest O maxSize (s₁.nodes.keys.card + 1) s₁
    (countBefore - s₂.nodes.keys.card, s₂)

end TreeState

end Sglang.Router
