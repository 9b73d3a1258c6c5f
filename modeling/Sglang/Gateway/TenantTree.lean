import Mathlib.Algebra.GroupWithZero.Nat
import Sglang.Gateway.CharText
import Sglang.Support.Dfs
import Sglang.Support.Dict

/-!
# The multi-tenant prefix tree of the gateway

`tree.rs`: a path-compressed tree of texts in which every node lists the tenants that hold
the text up to it, with the epoch of their last access. Nodes live in a heap and are
named by ids; `EPOCH_COUNTER` is part of the state. `none` is a panic or a loop that does
not end.

Maps are iterated in the orders of `MapOrders`, and the heap of an eviction pops any
of its oldest entries.
-/

namespace Sglang.Gateway

open Sglang.Support

abbrev NodeId := ℕ

structure Node where
  children : Dict Char NodeId
  text : NodeText
  tenantLastAccessTime : Dict String UInt64
  parent : Option NodeId
  lastTenant : Option String

structure Tree where
  node : NodeId → Node
  nextId : NodeId
  tenantCharCount : Dict String ℕ
  epochCounter : UInt64

structure PrefixMatchResult where
  tenant : String
  matchedCharCount : ℕ
  inputCharCount : ℕ

structure EvictionEntry where
  timestamp : UInt64
  tenant : String
  node : NodeId

/-- `BinaryHeap<Reverse<EvictionEntry>>`: entries are compared by their timestamps
only. -/
structure MinHeap where
  pop : List EvictionEntry → Option (EvictionEntry × List EvictionEntry)
  pop_nil : pop [] = none
  pop_of_ne : ∀ {pq}, pq ≠ [] → ∃ entry rest, pop pq = some (entry, rest) ∧
    pq.Perm (entry :: rest) ∧ ∀ e ∈ pq, entry.timestamp ≤ e.timestamp

structure MapOrders where
  children : HashOrder Char
  tenants : HashOrder String
  heap : MinHeap

def rootId : NodeId := 0

def rootNode : Node where
  children := ∅
  text := .empty
  tenantLastAccessTime := ∅
  parent := none
  lastTenant := none

/-- `entry(a).or_insert(b)` -/
def orInsert {α β : Type} [DecidableEq α] (m : Dict α β) (a : α) (b : β) : Dict α β :=
  if a ∈ m.keys then m else m.insert a b

namespace Tree

/-- A new tree; the counter is shared by all trees and may have any value. -/
def new (epochCounter : UInt64) : Tree where
  node _ := rootNode
  nextId := 1
  tenantCharCount := ∅
  epochCounter

variable (T : Tree)

def modifyNode (n : NodeId) (f : Node → Node) : Tree :=
  { T with node := Function.update T.node n (f (T.node n)) }

@[simp] theorem modifyNode_self (n : NodeId) (f : Node → Node) :
    (T.modifyNode n f).node n = f (T.node n) :=
  Function.update_self n _ T.node

theorem modifyNode_of_ne {n m : NodeId} (h : m ≠ n) (f : Node → Node) :
    (T.modifyNode n f).node m = T.node m :=
  Function.update_of_ne h _ T.node

/-- The keys of `tenant_last_access_time`. -/
def tenants (n : NodeId) : Finset String := (T.node n).tenantLastAccessTime.keys

/-- `entry(tenant).and_modify(|count| *count += chars).or_insert(chars)` -/
def addChars (tenant : String) (chars : ℕ) : Tree :=
  { T with tenantCharCount :=
      T.tenantCharCount.insert tenant ((T.tenantCharCount.lookup tenant).getD 0 + chars) }

def setAccessTime (n : NodeId) (tenant : String) (epoch : UInt64) : Tree :=
  T.modifyNode n fun x =>
    { x with tenantLastAccessTime := x.tenantLastAccessTime.insert tenant epoch }

def advanceEpoch : Tree := { T with epochCounter := T.epochCounter + 1 }

/-! ## Insertion -/

/-- The entries of the tenant at the root and in `tenant_char_count`. -/
def enterRoot (tenant : String) : Tree :=
  { T.modifyNode rootId fun x =>
      { x with tenantLastAccessTime := orInsert x.tenantLastAccessTime tenant 0 } with
    tenantCharCount := orInsert T.tenantCharCount tenant 0 }

/-- The vacant entry: a leaf with the rest of the text. -/
def attachLeaf (prev : NodeId) (firstChar : Char) (remaining : List Char) (tenant : String) :
    Tree :=
  let leaf : Node :=
    { children := ∅
      text := .new remaining
      tenantLastAccessTime := (∅ : Dict String UInt64).insert tenant T.epochCounter
      parent := some prev
      lastTenant := some tenant }
  let newId := T.nextId
  let T := { T.advanceEpoch with node := Function.update T.node newId leaf, nextId := newId + 1 }
  (T.addChars tenant remaining.length).modifyNode prev fun x =>
    { x with children := x.children.insert firstChar newId }

/-- A new node above `matched` takes the text `upper`, `matched` keeps `lower`. -/
def putAbove (prev : NodeId) (firstChar : Char) (matched : NodeId) (upper lower : NodeText)
    (firstNewChar : Char) : Tree :=
  let x := T.node matched
  let new : Node :=
    { children := (∅ : Dict Char NodeId).insert firstNewChar matched
      text := upper
      tenantLastAccessTime := x.tenantLastAccessTime
      parent := some prev
      lastTenant := x.lastTenant }
  let newId := T.nextId
  let T := { T with node := Function.update T.node newId new, nextId := newId + 1 }
  let T := T.modifyNode prev fun p => { p with children := p.children.insert firstChar newId }
  T.modifyNode matched fun m => { m with text := lower, parent := some newId }

def splitNode (prev : NodeId) (firstChar : Char) (matched : NodeId) (sharedCount : ℕ) :
    Option Tree :=
  let (matchedText, contractedText) := (T.node matched).text.splitAtChar sharedCount
  match contractedText.firstChar with
  | none => none
  | some firstNewChar =>
    some (T.putAbove prev firstChar matched matchedText contractedText firstNewChar)

/-- The tenant at a node on the way, with no time stamp of its own. -/
def attachTenant (n : NodeId) (tenant : String) (chars : ℕ) : Tree :=
  if tenant ∈ T.tenants n then T
  else (T.addChars tenant chars).setAccessTime n tenant 0

def insertLoop (tenant : String) : ℕ → List Char → NodeId → Tree → Option Tree
  | 0, _, _, _ => none
  | _ + 1, [], prev, T => some (T.setAccessTime prev tenant T.epochCounter).advanceEpoch
  | fuel + 1, firstChar :: rest, prev, T =>
    let remaining := firstChar :: rest
    match (T.node prev).children.lookup firstChar with
    | none => some (T.attachLeaf prev firstChar remaining tenant)
    | some matched =>
      let count := (T.node matched).text.charCount
      let sharedCount := sharedPrefixCount remaining (T.node matched).text.text
      if sharedCount < count then do
        let newNode := T.nextId
        let T ← T.splitNode prev firstChar matched sharedCount
        let remaining ← advanceByChars remaining sharedCount
        insertLoop tenant fuel remaining newNode (T.attachTenant newNode tenant sharedCount)
      else do
        let remaining ← advanceByChars remaining sharedCount
        insertLoop tenant fuel remaining matched (T.attachTenant matched tenant count)

def insert (text : List Char) (tenant : String) : Option Tree :=
  insertLoop tenant (text.length + 1) text rootId (T.enterRoot tenant)

/-! ## Lookups -/

/-- The descent of both lookups: the characters matched and the last node entered. -/
def matchLoop (enters : NodeId → Bool) : ℕ → List Char → ℕ → NodeId → Option (ℕ × NodeId)
  | 0, _, _, _ => none
  | _ + 1, [], matchedChars, prev => some (matchedChars, prev)
  | fuel + 1, firstChar :: rest, matchedChars, prev =>
    let remaining := firstChar :: rest
    match (T.node prev).children.lookup firstChar with
    | none => some (matchedChars, prev)
    | some matched =>
      if enters matched then
        let sharedCount := sharedPrefixCount remaining (T.node matched).text.text
        if sharedCount = (T.node matched).text.charCount then do
          let remaining ← advanceByChars remaining sharedCount
          matchLoop enters fuel remaining (matchedChars + sharedCount) matched
        else some (matchedChars + sharedCount, matched)
      else some (matchedChars, prev)

/-- Any tenant of the node, which is cached; a node without tenants answers `"empty"`. -/
def refreshTenant (O : HashOrder String) (curr : NodeId) : String × Tree :=
  let t := (O.list (T.tenants curr)).headD "empty"
  (t, T.modifyNode curr fun x => { x with lastTenant := some t })

def selectTenant (O : HashOrder String) (curr : NodeId) : String × Tree :=
  match (T.node curr).lastTenant with
  | some t => if t ∈ T.tenants curr then (t, T) else T.refreshTenant O curr
  | none => T.refreshTenant O curr

/-- One match in eight updates the time stamp. -/
def touchSometimes (curr : NodeId) (tenant : String) : Tree :=
  if T.epochCounter &&& 7 = 0 then T.advanceEpoch.setAccessTime curr tenant T.epochCounter
  else T.advanceEpoch

def prefixMatchWithCounts (O : HashOrder String) (text : List Char) :
    Option (PrefixMatchResult × Tree) := do
  let (matchedChars, curr) ← T.matchLoop (fun _ => true) (text.length + 1) text 0 rootId
  let (tenant, T) := T.selectTenant O curr
  pure (⟨tenant, matchedChars, text.length⟩, T.touchSometimes curr tenant)

def prefixMatch (O : HashOrder String) (text : List Char) :
    Option ((List Char × String) × Tree) := do
  let (result, T) ← T.prefixMatchWithCounts O text
  pure ((takeChars text result.matchedCharCount, result.tenant), T)

/-- The time stamp of the tenant, if it has the node. -/
def touchTenant (curr : NodeId) (tenant : String) : Tree :=
  if tenant ∈ T.tenants curr then (T.setAccessTime curr tenant T.epochCounter).advanceEpoch
  else T

def prefixMatchTenant (text : List Char) (tenant : String) : Option (List Char × Tree) := do
  let (matchedChars, curr) ←
    T.matchLoop (fun n => tenant ∈ T.tenants n) (text.length + 1) text 0 rootId
  pure (takeChars text matchedChars, T.touchTenant curr tenant)

/-! ## Eviction and removal -/

variable (O : HashOrder Char)

/-- The values of `children`. -/
def kids (n : NodeId) : List NodeId :=
  (O.list (T.node n).children.keys).filterMap (T.node n).children.lookup

def childHas (n : NodeId) (tenant : String) : Bool :=
  (T.kids O n).any fun child => tenant ∈ T.tenants child

/-- The nodes the three traversals pop from their stacks. -/
def visited : Option (List NodeId) := dfs (T.kids O) (T.nextId + 1) [rootId] []

def leafOf (O : MapOrders) (n : NodeId) : List String :=
  let candidates : Dict String Bool :=
    (O.tenants.list (T.tenants n)).foldl (fun m tenant => m.insert tenant true) ∅
  let candidates := (T.kids O.children n).foldl (fun m child =>
    (O.tenants.list (T.tenants child)).foldl (fun m tenant => m.insert tenant false) m) candidates
  (O.tenants.list candidates.keys).filter fun tenant => candidates.lookup tenant = some true

def leafEntries (O : MapOrders) (n : NodeId) : List EvictionEntry :=
  (T.leafOf O n).filterMap fun tenant =>
    ((T.node n).tenantLastAccessTime.lookup tenant).map fun timestamp => ⟨timestamp, tenant, n⟩

/-- The node loses the tenant, and is unlinked if it has neither tenants nor children. -/
def dropTenant (n : NodeId) (tenant : String) : Tree :=
  let T := T.modifyNode n fun x =>
    { x with tenantLastAccessTime := x.tenantLastAccessTime.erase tenant }
  if (T.node n).children = ∅ ∧ (T.node n).tenantLastAccessTime = ∅ then
    match (T.node n).parent, (T.node n).text.firstChar with
    | some parent, some fc =>
      T.modifyNode parent fun p => { p with children := p.children.erase fc }
    | _, _ => T
  else T

/-- The parent of a node, if it has the tenant and none of its children has. -/
def newLeaf (n : NodeId) (tenant : String) : Option NodeId :=
  match (T.node n).parent with
  | none => none
  | some parent =>
    if tenant ∈ T.tenants parent ∧ T.childHas O parent tenant = false then some parent else none

/-- The entry pushed for a parent that became a leaf. -/
def parentEntry (n : NodeId) (tenant : String) : Option EvictionEntry :=
  (T.newLeaf O n tenant).bind fun parent =>
    ((T.node parent).tenantLastAccessTime.lookup tenant).map fun timestamp =>
      ⟨timestamp, tenant, parent⟩

/-- The tenant is at the node and at none of its children. -/
def isStillLeaf (n : NodeId) (tenant : String) : Bool :=
  tenant ∈ T.tenants n && !T.childHas O n tenant

/-- The counter of the tenant less the characters of the node. -/
def subtractChars (n : NodeId) (tenant : String) : Tree :=
  { T with tenantCharCount :=
      T.tenantCharCount.modify tenant fun count => count - (T.node n).text.charCount }

def evictLoop (O : MapOrders) (maxSize : ℕ) : ℕ → List EvictionEntry → Tree → Option Tree
  | 0, _, _ => none
  | fuel + 1, pq, T =>
    match O.heap.pop pq with
    | none => some T
    | some (entry, pq) =>
      if (T.tenantCharCount.lookup entry.tenant).any (· ≤ maxSize) then
        evictLoop O maxSize fuel pq T
      else if T.isStillLeaf O.children entry.node entry.tenant then
        let T := (T.subtractChars entry.node entry.tenant).dropTenant entry.node entry.tenant
        evictLoop O maxSize fuel ((T.parentEntry O.children entry.node entry.tenant).toList ++ pq) T
      else evictLoop O maxSize fuel pq T

def evictTenantBySize (O : MapOrders) (maxSize : ℕ) : Option Tree := do
  let nodes ← T.visited O.children
  let pq := nodes.flatMap (T.leafEntries O)
  evictLoop O maxSize (2 * (nodes.map fun n => (T.tenants n).card).sum + 1) pq T

def removeLoop (O : HashOrder Char) (tenant : String) : ℕ → List NodeId → Tree → Option Tree
  | 0, _, _ => none
  | _ + 1, [], T => some T
  | fuel + 1, curr :: queue, T =>
    let T := T.dropTenant curr tenant
    removeLoop O tenant fuel (queue ++ (T.newLeaf O curr tenant).toList) T

def removeTenant (tenant : String) : Option Tree := do
  let nodes ← T.visited O
  let queue := nodes.filter fun n => T.isStillLeaf O n tenant
  let T ← removeLoop O tenant (nodes.length + 1) queue T
  pure { T with tenantCharCount := T.tenantCharCount.erase tenant }

/-- `get_used_size_per_tenant`: the sizes read off the nodes. -/
def usedSizePerTenant (O : MapOrders) : Option (Dict String ℕ) := do
  let nodes ← T.visited O.children
  pure (nodes.foldl (fun sizes n =>
    (O.tenants.list (T.tenants n)).foldl (fun sizes tenant =>
      sizes.insert tenant ((sizes.lookup tenant).getD 0 + (T.node n).text.charCount)) sizes) ∅)

end Tree

end Sglang.Gateway
