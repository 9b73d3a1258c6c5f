import Sglang.Router.HashTreeExact
import Sglang.Support.Reachable

/-!
# The KV-event index

`KvEventIndex` couples the hash tree with one subscriber task per worker rank and a pump
that drains their bounded channel. The parties are interleaved step by step: the
subscribers, the pump (live check, cursor, the events of a batch one by one) and the
lifecycle calls `add_worker` and `remove_worker`, of which any number may be in progress for
one URL: the worker manager orders the calls of a worker id, and two ids may share a URL.

`epoch` and `stamp` are history variables: the completed removals of a worker, and their
number when the batch of a cursor passed the live check.
-/

namespace Sglang.Router

open Sglang.Support (Dict HashOrder Reachable)

/-- A message from a subscriber to the pump. -/
inductive WorkerEvent where
  | batch (worker : KvWorkerId) (seq : ℤ) (events : List KvEvent)
  | publisherReset (worker : KvWorkerId)

def WorkerEvent.worker : WorkerEvent → KvWorkerId
  | batch worker _ _ => worker
  | publisherReset worker => worker

/-- Where the pump is in its loop. -/
inductive Pump where
  | idle
  | received (ev : WorkerEvent)
  | passed (ev : WorkerEvent) (since : ℕ)
  | applying (worker : KvWorkerId) (seq : ℤ) (events : List KvEvent) (since : ℕ)

/-- The rank whose event the pump took past the live check. -/
def Pump.holds : Pump → Option KvWorkerId
  | .passed ev _ => some ev.worker
  | .applying worker _ _ _ => some worker
  | _ => none

/-- Where a lifecycle call is, with the ranks it is about. -/
inductive Phase where
  | markedLive (dpRanks : List ℕ)
  | listed (dpRanks : List ℕ)
  | unlisted (dpRanks : List ℕ)
  | markedDead (dpRanks : List ℕ)
  /-- The handles are drained, and the call waits for their tasks. -/
  | joining (dpRanks : List ℕ) (drained : Finset KvWorkerId)
  | joined (dpRanks : List ℕ)
  | clearing (dpRanks : List ℕ)

structure IndexState where
  tree : TreeState
  cursors : Dict KvWorkerId ℤ
  live : Finset KvWorkerId
  workers : Dict String (List ℕ)
  /-- `KvEventSubscriberRegistry.handles` -/
  handles : Finset KvWorkerId
  /-- The ranks of the subscriber tasks that run. -/
  tasks : Multiset KvWorkerId
  channel : List WorkerEvent
  pump : Pump
  /-- The lifecycle calls in progress for each URL. -/
  calls : String → List Phase
  cursorLock : Option String
  epoch : String → ℕ
  stamp : KvWorkerId → ℕ

/-- `EVENT_CHANNEL_BUFFER`. -/
def eventChannelBuffer : ℕ := 1024

/-- The ids of a worker's ranks. -/
def rankIds (url : String) (dpRanks : List ℕ) : Finset KvWorkerId :=
  (dpRanks.map fun dpRank => KvWorkerId.mk url dpRank).toFinset

/-- The steps of all parties; the call `k` is one of those in progress for its URL. -/
inductive IndexOp where
  | send (ev : WorkerEvent)
  | recv
  | checkLive
  | compareCursor
  | applyEvent (O : HashOrder NodeId) (now : ℕ)
  | advanceCursor
  | addWorker (url : String) (dpRanks : List ℕ)
  | listWorker (url : String) (k : ℕ)
  | subscribe (url : String) (k : ℕ)
  | removeWorker (url : String)
  | markDead (url : String) (k : ℕ)
  | drainHandles (url : String) (k : ℕ)
  | joinTasks (url : String) (k : ℕ)
  | lockCursors (url : String) (k : ℕ)
  | clearRank (url : String) (k : ℕ) (O : HashOrder NodeId)
  | removeReturns (url : String) (k : ℕ)

namespace IndexState

def new (now : ℕ) : IndexState where
  tree := TreeState.new now
  cursors := ∅
  live := ∅
  workers := ∅
  handles := ∅
  tasks := 0
  channel := []
  pump := .idle
  calls := fun _ => []
  cursorLock := none
  epoch := fun _ => 0
  stamp := fun _ => 0

variable (s : IndexState)

def setCalls (url : String) (calls : List Phase) : IndexState :=
  { s with calls := Function.update s.calls url calls }

/-- The call `k` for `url` moves on. -/
def setCall (url : String) (k : ℕ) (p : Phase) : IndexState :=
  s.setCalls url ((s.calls url).set k p)

/-- The call `k` for `url` returns. -/
def endCall (url : String) (k : ℕ) : IndexState := s.setCalls url ((s.calls url).eraseIdx k)

/-- `tx.send`; it waits while the channel is full. -/
def send (ev : WorkerEvent) : Option IndexState :=
  if ev.worker ∈ s.tasks ∧ s.channel.length < eventChannelBuffer then
    some { s with channel := s.channel ++ [ev] }
  else none

def recv : Option IndexState :=
  match s.pump, s.channel with
  | .idle, ev :: channel => some { s with pump := .received ev, channel }
  | _, _ => none

/-- Events of detached workers are dropped. -/
def checkLive : Option IndexState :=
  match s.pump with
  | .received ev =>
    if ev.worker ∈ s.live then some { s with pump := .passed ev (s.epoch ev.worker.url) }
    else some { s with pump := .idle }
  | _ => none

/-- A reset drops the cursor; a batch whose number is not above the cursor is skipped. -/
def compareCursor : Option IndexState :=
  if s.cursorLock = none then
    match s.pump with
    | .passed (.publisherReset worker) _ =>
      some { s with cursors := s.cursors.erase worker, pump := .idle }
    | .passed (.batch worker seq events) since =>
      match s.cursors.lookup worker with
      | some p =>
        if seq ≤ p then some { s with pump := .idle }
        else some { s with pump := .applying worker seq events since }
      | none => some { s with pump := .applying worker seq events since }
    | _ => none
  else none

def applyEvent (O : HashOrder NodeId) (now : ℕ) : Option IndexState :=
  match s.pump with
  | .applying worker seq (event :: events) since =>
    some { s with
      tree := event.apply O s.tree worker now
      pump := .applying worker seq events since }
  | _ => none

def advanceCursor : Option IndexState :=
  if s.cursorLock = none then
    match s.pump with
    | .applying worker seq [] since =>
      some { s with
        cursors := s.cursors.insert worker seq
        stamp := Function.update s.stamp worker since
        pump := .idle }
    | _ => none
  else none

/-- `add_worker` once the event configuration is accepted. -/
def addWorker (url : String) (dpRanks : List ℕ) : Option IndexState :=
  if dpRanks = [] then none
  else some ({ s with live := s.live ∪ rankIds url dpRanks }.setCalls url
    (s.calls url ++ [Phase.markedLive dpRanks]))

def listWorker (url : String) (k : ℕ) : Option IndexState :=
  match (s.calls url)[k]? with
  | some (.markedLive dpRanks) =>
    some ({ s with workers := s.workers.insert url dpRanks }.setCall url k (.listed dpRanks))
  | _ => none

/-- A rank that has a subscriber keeps it. -/
def subscribe (url : String) (k : ℕ) : Option IndexState :=
  match (s.calls url)[k]? with
  | some (.listed dpRanks) =>
    some ({ s with
      handles := s.handles ∪ rankIds url dpRanks
      tasks := s.tasks + (rankIds url dpRanks \ s.handles).val }.endCall url k)
  | _ => none

/-- A worker that is not listed has nothing to remove. -/
def removeWorker (url : String) : Option IndexState :=
  match s.workers.lookup url with
  | none => some s
  | some dpRanks =>
    some ({ s with workers := s.workers.erase url }.setCalls url
      (s.calls url ++ [Phase.unlisted dpRanks]))

def markDead (url : String) (k : ℕ) : Option IndexState :=
  match (s.calls url)[k]? with
  | some (.unlisted dpRanks) =>
    some ({ s with live := s.live \ rankIds url dpRanks }.setCall url k (.markedDead dpRanks))
  | _ => none

def drainHandles (url : String) (k : ℕ) : Option IndexState :=
  match (s.calls url)[k]? with
  | some (.markedDead dpRanks) =>
    some ({ s with handles := s.handles.filter (·.url ≠ url) }.setCall url k
      (.joining dpRanks (s.handles.filter (·.url = url))))
  | _ => none

/-- The tasks may forward events until they are joined. -/
def joinTasks (url : String) (k : ℕ) : Option IndexState :=
  match (s.calls url)[k]? with
  | some (.joining dpRanks drained) =>
    some ({ s with tasks := s.tasks - drained.val }.setCall url k (.joined dpRanks))
  | _ => none

def lockCursors (url : String) (k : ℕ) : Option IndexState :=
  match (s.calls url)[k]?, s.cursorLock with
  | some (.joined dpRanks), none =>
    some ({ s with cursorLock := some url }.setCall url k (.clearing dpRanks))
  | _, _ => none

def clearRank (url : String) (k : ℕ) (O : HashOrder NodeId) : Option IndexState :=
  match (s.calls url)[k]? with
  | some (.clearing (dpRank :: dpRanks)) =>
    some ({ s with
      tree := s.tree.clearWorker O ⟨url, dpRank⟩
      cursors := s.cursors.erase ⟨url, dpRank⟩ }.setCall url k (.clearing dpRanks))
  | _ => none

def removeReturns (url : String) (k : ℕ) : Option IndexState :=
  match (s.calls url)[k]? with
  | some (.clearing []) =>
    some ({ s with
      cursorLock := none
      epoch := Function.update s.epoch url (s.epoch url + 1) }.endCall url k)
  | _ => none

def run : IndexOp → Option IndexState
  | .send ev => s.send ev
  | .recv => s.recv
  | .checkLive => s.checkLive
  | .compareCursor => s.compareCursor
  | .applyEvent O now => s.applyEvent O now
  | .advanceCursor => s.advanceCursor
  | .addWorker url dpRanks => s.addWorker url dpRanks
  | .listWorker url k => s.listWorker url k
  | .subscribe url k => s.subscribe url k
  | .removeWorker url => s.removeWorker url
  | .markDead url k => s.markDead url k
  | .drainHandles url k => s.drainHandles url k
  | .joinTasks url k => s.joinTasks url k
  | .lockCursors url k => s.lockCursors url k
  | .clearRank url k O => s.clearRank url k O
  | .removeReturns url k => s.removeReturns url k

/-- All interleavings. -/
def Reaches : IndexState → Prop := Reachable (fun s => ∃ now, s = new now) (fun _ _ => True) run

/-- No rank is cleared while the pump is past the live check with an event of it, the calls for
one URL do not overlap, and a worker that is added again keeps the ranks it is listed with. -/
def Undisturbed : IndexOp → Prop
  | .clearRank url k _ =>
    ∀ dpRank dpRanks, (s.calls url)[k]? = some (.clearing (dpRank :: dpRanks)) →
      s.pump.holds ≠ some ⟨url, dpRank⟩
  | .addWorker url dpRanks =>
    s.calls url = [] ∧ ∀ old, s.workers.lookup url = some old → old ⊆ dpRanks
  | .removeWorker url => s.calls url = []
  | _ => True

/-- The interleavings in which every step is undisturbed. -/
def ReachesUndisturbed : IndexState → Prop :=
  Reachable (fun s => ∃ now, s = new now) Undisturbed run

/-- Nothing is left of a removed worker, and no cursor is older than the last removal. -/
structure RemovalSafe : Prop where
  no_node : ∀ url, s.calls url = [] → s.workers.lookup url = none →
    ∀ dpRank i n, s.tree.nodes.lookup i = some n → ⟨url, dpRank⟩ ∉ n.workers
  no_cursor : ∀ url, s.calls url = [] → s.workers.lookup url = none →
    ∀ dpRank, s.cursors.lookup ⟨url, dpRank⟩ = none
  cursor_since : ∀ w p, s.cursors.lookup w = some p → s.stamp w = s.epoch w.url

end IndexState

end Sglang.Router
