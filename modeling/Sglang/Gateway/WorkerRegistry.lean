import Sglang.Gateway.Worker
import Sglang.Support.KeyIndex
import Sglang.Support.Reachable

/-!
# The worker registry

`worker_registry.rs`: the map of workers by id and the five maps kept beside it. Ids of
new workers are drawn by `WorkerId::new`; a run may draw any id that is not in use.
Registering a worker under a URL that is already registered, as the
update step does, pushes a second entry to every index.
-/

namespace Sglang.Gateway

open Sglang.Support Option

abbrev WorkerId := String

structure WorkerRegistry where
  workers : Dict WorkerId Worker := ∅
  modelIndex : Dict String (List Worker) := ∅
  hashRings : Dict String HashRing := ∅
  typeWorkers : Dict WorkerType (List WorkerId) := ∅
  connectionWorkers : Dict ConnectionMode (List WorkerId) := ∅
  urlToId : Dict String WorkerId := ∅

namespace WorkerRegistry

section Operations

variable (R : RingOps) (r : WorkerRegistry)

def rebuildHashRing (modelId : String) : WorkerRegistry :=
  { r with hashRings :=
      match r.modelIndex.lookup modelId with
      | some workers => r.hashRings.insert modelId (HashRing.new R workers)
      | none => r.hashRings.erase modelId }

/-- `drawn` is the id that `WorkerId::new` gives. -/
def register (drawn : WorkerId) (worker : Worker) : WorkerId × WorkerRegistry :=
  let workerId := (r.urlToId.lookup worker.url).getD drawn
  let r := { r with
    workers := r.workers.insert workerId worker
    urlToId := r.urlToId.insert worker.url workerId
    modelIndex := r.modelIndex.pushUnder worker.modelId worker }
  let r := r.rebuildHashRing R worker.modelId
  (workerId, { r with
    typeWorkers := r.typeWorkers.pushUnder worker.workerType workerId
    connectionWorkers := r.connectionWorkers.pushUnder worker.connectionMode workerId })

def reserveIdForUrl (drawn : WorkerId) (url : String) : WorkerId × WorkerRegistry :=
  match r.urlToId.lookup url with
  | some id => (id, r)
  | none => (drawn, { r with urlToId := r.urlToId.insert url drawn })

def remove (workerId : WorkerId) : Option Worker × WorkerRegistry :=
  match r.workers.lookup workerId with
  | none => (none, r)
  | some worker =>
    let r := { r with
      workers := r.workers.erase workerId
      urlToId := r.urlToId.erase worker.url
      modelIndex := r.modelIndex.retainUnder worker.modelId (·.url ≠ worker.url) }
    let r := r.rebuildHashRing R worker.modelId
    (some worker, { r with
      typeWorkers := r.typeWorkers.retainUnder worker.workerType (· ≠ workerId)
      connectionWorkers := r.connectionWorkers.retainUnder worker.connectionMode (· ≠ workerId) })

def removeByUrl (url : String) : Option Worker × WorkerRegistry :=
  match r.urlToId.lookup url with
  | some workerId => { r with urlToId := r.urlToId.erase url }.remove R workerId
  | none => (none, r)

def get (workerId : WorkerId) : Option Worker := r.workers.lookup workerId

def getByModel (modelId : String) : List Worker := r.modelIndex.entries modelId

def getHashRing (modelId : String) : Option HashRing := r.hashRings.lookup modelId

end Operations

/-! ## The update step -/

/-- `cost` is the text of the number. -/
structure UpdateRequest where
  labels : Option (Dict String String) := none
  priority : Option ℕ := none
  cost : Option String := none
  apiKey : Option String := none
  healthCheckTimeoutSecs : Option ℕ := none
  healthCheckIntervalSecs : Option ℕ := none
  healthFailureThreshold : Option ℕ := none
  healthSuccessThreshold : Option ℕ := none
  disableHealthCheck : Option Bool := none

namespace UpdateRequest

variable (request : UpdateRequest) (worker : Worker)

def updatedLabels : Dict String String :=
  let labels := request.labels.elim worker.labels fun new => new ∪ worker.labels
  let labels := request.priority.elim labels fun p => labels.insert "priority" (toString p)
  request.cost.elim labels fun c => labels.insert "cost" c

def updatedHealthConfig : HealthConfig where
  timeoutSecs := request.healthCheckTimeoutSecs.getD worker.healthConfig.timeoutSecs
  checkIntervalSecs := request.healthCheckIntervalSecs.getD worker.healthConfig.checkIntervalSecs
  endpoint := worker.healthConfig.endpoint
  failureThreshold := request.healthFailureThreshold.getD worker.healthConfig.failureThreshold
  successThreshold := request.healthSuccessThreshold.getD worker.healthConfig.successThreshold
  disableHealthCheck := request.disableHealthCheck.getD worker.healthConfig.disableHealthCheck

/-- The worker rebuilt with the requested properties; a data-parallel worker is rebuilt from
its base URL and rank. -/
def rebuild : Worker where
  url := worker.dp.elim worker.url DpInfo.workerUrl
  apiKey := request.apiKey <|> worker.apiKey
  workerType := worker.workerType
  connectionMode := worker.connectionMode
  runtimeType := worker.runtimeType
  labels := request.updatedLabels worker
  healthConfig := request.updatedHealthConfig worker
  models := worker.models
  dp := worker.dp
  dp_url := by
    intro d hd
    rw [hd]
    rfl

theorem rebuild_url : (request.rebuild worker).url = worker.url := by
  change worker.dp.elim worker.url DpInfo.workerUrl = worker.url
  cases hdp : worker.dp with
  | none => rfl
  | some d => exact (worker.dp_url d hdp).symm

end UpdateRequest

/-- The step registers each rebuilt worker. -/
def updateWorkerProperties (R : RingOps) (r : WorkerRegistry) (drawn : WorkerId)
    (request : UpdateRequest) (workersToUpdate : List Worker) : WorkerRegistry :=
  workersToUpdate.foldl (fun r worker => (r.register R drawn (request.rebuild worker)).2) r

/-! ## Runs -/

inductive RegistryOp where
  | register (drawn : WorkerId) (worker : Worker)
  | reserveIdForUrl (drawn : WorkerId) (url : String)
  | remove (workerId : WorkerId)
  | removeByUrl (url : String)

def run (R : RingOps) (r : WorkerRegistry) : RegistryOp → WorkerRegistry
  | .register drawn worker => (r.register R drawn worker).2
  | .reserveIdForUrl drawn url => (r.reserveIdForUrl drawn url).2
  | .remove workerId => (r.remove R workerId).2
  | .removeByUrl url => (r.removeByUrl R url).2

/-- A drawn id is in use neither for a worker nor for a URL. -/
def DrawsUnused (r : WorkerRegistry) : RegistryOp → Prop
  | .register drawn worker =>
    r.urlToId.lookup worker.url = none →
      r.workers.lookup drawn = none ∧ ∀ url, r.urlToId.lookup url ≠ some drawn
  | .reserveIdForUrl drawn url =>
    r.urlToId.lookup url = none →
      r.workers.lookup drawn = none ∧ ∀ url, r.urlToId.lookup url ≠ some drawn
  | _ => True

/-- The operation registers a worker under the URL of a registered worker. -/
def Replaces (r : WorkerRegistry) : RegistryOp → Prop
  | .register _ worker => ∃ id old, r.urlToId.lookup worker.url = some id ∧
      r.workers.lookup id = some old
  | _ => False

def Reaches (R : RingOps) : WorkerRegistry → Prop :=
  Reachable (· = {}) DrawsUnused fun r op => some (r.run R op)

def ReachesPlain (R : RingOps) : WorkerRegistry → Prop :=
  Reachable (· = {}) (fun r op => r.DrawsUnused op ∧ ¬r.Replaces op) fun r op => some (r.run R op)

/-- The indexes are projections of the map of workers. -/
structure Projected (R : RingOps) (r : WorkerRegistry) : Prop where
  byModel_iff : ∀ modelId worker, worker ∈ r.getByModel modelId ↔
    ∃ id, r.get id = some worker ∧ worker.modelId = modelId
  byModel_nodup : ∀ modelId, ((r.getByModel modelId).map Worker.url).Nodup
  types : Projects r.workers Worker.workerType (fun id _ => id) r.typeWorkers
  connections : Projects r.workers Worker.connectionMode (fun id _ => id) r.connectionWorkers
  ring_eq : ∀ modelId ring, r.getHashRing modelId = some ring →
    ring = HashRing.new R (r.getByModel modelId)
  ring_none : ∀ modelId, r.getHashRing modelId = none → r.getByModel modelId = []
  url_eq : ∀ id worker, r.get id = some worker → r.urlToId.lookup worker.url = some id

/-! ## The invariant -/

structure Inv (R : RingOps) (r : WorkerRegistry) : Prop where
  models : Projects r.workers Worker.modelId (fun _ w => w) r.modelIndex
  types : Projects r.workers Worker.workerType (fun id _ => id) r.typeWorkers
  connections : Projects r.workers Worker.connectionMode (fun id _ => id) r.connectionWorkers
  rings : ∀ modelId, r.hashRings.lookup modelId = (r.modelIndex.lookup modelId).map (HashRing.new R)
  url_eq : ∀ {id worker}, r.workers.lookup id = some worker → r.urlToId.lookup worker.url = some id
  id_inj : ∀ {url url' id}, r.urlToId.lookup url = some id → r.urlToId.lookup url' = some id →
    url = url'

variable {R : RingOps} {r : WorkerRegistry} {drawn id : WorkerId} {worker : Worker} {url : String}

/-- Rebuilding the ring of the one model whose entries changed. -/
theorem rings_rebuild {r' : WorkerRegistry} {modelId : String}
    (hrings : ∀ m, r.hashRings.lookup m = (r.modelIndex.lookup m).map (HashRing.new R))
    (hring : r'.hashRings = r.hashRings)
    (hindex : ∀ m, m ≠ modelId → r'.modelIndex.lookup m = r.modelIndex.lookup m) (m : String) :
    (r'.rebuildHashRing R modelId).hashRings.lookup m =
      (r'.modelIndex.lookup m).map (HashRing.new R) := by
  unfold rebuildHashRing
  by_cases hm : m = modelId
  · subst hm
    cases r'.modelIndex.lookup m with
    | none => exact Finmap.lookup_erase m _
    | some workers => exact Finmap.lookup_insert _
  · have hkept : r'.hashRings.lookup m = (r'.modelIndex.lookup m).map (HashRing.new R) := by
      rw [hring, hrings, hindex m hm]
    cases r'.modelIndex.lookup modelId with
    | none => exact (Finmap.lookup_erase_ne hm).trans hkept
    | some workers => exact (Finmap.lookup_insert_of_ne _ hm).trans hkept

/-- An id under which nothing is registered, held by no URL but perhaps the given one. -/
structure Free (r : WorkerRegistry) (id : WorkerId) (url : String) : Prop where
  vacant : r.workers.lookup id = none
  held : ∀ {u}, r.urlToId.lookup u = some id → u = url
  own : ∀ {j}, r.urlToId.lookup url = some j → j = id

/-- The id that a plain registration uses is free. -/
theorem Inv.free (I : Inv R r) (hdraw : r.DrawsUnused (.register drawn worker))
    (hplain : ¬r.Replaces (.register drawn worker)) :
    r.Free ((r.urlToId.lookup worker.url).getD drawn) worker.url := by
  cases hurl : r.urlToId.lookup worker.url with
  | none =>
    obtain ⟨hvacant, hunused⟩ := hdraw hurl
    exact ⟨hvacant, fun hu => absurd hu (hunused _), fun hj => by rw [hurl] at hj; cases hj⟩
  | some id =>
    refine ⟨?_, fun hu => I.id_inj hu hurl, fun hj => some.inj (hj.symm.trans hurl)⟩
    rw [getD_some, eq_none_iff_forall_not_mem]
    intro old hold
    exact hplain ⟨id, old, hurl, hold⟩

/-- A URL other than that of a worker to be registered stays with its id. -/
theorem id_inj_insert {m : Dict String WorkerId}
    (hinj : ∀ {u u' id}, m.lookup u = some id → m.lookup u' = some id → u = u')
    (hheld : ∀ {u}, m.lookup u = some id → u = url)
    {u u' j : String} (hu : (m.insert url id).lookup u = some j)
    (hu' : (m.insert url id).lookup u' = some j) : u = u' := by
  rw [Dict.lookup_insert_eq] at hu hu'
  split at hu <;> split at hu'
  · rename_i h h'
    exact h.trans h'.symm
  · rename_i h _
    rw [h, hheld (hu'.trans hu.symm)]
  · rename_i _ h'
    rw [h', hheld (hu.trans hu'.symm)]
  · exact hinj hu hu'

theorem Inv.register (I : Inv R r) (hdraw : r.DrawsUnused (.register drawn worker))
    (hplain : ¬r.Replaces (.register drawn worker)) : Inv R (r.register R drawn worker).2 := by
  obtain ⟨hvacant, hheld, hown⟩ := I.free hdraw hplain
  unfold WorkerRegistry.register
  generalize (r.urlToId.lookup worker.url).getD drawn = id at hvacant hheld hown
  have hother : ∀ {j v}, r.workers.lookup j = some v → v.url ≠ worker.url := by
    intro j v hj heq
    have hid := hown (heq ▸ I.url_eq hj)
    rw [hid, hvacant] at hj
    cases hj
  exact
    { models := I.models.insert hvacant fun j v hj heq => hother hj (congrArg Worker.url heq)
      types := I.types.insert hvacant fun j v hj heq => by
        rw [heq, hvacant] at hj
        cases hj
      connections := I.connections.insert hvacant fun j v hj heq => by
        rw [heq, hvacant] at hj
        cases hj
      rings := rings_rebuild I.rings rfl fun m hm => Finmap.lookup_insert_of_ne _ hm
      url_eq := fun {j v} hj => by
        have hj : (r.workers.insert id worker).lookup j = some v := hj
        change (r.urlToId.insert worker.url id).lookup v.url = some j
        rw [Dict.lookup_insert_eq] at hj
        split at hj
        · rename_i hid
          rw [← some.inj hj, hid]
          exact Finmap.lookup_insert _
        · rw [Dict.lookup_insert_eq, if_neg (hother hj)]
          exact I.url_eq hj
      id_inj := id_inj_insert I.id_inj hheld }

theorem Inv.reserveIdForUrl (I : Inv R r) (hdraw : r.DrawsUnused (.reserveIdForUrl drawn url)) :
    Inv R (r.reserveIdForUrl drawn url).2 := by
  unfold WorkerRegistry.reserveIdForUrl
  split
  · exact I
  · rename_i hurl
    obtain ⟨_, hunused⟩ := hdraw hurl
    refine { I with
      url_eq := fun {j v} hj => ?_
      id_inj := id_inj_insert I.id_inj fun hu => absurd hu (hunused _) }
    have hv := I.url_eq hj
    have hne : v.url ≠ url := by
      rintro rfl
      rw [hurl] at hv
      cases hv
    exact (Finmap.lookup_insert_of_ne _ hne).trans hv

/-- Removing a worker whose URL may already have lost its id. -/
theorem Inv.remove_of_url (I : Inv R r)
    (hid : r.workers.lookup id = some worker) {urls : Dict String WorkerId}
    (hurls : ∀ u, u ≠ worker.url → urls.lookup u = r.urlToId.lookup u) :
    Inv R ({ r with urlToId := urls }.remove R id).2 := by
  have hother : ∀ {j v}, r.workers.lookup j = some v → j ≠ id → v.url ≠ worker.url := by
    intro j v hj hne heq
    exact hne (some.inj ((heq ▸ I.url_eq hj).symm.trans (I.url_eq hid)))
  have herase : ∀ {u}, u ≠ worker.url →
      (urls.erase worker.url).lookup u = r.urlToId.lookup u := by
    intro u hu
    rw [Finmap.lookup_erase_ne hu, hurls u hu]
  have hsub : ∀ {u j}, (urls.erase worker.url).lookup u = some j →
      r.urlToId.lookup u = some j := by
    intro u j hu
    by_cases heq : u = worker.url
    · rw [heq, Finmap.lookup_erase] at hu
      cases hu
    · exact (herase heq).symm.trans hu
  unfold WorkerRegistry.remove
  rw [show ({ r with urlToId := urls } : WorkerRegistry).workers.lookup id = some worker from hid]
  exact
    { models := I.models.erase hid fun j v hj => by
        rw [decide_eq_true_iff]
        refine ⟨fun hne heq => ?_, hother hj⟩
        rw [heq, hid] at hj
        exact hne (congrArg Worker.url (some.inj hj)).symm
      types := I.types.erase hid fun j v _ => decide_eq_true_iff
      connections := I.connections.erase hid fun j v _ => decide_eq_true_iff
      rings := rings_rebuild I.rings rfl fun m hm => Dict.lookup_modify_of_ne _ _ _ hm
      url_eq := fun {j v} hj => by
        have hj : (r.workers.erase id).lookup j = some v := hj
        rw [Dict.lookup_erase_eq] at hj
        split at hj
        · cases hj
        · rename_i hne
          exact (herase (hother hj hne)).trans (I.url_eq hj)
      id_inj := fun hu hu' => I.id_inj (hsub hu) (hsub hu') }

theorem Inv.remove (I : Inv R r) (id : WorkerId) : Inv R (r.remove R id).2 := by
  cases hid : r.workers.lookup id with
  | none =>
    rw [WorkerRegistry.remove, hid]
    exact I
  | some worker => exact I.remove_of_url hid fun _ _ => rfl

/-- A URL without a worker may lose its id. -/
theorem Inv.forget (I : Inv R r)
    (hurl : r.urlToId.lookup url = some id) (hid : r.workers.lookup id = none) :
    Inv R { r with urlToId := r.urlToId.erase url } := by
  have hsub : ∀ {u j}, (r.urlToId.erase url).lookup u = some j → r.urlToId.lookup u = some j := by
    intro u j hu
    rw [Dict.lookup_erase_eq] at hu
    split at hu
    · cases hu
    · exact hu
  refine { I with
    url_eq := fun {j v} hj => ?_
    id_inj := fun hu hu' => I.id_inj (hsub hu) (hsub hu') }
  have hne : v.url ≠ url := by
    rintro rfl
    rw [← some.inj ((I.url_eq hj).symm.trans hurl)] at hid
    exact absurd (hj.symm.trans hid) (some_ne_none v)
  exact (Finmap.lookup_erase_ne hne).trans (I.url_eq hj)

theorem Inv.removeByUrl (I : Inv R r) (url : String) : Inv R (r.removeByUrl R url).2 := by
  unfold WorkerRegistry.removeByUrl
  cases hurl : r.urlToId.lookup url with
  | none => exact I
  | some id =>
    cases hid : r.workers.lookup id with
    | none => exact (I.forget hurl hid).remove id
    | some worker =>
      refine I.remove_of_url hid fun u hu => Finmap.lookup_erase_ne ?_
      rwa [← I.id_inj hurl (I.url_eq hid)] at hu

theorem inv_new : Inv R {} where
  models := Projects.empty
  types := Projects.empty
  connections := Projects.empty
  rings _ := rfl
  url_eq h := by cases h
  id_inj h := by cases h

theorem Inv.step (I : Inv R r) {op : RegistryOp} (hdraw : r.DrawsUnused op)
    (hplain : ¬r.Replaces op) : Inv R (r.run R op) := by
  cases op with
  | register drawn worker => exact I.register hdraw hplain
  | reserveIdForUrl drawn url => exact I.reserveIdForUrl hdraw
  | remove workerId => exact I.remove workerId
  | removeByUrl url => exact I.removeByUrl url

theorem Inv.projected (I : Inv R r) : Projected R r where
  byModel_iff modelId worker := by
    rw [getByModel, I.models.mem_iff]
    constructor
    · rintro ⟨id, w, hid, hm, rfl⟩
      exact ⟨id, hid, hm⟩
    · rintro ⟨id, hid, hm⟩
      exact ⟨id, worker, hid, hm, rfl⟩
  byModel_nodup modelId := by
    refine (I.models.nodup modelId).map_on fun w hw w' hw' heq => ?_
    obtain ⟨id, _, hid, _, rfl⟩ := (I.models.mem_iff _ _).mp hw
    obtain ⟨id', _, hid', _, rfl⟩ := (I.models.mem_iff _ _).mp hw'
    have hsame : id = id' := some.inj ((I.url_eq hid).symm.trans (heq ▸ I.url_eq hid'))
    exact some.inj (hid.symm.trans (hsame ▸ hid'))
  types := I.types
  connections := I.connections
  ring_eq modelId ring hring := by
    rw [getHashRing, I.rings] at hring
    obtain ⟨workers, hworkers, rfl⟩ := map_eq_some_iff.mp hring
    rw [getByModel, Dict.entries, hworkers, getD_some]
  ring_none modelId hring := by
    rw [getHashRing, I.rings, map_eq_none_iff] at hring
    rw [getByModel, Dict.entries, hring, getD_none]
  url_eq _ _ h := I.url_eq h

/-- Registering over a registered URL breaks the index of types. -/
theorem Inv.not_projected (I : Inv R r) {op : RegistryOp} (hreplaces : r.Replaces op) :
    ¬Projected R (r.run R op) := by
  cases op with
  | register drawn worker =>
    obtain ⟨id, old, hurl, hold⟩ := hreplaces
    intro hproj
    have htypes := hproj.types
    rw [run, WorkerRegistry.register, hurl] at htypes
    exact I.types.not_replace hold htypes
  | _ => exact hreplaces.elim

theorem inv_of_reachesPlain (h : ReachesPlain R r) : Inv R r := by
  refine Reachable.invariant ?_ ?_ h
  · rintro _ rfl
    exact inv_new
  · rintro r _ op I ⟨hdraw, hplain⟩ hrun
    obtain rfl := some.inj hrun
    exact I.step hdraw hplain

/-- The indexes are projections in every run without a registration over a registered URL, and
the first such registration breaks them. -/
theorem projected_of_reachesPlain (h : ReachesPlain R r) :
    Projected R r ∧ ∀ op, r.DrawsUnused op → (Projected R (r.run R op) ↔ ¬r.Replaces op) := by
  have I := inv_of_reachesPlain h
  refine ⟨I.projected, fun op hdraw => ⟨fun hproj hreplaces => ?_, fun hplain => ?_⟩⟩
  · exact I.not_projected hreplaces hproj
  · exact (I.step hdraw hplain).projected

/-- The update step, applied to a registered worker, breaks the projections. -/
theorem not_projected_update (h : ReachesPlain R r)
    (hid : r.workers.lookup id = some worker) (drawn : WorkerId) (request : UpdateRequest) :
    ¬Projected R (r.updateWorkerProperties R drawn request [worker]) := by
  have I := inv_of_reachesPlain h
  have hreplaces : r.Replaces (.register drawn (request.rebuild worker)) :=
    ⟨id, worker, (request.rebuild_url worker).symm ▸ I.url_eq hid, hid⟩
  exact I.not_projected hreplaces

/-- All positions are zero. -/
def zeroRing : RingOps where
  blake3 _ := Vector.replicate 32 0
  sortUnstable l := l.mergeSort fun a b => a.1 ≤ b.1
  perm l := l.mergeSort_perm _
  sorted l := by
    have hsorted : (l.mergeSort fun a b => a.1 ≤ b.1).Pairwise fun a b =>
        decide (a.1 ≤ b.1) = true := by
      apply List.pairwise_mergeSort
      · intro a b c hab hbc
        exact decide_eq_true (UInt64.le_trans (of_decide_eq_true hab) (of_decide_eq_true hbc))
      · intro a b
        rw [Bool.or_eq_true, decide_eq_true_iff, decide_eq_true_iff]
        exact UInt64.le_total a.1 b.1
    exact hsorted.imp fun hab => of_decide_eq_true hab

theorem not_projected_update_first : ∃ r : WorkerRegistry, ¬Projected zeroRing
    (r.updateWorkerProperties zeroRing "b" {} [{ url := "http://w" }]) := by
  refine ⟨_, not_projected_update (.step (a := .register "a" { url := "http://w" }) (.start rfl)
    ⟨fun _ => ⟨rfl, fun _ h => by cases h⟩, ?_⟩ rfl) (Finmap.lookup_insert _) "b" {}⟩
  rintro ⟨_, _, h, _⟩
  cases h

/-- Two workers, of which the first is removed. -/
theorem projected_oneRemoved : ∃ r, Reachable.runAll (fun r op => some (run zeroRing r op)) {}
        [.register "a" { url := "http://w1" },
          .register "b" { url := "http://w2", workerType := .decode }, .remove "a"] = some r ∧
      r.urlToId.lookup "http://w2" = some "b" ∧ Projected zeroRing r := by
  refine ⟨_, rfl, by decide +kernel, (projected_of_reachesPlain ?_).1⟩
  refine .step (a := .remove "a") (.step (.step (.start rfl) ⟨?_, ?_⟩ rfl) ⟨?_, ?_⟩ rfl)
    ⟨trivial, id⟩ rfl
  · exact fun _ => ⟨rfl, fun _ h => by cases h⟩
  · rintro ⟨_, _, h, _⟩
    cases h
  · refine fun _ => ⟨by decide +kernel, fun url h => ?_⟩
    change (Finmap.insert "http://w1" "a" ∅ : Dict String WorkerId).lookup url = some "b" at h
    rw [Dict.lookup_insert_eq] at h
    split at h <;> simp at h
  · rintro ⟨_, _, h, _⟩
    have hnone : (Finmap.insert "http://w1" "a" ∅ : Dict String WorkerId).lookup "http://w2" =
        none := by decide +kernel
    exact absurd (hnone.symm.trans h) (some_ne_none _).symm

/-- The update step gives a worker a new API key. The old one is still listed under its
model, and the id is listed twice under its type. -/
theorem stale_update : ∃ r r', Reaches zeroRing r' ∧
      Reachable.runAll (fun r op => some (run zeroRing r op)) {}
        [.register "a" { url := "http://w", apiKey := some "old" }] = some r ∧
      r.updateWorkerProperties zeroRing "b" { apiKey := some "new" }
        [{ url := "http://w", apiKey := some "old" }] = r' ∧
      (r'.getByModel unknownModelId).map (fun w => (w.url, w.apiKey)) =
        [("http://w", some "old"), ("http://w", some "new")] ∧
      r'.typeWorkers.entries .regular = ["a", "a"] ∧ ¬Projected zeroRing r' := by
  refine ⟨_, _, ?_, rfl, rfl, by decide +kernel, by decide +kernel, fun h => ?_⟩
  · refine .step (a := .register "b" (UpdateRequest.rebuild { apiKey := some "new" }
      { url := "http://w", apiKey := some "old" }))
      (.step (.start rfl) ?_ rfl)
      ?_ rfl
    · exact fun _ => ⟨rfl, fun _ h => by cases h⟩
    · intro h
      have hsome : (Finmap.insert "http://w" "a" ∅ : Dict String WorkerId).lookup "http://w" =
          some "a" := by decide +kernel
      exact absurd (hsome.symm.trans h) (some_ne_none _)
  · have hnodup := h.types.nodup .regular
    revert hnodup
    decide +kernel

end WorkerRegistry

end Sglang.Gateway
