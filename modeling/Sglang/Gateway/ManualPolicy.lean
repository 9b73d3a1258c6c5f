import Sglang.Gateway.Policy
import Sglang.Support.Reachable

/-!
# The manual policy

`policies/manual.rs`: a routing key sticks to up to two workers. A candidate is used only if
it is among the healthy indices of the slice.
-/

namespace Sglang.Gateway

open Sglang.Support

inductive ManualAssignmentMode where
  | random
  | minLoad
  | minGroup

def maxCandidateWorkers : ℕ := 2

/-- The candidates of a routing key. -/
structure RoutingNode where
  candiWorkerUrls : List String
  lastAccess : ℕ

/-- The oldest candidates make room for the new one. -/
def RoutingNode.pushBounded (node : RoutingNode) (url : String) : RoutingNode :=
  { node with candiWorkerUrls :=
      node.candiWorkerUrls.drop (node.candiWorkerUrls.length + 1 - maxCandidateWorkers) ++ [url] }

inductive ExecutionBranch where
  | noHealthyWorkers
  | occupiedHit
  | occupiedMiss
  | vacant
  | noRoutingId
  deriving DecidableEq

structure ManualPolicy where
  routingMap : Dict String RoutingNode := ∅

def extractRoutingKey (headers : Option (Dict String String)) : Option String :=
  (headers.bind fun h => h.lookup "x-smg-routing-key").filter fun s => !s.isEmpty

namespace ManualPolicy

def findHealthyWorker (urls : List String) (workers : List LiveWorker)
    (healthyIndices : List ℕ) : Option ℕ :=
  urls.findSome? fun url => (positionByUrl workers url).filter (· ∈ healthyIndices)

/-- The indices with the least value seen so far. -/
def minCandidates (value : ℕ → ℕ) : List ℕ → Option ℕ → List ℕ → List ℕ
  | [], _, candidates => candidates
  | i :: rest, none, _ => minCandidates value rest (some (value i)) [i]
  | i :: rest, some minVal, candidates =>
    match compare (value i) minVal with
    | .lt => minCandidates value rest (some (value i)) [i]
    | .eq => minCandidates value rest (some minVal) (candidates ++ [i])
    | .gt => minCandidates value rest (some minVal) candidates

/-- A single candidate needs no draw; a draw among one candidate gives the same. -/
def selectMinBy (rng : Rng) (value : ℕ → ℕ) (indices : List ℕ) : Option ℕ :=
  match minCandidates value indices none [] with
  | [i] => some i
  | candidates => rng.choose candidates

def selectNewWorker (mode : ManualAssignmentMode) (rng : Rng) (workers : List LiveWorker)
    (healthyIndices : List ℕ) : Option ℕ :=
  match mode with
  | .random => rng.choose healthyIndices
  | .minLoad => selectMinBy rng (fun i => (workers[i]?).elim 0 LiveWorker.load) healthyIndices
  | .minGroup =>
    selectMinBy rng (fun i => (workers[i]?).elim 0 LiveWorker.routingKeyLoad) healthyIndices

variable (mode : ManualAssignmentMode) (p : ManualPolicy)

/-- `none` is a panic. -/
def selectByRoutingId (rng : Rng) (now : ℕ) (workers : List LiveWorker) (routingId : String)
    (healthyIndices : List ℕ) : Option (ℕ × ExecutionBranch × ManualPolicy) :=
  match p.routingMap.lookup routingId with
  | some node =>
    let node := { node with lastAccess := now }
    match findHealthyWorker node.candiWorkerUrls workers healthyIndices with
    | some i => some (i, .occupiedHit, ⟨p.routingMap.insert routingId node⟩)
    | none => do
        let i ← selectNewWorker mode rng workers healthyIndices
        let w ← workers[i]?
        pure (i, .occupiedMiss, ⟨p.routingMap.insert routingId (node.pushBounded w.url)⟩)
  | none => do
      let i ← selectNewWorker mode rng workers healthyIndices
      let w ← workers[i]?
      pure (i, .vacant, ⟨p.routingMap.insert routingId ⟨[w.url], now⟩⟩)

def selectWorker (rng : Rng) (now : ℕ) (workers : List LiveWorker) (info : SelectWorkerInfo) :
    Option ((Option ℕ × ExecutionBranch) × ManualPolicy) :=
  let healthyIndices := getHealthyWorkerIndices workers
  if healthyIndices = [] then some ((none, .noHealthyWorkers), p)
  else
    match extractRoutingKey info.headers with
    | some routingId =>
      (p.selectByRoutingId mode rng now workers routingId healthyIndices).map
        fun (i, branch, p) => ((some i, branch), p)
    | none => (rng.choose healthyIndices).map fun i => ((some i, .noRoutingId), p)

/-- The periodic removal of keys that were idle for too long. -/
def evictIdle (O : HashOrder String) (now maxIdle : ℕ) : ManualPolicy :=
  ⟨(O.list p.routingMap.keys).foldl (fun m key =>
    if (m.lookup key).any fun node => now - node.lastAccess < maxIdle then m else m.erase key)
    p.routingMap⟩

end ManualPolicy

inductive ManualOp where
  | selectWorker (rng : Rng) (now : ℕ) (workers : List LiveWorker) (info : SelectWorkerInfo)
  | evictIdle (O : HashOrder String) (now maxIdle : ℕ)

namespace ManualPolicy

variable {mode : ManualAssignmentMode} {p : ManualPolicy} {workers : List LiveWorker}
  {info : SelectWorkerInfo} {indices : List ℕ}

def run (mode : ManualAssignmentMode) (p : ManualPolicy) : ManualOp → Option ManualPolicy
  | .selectWorker rng now workers info => (p.selectWorker mode rng now workers info).map Prod.snd
  | .evictIdle O now maxIdle => some (p.evictIdle O now maxIdle)

/-- There are candidates once a value was seen, and they are among the indices. -/
theorem minCandidates_spec (value : ℕ → ℕ) {all : List ℕ} (indices : List ℕ) (minVal : Option ℕ)
    (candidates : List ℕ) (hall : indices ⊆ all) (hsub : candidates ⊆ all)
    (hne : candidates ≠ [] ∨ minVal = none ∧ indices ≠ []) :
    minCandidates value indices minVal candidates ≠ [] ∧
      minCandidates value indices minVal candidates ⊆ all := by
  induction indices generalizing minVal candidates with
  | nil => exact ⟨hne.resolve_right fun hand => hand.2 rfl, hsub⟩
  | cons i rest ih =>
    obtain ⟨hi, hrest⟩ := List.cons_subset.mp hall
    have hsingle : [i] ⊆ all := List.cons_subset.mpr ⟨hi, List.nil_subset _⟩
    cases minVal with
    | none => exact ih _ [i] hrest hsingle (Or.inl (List.cons_ne_nil _ _))
    | some v =>
      have hcand : candidates ≠ [] := hne.resolve_right fun hand => by cases hand.1
      rw [minCandidates]
      split
      · exact ih _ [i] hrest hsingle (Or.inl (List.cons_ne_nil _ _))
      · exact ih _ _ hrest (List.append_subset.mpr ⟨hsub, hsingle⟩) (Or.inl (by simp))
      · exact ih _ _ hrest hsub (Or.inl hcand)

theorem selectMinBy_some (rng : Rng) (value : ℕ → ℕ) (h : indices ≠ []) :
    ∃ i ∈ indices, selectMinBy rng value indices = some i := by
  obtain ⟨hne, hsub⟩ := minCandidates_spec value indices none [] (List.Subset.refl _)
    (List.nil_subset _) (Or.inr ⟨rfl, h⟩)
  unfold selectMinBy
  split
  · rename_i i hone
    exact ⟨i, hsub (hone ▸ List.mem_singleton_self i), rfl⟩
  · obtain ⟨i, hi, hdraw⟩ := rng.choose_of_ne_nil hne
    exact ⟨i, hsub hi, hdraw⟩

theorem selectNewWorker_some (mode : ManualAssignmentMode) (rng : Rng)
    (workers : List LiveWorker) (h : indices ≠ []) :
    ∃ i ∈ indices, selectNewWorker mode rng workers indices = some i := by
  cases mode with
  | random => exact rng.choose_of_ne_nil h
  | minLoad => exact selectMinBy_some rng _ h
  | minGroup => exact selectMinBy_some rng _ h

theorem findHealthyWorker_mem {urls : List String} {i : ℕ}
    (h : findHealthyWorker urls workers indices = some i) : i ∈ indices := by
  obtain ⟨url, _, hfilter⟩ := List.exists_of_findSome?_eq_some h
  exact of_decide_eq_true (Option.filter_eq_some_iff.mp hfilter).2

/-- The selected index is one of the healthy ones. -/
theorem selectByRoutingId_some (mode : ManualAssignmentMode) (p : ManualPolicy) (rng : Rng)
    (now : ℕ) (routingId : String) (h : getHealthyWorkerIndices workers ≠ []) :
    ∃ i branch p', p.selectByRoutingId mode rng now workers routingId
      (getHealthyWorkerIndices workers) = some (i, branch, p') ∧
        i ∈ getHealthyWorkerIndices workers := by
  obtain ⟨i, hi, hsel⟩ := selectNewWorker_some mode rng workers h
  obtain ⟨w, hw, _⟩ := mem_getHealthyWorkerIndices.mp hi
  unfold selectByRoutingId
  cases p.routingMap.lookup routingId with
  | none =>
    refine ⟨i, .vacant, ⟨p.routingMap.insert routingId ⟨[w.url], now⟩⟩, ?_, hi⟩
    simp [hsel, hw]
  | some node =>
    dsimp only
    cases hfind : findHealthyWorker node.candiWorkerUrls workers
        (getHealthyWorkerIndices workers) with
    | some j => exact ⟨j, _, _, rfl, findHealthyWorker_mem hfind⟩
    | none =>
      refine ⟨i, .occupiedMiss, ⟨p.routingMap.insert routingId
        (RoutingNode.pushBounded { node with lastAccess := now } w.url)⟩, ?_, hi⟩
      simp [hsel, hw]

/-- The policy selects a healthy worker whenever one is available. -/
theorem selectWorker_spec (rng : Rng) (now : ℕ) (h : getHealthyWorkerIndices workers ≠ []) :
    ∃ r branch p', p.selectWorker mode rng now workers info = some ((r, branch), p') ∧
      NamesHealthy workers r := by
  unfold selectWorker
  simp only [if_neg h]
  cases extractRoutingKey info.headers with
  | some routingId =>
    obtain ⟨i, branch, p', hsel, hi⟩ := selectByRoutingId_some mode p rng now routingId h
    exact ⟨some i, branch, p', by simp only [hsel, Option.map_some], namesHealthy_of_mem hi⟩
  | none =>
    obtain ⟨i, hi, hdraw⟩ := rng.choose_of_ne_nil h
    exact ⟨some i, .noRoutingId, p, by simp only [hdraw, Option.map_some], namesHealthy_of_mem hi⟩

theorem selectWorker_none (rng : Rng) (now : ℕ) (h : getHealthyWorkerIndices workers = []) :
    p.selectWorker mode rng now workers info = some ((none, .noHealthyWorkers), p) :=
  if_pos h

theorem run_some (p : ManualPolicy) (op : ManualOp) : ∃ p', p.run mode op = some p' := by
  cases op with
  | selectWorker rng now workers info =>
    by_cases h : getHealthyWorkerIndices workers = []
    · exact ⟨p, congrArg (Option.map Prod.snd) (selectWorker_none rng now h)⟩
    · obtain ⟨_, _, p', hsel, _⟩ := selectWorker_spec rng now h
      exact ⟨p', congrArg (Option.map Prod.snd) hsel⟩
  | evictIdle O now maxIdle => exact ⟨_, rfl⟩

/-! ## Sticky keys -/

/-- The routing key was given to the worker first. -/
def Sticks (key url : String) (p : ManualPolicy) : Prop :=
  ∃ node, p.routingMap.lookup key = some node ∧ node.candiWorkerUrls.head? = some url

/-- Requests with the key find its worker available, and the key is not idle for too long. -/
def Serves (key url : String) (p : ManualPolicy) : ManualOp → Prop
  | .selectWorker _ _ workers info => extractRoutingKey info.headers = some key →
      ∃ i ∈ getHealthyWorkerIndices workers, positionByUrl workers url = some i
  | .evictIdle _ now maxIdle => ∀ node, p.routingMap.lookup key = some node →
      now - node.lastAccess < maxIdle

instance (key url : String) (p : ManualPolicy) (op : ManualOp) : Decidable (Serves key url p op) :=
  match op with
  | .selectWorker _ _ _ _ => inferInstanceAs (Decidable (_ → ∃ i ∈ _, _))
  | .evictIdle _ _ _ => inferInstanceAs (Decidable (∀ node ∈ p.routingMap.lookup key, _))

variable {key url : String}

theorem Sticks.select (h : Sticks key url p) (hkey : extractRoutingKey info.headers = some key)
    {i : ℕ} (hi : i ∈ getHealthyWorkerIndices workers) (hurl : positionByUrl workers url = some i)
    (mode : ManualAssignmentMode) (rng : Rng) (now : ℕ) :
    ∃ p', p.selectWorker mode rng now workers info =
      some ((some i, .occupiedHit), p') ∧ Sticks key url p' := by
  obtain ⟨node, hnode, hfirst⟩ := h
  obtain ⟨urls, hurls⟩ := List.head?_eq_some_iff.mp hfirst
  have hfind : findHealthyWorker node.candiWorkerUrls workers (getHealthyWorkerIndices workers) =
      some i := by
    rw [hurls, findHealthyWorker, List.findSome?_cons, hurl, Option.filter_some_pos (by simpa)]
  unfold selectWorker
  simp only [if_neg (List.ne_nil_of_mem hi), hkey, selectByRoutingId, hnode, hfind, Option.map_some]
  exact ⟨_, rfl, { node with lastAccess := now }, by simp, hfirst⟩

theorem routingMap_selectByRoutingId {rng : Rng} {now : ℕ} {id : String}
    {r : ℕ × ExecutionBranch × ManualPolicy}
    (h : p.selectByRoutingId mode rng now workers id indices = some r) :
    ∃ node, r.2.2.routingMap = p.routingMap.insert id node := by
  dsimp only [selectByRoutingId] at h
  repeat' split at h
  · cases h
    exact ⟨_, rfl⟩
  all_goals
    obtain ⟨i, -, h⟩ := Option.bind_eq_some_iff.mp h
    obtain ⟨w, -, ⟨⟩⟩ := Option.bind_eq_some_iff.mp h
    exact ⟨_, rfl⟩

theorem Sticks.run {p' : ManualPolicy} (h : Sticks key url p) {op : ManualOp}
    (hok : Serves key url p op) (hrun : p.run mode op = some p') : Sticks key url p' := by
  cases op with
  | selectWorker rng now workers info =>
    by_cases hkey : extractRoutingKey info.headers = some key
    · obtain ⟨i, hi, hurl⟩ := hok hkey
      obtain ⟨q, hq, hstick⟩ := h.select hkey hi hurl mode rng now
      simp only [ManualPolicy.run, hq, Option.map_some, Option.some.injEq] at hrun
      exact hrun ▸ hstick
    · obtain ⟨node, hnode, hfirst⟩ := h
      refine ⟨node, ?_, hfirst⟩
      obtain ⟨⟨⟨r, b⟩, q⟩, hq, rfl⟩ := Option.map_eq_some_iff.mp hrun
      unfold selectWorker at hq
      grind [routingMap_selectByRoutingId, Dict.lookup_insert_eq, Option.map_eq_some_iff]
  | evictIdle O now maxIdle =>
    obtain ⟨node, hnode, hfirst⟩ := h
    have hfresh := hok node hnode
    cases hrun
    refine ⟨node, ?_, hfirst⟩
    unfold evictIdle
    generalize O.list p.routingMap.keys = keys
    generalize p.routingMap = m at hnode
    induction keys generalizing m with
    | nil => exact hnode
    | cons k keys ih => exact ih _ (by grind [Dict.lookup_erase_eq])

/-- Every request with the key goes to its worker, whatever the other requests do. -/
theorem sticky (h : Reachable (Sticks key url) (Serves key url) (run mode) p)
    (hkey : extractRoutingKey info.headers = some key) {i : ℕ}
    (hi : i ∈ getHealthyWorkerIndices workers) (hurl : positionByUrl workers url = some i)
    (rng : Rng) (now : ℕ) : ∃ p', p.selectWorker mode rng now workers info =
      some ((some i, .occupiedHit), p') ∧ Sticks key url p' :=
  (Reachable.invariant (fun _ h => h) (fun _ h => h.run) h).select hkey hi hurl mode rng now

/-- The key `k` has the worker `a`. -/
def firstKey : ManualPolicy := ⟨Finmap.insert "k" ⟨["a"], 0⟩ ∅⟩

/-- Two workers, the second of which is `a`. -/
def twoWorkers : List LiveWorker :=
  [⟨{ url := "b" }, true, true, 0, 0⟩, ⟨{ url := "a" }, true, true, 0, 0⟩]

def withKey (key : String) : SelectWorkerInfo :=
  { headers := some (Finmap.insert "x-smg-routing-key" key ∅) }

/-- A request with another key, one with the key, and an eviction. -/
def otherKey : List ManualOp :=
  [.selectWorker .first 3 twoWorkers (withKey "j"), .selectWorker .first 5 twoWorkers (withKey "k"),
    .evictIdle HashOrder.increasing 14 10]

/-- The other key has been evicted, and the key still goes to its worker. -/
theorem sticky_otherKey : ∃ p, Reachable.runAll (run .random) firstKey otherKey = some p ∧
    (p.routingMap.lookup "j").isNone = true ∧ ∃ p',
      p.selectWorker .random .first 20 twoWorkers (withKey "k") =
        some ((some 1, .occupiedHit), p') ∧ Sticks "k" "a" p' := by
  obtain ⟨p, hrun, hevicted⟩ : ∃ p, Reachable.runAll (run .random) firstKey otherKey = some p ∧
      (p.routingMap.lookup "j").isNone = true := Option.map_eq_some_iff.mp (by decide +kernel)
  have hreach : Reachable (Sticks "k" "a") (Serves "k" "a") (run .random) p :=
    .of_permitted (s := firstKey) _ (by decide +kernel)
      (.start ⟨_, Finmap.lookup_insert _, rfl⟩) hrun
  refine ⟨p, hrun, hevicted, sticky hreach ?_ ?_ ?_ _ _⟩ <;> decide +kernel

end ManualPolicy

end Sglang.Gateway
