import Mathlib.Data.List.Sort
import Sglang.Gateway.CharText
import Sglang.Support.Dict

/-!
# Workers and hash rings

What the gateway knows of a worker, and the ring of virtual nodes it builds from a list of
workers. BLAKE3 is an arbitrary function of bytes, and `sort_unstable_by_key` an arbitrary
way to order by position.
-/

namespace Sglang.Gateway

open Sglang.Support

inductive WorkerType where
  | regular
  | prefill (bootstrapPort : Option UInt16)
  | decode
  deriving DecidableEq

inductive ConnectionMode where
  | http
  | grpc (port : Option UInt16)
  deriving DecidableEq

inductive RuntimeType where
  | sglang
  | vllm
  | external
  deriving DecidableEq

structure HealthConfig where
  timeoutSecs : ℕ := 5
  checkIntervalSecs : ℕ := 30
  endpoint : String := "/health"
  failureThreshold : ℕ := 3
  successThreshold : ℕ := 2
  disableHealthCheck : Bool := false
  deriving DecidableEq

/-- The rank of a worker in a data-parallel group behind one URL. -/
structure DpInfo where
  baseUrl : String
  dpRank : ℕ
  dpSize : ℕ
  deriving DecidableEq

def DpInfo.workerUrl (d : DpInfo) : String := d.baseUrl ++ "@" ++ toString d.dpRank

/-- `WorkerMetadata`, with the ids of the model cards. -/
structure Worker where
  url : String
  apiKey : Option String := none
  workerType : WorkerType := .regular
  connectionMode : ConnectionMode := .http
  runtimeType : RuntimeType := .sglang
  labels : Dict String String := ∅
  healthConfig : HealthConfig := {}
  models : List String := []
  dp : Option DpInfo := none
  dp_url : ∀ d, dp = some d → url = d.workerUrl := by simp
  deriving DecidableEq

/-- `UNKNOWN_MODEL_ID` -/
def unknownModelId : String := "unknown"

def Worker.modelId (w : Worker) : String :=
  (w.models.head? <|> w.labels.lookup "model_id").getD unknownModelId

def normalizeModelKey (modelId : String) : String :=
  if modelId.isEmpty then unknownModelId else modelId

/-! ## The ring -/

/-- A way to hash and to order the virtual nodes. -/
structure RingOps where
  blake3 : List UInt8 → Vector UInt8 32
  sortUnstable : List (UInt64 × String) → List (UInt64 × String)
  perm : ∀ l, (sortUnstable l).Perm l
  sorted : ∀ l, (sortUnstable l).Pairwise fun a b => a.1 ≤ b.1

/-- `u64::to_le_bytes` -/
def u64LeBytes (n : UInt64) : List UInt8 :=
  (List.range 8).map fun i => (n >>> (8 * UInt64.ofNat i)).toUInt8

/-- `u64::from_le_bytes` -/
def u64OfLeBytes (bs : List UInt8) : UInt64 := bs.foldr (fun b acc => acc <<< 8 ||| b.toUInt64) 0

def virtualNodesPerWorker : ℕ := 150

structure HashRing where
  entries : List (UInt64 × String)

namespace HashRing

variable (R : RingOps)

/-- The first eight bytes of the hash. -/
def position (bs : List UInt8) : UInt64 := u64OfLeBytes ((R.blake3 bs).toList.take 8)

/-- The virtual nodes of one worker. -/
def virtualNodes (url : String) : List (UInt64 × String) :=
  (List.range virtualNodesPerWorker).map fun vnode =>
    (position R (bytes url.toList ++ bytes ['#'] ++ u64LeBytes (UInt64.ofNat vnode)), url)

def new (workers : List Worker) : HashRing :=
  ⟨R.sortUnstable (workers.flatMap fun w => virtualNodes R w.url)⟩

/-- The walk over the entries from an index on, past the URLs already checked. -/
def findLoop (isHealthy : String → Bool) : List String → Finset String → Option String
  | [], _ => none
  | url :: rest, checked =>
    if url ∈ checked then findLoop isHealthy rest checked
    else if isHealthy url then some url
    else findLoop isHealthy rest (insert url checked)

/-- The first healthy URL clockwise from the position of the key. -/
def findHealthyUrl (ring : HashRing) (key : String) (isHealthy : String → Bool) :
    Option String :=
  let keyPos := position R (bytes key.toList)
  let start := (ring.entries.takeWhile fun e => e.1 < keyPos).length
  findLoop isHealthy ((ring.entries.rotate start).map Prod.snd) ∅

variable {isHealthy : String → Bool}

/-- A URL is checked again only where that changes nothing. -/
theorem findLoop_eq (urls : List String) {checked : Finset String}
    (h : ∀ url ∈ checked, isHealthy url = false) :
    findLoop isHealthy urls checked = urls.find? isHealthy := by
  induction urls generalizing checked with
  | nil => rfl
  | cons url rest ih => grind [findLoop]

/-- A key has a worker as long as one is healthy, and moves only when its own worker fails. -/
theorem findHealthyUrl_stable (R : RingOps) (ring : HashRing) (key : String)
    (isHealthy : String → Bool) :
    (ring.findHealthyUrl R key isHealthy = none ↔ ∀ e ∈ ring.entries, isHealthy e.2 = false) ∧
      ∀ stillHealthy : String → Bool, (∀ url, stillHealthy url = true → isHealthy url = true) →
        (∀ url, ring.findHealthyUrl R key isHealthy = some url → stillHealthy url = true) →
        ring.findHealthyUrl R key stillHealthy = ring.findHealthyUrl R key isHealthy := by
  have hfind : ∀ p, ring.findHealthyUrl R key p = _ := fun p => findLoop_eq _ (by simp)
  simp only [hfind]
  constructor
  · rw [List.find?_eq_none, List.forall_mem_map]
    simp only [List.mem_rotate, Bool.not_eq_true]
  · intro stillHealthy hfewer hserved
    generalize (ring.entries.rotate _).map Prod.snd = urls at hserved ⊢
    induction urls with
    | nil => rfl
    | cons url urls ih => grind

end HashRing

end Sglang.Gateway
