import Sglang.Gateway.Worker

/-!
# What the selection policies share

A slice of workers as a policy sees it during one call, the healthy indices, the randomness
and the floating-point arithmetic of the gateway. Draws are arbitrary numbers in range,
and floating-point operations are arbitrary functions.
-/

namespace Sglang.Gateway

open Sglang.Support List

/-- A worker with the state a call reads: its health flag, whether its circuit breaker admits
requests, its running requests and its active routing keys. -/
structure LiveWorker extends Worker where
  isHealthy : Bool
  canExecute : Bool
  load : ℕ := 0
  routingKeyLoad : ℕ := 0

def LiveWorker.isAvailable (w : LiveWorker) : Bool := w.isHealthy && w.canExecute

/-- `headers` holds the header values that are text. -/
structure SelectWorkerInfo where
  requestText : Option (List Char) := none
  tokens : Option (List UInt32) := none
  headers : Option (Dict String String) := none
  hashRing : Option HashRing := none

def getHealthyWorkerIndices (workers : List LiveWorker) : List ℕ :=
  (workers.zipIdx.filter fun p => p.1.isAvailable).map Prod.snd

variable {workers : List LiveWorker}

theorem mem_getHealthyWorkerIndices {i : ℕ} : i ∈ getHealthyWorkerIndices workers ↔
      ∃ w, workers[i]? = some w ∧ w.isAvailable = true := by
  rw [getHealthyWorkerIndices, mem_map]
  constructor
  · rintro ⟨⟨w, j⟩, hmem, rfl⟩
    obtain ⟨hmem, havail⟩ := mem_filter.mp hmem
    exact ⟨w, mem_zipIdx_iff_getElem?.mp hmem, havail⟩
  · rintro ⟨w, hw, havail⟩
    exact ⟨(w, i), mem_filter.mpr ⟨mem_zipIdx_iff_getElem?.mpr hw, havail⟩, rfl⟩

theorem getHealthyWorkerIndices_ne_nil :
    getHealthyWorkerIndices workers ≠ [] ↔ ∃ w ∈ workers, w.isAvailable = true := by
  constructor
  · intro hne
    obtain ⟨i, hi⟩ := exists_mem_of_ne_nil _ hne
    obtain ⟨w, hw, havail⟩ := mem_getHealthyWorkerIndices.mp hi
    exact ⟨w, mem_of_getElem? hw, havail⟩
  · rintro ⟨w, hw, havail⟩
    obtain ⟨i, hi⟩ := List.getElem?_of_mem hw
    exact ne_nil_of_mem (mem_getHealthyWorkerIndices.mpr ⟨w, hi, havail⟩)

/-- `rng.random_range(0..n)` -/
structure Rng where
  draw : ℕ → ℕ
  draw_lt : ∀ {n}, 0 < n → draw n < n

namespace Rng

/-- A random element, if there is any. -/
def choose {α : Type} (rng : Rng) (l : List α) : Option α := l[rng.draw l.length]?

theorem choose_of_ne_nil {α : Type} (rng : Rng) {l : List α} (h : l ≠ []) :
    ∃ a ∈ l, rng.choose l = some a := by
  have hlt := rng.draw_lt (length_pos_iff.mpr h)
  exact ⟨l[rng.draw l.length], getElem_mem hlt, List.getElem?_eq_getElem hlt⟩

/-- The first element. -/
def first : Rng := ⟨fun _ => 0, id⟩

end Rng

/-- Arithmetic of `f32` or `f64`. -/
structure FloatOps (F : Type) where
  ofNat : ℕ → F
  mul : F → F → F
  div : F → F → F
  lt : F → F → Bool
  le : F → F → Bool

/-- `iter().min_by_key(key)`: the first element with the least key. -/
def minByKey {α β : Type} [LinearOrder β] (key : α → β) : List α → Option α
  | [] => none
  | a :: l => some (l.foldl (fun best b => if key b < key best then b else best) a)

theorem foldl_min_spec {α β : Type} [LinearOrder β] (key : α → β) (l : List α) (a : α) :
    let best := l.foldl (fun best b => if key b < key best then b else best) a
    best ∈ a :: l ∧ ∀ b ∈ a :: l, key best ≤ key b := by
  induction l generalizing a with
  | nil => simp
  | cons b l ih =>
    rw [foldl_cons]
    obtain ⟨hmem, hle⟩ := ih (if key b < key a then b else a)
    refine ⟨?_, fun c hc => ?_⟩
    · rcases mem_cons.mp hmem with heq | hl
      · rw [heq]
        split <;> simp
      · exact mem_cons_of_mem _ (mem_cons_of_mem _ hl)
    · have hstart := hle _ mem_cons_self
      rcases mem_cons.mp hc with rfl | hc
      · refine hstart.trans ?_
        split
        · rename_i hlt
          exact hlt.le
        · exact le_refl _
      · rcases mem_cons.mp hc with rfl | hc
        · refine hstart.trans ?_
          split
          · exact le_refl _
          · rename_i hlt
            exact not_lt.mp hlt
        · exact hle c (mem_cons_of_mem _ hc)

theorem minByKey_of_ne_nil {α β : Type} [LinearOrder β] (key : α → β) {l : List α}
    (h : l ≠ []) : ∃ a ∈ l, minByKey key l = some a ∧ ∀ b ∈ l, key a ≤ key b := by
  cases l with
  | nil => exact absurd rfl h
  | cons a l =>
    obtain ⟨hmem, hle⟩ := foldl_min_spec key l a
    exact ⟨_, hmem, rfl, hle⟩

/-- `workers.iter().position(|w| w.url() == url)` -/
def positionByUrl (workers : List LiveWorker) (url : String) : Option ℕ :=
  workers.findIdx? fun w => w.url = url

/-- A result names a worker of the slice that is healthy. -/
def NamesHealthy (workers : List LiveWorker) (result : Option ℕ) : Prop :=
  ∃ i w, result = some i ∧ workers[i]? = some w ∧ w.isHealthy = true

theorem namesHealthy_of_mem {i : ℕ}
    (h : i ∈ getHealthyWorkerIndices workers) : NamesHealthy workers (some i) := by
  obtain ⟨w, hw, havail⟩ := mem_getHealthyWorkerIndices.mp h
  exact ⟨i, w, rfl, hw, (Bool.and_eq_true_iff.mp havail).1⟩

/-- The first worker with the URL is healthy. -/
def HealthyUrl (workers : List LiveWorker) (url : String) : Prop :=
  NamesHealthy workers (positionByUrl workers url)

end Sglang.Gateway
