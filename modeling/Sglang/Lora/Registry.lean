import Mathlib.Data.Multiset.Bind
import Mathlib.Data.Finset.Erase
import Mathlib.Data.Finset.Insert
import Sglang.Support.Reachable

/-!
# The LoRA registry

A request acquires its adapters by name: the ids are looked up under the writer lock and counted
after it is released. An unload takes the name away, waits for the count to reach zero and
goes on. The event loop switches tasks in a list call, between the lookups and the counter updates
that `asyncio.gather` runs, and nowhere else: a writer lock, once free, and a counter are never
waited for.
-/

namespace Sglang.Lora

open Sglang.Support Function Multiset Option

/-- A call suspended in `asyncio.gather`. -/
inductive Task (ι : Type*) where
  /-- The ids already counted, and those to count. -/
  | acquire (done todo : List ι)
  /-- The reader lock is held; these ids are still to be given back. -/
  | release (todo : List ι)
  deriving DecidableEq

/-- The registry with everything that runs on it. -/
structure LoRARegistry (ν ι : Type*) where
  registry : ν → Option ι := fun _ => none
  counters : ι → Option ℤ := fun _ => none
  tasks : Multiset (Task ι) := 0
  /-- What acquire calls have returned and no release call has given back. -/
  outstanding : Multiset ι := 0
  /-- Ids in `wait_for_unload`. -/
  unloading : Finset ι := ∅
  unloaded : Finset ι := ∅
  /-- A call has raised a `KeyError` or failed an assertion. -/
  failed : Bool := false

inductive RegistryAct (ν ι : Type*) where
  | register (loraName : ν) (loraId : ι)
  | unregister (loraName : ν)
  | unload (loraId : ι)
  | acquire (loraName : ν)
  | acquireList (loraNames : List (Option ν))
  | release (loraId : ι)
  | releaseList (loraIds : List ι)
  /-- A task of a gather, or its caller after the last one, gets its turn. -/
  | resume (task : Task ι)

variable {ν ι : Type*} [DecidableEq ι]

/-- The ids that are counted for the call. -/
def Task.owes : Task ι → Multiset ι
  | .acquire done _ => done
  | .release todo => todo

/-- The ids that the call has yet to count. -/
def Task.uncounted : Task ι → List ι
  | .acquire _ todo => todo
  | .release _ => []

def Task.isReader : Task ι → Bool
  | .acquire _ _ => false
  | .release _ => true

namespace LoRARegistry

variable (s : LoRARegistry ν ι)

/-- A counter update; one on a counter that has left the table changes nothing in it. -/
def add (loraId : ι) (n : ℤ) : LoRARegistry ν ι :=
  { s with counters := update s.counters loraId ((s.counters loraId).map (· + n)) }

def fail : LoRARegistry ν ι := { s with failed := true }

/-- No reader holds the registry lock. -/
def WriterFree : Prop := ∀ t ∈ s.tasks, t.isReader = false

instance : Decidable s.WriterFree := inferInstanceAs (Decidable (∀ t ∈ s.tasks, _))

/-- `_lookup`; a list may hold `None`. -/
def lookup : Option ν → Option (Option ι)
  | none => some none
  | some loraName => (s.registry loraName).map some

def register [DecidableEq ν] (loraName : ν) (loraId : ι) : LoRARegistry ν ι :=
  match s.registry loraName with
  | some _ => s
  | none => { s with
      registry := update s.registry loraName (some loraId)
      counters := update s.counters loraId (some 0) }

/-- `unregister`, and `wait_for_unload` up to its wait. -/
def unregister [DecidableEq ν] (loraName : ν) : LoRARegistry ν ι :=
  match s.registry loraName with
  | none => s
  | some loraId =>
    if (s.counters loraId).isSome then { s with
      registry := update s.registry loraName none
      unloading := insert loraId s.unloading }
    else s.fail

/-- `wait_for_unload` from the end of its wait on. -/
def unload (loraId : ι) : Option (LoRARegistry ν ι) :=
  if loraId ∈ s.unloading ∧ s.counters loraId = some 0 then some { s with
    counters := update s.counters loraId none
    unloading := s.unloading.erase loraId
    unloaded := insert loraId s.unloaded }
  else none

def acquire (loraName : ν) : LoRARegistry ν ι :=
  match s.registry loraName with
  | none => s
  | some loraId =>
    if (s.counters loraId).isSome then
      { s.add loraId 1 with outstanding := loraId ::ₘ s.outstanding }
    else s.fail

def acquireList (loraNames : List (Option ν)) : LoRARegistry ν ι :=
  match loraNames.mapM s.lookup with
  | none => s
  | some loraIds =>
    let loraIds := loraIds.filterMap id
    if ∀ loraId ∈ loraIds, (s.counters loraId).isSome then
      { s with tasks := .acquire [] loraIds ::ₘ s.tasks }
    else s.fail

def release (loraId : ι) : LoRARegistry ν ι :=
  let s := { s with outstanding := s.outstanding.erase loraId }
  if (s.counters loraId).isSome then s.add loraId (-1) else s.fail

def releaseList (loraIds : List ι) : LoRARegistry ν ι :=
  let s := { s with outstanding := s.outstanding - loraIds }
  if ∀ loraId ∈ loraIds, (s.counters loraId).isSome then
    { s with tasks := .release loraIds ::ₘ s.tasks }
  else s.fail

def resume (task : Task ι) : LoRARegistry ν ι :=
  let s := { s with tasks := s.tasks.erase task }
  match task with
  | .acquire done (loraId :: todo) =>
    { s.add loraId 1 with tasks := .acquire (loraId :: done) todo ::ₘ s.tasks }
  | .acquire done [] => { s with outstanding := done + s.outstanding }
  | .release (loraId :: todo) => { s.add loraId (-1) with tasks := .release todo ::ₘ s.tasks }
  | .release [] => s

def run [DecidableEq ν] (s : LoRARegistry ν ι) : RegistryAct ν ι → Option (LoRARegistry ν ι)
  | .register loraName loraId =>
    -- a `LoRARef` has an id of its own
    if s.WriterFree ∧ s.counters loraId = none ∧ loraId ∉ s.unloaded then
      some (s.register loraName loraId)
    else none
  | .unregister loraName => if s.WriterFree then some (s.unregister loraName) else none
  | .unload loraId => s.unload loraId
  | .acquire loraName => if s.WriterFree then some (s.acquire loraName) else none
  | .acquireList loraNames => if s.WriterFree then some (s.acquireList loraNames) else none
  | .release loraId => if loraId ∈ s.outstanding then some (s.release loraId) else none
  | .releaseList loraIds =>
    if (loraIds : Multiset ι) ≤ s.outstanding then some (s.releaseList loraIds) else none
  | .resume task => if task ∈ s.tasks then some (s.resume task) else none

/-- No call fails, and an id that a request holds is counted for it and is not unloaded. -/
structure Safe : Prop where
  failed : s.failed = false
  outstanding : ∀ loraId ∈ s.outstanding, loraId ∉ s.unloaded ∧
    ∃ c : ℤ, s.counters loraId = some c ∧ s.outstanding.count loraId ≤ c

/-- An unload that goes on finds no list call between the lookup and the count of its id. -/
def Undisturbed (s : LoRARegistry ν ι) : RegistryAct ν ι → Prop
  | .unload loraId => ∀ t ∈ s.tasks, loraId ∉ t.uncounted
  | _ => True

/-- Every id that is counted, as often as it is. -/
def counted : Multiset ι := s.outstanding + s.tasks.bind Task.owes

structure Inv : Prop where
  failed : s.failed = false
  counters : ∀ i c, s.counters i = some c → c = s.counted.count i
  counted : ∀ i ∈ s.counted, s.counters i ≠ none
  uncounted : ∀ t ∈ s.tasks, ∀ i ∈ t.uncounted, s.counters i ≠ none
  registered : ∀ n i, s.registry n = some i → s.counters i ≠ none
  unloading : ∀ i ∈ s.unloading, s.counters i ≠ none
  unloaded : ∀ i ∈ s.unloaded, s.counters i = none
  /-- A name on its way out is no longer in the registry, and no other name has its id. -/
  unnamed : ∀ i ∈ s.unloading, ∀ n, s.registry n ≠ some i
  named_unique : ∀ n m i, s.registry n = some i → s.registry m = some i → n = m

variable {s}

/-- Calls move ids around without counting any. -/
theorem Inv.shift (I : s.Inv) {tasks : Multiset (Task ι)} {outstanding : Multiset ι}
    (hcounted : outstanding + tasks.bind Task.owes = s.counted)
    (huncounted : ∀ t ∈ tasks, ∀ i ∈ t.uncounted, s.counters i ≠ none) :
    Inv { s with tasks, outstanding } :=
  { I with
    counters := fun i c h => (I.counters i c h).trans (by rw [← hcounted]; rfl)
    counted := fun i h => I.counted i (hcounted ▸ h)
    uncounted := huncounted }

/-- One id is counted once more, or once less. -/
theorem Inv.add (I : s.Inv) {tasks : Multiset (Task ι)} {outstanding : Multiset ι} {j : ι} {n : ℤ}
    (hj : s.counters j ≠ none)
    (hcounted : n = 1 ∧ outstanding + tasks.bind Task.owes = j ::ₘ s.counted ∨
      n = -1 ∧ s.counted = j ::ₘ (outstanding + tasks.bind Task.owes))
    (huncounted : ∀ t ∈ tasks, ∀ i ∈ t.uncounted, s.counters i ≠ none) :
    Inv { s.add j n with tasks, outstanding } := by
  have hnone : ∀ i, (s.add j n).counters i = none ↔ s.counters i = none := by
    intro i
    by_cases hi : i = j <;> simp [LoRARegistry.add, hi]
  have hcount : ∀ i, ((outstanding + tasks.bind Task.owes).count i : ℤ) =
      s.counted.count i + if i = j then n else 0 := by
    intro i
    rcases hcounted with ⟨rfl, h⟩ | ⟨rfl, h⟩ <;> rw [h, count_cons] <;> split <;> omega
  refine
    { I with
      counters := fun i c h => ?_
      counted := fun i h => (hnone i).not.mpr ?_
      uncounted := fun t ht i hi => (hnone i).not.mpr (huncounted t ht i hi)
      registered := fun n i h => (hnone i).not.mpr (I.registered n i h)
      unloading := fun i h => (hnone i).not.mpr (I.unloading i h)
      unloaded := fun i h => (hnone i).mpr (I.unloaded i h) }
  · refine Eq.trans ?_ (hcount i).symm
    simp only [LoRARegistry.add, update_apply] at h
    split at h
    next hi =>
      obtain ⟨c, hc, rfl⟩ := map_eq_some_iff.mp h
      rw [hi, if_pos rfl, I.counters j c hc]
    next hi => rw [if_neg hi, add_zero, I.counters i c h]
  · rcases hcounted with ⟨-, hc⟩ | ⟨-, hc⟩
    · rcases mem_cons.mp (hc ▸ h : i ∈ j ::ₘ s.counted) with rfl | h
      · exact hj
      · exact I.counted i h
    · exact I.counted i (hc ▸ mem_cons_of_mem h)

theorem Inv.register [DecidableEq ν] (I : s.Inv) (n : ν) {i : ι} (hfresh : s.counters i = none)
    (hnew : i ∉ s.unloaded) : (s.register n i).Inv := by
  obtain ⟨h1, h2, h3, h4, h5, h6, h7, h8, h9⟩ := I
  rw [LoRARegistry.register]
  split
  · constructor <;> assumption
  have hzero : s.counted.count i = 0 := count_eq_zero.mpr fun h => h3 i h hfresh
  constructor <;> simp only [update_apply] <;> grind [LoRARegistry.counted]

theorem Inv.unregister [DecidableEq ν] (I : s.Inv) (n : ν) : (s.unregister n).Inv := by
  rw [LoRARegistry.unregister]
  split
  · exact I
  next i hi =>
    rw [if_pos (isSome_iff_ne_none.mpr (I.registered n i hi))]
    have hold : ∀ m j, update s.registry n none m = some j → m ≠ n ∧ s.registry m = some j := by
      intro m j h
      by_cases hm : m = n <;> simp_all
    exact
      { I with
        registered := fun m j h => I.registered m j (hold m j h).2
        unloading := Finset.forall_mem_insert .. |>.mpr ⟨I.registered n i hi, I.unloading⟩
        unnamed := Finset.forall_mem_insert .. |>.mpr
          ⟨fun m h => (hold m i h).1 (I.named_unique m n i (hold m i h).2 hi),
            fun j hj m h => I.unnamed j hj m (hold m j h).2⟩
        named_unique := fun m k j hm hk => I.named_unique m k j (hold m j hm).2 (hold k j hk).2 }

theorem Inv.unload {s' : LoRARegistry ν ι} (I : s.Inv) {i : ι}
    (hquiet : ∀ t ∈ s.tasks, i ∉ t.uncounted) (h : s.unload i = some s') : s'.Inv := by
  rw [LoRARegistry.unload] at h
  split at h
  next hi =>
    obtain rfl := some.inj h
    have hzero : i ∉ s.counted := count_eq_zero.mp (by simpa using (I.counters i 0 hi.2).symm)
    have hkeep : ∀ j, j ≠ i → s.counters j ≠ none → update s.counters i none j ≠ none :=
      fun j hne h => by rwa [update_of_ne hne]
    refine
      { I with
        counters := fun j c h => I.counters j c ?_
        counted := fun j hj => hkeep j (fun h => hzero (h ▸ hj)) (I.counted j hj)
        uncounted := fun t ht j hj =>
          hkeep j (fun h => hquiet t ht (h ▸ hj)) (I.uncounted t ht j hj)
        registered := fun n j h =>
          hkeep j (fun hj => I.unnamed i hi.1 n (hj ▸ h)) (I.registered n j h)
        unloading := fun j hj => ?_
        unloaded := Finset.forall_mem_insert .. |>.mpr ⟨update_self .., fun j hj => ?_⟩
        unnamed := fun j hj => I.unnamed j (Finset.mem_of_mem_erase hj) }
    · by_cases hj : j = i <;> simp_all
    · obtain ⟨hne, hj⟩ := Finset.mem_erase.mp hj
      exact hkeep j hne (I.unloading j hj)
    · have hj := I.unloaded j hj
      have hne : j ≠ i := by
        rintro rfl
        exact I.unloading j hi.1 hj
      exact (update_of_ne hne ..).trans hj
  next => cases h

theorem Inv.acquire (I : s.Inv) (n : ν) : (s.acquire n).Inv := by
  rw [LoRARegistry.acquire]
  split
  · exact I
  next i hi =>
    have hi := I.registered n i hi
    rw [if_pos (isSome_iff_ne_none.mpr hi)]
    exact I.add hi (Or.inl ⟨rfl, cons_add ..⟩) I.uncounted

omit [DecidableEq ι] in
theorem exists_name_of_mem_lookup {names : List (Option ν)} {ids : List (Option ι)}
    (h : names.mapM s.lookup = some ids) {i : ι} (hi : some i ∈ ids) :
    ∃ n, s.registry n = some i := by
  induction names generalizing ids with
  | nil =>
    cases h
    cases hi
  | cons name names ih =>
    rw [List.mapM_cons] at h
    obtain ⟨o, ho, h⟩ := bind_eq_some_iff.mp h
    obtain ⟨rest, hrest, h⟩ := bind_eq_some_iff.mp h
    cases h
    rcases List.mem_cons.mp hi with rfl | hi
    · cases name with
      | none => cases ho
      | some n =>
        obtain ⟨j, hj, h⟩ := map_eq_some_iff.mp ho
        cases h
        exact ⟨n, hj⟩
    · exact ih hrest hi

theorem Inv.acquireList (I : s.Inv) (names : List (Option ν)) : (s.acquireList names).Inv := by
  rw [LoRARegistry.acquireList]
  split
  · exact I
  next ids hids =>
    have hsome : ∀ i ∈ ids.filterMap id, s.counters i ≠ none := by
      intro i hi
      obtain ⟨n, hn⟩ := exists_name_of_mem_lookup hids (by simpa using hi)
      exact I.registered n i hn
    rw [if_pos fun i hi => isSome_iff_ne_none.mpr (hsome i hi)]
    refine I.shift (by simp [Task.owes, LoRARegistry.counted]) ?_
    exact forall_mem_cons.mpr ⟨hsome, I.uncounted⟩

theorem Inv.release (I : s.Inv) {i : ι} (hi : i ∈ s.outstanding) : (s.release i).Inv := by
  have hsome := I.counted i (mem_add.mpr (Or.inl hi))
  rw [LoRARegistry.release, if_pos (isSome_iff_ne_none.mpr hsome)]
  refine I.add hsome (Or.inr ⟨rfl, ?_⟩) I.uncounted
  rw [← cons_add, cons_erase hi]
  rfl

theorem Inv.releaseList (I : s.Inv) {ids : List ι} (hle : (ids : Multiset ι) ≤ s.outstanding) :
    (s.releaseList ids).Inv := by
  have hsome : ∀ i ∈ ids, s.counters i ≠ none := fun i hi =>
    I.counted i (mem_add.mpr (Or.inl (mem_of_le hle hi)))
  rw [LoRARegistry.releaseList, if_pos fun i hi => isSome_iff_ne_none.mpr (hsome i hi)]
  refine I.shift ?_ (forall_mem_cons.mpr ⟨nofun, I.uncounted⟩)
  rw [cons_bind, ← add_assoc, Task.owes, tsub_add_cancel_of_le hle, LoRARegistry.counted]

theorem Inv.resume (I : s.Inv) {task : Task ι} (h : task ∈ s.tasks) : (s.resume task).Inv := by
  have hcounted : s.counted =
      s.outstanding + (task.owes + (s.tasks.erase task).bind Task.owes) := by
    rw [LoRARegistry.counted, ← cons_bind, cons_erase h]
  have hrest : ∀ t ∈ s.tasks.erase task, ∀ i ∈ t.uncounted, s.counters i ≠ none := fun t ht =>
    I.uncounted t (mem_of_mem_erase ht)
  unfold LoRARegistry.resume
  split
  next done i todo =>
    have huncounted := I.uncounted _ h
    refine I.add (huncounted i List.mem_cons_self) (Or.inl ⟨rfl, ?_⟩)
      (forall_mem_cons.mpr ⟨fun j hj => huncounted j (List.mem_cons_of_mem i hj), hrest⟩)
    rw [hcounted, cons_bind]
    simp only [Task.owes, ← cons_coe, cons_add, add_cons]
    rfl
  next done =>
    refine I.shift ?_ hrest
    rw [hcounted, Task.owes, add_left_comm, add_assoc]
  next i todo =>
    have hcons : s.counted = i ::ₘ (s.outstanding +
        (Task.release todo ::ₘ s.tasks.erase (.release (i :: todo))).bind Task.owes) := by
      rw [hcounted, cons_bind]
      simp [Task.owes, ← cons_coe]
    exact I.add (I.counted i (hcons ▸ mem_cons_self i _)) (Or.inr ⟨rfl, hcons⟩)
      (forall_mem_cons.mpr ⟨nofun, hrest⟩)
  next =>
    refine I.shift ?_ hrest
    rw [hcounted, Task.owes, coe_nil, zero_add]

theorem Inv.run [DecidableEq ν] {s' : LoRARegistry ν ι} {a : RegistryAct ν ι}
    (I : s.Inv) (hok : s.Undisturbed a)
    (h : s.run a = some s') : s'.Inv := by
  cases a with
  | unload i => exact I.unload hok h
  | register n i =>
    obtain ⟨⟨-, hfresh, hnew⟩, ⟨⟩⟩ := ite_none_right_eq_some.mp h
    exact I.register n hfresh hnew
  | unregister n =>
    obtain ⟨-, ⟨⟩⟩ := ite_none_right_eq_some.mp h
    exact I.unregister n
  | acquire n =>
    obtain ⟨-, ⟨⟩⟩ := ite_none_right_eq_some.mp h
    exact I.acquire n
  | acquireList names =>
    obtain ⟨-, ⟨⟩⟩ := ite_none_right_eq_some.mp h
    exact I.acquireList names
  | release i =>
    obtain ⟨hi, ⟨⟩⟩ := ite_none_right_eq_some.mp h
    exact I.release hi
  | releaseList ids =>
    obtain ⟨hle, ⟨⟩⟩ := ite_none_right_eq_some.mp h
    exact I.releaseList hle
  | resume task =>
    obtain ⟨hmem, ⟨⟩⟩ := ite_none_right_eq_some.mp h
    exact I.resume hmem

/-- A run in which no unload overtakes a list call is safe. -/
theorem safe_of_undisturbed [DecidableEq ν]
    (h : Reachable (fun s : LoRARegistry ν ι => s = {}) Undisturbed run s) : s.Safe := by
  have I : s.Inv := by
    refine Reachable.invariant ?_ (fun a I hok h => I.run hok h) h
    rintro _ rfl
    constructor <;> simp [counted]
  refine ⟨I.failed, fun i hi => ?_⟩
  have hmem : i ∈ s.counted := mem_add.mpr (Or.inl hi)
  obtain ⟨c, hc⟩ := ne_none_iff_exists'.mp (I.counted i hmem)
  refine ⟨fun h => I.counted i hmem (I.unloaded i h), c, hc, ?_⟩
  rw [I.counters i c hc, counted, count_add]
  omega

/-- A list call that is overtaken returns an id that is already unloaded. -/
theorem not_safe_overtaken : ∃ s : LoRARegistry ℕ ℕ,
    Reachable (fun s => s = {}) (fun _ _ => True) run s ∧ ¬s.Safe := by
  refine ⟨_, .of_runAll [.register 0 0, .acquireList [some 0], .unregister 0, .unload 0,
    .resume (.acquire [] [0]), .resume (.acquire [0] []), .release 0] (fun _ _ _ => trivial)
    (.start rfl) rfl, fun h => ?_⟩
  exact absurd h.failed (by decide)

theorem safe_of_undisturbed_listed : ∃ s : LoRARegistry ℕ ℕ,
    Reachable (fun s => s = {}) Undisturbed run s ∧ s.outstanding = {0} ∧
      s.unloaded = {1} ∧ s.Safe := by
  obtain ⟨s, hreach, hheld, hgone⟩ : ∃ s : LoRARegistry ℕ ℕ,
      Reachable (fun s => s = {}) Undisturbed run s ∧ s.outstanding = {0} ∧ s.unloaded = {1} := by
    refine ⟨_, .of_permitted [.register 0 0, .register 1 1, .acquireList [some 0], .unregister 1,
      .resume (.acquire [] [0]), .unload 1, .resume (.acquire [0] [])]
      ?_ (.start rfl) rfl, rfl, rfl⟩
    have hquiet : ∀ t ∈ ({.acquire [0] []} : Multiset (Task ℕ)), 1 ∉ t.uncounted := by decide
    exact ⟨trivial, trivial, trivial, trivial, trivial, hquiet, trivial, trivial⟩
  exact ⟨s, hreach, hheld, hgone, safe_of_undisturbed hreach⟩

end LoRARegistry

end Sglang.Lora
