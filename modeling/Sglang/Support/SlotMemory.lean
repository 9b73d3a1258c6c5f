import Mathlib.Data.List.Flatten
import Sglang.Support.Table

/-!
# Memory addressed by slots

A slot occupies a list of cells of a flat memory. Reading a slot lists the
values of its cells, writing one assigns them, and a bulk copy gathers the
cells of all source slots before it scatters them into the destination slots,
so that sources and destinations may overlap.
-/

namespace Sglang.Support

open List

variable {ι α β γ : Type*} {cells : ι → List α} {mem : α → β} {i : ι} {n : ℕ} {a : α}

def readSlot (cells : ι → List α) (mem : α → β) (i : ι) : List β := (cells i).map mem

theorem readSlot_congr {mem' : α → β} (h : ∀ x ∈ cells i, mem x = mem' x) :
    readSlot cells mem i = readSlot cells mem' i :=
  map_congr_left h

/-- Equal lists of values from a pointwise statement on the zipped indices. -/
theorem map_eq_map_of_zip {is : List α} {js : List γ} {f : α → β} {g : γ → β}
    (hlen : is.length = js.length)
    (h : ∀ i j, (i, j) ∈ is.zip js → f i = g j) : is.map f = js.map g := by
  induction is generalizing js with
  | nil =>
    cases js with
    | nil => rfl
    | cons j js => simp at hlen
  | cons i is ih =>
    cases js with
    | nil => simp at hlen
    | cons j js =>
      simp only [map_cons]
      rw [h i j (by simp), ih (by simpa using hlen) fun i' j' hmem => h i' j' (by simp [hmem])]

theorem mem_zip_flatMap (hlen : ∀ i, (cells i).length = n)
    {is js : List ι} {j : ι} {x y : α} (hij : (i, j) ∈ is.zip js)
    (hxy : (x, y) ∈ (cells i).zip (cells j)) :
    (x, y) ∈ (is.flatMap cells).zip (js.flatMap cells) := by
  induction is generalizing js with
  | nil => simp at hij
  | cons k is ih =>
    cases js with
    | nil => simp at hij
    | cons l js =>
      rw [flatMap_cons, flatMap_cons, zip_append (by rw [hlen, hlen]), mem_append]
      rw [zip_cons_cons, mem_cons] at hij
      rcases hij with heq | hij
      · obtain ⟨rfl, rfl⟩ := Prod.mk.inj heq
        exact Or.inl hxy
      · exact Or.inr (ih hij)

/-- The cells of distinct slots do not meet. -/
structure DisjointSlots (cells : ι → List α) (n : ℕ) : Prop where
  length_eq : ∀ i, (cells i).length = n
  nodup : ∀ i, (cells i).Nodup
  disjoint : ∀ i j, i ≠ j → List.Disjoint (cells i) (cells j)

theorem DisjointSlots.nodup_flatMap (h : DisjointSlots cells n)
    {is : List ι} (his : is.Nodup) : (is.flatMap cells).Nodup := by
  rw [List.nodup_flatMap]
  refine ⟨fun i _ => h.nodup i, ?_⟩
  exact his.imp fun {i j} hne => h.disjoint i j hne

theorem DisjointSlots.eq_of_mem (h : DisjointSlots cells n) {j : ι}
    (hi : a ∈ cells i) (hj : a ∈ cells j) : i = j := by
  by_contra hne
  exact h.disjoint i j hne hi hj

variable [DecidableEq α]

def writeSlot (cells : ι → List α) (mem : α → β) (i : ι) (x : List β) : α → β :=
  scatter mem (cells i) x

/-- Simultaneous copy of the slots `srcs` to the slots `dsts`. -/
def copySlots (cells : ι → List α) (mem : α → β) (dsts srcs : List ι) : α → β :=
  scatter mem (dsts.flatMap cells) ((srcs.flatMap cells).map mem)

/-- A write leaves disjoint cells alone. -/
theorem writeSlot_of_notMem {x : List β} (ha : a ∉ cells i) : writeSlot cells mem i x a = mem a :=
  scatter_of_notMem ha

theorem copySlots_of_notMem {dsts srcs : List ι} (ha : ∀ d ∈ dsts, a ∉ cells d) :
    copySlots cells mem dsts srcs a = mem a := by
  refine scatter_of_notMem fun hmem => ?_
  obtain ⟨d, hd, had⟩ := mem_flatMap.mp hmem
  exact ha d hd had

namespace DisjointSlots

variable {n : ℕ}

theorem readSlot_writeSlot (h : DisjointSlots cells n) {mem : α → β} {i : ι}
    {x : List β} (hlen : x.length = n) : readSlot cells (writeSlot cells mem i x) i = x := by
  calc
    readSlot cells (writeSlot cells mem i x) i = x.map id :=
      map_eq_map_of_zip (by rw [h.length_eq, hlen]) fun _ _ hmem =>
        scatter_of_mem_zip (h.nodup i) hmem
    _ = x := map_id x

/-- A destination slot of a copy reads what its source slot read before. -/
theorem readSlot_copySlots (h : DisjointSlots cells n) {mem : α → β}
    {dsts srcs : List ι} (hdsts : dsts.Nodup) {d s : ι} (hds : (d, s) ∈ dsts.zip srcs) :
    readSlot cells (copySlots cells mem dsts srcs) d = readSlot cells mem s := by
  refine map_eq_map_of_zip (by rw [h.length_eq, h.length_eq]) fun x y hxy => ?_
  refine scatter_of_mem_zip (h.nodup_flatMap hdsts) ?_
  have hmem := mem_zip_flatMap h.length_eq hds hxy
  rw [zip_map_right]
  exact mem_map.mpr ⟨(x, y), hmem, rfl⟩

end DisjointSlots

end Sglang.Support
