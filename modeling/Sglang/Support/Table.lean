import Mathlib.Data.List.Nodup
import Mathlib.Data.List.Zip
import Mathlib.Logic.Function.Basic

/-!
# Index tables and mutually inverse pairs of them

A table is a total function. `scatter` is the bulk assignment
`t[indices] = values` and `fill` is `t[indices] = x`. A `PartialInverse` is a
pair of tables that invert each other away from a null entry, such as the
virtual-to-physical and physical-to-virtual tables of an allocator; it is kept
by binding fresh indices and by unbinding.
-/

namespace Sglang.Support

open List

variable {α β : Type*}

theorem exists_mem_zip_of_mem {is : List α} :
    ∀ {xs : List β} {j : α}, is.length = xs.length → j ∈ is → ∃ x, (j, x) ∈ is.zip xs := by
  induction is with
  | nil => intro xs j _ hj; simp at hj
  | cons i is ih =>
    intro xs j hlen hj
    cases xs with
    | nil => simp at hlen
    | cons x xs =>
      rw [mem_cons] at hj
      rcases hj with rfl | hj
      · exact ⟨x, by simp⟩
      · obtain ⟨y, hy⟩ := ih (by simpa using hlen) hj
        exact ⟨y, by simp [hy]⟩

theorem mem_zip_swap {is : List α} {xs : List β} {j : α} {x : β}
    (h : (j, x) ∈ is.zip xs) : (x, j) ∈ xs.zip is := by
  rw [← zip_swap]
  exact mem_map.mpr ⟨(j, x), h, rfl⟩

section Assign

variable [DecidableEq α] {t : α → β} {is : List α} {x : β} {j : α}

/-- Bulk assignment `t[is] = xs`. -/
def scatter (t : α → β) : List α → List β → α → β
  | i :: is, x :: xs => scatter (Function.update t i x) is xs
  | _, _ => t

/-- Bulk assignment of one value, `t[is] = x`. -/
def fill (t : α → β) (is : List α) (x : β) : α → β := fun j => if j ∈ is then x else t j

theorem fill_of_mem (hj : j ∈ is) : fill t is x j = x := by
  simp [fill, hj]

theorem fill_of_notMem (hj : j ∉ is) : fill t is x j = t j := by
  simp [fill, hj]

theorem scatter_of_notMem :
    ∀ {t : α → β} {xs : List β} {j : α}, j ∉ is → scatter t is xs j = t j := by
  induction is with
  | nil => intro t xs j _; rfl
  | cons i is ih =>
    intro t xs j hj
    rw [mem_cons, not_or] at hj
    cases xs with
    | nil => rfl
    | cons x xs => rw [scatter, ih hj.2, Function.update_of_ne hj.1]

theorem mem_zip_scatter : ∀ {t : α → β} {xs : List β} {j : α}, is.length = xs.length → j ∈ is →
      (j, scatter t is xs j) ∈ is.zip xs := by
  induction is with
  | nil => intro t xs j _ hj; simp at hj
  | cons i is ih =>
    intro t xs j hlen hj
    cases xs with
    | nil => simp at hlen
    | cons x xs =>
      rw [scatter, zip_cons_cons, mem_cons]
      by_cases hmem : j ∈ is
      · exact Or.inr (ih (by simpa using hlen) hmem)
      · rw [scatter_of_notMem hmem]
        rcases mem_cons.mp hj with rfl | hj
        · exact Or.inl (by rw [Function.update_self])
        · exact absurd hj hmem

theorem scatter_of_mem_zip (hnodup : is.Nodup) : ∀ {t : α → β} {xs : List β} {j : α} {x : β},
      (j, x) ∈ is.zip xs → scatter t is xs j = x := by
  induction is with
  | nil => intro t xs j x hmem; simp at hmem
  | cons i is ih =>
    intro t xs j x hmem
    rw [nodup_cons] at hnodup
    cases xs with
    | nil => simp at hmem
    | cons y ys =>
      rw [zip_cons_cons, mem_cons] at hmem
      rw [scatter]
      rcases hmem with heq | hmem
      · obtain ⟨rfl, rfl⟩ := Prod.mk.inj heq
        rw [scatter_of_notMem hnodup.1, Function.update_self]
      · exact ih hnodup.2 hmem

theorem map_scatter (hnodup : is.Nodup) : ∀ {t : α → β} {xs : List β}, is.length = xs.length →
    is.map (scatter t is xs) = xs := by
  induction is with
  | nil =>
    intro t xs hlen
    exact (length_eq_zero_iff.mp hlen.symm).symm
  | cons i is ih =>
    intro t xs hlen
    rw [nodup_cons] at hnodup
    cases xs with
    | nil => simp at hlen
    | cons x xs =>
      rw [map_cons, scatter, scatter_of_notMem hnodup.1, Function.update_self,
        ih hnodup.2 (by simpa using hlen)]

theorem scatter_map (f : α → β) : ∀ {t : α → β} {j : α},
    scatter t is (is.map f) j = if j ∈ is then f j else t j := by
  induction is with
  | nil => exact rfl
  | cons i is ih =>
    intro t j
    rw [map_cons, scatter, ih, Function.update_apply]
    by_cases hj : j = i <;> simp [hj]

/-- The values that a scatter overwrites do not matter. -/
theorem scatter_congr {t' : α → β} {xs : List β} (hnodup : is.Nodup) (hlen : is.length = xs.length)
    (h : j ∉ is → t j = t' j) : scatter t is xs j = scatter t' is xs j := by
  by_cases hj : j ∈ is
  · obtain ⟨y, hy⟩ := exists_mem_zip_of_mem hlen hj
    rw [scatter_of_mem_zip hnodup hy, scatter_of_mem_zip hnodup hy]
  · rw [scatter_of_notMem hj, scatter_of_notMem hj, h hj]

/-- A scatter of non-null values leaves exactly the untouched null entries
null. -/
theorem scatter_eq_null_iff {xs : List β} {null : β}
    (hnodup : is.Nodup) (hlen : is.length = xs.length) (hnull : null ∉ xs)
    : scatter t is xs j = null ↔ t j = null ∧ j ∉ is := by
  by_cases hj : j ∈ is
  · obtain ⟨x, hx⟩ := exists_mem_zip_of_mem hlen hj
    rw [scatter_of_mem_zip hnodup hx]
    constructor
    · intro h
      exact absurd (h ▸ (of_mem_zip hx).2) hnull
    · rintro ⟨_, hnot⟩
      exact absurd hj hnot
  · rw [scatter_of_notMem hj]
    simp [hj]

end Assign

/-- `f` and `g` invert each other away from the null entries. -/
def PartialInverse (f : α → β) (g : β → α) (na : α) (nb : β) : Prop :=
  ∀ a b, (f a = b ∧ b ≠ nb) ↔ (g b = a ∧ a ≠ na)

namespace PartialInverse

variable {f : α → β} {g : β → α} {na : α} {nb : β} {b : β} {js : List β}

section

variable (h : PartialInverse f g na nb)
include h

theorem symm : PartialInverse g f nb na := fun b a => (h a b).symm

theorem right (hb : g b ≠ na) : f (g b) = b :=
  ((h (g b) b).mpr ⟨rfl, hb⟩).1

theorem left {a : α} (ha : f a ≠ nb) : g (f a) = a :=
  ((h a (f a)).mp ⟨rfl, ha⟩).1

theorem ne_null_right {a : α} (ha : f a ≠ nb) : g (f a) ≠ na := by
  rw [h.left ha]
  exact ((h a (f a)).mp ⟨rfl, ha⟩).2

theorem ne_null_left (hb : g b ≠ na) : b ≠ nb :=
  ((h (g b) b).mpr ⟨rfl, hb⟩).2

/-- The second table is injective on bound entries. -/
theorem injective_right {b' : β} (hb : g b ≠ na) (heq : g b = g b') : b = b' := by
  rw [← h.right hb, heq, h.right (heq ▸ hb)]

theorem map_map_right (hbound : ∀ b ∈ js, g b ≠ na) : (js.map g).map f = js := by
  rw [map_map]
  calc
    js.map (f ∘ g) = js.map id := map_congr_left fun b hb => h.right (hbound b hb)
    _ = js := map_id js

theorem nodup_map_right (hj : js.Nodup) (hbound : ∀ b ∈ js, g b ≠ na) : (js.map g).Nodup := by
  refine List.Nodup.map_on ?_ hj
  intro b hb b' _ heq
  exact h.injective_right (hbound b hb) heq

end

variable [DecidableEq α] [DecidableEq β]

theorem bind_left (h : PartialInverse f g na nb) {is : List α} {a : α}
    (hi : is.Nodup) (hj : js.Nodup) (hlen : is.length = js.length)
    (hfj : ∀ b ∈ js, g b = na) (hna : na ∉ is) (hab : scatter f is js a = b) (hb : b ≠ nb) :
    scatter g js is b = a ∧ a ≠ na := by
  by_cases ha : a ∈ is
  · obtain ⟨b', hzip⟩ := exists_mem_zip_of_mem hlen ha
    rw [scatter_of_mem_zip hi hzip] at hab
    subst hab
    exact ⟨scatter_of_mem_zip hj (mem_zip_swap hzip), fun h => hna (h ▸ ha)⟩
  · rw [scatter_of_notMem ha] at hab
    obtain ⟨hg, hane⟩ := (h a b).mp ⟨hab, hb⟩
    have hbj : b ∉ js := fun hmem => hane (hg.symm.trans (hfj b hmem))
    exact ⟨by rw [scatter_of_notMem hbj, hg], hane⟩

/-- Binding fresh entries to fresh entries. -/
theorem bind (h : PartialInverse f g na nb) {is : List α}
    (hi : is.Nodup) (hj : js.Nodup) (hlen : is.length = js.length)
    (hfi : ∀ a ∈ is, f a = nb) (hfj : ∀ b ∈ js, g b = na) (hna : na ∉ is) (hnb : nb ∉ js) :
    PartialInverse (scatter f is js) (scatter g js is) na nb := fun _ _ =>
  ⟨fun hab => h.bind_left hi hj hlen hfj hna hab.1 hab.2,
    fun hba => h.symm.bind_left hj hi hlen.symm hfi hnb hba.1 hba.2⟩

/-- Unbinding a list of entries clears both tables. -/
theorem unbind (h : PartialInverse f g na nb) (is : List α) :
    PartialInverse (fill f is nb) (fill g (is.map f) na) na nb := by
  intro a b
  constructor
  · rintro ⟨hab, hb⟩
    by_cases ha : a ∈ is
    · rw [fill_of_mem ha] at hab
      exact absurd hab.symm hb
    · rw [fill_of_notMem ha] at hab
      obtain ⟨hg, hane⟩ := (h a b).mp ⟨hab, hb⟩
      have hmap : b ∉ is.map f := by
        intro hmem
        obtain ⟨a', ha', heq⟩ := mem_map.mp hmem
        have := ((h a' b).mp ⟨heq, hb⟩).1
        exact ha (this.symm.trans hg ▸ ha')
      exact ⟨by rw [fill_of_notMem hmap, hg], hane⟩
  · rintro ⟨hba, ha⟩
    by_cases hb : b ∈ is.map f
    · rw [fill_of_mem hb] at hba
      exact absurd hba.symm ha
    · rw [fill_of_notMem hb] at hba
      obtain ⟨hf, hbne⟩ := (h a b).mpr ⟨hba, ha⟩
      have hai : a ∉ is := fun hmem => hb (mem_map.mpr ⟨a, hmem, hf⟩)
      exact ⟨by rw [fill_of_notMem hai, hf], hbne⟩

end PartialInverse

end Sglang.Support
