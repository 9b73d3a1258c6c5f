import Mathlib.Data.List.Basic
import Mathlib.Tactic.Ring

/-!
# Cutting a list into pages

`pages size l` are the consecutive windows of `size` letters, the last one
possibly shorter; `chain` runs a hash through a list of pages.
-/

namespace Sglang.Support

open List

variable {α δ : Type*} {size : ℕ} {l : List α}

def pages (size : ℕ) (l : List α) : List (List α) :=
  (List.range ((l.length + size - 1) / size)).map fun i => (l.drop (i * size)).take size

/-- Each page is hashed together with the digest of the page before it. -/
def chain (hash : Option δ → List α → δ) : Option δ → List (List α) → List δ
  | _, [] => []
  | prior, page :: rest => hash prior page :: chain hash (some (hash prior page)) rest

theorem length_pages (size : ℕ) (l : List α) :
    (pages size l).length = (l.length + size - 1) / size := by
  simp [pages]

theorem pages_nil (size : ℕ) (hsize : 0 < size) : pages size ([] : List α) = [] := by
  simp [pages, hsize]

theorem length_pages_of_dvd (hsize : 0 < size)
    (h : size ∣ l.length) : (pages size l).length = l.length / size := by
  obtain ⟨k, hk⟩ := h
  rw [length_pages, hk, Nat.mul_div_cancel_left _ hsize]
  apply Nat.div_eq_of_lt_le
  · rw [Nat.mul_comm]
    omega
  · rw [Nat.succ_mul, Nat.mul_comm]
    omega

/-- Whole pages can be cut off in front. -/
theorem pages_append (hsize : 0 < size) {m : List α} (h : size ∣ l.length) :
    pages size (l ++ m) = pages size l ++ pages size m := by
  obtain ⟨k, hk⟩ := h
  have hcount : (l.length + size - 1) / size = k := by
    rw [← length_pages, length_pages_of_dvd hsize ⟨k, hk⟩, hk, Nat.mul_div_cancel_left _ hsize]
  have htotal : ((l ++ m).length + size - 1) / size = k + (m.length + size - 1) / size := by
    rw [length_append, hk, show size * k + m.length + size - 1 =
      (m.length + size - 1) + size * k by omega, Nat.add_mul_div_left _ _ hsize, Nat.add_comm]
  rw [pages, pages, pages, htotal, hcount, range_add, map_append, map_map]
  congr 1
  · apply map_congr_left
    intro i hi
    have hroom : i * size + size ≤ l.length := by
      have hlt : i + 1 ≤ k := mem_range.mp hi
      calc i * size + size = size * (i + 1) := by ring
        _ ≤ size * k := Nat.mul_le_mul_left _ hlt
        _ = l.length := hk.symm
    rw [drop_append_of_le_length (by omega), take_append_of_le_length]
    rw [length_drop]
    omega
  · apply map_congr_left
    intro i _
    simp only [Function.comp_apply]
    rw [drop_append, drop_of_length_le, nil_append]
    · rw [hk]
      congr 2
      rw [Nat.add_mul, Nat.mul_comm k size]
      omega
    · rw [hk, Nat.add_mul, Nat.mul_comm k size]
      omega

theorem mem_of_mem_pages {page : List α} {a : α} (hpage : page ∈ pages size l)
    (ha : a ∈ page) : a ∈ l := by
  obtain ⟨i, _, rfl⟩ := mem_map.mp hpage
  exact mem_of_mem_drop (mem_of_mem_take ha)

/-- The first page, whole or short, and the pages of what follows it. -/
theorem pages_cons (hsize : 0 < size) (hl : l ≠ []) :
    pages size l = l.take size :: pages size (l.drop size) := by
  have hpos : 0 < l.length := length_pos_of_ne_nil hl
  have hcount : (l.length + size - 1) / size = ((l.drop size).length + size - 1) / size + 1 := by
    rw [length_drop, ← Nat.add_div_right _ hsize]
    by_cases hle : size ≤ l.length
    · congr 1
      omega
    · rw [Nat.div_eq_of_lt_le (k := 1) (by omega) (by omega),
        Nat.div_eq_of_lt_le (k := 1) (by omega) (by omega)]
  rw [pages, hcount, range_succ_eq_map, map_cons, map_map, Nat.zero_mul, drop_zero, pages]
  congr 1
  apply map_congr_left
  intro i _
  simp only [Function.comp_apply, drop_drop, Nat.succ_mul]
  rw [Nat.add_comm]

theorem length_chain (hash : Option δ → List α → δ) (prior : Option δ)
    (ps : List (List α)) : (chain hash prior ps).length = ps.length := by
  induction ps generalizing prior with
  | nil => rfl
  | cons page rest ih => simp [chain, ih]

/-- A chain continues from the last digest of what came before. -/
theorem chain_append (hash : Option δ → List α → δ) (prior : Option δ) (ps qs : List (List α)) :
    chain hash prior (ps ++ qs) = chain hash prior ps ++
      chain hash ((chain hash prior ps).getLast?.or prior) qs := by
  induction ps generalizing prior with
  | nil => simp [chain]
  | cons page rest ih =>
    rw [cons_append, chain, chain, ih, cons_append]
    congr 3
    cases hrest : chain hash (some (hash prior page)) rest with
    | nil => simp
    | cons d ds => simp [List.getLast?_cons]

/-- Two hashes that agree up to an encoding of the digests run in step. -/
theorem chain_map {ε : Type*} {hash : Option δ → List α → δ} {hash' : Option ε → List α → ε}
    {f : δ → ε} {ps : List (List α)}
    (h : ∀ prior, ∀ page ∈ ps, hash' (prior.map f) page = f (hash prior page)) (prior : Option δ) :
    chain hash' (prior.map f) ps = (chain hash prior ps).map f := by
  induction ps generalizing prior with
  | nil => rfl
  | cons page rest ih =>
    have hrest := ih (fun prior p hp => h prior p (mem_cons_of_mem _ hp)) (some (hash prior page))
    rw [Option.map_some] at hrest
    rw [chain, chain, map_cons, h prior page mem_cons_self, hrest]

end Sglang.Support
