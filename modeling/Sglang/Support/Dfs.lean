import Mathlib.Data.Finset.Card
import Mathlib.Data.List.Nodup

/-!
# Depth-first search of a rooted tree

The loop that pops a node from a stack and pushes its children. On a tree it pops every
node once.
-/

namespace Sglang.Support

open List

variable {ν : Type*}

/-- The nodes in the order they are popped. The head of the list is the top of the
stack. -/
def dfs (kids : ν → List ν) : ℕ → List ν → List ν → Option (List ν)
  | 0, _, _ => none
  | _ + 1, [], visited => some visited
  | fuel + 1, n :: stack, visited => dfs kids fuel ((kids n).reverse ++ stack) (visited ++ [n])

/-- Children lists that make `live` a tree. -/
structure Rooted (live : Finset ν) (root : ν) (parent : ν → ν) (kids : ν → List ν) : Prop where
  root_mem : root ∈ live
  induct : ∀ motive : ν → Prop, motive root →
    (∀ n ∈ live, n ≠ root → motive (parent n) → motive n) → ∀ n ∈ live, motive n
  nodup : ∀ {p}, p ∈ live → (kids p).Nodup
  mem_kids : ∀ {p n}, p ∈ live → (n ∈ kids p ↔ n ∈ live ∧ n ≠ root ∧ parent n = p)

/-- The nodes on the stack are new, and lead to all nodes not visited yet. -/
structure Searching (live : Finset ν) (root : ν) (parent : ν → ν) (kids : ν → List ν)
    (stack visited : List ν) : Prop where
  nodup : (visited ++ stack).Nodup
  mem_live : ∀ n ∈ visited ++ stack, n ∈ live
  root_mem : root ∈ visited ++ stack
  parent_mem : ∀ n ∈ visited ++ stack, n ≠ root → parent n ∈ visited
  kids_mem : ∀ n ∈ visited, ∀ c ∈ kids n, c ∈ visited ++ stack

namespace Rooted

variable {live : Finset ν} {root : ν} {parent : ν → ν} {kids : ν → List ν}

/-- The children of the node on top have not been seen. -/
theorem searching_pop (R : Rooted live root parent kids) {n : ν} {stack visited : List ν}
    (h : Searching live root parent kids (n :: stack) visited) :
    Searching live root parent kids ((kids n).reverse ++ stack) (visited ++ [n]) := by
  have hn : n ∈ live := h.mem_live n (by simp)
  have hunseen : n ∉ visited := fun hmem => (nodup_append.mp h.nodup).2.2 n hmem n mem_cons_self rfl
  have hnew : ∀ c ∈ kids n, c ∉ visited ++ n :: stack := by
    intro c hc hseen
    obtain ⟨_, hroot, hparent⟩ := (R.mem_kids hn).mp hc
    exact hunseen (hparent ▸ h.parent_mem c hseen hroot)
  have hmem : ∀ x, x ∈ visited ++ [n] ++ ((kids n).reverse ++ stack) ↔
      x ∈ visited ++ n :: stack ∨ x ∈ kids n := by
    intro x
    simp only [mem_append, mem_reverse, mem_cons]
    tauto
  refine ⟨?_, ?_, (hmem root).mpr (Or.inl h.root_mem), ?_, ?_⟩
  · have hperm : (visited ++ [n] ++ ((kids n).reverse ++ stack)).Perm
        (kids n ++ (visited ++ n :: stack)) := by
      have hcons : visited ++ n :: stack = visited ++ [n] ++ stack := by simp
      rw [hcons]
      exact (perm_append_comm_assoc _ _ _).trans ((reverse_perm _).append_right _)
    rw [hperm.nodup_iff, nodup_append]
    exact ⟨R.nodup hn, h.nodup, fun c hc x hx hcx => hnew c hc (hcx ▸ hx)⟩
  · intro x hx
    rcases (hmem x).mp hx with hold | hkid
    · exact h.mem_live x hold
    · exact ((R.mem_kids hn).mp hkid).1
  · intro x hx hroot
    rcases (hmem x).mp hx with hold | hkid
    · exact mem_append_left _ (h.parent_mem x hold hroot)
    · rw [((R.mem_kids hn).mp hkid).2.2]
      simp
  · intro x hx c hc
    rw [hmem]
    rcases mem_append.mp hx with hold | hself
    · exact Or.inl (h.kids_mem x hold c hc)
    · exact Or.inr (mem_singleton.mp hself ▸ hc)

variable [DecidableEq ν]

theorem dfs_eq_some (R : Rooted live root parent kids) {fuel : ℕ} {stack visited : List ν}
    (h : Searching live root parent kids stack visited)
    (hfuel : live.card < fuel + visited.length) :
    ∃ order, dfs kids fuel stack visited = some order ∧
      Searching live root parent kids [] order := by
  induction fuel generalizing stack visited with
  | zero =>
    have hsub : visited.toFinset ⊆ live := fun x hx =>
      h.mem_live x (mem_append_left _ (mem_toFinset.mp hx))
    have hcard := Finset.card_le_card hsub
    rw [toFinset_card_of_nodup (nodup_append.mp h.nodup).1] at hcard
    omega
  | succ fuel ih =>
    cases stack with
    | nil => exact ⟨visited, rfl, h⟩
    | cons n stack =>
      refine ih (R.searching_pop h) ?_
      rw [length_append, length_singleton]
      omega

/-- Every node is popped once. -/
theorem dfs_spec (R : Rooted live root parent kids) {fuel : ℕ} (hfuel : live.card < fuel) :
    ∃ order, dfs kids fuel [root] [] = some order ∧ order.Nodup ∧ ∀ n, n ∈ order ↔ n ∈ live := by
  have hstart : Searching live root parent kids [root] [] := by
    refine ⟨by simp, ?_, by simp, ?_, by simp⟩
    · intro n hn
      simp only [nil_append, mem_singleton] at hn
      exact hn ▸ R.root_mem
    · intro n hn hroot
      simp only [nil_append, mem_singleton] at hn
      exact absurd hn hroot
  obtain ⟨order, horder, h⟩ := R.dfs_eq_some hstart (by simpa using hfuel)
  have hnodup := h.nodup
  have hlive := h.mem_live
  have hkids := h.kids_mem
  have hroot := h.root_mem
  simp only [append_nil] at hnodup hlive hkids hroot
  refine ⟨order, horder, hnodup, fun n => ⟨hlive n, ?_⟩⟩
  refine R.induct (fun n => n ∈ order) hroot (fun n hn hr hparent => ?_) n
  exact hkids _ hparent n ((R.mem_kids (hlive _ hparent)).mpr ⟨hn, hr, rfl⟩)

end Rooted

end Sglang.Support
