import Mathlib.Data.Finmap
import Mathlib.Data.List.Sort
import Mathlib.Data.String.Basic

/-!
# Hash maps

A hash map is a finite map. Its contents do not determine the order in which it is
iterated, so loops over a map or a set run in an arbitrary `HashOrder`.
-/

namespace Sglang.Support

variable {α β : Type*}

abbrev Dict (α β : Type*) := Finmap fun _ : α => β

/-- An order of iteration for every set of keys. -/
structure HashOrder (α : Type*) where
  list : Finset α → List α
  nodup : ∀ S, (list S).Nodup
  mem_list : ∀ {S a}, a ∈ list S ↔ a ∈ S

namespace HashOrder

variable (O : HashOrder α)

theorem length_list (S : Finset α) : (O.list S).length = S.card := by
  have hval : (O.list S : Multiset α) = S.val := by
    rw [Multiset.Nodup.ext (Multiset.coe_nodup.mpr (O.nodup S)) S.nodup]
    intro a
    rw [Multiset.mem_coe, Finset.mem_val]
    exact O.mem_list
  rw [← Multiset.coe_card, hval, Finset.card_val]

/-- Keys in increasing order. -/
def increasing [LinearOrder α] : HashOrder α where
  list S := Quot.liftOn S.val (List.insertionSort (· ≤ ·)) fun l l' h =>
    List.Perm.eq_of_pairwise (fun _ _ _ _ => le_antisymm) (List.pairwise_insertionSort _ l)
      (List.pairwise_insertionSort _ l')
      (((List.perm_insertionSort _ l).trans h).trans (List.perm_insertionSort _ l').symm)
  nodup S := by
    obtain ⟨⟨l⟩, hl⟩ := S
    exact (List.perm_insertionSort _ l).nodup_iff.mpr hl
  mem_list := by
    rintro ⟨⟨l⟩, hl⟩ a
    exact (List.perm_insertionSort _ l).mem_iff

end HashOrder

namespace Dict

variable [DecidableEq α] (m : Dict α β) (a : α)

theorem lookup_insert_eq (b : β) (a' : α) :
    (m.insert a b).lookup a' = if a' = a then some b else m.lookup a' := by
  split
  · rename_i h
    rw [h, Finmap.lookup_insert]
  · rename_i h
    exact Finmap.lookup_insert_of_ne m h

theorem lookup_erase_eq (a' : α) :
    (m.erase a).lookup a' = if a' = a then none else m.lookup a' := by
  split
  · rename_i h
    rw [h, Finmap.lookup_erase]
  · rename_i h
    exact Finmap.lookup_erase_ne h

theorem keys_insert (b : β) : (m.insert a b).keys = insert a m.keys := by
  ext a'
  rw [Finmap.mem_keys, Finmap.mem_insert, Finset.mem_insert, Finmap.mem_keys]

theorem mem_keys_iff {m : Dict α β} {a : α} : a ∈ m.keys ↔ ∃ b, m.lookup a = some b := by
  rw [Finmap.mem_keys, Finmap.mem_iff]

theorem eq_empty_iff {m : Dict α β} : m = ∅ ↔ ∀ a, m.lookup a = none := by
  constructor
  · rintro rfl a
    exact Finmap.lookup_empty a
  · intro h
    apply Finmap.ext_lookup
    intro a
    rw [h a, Finmap.lookup_empty]

theorem keys_eq_empty_iff {m : Dict α β} : m.keys = ∅ ↔ m = ∅ := by
  rw [eq_empty_iff, Finset.eq_empty_iff_forall_notMem]
  refine forall_congr' fun a => ?_
  rw [Finmap.mem_keys, ← Finmap.lookup_eq_none]

/-- `get_mut` and an update in place. -/
def modify (f : β → β) : Dict α β :=
  match m.lookup a with
  | some b => m.insert a (f b)
  | none => m

theorem lookup_modify_eq (f : β → β) (a' : α) :
    (m.modify a f).lookup a' = if a' = a then (m.lookup a).map f else m.lookup a' := by
  unfold modify
  cases h : m.lookup a with
  | none =>
    by_cases heq : a' = a
    · rw [if_pos heq, heq, Option.map_none]
      exact h
    · rw [if_neg heq]
  | some b => exact lookup_insert_eq m a (f b) a'

@[simp] theorem lookup_modify_self (f : β → β) : (m.modify a f).lookup a = (m.lookup a).map f := by
  rw [lookup_modify_eq, if_pos rfl]

theorem lookup_modify_of_ne (f : β → β) {a' : α} (h : a' ≠ a) :
    (m.modify a f).lookup a' = m.lookup a' := by
  rw [lookup_modify_eq, if_neg h]

@[simp] theorem keys_modify (f : β → β) : (m.modify a f).keys = m.keys := by
  ext a'
  rw [mem_keys_iff, mem_keys_iff, lookup_modify_eq]
  split
  · rename_i h
    rw [h]
    simp
  · rfl

end Dict

end Sglang.Support
