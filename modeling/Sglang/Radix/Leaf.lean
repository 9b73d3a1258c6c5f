import Sglang.Radix.Shape

/-!
# Leaves come and go

The new leaf of `_insert_helper` and the unlinking of `_delete_leaf`, as changes
of the tree.
-/

namespace Sglang.Radix

open Sglang.Support RadixKey RadixCache

variable {Digest A : Type}

/-! ## Attaching a leaf -/

/-- A place for a new leaf. -/
structure Graft (P : RadixParams Digest A) (X : Tree Digest A) (p : NodeId) (key : RadixKey)
    (value : List ℤ) : Prop where
  mem : p ∈ X.live
  dvd : P.pageSize ∣ key.len
  pos : 0 < key.len
  len_eq : key.len = value.length
  free : (X.cache.node p).children.lookup (key.childKey P.pageSize) = none

/-- The tree with a new leaf under `p`. -/
def Tree.graft (P : RadixParams Digest A) (X : Tree Digest A) (p : NodeId) (key : RadixKey)
    (value : List ℤ) : Tree Digest A where
  cache := X.cache.attachLeaf P p key value
  live := insert X.cache.counter X.live
  path := Function.update X.path X.cache.counter (X.path p ++ key.letters.zip value)

namespace Graft

variable {P : RadixParams Digest A} {X : Tree Digest A} {p n : NodeId} {key : RadixKey}
  {value : List ℤ}

theorem ne_counter (h : Graft P X p key value) (S : Shape P X) : p ≠ X.cache.counter :=
  fun heq => S.counter_notMem (heq ▸ h.mem)

theorem page_le (h : Graft P X p key value) : P.pageSize ≤ key.len := Nat.le_of_dvd h.pos h.dvd

theorem node_new (h : Graft P X p key value) (S : Shape P X) :
    (X.graft P p key value).cache.node X.cache.counter =
      { children := ∅, parent := some p, key, value := some value, lockRef := 0
        hashValue := none, sessionIds := ∅ } := by
  simp [Tree.graft, attachLeaf, setNode, (h.ne_counter S).symm]

theorem node_parent (h : Graft P X p key value) (S : Shape P X) :
    (X.graft P p key value).cache.node p = { X.cache.node p with
        children := (X.cache.node p).children.insert (key.childKey P.pageSize)
          X.cache.counter } := by
  simp [Tree.graft, attachLeaf, setNode, h.ne_counter S]

theorem node_other (hn : n ≠ X.cache.counter) (hp : n ≠ p) :
    (X.graft P p key value).cache.node n = X.cache.node n := by
  simp [Tree.graft, attachLeaf, setNode, hn, hp]

/-- Every node of the old tree keeps all but its child dict. -/
theorem node_kept (h : Graft P X p key value) (S : Shape P X) (hn : n ∈ X.live) :
    (X.graft P p key value).cache.node n = { X.cache.node n with
        children := ((X.graft P p key value).cache.node n).children } := by
  by_cases hp : n = p
  · rw [hp, h.node_parent S]
  · rw [node_other (S.counter_ne hn) hp]

theorem root_eq : (X.graft P p key value).cache.rootNode = X.cache.rootNode := by
  simp [Tree.graft, attachLeaf, setNode]

theorem counter_eq : (X.graft P p key value).cache.counter = X.cache.counter + 1 := by
  simp [Tree.graft, attachLeaf]

theorem parentOf_new (h : Graft P X p key value) (S : Shape P X) :
    (X.graft P p key value).cache.parentOf X.cache.counter = p := by
  rw [parentOf, h.node_new S]
  rfl

theorem parentOf_kept (h : Graft P X p key value) (S : Shape P X) (hn : n ∈ X.live) :
    (X.graft P p key value).cache.parentOf n = X.cache.parentOf n := by
  rw [parentOf, h.node_kept S hn, root_eq]
  rfl

theorem entries_new (h : Graft P X p key value) (S : Shape P X) :
    (X.graft P p key value).cache.entries X.cache.counter = key.letters.zip value := by
  rw [entries, h.node_new S]
  rfl

theorem entries_kept (h : Graft P X p key value) (S : Shape P X) (hn : n ∈ X.live) :
    (X.graft P p key value).cache.entries n = X.cache.entries n := by
  rw [entries, h.node_kept S hn]
  rfl

theorem path_new (P : RadixParams Digest A) (X : Tree Digest A) (p : NodeId) (key : RadixKey)
    (value : List ℤ) :
    (X.graft P p key value).path X.cache.counter = X.path p ++ key.letters.zip value :=
  Function.update_self _ _ _

theorem path_kept (S : Shape P X) (hn : n ∈ X.live) :
    (X.graft P p key value).path n = X.path n := by
  have hne : n ≠ X.cache.counter := S.counter_ne hn
  exact Function.update_of_ne hne _ _

theorem mem_inner_iff (S : Shape P X) :
    n ∈ (X.graft P p key value).inner ↔ n = X.cache.counter ∨ n ∈ X.inner := by
  rw [Tree.mem_inner, root_eq]
  exact S.mem_insert_iff

theorem length_zip (h : Graft P X p key value) : (key.letters.zip value).length = key.len := by
  rw [List.length_zip, length_letters, ← h.len_eq, min_self]

/-- No edge at the place starts with the first page of the key. -/
theorem first_page_ne (h : Graft P X p key value) (S : Shape P X) {c : NodeId}
    (hc : c ∈ X.inner) (hcp : X.cache.parentOf c = p) :
    ((X.cache.entries c).take P.pageSize).map Prod.fst ≠ key.letters.take P.pageSize := by
  intro heq
  have hlook := (S.lookup_childKey h.mem h.page_le).mpr ⟨hc, hcp, heq⟩
  rw [h.free] at hlook
  exact absurd hlook (by simp)

/-- Attaching a leaf keeps the shape. -/
theorem shape (h : Graft P X p key value) (S : Shape P X) : Shape P (X.graft P p key value) := by
  refine ⟨?_, ?_, ?_, ?_, ?_, ?_⟩
  · rw [root_eq]
    refine S.tree.addLeaf h.mem (fun n hn _ => h.parentOf_kept S hn)
      (fun n hn _ => h.entries_kept S hn) (fun n hn => path_kept S hn) (h.parentOf_new S) ?_ ?_
      ?_ ?_
    · rw [path_new, h.entries_new S]
    · rw [h.entries_new S]
      apply List.ne_nil_of_length_pos
      rw [h.length_zip]
      exact h.pos
    · rw [h.entries_new S, h.length_zip]
      exact h.dvd
    · intro c hc hcr hcp
      have hfirst : ((key.letters.zip value).take P.pageSize).map Prod.fst =
          key.letters.take P.pageSize := by
        rw [List.map_take, List.map_fst_zip (by rw [length_letters, h.len_eq])]
      rw [h.entries_new S, hfirst]
      exact h.first_page_ne S (Tree.mem_inner.mpr ⟨hc, hcr⟩) hcp
  · rw [counter_eq]
    exact S.fresh_insert
  · intro n hn
    rcases (mem_inner_iff S).mp hn with rfl | hn
    · rw [h.parentOf_new S, h.node_new S]
    · rw [h.parentOf_kept S (mem_live hn), h.node_kept S (mem_live hn)]
      exact S.parent_some hn
  · intro n hn
    rcases Finset.mem_insert.mp hn with rfl | hn
    · rw [h.node_new S]
      rfl
    · rw [h.node_kept S hn]
      exact S.resident hn
  · intro n hn
    rcases (mem_inner_iff S).mp hn with rfl | hn
    · rw [h.node_new S]
      exact h.len_eq
    · rw [h.node_kept S (mem_live hn)]
      exact S.len_eq hn
  · refine indexes_iff.mp ?_
    rw [root_eq]
    refine Indexes.addLeaf (indexes_iff.mpr S.child_iff) S.root_mem (fun n => S.tree.parent_mem)
      S.counter_notMem h.mem h.free (fun n hn _ => h.parentOf_kept S hn)
      (fun n hn _ => by rw [h.node_kept S hn]) (h.parentOf_new S) (by rw [h.node_new S])
      (fun ck => ?_) ?_ (fun ck hck => ?_) fun q hq hqp => ?_
    · rw [h.node_new S]
      rfl
    · rw [h.node_parent S, AList.lookup_insert]
    · rw [h.node_parent S, AList.lookup_insert_ne hck]
    · rw [node_other (S.counter_ne hq) hqp]

end Graft

/-! ## Unlinking a leaf -/

/-- A node that can be unlinked. -/
structure Leaf (X : Tree Digest A) (n : NodeId) : Prop where
  mem : n ∈ X.inner
  childless : (X.cache.node n).children.entries = []

/-- The tree without the node `n`. -/
def Tree.prune (P : RadixParams Digest A) (X : Tree Digest A) (n : NodeId) : Tree Digest A where
  cache := X.cache.unlink P n (X.cache.parentOf n)
  live := X.live.erase n
  path := X.path

namespace Leaf

variable {P : RadixParams Digest A} {X : Tree Digest A} {n m : NodeId}

theorem parent_live (h : Leaf X n) (S : Shape P X) : X.cache.parentOf n ∈ (X.prune P n).live :=
  Finset.mem_erase.mpr ⟨S.parentOf_ne h.mem, S.parent_mem h.mem⟩

theorem root_eq : (X.prune P n).cache.rootNode = X.cache.rootNode := by
  simp [Tree.prune, unlink, discardSessionLeaf, setNode]

theorem counter_eq : (X.prune P n).cache.counter = X.cache.counter := by
  simp [Tree.prune, unlink, discardSessionLeaf, setNode]

theorem mem_inner_iff : m ∈ (X.prune P n).inner ↔ m ∈ X.inner ∧ m ≠ n := by
  rw [Tree.mem_inner, Tree.mem_inner, root_eq]
  constructor
  · rintro ⟨hm, hr⟩
    exact ⟨⟨Finset.mem_of_mem_erase hm, hr⟩, Finset.ne_of_mem_erase hm⟩
  · rintro ⟨⟨hm, hr⟩, hne⟩
    exact ⟨Finset.mem_erase.mpr ⟨hne, hm⟩, hr⟩

theorem node_parent (h : Leaf X n) (S : Shape P X) : (X.prune P n).cache.node (X.cache.parentOf n) =
      { X.cache.node (X.cache.parentOf n) with
        children := (X.cache.node (X.cache.parentOf n)).children.erase
          ((X.cache.node n).key.childKey P.pageSize) } := by
  simp [Tree.prune, unlink, discardSessionLeaf, setNode, S.parentOf_ne h.mem]

theorem node_other (hm : m ≠ n) (hp : m ≠ X.cache.parentOf n) :
    (X.prune P n).cache.node m = X.cache.node m := by
  simp [Tree.prune, unlink, discardSessionLeaf, setNode, hm, hp]

/-- Every other node keeps all but its child dict. -/
theorem node_kept (h : Leaf X n) (S : Shape P X) (hm : m ≠ n) : (X.prune P n).cache.node m =
      { X.cache.node m with children := ((X.prune P n).cache.node m).children } := by
  by_cases hp : m = X.cache.parentOf n
  · rw [hp, h.node_parent S]
  · rw [node_other hm hp]

theorem parentOf_kept (h : Leaf X n) (S : Shape P X) (hm : m ≠ n) :
    (X.prune P n).cache.parentOf m = X.cache.parentOf m := by
  rw [parentOf, h.node_kept S hm, root_eq]
  rfl

theorem entries_kept (h : Leaf X n) (S : Shape P X) (hm : m ≠ n) :
    (X.prune P n).cache.entries m = X.cache.entries m := by
  rw [entries, h.node_kept S hm]
  rfl

theorem parentOf_ne (h : Leaf X n) (S : Shape P X) (hm : m ∈ X.inner) : X.cache.parentOf m ≠ n :=
  (S.children_nil_iff (mem_live h.mem)).mp h.childless m hm

/-- Unlinking a leaf keeps the shape. -/
theorem shape (h : Leaf X n) (S : Shape P X) : Shape P (X.prune P n) := by
  have hn := Tree.mem_inner.mp h.mem
  refine ⟨?_, ?_, ?_, ?_, ?_, ?_⟩
  · rw [root_eq]
    refine (S.tree.erase hn.2 fun m hm hr =>
      h.parentOf_ne S (Tree.mem_inner.mpr ⟨hm, hr⟩)).congr ?_ ?_
    · intro m hm _
      exact h.parentOf_kept S (Finset.ne_of_mem_erase hm)
    · intro m hm _
      exact h.entries_kept S (Finset.ne_of_mem_erase hm)
  · intro m hm
    rw [counter_eq]
    exact S.fresh (Finset.mem_of_mem_erase hm)
  · intro m hm
    obtain ⟨hm, hmn⟩ := mem_inner_iff.mp hm
    rw [h.parentOf_kept S hmn, h.node_kept S hmn]
    exact S.parent_some hm
  · intro m hm
    rw [h.node_kept S (Finset.ne_of_mem_erase hm)]
    exact S.resident (Finset.mem_of_mem_erase hm)
  · intro m hm
    obtain ⟨hm, hmn⟩ := mem_inner_iff.mp hm
    rw [h.node_kept S hmn]
    exact S.len_eq hm
  · refine indexes_iff.mp ?_
    rw [root_eq]
    refine Indexes.erase (indexes_iff.mpr S.child_iff) hn.1 hn.2 rfl
      (fun m _ _ hmn => h.parentOf_kept S hmn) (fun m _ _ hmn => by rw [h.node_kept S hmn]) ?_
      (fun ck hck => ?_) fun q _ hqn hqp => ?_
    · rw [h.node_parent S, AList.lookup_erase]
    · rw [h.node_parent S, AList.lookup_erase_ne hck]
    · rw [node_other hqn hqp]

end Leaf

end Sglang.Radix
