import Mathlib.Data.Finmap
import Sglang.Radix.Shape

/-!
# Cutting an edge

`_split_node` puts a new node between a node and its parent. No word of the
tree changes.
-/

namespace Sglang.Radix

open Sglang.Support RadixKey RadixCache

variable {Digest A : Type}

/-- An edge that can be cut after `k` units. -/
structure Cut (P : RadixParams Digest A) (X : Tree Digest A) (c : NodeId) (k : ℕ) : Prop where
  mem : c ∈ X.inner
  dvd : P.pageSize ∣ k
  pos : 0 < k
  lt : k < (X.cache.node c).key.len

/-- The tree after the edge of `c` was cut. -/
def Tree.cut (P : RadixParams Digest A) (X : Tree Digest A) (c : NodeId) (k : ℕ) :
    Tree Digest A where
  cache := X.cache.splitUnder P (X.cache.node c).key c (X.cache.parentOf c) k
  live := insert X.cache.counter X.live
  path := Function.update X.path X.cache.counter
    (X.path (X.cache.parentOf c) ++ (X.cache.entries c).take k)

namespace Cut

variable {P : RadixParams Digest A} {X : Tree Digest A} {c : NodeId} {k : ℕ} {n : NodeId}

theorem parent_ne_counter (h : Cut P X c k) (S : Shape P X) :
    X.cache.parentOf c ≠ X.cache.counter :=
  fun heq => S.counter_notMem (heq ▸ S.parent_mem h.mem)

theorem ne_counter (h : Cut P X c k) (S : Shape P X) : c ≠ X.cache.counter :=
  fun heq => S.counter_notMem (heq ▸ (mem_live h.mem))

/-- The upper part of the edge. -/
theorem node_new (h : Cut P X c k) (S : Shape P X) : (X.cut P c k).cache.node X.cache.counter =
      { children := AList.singleton (((X.cache.node c).key.since k).childKey P.pageSize) c
        parent := (X.cache.node c).parent
        key := (X.cache.node c).key.upto k
        value := (X.cache.node c).value.map fun v => v.take k
        lockRef := (X.cache.node c).lockRef
        hashValue := (splitNodeHashValue (X.cache.node c).hashValue k P.pageSize).1
        sessionIds := ∅ } := by
  simp [Tree.cut, splitUnder, setNode, (h.parent_ne_counter S).symm, (h.ne_counter S).symm]

/-- The lower part of the edge. -/
theorem node_cut (h : Cut P X c k) (S : Shape P X) : (X.cut P c k).cache.node c =
      { X.cache.node c with
        parent := some X.cache.counter
        key := (X.cache.node c).key.since k
        value := (X.cache.node c).value.map fun v => v.drop k
        hashValue := (splitNodeHashValue (X.cache.node c).hashValue k P.pageSize).2 } := by
  simp [Tree.cut, splitUnder, setNode, (S.parentOf_ne h.mem).symm]

theorem node_parent (P : RadixParams Digest A) (X : Tree Digest A) (c : NodeId) (k : ℕ) :
    (X.cut P c k).cache.node (X.cache.parentOf c) = { X.cache.node (X.cache.parentOf c) with
        children := (X.cache.node (X.cache.parentOf c)).children.insert
          ((X.cache.node c).key.childKey P.pageSize) X.cache.counter } := by
  simp [Tree.cut, splitUnder, setNode]

theorem node_other (hn : n ≠ X.cache.counter) (hc : n ≠ c)
    (hp : n ≠ X.cache.parentOf c) : (X.cut P c k).cache.node n = X.cache.node n := by
  simp [Tree.cut, splitUnder, setNode, hn, hc, hp]

/-- Every other node of the tree keeps all but its child dict. -/
theorem node_kept (S : Shape P X) (hn : n ∈ X.live) (hc : n ≠ c) : (X.cut P c k).cache.node n =
      { X.cache.node n with children := ((X.cut P c k).cache.node n).children } := by
  by_cases hp : n = X.cache.parentOf c
  · rw [hp, node_parent]
  · rw [node_other (S.counter_ne hn) hc hp]

theorem root_eq : (X.cut P c k).cache.rootNode = X.cache.rootNode := rfl

theorem parentOf_kept (S : Shape P X) (hn : n ∈ X.live) (hc : n ≠ c) :
    (X.cut P c k).cache.parentOf n = X.cache.parentOf n := by
  rw [parentOf, node_kept S hn hc]
  rfl

theorem parentOf_new (h : Cut P X c k) (S : Shape P X) :
    (X.cut P c k).cache.parentOf X.cache.counter = X.cache.parentOf c := by
  rw [parentOf, h.node_new S]
  rfl

theorem parentOf_cut (h : Cut P X c k) (S : Shape P X) :
    (X.cut P c k).cache.parentOf c = X.cache.counter := by
  rw [parentOf, h.node_cut S]
  rfl

theorem indices_new (h : Cut P X c k) (S : Shape P X) :
    ((X.cut P c k).cache.node X.cache.counter).indices = (X.cache.node c).indices.take k := by
  rw [h.node_new S]
  cases hv : (X.cache.node c).value <;> simp [TreeNode.indices, hv]

theorem indices_cut (h : Cut P X c k) (S : Shape P X) :
    ((X.cut P c k).cache.node c).indices = (X.cache.node c).indices.drop k := by
  rw [h.node_cut S]
  cases hv : (X.cache.node c).value <;> simp [TreeNode.indices, hv]

theorem entries_kept (S : Shape P X) (hn : n ∈ X.live) (hc : n ≠ c) :
    (X.cut P c k).cache.entries n = X.cache.entries n := by
  rw [entries, node_kept S hn hc]
  rfl

theorem entries_new (h : Cut P X c k) (S : Shape P X) :
    (X.cut P c k).cache.entries X.cache.counter = (X.cache.entries c).take k := by
  rw [entries, h.indices_new S, h.node_new S, letters_upto _ h.lt.le, entries]
  exact List.take_zipWith.symm

theorem entries_cut (h : Cut P X c k) (S : Shape P X) :
    (X.cut P c k).cache.entries c = (X.cache.entries c).drop k := by
  rw [entries, h.indices_cut S, h.node_cut S, letters_since _ h.lt.le, entries]
  exact List.drop_zipWith.symm

theorem mem_inner_iff (S : Shape P X) :
    n ∈ (X.cut P c k).inner ↔ n = X.cache.counter ∨ n ∈ X.inner :=
  Tree.mem_inner.trans S.mem_insert_iff

theorem childKey_new (h : Cut P X c k) (S : Shape P X) :
    ((X.cut P c k).cache.node X.cache.counter).key.childKey P.pageSize =
      (X.cache.node c).key.childKey P.pageSize := by
  have hpage : P.pageSize ≤ k := Nat.le_of_dvd h.pos h.dvd
  rw [h.node_new S, childKey_eq_iff P.pageSize_pos (by rw [len_upto _ h.lt.le]; exact hpage)
    (S.page_le h.mem), letters_upto _ h.lt.le, List.take_take, min_eq_left hpage]

theorem path_new (P : RadixParams Digest A) (X : Tree Digest A) (c : NodeId) (k : ℕ) :
    (X.cut P c k).path X.cache.counter =
      X.path (X.cache.parentOf c) ++ (X.cache.entries c).take k :=
  Function.update_self _ _ _

theorem path_kept (S : Shape P X) (hn : n ∈ X.live) : (X.cut P c k).path n = X.path n := by
  have hne : n ≠ X.cache.counter := S.counter_ne hn
  exact Function.update_of_ne hne _ _

theorem children_kept (h : Cut P X c k) (S : Shape P X) (hn : n ∈ X.live)
    (hp : n ≠ X.cache.parentOf c) :
    ((X.cut P c k).cache.node n).children = (X.cache.node n).children := by
  by_cases hc : n = c
  · rw [hc, h.node_cut S]
  · rw [node_other (S.counter_ne hn) hc hp]

/-- Cutting an edge keeps the shape. -/
theorem shape (h : Cut P X c k) (S : Shape P X) : Shape P (X.cut P c k) := by
  have hc := Tree.mem_inner.mp h.mem
  refine ⟨?_, ?_, ?_, ?_, ?_, ?_⟩
  · exact S.tree.split S.counter_notMem hc.1 hc.2 h.dvd h.pos
      (by rw [S.length_entries h.mem]; exact h.lt)
      (fun n hn _ hnc => parentOf_kept S hn hnc) (fun n hn _ hnc => entries_kept S hn hnc)
      (fun n hn => path_kept S hn) (h.parentOf_new S) (h.parentOf_cut S) (h.entries_new S)
      (h.entries_cut S) (path_new P X c k)
  · exact S.fresh_insert
  · intro n hn
    rcases (mem_inner_iff S).mp hn with rfl | hn
    · rw [h.parentOf_new S, h.node_new S]
      exact S.parent_some h.mem
    · by_cases hnc : n = c
      · rw [hnc, h.parentOf_cut S, h.node_cut S]
      · rw [parentOf_kept S (mem_live hn) hnc, node_kept S (mem_live hn) hnc]
        exact S.parent_some hn
  · intro n hn
    have hres := S.resident hc.1
    rcases Finset.mem_insert.mp hn with rfl | hn
    · rw [h.node_new S]
      simpa [TreeNode.evicted] using hres
    · by_cases hnc : n = c
      · rw [hnc, h.node_cut S]
        simpa [TreeNode.evicted] using hres
      · rw [node_kept S hn hnc]
        exact S.resident hn
  · intro n hn
    rcases (mem_inner_iff S).mp hn with rfl | hn
    · rw [h.indices_new S, h.node_new S, len_upto _ h.lt.le, List.length_take,
        ← S.len_eq h.mem, min_eq_left h.lt.le]
    · by_cases hnc : n = c
      · rw [hnc, h.indices_cut S, h.node_cut S, len_since _ h.lt.le, List.length_drop,
          ← S.len_eq h.mem]
      · rw [node_kept S (mem_live hn) hnc]
        exact S.len_eq hn
  · refine indexes_iff.mp (Indexes.split (indexes_iff.mpr S.child_iff) S.root_mem
      (fun n => S.tree.parent_mem) S.counter_notMem hc.1 hc.2 rfl
      (fun n hn _ hnc => parentOf_kept S hn hnc) (fun n hn _ hnc => by rw [node_kept S hn hnc])
      (h.parentOf_new S) (h.parentOf_cut S) (congrArg some (h.childKey_new S))
      (by rw [h.node_cut S]) (fun key n => ?_) ?_ (fun key hkey => ?_) fun q hq hqp => ?_)
    · rw [h.node_new S, ← Option.mem_def, AList.mem_lookup_iff]
      simp [AList.singleton]
    · rw [node_parent, AList.lookup_insert]
    · rw [node_parent, AList.lookup_insert_ne hkey]
    · rw [h.children_kept S hq hqp]

end Cut

end Sglang.Radix
