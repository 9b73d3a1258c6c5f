import Sglang.Radix.Cache
import Sglang.Support.PathTree

/-!
# The shape of the radix tree

The node heap of a cache represents a path-compressed tree: `live` are the
nodes of the tree, `path n` the keys and indices read from the root to `n`.
`Shape` ties both to the pointers of the heap.
-/

namespace Sglang.Radix

open Sglang.Support RadixKey

variable {Digest A : Type}

namespace RadixCache

variable (T : RadixCache Digest A) (n : NodeId)

/-- The parent of a node other than the root. -/
def parentOf : NodeId := (T.node n).parent.getD T.rootNode

/-- The keys of a node with their indices. -/
def entries : List (Letter × ℤ) := (T.node n).key.letters.zip (T.node n).indices

/-- The evictable leaves after `_update_leaf_status`. -/
def leavesAfter : Finset NodeId :=
  if (T.node n).evicted || decide ((T.node n).lockRef > 0) || T.hasResidentChild n then
    T.evictableLeaves.erase n
  else insert n T.evictableLeaves

@[simp] theorem updateLeafStatus_eq :
    T.updateLeafStatus n = { T with evictableLeaves := T.leavesAfter n } := by
  unfold updateLeafStatus leavesAfter
  split
  · simp [*]
  · split <;> simp [*]

end RadixCache

/-- A cache together with the tree its heap represents. -/
structure Tree (Digest A : Type) where
  cache : RadixCache Digest A
  live : Finset NodeId
  path : NodeId → List (Letter × ℤ)

namespace Tree

variable (X : Tree Digest A)

/-- The nodes that hold cached indices. -/
def inner : Finset NodeId := X.live.erase X.cache.rootNode

theorem mem_inner {X : Tree Digest A} {n : NodeId} :
    n ∈ X.inner ↔ n ∈ X.live ∧ n ≠ X.cache.rootNode := by
  rw [inner, Finset.mem_erase, and_comm]

end Tree

theorem mem_live {X : Tree Digest A} {n : NodeId} (h : n ∈ X.inner) : n ∈ X.live :=
  (Tree.mem_inner.mp h).1

/-- The heap represents the tree. -/
structure Shape (P : RadixParams Digest A) (X : Tree Digest A) : Prop where
  tree : PathTree Prod.fst P.pageSize X.live X.cache.rootNode X.cache.parentOf X.cache.entries
    X.path
  fresh : ∀ {n}, n ∈ X.live → n < X.cache.counter
  parent_some : ∀ {n}, n ∈ X.inner → (X.cache.node n).parent = some (X.cache.parentOf n)
  resident : ∀ {n}, n ∈ X.live → (X.cache.node n).evicted = false
  len_eq : ∀ {n}, n ∈ X.inner → (X.cache.node n).key.len = (X.cache.node n).indices.length
  child_iff : ∀ {p k n}, p ∈ X.live → ((X.cache.node p).children.lookup k = some n ↔
    n ∈ X.inner ∧ X.cache.parentOf n = p ∧ (X.cache.node n).key.childKey P.pageSize = k)

/-- The child dicts, as a child table. -/
theorem indexes_iff {P : RadixParams Digest A} {X : Tree Digest A} :
    Indexes X.live X.cache.rootNode X.cache.parentOf
        (fun n => some ((X.cache.node n).key.childKey P.pageSize))
        (fun p k => (X.cache.node p).children.lookup k) ↔
      ∀ {p k n}, p ∈ X.live → ((X.cache.node p).children.lookup k = some n ↔
        n ∈ X.inner ∧ X.cache.parentOf n = p ∧ (X.cache.node n).key.childKey P.pageSize = k) := by
  simp only [Indexes, Tree.mem_inner, Option.some_inj, and_assoc]

namespace Shape

variable {P : RadixParams Digest A} {X : Tree Digest A} (S : Shape P X) {n c p : NodeId}

include S

theorem root_mem : X.cache.rootNode ∈ X.live := S.tree.root_mem

theorem parent_mem (hn : n ∈ X.inner) : X.cache.parentOf n ∈ X.live :=
  S.tree.parent_mem (mem_live hn) (Tree.mem_inner.mp hn).2

theorem counter_notMem : X.cache.counter ∉ X.live := fun h => lt_irrefl _ (S.fresh h)

theorem counter_ne (hn : n ∈ X.live) : n ≠ X.cache.counter := fun heq => S.counter_notMem (heq ▸ hn)

/-- The nodes that hold cached indices after one node was added. -/
theorem mem_insert_iff : n ∈ insert X.cache.counter X.live ∧ n ≠ X.cache.rootNode ↔
    n = X.cache.counter ∨ n ∈ X.inner := by
  rw [Tree.mem_inner, Finset.mem_insert]
  constructor
  · rintro ⟨hn | hn, hr⟩
    · exact Or.inl hn
    · exact Or.inr ⟨hn, hr⟩
  · rintro (rfl | ⟨hn, hr⟩)
    · exact ⟨Or.inl rfl, (S.counter_ne S.root_mem).symm⟩
    · exact ⟨Or.inr hn, hr⟩

theorem fresh_insert (hn : n ∈ insert X.cache.counter X.live) : n < X.cache.counter + 1 := by
  rcases Finset.mem_insert.mp hn with rfl | hn
  · exact Nat.lt_succ_self _
  · exact (S.fresh hn).trans (Nat.lt_succ_self _)

section

variable (hn : n ∈ X.inner)
include hn

theorem map_fst_entries : (X.cache.entries n).map Prod.fst = (X.cache.node n).key.letters := by
  apply List.map_fst_zip
  rw [length_letters, S.len_eq hn]

theorem map_snd_entries : (X.cache.entries n).map Prod.snd = (X.cache.node n).indices := by
  apply List.map_snd_zip
  rw [length_letters, S.len_eq hn]

theorem length_entries : (X.cache.entries n).length = (X.cache.node n).key.len := by
  rw [← length_letters, ← S.map_fst_entries hn, List.length_map]

theorem page_le : P.pageSize ≤ (X.cache.node n).key.len := by
  rw [← S.length_entries hn]
  exact S.tree.page_le (mem_live hn) (Tree.mem_inner.mp hn).2

theorem len_pos : 0 < (X.cache.node n).key.len :=
  P.pageSize_pos.trans_le (S.page_le hn)

theorem page_dvd : P.pageSize ∣ (X.cache.node n).key.len := by
  rw [← S.length_entries hn]
  exact S.tree.page_dvd (mem_live hn) (Tree.mem_inner.mp hn).2

theorem parentOf_ne : X.cache.parentOf n ≠ n := by
  intro h
  have hlt := S.tree.length_parent_lt (mem_live hn) (Tree.mem_inner.mp hn).2
  rw [h] at hlt
  exact lt_irrefl _ hlt

end

/-- A child dict is empty exactly at the nodes nothing points up to. -/
theorem children_nil_iff (hp : p ∈ X.live) :
    (X.cache.node p).children.entries = [] ↔ ∀ m ∈ X.inner, X.cache.parentOf m ≠ p := by
  constructor
  · intro hnil m hm hmp
    have hmem := AList.mem_lookup_iff.mp ((S.child_iff hp).mpr ⟨hm, hmp, rfl⟩)
    rw [hnil] at hmem
    exact absurd hmem List.not_mem_nil
  · intro h
    by_contra hne
    obtain ⟨⟨k, m⟩, hm⟩ := List.exists_mem_of_ne_nil _ hne
    have hlook : (X.cache.node p).children.lookup k = some m := AList.mem_lookup_iff.mpr hm
    have := (S.child_iff hp).mp hlook
    exact h m this.1 this.2.1

theorem hasResidentChild_iff (hp : p ∈ X.live) :
    X.cache.hasResidentChild p = true ↔ (X.cache.node p).children.entries ≠ [] := by
  rw [RadixCache.hasResidentChild, List.any_eq_true]
  constructor
  · rintro ⟨e, he, _⟩ hnil
    rw [hnil] at he
    exact absurd he List.not_mem_nil
  · intro hne
    obtain ⟨⟨k, m⟩, hm⟩ := List.exists_mem_of_ne_nil _ hne
    have hlook : (X.cache.node p).children.lookup k = some m := AList.mem_lookup_iff.mpr hm
    have hin := ((S.child_iff hp).mp hlook).1
    exact ⟨⟨k, m⟩, hm, by simp [S.resident (mem_live hin)]⟩

/-- A lookup finds the child whose edge starts with the first page of a key. -/
theorem lookup_childKey {key : RadixKey} (hp : p ∈ X.live) (hkey : P.pageSize ≤ key.len) :
    (X.cache.node p).children.lookup (key.childKey P.pageSize) = some c ↔
      c ∈ X.inner ∧ X.cache.parentOf c = p ∧
        ((X.cache.entries c).take P.pageSize).map Prod.fst = key.letters.take P.pageSize := by
  rw [S.child_iff hp]
  refine and_congr_right fun hc => and_congr_right fun _ => ?_
  rw [childKey_eq_iff P.pageSize_pos (S.page_le hc) hkey, List.map_take, S.map_fst_entries hc]

end Shape

/-! ## Bookkeeping changes -/

/-- The cache `T` on the tree of `X`. -/
def RadixCache.reshape (T X : RadixCache Digest A) : RadixCache Digest A :=
  { T with
    rootNode := X.rootNode
    counter := X.counter
    node := fun n => { T.node n with
      children := (X.node n).children
      parent := (X.node n).parent
      key := (X.node n).key
      value := (X.node n).value } }

/-- The heaps agree on everything the shape of the tree depends on. -/
abbrev Agree (X : Tree Digest A) (T : RadixCache Digest A) : Prop := T = T.reshape X.cache

theorem Agree.shape {P : RadixParams Digest A} {X : Tree Digest A} {T : RadixCache Digest A}
    (h : Agree X T) (S : Shape P X) : Shape P { X with cache := T } := by
  rw [h]
  exact ⟨S.tree, S.fresh, S.parent_some, S.resident, S.len_eq, S.child_iff⟩

theorem Agree.inner_eq {X : Tree Digest A} {T : RadixCache Digest A} (h : Agree X T) :
    ({ X with cache := T } : Tree Digest A).inner = X.inner := by
  rw [h]
  rfl

end Sglang.Radix
