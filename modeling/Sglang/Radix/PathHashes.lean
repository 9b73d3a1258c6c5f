import Sglang.Radix.Run

/-!
# Hashes along a path

The node hash lists on the way from the root to a node, read one after the
other, are the digests of the word of the node: in every run, session closes
that delete leaves included.
-/

namespace Sglang.Radix

open Sglang.Support RadixKey

variable {Digest A : Type} {P : RadixParams Digest A} {X Y : Tree Digest A}
  {T : RadixCache Digest A} {held : Multiset NodeId} {n m : NodeId} {w : List (Letter × ℤ)}
  {hashes : List Digest}

/-- The word and the hashes read along the child dicts from the root to a node, all of
whose nodes hold hashes. -/
inductive RadixCache.HashPath (T : RadixCache Digest A) :
    NodeId → List (Letter × ℤ) → List Digest → Prop
  | root : HashPath T T.rootNode [] []
  | child {p n : NodeId} {w : List (Letter × ℤ)} {hashes nodeHashes : List Digest}
      {k : ChildKey} (hp : HashPath T p w hashes)
      (hn : (T.node p).children.lookup k = some n)
      (hhash : (T.node n).hashValue = some nodeHashes) :
      HashPath T n (w ++ T.entries n) (hashes ++ nodeHashes)

theorem RadixCache.HashPath.rootPath (h : T.HashPath n w hashes) : T.RootPath n w := by
  induction h with
  | root => exact .root
  | child _ hn _ ih => exact .child ih hn

/-- The digests of the parent's word and those of the node. -/
theorem Shape.digests_path (S : Shape P X) (hn : n ∈ X.inner) : digests P (X.path n) =
      digests P (X.path (X.cache.parentOf n)) ++ nodeDigests P X n := by
  have hin := Tree.mem_inner.mp hn
  have hdvd := S.tree.page_dvd_path (S.parent_mem hn)
  rw [S.nodeDigests_eq hn, S.tree.path_eq hin.1 hin.2, digests_append hdvd, S.units_entries hn]

theorem Inv.hashPath_eq (I : Inv P X held) (h : X.cache.HashPath n w hashes) :
    hashes = digests P w := by
  induction h with
  | root => exact (digests_nil P).symm
  | child hp hn hhash ih =>
    obtain ⟨hlive, rfl⟩ := I.shape.rootPath_iff.mp hp.rootPath
    obtain ⟨hin, hparent, _⟩ := (I.shape.child_iff hlive).mp hn
    have hpath := I.shape.rootPath_iff.mp (.child hp.rootPath hn)
    rw [I.hashed.hash_eq _ hin, hashes_eq_some] at hhash
    rw [hpath.2, I.shape.digests_path hin, hparent, ih, hhash.2]

/-- In every run the hashes along a path are the digests of its word, which consists
of whole pages. -/
theorem CacheRun.hashPath_eq (h : CacheRun P T held) (hpath : T.HashPath n w hashes) :
    hashes = digests P w ∧ P.pageSize ∣ w.length := by
  obtain ⟨X, rfl, I⟩ := h.inv
  refine ⟨I.hashPath_eq hpath, ?_⟩
  obtain ⟨hlive, rfl⟩ := I.shape.rootPath_iff.mp hpath.rootPath
  exact I.shape.tree.page_dvd_path hlive

/-- With events on every node of the tree has such a path. -/
theorem CacheRun.exists_hashPath (h : CacheRun P T held) (hon : P.enableKvCacheEvents = true)
    (hpath : T.RootPath n w) : ∃ hashes, T.HashPath n w hashes := by
  obtain ⟨X, rfl, I⟩ := h.inv
  induction hpath with
  | root => exact ⟨[], .root⟩
  | child hp hn ih =>
    obtain ⟨hashes, hih⟩ := ih
    obtain ⟨hin, _, _⟩ := (I.shape.child_iff (I.shape.rootPath_iff.mp hp).1).mp hn
    exact ⟨_, .child hih hn ((I.hashed.hash_eq _ hin).trans (if_pos hon))⟩

end Sglang.Radix
