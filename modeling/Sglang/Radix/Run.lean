import Sglang.Radix.Evict

/-!
# Runs of the cache

The operations of the cache as one step type, and runs of them from `reset`.
`CacheOp.spec` says what each operation does to the tree.
-/

namespace Sglang.Radix

open Sglang.Support RadixKey

variable {Digest A : Type}

/-! ## Reading the tree -/

/-- The word read along the child dicts from the root to a node. -/
inductive RadixCache.RootPath (T : RadixCache Digest A) : NodeId → List (Letter × ℤ) → Prop
  | root : RootPath T T.rootNode []
  | child {p n : NodeId} {w : List (Letter × ℤ)} {k : ChildKey} (hp : RootPath T p w)
      (hn : (T.node p).children.lookup k = some n) : RootPath T n (w ++ T.entries n)

/-- The node is in the tree. -/
def RadixCache.InTree (T : RadixCache Digest A) (n : NodeId) : Prop := ∃ w, T.RootPath n w

variable {P : RadixParams Digest A} {X : Tree Digest A} {held : Multiset NodeId} {n : NodeId}
  {T : RadixCache Digest A}

/-- A root without children is the whole tree. -/
theorem RadixCache.InTree.eq_root (h : T.InTree n)
    (hnil : (T.node T.rootNode).children.entries = []) : n = T.rootNode := by
  obtain ⟨w, hw⟩ := h
  induction hw with
  | root => rfl
  | child _ hn ih =>
    rw [ih, AList.lookup, hnil] at hn
    cases hn

theorem Shape.rootPath_iff (S : Shape P X) {w : List (Letter × ℤ)} :
    X.cache.RootPath n w ↔ n ∈ X.live ∧ w = X.path n := by
  constructor
  · intro h
    induction h with
    | root => exact ⟨S.root_mem, S.tree.path_root.symm⟩
    | child _ hn ih =>
      obtain ⟨hin, hparent, _⟩ := (S.child_iff ih.1).mp hn
      have hin' := Tree.mem_inner.mp hin
      exact ⟨hin'.1, by rw [S.tree.path_eq hin'.1 hin'.2, hparent, ← ih.2]⟩
  · rintro ⟨hn, rfl⟩
    refine S.tree.induct (motive := fun n => X.cache.RootPath n (X.path n)) ?_ ?_ n hn
    · rw [S.tree.path_root]
      exact .root
    · intro m hm hr hparent
      rw [S.tree.path_eq hm hr]
      have hin := Tree.mem_inner.mpr ⟨hm, hr⟩
      exact .child hparent ((S.child_iff (S.parent_mem hin)).mpr ⟨hin, rfl, rfl⟩)

theorem Shape.inTree_iff (S : Shape P X) : X.cache.InTree n ↔ n ∈ X.live := by
  constructor
  · rintro ⟨w, hw⟩
    exact (S.rootPath_iff.mp hw).1
  · intro hn
    exact ⟨_, S.rootPath_iff.mpr ⟨hn, rfl⟩⟩

/-! ## Reset -/

/-- The tree of a root alone. -/
def Tree.fresh (P : RadixParams Digest A) (T : RadixCache Digest A) : Tree Digest A where
  cache := T.reset P
  live := {T.counter}
  path := fun _ => []

/-- The root `reset` creates. -/
def rootTreeNode : TreeNode Digest where
  children := ∅
  parent := none
  key := { tokenIds := [] }
  value := some []
  lockRef := 1
  hashValue := some []
  sessionIds := ∅

theorem reset_eq (P : RadixParams Digest A) (T : RadixCache Digest A) : T.reset P =
      { node := Function.update T.node T.counter rootTreeNode
        counter := T.counter + 1
        rootNode := T.counter
        evictableSize := 0
        protectedSize := 0
        evictableLeaves := ∅
        sessionLeaves := fun _ => ∅
        closedSessionIds := []
        kvEventQueue := T.kvEventQueue ++ if P.enableKvCacheEvents then [.allBlocksCleared] else []
        allocator := T.allocator } := by
  unfold RadixCache.reset RadixCache.recordAllClearedEvent
  split
  · rfl
  · rw [List.append_nil]
    rfl

theorem inner_fresh (P : RadixParams Digest A) (T : RadixCache Digest A) :
    (Tree.fresh P T).inner = ∅ := by
  rw [Tree.inner, Tree.fresh, reset_eq]
  simp

theorem inv_fresh (P : RadixParams Digest A) (T : RadixCache Digest A) :
    Inv P (Tree.fresh P T) 0 := by
  have hroot : (T.reset P).rootNode = T.counter := by rw [reset_eq]
  have hnode : (T.reset P).node T.counter = rootTreeNode := by
    rw [reset_eq]
    exact Function.update_self _ _ _
  have hnone : ∀ {n}, n ∉ (Tree.fresh P T).inner := by
    intro n hn
    rw [inner_fresh] at hn
    exact absurd hn (Finset.notMem_empty n)
  have honly : ∀ {n}, n ∈ (Tree.fresh P T).live → n = T.counter := Finset.mem_singleton.mp
  refine ⟨⟨?_, ?_, fun hn => absurd hn hnone, ?_, fun hn => absurd hn hnone, ?_⟩,
    ⟨fun m hm => absurd hm (Multiset.notMem_zero m), fun n hn => absurd hn hnone, ?_⟩,
    ⟨?_, ?_, ?_⟩, ?_, fun n hn => absurd hn hnone⟩
  · change PathTree _ _ _ (T.reset P).rootNode _ _ _
    rw [hroot]
    exact .single P.pageSize_pos _ _ _
  · intro n hn
    rw [honly hn]
    change T.counter < (T.reset P).counter
    rw [reset_eq]
    exact Nat.lt_succ_self _
  · intro n hn
    rw [honly hn]
    change ((T.reset P).node T.counter).evicted = false
    rw [hnode]
    rfl
  · intro p k n hp
    rw [honly hp]
    change ((T.reset P).node T.counter).children.lookup k = some n ↔ _
    rw [hnode]
    exact iff_of_false (by simp [rootTreeNode, AList.lookup]) fun h => hnone h.1
  · change ((T.reset P).node (T.reset P).rootNode).lockRef = 1
    rw [hroot, hnode]
    rfl
  · rw [inner_fresh]
    change (T.reset P).evictableSize = _
    rw [reset_eq]
    rfl
  · rw [inner_fresh]
    change (T.reset P).protectedSize = _
    rw [reset_eq]
    rfl
  · intro n
    refine iff_of_false ?_ fun h => hnone h.1
    change n ∉ (T.reset P).evictableLeaves
    rw [reset_eq]
    exact Finset.notMem_empty n
  · change ((T.reset P).node (T.reset P).rootNode).key.len = 0
    rw [hroot, hnode]
    rfl

/-! ## Operations -/

/-- The operations of a cache. -/
inductive CacheOp where
  | reset
  | insert (key : RadixKey) (value : Option (List ℤ))
  | matchPrefix (key : RadixKey)
  | incLockRef (n : NodeId)
  | decLockRef (n : NodeId)
  | evict (pick : ℕ → Finset NodeId → NodeId) (numTokens : ℕ)
  | releaseRadixSession (order : Finset NodeId → List NodeId) (sid : String)
  | tagSessionLeaf (sid : Option String) (key : RadixKey) (n : Option NodeId)

namespace CacheOp

/-- The cache after an operation. -/
def run (P : RadixParams Digest A) (T : RadixCache Digest A) :
    CacheOp → Except RadixError (RadixCache Digest A)
  | reset => .ok (T.reset P)
  | insert key value => (fun r => r.2.2) <$> T.insert P key value
  | matchPrefix key => (fun r => r.2.2) <$> T.matchPrefix P key
  | incLockRef n => T.incLockRef n
  | decLockRef n => T.decLockRef n
  | evict pick numTokens => (fun r => r.2) <$> T.evict P pick numTokens
  | releaseRadixSession order sid => (fun r => r.2) <$> T.releaseRadixSession P order sid
  | tagSessionLeaf sid key n => T.tagSessionLeaf P sid key n

/-- What callers keep to: an index for every inserted unit, locks on nodes of the
tree, releases of nodes they hold. -/
def Legal (P : RadixParams Digest A) (T : RadixCache Digest A) (held : Multiset NodeId) :
    CacheOp → Prop
  | reset => True
  | insert key value => P.Supplied key value
  | matchPrefix _ => True
  | incLockRef n => T.InTree n
  | decLockRef n => n ∈ held
  | evict pick _ => Picks pick
  | releaseRadixSession _ _ => True
  | tagSessionLeaf _ _ n => ∀ m, n = some m → T.InTree m

/-- The nodes held after an operation. -/
def heldAfter (held : Multiset NodeId) : CacheOp → Multiset NodeId
  | reset => 0
  | incLockRef n => n ::ₘ held
  | decLockRef n => held.erase n
  | _ => held

/-- What an operation does to the tree. -/
def Effect (P : RadixParams Digest A) (X Y : Tree Digest A) : CacheOp → Prop
  | reset => Y = Tree.fresh P X.cache
  | insert key value => ∃ Z m k last, Inserted P X (P.query key) (P.stored key value) Z m k Y last
  | matchPrefix key => ∃ m k, Reached P X X.cache.rootNode (P.query key) Y m k
  | incLockRef n => ∃ T, Lifted X n 1 T ∧ Y = { X with cache := T }
  | decLockRef n => ∃ T, Lifted X n (-1) T ∧ Y = { X with cache := T }
  | evict _ _ => ∃ xs, Evicts P X xs Y
  | releaseRadixSession _ _ => ReleaseSteps P X Y
  | tagSessionLeaf _ _ _ => ∃ Z T, Refined P X Z ∧ Retagged Z T ∧ Y = { Z with cache := T }

end CacheOp

theorem tagSessionLeaf_spec (S : Shape P X) (sid : Option String) (key : RadixKey)
    (n : Option NodeId) :
    ∃ Z T, X.cache.tagSessionLeaf P sid key n = .ok T ∧ Refined P X Z ∧ Retagged Z T := by
  unfold RadixCache.tagSessionLeaf
  cases sid with
  | none => exact ⟨X, X.cache, rfl, Or.inl rfl, rfl⟩
  | some sid =>
    simp only
    split
    · exact ⟨X, X.cache, rfl, Or.inl rfl, rfl⟩
    · cases n with
      | some n => exact ⟨X, _, rfl, Or.inl rfl, tagNode_retagged X sid n⟩
      | none =>
        obtain ⟨Y, m, k, hmatch, hreach⟩ := matchPrefix_spec S key
        refine ⟨Y, Y.cache.tagNode sid m, ?_, hreach.refined, tagNode_retagged Y sid m⟩
        simp [hmatch, bind, Except.bind]

theorem Lifted.inv {δ : ℤ} {held' : Multiset NodeId}
    (h : Lifted X n δ T) (I : Inv P X held) (L : Locked { X with cache := T } held')
    (C : Accounts { X with cache := T }) : Inv P { X with cache := T } held' :=
  ⟨h.agree.shape I.shape, L, C, I.hashed.congr h.agree fun _ _ => by rw [h]; rfl⟩

/-- Every legal operation returns, has its effect and keeps the invariant. -/
theorem CacheOp.spec (I : Inv P X held) {op : CacheOp} (hop : op.Legal P X.cache held) :
    ∃ Y, op.run P X.cache = .ok Y.cache ∧ op.Effect P X Y ∧ Inv P Y (op.heldAfter held) := by
  cases op with
  | reset => exact ⟨Tree.fresh P X.cache, rfl, rfl, inv_fresh P X.cache⟩
  | insert key value =>
    obtain ⟨Z, m, k, Y, last, hins, hspec⟩ := insert_spec I.shape hop
    refine ⟨Y, ?_, ⟨Z, m, k, last, hspec⟩, hspec.inv I⟩
    rw [CacheOp.run, hins]
    rfl
  | matchPrefix key =>
    obtain ⟨Y, m, k, hmatch, hreach⟩ := matchPrefix_spec I.shape key
    refine ⟨Y, ?_, ⟨m, k, hreach⟩, hreach.refined.inv I⟩
    rw [CacheOp.run, hmatch]
    rfl
  | incLockRef n =>
    obtain ⟨T, hT, hlift, L, hacc⟩ := incLockRef_spec I.shape I.locked (I.shape.inTree_iff.mp hop)
    exact ⟨{ X with cache := T }, hT, ⟨T, hlift, rfl⟩, hlift.inv I L (hacc I.accounts)⟩
  | decLockRef n =>
    have L := I.locked
    rw [← Multiset.cons_erase hop] at L
    obtain ⟨T, hT, hlift, L', hacc⟩ := decLockRef_spec I.shape L
    exact ⟨{ X with cache := T }, hT, ⟨T, hlift, rfl⟩, hlift.inv I L' (hacc I.accounts)⟩
  | evict pick numTokens =>
    obtain ⟨k, Y, xs, hev, hsteps⟩ := evict_spec hop numTokens I
    refine ⟨Y, ?_, ⟨xs, hsteps⟩,
      (hsteps.keep (J := fun _ => True) I trivial fun _ _ _ => trivial).1⟩
    rw [CacheOp.run, hev]
    rfl
  | releaseRadixSession order sid =>
    obtain ⟨k, Y, hrel, hsteps, -⟩ := releaseRadixSession_spec order sid I
    refine ⟨Y, ?_, hsteps, hsteps.inv I⟩
    rw [CacheOp.run, hrel]
    rfl
  | tagSessionLeaf sid key n =>
    obtain ⟨Z, T, hT, hrefine, htag⟩ := tagSessionLeaf_spec I.shape sid key n
    exact ⟨{ Z with cache := T }, hT, ⟨Z, T, hrefine, htag, rfl⟩, htag.inv (hrefine.inv I)⟩

/-! ## Runs -/

/-- Runs from `reset`; `held` lists the nodes whose lock was taken and not yet
released. -/
inductive CacheRun (P : RadixParams Digest A) : RadixCache Digest A → Multiset NodeId → Prop
  | start (T : RadixCache Digest A) : CacheRun P (T.reset P) 0
  | step {T T' : RadixCache Digest A} {held : Multiset NodeId} {op : CacheOp}
      (hrun : CacheRun P T held) (hop : op.Legal P T held) (hok : op.run P T = .ok T') :
      CacheRun P T' (op.heldAfter held)

theorem CacheRun.inv (h : CacheRun P T held) : ∃ X : Tree Digest A, X.cache = T ∧ Inv P X held := by
  induction h with
  | start T => exact ⟨Tree.fresh P T, rfl, inv_fresh P T⟩
  | step _ hop hok ih =>
    obtain ⟨X, rfl, I⟩ := ih
    obtain ⟨Y, hY, _, IY⟩ := CacheOp.spec I hop
    exact ⟨Y, Except.ok.inj (hY.symm.trans hok), IY⟩

/-- The cache after an operation, unchanged if it raised. -/
def CacheOp.next (P : RadixParams Digest A) (T : RadixCache Digest A) (op : CacheOp) :
    RadixCache Digest A :=
  match op.run P T with
  | .ok T' => T'
  | .error _ => T

theorem CacheRun.next (h : CacheRun P T held) {op : CacheOp}
    (hop : op.Legal P T held) : CacheRun P (op.next P T) (op.heldAfter held) := by
  obtain ⟨X, rfl, I⟩ := h.inv
  obtain ⟨Y, hY, _, _⟩ := CacheOp.spec I hop
  refine .step h hop ?_
  rw [CacheOp.next, hY]

/-! ## A small cache -/

/-- Single-token pages, no events, no sessions. -/
def plainParams : RadixParams Unit Unit where
  pageSize := 1
  pageSize_pos := Nat.one_pos
  isEagle := false
  enableKvCacheEvents := false
  enableSessionRadixCache := false
  disableFinishedInsert := false
  nativeHash := fun _ _ => ()
  leadingBits := fun _ => 0
  free := fun a _ => a

/-- The attributes before the first `reset`. -/
def blankCache (a : A) : RadixCache Digest A where
  node := fun _ => rootTreeNode
  counter := 0
  rootNode := 0
  evictableSize := 0
  protectedSize := 0
  evictableLeaves := ∅
  sessionLeaves := fun _ => ∅
  closedSessionIds := []
  kvEventQueue := []
  allocator := a

/-- Two words with the same first token; the second one splits the node of the first. -/
def sharedPrefix (P : RadixParams Digest Unit) : RadixCache Digest Unit :=
  (CacheOp.insert { tokenIds := [7, 9] } (some [3, 5])).next P
    ((CacheOp.insert { tokenIds := [7, 8] } (some [3, 4])).next P ((blankCache ()).reset P))

/-- The end of the first word is in the tree. -/
theorem inTree_firstWord
    (hword : (T.node T.rootNode).children.lookup ⟨none, [.token 7]⟩ = some 2)
    (hend : (T.node 2).children.lookup ⟨none, [.token 8]⟩ = some 1) : T.InTree 1 :=
  ⟨_, .child (.child .root hword) hend⟩

/-- The end of the first word is locked twice. -/
def twiceLocked : RadixCache Unit Unit :=
  (CacheOp.incLockRef 1).next plainParams
    ((CacheOp.incLockRef 1).next plainParams (sharedPrefix plainParams))

theorem run_twiceLocked : CacheRun plainParams twiceLocked {1, 1} := by
  have hshared : CacheRun plainParams (sharedPrefix plainParams) 0 := by
    refine ((CacheRun.start _).next ?_).next ?_ <;> rintro v ⟨⟩ <;> decide
  refine (hshared.next ?_).next ?_
  all_goals exact inTree_firstWord (by decide +kernel) (by decide +kernel)

end Sglang.Radix
