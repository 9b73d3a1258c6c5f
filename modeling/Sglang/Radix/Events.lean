import Mathlib.Algebra.BigOperators.Group.Finset.Basic
import Mathlib.Algebra.Order.Group.Multiset
import Sglang.Radix.Run

/-!
# The event stream

A consumer that replays the emitted events holds the page blocks of the tree: stored
blocks chain on blocks it already holds, removed ones are dropped. Closing
a session deletes nodes without an event, so this is proved for runs in which no
close deletes anything.
-/

namespace Sglang.Radix

open Sglang.Support RadixKey RadixCache Radix.Tree

variable {Digest A : Type}

/-! ## Replaying events -/

/-- What an event does to the blocks a consumer holds. -/
def applyEvent (blocks : Multiset ℤ) : KVEvent → Multiset ℤ
  | .blockStored blockHashes _ _ _ => blocks + blockHashes
  | .blockRemoved blockHashes => blocks - blockHashes
  | .allBlocksCleared => 0

def replay (events : List KVEvent) : Multiset ℤ := events.foldl applyEvent 0

/-- A stored block is the hash of its page on a prior block, which is held if there is one. -/
def EventOk (P : RadixParams Digest A) (blocks : Multiset ℤ) : KVEvent → Prop
  | .blockStored blockHashes parent tokenIds _ => ∃ prior : Option Digest,
      parent = prior.map (hashStrToInt64 P) ∧
      blockHashes = [hashStrToInt64 P (P.nativeHash prior tokenIds)] ∧
      ∀ h, parent = some h → h ∈ blocks
  | _ => True

/-- Every event is in order for the blocks held before it. -/
def Parented (P : RadixParams Digest A) : Multiset ℤ → List KVEvent → Prop
  | _, [] => True
  | blocks, event :: rest => EventOk P blocks event ∧ Parented P (applyEvent blocks event) rest

theorem parented_append (P : RadixParams Digest A) (blocks : Multiset ℤ)
    (events rest : List KVEvent) : Parented P blocks (events ++ rest) ↔
      Parented P blocks events ∧ Parented P (events.foldl applyEvent blocks) rest := by
  induction events generalizing blocks with
  | nil => simp [Parented]
  | cons event events ih => simp [Parented, ih, and_assoc]

theorem replay_append (events rest : List KVEvent) :
    replay (events ++ rest) = rest.foldl applyEvent (replay events) :=
  List.foldl_append

/-- The store events of chained pages add their hashes. -/
theorem foldl_blockEvents (P : RadixParams Digest A) (parent : Option ℤ) (prior : Option Digest)
    (ps : List (List Gram)) (blocks : Multiset ℤ) :
    (blockEvents P parent ps (chain P.nativeHash prior ps)).foldl applyEvent blocks =
      blocks + ((chain P.nativeHash prior ps).map (hashStrToInt64 P) :) := by
  induction ps generalizing parent prior blocks with
  | nil => simp [blockEvents, chain]
  | cons page rest ih =>
    rw [chain, blockEvents, List.foldl_cons, ih, applyEvent, add_assoc, Multiset.coe_add]
    rfl

theorem parented_blockEvents (P : RadixParams Digest A) {prior : Option Digest}
    (ps : List (List Gram)) {blocks : Multiset ℤ}
    (h : ∀ x, prior.map (hashStrToInt64 P) = some x → x ∈ blocks) :
    Parented P blocks (blockEvents P (prior.map (hashStrToInt64 P)) ps
      (chain P.nativeHash prior ps)) := by
  induction ps generalizing prior blocks with
  | nil => simp [blockEvents, Parented]
  | cons page rest ih =>
    rw [chain, blockEvents]
    refine ⟨⟨prior, rfl, rfl, h⟩, ?_⟩
    apply @ih (some (P.nativeHash prior page))
    intro x hx
    rw [Option.map_some, Option.some.injEq] at hx
    rw [applyEvent, ← hx]
    exact Multiset.mem_add.mpr (Or.inr (by simp))

/-! ## The blocks of the tree -/

variable {P : RadixParams Digest A} {X Y : Tree Digest A} {T : RadixCache Digest A}
  {held : Multiset NodeId} {n m : NodeId} {k : ℕ} {sid : String}

/-- The block hashes of a node. -/
def nodeBlocks (P : RadixParams Digest A) (X : Tree Digest A) (n : NodeId) : Multiset ℤ :=
  ((nodeDigests P X n).map (hashStrToInt64 P) :)

def Tree.blocks (P : RadixParams Digest A) (X : Tree Digest A) : Multiset ℤ :=
  ∑ n ∈ X.inner, nodeBlocks P X n

theorem Agree.blocks_eq (h : Agree X T) :
    ({ X with cache := T } : Tree Digest A).blocks P = X.blocks P := by
  rw [h]
  rfl

/-- Cutting an edge divides its blocks. -/
theorem Cut.blocks_eq {c : NodeId} (h : Cut P X c k) (S : Shape P X) :
    (X.cut P c k).blocks P = X.blocks P := by
  refine h.sum_inner S ?_ fun n hn hnc => ?_
  · rw [nodeBlocks, nodeBlocks, nodeBlocks, h.nodeDigests_new S, h.nodeDigests_cut S,
      Multiset.coe_add, ← List.map_append, List.take_append_drop]
  · rw [nodeBlocks, Cut.nodeDigests_kept S hn hnc, nodeBlocks]

theorem Graft.blocks_eq {p : NodeId} {key : RadixKey} {value : List ℤ}
    (h : Graft P X p key value) (S : Shape P X) : (X.attach P p key value).blocks P =
      X.blocks P + nodeBlocks P (X.graft P p key value) X.cache.counter := by
  have hattach : (X.attach P p key value).blocks P = (X.graft P p key value).blocks P :=
    (same_attach X p key value).agree.blocks_eq
  rw [hattach, add_comm]
  refine sum_inner S fun n hn => ?_
  rw [nodeBlocks, h.nodeDigests_kept S hn, nodeBlocks]

theorem Leaf.blocks_eq (h : Leaf X n) (S : Shape P X) :
    X.blocks P = nodeBlocks P X n + (X.prune P n).blocks P := by
  refine h.sum_inner fun m _ hm => ?_
  rw [nodeBlocks, nodeBlocks, nodeDigests, nodeDigests, h.parentOf_kept S hm]
  rfl

/-! ## The stream follows the tree -/

/-- The consumer holds the blocks of the tree. -/
structure Stream (P : RadixParams Digest A) (X : Tree Digest A) : Prop where
  replay_eq : replay X.cache.kvEventQueue = X.blocks P
  parented : Parented P 0 X.cache.kvEventQueue

theorem Refined.stream (h : Refined P X Y) (S : Shape P X) (E : Stream P X) : Stream P Y := by
  rcases h with rfl | ⟨c, k, hcut, rfl⟩
  · exact E
  · exact ⟨E.replay_eq.trans (hcut.blocks_eq S).symm, E.parented⟩

theorem Retagged.stream (h : Retagged X T) (E : Stream P X) : Stream P { X with cache := T } := by
  rw [h]
  exact ⟨E.replay_eq, E.parented⟩

theorem Lifted.stream {δ : ℤ} (h : Lifted X n δ T) (E : Stream P X) :
    Stream P { X with cache := T } := by
  rw [h]
  exact ⟨E.replay_eq, E.parented⟩

theorem stream_fresh (hon : P.enableKvCacheEvents = true) {T : RadixCache Digest A}
    (hqueue : Parented P 0 T.kvEventQueue) : Stream P (fresh P T) := by
  have hevents : (fresh P T).cache.kvEventQueue = T.kvEventQueue ++ [.allBlocksCleared] := by
    rw [fresh, reset_eq, if_pos hon]
  refine ⟨?_, ?_⟩
  · rw [hevents, replay_append, blocks, inner_fresh]
    rfl
  · rw [hevents, parented_append]
    exact ⟨hqueue, trivial, trivial⟩

/-- The blocks of a node of the tree are held. -/
theorem nodeBlocks_le (hn : n ∈ X.inner) : nodeBlocks P X n ≤ X.blocks P := by
  rw [blocks, ← Finset.add_sum_erase _ _ hn]
  exact Multiset.le_add_right _ _

namespace Graft

variable {p : NodeId} {key : RadixKey} {value : List ℤ}

variable (h : Graft P X p key value)
include h

/-- The parent named by the first event of a new leaf. -/
theorem parentBlockHash_new (S : Shape P X) (H : Hashed P X)
    (hon : P.enableKvCacheEvents = true) :
    (X.graft P p key value).cache.parentBlockHash P
        ((X.graft P p key value).cache.node X.cache.counter) =
      (digests P (X.path p)).getLast?.map (hashStrToInt64 P) := by
  have hparent : ((X.graft P p key value).cache.node X.cache.counter).parent = some p := by
    rw [h.node_new S]
  unfold parentBlockHash
  rw [hparent]
  simp only [root_eq]
  by_cases hr : p = X.cache.rootNode
  · rw [if_pos hr, hr, S.tree.path_root, digests_nil]
    rfl
  · have hin := mem_inner.mpr ⟨h.mem, hr⟩
    rw [if_neg hr, h.node_kept S h.mem]
    simp only [H.hash_eq p hin, RadixParams.hashes, if_pos hon, Option.bind_some]
    rw [S.getLast_nodeDigests hin]

/-- The last block of the place of a new leaf is held. -/
theorem mem_blocks_of_last (S : Shape P X) {x : ℤ}
    (hx : (digests P (X.path p)).getLast?.map (hashStrToInt64 P) = some x) :
    x ∈ X.blocks P := by
  by_cases hr : p = X.cache.rootNode
  · rw [hr, S.tree.path_root, digests_nil] at hx
    exact absurd hx (by simp)
  · have hin := mem_inner.mpr ⟨h.mem, hr⟩
    rw [← S.getLast_nodeDigests hin] at hx
    obtain ⟨d, hd, rfl⟩ := Option.map_eq_some_iff.mp hx
    refine Multiset.mem_of_le (nodeBlocks_le hin) ?_
    exact Multiset.mem_coe.mpr (List.mem_map_of_mem (List.mem_of_getLast? hd))

theorem kvEventQueue_attach (S : Shape P X) (H : Hashed P X) (hon : P.enableKvCacheEvents = true) :
    (X.attach P p key value).cache.kvEventQueue = X.cache.kvEventQueue ++
      blockEvents P ((digests P (X.path p)).getLast?.map (hashStrToInt64 P))
        (pages P.pageSize key.units)
        (chain P.nativeHash (digests P (X.path p)).getLast? (pages P.pageSize key.units)) := by
  have hin : X.cache.counter ∈ (X.graft P p key value).inner := (mem_inner_iff S).mpr (Or.inl rfl)
  have hkey : ((X.graft P p key value).cache.node X.cache.counter).key = key := by rw [h.node_new S]
  have hqueue : (X.graft P p key value).cache.kvEventQueue = X.cache.kvEventQueue := by
    simp [graft, attachLeaf, setNode]
  have hchain := (h.shape S).nodeDigests_eq hin
  rw [h.parentOf_new S, path_kept S h.mem, hkey] at hchain
  simp only [attach, withStoreEvent, if_pos hon, hqueue]
  rw [h.parentBlockHash_new S H hon, h.compute_new S H hon, hchain, hkey]

theorem stream (S : Shape P X) (H : Hashed P X) (E : Stream P X)
    (hon : P.enableKvCacheEvents = true) : Stream P (X.attach P p key value) := by
  have hin : X.cache.counter ∈ (X.graft P p key value).inner := (mem_inner_iff S).mpr (Or.inl rfl)
  have hchain := (h.shape S).nodeDigests_eq hin
  rw [h.parentOf_new S, path_kept S h.mem, h.node_new S] at hchain
  refine ⟨?_, ?_⟩
  · rw [h.kvEventQueue_attach S H hon, replay_append, foldl_blockEvents, E.replay_eq,
      h.blocks_eq S, nodeBlocks, hchain]
  · rw [h.kvEventQueue_attach S H hon, parented_append]
    refine ⟨E.parented, parented_blockEvents P _ fun x hx => ?_⟩
    change x ∈ replay X.cache.kvEventQueue
    rw [E.replay_eq]
    exact h.mem_blocks_of_last S hx

end Graft

theorem Inserted.stream {key : RadixKey} {value : List ℤ} {Z : Tree Digest A}
    {last : NodeId} (h : Inserted P X key value Y m k Z last) (I : Inv P X held)
    (E : Stream P X) (hon : P.enableKvCacheEvents = true) : Stream P Z := by
  have IY := h.reached.refined.inv I
  have EY := h.reached.refined.stream I.shape E
  rcases h.done with ⟨_, rfl, _⟩ | ⟨_, _, rest, hgraft, _, rfl⟩
  · exact EY
  · exact hgraft.stream IY.shape IY.hashed EY hon

namespace Leaf

/-- The remove event of an evicted leaf names its blocks. -/
theorem kvEventQueue_evictOne (h : Leaf X n) (S : Shape P X) (H : Hashed P X)
    (hon : P.enableKvCacheEvents = true) :
    (X.evictOne P n).cache.kvEventQueue = X.cache.kvEventQueue ++ if nodeDigests P X n = [] then []
      else [.blockRemoved ((nodeDigests P X n).map (hashStrToInt64 P))] := by
  have hvalues : (X.freed P n).cache.hashValues P ((X.freed P n).cache.node n) =
      nodeDigests P X n := by
    rw [h.node_freed S, hashValues]
    simp [H.hash_eq n h.mem, RadixParams.hashes, hon]
  have hqueue : (X.freed P n).cache.kvEventQueue = X.cache.kvEventQueue := by
    simp [freed, prune, unlink, discardSessionLeaf, setNode]
  simp [evictOne, withRemoveEvent, if_pos hon, hvalues, hqueue]

theorem stream_evictOne (h : Leaf X n) (S : Shape P X) (H : Hashed P X) (E : Stream P X)
    (hon : P.enableKvCacheEvents = true) : Stream P (X.evictOne P n) := by
  have hblocks : (X.evictOne P n).blocks P = (X.prune P n).blocks P :=
    (same_evictOne (P := P) X n).agree.blocks_eq
  refine ⟨?_, ?_⟩
  · rw [h.kvEventQueue_evictOne S H hon, replay_append, E.replay_eq, hblocks,
      h.blocks_eq S, nodeBlocks]
    by_cases hnil : nodeDigests P X n = []
    · rw [if_pos hnil, hnil]
      simp
    · rw [if_neg hnil]
      exact add_tsub_cancel_left _ _
  · rw [h.kvEventQueue_evictOne S H hon, parented_append]
    refine ⟨E.parented, ?_⟩
    split
    · trivial
    · exact ⟨trivial, trivial⟩

end Leaf

/-! ## Runs -/

/-- A leaf that only the session keeps: it is unlocked and has no child and no other holder. -/
def SoleHolder (T : RadixCache Digest A) (sid : String) (n : NodeId) : Prop :=
  n ≠ T.rootNode ∧ (T.node n).lockRef = 0 ∧ (T.node n).children.entries = [] ∧
    n ∈ T.evictableLeaves ∧ (T.node n).sessionIds = {sid}

instance (T : RadixCache Digest A) (sid : String) (n : NodeId) : Decidable (SoleHolder T sid n) :=
  inferInstanceAs (Decidable (_ ∧ _ ∧ _ ∧ _ ∧ _))

/-- No leaf of a session that is closed is kept by that session only. -/
def CacheOp.Quiet (T : RadixCache Digest A) : CacheOp → Prop
  | releaseRadixSession order sid => ∀ n ∈ order (T.sessionLeaves sid), ¬SoleHolder T sid n
  | _ => True

theorem retained_dropHolder (hmem : sid ∈ (T.node n).sessionIds) (h : ¬SoleHolder T sid n) :
    (T.dropHolder sid n).Retained n := by
  by_contra hret
  simp only [Retained, dropHolder, setNode, Function.update_self, not_or, not_not] at hret
  obtain ⟨hroot, hlock, hchildren, hleaf, hids⟩ := hret
  exact h ⟨hroot, hlock, hchildren, hleaf, by rw [← Finset.insert_erase hmem, hids]; rfl⟩

/-- Leaves that others keep too only lose their tag. -/
theorem releaseLeaves_quiet (P : RadixParams Digest A) (leaves : List NodeId) (freed : ℕ)
    (h : ∀ n ∈ leaves, sid ∈ (T.node n).sessionIds → ¬SoleHolder T sid n) :
    ∃ T', releaseLeaves P sid leaves T freed = .ok (freed, T') := by
  induction leaves generalizing T with
  | nil => exact ⟨T, rfl⟩
  | cons leaf rest ih =>
    rw [List.forall_mem_cons] at h
    rw [releaseLeaves]
    by_cases hmem : sid ∈ (T.node leaf).sessionIds
    · obtain ⟨T', hT'⟩ : ∃ T', releaseLeaves P sid rest (T.dropHolder sid leaf) freed =
          .ok (freed, T') := by
        refine ih fun n hn hin => ?_
        by_cases hleaf : n = leaf
        · subst hleaf
          simp [dropHolder, setNode] at hin
        · have hnode : (T.dropHolder sid leaf).node n = T.node n := Function.update_of_ne hleaf _ _
          rw [hnode] at hin
          rw [SoleHolder, hnode]
          exact h.2 n hn hin
      refine ⟨T', ?_⟩
      rw [if_pos hmem, releaseUpward, if_pos (retained_dropHolder hmem (h.1 hmem))]
      exact hT'
    · rw [if_neg hmem]
      exact ih h.2

theorem releaseRadixSession_quiet (P : RadixParams Digest A) (order : Finset NodeId → List NodeId)
    (h : ∀ n ∈ order (T.sessionLeaves sid), ¬SoleHolder T sid n) :
    ∃ T', T.releaseRadixSession P order sid = .ok (0, T') := by
  unfold releaseRadixSession rememberClosedSession
  generalize rememberClosed T.closedSessionIds sid = closed
  exact releaseLeaves_quiet P _ 0 fun n hn _ => h n hn

/-- Runs from `reset` with an empty queue whose session closes find leaves that are kept
otherwise. -/
inductive QuietRun (P : RadixParams Digest A) : RadixCache Digest A → Multiset NodeId → Prop
  | start (T : RadixCache Digest A) (hqueue : T.kvEventQueue = []) : QuietRun P (T.reset P) 0
  | step {T T' : RadixCache Digest A} {held : Multiset NodeId} {op : CacheOp}
      (hrun : QuietRun P T held) (hop : op.Legal P T held) (hquiet : op.Quiet T)
      (hok : op.run P T = .ok T') : QuietRun P T' (op.heldAfter held)

/-- Every quiet operation keeps the stream in step with the tree. -/
theorem CacheOp.stream (hon : P.enableKvCacheEvents = true) (I : Inv P X held)
    (E : Stream P X) {op : CacheOp} (hop : op.Legal P X.cache held) (hquiet : op.Quiet X.cache) :
    ∃ Y, op.run P X.cache = .ok Y.cache ∧ Inv P Y (op.heldAfter held) ∧ Stream P Y := by
  obtain ⟨Y, hY, heffect, IY⟩ := CacheOp.spec I hop
  cases op with
  | reset =>
    cases heffect
    exact ⟨_, hY, IY, stream_fresh hon E.parented⟩
  | insert key value =>
    obtain ⟨Z, m, k, last, hins⟩ := heffect
    exact ⟨Y, hY, IY, hins.stream I E hon⟩
  | matchPrefix key =>
    obtain ⟨m, k, hreach⟩ := heffect
    exact ⟨Y, hY, IY, hreach.refined.stream I.shape E⟩
  | incLockRef n =>
    obtain ⟨T, hlift, rfl⟩ := heffect
    exact ⟨_, hY, IY, hlift.stream E⟩
  | decLockRef n =>
    obtain ⟨T, hlift, rfl⟩ := heffect
    exact ⟨_, hY, IY, hlift.stream E⟩
  | evict pick numTokens =>
    obtain ⟨xs, hev⟩ := heffect
    exact ⟨Y, hY, IY, (hev.keep I E fun I E h => h.stream_evictOne I.shape I.hashed E hon).2⟩
  | releaseRadixSession order sid =>
    obtain ⟨T, hT⟩ := releaseRadixSession_quiet P order hquiet
    obtain ⟨k, Z, hrel, -, htag⟩ := releaseRadixSession_spec order sid I
    rw [hT, Except.ok.injEq, Prod.mk.injEq] at hrel
    have htag := htag hrel.1.symm
    refine ⟨{ X with cache := Z.cache }, ?_, htag.inv I, htag.stream E⟩
    rw [CacheOp.run, hT, hrel.2]
    rfl
  | tagSessionLeaf sid key n =>
    obtain ⟨Z, T, hrefine, htag, rfl⟩ := heffect
    exact ⟨_, hY, IY, htag.stream (hrefine.stream I.shape E)⟩

theorem QuietRun.cacheRun (h : QuietRun P T held) : CacheRun P T held := by
  induction h with
  | start T => exact .start T
  | step _ hop _ hok ih => exact ih.step hop hok

theorem QuietRun.next (h : QuietRun P T held) (op : CacheOp) (hop : op.Legal P T held)
    (hquiet : op.Quiet T) : QuietRun P (op.next P T) (op.heldAfter held) := by
  obtain ⟨X, rfl, I⟩ := h.cacheRun.inv
  obtain ⟨Y, hY, _, _⟩ := CacheOp.spec I hop
  refine .step h hop hquiet ?_
  rw [CacheOp.next, hY]

theorem QuietRun.stream (hon : P.enableKvCacheEvents = true) (h : QuietRun P T held) :
    ∃ X : Tree Digest A, X.cache = T ∧ Inv P X held ∧ Stream P X := by
  induction h with
  | start T hqueue =>
    refine ⟨fresh P T, rfl, inv_fresh P T, stream_fresh hon ?_⟩
    rw [hqueue]
    trivial
  | step _ hop hquiet hok ih =>
    obtain ⟨X, rfl, I, E⟩ := ih
    obtain ⟨Y, hY, IY, EY⟩ := CacheOp.stream hon I E hop hquiet
    exact ⟨Y, Except.ok.inj (hY.symm.trans hok), IY, EY⟩

/-- What a consumer of the stream may rely on: it holds the blocks of the tree, stored
blocks come after their parents, and the hashes of a node depend on its
word alone. -/
structure Faithful (P : RadixParams Digest A) (T : RadixCache Digest A) (nodes : Finset NodeId) :
    Prop where
  mem_nodes : ∀ n, n ∈ nodes ↔ T.InTree n ∧ n ≠ T.rootNode
  replay_eq : replay T.kvEventQueue =
    ∑ n ∈ nodes, (((T.node n).hashValue.getD []).map (hashStrToInt64 P) : Multiset ℤ)
  parented : Parented P 0 T.kvEventQueue
  hash_eq : ∀ n ∈ nodes, ∀ w, T.RootPath n w →
    (T.node n).hashValue = some ((digests P w).drop ((w.length - (T.node n).key.len) / P.pageSize))
  compute_eq : ∀ n ∈ nodes, (T.node n).hashValue = some (T.computeNodeHashValues P (T.node n))

theorem Stream.faithful (E : Stream P X) (I : Inv P X held) (hon : P.enableKvCacheEvents = true) :
    Faithful P X.cache X.inner := by
  have hhash : ∀ n ∈ X.inner, (X.cache.node n).hashValue = some (nodeDigests P X n) :=
    fun n hn => (I.hashed.hash_eq n hn).trans (if_pos hon)
  refine ⟨fun n => ?_, ?_, E.parented, fun n hn w hw => ?_, fun n hn => ?_⟩
  · rw [mem_inner, I.shape.inTree_iff]
  · rw [E.replay_eq, blocks]
    refine Finset.sum_congr rfl fun n hn => ?_
    rw [hhash n hn]
    rfl
  · obtain ⟨hlive, rfl⟩ := I.shape.rootPath_iff.mp hw
    have hlen : (X.path n).length - (X.cache.node n).key.len =
        (X.path (X.cache.parentOf n)).length := by
      rw [I.shape.tree.path_eq hlive (mem_inner.mp hn).2, List.length_append,
        I.shape.length_entries hn, Nat.add_sub_cancel]
    rw [hlen]
    exact hhash n hn
  · rw [I.hashed.compute_eq hon I.shape hn, hhash n hn]

/-- In every run whose session closes find no leaf that only the session keeps, the stream is
faithful. -/
theorem faithful_of_quietRun {P : RadixParams Digest A} {T : RadixCache Digest A}
    {held : Multiset NodeId} (hon : P.enableKvCacheEvents = true) (h : QuietRun P T held) :
    ∃ nodes, Faithful P T nodes := by
  obtain ⟨X, rfl, I, E⟩ := h.stream hon
  exact ⟨X.inner, E.faithful I hon⟩

/-! ## A close that deletes -/

/-- Page digests without collisions. -/
inductive PageChain where
  | first (page : List Gram)
  | after (prior : PageChain) (page : List Gram)

/-- Single-token pages with events and sessions. -/
def sessionParams : RadixParams PageChain Unit where
  pageSize := 1
  pageSize_pos := Nat.one_pos
  isEagle := false
  enableKvCacheEvents := true
  enableSessionRadixCache := true
  disableFinishedInsert := false
  nativeHash := fun prior page => prior.elim (.first page) (.after · page)
  leadingBits := fun _ => 0
  free := fun a _ => a

def storedToken : RadixCache PageChain Unit :=
  (CacheOp.insert { tokenIds := [7] } (some [3])).next sessionParams
    ((blankCache ()).reset sessionParams)

theorem legal_storedToken : (CacheOp.insert { tokenIds := [7] } (some [3])).Legal sessionParams
    ((blankCache ()).reset sessionParams) 0 := by
  rintro v ⟨⟩
  decide

/-- The nodes of a set among the first four, in order. -/
def firstNodes (s : Finset NodeId) : List NodeId := (List.range 4).filter (· ∈ s)

/-- Two sessions are tagged on the end of the first of two words with the same first token, the
end is locked, and the first session is closed. -/
def sharedEnd : List CacheOp :=
  [.insert { tokenIds := [7, 8] } (some [3, 4]), .insert { tokenIds := [7, 9] } (some [3, 5]),
    .tagSessionLeaf (some "s") { tokenIds := [7, 8] } (some 1),
    .tagSessionLeaf (some "t") { tokenIds := [7, 8] } (some 1), .incLockRef 1,
    .releaseRadixSession firstNodes "s"]

theorem faithful_sharedEnd : ∃ nodes, Faithful sessionParams (sharedEnd.foldl
    (fun T op => op.next sessionParams T) ((blankCache ()).reset sessionParams)) nodes := by
  have h₀ : QuietRun sessionParams ((blankCache ()).reset sessionParams) 0 :=
    .start (blankCache ()) rfl
  have h₁ := h₀.next (.insert { tokenIds := [7, 8] } (some [3, 4]))
    (by rintro v ⟨⟩; decide) trivial
  have h₂ := h₁.next (.insert { tokenIds := [7, 9] } (some [3, 5]))
    (by rintro v ⟨⟩; decide) trivial
  have h₃ := h₂.next (.tagSessionLeaf (some "s") { tokenIds := [7, 8] } (some 1))
    (by rintro m ⟨⟩; exact inTree_firstWord (by decide +kernel) (by decide +kernel)) trivial
  have h₄ := h₃.next (.tagSessionLeaf (some "t") { tokenIds := [7, 8] } (some 1))
    (by rintro m ⟨⟩; exact inTree_firstWord (by decide +kernel) (by decide +kernel)) trivial
  have h₅ := h₄.next (.incLockRef 1)
    (inTree_firstWord (by decide +kernel) (by decide +kernel)) trivial
  exact faithful_of_quietRun rfl (h₅.next (.releaseRadixSession firstNodes "s") trivial
    (fun n hn h => absurd h (by decide +kernel +revert)))

/-- The token again, after a session that was tagged on it is closed. -/
def closedSession : RadixCache PageChain Unit :=
  (CacheOp.releaseRadixSession firstNodes "s").next sessionParams
    ((CacheOp.tagSessionLeaf (some "s") { tokenIds := [7] } (some 1)).next sessionParams
      storedToken)

theorem run_closedSession : CacheRun sessionParams closedSession 0 := by
  have hstored : CacheRun sessionParams storedToken 0 :=
    (CacheRun.start (blankCache ())).next legal_storedToken
  have htag : (CacheOp.tagSessionLeaf (some "s") { tokenIds := [7] } (some 1)).Legal
      sessionParams storedToken 0 := by
    rintro m ⟨⟩
    have hchild : (storedToken.node storedToken.rootNode).children.lookup
        (RadixKey.childKey { tokenIds := [7] } 1) = some 1 := by decide +kernel
    exact ⟨_, .child .root hchild⟩
  refine (hstored.next htag).next ?_
  trivial

/-- The tree is empty and the consumer still holds the block. -/
theorem stale_closedSession : CacheRun sessionParams closedSession 0 ∧
      (∀ n, closedSession.InTree n → n = closedSession.rootNode) ∧
      replay closedSession.kvEventQueue = {0} := by
  refine ⟨run_closedSession, fun n hn => ?_, by decide +kernel⟩
  exact hn.eq_root (by decide +kernel)

end Sglang.Radix
