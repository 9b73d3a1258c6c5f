import Sglang.Radix.Cut
import Sglang.Radix.Leaf

/-!
# Walking down the tree

`_match_prefix_helper` and the loop of `_insert_helper` follow a key from the
root. Both end at a node whose word is the longest stored prefix of the key, after cutting
at most one edge.
-/

namespace Sglang.Radix

open Sglang.Support RadixKey List RadixParams RadixCache

variable {Digest A : Type} {P : RadixParams Digest A} {X Y : Tree Digest A} {n m c : NodeId}
  {key : RadixKey} {k fuel : ℕ}

/-- No edge at `n` starts with the first page of the word `w`. -/
def Stuck (P : RadixParams Digest A) (X : Tree Digest A) (n : NodeId) (w : List Letter) : Prop :=
  ∀ c ∈ X.inner, X.cache.parentOf c = n →
    ((X.cache.entries c).take P.pageSize).map Prod.fst ≠ w.take P.pageSize

/-- The tree is the same up to one cut edge. -/
def Refined (P : RadixParams Digest A) (X Y : Tree Digest A) : Prop :=
  Y = X ∨ ∃ c k, Cut P X c k ∧ Y = X.cut P c k

theorem Refined.shape (h : Refined P X Y) (S : Shape P X) : Shape P Y := by
  rcases h with rfl | ⟨c, k, hcut, rfl⟩
  · exact S
  · exact hcut.shape S

theorem Refined.live_subset (h : Refined P X Y) : X.live ⊆ Y.live := by
  rcases h with rfl | ⟨c, k, _, rfl⟩
  · exact Finset.Subset.refl _
  · exact Finset.subset_insert _ _

theorem Refined.path_eq (h : Refined P X Y) (S : Shape P X) (hn : n ∈ X.live) :
    Y.path n = X.path n := by
  rcases h with rfl | ⟨c, k, _, rfl⟩
  · rfl
  · exact Cut.path_kept S hn

theorem stuck_of_lookup_none (S : Shape P X) (hn : n ∈ X.live) (hkey : P.pageSize ≤ key.len)
    (h : (X.cache.node n).children.lookup (key.childKey P.pageSize) = none) :
    Stuck P X n key.letters := by
  intro c hc hp heq
  have hlook := (S.lookup_childKey hn hkey).mpr ⟨hc, hp, heq⟩
  rw [h] at hlook
  exact absurd hlook (by simp)

theorem lookup_none_of_stuck (S : Shape P X) (hn : n ∈ X.live) (hkey : P.pageSize ≤ key.len)
    (h : Stuck P X n key.letters) :
    (X.cache.node n).children.lookup (key.childKey P.pageSize) = none := by
  rw [Option.eq_none_iff_forall_not_mem]
  intro c hc
  obtain ⟨hin, hp, heq⟩ := (S.lookup_childKey hn hkey).mp hc
  exact h c hin hp heq

theorem stuck_nil (S : Shape P X) : Stuck P X n [] := by
  intro c hc _ heq
  have hlen := congrArg List.length heq
  rw [length_map, length_take, S.length_entries hc, take_nil] at hlen
  have hpage := S.page_le hc
  have hpos := P.pageSize_pos
  rw [min_eq_left hpage] at hlen
  exact hpos.ne' hlen

/-- How far the edge of `c` agrees with a key. -/
structure Agreement (P : RadixParams Digest A) (X : Tree Digest A) (c : NodeId) (key : RadixKey)
    (k : ℕ) : Prop where
  mem : c ∈ X.inner
  matchLen : (X.cache.node c).key.matchLen key P.pageSize = .ok k
  dvd : P.pageSize ∣ k
  pos : 0 < k
  le_key : k ≤ key.len
  le_len : k ≤ (X.cache.node c).key.len
  take_eq : (X.cache.node c).key.letters.take k = key.letters.take k
  maximal : ((X.cache.node c).key.letters.drop k).take P.pageSize ≠
      (key.letters.drop k).take P.pageSize ∨ k = (X.cache.node c).key.len

/-- `match` on a child found under the child key of `key`. -/
theorem exists_agreement (S : Shape P X) (hn : n ∈ X.live) (hkey : P.pageSize ≤ key.len)
    (hlook : (X.cache.node n).children.lookup (key.childKey P.pageSize) = some c) :
    X.cache.parentOf c = n ∧ ∃ k, Agreement P X c key k := by
  obtain ⟨hc, hp, hck⟩ := (S.child_iff hn).mp hlook
  refine ⟨hp, ?_⟩
  set e := (X.cache.node c).key with he
  have hpage := S.page_le hc
  have hextra : e.extraKey = key.extraKey := congrArg ChildKey.extraKey hck
  have hfirst := (childKey_eq_iff P.pageSize_pos hpage hkey).mp hck
  have hlcp : P.pageSize ≤ lcp e.letters key.letters :=
    le_lcp_iff.mpr ⟨by rw [length_letters]; exact hpage, by rw [length_letters]; exact hkey, hfirst⟩
  set L := lcp e.letters key.letters with hL
  have hle : L / P.pageSize * P.pageSize ≤ L := Nat.div_mul_le_self _ _
  have hleft : L ≤ e.len := by simpa using lcp_le_left e.letters key.letters
  have hright : L ≤ key.len := by simpa using lcp_le_right e.letters key.letters
  have hagree : e.letters.take (L / P.pageSize * P.pageSize) =
      key.letters.take (L / P.pageSize * P.pageSize) := (le_lcp_iff.mp hle).2.2
  refine ⟨L / P.pageSize * P.pageSize, hc, matchLen_eq P.pageSize_pos hextra
    (isBigram_eq_of_childKey P.pageSize_pos hpage hck), Nat.dvd_mul_left _ _,
    Nat.mul_pos (Nat.div_pos hlcp P.pageSize_pos) P.pageSize_pos, hle.trans hright,
    hle.trans hleft, hagree, ?_⟩
  by_cases hall : L / P.pageSize * P.pageSize = e.len
  · exact Or.inr hall
  · refine Or.inl fun heq => ?_
    -- one more page in common would have been counted
    rw [← he] at heq
    have hroom : L / P.pageSize * P.pageSize + P.pageSize ≤ e.len := by
      obtain ⟨a, ha⟩ := S.page_dvd hc
      rw [← he] at ha
      rw [ha, Nat.mul_comm P.pageSize a] at hall ⊢
      have hlt : L / P.pageSize < a := by
        by_contra hge
        have := Nat.mul_le_mul_right P.pageSize (not_lt.mp hge)
        rw [ha, Nat.mul_comm P.pageSize a] at hleft
        omega
      calc L / P.pageSize * P.pageSize + P.pageSize = (L / P.pageSize + 1) * P.pageSize := by
            ring
        _ ≤ a * P.pageSize := Nat.mul_le_mul_right _ hlt
    have hroom' : L / P.pageSize * P.pageSize + P.pageSize ≤ key.len := by
      have hlen := congrArg List.length heq
      simp only [length_take, length_drop, length_letters] at hlen
      omega
    have hmore : L / P.pageSize * P.pageSize + P.pageSize ≤ L := by
      rw [hL]
      refine le_lcp_iff.mpr ⟨by simpa using hroom, by simpa using hroom', ?_⟩
      rw [take_add, take_add, hagree, heq]
    have := Nat.lt_div_mul_add P.pageSize_pos (a := L)
    omega

/-- An edge that agrees only in part is cut where the agreement ends. -/
theorem Agreement.cut (h : Agreement P X c key k) (hlt : k < (X.cache.node c).key.len) :
    Cut P X c k :=
  ⟨h.mem, h.dvd, h.pos, hlt⟩

theorem Cut.splitNode_eq (h : Cut P X c k) (S : Shape P X) :
    X.cache.splitNode P (X.cache.node c).key c k = .ok (X.cache.counter, (X.cut P c k).cache) := by
  rw [splitNode, S.parent_some h.mem]
  rfl

theorem Agreement.stuck (h : Agreement P X c key k) (S : Shape P X)
    (hlt : k < (X.cache.node c).key.len) :
    Stuck P (X.cut P c k) X.cache.counter (key.letters.drop k) := by
  have hcut := h.cut hlt
  intro d hd hp heq
  -- the lower part of the cut edge is the only child of the new node
  have hdc : d = c := by
    by_contra hdc
    rcases (Cut.mem_inner_iff S).mp hd with rfl | hd
    · rw [hcut.parentOf_new S] at hp
      exact hcut.parent_ne_counter S hp
    · rw [Cut.parentOf_kept S (mem_live hd) hdc] at hp
      exact S.counter_notMem (hp ▸ S.parent_mem hd)
  rw [hdc, hcut.entries_cut S, map_take, map_drop, S.map_fst_entries h.mem] at heq
  rcases h.maximal with hne | hall
  · exact hne heq
  · omega

/-! ## Where the loops end -/

/-- A walk for `key` from `n` ended at `m` after `k` units. -/
structure Reached (P : RadixParams Digest A) (X : Tree Digest A) (n : NodeId) (key : RadixKey)
    (Y : Tree Digest A) (m : NodeId) (k : ℕ) : Prop where
  refined : Refined P X Y
  mem : m ∈ Y.live
  dvd : P.pageSize ∣ k
  le_len : k ≤ key.len
  path_eq : (Y.path m).map Prod.fst = (X.path n).map Prod.fst ++ key.letters.take k
  stuck : Stuck P Y m (key.letters.drop k)

theorem Reached.refl (hn : n ∈ X.live) (hstuck : Stuck P X n key.letters) :
    Reached P X n key X n 0 :=
  ⟨Or.inl rfl, hn, dvd_zero _, Nat.zero_le _, by simp, hstuck⟩

theorem Agreement.reached (h : Agreement P X c key k) (S : Shape P X)
    (hlt : k < (X.cache.node c).key.len) (hp : X.cache.parentOf c = n) :
    Reached P X n key (X.cut P c k) X.cache.counter k := by
  refine ⟨Or.inr ⟨c, k, h.cut hlt, rfl⟩, Finset.mem_insert_self _ _, h.dvd, h.le_key, ?_,
    h.stuck S hlt⟩
  rw [Cut.path_new, hp, map_append, map_take, S.map_fst_entries h.mem, h.take_eq]

theorem Agreement.path_eq (h : Agreement P X c key k) (S : Shape P X)
    (hall : k = (X.cache.node c).key.len) (hp : X.cache.parentOf c = n) :
    (X.path c).map Prod.fst = (X.path n).map Prod.fst ++ key.letters.take k := by
  have hc := Tree.mem_inner.mp h.mem
  rw [S.tree.path_eq hc.1 hc.2, hp, map_append, S.map_fst_entries h.mem, ← h.take_eq,
    take_of_length_le]
  rw [length_letters, hall]

/-- A walk through a whole edge goes on with the rest of the key. -/
theorem Agreement.trans {j : ℕ} (h : Agreement P X c key k) (S : Shape P X)
    (hall : k = (X.cache.node c).key.len) (hp : X.cache.parentOf c = n)
    (hrest : Reached P X c (key.since k) Y m j) : Reached P X n key Y m (k + j) := by
  have hle := hrest.le_len
  rw [len_since _ h.le_key] at hle
  refine ⟨hrest.refined, hrest.mem, Nat.dvd_add h.dvd hrest.dvd, ?_, ?_, ?_⟩
  · have := h.le_key
    omega
  · rw [hrest.path_eq, h.path_eq S hall hp, letters_since _ h.le_key, append_assoc, ← take_add]
  · have := hrest.stuck
    rwa [letters_since _ h.le_key, drop_drop] at this

theorem page_le_of_dvd (h : P.pageSize ∣ key.len) (hpos : 0 < key.len) : P.pageSize ≤ key.len :=
  Nat.le_of_dvd hpos h

theorem dvd_since (hkey : P.pageSize ∣ key.len) (hk : P.pageSize ∣ k)
    (hle : k ≤ key.len) : P.pageSize ∣ (key.since k).len := by
  rw [len_since _ hle]
  exact Nat.dvd_sub hkey hk

theorem letters_nil (h : ¬key.len > 0) : key.letters = [] := by
  rw [← length_eq_zero_iff, length_letters]
  omega

/-- The loop of `_match_prefix_helper`, entered with the indices of `n`'s word. -/
theorem matchPrefixHelper_spec (S : Shape P X) (hn : n ∈ X.live)
    (hkey : P.pageSize ∣ key.len) (hfuel : key.len < fuel) :
    ∃ Y m k, matchPrefixHelper P fuel X.cache n key ((X.path n).map Prod.snd) =
        .ok ((Y.path m).map Prod.snd, m, Y.cache) ∧ Reached P X n key Y m k := by
  induction fuel generalizing n key with
  | zero => omega
  | succ fuel ih =>
    rw [matchPrefixHelper]
    by_cases hpos : key.len > 0
    · rw [if_pos hpos]
      have hpage := page_le_of_dvd hkey hpos
      cases hlook : (X.cache.node n).children.lookup (key.childKey P.pageSize) with
      | none => exact ⟨X, n, 0, rfl, Reached.refl hn (stuck_of_lookup_none S hn hpage hlook)⟩
      | some c =>
        obtain ⟨hp, k, hagree⟩ := exists_agreement S hn hpage hlook
        have hc := Tree.mem_inner.mp hagree.mem
        simp only [hagree.matchLen, bind, Except.bind]
        by_cases hlt : k < (X.cache.node c).key.len
        · rw [if_pos hlt, (hagree.cut hlt).splitNode_eq S]
          refine ⟨X.cut P c k, X.cache.counter, k, ?_, hagree.reached S hlt hp⟩
          simp only
          rw [(hagree.cut hlt).indices_new S, Cut.path_new, hp, map_append,
            map_take, S.map_snd_entries hagree.mem]
        · rw [if_neg hlt]
          have hall : k = (X.cache.node c).key.len := Nat.le_antisymm hagree.le_len (not_lt.mp hlt)
          have hfuel' : (key.since k).len < fuel := by
            have := hagree.pos
            rw [len_since _ hagree.le_key]
            omega
          obtain ⟨Y, m, j, heq, hreach⟩ := ih hc.1
            (dvd_since hkey hagree.dvd hagree.le_key) hfuel'
          refine ⟨Y, m, k + j, ?_, hagree.trans S hall hp hreach⟩
          rw [← heq, S.tree.path_eq hc.1 hc.2, hp, map_append, S.map_snd_entries hagree.mem]
    · rw [if_neg hpos]
      exact ⟨X, n, 0, rfl, Reached.refl hn (letters_nil hpos ▸ stuck_nil S)⟩

theorem insertLoop_stuck (S : Shape P X) {total : ℕ} {value : List ℤ} (hn : n ∈ X.live)
    (hkey : P.pageSize ∣ key.len) (hfuel : 0 < fuel) (hstuck : Stuck P X n key.letters) :
    insertLoop P fuel X.cache n key value total = .ok (X.cache, n, key, value, total) := by
  obtain ⟨fuel, rfl⟩ := Nat.exists_eq_succ_of_ne_zero hfuel.ne'
  rw [insertLoop]
  by_cases hpos : key.len > 0
  · rw [if_pos hpos, lookup_none_of_stuck S hn (page_le_of_dvd hkey hpos) hstuck]
  · rw [if_neg hpos]

/-- The loop of `_insert_helper`. -/
theorem insertLoop_spec (S : Shape P X) (value : List ℤ) (total : ℕ)
    (hn : n ∈ X.live) (hkey : P.pageSize ∣ key.len) (hfuel : key.len < fuel) :
    ∃ Y m k rest, insertLoop P fuel X.cache n key value total =
        .ok (Y.cache, m, rest, value.drop k, total + k) ∧ Reached P X n key Y m k ∧
      rest.letters = key.letters.drop k := by
  induction fuel generalizing n key value total with
  | zero => omega
  | succ fuel ih =>
    by_cases hpos : key.len > 0
    · have hpage := page_le_of_dvd hkey hpos
      cases hlook : (X.cache.node n).children.lookup (key.childKey P.pageSize) with
      | none =>
        have hstuck := stuck_of_lookup_none S hn hpage hlook
        refine ⟨X, n, 0, key, ?_, Reached.refl hn hstuck, rfl⟩
        exact insertLoop_stuck S hn hkey (Nat.succ_pos _) hstuck
      | some c =>
        obtain ⟨hp, k, hagree⟩ := exists_agreement S hn hpage hlook
        have hc := Tree.mem_inner.mp hagree.mem
        have hfuel' : (key.since k).len < fuel := by
          have := hagree.pos
          rw [len_since _ hagree.le_key]
          omega
        have hkey' := dvd_since hkey hagree.dvd hagree.le_key
        rw [insertLoop, if_pos hpos, hlook]
        simp only [hagree.matchLen, bind, Except.bind]
        by_cases hlt : k < (X.cache.node c).key.len
        · rw [if_pos hlt, (hagree.cut hlt).splitNode_eq S]
          refine ⟨X.cut P c k, X.cache.counter, k, key.since k, ?_,
            hagree.reached S hlt hp, letters_since _ hagree.le_key⟩
          refine insertLoop_stuck ((hagree.cut hlt).shape S) (Finset.mem_insert_self _ _)
            hkey' (Nat.zero_lt_of_lt hfuel') ?_
          rw [letters_since _ hagree.le_key]
          exact hagree.stuck S hlt
        · rw [if_neg hlt]
          have hall : k = (X.cache.node c).key.len := Nat.le_antisymm hagree.le_len (not_lt.mp hlt)
          obtain ⟨Y, m, j, rest, heq, hreach, hrest⟩ := ih (value.drop k) (total + k)
            hc.1 hkey' hfuel'
          refine ⟨Y, m, k + j, rest, ?_, hagree.trans S hall hp hreach, ?_⟩
          · rw [heq, drop_drop, Nat.add_assoc]
          · rw [hrest, letters_since _ hagree.le_key, drop_drop]
    · have hstuck : Stuck P X n key.letters := letters_nil hpos ▸ stuck_nil S
      refine ⟨X, n, 0, key, ?_, Reached.refl hn hstuck, rfl⟩
      exact insertLoop_stuck S hn hkey (Nat.succ_pos _) hstuck

/-! ## Lookup -/

/-- The key `match_prefix` and `insert` work on: its bigram view where the cache uses
one, cut to whole pages. -/
def RadixParams.query (P : RadixParams Digest A) (key : RadixKey) : RadixKey :=
  (key.maybeToBigramView P.isEagle none).1.pageAligned P.pageSize

theorem query_dvd (P : RadixParams Digest A) (key : RadixKey) : P.pageSize ∣ (P.query key).len := by
  rw [query, len_pageAligned]
  exact Nat.dvd_mul_left _ _

theorem matchPrefix_spec (S : Shape P X) (key : RadixKey) :
    ∃ Y m k, X.cache.matchPrefix P key = .ok ((Y.path m).map Prod.snd, m, Y.cache) ∧
      Reached P X X.cache.rootNode (P.query key) Y m k := by
  have hempty : (P.query key).len = 0 →
      Reached P X X.cache.rootNode (P.query key) X X.cache.rootNode 0 := by
    intro hlen
    refine Reached.refl S.root_mem ?_
    rw [letters_nil (by omega)]
    exact stuck_nil S
  rw [matchPrefix]
  simp only
  by_cases hlen : (key.maybeToBigramView P.isEagle none).1.len = 0
  · rw [if_pos hlen]
    refine ⟨X, X.cache.rootNode, 0, by rw [S.tree.path_root]; rfl, hempty ?_⟩
    rw [query, len_pageAligned, hlen, Nat.zero_div, Nat.zero_mul]
  · rw [if_neg hlen]
    by_cases hq : (P.query key).len = 0
    · refine ⟨X, X.cache.rootNode, 0, ?_, hempty hq⟩
      rw [query] at hq
      rw [if_pos hq, S.tree.path_root]
      rfl
    · obtain ⟨Y, m, k, heq, hreach⟩ := matchPrefixHelper_spec S S.root_mem (query_dvd P key)
        (Nat.lt_succ_self _)
      refine ⟨Y, m, k, ?_, hreach⟩
      rw [S.tree.path_root] at heq
      rw [query] at hq
      rw [if_neg hq]
      exact heq

/-! ## Insertion -/

/-- The events of `_record_store_event` for pages with their hashes. -/
def blockEvents (P : RadixParams Digest A) :
    Option ℤ → List (List Gram) → List Digest → List KVEvent
  | parent, page :: rest, d :: hashes =>
    .blockStored [hashStrToInt64 P d] parent page page.length ::
      blockEvents P (some (hashStrToInt64 P d)) rest hashes
  | _, _, _ => []

variable (P)

theorem storeEvents_eq {parent : Option ℤ} {ps : List (List Gram)}
    {hashes : List Digest} (h : ps.length ≤ hashes.length) :
    storeEvents P parent ps hashes = .ok (blockEvents P parent ps hashes) := by
  induction ps generalizing parent hashes with
  | nil => simp [storeEvents, blockEvents]
  | cons page rest ih =>
    cases hashes with
    | nil => simp at h
    | cons d hashes =>
      rw [storeEvents, ih (Nat.le_of_succ_le_succ h)]
      rfl

theorem length_computeNodeHashValues (T : RadixCache Digest A) (x : TreeNode Digest) :
    (T.computeNodeHashValues P x).length = (pages P.pageSize x.key.units).length :=
  length_chain _ _ _

/-- The cache after the store event of a node that had no hashes yet. -/
def RadixCache.withStoreEvent (T : RadixCache Digest A) (n : NodeId) : RadixCache Digest A :=
  if P.enableKvCacheEvents then
    { T.setNode n { T.node n with
        hashValue := some (T.computeNodeHashValues P (T.node n)) } with
      kvEventQueue := T.kvEventQueue ++ blockEvents P (T.parentBlockHash P (T.node n))
        (pages P.pageSize (T.node n).key.units) (T.computeNodeHashValues P (T.node n)) }
  else T

theorem recordStoreEvent_eq {T : RadixCache Digest A} {n : NodeId}
    (hnone : (T.node n).hashValue = none) :
    T.recordStoreEvent P n = .ok (T.withStoreEvent P n) := by
  have hvalues : T.hashValues P (T.node n) = T.computeNodeHashValues P (T.node n) := by
    rw [hashValues, hnone]
    rfl
  rw [recordStoreEvent, withStoreEvent]
  split
  · simp [hvalues, storeEvents_eq P (length_computeNodeHashValues P T (T.node n)).ge,
      bind, Except.bind]
  · rfl

/-- The tree after `insert` attached a leaf under `p`. -/
def Tree.attach (X : Tree Digest A) (p : NodeId) (key : RadixKey)
    (value : List ℤ) : Tree Digest A :=
  { X.graft P p key value with
    cache := (X.graft P p key value).cache.withStoreEvent P X.cache.counter }

variable {P}

/-- The indices `insert` stores. -/
def RadixParams.stored (P : RadixParams Digest A) (key : RadixKey) (value : Option (List ℤ)) :
    List ℤ :=
  insertedIndices (P.query key) (key.maybeToBigramView P.isEagle value).2

/-- A caller of `insert` passes an index for every unit. -/
def RadixParams.Supplied (P : RadixParams Digest A) (key : RadixKey) (value : Option (List ℤ)) :
    Prop :=
  ∀ v, value = some v → (P.query key).len ≤ v.length

theorem maybeToBigramView_fst (key : RadixKey) (isEagle : Bool) (value : Option (List ℤ)) :
    (key.maybeToBigramView isEagle value).1 = (key.maybeToBigramView isEagle none).1 := by
  unfold maybeToBigramView
  split <;> rfl

theorem len_le_length (key : RadixKey) : key.len ≤ key.tokenIds.length := by
  have hraw := key.rawLen_le
  unfold RadixKey.len
  split
  · split <;> omega
  · exact hraw

theorem stored_none (P : RadixParams Digest A) (key : RadixKey) :
    P.stored key none = (P.query key).tokenIds.take (P.query key).len := by
  by_cases hb : (P.isEagle && !key.isBigram) = true
  · simp only [stored, maybeToBigramView, if_pos hb, Option.map_none, insertedIndices]
  · simp only [stored, maybeToBigramView, if_neg hb, insertedIndices]

theorem stored_some (P : RadixParams Digest A) (key : RadixKey) (v : List ℤ) :
    P.stored key (some v) = v.take (P.query key).len := by
  by_cases hb : (P.isEagle && !key.isBigram) = true
  · have hle : (P.query key).len ≤ ({ key with isBigram := true } : RadixKey).len := by
      rw [query, len_pageAligned, maybeToBigramView, if_pos hb]
      exact Nat.div_mul_le_self _ _
    simp only [stored, maybeToBigramView, if_pos hb, Option.map_some, insertedIndices]
    rw [take_take, min_eq_left hle]
  · simp only [stored, maybeToBigramView, if_neg hb, insertedIndices]

theorem length_stored {value : Option (List ℤ)} (h : P.Supplied key value) :
    (P.stored key value).length = (P.query key).len := by
  cases value with
  | none =>
    rw [stored_none, length_take]
    exact min_eq_left (len_le_length _)
  | some v =>
    rw [stored_some, length_take]
    exact min_eq_left (h v rfl)

theorem insert_eq (P : RadixParams Digest A) (T : RadixCache Digest A) (key : RadixKey)
    (value : Option (List ℤ)) : T.insert P key value =
      T.insertHelper P T.rootNode (P.query key) (P.stored key value) := by
  have hfst := maybeToBigramView_fst key P.isEagle value
  unfold RadixCache.insert stored query
  simp only [hfst]

/-- What `insert` did: the walk, and the leaf attached where it ended if the
key goes on. -/
structure Inserted (P : RadixParams Digest A) (X : Tree Digest A) (key : RadixKey)
    (value : List ℤ) (Y : Tree Digest A) (m : NodeId) (k : ℕ) (Z : Tree Digest A)
    (last : NodeId) : Prop where
  reached : Reached P X X.cache.rootNode key Y m k
  done : k = key.len ∧ Z = Y ∧ last = m ∨
    k < key.len ∧ last = Y.cache.counter ∧ ∃ rest, Graft P Y m rest (value.drop k) ∧
      rest.letters = key.letters.drop k ∧ Z = Y.attach P m rest (value.drop k)

theorem insert_spec (S : Shape P X) {value : Option (List ℤ)} (h : P.Supplied key value) :
    ∃ Y m k Z last, X.cache.insert P key value = .ok (k, last, Z.cache) ∧
      Inserted P X (P.query key) (P.stored key value) Y m k Z last := by
  have hlen := length_stored h
  have hdvd := query_dvd P key
  rw [insert_eq]
  revert hlen hdvd
  generalize P.query key = q
  generalize P.stored key value = v
  intro hlen hdvd
  rw [insertHelper]
  by_cases hq : q.len = 0
  · rw [if_pos hq]
    refine ⟨X, X.cache.rootNode, 0, X, X.cache.rootNode, rfl, ⟨Reached.refl S.root_mem ?_,
      Or.inl ⟨hq.symm, rfl, rfl⟩⟩⟩
    rw [letters_nil (by omega)]
    exact stuck_nil S
  · rw [if_neg hq]
    obtain ⟨Y, m, k, rest, hloop, hreach, hrest⟩ :=
      insertLoop_spec S v 0 S.root_mem hdvd (Nat.lt_succ_self _)
    have hrestlen : rest.len = q.len - k := by
      rw [← length_letters, hrest, length_drop, length_letters]
    have hle := hreach.le_len
    simp only [hloop, bind, Except.bind]
    by_cases hpos : rest.len > 0
    · rw [if_pos hpos]
      have hdvd' : P.pageSize ∣ rest.len := hrestlen ▸ Nat.dvd_sub hdvd hreach.dvd
      have SY := hreach.refined.shape S
      have hgraft : Graft P Y m rest (v.drop k) := by
        refine ⟨hreach.mem, hdvd', hpos, ?_, ?_⟩
        · rw [hrestlen, length_drop, hlen]
        · apply lookup_none_of_stuck SY hreach.mem (page_le_of_dvd hdvd' hpos)
          rw [hrest]
          exact hreach.stuck
      have hnone : ((Y.graft P m rest (v.drop k)).cache.node Y.cache.counter).hashValue = none :=
        by rw [hgraft.node_new SY]
      have hgc : Y.cache.attachLeaf P m rest (v.drop k) = (Y.graft P m rest (v.drop k)).cache := rfl
      refine ⟨Y, m, k, Y.attach P m rest (v.drop k), Y.cache.counter, ?_, ⟨hreach,
        Or.inr ⟨by omega, rfl, rest, hgraft, hrest, rfl⟩⟩⟩
      rw [hgc, recordStoreEvent_eq P hnone]
      simp only [Nat.zero_add]
      rfl
    · rw [if_neg hpos]
      refine ⟨Y, m, k, Y, m, ?_, ⟨hreach, Or.inl ⟨by omega, rfl, rfl⟩⟩⟩
      simp only [Nat.zero_add]

end Sglang.Radix
