import Sglang.Radix.Requests

/-!
# Every page has one owner

A page of the pool is on the allocator's lists, in the value of one node, or in the
un-cached part of the row of one request. The cached part of a row is the
word of the node the request holds.
-/

namespace Sglang.Radix

open Sglang.Support Sglang.PagedAlloc RadixKey List Function Serving

variable {Digest : Type} {C : CacheConfig Digest} {X Y Z : Tree Digest KVAllocator}
  {T : RadixCache Digest KVAllocator} {held : Multiset NodeId} {owed : Multiset ℤ}
  {n m : NodeId} {w : Serving Digest} {r : Req} {i : ℕ} {key : RadixKey} {value l : List ℤ}
  {k a b p : ℕ} {last : NodeId} {live : Finset ℕ}

/-! ## Keys of a request -/

/-- The letters of all tokens of a request. -/
def Req.word (C : CacheConfig Digest) (r : Req) : List Letter :=
  RadixKey.letters { tokenIds := r.tokens, extraKey := r.extraKey, isBigram := C.isEagle }

theorem len_of_tokens (t : List ℤ) (e : Option String) (b : Bool) :
    RadixKey.len { tokenIds := t, extraKey := e, isBigram := b } =
      if b then t.length - 1 else t.length := by
  cases b with
  | false => rfl
  | true => rw [len_of_bigram _ rfl]; rfl

/-- The letters of a prefix of the tokens. -/
theorem letters_take (t : List ℤ) (e : Option String) (b : Bool) (k : ℕ) :
    RadixKey.letters { tokenIds := t.take k, extraKey := e, isBigram := b } <+:
      RadixKey.letters { tokenIds := t, extraKey := e, isBigram := b } := by
  refine List.IsPrefix.map _ ?_
  cases b with
  | false =>
    refine List.IsPrefix.map _ ?_
    simp only [rawLen, take_length]
    exact take_prefix _ _
  | true =>
    rw [units_of_bigram_all, units_of_bigram_all]
    cases k with
    | zero => exact nil_prefix
    | succ k =>
      rw [bigrams_take]
      exact take_prefix _ _

/-- The cache's view of a key built from plain tokens. -/
theorem view_of_tokens (C : CacheConfig Digest) (t : List ℤ) (e : Option String) :
    C.params.view { tokenIds := t, extraKey := e } =
      { tokenIds := t, extraKey := e, isBigram := C.isEagle } := by
  have hview : ∀ b : Bool,
      (maybeToBigramView { tokenIds := t, extraKey := e } b none).1 =
        { tokenIds := t, extraKey := e, isBigram := b } := by
    intro b
    cases b <;> rfl
  exact hview C.isEagle

namespace Req

theorem letters_radixKey (C : CacheConfig Digest) (r : Req) (k : ℕ) :
    (r.radixKey C k).letters <+: r.word C := by
  rw [radixKey, letters_pageAligned]
  exact (List.take_prefix _ _).trans (letters_take _ _ _ _)

theorem len_radixKey {k : ℕ} (h : k ≤ r.tokens.length) :
    (r.radixKey C k).len = ServeOp.unitsOf C k / C.pool.pageSize * C.pool.pageSize := by
  rw [radixKey, len_pageAligned, len_of_tokens, length_take, min_eq_left h]
  rfl

theorem dvd_radixKey (C : CacheConfig Digest) (r : Req) (k : ℕ) :
    C.pool.pageSize ∣ (r.radixKey C k).len := by
  rw [radixKey, len_pageAligned]
  exact Nat.dvd_mul_left _ _

theorem len_radixKey_le {k : ℕ} (h : k ≤ r.tokens.length) : (r.radixKey C k).len ≤ k := by
  rw [len_radixKey h]
  refine (Nat.div_mul_le_self _ _).trans ?_
  unfold ServeOp.unitsOf
  split <;> omega

variable (C)

theorem isBigram_radixKey (r : Req) (k : ℕ) : (r.radixKey C k).isBigram = C.isEagle := by
  unfold radixKey pageAligned upto
  split
  · rfl
  · rw [isBigram_slice]

/-- The cache sees the key as it is. -/
theorem view_radixKey (r : Req) (k : ℕ) : C.params.view (r.radixKey C k) = r.radixKey C k := by
  have hview : (C.params.isEagle && !(r.radixKey C k).isBigram) = false := by
    rw [isBigram_radixKey]
    exact Bool.and_not_self _
  rw [RadixParams.view, maybeToBigramView, hview]
  rfl

theorem letters_query (r : Req) (k : ℕ) :
    (C.params.query (r.radixKey C k)).letters = (r.radixKey C k).letters := by
  have hall : (r.radixKey C k).len / C.params.pageSize * C.params.pageSize =
      (r.radixKey C k).len := Nat.div_mul_cancel (dvd_radixKey C r k)
  rw [query_letters, view_radixKey, hall, take_of_length_le]
  rw [length_letters]

theorem len_query (r : Req) (k : ℕ) :
    (C.params.query (r.radixKey C k)).len = (r.radixKey C k).len := by
  rw [← length_letters, letters_query, length_letters]

end Req

/-! ## Rows -/

/-- The pages of the un-cached part of a row. -/
def Req.pages (C : CacheConfig Digest) (r : Req) : Multiset ℤ :=
  (pageIds C.pool.pageSize (r.row.drop r.cacheProtectedLen) : Multiset ℤ)

/-- The row of a request: whole pages behind the word of the node it holds. -/
structure RowHeld (C : CacheConfig Digest) (X : Tree Digest KVAllocator) (r : Req) : Prop where
  run : PageRun C.pool.pageSize (r.row.drop r.cacheProtectedLen)
  le_row : r.cacheProtectedLen ≤ r.row.length
  mem : r.lastNode ∈ X.live
  keys : (X.path r.lastNode).map Prod.fst <+: r.word C
  vals : (X.path r.lastNode).map Prod.snd = r.row.take r.cacheProtectedLen

theorem RowHeld.length_path (R : RowHeld C X r) :
    (X.path r.lastNode).length = r.cacheProtectedLen := by
  have hlen := congrArg List.length R.vals
  rwa [length_map, length_take, min_eq_left R.le_row] at hlen

theorem RowHeld.dvd (R : RowHeld C X r) (S : Shape C.params X) :
    C.pool.pageSize ∣ r.cacheProtectedLen := by
  rw [← R.length_path]
  exact S.tree.page_dvd_path R.mem

theorem RowHeld.congr (R : RowHeld C X r) (hmem : r.lastNode ∈ Y.live)
    (hpath : Y.path r.lastNode = X.path r.lastNode) : RowHeld C Y r :=
  { R with mem := hmem, keys := by rw [hpath]; exact R.keys, vals := by rw [hpath, R.vals] }

/-- The protected prefix is one of the tokens of the request. -/
theorem RowHeld.protected_le (R : RowHeld C X r) : r.cacheProtectedLen ≤ r.tokens.length := by
  have hle := R.keys.length_le
  rw [length_map, R.length_path, Req.word, length_letters] at hle
  exact hle.trans (len_le_length _)

/-- Nodes stay where they were. -/
structure Grown (X Y : Tree Digest KVAllocator) : Prop where
  live : X.live ⊆ Y.live
  path : ∀ n ∈ X.live, Y.path n = X.path n

theorem Grown.trans (h : Grown X Y) (h' : Grown Y Z) : Grown X Z :=
  ⟨h.live.trans h'.live, fun n hn => (h'.path n (h.live hn)).trans (h.path n hn)⟩

theorem Grown.row (h : Grown X Y) (R : RowHeld C X r) : RowHeld C Y r :=
  R.congr (h.live R.mem) (h.path _ R.mem)

theorem Refined.grown (h : Refined C.params X Y) (S : Shape C.params X) : Grown X Y :=
  ⟨h.live_subset, fun _ hn => h.path_eq S hn⟩

theorem Inserted.grown (h : Inserted C.params X key value Y m k Z last) (S : Shape C.params X) :
    Grown X Z := by
  have hXY := h.reached.refined.grown S
  rcases h.done with ⟨_, rfl, _⟩ | ⟨_, _, rest, hgraft, _, rfl⟩
  · exact hXY
  · exact hXY.trans ⟨Finset.subset_insert _ _,
      fun n hn => Graft.path_kept (h.reached.refined.shape S) hn⟩

theorem Inserted.allocator (h : Inserted C.params X key value Y m k Z last) :
    Z.cache.allocator = X.cache.allocator := by
  rw [← h.reached.refined.allocator]
  rcases h.done with ⟨_, rfl, _⟩ | ⟨_, _, rest, _, _, rfl⟩
  · rfl
  · exact allocator_attach Y m rest _

/-- Freeing touches the allocator alone. -/
theorem Inv.free (I : Inv C.params X held) (l : List ℤ) :
    Inv C.params { X with cache := X.cache.freeIndices C l } held :=
  Same.inv rfl I fun _ _ => rfl

/-! ## Slices -/

theorem pySlice_take (h : b ≤ k) : pySlice (l.take k) a b = pySlice l a b := by
  rw [pySlice, pySlice, drop_take, take_take, min_eq_left (by omega)]

theorem length_pySlice (h : b ≤ l.length) : (pySlice l a b).length = b - a := by
  rw [pySlice, length_take, length_drop]
  omega

theorem drop_eq_pySlice (h : a ≤ b) : l.drop a = pySlice l a b ++ l.drop b := by
  have hdrop : l.drop b = (l.drop a).drop (b - a) := by rw [drop_drop, Nat.add_sub_cancel' h]
  rw [hdrop, pySlice, take_append_drop]

/-- A row is cut at page boundaries. -/
theorem drop_pages (hp : 0 < p) (hab : a ≤ b)
    (hb : b ≤ l.length) (hdvd : p ∣ b - a) (h : PageRun p (l.drop a)) :
    PageRun p (pySlice l a b) ∧ PageRun p (l.drop b) ∧
      pageIds p (l.drop a) = pageIds p (pySlice l a b) ++ pageIds p (l.drop b) := by
  have hlen : p ∣ (pySlice l a b).length := by
    rw [length_pySlice hb]
    exact hdvd
  rw [drop_eq_pySlice hab] at h ⊢
  obtain ⟨hfirst, hrest⟩ := (pageRun_append hp hlen).mp h
  exact ⟨hfirst, hrest, pageIds_append hp hlen _⟩

/-! ## Handing pages over -/

theorem RowHeld.le_radixKey (R : RowHeld C X r) (S : Shape C.params X)
    (hk : k ≤ r.tokens.length) (hcover : r.cacheProtectedLen ≤ ServeOp.unitsOf C k) :
    r.cacheProtectedLen ≤ (r.radixKey C k).len := by
  obtain ⟨a, ha⟩ := R.dvd S
  rw [Req.len_radixKey hk, ha, Nat.mul_comm]
  rw [ha, Nat.mul_comm] at hcover
  exact Nat.mul_le_mul_right _ ((Nat.le_div_iff_mul_le C.pool.pageSize_pos).mpr hcover)

/-- The protected prefix of a row is stored, so a walk passes it. -/
theorem RowHeld.le_reached (R : RowHeld C X r) (S : Shape C.params X) {j : ℕ}
    (hle : r.cacheProtectedLen ≤ (r.radixKey C k).len)
    (h : Reached C.params X X.cache.rootNode (C.params.query (r.radixKey C k)) Y m j) :
    r.cacheProtectedLen ≤ j := by
  have hkeys : (X.path r.lastNode).map Prod.fst <+:
      (C.params.view (r.radixKey C k)).letters := by
    rw [Req.view_radixKey]
    refine prefix_of_prefix_length_le R.keys (Req.letters_radixKey C r k) ?_
    rw [length_map, R.length_path, length_letters]
    exact hle
  have hmem : X.path r.lastNode ∈ X.cache.Content C.params :=
    S.mem_content.mpr ⟨S.tree.page_dvd_path R.mem, _, R.mem, prefix_rfl⟩
  have hlong := (h.longestMatch S).longest _ hmem hkeys
  rwa [R.length_path, length_map, h.length_path S] at hlong

theorem Inserted.path_last {j : ℕ}
    (h : Inserted C.params X (C.params.query key) value Y m j Z last) (S : Shape C.params X) :
    last ∈ Z.live ∧ (Z.path last).map Prod.fst = (C.params.query key).letters := by
  have hkeys := h.reached.path_keys S
  rcases h.done with ⟨hj, rfl, rfl⟩ | ⟨_, rfl, rest, hgraft, hrest, rfl⟩
  · refine ⟨h.reached.mem, ?_⟩
    rw [hkeys, hj, take_of_length_le (by rw [length_letters])]
  · have hzip : (rest.letters.zip (value.drop j)).map Prod.fst = rest.letters := by
      refine map_fst_zip ?_
      rw [length_letters, hgraft.len_eq]
    refine ⟨Finset.mem_insert_self _ _, ?_⟩
    change (((Y.graft C.params m rest (value.drop j)).path Y.cache.counter).map Prod.fst) = _
    rw [Graft.path_new, map_append, hkeys, hzip, hrest, take_append_drop]

/-- The insertion of both cache calls: the tree takes the pages that follow the stored
prefix, the pages in front of them are duplicates. -/
theorem insert_row (I : Inv C.params X held) (R : RowHeld C X r) (hk : k ≤ r.row.length)
    (hkt : k ≤ r.tokens.length) (hcover : r.cacheProtectedLen ≤ ServeOp.unitsOf C k)
    (K : Stock C X (r.pages C + owed)) : ∃ j last Z, X.cache.insert C.params (r.radixKey C k)
        (some ((r.row.take k).take (r.radixKey C k).len)) = .ok (j, last, Z.cache) ∧
      Inv C.params Z held ∧ Grown X Z ∧ Z.cache.allocator = X.cache.allocator ∧
      j ≤ (r.radixKey C k).len ∧ PageRun C.pool.pageSize (pySlice r.row r.cacheProtectedLen j) ∧
      (pageIds C.pool.pageSize (pySlice r.row r.cacheProtectedLen j) : Multiset ℤ) +
        (pageIds C.pool.pageSize (r.row.drop (r.radixKey C k).len) : Multiset ℤ) ≤ r.pages C ∧
      Stock C Z ((pageIds C.pool.pageSize (pySlice r.row r.cacheProtectedLen j) : Multiset ℤ) +
        ((pageIds C.pool.pageSize (r.row.drop (r.radixKey C k).len) : Multiset ℤ) + owed)) ∧
      PageRun C.pool.pageSize (r.row.drop (r.radixKey C k).len) ∧
      last ∈ Z.live ∧ (Z.path last).map Prod.fst = (r.radixKey C k).letters := by
  have hp := C.pool.pageSize_pos
  have hle := R.le_radixKey I.shape hkt hcover
  have hlen := Req.len_radixKey_le (C := C) hkt
  set key := r.radixKey C k with hkey
  have hvalues : ((r.row.take k).take key.len).length = key.len := by
    rw [length_take, length_take]
    omega
  have hsup : C.params.Supplied key (some ((r.row.take k).take key.len)) := by
    rintro v ⟨⟩
    rw [Req.len_query, hvalues]
  obtain ⟨Y, m, j, Z, last, hins, hspec⟩ := insert_spec I.shape hsup
  have hj : j ≤ key.len := by
    have := hspec.reached.le_len
    rwa [Req.len_query] at this
  have hprot : r.cacheProtectedLen ≤ j := R.le_reached I.shape hle hspec.reached
  have hdvd : C.pool.pageSize ∣ j := hspec.reached.dvd
  -- duplicates, pages for the tree, unaligned rest
  obtain ⟨hdup, hrest, hids⟩ := drop_pages hp hprot (by omega)
    (Nat.dvd_sub hdvd (R.dvd I.shape)) R.run
  obtain ⟨hnew, htail, hids'⟩ := drop_pages hp hj (by omega)
    (Nat.dvd_sub (Req.dvd_radixKey C r k) hdvd) hrest
  have hparts : r.pages C =
      (pageIds C.pool.pageSize (pySlice r.row j key.len) : Multiset ℤ) +
        ((pageIds C.pool.pageSize (pySlice r.row r.cacheProtectedLen j) : Multiset ℤ) +
          (pageIds C.pool.pageSize (r.row.drop key.len) : Multiset ℤ)) := by
    rw [Req.pages, hids, hids', ← Multiset.coe_add, ← Multiset.coe_add]
    abel
  have KY := hspec.reached.refined.stock I.shape K
  rw [hparts, add_assoc, add_assoc] at KY
  refine ⟨j, last, Z, hins, hspec.inv I, hspec.grown I.shape, hspec.allocator, hj, hdup,
    hparts ▸ Multiset.le_add_left _ _, ?_, htail, ?_⟩
  · rcases hspec.done with ⟨hall, rfl, _⟩ | ⟨_, _, rest, hgraft, _, rfl⟩
    · -- the whole key was stored before
      have hnone : pageIds C.pool.pageSize (pySlice r.row j key.len) = [] := by
        rw [hall, hkey, Req.len_query, pySlice]
        simp [pageIds, numPagesFor_zero hp]
      rw [hnone, Multiset.coe_nil, zero_add] at KY
      exact KY
    · have hstored : (C.params.stored key (some ((r.row.take k).take key.len))).drop j =
          pySlice r.row j key.len := by
        rw [stored_some, Req.len_query, take_take, take_take, min_self,
          min_eq_left hlen, pySlice, drop_take]
      rw [hstored] at hgraft ⊢
      exact hgraft.stock (hspec.reached.refined.shape I.shape) hnew KY
  · have hlast := hspec.path_last I.shape
    rwa [Req.letters_query] at hlast

/-! ## The invariant of a server -/

/-- The nodes locked by requests. -/
def heldBy (req : ℕ → Req) (live : Finset ℕ) : Multiset NodeId :=
  live.val.map fun i => (req i).lastNode

/-- The pages in the un-cached parts of rows. -/
def owedTo (C : CacheConfig Digest) (req : ℕ → Req) (live : Finset ℕ) : Multiset ℤ :=
  ∑ i ∈ live, (req i).pages C

/-- The pool is divided between the allocator, the tree and the rows of the requests. -/
structure Holds (C : CacheConfig Digest) (X : Tree Digest KVAllocator) (w : Serving Digest) :
    Prop where
  cache_eq : X.cache = w.cache
  inv : Inv C.params X (heldBy w.req w.live)
  stock : Stock C X (owedTo C w.req w.live)
  rows : ∀ i ∈ w.live, RowHeld C X (w.req i)

/-- The rows stay within the tokens as well. -/
structure Serves (C : CacheConfig Digest) (X : Tree Digest KVAllocator) (w : Serving Digest) :
    Prop extends Holds C X w where
  row_le : ∀ i ∈ w.live, (w.req i).row.length ≤ (w.req i).tokens.length

theorem heldBy_insert (req : ℕ → Req) (hi : i ∉ live) (r : Req) :
    heldBy (update req i r) (insert i live) = r.lastNode ::ₘ heldBy req live := by
  rw [heldBy, Finset.insert_val_of_notMem hi, Multiset.map_cons, update_self]
  congr 1
  refine Multiset.map_congr rfl fun j hj => ?_
  have hne : j ≠ i := fun heq => hi (heq ▸ hj)
  rw [update_of_ne hne]

theorem owedTo_insert (req : ℕ → Req) (hi : i ∉ live) (r : Req) :
    owedTo C (update req i r) (insert i live) = r.pages C + owedTo C req live := by
  rw [owedTo, Finset.sum_insert hi, update_self]
  congr 1
  refine Finset.sum_congr rfl fun j hj => ?_
  have hne : j ≠ i := fun heq => hi (heq ▸ hj)
  rw [update_of_ne hne]

/-- A request apart from the others. -/
theorem split_request (C : CacheConfig Digest) (hi : i ∈ w.live) :
    heldBy w.req w.live = (w.req i).lastNode ::ₘ heldBy w.req (w.live.erase i) ∧
      owedTo C w.req w.live = (w.req i).pages C + owedTo C w.req (w.live.erase i) := by
  have hheld := heldBy_insert w.req (Finset.notMem_erase i w.live) (w.req i)
  have howed := owedTo_insert (C := C) w.req (Finset.notMem_erase i w.live) (w.req i)
  rw [update_eq_self, Finset.insert_erase hi] at hheld howed
  exact ⟨hheld, howed⟩

/-- One request is new or changed. -/
theorem holds_update {req : ℕ → Req} (hi : i ∉ live)
    (I : Inv C.params X (r.lastNode ::ₘ heldBy req live))
    (K : Stock C X (r.pages C + owedTo C req live)) (R : RowHeld C X r)
    (hrows : ∀ j ∈ live, RowHeld C X (req j)) :
    Holds C X ⟨X.cache, insert i live, update req i r⟩ := by
  refine ⟨rfl, ?_, ?_, fun j hj => ?_⟩
  · rw [heldBy_insert req hi]
    exact I
  · rw [owedTo_insert req hi]
    exact K
  · rcases Finset.mem_insert.mp hj with rfl | hj
    · simp only [update_self]
      exact R
    · simp only [update_of_ne (fun heq : j = i => hi (heq ▸ hj))]
      exact hrows j hj

theorem Holds.replace (hi : i ∈ w.live)
    (I : Inv C.params Y (r.lastNode ::ₘ heldBy w.req (w.live.erase i)))
    (K : Stock C Y (r.pages C + owedTo C w.req (w.live.erase i))) (R : RowHeld C Y r)
    (hrows : ∀ j ∈ w.live.erase i, RowHeld C Y (w.req j)) :
    Holds C Y ⟨Y.cache, w.live, update w.req i r⟩ := by
  have h := holds_update (Finset.notMem_erase i w.live) I K R hrows
  rwa [Finset.insert_erase hi] at h

/-- Only the requests that run matter. -/
theorem Holds.congr {w' : Serving Digest} (V : Holds C X w) (hcache : w'.cache = w.cache)
    (hlive : w'.live = w.live) (hreq : ∀ j ∈ w'.live, w'.req j = w.req j) : Holds C X w' := by
  have hheld : heldBy w'.req w'.live = heldBy w.req w.live := by
    rw [heldBy, Multiset.map_congr rfl fun j hj => by rw [hreq j hj], hlive, heldBy]
  have howed : owedTo C w'.req w'.live = owedTo C w.req w.live := by
    rw [owedTo, Finset.sum_congr rfl fun j hj => by rw [hreq j hj], hlive, owedTo]
  refine ⟨V.cache_eq.trans hcache.symm, hheld ▸ V.inv, howed ▸ V.stock, fun j hj => ?_⟩
  rw [hreq j hj]
  exact V.rows j (hlive ▸ hj)

theorem holds_init (C : CacheConfig Digest) (T : RadixCache Digest KVAllocator) :
    ∃ X, Holds C X (init C T) := by
  set F := Tree.fresh C.params T with hF
  have I : Inv C.params { F with cache := (init C T).cache } 0 :=
    Same.inv rfl (inv_fresh C.params T) fun _ _ => rfl
  have hinner : ({ F with cache := (init C T).cache } : Tree Digest KVAllocator).inner =
      ∅ := by
    simp [Tree.inner, hF, Tree.fresh, init, reset_eq]
  refine ⟨{ F with cache := (init C T).cache }, rfl, I, ⟨fun n hn => ?_, rfl, ?_⟩,
    fun i hi => absurd hi (Finset.notMem_empty i)⟩
  · rw [hinner] at hn
    exact absurd hn (Finset.notMem_empty n)
  · rw [treePages, hinner, Finset.sum_empty, add_zero]
    change (KVAllocator.clear C.pool).avail + 0 = _
    rw [add_zero, KVAllocator.avail_clear]

/-! ## Admission -/

theorem arrive_spec (V : Holds C X w) (hi : i ∉ w.live) (tokens : List ℤ)
    (extraKey sessionId : Option String) (maxPrefixLen : ℕ) :
    ∃ Y w', w.arrive C i tokens extraKey sessionId maxPrefixLen = .ok w' ∧ Holds C Y w' ∧
      ∃ r : Req, w'.live = insert i w.live ∧ w'.req = update w.req i r ∧
        r.tokens = tokens ∧ r.row.length = r.cacheProtectedLen := by
  obtain ⟨hcache, I, K, hrows⟩ := V
  obtain ⟨cache, live, req⟩ := w
  obtain rfl : X.cache = cache := hcache
  set key : RadixKey := { tokenIds := tokens.take maxPrefixLen, extraKey } with hkey
  obtain ⟨Y, node, k, hmatch, hreach⟩ := matchPrefix_spec I.shape key
  have hgrown := hreach.refined.grown I.shape
  have IY := hreach.refined.inv I
  obtain ⟨T, hT, hlift, L, hacc⟩ := incLockRef_spec IY.shape IY.locked hreach.mem
  set r : Req := { tokens, extraKey, sessionId, row := (Y.path node).map Prod.snd
                   cacheProtectedLen := ((Y.path node).map Prod.snd).length
                   lastNode := node } with hr
  have hnone : r.row.drop r.cacheProtectedLen = [] := by simp [hr]
  refine ⟨{ Y with cache := T }, ⟨T, insert i live, update req i r⟩, ?_,
    holds_update hi ?_ ?_ ?_ fun j hj => ?_, r, rfl, rfl, rfl, rfl⟩
  · simp only [arrive, ← hkey, hmatch, bind, Except.bind, hT]
    rfl
  · exact hlift.inv IY L (hacc IY.accounts)
  · have hpages : r.pages C = 0 := by
      rw [Req.pages, hnone]
      simp [pageIds, numPagesFor_zero C.pool.pageSize_pos]
    rw [hpages, zero_add]
    exact hlift.stock (hreach.refined.stock I.shape K)
  · refine ⟨?_, le_rfl, hreach.mem, ?_, ?_⟩
    · rw [hnone]
      exact pageRun_nil C.pool.pageSize_pos
    · rw [hreach.path_keys I.shape, query_letters, view_of_tokens]
      exact ((List.take_prefix _ _).trans (List.take_prefix _ _)).trans (letters_take _ _ _ _)
    · exact (take_of_length_le le_rfl).symm
  · exact (hgrown.row (hrows j hj)).congr (hgrown.live (hrows j hj).mem) rfl

/-! ## Fresh slots -/

theorem length_extendOne (hp : 0 < p) (e : ExtendReq) (taken : List ℤ) :
    (extendOne p e taken).length = e.seqLen - e.prefixLen := by
  have hge := numPagesFor_mul_ge hp e.prefixLen
  rw [extendOne_eq hp, length_append, length_map, length_range, length_runSlots]
  omega

theorem getD_drop_last (h : a < l.length) :
    l.getLastD (-1) = (l.drop a).getD ((l.drop a).length - 1) 0 := by
  have hlen : (l.drop a).length = l.length - a := length_drop
  rw [getD_eq_getElem _ _ (by omega), getElem_drop]
  rw [getLastD_eq_getLast?, List.getLast?_eq_getElem?]
  have hidx : a + ((l.drop a).length - 1) = l.length - 1 := by omega
  simp only [hidx]
  rw [List.getElem?_eq_getElem (by omega), Option.getD_some]

/-- New slots continue the row of a request. -/
theorem RowHeld.extend (R : RowHeld C X r) (S : Shape C.params X) {e : ExtendReq}
    {taken : List ℤ} (hpre : e.prefixLen = r.row.length) (hlast : e.lastLoc = r.row.getLastD (-1))
    (htaken : taken.length = e.numNewPages C.pool.pageSize) :
    RowHeld C X { r with row := r.row ++ extendOne C.pool.pageSize e taken } ∧
      Req.pages C { r with row := r.row ++ extendOne C.pool.pageSize e taken } =
        (taken : Multiset ℤ) + r.pages C := by
  have hp := C.pool.pageSize_pos
  have hdrop : (r.row ++ extendOne C.pool.pageSize e taken).drop r.cacheProtectedLen =
      r.row.drop r.cacheProtectedLen ++ extendOne C.pool.pageSize e taken :=
    drop_append_of_le_length R.le_row
  have hlen : e.prefixLen = r.cacheProtectedLen + (r.row.drop r.cacheProtectedLen).length := by
    rw [length_drop, hpre, Nat.add_sub_cancel' R.le_row]
  obtain ⟨hrun, hids⟩ := R.run.extend hp (R.dvd S) hlen (fun hpart => by
    rw [hlast]
    refine getD_drop_last ?_
    by_contra hge
    rw [length_drop, Nat.sub_eq_zero_of_le (not_lt.mp hge)] at hpart
    exact hpart rfl) htaken
  refine ⟨⟨?_, ?_, R.mem, R.keys, ?_⟩, ?_⟩
  · simp only [hdrop]
    exact hrun
  · exact R.le_row.trans (by simp)
  · rw [take_append_of_le_length R.le_row]
    exact R.vals
  · simp only [Req.pages, hdrop, hids]
    rw [← Multiset.coe_add, add_comm]

/-- The rows after a batch got new slots. -/
structure Extended (batch : List (ℕ × ℕ)) (req req' : ℕ → Req) : Prop where
  other : ∀ j, j ∉ batch.map Prod.fst → req' j = req j
  row : ∀ b ∈ batch, ∃ ext : List ℤ, ext.length = b.2 ∧
    req' b.1 = { req b.1 with row := (req b.1).row ++ ext }

theorem extended_writeCacheIndices {batch : List (ℕ × ℕ)} (hnodup : (batch.map Prod.fst).Nodup)
    {out : List ℤ} (hlen : out.length = (batch.map Prod.snd).sum) (req : ℕ → Req) :
    Extended batch req (writeCacheIndices batch out req) := by
  induction batch generalizing out req with
  | nil => exact ⟨fun j _ => rfl, fun b hb => absurd hb (by simp)⟩
  | cons b rest ih =>
    obtain ⟨i, k⟩ := b
    rw [map_cons, nodup_cons] at hnodup
    rw [map_cons, sum_cons] at hlen
    have hrest : (out.drop k).length = (rest.map Prod.snd).sum := by
      rw [length_drop, hlen, Nat.add_sub_cancel_left]
    obtain ⟨hother, hrow⟩ := ih hnodup.2 hrest
      (update req i { req i with row := (req i).row ++ out.take k })
    refine ⟨?_, ?_⟩
    · intro j hj
      rw [map_cons, mem_cons, not_or] at hj
      rw [writeCacheIndices, hother j hj.2, update_of_ne hj.1]
    · intro b hb
      rcases mem_cons.mp hb with rfl | hb
      · refine ⟨out.take k, ?_, ?_⟩
        · rw [length_take, hlen, min_eq_left (Nat.le_add_right _ _)]
        · rw [writeCacheIndices, hother _ hnodup.1, update_self]
      · obtain ⟨ext, hext, heq⟩ := hrow b hb
        have hne : b.1 ≠ i := fun h => hnodup.1 (mem_map.mpr ⟨b, hb, h⟩)
        rw [update_of_ne hne] at heq
        exact ⟨ext, hext, heq⟩

theorem length_allocExtendKernel (hp : 0 < p) (batch : List (ℕ × ℕ)) (taken : List ℤ) :
    (allocExtendKernel p (batch.map w.extendReq) taken).length = (batch.map Prod.snd).sum := by
  induction batch generalizing taken with
  | nil => rfl
  | cons b rest ih =>
    rw [map_cons, allocExtendKernel, length_append, length_extendOne hp, ih]
    congr 1
    exact Nat.add_sub_cancel_left _ _

/-- A whole batch is served from the pages that were taken for it. -/
theorem writeCacheIndices_spec (S : Shape C.params X) {batch : List (ℕ × ℕ)}
    (hnodup : (batch.map Prod.fst).Nodup) {taken : List ℤ} (hbatch : ∀ b ∈ batch, b.1 ∈ live)
    (htaken : taken.length = getNumNewPages C.pool.pageSize (batch.map w.extendReq))
    (hrows : ∀ i ∈ live, RowHeld C X (w.req i)) :
    (∀ i ∈ live, RowHeld C X (writeCacheIndices batch
        (allocExtendKernel C.pool.pageSize (batch.map w.extendReq) taken) w.req i)) ∧
      heldBy (writeCacheIndices batch
        (allocExtendKernel C.pool.pageSize (batch.map w.extendReq) taken) w.req) live =
          heldBy w.req live ∧ owedTo C (writeCacheIndices batch
        (allocExtendKernel C.pool.pageSize (batch.map w.extendReq) taken) w.req) live =
          (taken : Multiset ℤ) + owedTo C w.req live := by
  have hp := C.pool.pageSize_pos
  induction batch generalizing w taken with
  | nil =>
    have hnil : taken = [] := length_eq_zero_iff.mp htaken
    refine ⟨hrows, rfl, ?_⟩
    rw [hnil, Multiset.coe_nil, zero_add]
    rfl
  | cons b rest ih =>
    obtain ⟨i, k⟩ := b
    have hi : i ∈ live := hbatch (i, k) mem_cons_self
    have hnot : i ∉ rest.map Prod.fst := (nodup_cons.mp hnodup).1
    set e := w.extendReq (i, k) with he
    have hsum : getNumNewPages C.pool.pageSize ((((i, k) :: rest)).map w.extendReq) =
        e.numNewPages C.pool.pageSize + getNumNewPages C.pool.pageSize (rest.map w.extendReq) := by
      simp [getNumNewPages, he]
    rw [hsum] at htaken
    set first := taken.take (e.numNewPages C.pool.pageSize) with hfirst
    have hflen : first.length = e.numNewPages C.pool.pageSize := by
      rw [length_take]
      omega
    have hone : extendOne C.pool.pageSize e taken = extendOne C.pool.pageSize e first := by
      conv_lhs => rw [← take_append_drop (e.numNewPages C.pool.pageSize) taken]
      exact extendOne_append hp e hflen.ge
    have hwidth : (extendOne C.pool.pageSize e first).length = k := by
      rw [length_extendOne hp]
      exact Nat.add_sub_cancel_left _ _
    obtain ⟨hrow, hpages⟩ := (hrows i hi).extend S rfl rfl hflen
    -- the requests behind see the rest of the pages
    set r' : Req := { w.req i with
      row := (w.req i).row ++ extendOne C.pool.pageSize e first } with hr'
    set w' : Serving Digest := { w with req := update w.req i r' } with hw'
    have hother : ∀ b ∈ rest, w'.req b.1 = w.req b.1 := by
      intro b hb
      have hne : b.1 ≠ i := fun heq => hnot (heq ▸ mem_map_of_mem hb)
      exact update_of_ne hne _ _
    have hmap : rest.map w.extendReq = rest.map w'.extendReq := by
      refine map_congr_left fun b hb => ?_
      simp [extendReq, hother b hb]
    have hout : writeCacheIndices ((i, k) :: rest)
        (allocExtendKernel C.pool.pageSize ((((i, k) :: rest)).map w.extendReq) taken) w.req =
        writeCacheIndices rest (allocExtendKernel C.pool.pageSize
          (rest.map w'.extendReq) (taken.drop (e.numNewPages C.pool.pageSize))) w'.req := by
      rw [map_cons, allocExtendKernel, writeCacheIndices, hone,
        take_append_of_le_length hwidth.ge, drop_append_of_le_length hwidth.ge,
        take_of_length_le hwidth.le, drop_of_length_le hwidth.le, nil_append, hmap]
    have hrows' : ∀ j ∈ live, RowHeld C X (w'.req j) := by
      intro j hj
      by_cases hji : j = i
      · rw [hji]
        simp only [hw', update_self]
        exact hrow
      · simp only [hw', update_of_ne hji]
        exact hrows j hj
    have htaken' : (taken.drop (e.numNewPages C.pool.pageSize)).length =
        getNumNewPages C.pool.pageSize (rest.map w'.extendReq) := by
      rw [length_drop, htaken, hmap, Nat.add_sub_cancel_left]
    obtain ⟨hall, hheld, howed⟩ := ih (nodup_cons.mp hnodup).2
      (fun b hb => hbatch b (mem_cons_of_mem _ hb)) htaken'
      hrows'
    rw [hout]
    have hsplit := split_request (w := ⟨w.cache, live, w.req⟩) C hi
    have hheld' := heldBy_insert w.req (Finset.notMem_erase i live) r'
    have howed' := owedTo_insert (C := C) w.req (Finset.notMem_erase i live) r'
    rw [Finset.insert_erase hi] at hheld' howed'
    refine ⟨hall, ?_, ?_⟩
    · rw [hheld, hsplit.1]
      exact hheld'
    · rw [howed, hsplit.2]
      rw [howed', hpages, ← take_append_drop (e.numNewPages C.pool.pageSize) taken,
        ← Multiset.coe_add, drop_left' hflen]
      abel

end Sglang.Radix
