import Mathlib.Algebra.BigOperators.Option
import Sglang.Radix.Ownership

/-!
# No page is leaked or freed twice

The allocation calls, the two cache calls and eviction keep the division of the pool, so in
every run each page has exactly one owner.
-/

namespace Sglang.Radix

open Sglang.Support Sglang.PagedAlloc RadixKey List Function
open Multiset (coe_add coe_nil coe_nodup disjoint_left mem_add mem_coe mem_sum nodup_add)
open Serving KVAllocator

variable {Digest : Type} {C : CacheConfig Digest} {X Y Z : Tree Digest KVAllocator}
  {T : RadixCache Digest KVAllocator} {held : Multiset NodeId} {owed : Multiset ℤ}
  {n m : NodeId} {w w' : Serving Digest} {r : Req} {i : ℕ} {batch : List (ℕ × ℕ)}

/-! ## Allocation -/

/-- The outcome of an allocation that took `taken` for the batch. -/
theorem grant_holds (V : Holds C X w) {out : Option (List ℤ) × KVAllocator}
    (hnodup : (batch.map Prod.fst).Nodup) (hbatch : ∀ b ∈ batch, b.1 ∈ w.live)
    (hspec : ∀ slots, out.1 = some slots →
      ∃ taken : List ℤ, taken.length = getNumNewPages C.pool.pageSize (batch.map w.extendReq) ∧
        w.cache.allocator.avail = (taken : Multiset ℤ) + out.2.avail ∧
        out.2.isNotInFreeGroup = w.cache.allocator.isNotInFreeGroup ∧
        slots = allocExtendKernel C.pool.pageSize (batch.map w.extendReq) taken)
    (hok : w.grant batch out = .ok w') :
    ∃ Y, Holds C Y w' ∧ w'.live = w.live ∧ Extended batch w.req w'.req := by
  obtain ⟨hcache, I, K, hrows⟩ := V
  unfold grant at hok
  split at hok
  · cases hok
  · rename_i slots hslots
    obtain ⟨taken, hlen, havail, hready, rfl⟩ := hspec slots hslots
    cases hok
    obtain ⟨hall, hheld, howed⟩ := writeCacheIndices_spec I.shape hnodup hbatch hlen hrows
    refine ⟨{ X with cache := { X.cache with allocator := out.2 } }, ⟨?_, ?_, ?_, fun i hi => ?_⟩,
      rfl, ?_⟩
    · rw [hcache]
    · simp only [hheld]
      exact Same.inv rfl I fun _ _ => rfl
    · simp only [howed]
      exact K.take (by rw [hcache]; exact havail) (by rw [hcache]; exact hready)
    · exact (hall i hi).congr (hall i hi).mem rfl
    · exact extended_writeCacheIndices hnodup
        (length_allocExtendKernel C.pool.pageSize_pos batch taken) w.req

/-- Pages of one slot are handed out as they are. -/
theorem allocExtendKernel_one (w : Serving Digest) {taken : List ℤ}
    (h : taken.length = (batch.map Prod.snd).sum) :
    allocExtendKernel 1 (batch.map w.extendReq) taken = taken ∧
      getNumNewPages 1 (batch.map w.extendReq) = (batch.map Prod.snd).sum := by
  have hpages : ∀ k, numPagesFor 1 k = k := fun k => by
    rw [numPagesFor_of_dvd Nat.one_pos (one_dvd k), Nat.div_one]
  have hnew : ∀ b : ℕ × ℕ, (w.extendReq b).numNewPages 1 = b.2 := by
    intro b
    rw [ExtendReq.numNewPages, hpages, hpages]
    exact Nat.add_sub_cancel_left _ _
  induction batch generalizing taken with
  | nil =>
    have hnil : taken = [] := length_eq_zero_iff.mp h
    exact ⟨hnil.symm, rfl⟩
  | cons b rest ih =>
    rw [map_cons, sum_cons] at h
    have htail : (taken.drop b.2).length = (rest.map Prod.snd).sum := by
      rw [length_drop, h, Nat.add_sub_cancel_left]
    obtain ⟨hkernel, hcount⟩ := ih htail
    have hhead : extendOne 1 (w.extendReq b) taken = taken.take b.2 := by
      have hsub : (w.extendReq b).seqLen - (w.extendReq b).prefixLen = b.2 :=
        Nat.add_sub_cancel_left _ _
      have hle := (w.extendReq b).prefix_le
      rw [extendOne_eq Nat.one_pos, hpages, Nat.mul_one, min_eq_right hle, Nat.sub_self, hsub]
      exact runSlots_one (by omega)
    refine ⟨?_, ?_⟩
    · rw [map_cons, allocExtendKernel, hhead, hnew, hkernel, take_append_drop]
    · rw [getNumNewPages] at hcount
      rw [getNumNewPages, map_cons, map_cons, sum_cons, hcount, hnew, map_cons, sum_cons]

/-- An allocation of single slots, read as an extension of the batch. -/
theorem alloc_holds (V : Holds C X w) (hone : C.pool.pageSize = 1)
    (hnodup : (batch.map Prod.fst).Nodup) (hbatch : ∀ b ∈ batch, b.1 ∈ w.live)
    (hok : w.grant batch (w.cache.allocator.alloc C.pool (batch.map Prod.snd).sum) = .ok w') :
    ∃ Y, Holds C Y w' ∧ w'.live = w.live ∧ Extended batch w.req w'.req := by
  refine grant_holds V hnodup hbatch (fun slots hslots => ?_) hok
  obtain ⟨hlen, havail, hready⟩ := alloc_spec
    (Prod.ext hslots rfl : _ = (some slots, _))
  obtain ⟨hkernel, hcount⟩ := allocExtendKernel_one w hlen
  rw [hone, hcount]
  exact ⟨slots, hlen, havail, hready, hkernel.symm⟩

theorem allocForExtend_holds (V : Holds C X w)
    (hnodup : (batch.map Prod.fst).Nodup) (hbatch : ∀ b ∈ batch, b.1 ∈ w.live)
    (hok : w.allocForExtend C batch = .ok w') :
    ∃ Y, Holds C Y w' ∧ w'.live = w.live ∧ Extended batch w.req w'.req := by
  unfold allocForExtend at hok
  split at hok
  · exact alloc_holds V ‹_› hnodup hbatch hok
  · refine grant_holds V hnodup hbatch (fun slots hslots => ?_) hok
    exact allocExtend_spec (Prod.ext hslots rfl : _ = (some slots, _))

theorem allocForDecode_holds (V : Holds C X w) {batch : List ℕ} (hnodup : batch.Nodup)
    (hlive : ∀ i ∈ batch, i ∈ w.live) (hok : w.allocForDecode C batch = .ok w') :
    ∃ Y, Holds C Y w' ∧ w'.live = w.live ∧ Extended (batch.map fun i => (i, 1)) w.req w'.req := by
  have hfst : ((batch.map fun i => (i, 1)).map Prod.fst).Nodup := by
    rw [map_map]
    exact (map_id batch).symm ▸ hnodup
  have hbatch : ∀ b ∈ batch.map fun i => (i, 1), b.1 ∈ w.live := by
    intro b hb
    obtain ⟨i, hi, rfl⟩ := mem_map.mp hb
    exact hlive i hi
  unfold allocForDecode at hok
  split at hok
  · refine alloc_holds V ‹_› hfst hbatch ?_
    have hsum : ((batch.map fun i => (i, 1)).map Prod.snd).sum = batch.length := by
      simp [map_map, Function.comp_def]
    rw [hsum]
    exact hok
  · have hp : 1 < C.pool.pageSize := by
      have := C.pool.pageSize_pos
      omega
    refine grant_holds V hfst hbatch (fun slots hslots => ?_) hok
    have hmap : (batch.map w.decodeReq).map toExtend =
        (batch.map fun i => (i, 1)).map w.extendReq := by
      rw [map_map, map_map]
      rfl
    rw [← hmap]
    exact allocDecode_spec hp (Prod.ext hslots rfl : _ = (some slots, _))

/-- Rows that stay within the tokens. -/
theorem Extended.row_le {req req' : ℕ → Req} (h : Extended batch req req')
    (hbatch : ∀ b ∈ batch, (req b.1).row.length + b.2 ≤ (req b.1).tokens.length)
    (hle : (req i).row.length ≤ (req i).tokens.length) :
    (req' i).row.length ≤ (req' i).tokens.length := by
  by_cases hi : i ∈ batch.map Prod.fst
  · obtain ⟨b, hb, rfl⟩ := mem_map.mp hi
    obtain ⟨ext, hext, heq⟩ := h.row b hb
    rw [heq, length_append, hext]
    exact hbatch b hb
  · rw [h.other i hi]
    exact hle

/-! ## Eviction -/

theorem evict_holds (V : Holds C X w) {pick : ℕ → Finset NodeId → NodeId} (hpick : Picks pick)
    (numTokens : ℕ) : ∃ k Y, w.cache.evict C.params pick numTokens = .ok (k, Y.cache) ∧
      Holds C Y { w with cache := Y.cache } := by
  obtain ⟨hcache, I, K, hrows⟩ := V
  obtain ⟨k, Y, xs, hev, hsteps⟩ := evict_spec hpick numTokens I
  obtain ⟨IY, KY, hpath⟩ := hsteps.keep (J := fun Z => Stock C Z _ ∧ Z.path = X.path) I ⟨K, rfl⟩
    fun I h hleaf => ⟨hleaf.stock_evictOne I.shape h.1, h.2⟩
  refine ⟨k, Y, hcache ▸ hev, rfl, IY, KY, fun i hi => ?_⟩
  refine (hrows i hi).congr (IY.locked.held_live _ ?_) ?_
  · exact Multiset.mem_map_of_mem _ hi
  · rw [hpath]

/-! ## Finishing -/

/-- What `cache_finished_req` does with `k` committed slots before it frees the tail. -/
theorem finish_row (I : Inv C.params X held) (R : RowHeld C X r) {k : ℕ} (hk : k ≤ r.row.length)
    (hkt : k ≤ r.tokens.length) (hcover : r.cacheProtectedLen ≤ ServeOp.unitsOf C k)
    (K : Stock C X (r.pages C + owed)) (live : Finset ℕ) (req : ℕ → Req) (isInsert : Bool) :
    ∃ Z leaf, handOver C ⟨X.cache, live, req⟩ r isInsert (r.row.take k) (r.radixKey C k) =
        .ok (Z.cache, leaf) ∧ Inv C.params Z held ∧ Grown X Z ∧
      (∃ F : Multiset ℤ, Z.cache.allocator.avail = X.cache.allocator.avail + F ∧
        F + (pageIds C.pool.pageSize (r.row.drop (r.radixKey C k).len) : Multiset ℤ) ≤ r.pages C) ∧
      Stock C Z ((pageIds C.pool.pageSize (r.row.drop (r.radixKey C k).len) : Multiset ℤ) + owed) ∧
      PageRun C.pool.pageSize (r.row.drop (r.radixKey C k).len) ∧
      (∀ l, leaf = some l → l ∈ Z.live) := by
  have hlen := Req.len_radixKey_le (C := C) hkt
  cases isInsert with
  | true =>
    obtain ⟨j, last, Z, hins, IZ, hgrown, halloc, hj, hdup, hpart, KZ, htail, hlast, _⟩ :=
      insert_row I R hk hkt hcover K
    refine ⟨{ Z with cache := Z.cache.freeIndices C (pySlice r.row r.cacheProtectedLen j) },
      some last, ?_, IZ.free _, hgrown.trans ⟨Finset.Subset.refl _, fun _ _ => rfl⟩,
      ⟨_, halloc ▸ KZ.avail_free hdup, hpart⟩, KZ.free hdup, htail, ?_⟩
    · simp [handOver, hins, bind, Except.bind, pySlice_take (hj.trans hlen)]
    · rintro l ⟨⟩
      exact hlast
  | false =>
    have hle := R.le_radixKey I.shape hkt hcover
    obtain ⟨hfirst, htail, hids⟩ := drop_pages C.pool.pageSize_pos hle (hlen.trans hk)
      (Nat.dvd_sub (Req.dvd_radixKey C r _) (R.dvd I.shape)) R.run
    have hparts : r.pages C = (pageIds C.pool.pageSize
        (pySlice r.row r.cacheProtectedLen (r.radixKey C k).len) : Multiset ℤ) +
          (pageIds C.pool.pageSize (r.row.drop (r.radixKey C k).len) : Multiset ℤ) := by
      rw [Req.pages, hids, coe_add]
    rw [hparts, add_assoc] at K
    set cached := pySlice r.row r.cacheProtectedLen (r.radixKey C k).len
    refine ⟨{ X with cache := X.cache.freeIndices C cached }, none, ?_, I.free _,
      ⟨Finset.Subset.refl _, fun _ _ => rfl⟩, ⟨_, K.avail_free hfirst, hparts.ge⟩,
      K.free hfirst, htail, ?_⟩
    · simp only [handOver, pySlice_take hlen]
      rfl
    · rintro l ⟨⟩

/-- The slots behind the started page of `k` slots. -/
def Req.behind (C : CacheConfig Digest) (r : Req) (k : ℕ) : List ℤ :=
  r.row.drop (numPagesFor C.pool.pageSize k * C.pool.pageSize)

/-- The unaligned tail of the committed part takes the page it starts with it. -/
theorem tail_pages {a k : ℕ} (hdvd : C.pool.pageSize ∣ a) (ha : a ≤ k) (hk : k ≤ r.row.length)
    (h : PageRun C.pool.pageSize (r.row.drop a)) :
    PageRun C.pool.pageSize (pySlice r.row a k) ∧ PageRun C.pool.pageSize (r.behind C k) ∧
      pageIds C.pool.pageSize (r.row.drop a) = pageIds C.pool.pageSize (pySlice r.row a k) ++
          pageIds C.pool.pageSize (r.behind C k) := by
  have hp := C.pool.pageSize_pos
  have hm : k - a ≤ (r.row.drop a).length := by
    rw [length_drop]
    omega
  have hceil : a + numPagesFor C.pool.pageSize (k - a) * C.pool.pageSize =
      numPagesFor C.pool.pageSize k * C.pool.pageSize := by
    have hadd := numPagesFor_add (n := k - a) hp hdvd
    rw [Nat.add_sub_cancel' ha] at hadd
    rw [hadd, Nat.add_mul, Nat.div_mul_cancel hdvd]
  have hpages := pageIds_ceil hp h hm
  rw [drop_drop, hceil] at hpages
  exact hpages

theorem committed_spec (V : Holds C X w) (hi : i ∈ w.live) {n : ℕ} (hn : n ≤ (w.req i).row.length)
    (hnt : n ≤ (w.req i).tokens.length)
    (hcover : (w.req i).cacheProtectedLen ≤ ServeOp.unitsOf C n) (isInsert : Bool) :
    ∃ Y, w.cacheCommitted C i n isInsert = .ok Y.cache ∧
      Inv C.params Y (heldBy w.req (w.live.erase i)) ∧
      (∃ F : Multiset ℤ, Y.cache.allocator.avail = w.cache.allocator.avail + F ∧
        F + (pageIds C.pool.pageSize ((w.req i).behind C n) : Multiset ℤ) ≤ (w.req i).pages C) ∧
      Stock C Y ((pageIds C.pool.pageSize ((w.req i).behind C n) : Multiset ℤ) +
        owedTo C w.req (w.live.erase i)) ∧ PageRun C.pool.pageSize ((w.req i).behind C n) ∧
      ∀ j ∈ w.live.erase i, RowHeld C Y (w.req j) := by
  obtain ⟨hcache, I, K, hrows⟩ := V
  obtain ⟨cache, live, req⟩ := w
  obtain rfl : X.cache = cache := hcache
  have R := hrows i hi
  obtain ⟨hheld, howed⟩ := split_request C hi
  simp only at hheld howed hcover R hi hn hnt ⊢
  rw [hheld] at I
  rw [howed] at K
  set r := req i with hr
  set key := r.radixKey C n with hkey
  obtain ⟨Z, leaf, hcall, IZ, hgrown, ⟨F, havail, hpart⟩, KZ, htail, hleaf⟩ :=
    finish_row I R hn hnt hcover K live req (if C.disableFinishedInsert then false else isInsert)
  rw [← hkey] at hcall KZ htail hpart
  obtain ⟨htailrun, hbehind, hids⟩ := tail_pages (Req.dvd_radixKey C r n)
    (Req.len_radixKey_le hnt) hn htail
  rw [hids, ← coe_add] at KZ hpart
  rw [add_assoc] at KZ
  rw [← add_assoc] at hpart
  -- the unaligned tail, the session tag and the lock
  set Z₁ : Tree Digest KVAllocator :=
    { Z with cache := Z.cache.freeIndices C (pySlice r.row key.len n) } with hZ₁
  have I₁ : Inv C.params Z₁ (r.lastNode ::ₘ heldBy req (live.erase i)) := IZ.free _
  have K₁ := KZ.free htailrun
  obtain ⟨Z₂, T₂, hT₂, hrefine, htag⟩ := tagSessionLeaf_spec I₁.shape r.sessionId key leaf
  have I₂ := htag.inv (hrefine.inv I₁)
  have K₂ := htag.stock (hrefine.stock I₁.shape K₁)
  obtain ⟨T₃, hT₃, hlift, L₃, hacc⟩ := decLockRef_spec I₂.shape I₂.locked
  have hgrown₁ : Grown X Z₁ := hgrown.trans ⟨Finset.Subset.refl _, fun _ _ => rfl⟩
  have hgrown₂ : Grown X { Z₂ with cache := T₃ } :=
    (hgrown₁.trans (hrefine.grown I₁.shape)).trans ⟨Finset.Subset.refl _, fun _ _ => rfl⟩
  have havail₃ : T₃.allocator.avail = X.cache.allocator.avail +
      (F + (pageIds C.pool.pageSize (pySlice r.row key.len n) : Multiset ℤ)) := by
    have halloc : T₃.allocator = Z₁.cache.allocator := by
      rw [hlift, ← hrefine.allocator]
      rw [htag]
      rfl
    rw [halloc, ← add_assoc, ← havail]
    exact KZ.avail_free htailrun
  refine ⟨{ Z₂ with cache := T₃ }, ?_, hlift.inv I₂ L₃ (hacc I₂.accounts), ⟨_, havail₃, hpart⟩,
    hlift.stock K₂, hbehind, fun j hj => hgrown₂.row (hrows j (Finset.mem_of_mem_erase hj))⟩
  have hcommitted : (r.tokens.take n).length = n := length_take_of_le hnt
  have hdrop : (r.row.take n).drop key.len = pySlice r.row key.len n := by rw [pySlice, drop_take]
  have hfree : Z.cache.freeIndices C (pySlice r.row key.len n) = Z₁.cache := rfl
  simp only [cacheCommitted, ← hr, hcommitted, ← hkey, bind, Except.bind, hcall, hdrop,
    hfree, hT₂, hT₃]

theorem finish_holds (V : Holds C X w) (isInsert : Bool)
    (hop : (ServeOp.cacheFinishedReq i isInsert).Legal C w)
    (hle : (w.req i).row.length ≤ (w.req i).tokens.length) :
    ∃ Y w', w.cacheFinishedReq C i isInsert = .ok w' ∧ Holds C Y w' ∧
      w'.live = w.live.erase i ∧ w'.req = w.req := by
  obtain ⟨Y, hrun, IY, -, KY, -, hrows⟩ := committed_spec V hop.1 le_rfl hle hop.2 isInsert
  have hnone : (w.req i).behind C (w.req i).row.length = [] :=
    drop_eq_nil_of_le (numPagesFor_mul_ge C.pool.pageSize_pos _)
  have hnil : pageIds C.pool.pageSize [] = [] := by
    simp [pageIds, numPagesFor_zero C.pool.pageSize_pos]
  rw [hnone, hnil, coe_nil, zero_add] at KY
  refine ⟨Y, { w with cache := Y.cache, live := w.live.erase i }, ?_, ⟨rfl, IY, KY, hrows⟩, rfl,
    rfl⟩
  rw [cacheFinishedReq, hrun]
  rfl

/-! ## Caching a running request -/

theorem unfinished_holds (V : Holds C X w) {fillLen : ℕ}
    (hop : (ServeOp.cacheUnfinishedReq i fillLen).Legal C w)
    (hfillt : fillLen ≤ (w.req i).tokens.length) :
    ∃ Y w', w.cacheUnfinishedReq C i fillLen = .ok w' ∧ Holds C Y w' ∧
      ∃ r' : Req, w'.live = w.live ∧ w'.req = update w.req i r' ∧
        r'.tokens = (w.req i).tokens ∧ r'.row.length = (w.req i).row.length ∧
        r'.cacheProtectedLen = ((w.req i).radixKey C fillLen).len := by
  obtain ⟨hcache, I, K, hrows⟩ := V
  obtain ⟨cache, live, req⟩ := w
  obtain rfl : X.cache = cache := hcache
  obtain ⟨hi, hfill, hcover⟩ := hop
  have R := hrows i hi
  obtain ⟨hheld, howed⟩ := split_request C hi
  simp only at hheld howed hcover hfill hfillt R hi
  rw [hheld] at I
  rw [howed] at K
  set r := req i with hr
  have hle := R.le_radixKey I.shape hfillt hcover
  have hlen := Req.len_radixKey_le (C := C) hfillt
  obtain ⟨j, last, Z, hins, IZ, hgrown, -, hj, hdup, -, KZ, htail, hlast, hlastkeys⟩ :=
    insert_row I R hfill hfillt hcover K
  set key := r.radixKey C fillLen with hkey
  set Z₁ : Tree Digest KVAllocator :=
    { Z with cache := Z.cache.freeIndices C (pySlice r.row r.cacheProtectedLen j) } with hZ₁
  have I₁ : Inv C.params Z₁ (r.lastNode ::ₘ heldBy req (live.erase i)) := IZ.free _
  have K₁ : Stock C Z₁ ((pageIds C.pool.pageSize (r.row.drop key.len) : Multiset ℤ) +
      owedTo C req (live.erase i)) := KZ.free hdup
  have hgrown₁ : Grown X Z₁ := hgrown.trans ⟨Finset.Subset.refl _, fun _ _ => rfl⟩
  -- the key was just stored, so the second walk ends with it
  obtain ⟨Z₂, node, k, hmatch, hreach⟩ := matchPrefix_spec I₁.shape key
  have hgrown₂ : Grown X Z₂ := hgrown₁.trans (hreach.refined.grown I₁.shape)
  have I₂ := hreach.refined.inv I₁
  have K₂ := hreach.refined.stock I₁.shape K₁
  have hall : k = key.len := by
    have hmem : Z₁.path last ∈ Z₁.cache.Content C.params :=
      I₁.shape.mem_content.mpr ⟨I₁.shape.tree.page_dvd_path hlast, _, hlast, prefix_rfl⟩
    have hlong := (hreach.longestMatch I₁.shape).longest _ hmem (by
      rw [Req.view_radixKey, ← hlastkeys])
    have hlastlen : (Z₁.path last).length = key.len := by
      rw [← length_letters, ← hlastkeys, length_map]
    have hle' := hreach.le_len
    rw [Req.len_query, ← hkey] at hle'
    rw [length_map, hreach.length_path I₁.shape] at hlong
    omega
  set indices := (Z₂.path node).map Prod.snd with hindices
  have hcount : indices.length = key.len := by
    rw [hindices, length_map, hreach.length_path I₁.shape, hall]
  have hkeys : (Z₂.path node).map Prod.fst = key.letters := by
    rw [hreach.path_keys I₁.shape, hkey, Req.letters_query, ← hkey, hall,
      take_of_length_le (by rw [length_letters])]
  -- the protected prefix is the prefix it was
  have hpre : X.path r.lastNode <+: Z₂.path node := by
    rw [← hgrown₂.path _ R.mem]
    refine I₂.shape.tree.prefix_of_above
      (I₂.shape.tree.above_of_keys (hgrown₂.live R.mem) hreach.mem ?_)
    rw [hgrown₂.path _ R.mem, hkeys]
    refine prefix_of_prefix_length_le R.keys (Req.letters_radixKey C r fillLen) ?_
    rw [length_map, R.length_path, length_letters]
    exact hle
  have hkept : r.row.take r.cacheProtectedLen ++ indices.drop r.cacheProtectedLen = indices := by
    obtain ⟨rest, hrest⟩ := hpre
    have hsplit : indices = r.row.take r.cacheProtectedLen ++ rest.map Prod.snd := by
      rw [hindices, ← hrest, map_append, R.vals]
    have hprot : (r.row.take r.cacheProtectedLen).length = r.cacheProtectedLen :=
      length_take_of_le R.le_row
    rw [hsplit, drop_left' hprot]
  obtain ⟨T₃, hT₃, hlift₃, L₃, hacc₃⟩ := decLockRef_spec I₂.shape I₂.locked
  have I₃ := hlift₃.inv I₂ L₃ (hacc₃ I₂.accounts)
  obtain ⟨T₄, hT₄, hlift₄, L₄, hacc₄⟩ := incLockRef_spec I₃.shape I₃.locked hreach.mem
  have I₄ := hlift₄.inv I₃ L₄ (hacc₄ I₃.accounts)
  obtain ⟨Z₅, T₅, hT₅, hrefine, htag⟩ := tagSessionLeaf_spec I₄.shape r.sessionId key (some node)
  have hgrown₄ := hrefine.grown I₄.shape
  have hgrown₅ : Grown Z₂ { Z₅ with cache := T₅ } := ⟨hgrown₄.live, hgrown₄.path⟩
  set r' : Req := { r with
    row := r.row.take r.cacheProtectedLen ++ indices.drop r.cacheProtectedLen ++
      r.row.drop indices.length
    cacheProtectedLen := indices.length
    lastNode := node } with hr'
  have hrow : r'.row = indices ++ r.row.drop key.len := by
    rw [hr']
    rw [hkept, hcount]
  have hdrop : r'.row.drop r'.cacheProtectedLen = r.row.drop key.len := by
    rw [hrow]
    exact drop_left
  have hsize : r'.row.length = r.row.length := by
    rw [hrow, length_append, length_drop]
    omega
  have R' : RowHeld C Z₂ r' := by
    refine ⟨by rw [hdrop]; exact htail, ?_, hreach.mem, ?_, ?_⟩
    · rw [hrow, length_append]
      exact Nat.le_add_right _ _
    · rw [hkeys]
      exact Req.letters_radixKey C r fillLen
    · rw [hrow]
      exact take_left.symm
  refine ⟨{ Z₅ with cache := T₅ }, ⟨T₅, live, update req i r'⟩, ?_,
    Holds.replace hi
      (htag.inv (hrefine.inv I₄)) ?_ (hgrown₅.row R') fun j hj =>
      (hgrown₂.trans hgrown₅).row (hrows j (Finset.mem_of_mem_erase hj)),
    r', rfl, rfl, rfl, hsize, hcount⟩
  · have hfilled : (r.tokens.take fillLen).length = fillLen := length_take_of_le hfillt
    have hfree : Z.cache.freeIndices C (pySlice r.row r.cacheProtectedLen j) = Z₁.cache := rfl
    simp only [cacheUnfinishedReq, ← hr, hfilled, ← hkey, bind, Except.bind,
      Except.mapError, hins, pySlice_take (hj.trans hlen), hfree, hmatch, hcount,
      ne_eq, not_true_eq_false, if_false, hT₃, hT₄, hT₅]
    rw [hr']
    simp only [hcount]
  · have hpages : r'.pages C = (pageIds C.pool.pageSize (r.row.drop key.len) : Multiset ℤ) := by
      rw [Req.pages, hdrop]
    rw [hpages]
    exact htag.stock (hrefine.stock I₄.shape (hlift₄.stock (hlift₃.stock K₂)))

/-! ## Runs -/

theorem appendTokens_holds (V : Holds C X w) (hi : i ∈ w.live) (tokens : List ℤ) :
    Holds C X (w.appendTokens i tokens) := by
  obtain ⟨hcache, I, K, hrows⟩ := V
  obtain ⟨cache, live, req⟩ := w
  obtain rfl : X.cache = cache := hcache
  obtain ⟨hheld, howed⟩ := split_request C hi
  rw [hheld] at I
  rw [howed] at K
  have R := hrows i hi
  refine Holds.replace hi I K
    ⟨R.run, R.le_row, R.mem, R.keys.trans ?_, R.vals⟩
    fun j hj => hrows j (Finset.mem_of_mem_erase hj)
  have h := letters_take ((req i).tokens ++ tokens) (req i).extraKey C.isEagle (req i).tokens.length
  rwa [take_left] at h

/-- One request changed, and its row stays within its tokens. -/
theorem row_le_update {live : Finset ℕ} {req : ℕ → Req}
    (hle : ∀ j ∈ live, (req j).row.length ≤ (req j).tokens.length)
    (hr : r.row.length ≤ r.tokens.length) {j : ℕ} (hj : j ∈ insert i live) :
    (update req i r j).row.length ≤ (update req i r j).tokens.length := by
  by_cases hji : j = i
  · subst hji
    rw [update_self]
    exact hr
  · rw [update_of_ne hji]
    exact hle j (Finset.mem_of_mem_insert_of_ne hj hji)

/-- Every legal operation keeps the division of the pool. -/
theorem ServeOp.serves (V : Serves C X w) {op : ServeOp} (hop : op.Legal C w)
    (hok : op.run C w = .ok w') : ∃ Y, Serves C Y w' := by
  obtain ⟨H, hle⟩ := V
  cases op with
  | arrive i tokens extraKey sessionId maxPrefixLen =>
    obtain ⟨Y, w₁, hrun, HY, r, hlive, hreq, htokens, hrow⟩ :=
      arrive_spec H hop tokens extraKey sessionId maxPrefixLen
    simp only [ServeOp.run, hrun, Except.mapError, Except.ok.injEq] at hok
    subst hok
    refine ⟨Y, HY, ?_⟩
    have hr : r.row.length ≤ r.tokens.length := by
      have R := HY.rows i (by rw [hlive]; exact Finset.mem_insert_self _ _)
      rw [hreq, update_self] at R
      rw [hrow]
      exact R.protected_le
    rw [hlive, hreq]
    exact fun j hj => row_le_update hle hr hj
  | appendTokens i tokens =>
    cases hok
    refine ⟨X, appendTokens_holds H hop tokens, ?_⟩
    refine fun j hj => row_le_update hle ?_ (Finset.mem_insert_of_mem hj)
    rw [length_append]
    exact (hle i hop).trans (Nat.le_add_right _ _)
  | allocForExtend batch =>
    obtain ⟨Y, HY, hlive, hext⟩ := allocForExtend_holds H hop.1 (fun b hb => (hop.2 b hb).1) hok
    refine ⟨Y, HY, ?_⟩
    rw [hlive]
    exact fun j hj => hext.row_le (fun b hb => (hop.2 b hb).2) (hle j hj)
  | allocForDecode batch =>
    obtain ⟨Y, HY, hlive, hext⟩ := allocForDecode_holds H hop.1 (fun i hi => (hop.2 i hi).1) hok
    refine ⟨Y, HY, ?_⟩
    rw [hlive]
    refine fun j hj => hext.row_le (fun b hb => ?_) (hle j hj)
    obtain ⟨i, hi, rfl⟩ := mem_map.mp hb
    exact (hop.2 i hi).2.2
  | cacheUnfinishedReq i fillLen =>
    obtain ⟨Y, w₁, hrun, HY, r, hlive, hreq, htokens, hrow, -⟩ :=
      unfinished_holds H hop (hop.2.1.trans (hle i hop.1))
    simp only [ServeOp.run, hrun, Except.ok.injEq] at hok
    subst hok
    refine ⟨Y, HY, ?_⟩
    rw [hlive, hreq]
    refine fun j hj => row_le_update hle ?_ (Finset.mem_insert_of_mem hj)
    rw [hrow, htokens]
    exact hle i hop.1
  | cacheFinishedReq i isInsert =>
    obtain ⟨Y, w₁, hrun, HY, hlive, hreq⟩ := finish_holds H isInsert hop (hle i hop.1)
    simp only [ServeOp.run, hrun, Except.mapError, Except.ok.injEq] at hok
    subst hok
    refine ⟨Y, HY, ?_⟩
    rw [hlive, hreq]
    exact fun j hj => hle j (Finset.mem_of_mem_erase hj)
  | evict pick numTokens =>
    obtain ⟨k, Y, hev, HY⟩ := evict_holds H hop numTokens
    simp only [ServeOp.run, hev, Except.mapError, Functor.map, Except.map, Except.ok.injEq] at hok
    subst hok
    exact ⟨Y, HY, hle⟩

theorem ServeRun.serves (h : ServeRun C w) : ∃ X, Serves C X w := by
  induction h with
  | start T =>
    obtain ⟨X, H⟩ := holds_init C T
    exact ⟨X, H, fun i hi => absurd hi (Finset.notMem_empty i)⟩
  | step _ hop hok ih =>
    obtain ⟨X, V⟩ := ih
    exact ServeOp.serves V hop hok

/-! ## Owners -/

inductive Owner where
  | free
  | node (n : NodeId)
  | req (i : ℕ)

/-- The page `q` is on the allocator's lists, has a slot in the value of a node below the
root, or has one in the un-cached part of a live row. -/
def Serving.Owns (C : CacheConfig Digest) (w : Serving Digest) (q : ℤ) : Owner → Prop
  | .free => q ∈ w.cache.allocator.freePages ∨ q ∈ w.cache.allocator.releasePages
  | .node n => (w.cache.InTree n ∧ n ≠ w.cache.rootNode) ∧
      ∃ s ∈ (w.cache.node n).indices, s / (C.pool.pageSize : ℤ) = q
  | .req i => i ∈ w.live ∧
      ∃ s ∈ (w.req i).row.drop (w.req i).cacheProtectedLen, s / (C.pool.pageSize : ℤ) = q

/-- Every page of the pool has exactly one owner and no other page has any; lists, values
and rows repeat nothing; values are whole pages; protected prefixes are cached. -/
structure NoLeak (C : CacheConfig Digest) (w : Serving Digest) : Prop where
  owned : ∀ q, q ∈ C.pool.pool ↔ ∃ o, w.Owns C q o
  unique : ∀ q o o', w.Owns C q o → w.Owns C q o' → o = o'
  nodup_free : (w.cache.allocator.freePages ++ w.cache.allocator.releasePages).Nodup
  nodup_node : ∀ n, w.cache.InTree n → n ≠ w.cache.rootNode → (w.cache.node n).indices.Nodup
  whole_pages : ∀ n, w.cache.InTree n → n ≠ w.cache.rootNode →
    ∀ s ∈ (w.cache.node n).indices, ∀ s', s' / (C.pool.pageSize : ℤ) = s / C.pool.pageSize →
      s' ∈ (w.cache.node n).indices
  nodup_row : ∀ i ∈ w.live, ((w.req i).row.drop (w.req i).cacheProtectedLen).Nodup
  cached : ∀ i ∈ w.live, ∃ e, w.cache.RootPath (w.req i).lastNode e ∧
    e.map Prod.fst <+: (w.req i).word C ∧
    e.map Prod.snd = (w.req i).row.take (w.req i).cacheProtectedLen

theorem eq_of_mem_sum {ι β : Type*} [DecidableEq ι] {s : Finset ι} {f : ι → Multiset β}
    (h : (∑ i ∈ s, f i).Nodup) {i j : ι} {b : β} (hi : i ∈ s) (hj : j ∈ s) (hbi : b ∈ f i)
    (hbj : b ∈ f j) : i = j := by
  by_contra hne
  rw [← Finset.add_sum_erase s f hi, nodup_add] at h
  refine disjoint_left.mp h.2.2 hbi ?_
  exact mem_sum.mpr ⟨j, Finset.mem_erase.mpr ⟨fun heq => hne heq.symm, hj⟩, hbj⟩

theorem nodup_of_mem_sum {ι β : Type*} [DecidableEq ι] {s : Finset ι} {f : ι → Multiset β}
    (h : (∑ i ∈ s, f i).Nodup) {i : ι} (hi : i ∈ s) : (f i).Nodup := by
  rw [← Finset.add_sum_erase s f hi, nodup_add] at h
  exact h.1

/-- Owners by number. -/
def Owner.index : Owner → Option (NodeId ⊕ ℕ)
  | .free => none
  | .node n => some (.inl n)
  | .req i => some (.inr i)

theorem Owner.index_injective : Injective Owner.index := by
  rintro (_ | _ | _) (_ | _ | _) h <;> cases h <;> rfl

theorem Owner.index_surjective : Surjective Owner.index := by
  rintro (_ | n | i)
  · exact ⟨.free, rfl⟩
  · exact ⟨.node n, rfl⟩
  · exact ⟨.req i, rfl⟩

/-- The pages of an owner. -/
def share (C : CacheConfig Digest) (X : Tree Digest KVAllocator) (w : Serving Digest) :
    Option (NodeId ⊕ ℕ) → Multiset ℤ
  | none => X.cache.allocator.avail
  | some (.inl n) => nodePages C X n
  | some (.inr i) => (w.req i).pages C

def owners (X : Tree Digest KVAllocator) (w : Serving Digest) : Finset (Option (NodeId ⊕ ℕ)) :=
  (X.inner.disjSum w.live).insertNone

/-- The shares make up the pool. -/
theorem Holds.sum_share (V : Holds C X w) :
    ∑ o ∈ owners X w, share C X w o = (C.pool.pool : Multiset ℤ) := by
  rw [owners, Finset.sum_insertNone, Finset.sum_disjSum, ← V.stock.conserve, add_assoc]
  rfl

theorem Holds.nodup_share (V : Holds C X w) : (∑ o ∈ owners X w, share C X w o).Nodup := by
  rw [V.sum_share]
  exact nodup_pool C.pool

theorem Holds.mem_inner_iff (V : Holds C X w) :
    w.cache.InTree n ∧ n ≠ w.cache.rootNode ↔ n ∈ X.inner := by
  rw [Tree.mem_inner, ← V.inv.shape.inTree_iff, V.cache_eq]

theorem Holds.owns_iff (V : Holds C X w) {q : ℤ} {o : Owner} :
    w.Owns C q o ↔ o.index ∈ owners X w ∧ q ∈ share C X w o.index := by
  have hp := C.pool.pageSize_pos
  cases o with
  | free =>
    rw [Owns, ← V.cache_eq]
    simp [Owner.index, owners, share, avail]
  | node n =>
    have hmem : (Owner.node n).index ∈ owners X w ↔ n ∈ X.inner := by simp [Owner.index, owners]
    rw [Owns, V.mem_inner_iff, hmem, ← V.cache_eq]
    exact and_congr_right fun hn => (V.stock.run n hn).mem_pageIds_iff hp
  | req i =>
    have hmem : (Owner.req i).index ∈ owners X w ↔ i ∈ w.live := by simp [Owner.index, owners]
    rw [hmem]
    exact and_congr_right fun hi => (V.rows i hi).run.mem_pageIds_iff hp

theorem Holds.owned (V : Holds C X w) (q : ℤ) : q ∈ C.pool.pool ↔ ∃ o, w.Owns C q o := by
  rw [← mem_coe, ← V.sum_share, mem_sum]
  constructor
  · rintro ⟨x, hx⟩
    obtain ⟨o, rfl⟩ := Owner.index_surjective x
    exact ⟨o, V.owns_iff.mpr hx⟩
  · rintro ⟨o, ho⟩
    exact ⟨o.index, V.owns_iff.mp ho⟩

theorem Holds.owner_unique (V : Holds C X w) {q : ℤ} {o o' : Owner} (h : w.Owns C q o)
    (h' : w.Owns C q o') : o = o' := by
  obtain ⟨ho, hq⟩ := V.owns_iff.mp h
  obtain ⟨ho', hq'⟩ := V.owns_iff.mp h'
  exact Owner.index_injective (eq_of_mem_sum V.nodup_share ho ho' hq hq')

theorem Holds.noLeak (V : Holds C X w) : NoLeak C w := by
  have hp := C.pool.pageSize_pos
  refine ⟨V.owned, fun q o o' => V.owner_unique, ?_, ?_, ?_, ?_, ?_⟩
  · have havail : X.cache.allocator.avail.Nodup :=
      nodup_of_mem_sum V.nodup_share (i := none) (by simp [owners])
    rw [V.cache_eq] at havail
    exact coe_nodup.mp havail
  · intro n hn hr
    have hin := V.mem_inner_iff.mp ⟨hn, hr⟩
    have hnodup : (nodePages C X n).Nodup :=
      nodup_of_mem_sum V.nodup_share (i := some (.inl n)) (by simpa [owners] using hin)
    rw [← V.cache_eq]
    exact (V.stock.run n hin).nodup hp (coe_nodup.mp hnodup)
  · intro n hn hr s hs s' hpage
    have hin := V.mem_inner_iff.mp ⟨hn, hr⟩
    have hdvd : C.pool.pageSize ∣ (X.cache.node n).indices.length := by
      rw [← V.inv.shape.len_eq hin]
      exact V.inv.shape.page_dvd hin
    rw [← V.cache_eq, (V.stock.run n hin).mem_iff hp hdvd] at hs ⊢
    rwa [hpage]
  · intro i hi
    have hnodup : ((w.req i).pages C).Nodup :=
      nodup_of_mem_sum V.nodup_share (i := some (.inr i)) (by simpa [owners] using hi)
    exact (V.rows i hi).run.nodup hp (coe_nodup.mp hnodup)
  · intro i hi
    refine ⟨X.path (w.req i).lastNode, ?_, (V.rows i hi).keys, (V.rows i hi).vals⟩
    rw [← V.cache_eq]
    exact V.inv.shape.rootPath_iff.mpr ⟨(V.rows i hi).mem, rfl⟩

/-- In every run of requests, every page has exactly one owner. -/
theorem noLeak_of_run (h : ServeRun C w) : NoLeak C w := by
  obtain ⟨X, V⟩ := h.serves
  exact V.noLeak

/-! ## Small servers -/

/-- The server after an operation, unchanged if it raised. -/
def ServeOp.next (C : CacheConfig Digest) (w : Serving Digest) (op : ServeOp) : Serving Digest :=
  match op.run C w with
  | .ok w' => w'
  | .error _ => w

theorem ServeRun.next (h : ServeRun C w) (op : ServeOp) (hop : op.Legal C w)
    (hok : (op.run C w).isOk = true) : ServeRun C (op.next C w) := by
  refine .step h hop ?_
  rw [ServeOp.next]
  cases hrun : op.run C w with
  | ok w' => rfl
  | error e =>
    rw [hrun] at hok
    cases hok

/-- Two pages of two slots. -/
def pairConfig : CacheConfig Unit where
  pool := { size := 4, pageSize := 2, pageSize_pos := Nat.two_pos, needSort := false }
  isEagle := false
  enableKvCacheEvents := false
  enableSessionRadixCache := false
  disableFinishedInsert := false
  nativeHash := fun _ _ => ()
  leadingBits := fun _ => 0

/-- A request for one token. -/
def oneSlot : Serving Unit :=
  (ServeOp.allocForExtend [(0, 1)]).next pairConfig
    ((ServeOp.arrive 0 [7] none none 0).next pairConfig
      (init pairConfig (blankCache (clear pairConfig.pool))))

theorem run_oneSlot : ServeRun pairConfig oneSlot := by
  refine ((ServeRun.start _).next _ ?_ (by decide +kernel)).next _ ?_ (by decide +kernel)
  · exact Finset.notMem_empty 0
  · refine ⟨by decide, ?_⟩
    decide +kernel

/-- Three pages of two slots. -/
def tripleConfig : CacheConfig Unit :=
  { pairConfig with pool := { pairConfig.pool with size := 6 } }

/-- The tokens of two requests begin with the same page, which the first one caches while it runs.
The second one reuses it and finishes, and what it cached is evicted. -/
def sharedPage : Serving Unit :=
  [.arrive 0 [7, 8, 9] none none 2, .allocForExtend [(0, 3)], .cacheUnfinishedReq 0 3,
    .arrive 1 [7, 8, 6, 5] none none 3, .allocForExtend [(1, 2)], .cacheFinishedReq 1 true,
    .evict (fun _ heap => heap.sup id) 2].foldl (ServeOp.next tripleConfig)
    (init tripleConfig (blankCache (clear tripleConfig.pool)))

/-- The page in the tree is the one the running request holds, its third slot is its own, and the
page of the finished request is free again. -/
theorem noLeak_sharedPage : NoLeak tripleConfig sharedPage ∧ sharedPage.live = {0} ∧
    (sharedPage.req 0).row = [2, 3, 4] ∧ (sharedPage.cache.node 1).indices = [2, 3] ∧
      sharedPage.cache.allocator.freePages = [3] := by
  have h₁ := (ServeRun.start (C := tripleConfig) (blankCache (clear tripleConfig.pool))).next
    (.arrive 0 [7, 8, 9] none none 2) (Finset.notMem_empty 0) (by decide +kernel)
  have h₂ := h₁.next (.allocForExtend [(0, 3)]) ⟨by decide, by decide +kernel⟩ (by decide +kernel)
  have h₃ := h₂.next (.cacheUnfinishedReq 0 3)
    ⟨by decide +kernel, by decide +kernel, by decide +kernel⟩ (by decide +kernel)
  have h₄ := h₃.next (.arrive 1 [7, 8, 6, 5] none none 3)
    (show 1 ∉ Serving.live _ by decide +kernel) (by decide +kernel)
  have h₅ := h₄.next (.allocForExtend [(1, 2)]) ⟨by decide, by decide +kernel⟩ (by decide +kernel)
  have h₆ := h₅.next (.cacheFinishedReq 1 true) ⟨by decide +kernel, by decide +kernel⟩
    (by decide +kernel)
  have h₇ := h₆.next (.evict (fun _ heap => heap.sup id) 2) picks_sup (by decide +kernel)
  exact ⟨noLeak_of_run h₇, by decide +kernel, by decide +kernel, by decide +kernel,
    by decide +kernel⟩

/-- Single slots under bigram keys. -/
def bigramConfig : CacheConfig Unit :=
  { pairConfig with
    pool := { size := 2, pageSize := 1, pageSize_pos := Nat.one_pos, needSort := false }
    isEagle := true }

/-- A second request matches the cached slot and finishes before it got one of its own. -/
def earlyFinish : Serving Unit :=
  [.arrive 0 [7, 8] none none 1, .allocForExtend [(0, 2)], .cacheFinishedReq 0 true,
    .arrive 1 [7, 8] none none 2, .cacheFinishedReq 1 true].foldl (ServeOp.next bigramConfig)
    (init bigramConfig (blankCache (clear bigramConfig.pool)))

/-- The second slot of a started page is nowhere; and the early finish of a request
frees a slot the tree still holds. -/
theorem unfilled_slot_oneSlot : ServeRun pairConfig oneSlot ∧ ((3 : ℤ) / 2 ∈ pairConfig.pool.pool ∧
        (3 : ℤ) / 2 ∉ oneSlot.cache.allocator.freePages ++ oneSlot.cache.allocator.releasePages ∧
        (∀ n, oneSlot.cache.InTree n → n = oneSlot.cache.rootNode) ∧
        oneSlot.live = {0} ∧ (3 : ℤ) ∉ (oneSlot.req 0).row) ∧
      ((1 : ℤ) ∈ earlyFinish.cache.allocator.freePages ∧ earlyFinish.cache.InTree 1 ∧
        (1 : ℤ) ∈ (earlyFinish.cache.node 1).indices) := by
  refine ⟨run_oneSlot, ⟨by decide +kernel, by decide +kernel, fun n hn => ?_, by decide +kernel,
    by decide +kernel⟩, by decide +kernel, ?_, by decide +kernel⟩
  · exact hn.eq_root (by decide +kernel)
  · have hchild : (earlyFinish.cache.node earlyFinish.cache.rootNode).children.lookup
        (RadixKey.childKey { tokenIds := [7, 8], isBigram := true } 1) = some 1 := by
      decide +kernel
    exact ⟨_, .child .root hchild⟩

end Sglang.Radix
