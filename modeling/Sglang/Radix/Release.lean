import Sglang.Radix.Lifecycle

/-!
# Releases and the tree

While every release hands over at least what the request has locked, the division of the
pool survives whole lives, and a release frees exactly the pages of the row that the tree
does not hold.
-/

namespace Sglang.Radix

open Sglang.Support Sglang.PagedAlloc RadixKey List Function LifeOp

variable {Digest : Type} {L : LifeConfig Digest} {X Y : Tree Digest KVAllocator}
  {W W' : Lives Digest} {w w' : Serving Digest} {r : Req} {i : ℕ} {C : CacheConfig Digest}
  {batch : List (ℕ × ℕ)}

/-! ## The counters of a request -/

theorem unitsOf_mono {m n : ℕ} (h : m ≤ n) : ServeOp.unitsOf C m ≤ ServeOp.unitsOf C n := by
  unfold ServeOp.unitsOf
  split <;> omega

theorem lt_unitsOf_succ {m n : ℕ} (h : m < n) : m ≤ ServeOp.unitsOf C n := by
  unfold ServeOp.unitsOf
  split <;> omega

/-- The committed length of a request: within the row, and past the protected prefix once
there is one. -/
structure Counted (L : LifeConfig Digest) (r : Req) (committed : ℕ) : Prop where
  le_row : committed ≤ r.row.length
  covers : 0 < committed → r.cacheProtectedLen ≤ ServeOp.unitsOf L.toCacheConfig committed
  exact_row : L.speculative = false → 0 < committed → committed = r.row.length

theorem counted_zero (r : Req) : Counted L r 0 :=
  ⟨Nat.zero_le _, fun h => absurd h (Nat.lt_irrefl 0), fun _ h => absurd h (Nat.lt_irrefl 0)⟩

/-- The division of the pool together with the counters. -/
structure LifeOk (L : LifeConfig Digest) (X : Tree Digest KVAllocator) (W : Lives Digest) :
    Prop where
  holds : Holds L.toCacheConfig X W.toServing
  counted : ∀ i ∈ W.live, Counted L (W.req i) (W.kvCommittedLen i)

/-! ## Releases -/

theorem cacheCommitLen_le (i : ℕ) : W.cacheCommitLen L i ≤ W.kvCommittedLen i := by
  unfold Lives.cacheCommitLen
  split
  · exact min_le_left _ _
  · exact le_rfl

/-- What is handed over reaches past the protected prefix. -/
theorem Counted.covers_commitLen (h : Counted L (W.req i) (W.kvCommittedLen i))
    (hpos : 0 < W.kvCommittedLen i) (hcov : Covers L W i) :
    (W.req i).cacheProtectedLen ≤ ServeOp.unitsOf L.toCacheConfig (W.cacheCommitLen L i) := by
  unfold Lives.cacheCommitLen
  split
  · rename_i hstrip
    rcases le_total (W.kvCommittedLen i) (W.promptLen i) with hle | hle
    · rw [min_eq_left hle]
      exact h.covers hpos
    · rw [min_eq_right hle]
      exact hcov hstrip.1 hstrip.2
  · exact h.covers hpos

theorem Counted.no_overallocation (h : Counted L (W.req i) (W.kvCommittedLen i))
    (hpos : 0 < W.kvCommittedLen i) : ¬(!L.speculative && !L.stripThinkingCache &&
      decide (W.cacheCommitLen L i ≠ (W.req i).row.length)) = true := by
  cases hspec : L.speculative with
  | true => exact Bool.false_ne_true
  | false =>
    cases hstrip : L.stripThinkingCache with
    | true => exact Bool.false_ne_true
    | false =>
      have hlen : W.cacheCommitLen L i = W.kvCommittedLen i := by
        rw [Lives.cacheCommitLen, hstrip]
        exact if_neg fun hand => Bool.false_ne_true hand.1
      rw [hlen, h.exact_row hspec hpos]
      simp

/-- The slots behind the handed-over part. -/
theorem freeOverallocated_eq (T : RadixCache Digest KVAllocator) (i : ℕ) :
    W.freeOverallocated L T i =
      if (W.req i).behind L.toCacheConfig (W.cacheCommitLen L i) = [] then T
      else T.freeIndices L.toCacheConfig
        ((W.req i).behind L.toCacheConfig (W.cacheCommitLen L i)) := by
  have hstart : (if 1 < L.pool.pageSize then
      ceilAlign (W.cacheCommitLen L i) L.pool.pageSize else W.cacheCommitLen L i) =
        numPagesFor L.pool.pageSize (W.cacheCommitLen L i) * L.pool.pageSize := by
    split
    · rfl
    · have hone : L.pool.pageSize = 1 := by
        have := L.pool.pageSize_pos
        omega
      rw [hone, numPagesFor_of_dvd Nat.one_pos (one_dvd _), Nat.div_one, Nat.mul_one]
  unfold Lives.freeOverallocated
  simp only [hstart, Req.behind, drop_eq_nil_iff]
  by_cases hlt : numPagesFor L.pool.pageSize (W.cacheCommitLen L i) * L.pool.pageSize <
      (W.req i).row.length
  · rw [if_pos hlt, if_neg (not_le.mpr hlt), pySlice, take_of_length_le]
    rw [length_drop]
  · rw [if_neg hlt, if_pos (not_lt.mp hlt)]

/-- A release that covers what is locked divides the pool again; what it frees is part of the
un-cached row. -/
theorem release_spec (V : LifeOk L X W) (hset : Settled W i)
    (hcov : Covers L W i) (isInsert : Bool) :
    ∃ Y W', W.releaseKvCache L i isInsert = .ok W' ∧ LifeOk L Y W' ∧
      W'.live = W.live.erase i ∧ W'.req = W.req ∧ ∃ F ≤ (W.req i).pages L.toCacheConfig,
        W'.cache.allocator.avail = W.cache.allocator.avail + F := by
  obtain ⟨hi, hpos, htokens⟩ := hset
  have hcount := V.counted i hi
  set n := W.cacheCommitLen L i with hn
  have hle : n ≤ W.kvCommittedLen i := cacheCommitLen_le i
  obtain ⟨Y, hrun, IY, ⟨F, havail, hpart⟩, KY, hbehind, hrows⟩ := committed_spec V.holds hi
    (hle.trans hcount.le_row) (hle.trans htokens) (hcount.covers_commitLen hpos hcov) isInsert
  set behind := (W.req i).behind L.toCacheConfig n with hb
  have hrel : W.releaseKvCache L i isInsert =
      .ok { W with cache := W.freeOverallocated L Y.cache i, live := W.live.erase i } := by
    simp only [Lives.releaseKvCache, ← hn, hrun, Except.mapError, bind, Except.bind]
    exact if_neg (hcount.no_overallocation hpos)
  have hothers : ∀ j ∈ W.live.erase i, Counted L (W.req j) (W.kvCommittedLen j) :=
    fun j hj => V.counted j (Finset.mem_of_mem_erase hj)
  rw [freeOverallocated_eq] at hrel
  by_cases hnil : behind = []
  · rw [if_pos hnil] at hrel
    rw [hnil] at KY hpart
    have hnone : pageIds L.pool.pageSize [] = [] := by
      simp [pageIds, numPagesFor_zero L.pool.pageSize_pos]
    rw [hnone, Multiset.coe_nil] at KY hpart
    rw [zero_add] at KY
    rw [add_zero] at hpart
    exact ⟨Y, _, hrel, ⟨⟨rfl, IY, KY, hrows⟩, hothers⟩, rfl, rfl, F, hpart, havail⟩
  · rw [if_neg hnil] at hrel
    refine ⟨{ Y with cache := Y.cache.freeIndices L.toCacheConfig behind }, _, hrel,
      ⟨⟨rfl, IY.free _, KY.free hbehind, fun j hj => ?_⟩, hothers⟩, rfl, rfl, _, hpart, ?_⟩
    · exact (hrows j hj).congr (hrows j hj).mem rfl
    · rw [← add_assoc, ← havail]
      exact KY.avail_free hbehind

/-! ## Steps -/

/-- One request is new or changed. -/
theorem counted_update {live : Finset ℕ} {req : ℕ → Req} {committed : ℕ → ℕ} {c : ℕ}
    (h : ∀ j ∈ live, Counted L (req j) (committed j)) (hr : Counted L r c) {j : ℕ}
    (hj : j ∈ insert i live) :
    Counted L (update req i r j) (update committed i c j) := by
  by_cases hji : j = i
  · subst hji
    rw [update_self, update_self]
    exact hr
  · rw [update_of_ne hji, update_of_ne hji]
    exact h j (Finset.mem_of_mem_insert_of_ne hj hji)

/-- A request of the batch has a longer row; the others have the row they had. -/
theorem Extended.counted {req req' : ℕ → Req} {committed committed' : ℕ → ℕ}
    {live : Finset ℕ} (hext : Extended batch req req')
    (h : ∀ j ∈ live, Counted L (req j) (committed j))
    (hother : ∀ j ∉ batch.map Prod.fst, committed' j = committed j)
    (hbatch : ∀ b ∈ batch, ∀ ext : List ℤ, ext.length = b.2 →
      Counted L { req b.1 with row := (req b.1).row ++ ext } (committed' b.1)) :
    ∀ j ∈ live, Counted L (req' j) (committed' j) := by
  intro j hj
  by_cases hmem : j ∈ batch.map Prod.fst
  · obtain ⟨b, hb, rfl⟩ := mem_map.mp hmem
    obtain ⟨ext, hlen, heq⟩ := hext.row b hb
    rw [heq]
    exact hbatch b hb ext hlen
  · rw [hext.other j hmem, hother j hmem]
    exact h j hj

/-- A step that goes on after a call has succeeded with that call. -/
theorem exists_of_bind_eq_ok {α β ε ε' : Type} {x : Except ε α} {g : ε → ε'}
    {f : α → Except ε' β} {b : β} (h : (x.mapError g >>= f) = .ok b) :
    ∃ a, x = .ok a ∧ f a = .ok b := by
  cases x with
  | error e => cases h
  | ok a => exact ⟨a, rfl, h⟩

section

variable (V : LifeOk L X W)
include V

theorem prefill_ok (hop : (prefill batch).Legal L W) (hok : (prefill batch).run L W = .ok W') :
    ∃ Y, LifeOk L Y W' := by
  obtain ⟨w, hrun, hok⟩ := exists_of_bind_eq_ok hok
  cases hok
  obtain ⟨Y, HY, hlive, hext⟩ :=
    allocForExtend_holds V.holds hop.1 (fun b hb => (hop.2 b hb).1) hrun
  refine ⟨Y, HY, ?_⟩
  simp only [hlive]
  refine hext.counted V.counted (fun j hj => if_neg hj) fun b hb ext hlen => ?_
  obtain ⟨ext', hlen', heq⟩ := hext.row b hb
  have hrow := (V.holds.rows b.1 (hop.2 b hb).1).le_row
  have hpos := (hop.2 b hb).2
  have hnew : (w.req b.1).row.length = (W.req b.1).row.length + b.2 := by
    rw [heq, length_append, hlen']
  have hcommit : W.commitBatch (batch.map Prod.fst) (fun i => (w.req i).row.length) b.1 =
      (W.req b.1).row.length + b.2 := by
    rw [Lives.commitBatch, if_pos (mem_map_of_mem hb), hnew]
  rw [hcommit]
  refine ⟨?_, fun _ => lt_unitsOf_succ ?_, fun _ _ => ?_⟩
  · rw [length_append, hlen]
  · exact lt_of_le_of_lt hrow (by omega)
  · rw [length_append, hlen]

theorem decode_ok {batch : List ℕ} (hop : (decode batch).Legal L W)
    (hok : (decode batch).run L W = .ok W') : ∃ Y, LifeOk L Y W' := by
  obtain ⟨hspec, hnodup, hbatch⟩ := hop
  obtain ⟨w, hrun, hok⟩ := exists_of_bind_eq_ok hok
  cases hok
  obtain ⟨Y, HY, hlive, hext⟩ :=
    allocForDecode_holds V.holds hnodup (fun i hi => (hbatch i hi).1) hrun
  have hmap : (batch.map fun i => (i, 1)).map Prod.fst = batch := by
    rw [map_map]
    exact map_id batch
  refine ⟨Y, HY, ?_⟩
  simp only [hlive]
  refine hext.counted V.counted (fun j hj => if_neg (by rwa [hmap] at hj)) fun b hb ext hlen => ?_
  obtain ⟨i, hi, rfl⟩ := mem_map.mp hb
  obtain ⟨hmem, hpos⟩ := hbatch i hi
  have hcount := V.counted i hmem
  have hcommit : W.commitBatch batch (fun i => W.kvCommittedLen i + 1) i =
      (W.req i).row.length + 1 := by
    rw [Lives.commitBatch, if_pos hi, hcount.exact_row hspec hpos]
  simp only [hcommit]
  refine ⟨?_, fun _ => lt_unitsOf_succ ?_, fun _ _ => ?_⟩
  · rw [length_append, hlen]
  · exact Nat.lt_succ_of_le (V.holds.rows i hmem).le_row
  · rw [length_append, hlen]

theorem overallocate_ok (hop : (overallocate batch).Legal L W)
    (hok : (overallocate batch).run L W = .ok W') : ∃ Y, LifeOk L Y W' := by
  obtain ⟨hspec, hnodup, hbatch⟩ := hop
  obtain ⟨w, hrun, hok⟩ := exists_of_bind_eq_ok hok
  cases hok
  obtain ⟨Y, HY, hlive, hext⟩ :=
    allocForExtend_holds V.holds hnodup (fun b hb => (hbatch b hb).1) hrun
  refine ⟨Y, HY, ?_⟩
  simp only [hlive]
  refine hext.counted V.counted (fun j _ => rfl) fun b hb ext _ => ?_
  have hcount := V.counted b.1 (hbatch b hb).1
  refine ⟨?_, hcount.covers, fun hnot => ?_⟩
  · rw [length_append]
    exact hcount.le_row.trans (Nat.le_add_right _ _)
  · rw [hspec] at hnot
    cases hnot

theorem cacheUnfinished_ok (hset : Settled W i)
    (hok : (cacheUnfinishedReq i).run L W = .ok W') : ∃ Y, LifeOk L Y W' := by
  obtain ⟨hi, hpos, htokens⟩ := hset
  have hcount := V.counted i hi
  have hlegal : (ServeOp.cacheUnfinishedReq i (W.kvCommittedLen i)).Legal L.toCacheConfig
      W.toServing := ⟨hi, hcount.le_row, hcount.covers hpos⟩
  obtain ⟨Y, w, hrun, HY, r, hlive, hreq, -, hrow, hprot⟩ := unfinished_holds V.holds hlegal htokens
  simp only [LifeOp.run, hrun, Except.mapError, bind, Except.bind, Except.ok.injEq] at hok
  subst hok
  refine ⟨Y, HY, ?_⟩
  have hr : Counted L r (W.kvCommittedLen i) := by
    refine ⟨?_, fun _ => ?_, fun hspec _ => ?_⟩
    · rw [hrow]
      exact hcount.le_row
    · rw [hprot, Req.len_radixKey htokens]
      exact Nat.div_mul_le_self _ _
    · rw [hrow]
      exact hcount.exact_row hspec hpos
  simp only [hlive, hreq]
  intro j hj
  have h := counted_update (i := i) V.counted hr (Finset.mem_insert_of_mem hj)
  rwa [update_eq_self] at h

/-- The requests after an admission. -/
theorem admit_ok (hi : i ∉ W.live) (tokens : List ℤ)
    (extraKey sessionId : Option String) (maxPrefixLen : ℕ) :
    ∃ Y w, W.arrive L.toCacheConfig i tokens extraKey sessionId maxPrefixLen = .ok w ∧
      Holds L.toCacheConfig Y w ∧
      ∀ j ∈ w.live, Counted L (w.req j) (update W.kvCommittedLen i 0 j) := by
  obtain ⟨Y, w, hrun, HY, r, hlive, hreq, -, -⟩ :=
    arrive_spec V.holds hi tokens extraKey sessionId maxPrefixLen
  refine ⟨Y, w, hrun, HY, ?_⟩
  rw [hlive, hreq]
  exact fun j hj => counted_update V.counted (counted_zero r) hj

/-- Every step that covers what is locked keeps the division of the pool. -/
theorem LifeOp.ok {op : LifeOp} (hop : op.Legal L W) (hcov : op.Covered L W)
    (hok : op.run L W = .ok W') : ∃ Y, LifeOk L Y W' := by
  cases op with
  | arrive i prompt extraKey sessionId maxPrefixLen =>
    obtain ⟨Y, w, hrun, HY, hcount⟩ := admit_ok V hop prompt extraKey sessionId maxPrefixLen
    simp only [LifeOp.run, hrun, Except.mapError, bind, Except.bind, Except.ok.injEq] at hok
    subst hok
    exact ⟨Y, HY, hcount⟩
  | rematch i maxPrefixLen =>
    obtain ⟨Y, w, hrun, HY, hcount⟩ := admit_ok V hop (W.req i).tokens (W.req i).extraKey
      (W.req i).sessionId maxPrefixLen
    simp only [LifeOp.run, hrun, Except.mapError, bind, Except.bind, Except.ok.injEq] at hok
    subst hok
    exact ⟨Y, HY, hcount⟩
  | prefill batch => exact prefill_ok V hop hok
  | decode batch => exact decode_ok V hop hok
  | overallocate batch => exact overallocate_ok V hop hok
  | accept i n =>
    obtain ⟨hspec, hi, hpos, hle⟩ := hop
    cases hok
    refine ⟨X, ⟨V.holds.cache_eq, V.holds.inv, V.holds.stock, V.holds.rows⟩, fun j hj => ?_⟩
    have hcount := V.counted i hi
    have hr : Counted L (W.req i) (W.kvCommittedLen i + n) := by
      refine ⟨hle, fun _ => (hcount.covers hpos).trans (unitsOf_mono (Nat.le_add_right _ _)),
        fun hnot => ?_⟩
      rw [hspec] at hnot
      cases hnot
    have h := counted_update (i := i) V.counted hr (Finset.mem_insert_of_mem hj)
    rwa [update_eq_self] at h
  | output i tokens reasoning =>
    cases hok
    refine ⟨X, appendTokens_holds V.holds hop tokens, fun j hj => ?_⟩
    have hcount := V.counted i hop
    have hr : Counted L { W.req i with tokens := (W.req i).tokens ++ tokens }
        (W.kvCommittedLen i) := ⟨hcount.le_row, hcount.covers, hcount.exact_row⟩
    have h := counted_update (i := i) V.counted hr (Finset.mem_insert_of_mem hj)
    rwa [update_eq_self] at h
  | cacheUnfinishedReq i => exact cacheUnfinished_ok V hop hok
  | retract i =>
    obtain ⟨Y, W₁, hrun, VY, hlive, -⟩ := release_spec V hop hcov false
    simp only [LifeOp.run, hrun, bind, Except.bind, Except.ok.injEq] at hok
    subst hok
    have hi : i ∉ W₁.live := by
      rw [hlive]
      exact Finset.notMem_erase i _
    have hsame : ∀ j ∈ W₁.live, (W₁.resetForRetract i).req j = W₁.req j ∧
        (W₁.resetForRetract i).kvCommittedLen j = W₁.kvCommittedLen j := by
      intro j hj
      have hne : j ≠ i := fun heq => hi (heq ▸ hj)
      exact ⟨update_of_ne hne _ _, update_of_ne hne _ _⟩
    refine ⟨Y, VY.holds.congr rfl rfl fun j hj => (hsame j hj).1, fun j hj => ?_⟩
    rw [(hsame j hj).1, (hsame j hj).2]
    exact VY.counted j hj
  | finish i isInsert =>
    obtain ⟨Y, W₁, hrun, VY, -⟩ := release_spec V hop hcov isInsert
    simp only [LifeOp.run, hrun, Except.ok.injEq] at hok
    subst hok
    exact ⟨Y, VY⟩
  | evict pick numTokens =>
    obtain ⟨k, Y, hev, HY⟩ := evict_holds V.holds hop numTokens
    simp only [LifeOp.run, hev, Except.mapError, bind, Except.bind, Except.ok.injEq] at hok
    subst hok
    exact ⟨Y, HY, V.counted⟩

end

theorem LifeRun.ok (h : LifeRun L W) : ∃ X, LifeOk L X W := by
  induction h with
  | start T =>
    obtain ⟨X, H⟩ := holds_init L.toCacheConfig T
    exact ⟨X, H, fun i hi => absurd hi (Finset.notMem_empty i)⟩
  | step _ hop hcov hok ih =>
    obtain ⟨X, V⟩ := ih
    exact LifeOp.ok V hop hcov hok

/-! ## What a release frees -/

/-- The indices of a path are those of its nodes. -/
theorem Shape.mem_indices_of_path {P : RadixParams Digest KVAllocator} (S : Shape P X) {n : NodeId}
    (hn : n ∈ X.live) {s : ℤ} (hs : s ∈ (X.path n).map Prod.snd) :
    ∃ m ∈ X.inner, s ∈ (X.cache.node m).indices := by
  revert hs
  refine S.tree.induct (motive := fun n => s ∈ (X.path n).map Prod.snd →
    ∃ m ∈ X.inner, s ∈ (X.cache.node m).indices) ?_ ?_ n hn
  · intro hs
    rw [S.tree.path_root] at hs
    exact absurd hs (by simp)
  · intro n hn hne ih hs
    have hin : n ∈ X.inner := Tree.mem_inner.mpr ⟨hn, hne⟩
    rw [S.tree.path_eq hn hne, map_append, mem_append] at hs
    rcases hs with hs | hs
    · exact ih hs
    · rw [S.map_snd_entries hin] at hs
      exact ⟨n, hin, hs⟩

/-- The pages of a row are un-cached pages of the request and pages of nodes. -/
theorem Holds.row_pages (V : Holds C X w) (hi : i ∈ w.live) {q : ℤ}
    (h : ∃ s ∈ (w.req i).row, s / (C.pool.pageSize : ℤ) = q) :
    q ∈ treePages C X + (w.req i).pages C := by
  obtain ⟨s, hs, hq⟩ := h
  have R := V.rows i hi
  rw [← take_append_drop (w.req i).cacheProtectedLen (w.req i).row, mem_append] at hs
  refine Multiset.mem_add.mpr ?_
  rcases hs with hs | hs
  · left
    rw [← R.vals] at hs
    obtain ⟨m, hm, hs⟩ := V.inv.shape.mem_indices_of_path R.mem hs
    refine Multiset.mem_sum.mpr ⟨m, hm, ?_⟩
    exact ((V.stock.run m hm).mem_pageIds_iff C.pool.pageSize_pos).mp ⟨s, hs, hq⟩
  · right
    exact (R.run.mem_pageIds_iff C.pool.pageSize_pos).mp ⟨s, hs, hq⟩

theorem Holds.owns_node_iff (V : Holds C X w) (q : ℤ) :
    (∃ n, w.Owns C q (.node n)) ↔ q ∈ treePages C X := by
  rw [treePages, Multiset.mem_sum]
  refine exists_congr fun n => V.owns_iff.trans ?_
  simp [Owner.index, owners, share]

theorem LifeOk.cleanRelease (V : LifeOk L X W) (hset : Settled W i)
    (hcov : Covers L W i) (isInsert : Bool) : ∃ W', W.releaseKvCache L i isInsert = .ok W' ∧
      CleanRelease L.toCacheConfig W.toServing W'.toServing i := by
  obtain ⟨Y, W', hrun, VY, hlive, hreq, F, hF, havail⟩ := release_spec V hset hcov isInsert
  have hconserve := V.holds.stock.conserve
  have hconserve' := VY.holds.stock.conserve
  rw [(split_request L.toCacheConfig hset.1).2, V.holds.cache_eq] at hconserve
  rw [hlive, hreq, VY.holds.cache_eq, havail] at hconserve'
  -- what the row and the tree had is now in the tree or freed
  have hmoved : treePages L.toCacheConfig Y + F =
      treePages L.toCacheConfig X + (W.req i).pages L.toCacheConfig := by
    refine add_left_cancel (a := W.cache.allocator.avail)
      (add_right_cancel (b := owedTo L.toCacheConfig W.req (W.live.erase i)) ?_)
    calc W.cache.allocator.avail + (treePages L.toCacheConfig Y + F) +
          owedTo L.toCacheConfig W.req (W.live.erase i)
        = L.pool.pool := by rw [← hconserve']; abel
      _ = _ := by rw [← hconserve]; abel
  have hnodup : (treePages L.toCacheConfig Y + F).Nodup := by
    refine Multiset.nodup_of_le ?_ (nodup_pool L.pool)
    rw [← hconserve', add_right_comm (W.cache.allocator.avail), add_assoc (W.cache.allocator.avail)]
    exact (Multiset.le_add_left _ _).trans (Multiset.le_add_right _ _)
  obtain ⟨-, hFnodup, hdisjoint⟩ := Multiset.nodup_add.mp hnodup
  refine ⟨W', hrun, hlive, fun j _ => by rw [hreq], ⟨F.toList, ?_, ?_, fun q => ?_⟩,
    VY.holds.noLeak⟩
  · rwa [← Multiset.coe_nodup, Multiset.coe_toList]
  · rw [← Multiset.coe_eq_coe, ← Multiset.coe_add, ← Multiset.coe_add, Multiset.coe_toList]
    exact havail
  · rw [Multiset.mem_toList]
    have hnode := VY.holds.owns_node_iff q
    constructor
    · intro hq
      have hpage := Multiset.mem_of_le hF hq
      obtain ⟨s, hs, hsq⟩ :=
        ((V.holds.rows i hset.1).run.mem_pageIds_iff L.pool.pageSize_pos).mpr hpage
      refine ⟨⟨s, mem_of_mem_drop hs, hsq⟩, fun n hn => ?_⟩
      exact Multiset.disjoint_left.mp hdisjoint (hnode.mp ⟨n, hn⟩) hq
    · rintro ⟨hrow, hnot⟩
      have hmem := V.holds.row_pages hset.1 hrow
      rw [← hmoved, Multiset.mem_add] at hmem
      exact hmem.resolve_left fun h => (hnode.mpr h).elim hnot

/-- In every life whose releases cover the locked prefix, a release frees the pages of the row
that the tree does not hold, each once. -/
theorem cleanRelease_of_run (h : LifeRun L W) (hset : Settled W i)
    (hcov : Covers L W i) (isInsert : Bool) : ∃ W', W.releaseKvCache L i isInsert = .ok W' ∧
      CleanRelease L.toCacheConfig W.toServing W'.toServing i := by
  obtain ⟨X, V⟩ := h.ok
  exact V.cleanRelease hset hcov isInsert

/-! ## A life with reasoning -/

/-- The requests after a step, unchanged if it raised. -/
def LifeOp.next (L : LifeConfig Digest) (W : Lives Digest) (op : LifeOp) : Lives Digest :=
  match op.run L W with
  | .ok W' => W'
  | .error _ => W

theorem LifeRun.next (h : LifeRun L W) (op : LifeOp) (hop : op.Legal L W)
    (hcov : op.Covered L W) (hok : (op.run L W).isOk = true) : LifeRun L (op.next L W) := by
  refine .step h hop hcov ?_
  rw [LifeOp.next]
  cases hrun : op.run L W with
  | ok W' => rfl
  | error e =>
    rw [hrun] at hok
    cases hok

/-- Single slots; the cache keeps prompts only. -/
def stripConfig : LifeConfig Unit where
  toCacheConfig := { pairConfig with
    pool := { size := 4, pageSize := 1, pageSize_pos := Nat.one_pos, needSort := false } }
  speculative := false
  stripThinkingCache := true

/-- A prompt of one token and one token of reasoning. -/
def thinking : Lives Unit :=
  [arrive 0 [7] none none 0, .prefill [(0, 1)], .cacheUnfinishedReq 0, .output 0 [8] 1,
    .decode [0]].foldl (LifeOp.next stripConfig)
    (Lives.init stripConfig (blankCache (KVAllocator.clear stripConfig.pool)))

/-- The request is retracted and prefilled again with its output. -/
def rethinking : Lives Unit :=
  [retract 0, .rematch 0 1, .prefill [(0, 1)], .cacheUnfinishedReq 0].foldl
    (LifeOp.next stripConfig) thinking

instance (W : Lives Digest) (i : ℕ) : Decidable (Settled W i) :=
  inferInstanceAs (Decidable (_ ∧ _ ∧ _))

instance (L : LifeConfig Digest) (W : Lives Digest) (i : ℕ) : Decidable (Covers L W i) :=
  inferInstanceAs (Decidable (_ → _ → _))

theorem run_thinking : LifeRun stripConfig thinking := by
  have h₀ := LifeRun.start (L := stripConfig) (blankCache (KVAllocator.clear stripConfig.pool))
  have h₁ := h₀.next (.arrive 0 [7] none none 0) (Finset.notMem_empty 0) trivial (by decide +kernel)
  have h₂ := h₁.next (.prefill [(0, 1)]) ⟨by decide, by decide +kernel⟩ trivial (by decide +kernel)
  have hset : Settled ((prefill [(0, 1)]).next stripConfig
      ((arrive 0 [7] none none 0).next stripConfig
        (Lives.init stripConfig (blankCache (KVAllocator.clear stripConfig.pool))))) 0 := by
    decide +kernel
  have h₃ := h₂.next (.cacheUnfinishedReq 0) hset trivial (by decide +kernel)
  have h₄ := h₃.next (.output 0 [8] 1) (by change 0 ∈ Serving.live _; decide +kernel) trivial rfl
  exact h₄.next (.decode [0]) ⟨rfl, by decide, by decide +kernel⟩ trivial (by decide +kernel)

theorem settled_thinking : Settled thinking 0 ∧ Covers stripConfig thinking 0 := by
  decide +kernel

theorem run_rethinking : LifeRun stripConfig rethinking := by
  have h₁ := run_thinking.next (.retract 0) settled_thinking.1 settled_thinking.2
    (by decide +kernel)
  have h₂ := h₁.next (.rematch 0 1) (by change 0 ∉ Serving.live _; decide +kernel) trivial
    (by decide +kernel)
  have h₃ := h₂.next (.prefill [(0, 1)]) ⟨by decide, by decide +kernel⟩ trivial (by decide +kernel)
  have hset : Settled ((prefill [(0, 1)]).next stripConfig
      ((rematch 0 1).next stripConfig ((retract 0).next stripConfig thinking))) 0 := by
    decide +kernel
  exact h₃.next (.cacheUnfinishedReq 0) hset trivial (by decide +kernel)

theorem cleanRelease_thinking : (LifeRun stripConfig thinking ∧ Settled thinking 0 ∧
      Covers stripConfig thinking 0) ∧
    ∃ W', thinking.releaseKvCache stripConfig 0 true = .ok W' ∧
      CleanRelease stripConfig.toCacheConfig thinking.toServing W'.toServing 0 :=
  ⟨⟨run_thinking, settled_thinking⟩,
    cleanRelease_of_run run_thinking settled_thinking.1 settled_thinking.2 true⟩

/-- The requests after the release that follows the second prefill. -/
def rethought : Lives Unit := (finish 0 true).next stripConfig rethinking

theorem inTree_rethought : rethought.cache.InTree 2 := by
  have hprompt : (rethought.cache.node rethought.cache.rootNode).children.lookup
      (RadixKey.childKey { tokenIds := [7] } 1) = some 1 := by
    decide +kernel
  have houtput : (rethought.cache.node 1).children.lookup
      (RadixKey.childKey { tokenIds := [8] } 1) = some 2 := by
    decide +kernel
  exact ⟨_, .child (.child .root hprompt) houtput⟩

/-- The release after the second prefill frees a slot that a node of the tree holds. -/
theorem release_rethinking_frees_node :
    LifeRun stripConfig rethinking ∧ Settled rethinking 0 ∧
      ∃ W', rethinking.releaseKvCache stripConfig 0 true = .ok W' ∧
        ∃ q n, W'.Owns stripConfig.toCacheConfig q .free ∧
          W'.Owns stripConfig.toCacheConfig q (.node n) := by
  refine ⟨run_rethinking, by decide +kernel, rethought, rfl, 3, 2, ?_, ?_, 3, ?_, rfl⟩
  · change (3 : ℤ) ∈ rethought.cache.allocator.freePages ∨
      (3 : ℤ) ∈ rethought.cache.allocator.releasePages
    decide +kernel
  · exact ⟨inTree_rethought, by decide +kernel⟩
  · decide +kernel

end Sglang.Radix
