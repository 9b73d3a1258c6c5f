import Sglang.Radix.Run

/-!
# The cache as a longest-prefix map

The content of a cache is the set of words of whole pages read along its root paths: units
tagged with their `extra_key`, each with its KV index. Lookup returns the indices
of the longest stored prefix and leaves the content alone; insertion adds the words that
continue that prefix and nothing else.
-/

namespace Sglang.Radix

open Sglang.Support RadixKey List Prod

variable {Digest A : Type}

/-- The words of whole pages stored in the cache. -/
def RadixCache.Content (P : RadixParams Digest A) (T : RadixCache Digest A) :
    Set (List (Letter × ℤ)) :=
  { e | P.pageSize ∣ e.length ∧ ∃ n w, T.RootPath n w ∧ e <+: w }

/-- The key as the cache sees it: its bigram view where the cache uses one. -/
def RadixParams.view (P : RadixParams Digest A) (key : RadixKey) : RadixKey :=
  (key.maybeToBigramView P.isEagle none).1

/-- `indices` are stored for a prefix of the key, and no longer prefix is stored. -/
structure LongestMatch (P : RadixParams Digest A) (T : RadixCache Digest A) (key : RadixKey)
    (indices : List ℤ) : Prop where
  le_len : indices.length ≤ (P.view key).len
  mem : ((P.view key).letters.take indices.length).zip indices ∈ T.Content P
  longest : ∀ e ∈ T.Content P, e.map fst <+: (P.view key).letters → e.length ≤ indices.length

/-- The cache behaves as a longest-prefix map. -/
structure PrefixMap (P : RadixParams Digest A) (T : RadixCache Digest A) : Prop where
  functional : ∀ e ∈ T.Content P, ∀ f ∈ T.Content P, e.map fst = f.map fst → e = f
  lookup : ∀ key, ∃ indices n T', T.matchPrefix P key = .ok (indices, n, T') ∧
    LongestMatch P T key indices ∧ T'.Content P = T.Content P
  insertion : ∀ key value, P.Supplied key value →
    ∃ old n T', T.insert P key value = .ok (old.length, n, T') ∧ LongestMatch P T key old ∧
      T'.Content P = T.Content P ∪
        { e | P.pageSize ∣ e.length ∧
          e <+: (P.query key).letters.zip (old ++ (P.stored key value).drop old.length) } ∧
      ∀ e, ¬e.map fst <+: (P.view key).letters → (e ∈ T'.Content P ↔ e ∈ T.Content P)

variable {P : RadixParams Digest A} {X Y : Tree Digest A} {held : Multiset NodeId}
  {n m : NodeId} {key : RadixKey} {k : ℕ} {e : List (Letter × ℤ)}

theorem Shape.mem_content (S : Shape P X) :
    e ∈ X.cache.Content P ↔ P.pageSize ∣ e.length ∧ ∃ n ∈ X.live, e <+: X.path n := by
  refine and_congr_right fun _ => ?_
  constructor
  · rintro ⟨n, w, hw, he⟩
    obtain ⟨hn, rfl⟩ := S.rootPath_iff.mp hw
    exact ⟨n, hn, he⟩
  · rintro ⟨n, hn, he⟩
    exact ⟨n, _, S.rootPath_iff.mpr ⟨hn, rfl⟩, he⟩

theorem Shape.content_functional (S : Shape P X) {f : List (Letter × ℤ)}
    (he : e ∈ X.cache.Content P) (hf : f ∈ X.cache.Content P)
    (h : e.map fst = f.map fst) : e = f := by
  obtain ⟨hdvd, m, hm, hem⟩ := S.mem_content.mp he
  obtain ⟨_, n, hn, hfn⟩ := S.mem_content.mp hf
  exact S.tree.eq_of_map_eq hm hn hem hfn hdvd h

/-- Cutting an edge stores nothing new. -/
theorem Refined.content_eq (h : Refined P X Y) (S : Shape P X) :
    Y.cache.Content P = X.cache.Content P := by
  rcases h with rfl | ⟨c, k, hcut, rfl⟩
  · rfl
  · ext e
    rw [(hcut.shape S).mem_content, S.mem_content]
    refine and_congr_right fun _ => ⟨?_, ?_⟩
    · rintro ⟨n, hn, he⟩
      rcases Finset.mem_insert.mp hn with rfl | hn
      · have hc := Tree.mem_inner.mp hcut.mem
        refine ⟨c, hc.1, he.trans ?_⟩
        rw [Cut.path_new, S.tree.path_eq hc.1 hc.2]
        exact (prefix_append_right_inj _).mpr (List.take_prefix _ _)
      · exact ⟨n, hn, by rwa [Cut.path_kept S hn] at he⟩
    · rintro ⟨n, hn, he⟩
      exact ⟨n, Finset.mem_insert_of_mem hn, by rwa [Cut.path_kept S hn]⟩

/-- A new leaf stores the words that run into it. -/
theorem Graft.content_eq {p : NodeId} {value : List ℤ} (h : Graft P X p key value) (S : Shape P X) :
    (X.attach P p key value).cache.Content P = X.cache.Content P ∪
      { e | P.pageSize ∣ e.length ∧ e <+: X.path p ++ key.letters.zip value } := by
  have SZ : Shape P (X.attach P p key value) :=
    (Graft.same_attach X p key value).agree.shape (h.shape S)
  have hlive : (X.attach P p key value).live = insert X.cache.counter X.live := rfl
  have hpath : (X.attach P p key value).path = (X.graft P p key value).path := rfl
  ext e
  rw [Set.mem_union, Set.mem_ofPred_eq, SZ.mem_content, S.mem_content, ← and_or_left, hlive, hpath]
  refine and_congr_right fun _ => ⟨?_, ?_⟩
  · rintro ⟨n, hn, he⟩
    rcases Finset.mem_insert.mp hn with rfl | hn
    · exact Or.inr (by rwa [path_new] at he)
    · exact Or.inl ⟨n, hn, by rwa [path_kept S hn] at he⟩
  · rintro (⟨n, hn, he⟩ | he)
    · exact ⟨n, Finset.mem_insert_of_mem hn, by rwa [path_kept S hn]⟩
    · exact ⟨_, Finset.mem_insert_self _ _, by rwa [path_new]⟩

/-! ## Lookup -/

theorem zip_map_fst_snd {α β : Type*} (l : List (α × β)) :
    (l.map fst).zip (l.map snd) = l := by
  rw [← unzip_fst, ← unzip_snd, zip_unzip]

theorem query_letters (P : RadixParams Digest A) (key : RadixKey) : (P.query key).letters =
      (P.view key).letters.take ((P.view key).len / P.pageSize * P.pageSize) :=
  letters_pageAligned _ _

theorem query_len (P : RadixParams Digest A) (key : RadixKey) :
    (P.query key).len = (P.view key).len / P.pageSize * P.pageSize :=
  len_pageAligned _ _

/-- Whole pages of the key are pages of the aligned key. -/
theorem prefix_query {w : List Letter} (hdvd : P.pageSize ∣ w.length)
    (h : w <+: (P.view key).letters) : w <+: (P.query key).letters := by
  rw [query_letters]
  refine prefix_take_iff.mpr ⟨h, ?_⟩
  have hle := h.length_le
  rw [length_letters] at hle
  obtain ⟨j, hj⟩ := hdvd
  rw [hj, Nat.mul_comm] at hle ⊢
  exact Nat.mul_le_mul_right _ ((Nat.le_div_iff_mul_le P.pageSize_pos).mpr hle)

section

variable (h : Reached P X X.cache.rootNode (P.query key) Y m k)
include h

theorem Reached.path_keys (S : Shape P X) : (Y.path m).map fst = (P.query key).letters.take k := by
  rw [h.path_eq, S.tree.path_root]
  rfl

theorem Reached.length_path (S : Shape P X) : (Y.path m).length = k := by
  have hlen := congrArg List.length (h.path_keys S)
  rw [length_map, length_take, length_letters] at hlen
  rw [hlen, min_eq_left h.le_len]

/-- The node a walk ends at holds the longest stored prefix. -/
theorem Reached.longestMatch (S : Shape P X) : LongestMatch P X.cache key ((Y.path m).map snd) := by
  have SY := h.refined.shape S
  have hlen := h.length_path S
  have hkq : k ≤ (P.view key).len / P.pageSize * P.pageSize := query_len P key ▸ h.le_len
  have hzip : ((P.view key).letters.take ((Y.path m).map snd).length).zip
      ((Y.path m).map snd) = Y.path m := by
    have htake : (P.view key).letters.take k = (Y.path m).map fst := by
      rw [h.path_keys S, query_letters, take_take, min_eq_left hkq]
    rw [length_map, hlen, htake]
    exact zip_map_fst_snd _
  refine ⟨?_, ?_, ?_⟩
  · rw [length_map, hlen]
    exact hkq.trans (Nat.div_mul_le_self _ _)
  · rw [hzip, ← h.refined.content_eq S]
    exact SY.mem_content.mpr ⟨SY.tree.page_dvd_path h.mem, m, h.mem, prefix_rfl⟩
  · intro e he hkey
    rw [← h.refined.content_eq S] at he
    obtain ⟨hdvd, n, hn, hen⟩ := SY.mem_content.mp he
    have hq : e.map fst <+: (P.query key).letters := prefix_query (by rwa [length_map]) hkey
    rw [length_map]
    refine SY.tree.le_of_stuck (w := (P.query key).letters) h.mem ?_ ?_ hn hdvd hen.length_le ?_
    · rw [h.path_keys S]
      exact take_prefix _ _
    · intro c hc hcr hp
      rw [hlen]
      exact h.stuck c (Tree.mem_inner.mpr ⟨hc, hcr⟩) hp
    · rw [← map_take, ← prefix_iff_eq_take.mp hen]
      have := prefix_iff_eq_take.mp hq
      rwa [length_map] at this

end

/-! ## Insertion -/

theorem Inserted.content_eq {value : List ℤ} {Z : Tree Digest A} {last : NodeId}
    (h : Inserted P X (P.query key) value Y m k Z last) (S : Shape P X) :
    Z.cache.Content P = X.cache.Content P ∪ { e | P.pageSize ∣ e.length ∧
        e <+: (P.query key).letters.zip ((Y.path m).map snd ++ value.drop k) } := by
  have SY := h.reached.refined.shape S
  have hkeys := h.reached.path_keys S
  have hlen := h.reached.length_path S
  have hpath : Y.path m = ((P.query key).letters.take k).zip ((Y.path m).map snd) := by
    rw [← hkeys]
    exact (zip_map_fst_snd _).symm
  rcases h.done with ⟨hk, hZ, _⟩ | ⟨_, _, rest, hgraft, hrest, rfl⟩
  · -- the whole key was stored
    rw [hZ, h.reached.refined.content_eq S, eq_comm, Set.union_eq_left]
    rintro e ⟨hdvd, he⟩
    rw [← h.reached.refined.content_eq S]
    refine SY.mem_content.mpr ⟨hdvd, m, h.reached.mem, ?_⟩
    have htake : (P.query key).letters = (P.query key).letters.take k := by
      rw [hk, take_of_length_le (by rw [length_letters])]
    have hzip : (P.query key).letters.zip ((Y.path m).map snd ++ value.drop k) =
        Y.path m := by
      rw [← append_nil (P.query key).letters, zip_append, zip_nil_left, append_nil, htake, ← hpath]
      rw [length_letters, length_map, hlen, hk]
    rwa [hzip] at he
  · rw [hgraft.content_eq SY, h.reached.refined.content_eq S, hrest]
    congr 1
    ext e
    refine and_congr_right fun _ => ?_
    have hzip : Y.path m ++ ((P.query key).letters.drop k).zip (value.drop k) =
        (P.query key).letters.zip ((Y.path m).map snd ++ value.drop k) := by
      conv_lhs => rw [hpath]
      conv_rhs => rw [← take_append_drop k (P.query key).letters]
      rw [zip_append]
      rw [length_map, hlen, length_take, length_letters, min_eq_left h.reached.le_len]
    rw [hzip]

theorem prefix_map_fst_zip {α β : Type*} (l : List α) (m : List β) :
    (l.zip m).map fst <+: l := by
  induction l generalizing m with
  | nil => exact prefix_rfl
  | cons a l ih =>
    cases m with
    | nil => exact nil_prefix
    | cons b m => exact (prefix_cons_inj a).mpr (ih m)

/-- The word an insertion completes has keys of the inserted key. -/
theorem prefix_view_of_prefix_zip {indices : List ℤ} (h : e <+: (P.query key).letters.zip indices) :
    e.map fst <+: (P.view key).letters := by
  refine (h.map fst).trans ((prefix_map_fst_zip _ _).trans ?_)
  rw [query_letters]
  exact take_prefix _ _

/-- In every state a run reaches, the cache is a longest-prefix map. -/
theorem prefixMap_of_run {T : RadixCache Digest A} (h : CacheRun P T held) : PrefixMap P T := by
  obtain ⟨X, rfl, I⟩ := h.inv
  refine ⟨fun e he f hf => I.shape.content_functional he hf, ?_, ?_⟩
  · intro key
    obtain ⟨Y, m, k, hmatch, hreach⟩ := matchPrefix_spec I.shape key
    exact ⟨_, m, Y.cache, hmatch, hreach.longestMatch I.shape, hreach.refined.content_eq I.shape⟩
  · intro key value hsup
    obtain ⟨Y, m, k, Z, last, hins, hspec⟩ := insert_spec I.shape hsup
    have hlen : ((Y.path m).map snd).length = k := by
      rw [length_map]
      exact hspec.reached.length_path I.shape
    have hcontent := hspec.content_eq I.shape
    refine ⟨(Y.path m).map snd, last, Z.cache, by rw [hlen]; exact hins,
      hspec.reached.longestMatch I.shape, by rw [hlen]; exact hcontent, fun e he => ?_⟩
    rw [hcontent, Set.mem_union, or_iff_left]
    rintro ⟨_, hpre⟩
    exact he (prefix_view_of_prefix_zip hpre)

theorem prefixMap_twiceLocked : CacheRun plainParams twiceLocked {1, 1} ∧
    PrefixMap plainParams twiceLocked :=
  ⟨run_twiceLocked, prefixMap_of_run run_twiceLocked⟩

end Sglang.Radix
