import Mathlib.Order.Bounds.Basic
import Sglang.Support.Lcp

/-!
# Radix keys

`RadixKey` of `radix_cache.py`: a view over raw token ids, read either token by
token or as overlapping bigrams, optionally capped by `limit` and namespaced by
`extra_key`. The results at the end say what the index arithmetic on raw
tokens means for the sequence of logical units.
-/

namespace Sglang.Radix

open Sglang.Support List

/-- One logical unit of a key. -/
inductive Gram where
  | token (t : ℤ)
  | bigram (t u : ℤ)
  deriving DecidableEq, Repr

/-- The ways the modelled code can raise. -/
inductive RadixError where
  | incompatibleExtraKey
  | missingChildKey
  | noParent
  | indexError
  | lengthMismatch
  | diverges
  deriving DecidableEq, Repr

structure RadixKey where
  tokenIds : List ℤ
  extraKey : Option String := none
  isBigram : Bool := false
  limit : Option ℕ := none
  deriving DecidableEq, Repr

/-- The dict key of a child: the first page of units, namespaced. -/
structure ChildKey where
  extraKey : Option String
  plain : List Gram
  deriving DecidableEq, Repr

namespace RadixKey

variable (k : RadixKey) {start stop n : ℕ}

def rawLen : ℕ :=
  match k.limit with
  | some limit => if limit < k.tokenIds.length then limit else k.tokenIds.length
  | none => k.tokenIds.length

/-- `__len__` -/
def len : ℕ := if k.isBigram then (if k.rawLen > 0 then k.rawLen - 1 else 0) else k.rawLen

/-- `(t[i], t[i + 1])` for every position with a successor. -/
def bigrams (t : List ℤ) : List Gram := List.zipWith Gram.bigram t t.tail

/-- `__iter__` -/
def units : List Gram :=
  if k.isBigram then (bigrams k.tokenIds).take k.len
  else (k.tokenIds.take k.rawLen).map Gram.token

/-- `__getitem__` at `slice(start, stop)`, both clamped to the length. -/
def slice (start stop : ℕ) : RadixKey :=
  let start := min start k.len
  let stop := min stop k.len
  if k.isBigram then
    { tokenIds := if stop > start then (k.tokenIds.drop start).take (stop + 1 - start) else []
      extraKey := k.extraKey
      isBigram := true }
  else
    { tokenIds := (k.tokenIds.drop start).take (stop - start), extraKey := k.extraKey }

/-- `key[:n]` -/
def upto (n : ℕ) : RadixKey := k.slice 0 n

/-- `key[n:]` -/
def since (n : ℕ) : RadixKey := k.slice n k.len

def pageAligned (pageSize : ℕ) : RadixKey :=
  if pageSize = 1 then k else k.upto (k.len / pageSize * pageSize)

def maybeToBigramView (isEagle : Bool) (value : Option (List ℤ)) :
    RadixKey × Option (List ℤ) :=
  if isEagle && !k.isBigram then
    let view := { k with isBigram := true }
    (view, value.map fun v => v.take view.len)
  else (k, value)

/-- `match`, after `_check_compatible`. -/
def matchLen (other : RadixKey) (pageSize : ℕ) : Except RadixError ℕ :=
  if k.extraKey ≠ other.extraKey then .error .incompatibleExtraKey
  else
    let n := min k.tokenIds.length other.tokenIds.length
    let matchedTokens := gallop k.tokenIds other.tokenIds n (n + 1) 0 1
    if k.isBigram then
      let matched := min (matchedTokens - 1) (min k.len other.len)
      .ok (if pageSize > 1 then matched / pageSize * pageSize else matched)
    else
      let matchedTokens := min matchedTokens (min k.len other.len)
      .ok (if pageSize = 1 then matchedTokens else matchedTokens / pageSize * pageSize)

def childKey (pageSize : ℕ) : ChildKey where
  extraKey := k.extraKey
  plain :=
    if k.isBigram then (bigrams k.tokenIds).take pageSize
    else (k.tokenIds.take pageSize).map Gram.token

/-! ## Units -/

/-- A unit tagged with its namespace, so that equal letters mean the same
cached position. -/
abbrev Letter := Option String × Gram

def letters : List Letter := k.units.map fun g => (k.extraKey, g)

theorem rawLen_le : k.rawLen ≤ k.tokenIds.length := by
  unfold rawLen
  split
  · split
    · omega
    · exact le_rfl
  · exact le_rfl

theorem length_bigrams (t : List ℤ) : (bigrams t).length = t.length - 1 := by
  simp [bigrams]

@[simp] theorem length_units : k.units.length = k.len := by
  have hraw := k.rawLen_le
  unfold units
  split
  · rename_i hb
    rw [length_take, length_bigrams, len, if_pos hb]
    split <;> omega
  · rename_i hb
    rw [len, if_neg hb]
    rw [length_map, length_take, min_eq_left hraw]

@[simp] theorem length_letters : k.letters.length = k.len := by
  simp [letters]

theorem bigrams_drop (t : List ℤ) (n : ℕ) : bigrams (t.drop n) = (bigrams t).drop n := by
  simp [bigrams, drop_zipWith, tail_drop, drop_tail]

theorem bigrams_take (t : List ℤ) (n : ℕ) : bigrams (t.take (n + 1)) = (bigrams t).take n := by
  cases t with
  | nil => simp [bigrams]
  | cons a t =>
    rw [bigrams, bigrams, take_zipWith, take_succ_cons, tail_cons]
    apply ext_getElem?
    intro i
    simp only [List.getElem?_zipWith, List.getElem?_take]
    by_cases hi : i < n
    · cases i with
      | zero => simp [hi]
      | succ i => simp [hi, show i < n by omega]
    · simp [hi]

theorem units_of_bigram (hb : k.isBigram = true) : k.units = (bigrams k.tokenIds).take k.len := by
  rw [units, if_pos hb]

theorem units_of_token (hb : k.isBigram = false) :
    k.units = (k.tokenIds.take k.rawLen).map Gram.token := by
  rw [units, if_neg (by simp [hb])]

theorem len_of_bigram (hb : k.isBigram = true) : k.len = k.rawLen - 1 := by
  rw [len, if_pos hb]
  split <;> omega

theorem len_of_token (hb : k.isBigram = false) : k.len = k.rawLen := by
  simp [len, hb]

@[simp] theorem extraKey_slice (start stop : ℕ) : (k.slice start stop).extraKey = k.extraKey := by
  unfold slice
  split <;> rfl

@[simp] theorem isBigram_slice (start stop : ℕ) : (k.slice start stop).isBigram = k.isBigram := by
  unfold slice
  split
  · rename_i hb
    exact hb.symm
  · rename_i hb
    exact (Bool.eq_false_iff.mpr hb).symm

theorem units_of_bigram_all {t : List ℤ} {e : Option String} :
    (RadixKey.units ⟨t, e, true, none⟩) = bigrams t := by
  rw [units, if_pos rfl, take_of_length_le]
  rw [length_bigrams, len_of_bigram _ rfl]
  exact le_rfl

/-- Slicing the raw tokens slices the units. -/
theorem units_slice (h : start ≤ stop) (hstop : stop ≤ k.len) :
    (k.slice start stop).units = (k.units.drop start).take (stop - start) := by
  rw [slice, min_eq_left (h.trans hstop), min_eq_left hstop]
  cases hb : k.isBigram with
  | true =>
    simp only [if_true]
    rw [units_of_bigram_all, units, if_pos hb, drop_take, take_take, min_eq_left (by omega)]
    by_cases hlt : stop > start
    · rw [if_pos hlt, show stop + 1 - start = stop - start + 1 by omega, bigrams_take, bigrams_drop]
    · rw [if_neg hlt, show stop - start = 0 by omega]
      rfl
  | false =>
    have hlen := k.len_of_token hb
    simp only [Bool.false_eq_true, if_false]
    rw [units, if_neg (by simp), units, if_neg (by simp [hb])]
    have hwhole : ∀ (t : List ℤ) (e : Option String),
        RadixKey.rawLen ⟨t, e, false, none⟩ = t.length := fun _ _ => rfl
    rw [hwhole, take_length, ← map_drop, ← map_take, drop_take, take_take, min_eq_left (by omega)]

@[simp] theorem len_slice (h : start ≤ stop) (hstop : stop ≤ k.len) :
    (k.slice start stop).len = stop - start := by
  rw [← length_units, units_slice k h hstop, length_take, length_drop, length_units]
  omega

theorem letters_slice (h : start ≤ stop) (hstop : stop ≤ k.len) :
    (k.slice start stop).letters = (k.letters.drop start).take (stop - start) := by
  rw [letters, units_slice k h hstop, extraKey_slice, letters, map_take, map_drop]

theorem letters_upto (h : n ≤ k.len) : (k.upto n).letters = k.letters.take n := by
  rw [upto, letters_slice k (Nat.zero_le n) h]
  simp

theorem letters_since (h : n ≤ k.len) : (k.since n).letters = k.letters.drop n := by
  rw [since, letters_slice k h le_rfl]
  simp

theorem len_upto (h : n ≤ k.len) : (k.upto n).len = n := by
  rw [upto, len_slice k (Nat.zero_le n) h, Nat.sub_zero]

theorem len_since (h : n ≤ k.len) : (k.since n).len = k.len - n := k.len_slice h le_rfl

theorem letters_pageAligned (pageSize : ℕ) :
    (k.pageAligned pageSize).letters = k.letters.take (k.len / pageSize * pageSize) := by
  unfold pageAligned
  split
  · rename_i hone
    rw [hone]
    simp
  · exact k.letters_upto (Nat.div_mul_le_self _ _)

theorem len_pageAligned (pageSize : ℕ) :
    (k.pageAligned pageSize).len = k.len / pageSize * pageSize := by
  rw [← length_letters, letters_pageAligned k pageSize, length_take, length_letters]
  exact min_eq_left (Nat.div_mul_le_self _ _)

/-! ## Child keys -/

variable {k} {o : RadixKey} {pageSize : ℕ}

theorem childKey_plain (h : pageSize ≤ k.len) :
    (k.childKey pageSize).plain = k.units.take pageSize := by
  unfold childKey units
  cases hb : k.isBigram with
  | true => simp [take_take, min_eq_left h]
  | false =>
    have hlen := k.len_of_token hb
    simp [take_take, ← map_take, min_eq_left (hlen ▸ h)]

theorem isBigram_of_mem_childKey {g : Gram} (hg : g ∈ (k.childKey pageSize).plain) :
    k.isBigram = true ↔ ∃ t u, g = .bigram t u := by
  unfold childKey at hg
  cases hb : k.isBigram with
  | true =>
    rw [if_pos hb] at hg
    have hmem := mem_of_mem_take hg
    rw [bigrams, ← map_uncurry_zip_eq_zipWith] at hmem
    obtain ⟨⟨t, u⟩, _, rfl⟩ := mem_map.mp hmem
    exact iff_of_true rfl ⟨t, u, rfl⟩
  | false =>
    rw [if_neg (by simp [hb])] at hg
    obtain ⟨t, _, rfl⟩ := mem_map.mp hg
    simp

/-- Keys of one child slot are both bigram views or both plain. -/
theorem isBigram_eq_of_childKey (hpage : 0 < pageSize) (hk : pageSize ≤ k.len)
    (h : k.childKey pageSize = o.childKey pageSize) : k.isBigram = o.isBigram := by
  have hpos : 0 < (k.childKey pageSize).plain.length := by
    rw [childKey_plain hk, length_take, length_units]
    exact lt_min hpage (hpage.trans_le hk)
  obtain ⟨g, hg⟩ := exists_mem_of_length_pos hpos
  rw [Bool.eq_iff_iff, isBigram_of_mem_childKey hg, isBigram_of_mem_childKey (h ▸ hg)]

theorem childKey_eq_iff (hpage : 0 < pageSize) (hk : pageSize ≤ k.len) (ho : pageSize ≤ o.len) :
    k.childKey pageSize = o.childKey pageSize ↔
      k.letters.take pageSize = o.letters.take pageSize := by
  have hext : k.childKey pageSize = o.childKey pageSize ↔
      k.extraKey = o.extraKey ∧ k.units.take pageSize = o.units.take pageSize := by
    rw [← childKey_plain hk, ← childKey_plain ho, ChildKey.mk.injEq]
    rfl
  rw [hext, letters, letters, ← map_take, ← map_take]
  constructor
  · rintro ⟨he, hu⟩
    rw [he, hu]
  · intro h
    have hfst := congrArg (List.map Prod.fst) h
    have hsnd := congrArg (List.map Prod.snd) h
    simp only [map_map, Function.comp_def, map_const', map_id'] at hfst hsnd
    refine ⟨(replicate_inj.mp hfst).2.resolve_left ?_, hsnd⟩
    rw [length_take, length_units]
    omega

/-! ## Matching -/

theorem lcp_bigrams (t u : List ℤ) : lcp (bigrams t) (bigrams u) = lcp t u - 1 := by
  induction t generalizing u with
  | nil => simp [bigrams, lcp]
  | cons a t ih =>
    cases u with
    | nil => simp [bigrams, lcp]
    | cons b u =>
      cases t with
      | nil =>
        simp only [bigrams, tail_cons, zipWith_nil_right, lcp]
        split <;> rfl
      | cons a' t =>
        cases u with
        | nil =>
          simp only [bigrams, tail_cons, zipWith_nil_right, lcp]
          split <;> rfl
        | cons b' u =>
          have hrest := ih (b' :: u)
          simp only [bigrams, tail_cons, zipWith_cons_cons] at hrest ⊢
          by_cases ha : a = b
          · by_cases ha' : a' = b'
            · subst ha ha'
              rw [lcp_cons_self] at hrest
              rw [lcp_cons_self, hrest, lcp_cons_self, lcp_cons_self]
              rfl
            · simp [lcp, ha, ha']
          · simp [lcp, ha]

theorem lcp_letters (h : k.extraKey = o.extraKey) :
    lcp k.letters o.letters = lcp k.units o.units := by
  rw [letters, h]
  exact lcp_map (fun _ _ heq => (Prod.mk.inj heq).2) _ _

/-- The search over raw tokens measures the common prefix in units, rounded
down to whole pages. -/
theorem matchLen_eq (hpage : 0 < pageSize) (hextra : k.extraKey = o.extraKey)
    (hb : k.isBigram = o.isBigram) :
    k.matchLen o pageSize = .ok (lcp k.letters o.letters / pageSize * pageSize) := by
  have hgallop : gallop k.tokenIds o.tokenIds (min k.tokenIds.length o.tokenIds.length)
      (min k.tokenIds.length o.tokenIds.length + 1) 0 1 = lcp k.tokenIds o.tokenIds :=
    gallop_eq_lcp (by omega) Nat.one_pos (Nat.zero_le _) rfl
  rw [matchLen, if_neg (not_not.mpr hextra), lcp_letters hextra]
  simp only [hgallop]
  cases hk : k.isBigram with
  | true =>
    have ho : o.isBigram = true := hb ▸ hk
    rw [if_pos rfl, k.units_of_bigram hk, o.units_of_bigram ho, lcp_take, lcp_bigrams]
    split
    · rfl
    · rw [show pageSize = 1 by omega, Nat.div_one, Nat.mul_one]
  | false =>
    have ho : o.isBigram = false := hb ▸ hk
    rw [if_neg (by simp), k.units_of_token hk, o.units_of_token ho,
      lcp_map fun a b h => Gram.token.inj h, lcp_take, k.len_of_token hk,
      o.len_of_token ho]
    split
    · rename_i hone
      rw [hone, Nat.div_one, Nat.mul_one]
    · rfl

/-! ## Laws -/

variable (k) in
/-- The units by their plain definition: the capped tokens, or the adjacent pairs of them. -/
def plainUnits : List Gram :=
  let t := k.tokenIds.take k.rawLen
  if k.isBigram then bigrams t else t.map Gram.token

variable (k) in
/-- A key behaves as the sequence of its units. -/
structure SequenceLaws (pageSize : ℕ) : Prop where
  iter : k.units = k.plainUnits
  len_eq : k.units.length = k.len
  len_slice : ∀ i j, i ≤ j → j ≤ k.len → (k.slice i j).len = j - i
  upto_since : ∀ i, (k.upto i).units ++ (k.since i).units = k.units
  getElem_since : ∀ i n, (k.since i).units[n]? = k.units[i + n]?
  aligned : (k.pageAligned pageSize).units = k.units.take (k.len / pageSize * pageSize)

theorem units_eq_plainUnits (k : RadixKey) : k.units = k.plainUnits := by
  unfold plainUnits
  cases hb : k.isBigram with
  | true =>
    rw [k.units_of_bigram hb, k.len_of_bigram hb]
    cases k.rawLen with
    | zero => rfl
    | succ n => exact (bigrams_take _ n).symm
  | false => exact k.units_of_token hb

theorem units_upto (k : RadixKey) (i : ℕ) : (k.upto i).units = k.units.take i := by
  have hclamp : k.upto i = k.slice 0 (min i k.len) := by simp [upto, slice]
  rw [hclamp, k.units_slice (Nat.zero_le _) (min_le_right _ _), drop_zero, Nat.sub_zero,
    ← k.length_units, ← take_eq_take_min]

theorem units_since (k : RadixKey) (i : ℕ) : (k.since i).units = k.units.drop i := by
  have hclamp : k.since i = k.slice (min i k.len) k.len := by simp [since, slice]
  rw [hclamp, k.units_slice (min_le_right _ _) le_rfl, take_of_length_le (by simp),
    ← k.length_units, ← drop_eq_drop_min]

theorem sequenceLaws (k : RadixKey) (pageSize : ℕ) : k.SequenceLaws pageSize where
  iter := k.units_eq_plainUnits
  len_eq := k.length_units
  len_slice _ _ h hstop := k.len_slice h hstop
  upto_since i := by rw [units_upto, units_since, take_append_drop]
  getElem_since i n := by rw [units_since, List.getElem?_drop]
  aligned := by
    unfold pageAligned
    split
    · rename_i hone
      rw [hone, Nat.div_one, Nat.mul_one, ← k.length_units, take_length]
    · exact k.units_upto _

/-- The search finds the largest number of whole pages on which two keys of one mode agree. -/
theorem matchLen_plain (hpage : 0 < pageSize) (hextra : k.extraKey = o.extraKey)
    (hb : k.isBigram = o.isBigram) :
    (∃ r, k.matchLen o pageSize = .ok r ∧
      IsGreatest {m | pageSize ∣ m ∧ m ≤ k.len ∧ m ≤ o.len ∧
        k.plainUnits.take m = o.plainUnits.take m} r) ∧ k.SequenceLaws pageSize := by
  refine ⟨⟨_, matchLen_eq hpage hextra hb, ?_⟩, k.sequenceLaws pageSize⟩
  have hset : ∀ m, m ≤ lcp k.units o.units ↔
      m ≤ k.len ∧ m ≤ o.len ∧ k.plainUnits.take m = o.plainUnits.take m := by
    intro m
    rw [le_lcp_iff, length_units, length_units, units_eq_plainUnits, units_eq_plainUnits]
  simp only [← hset]
  rw [lcp_letters hextra]
  refine ⟨⟨Nat.dvd_mul_left _ _, Nat.div_mul_le_self _ _⟩, ?_⟩
  rintro _ ⟨⟨q, rfl⟩, hle⟩
  rw [Nat.mul_comm] at hle ⊢
  exact Nat.mul_le_mul_right _ ((Nat.le_div_iff_mul_le hpage).mpr hle)

/-- Two bigram views, one of them capped, that part inside the second page. -/
theorem matchLen_plain_capped :
    let k : RadixKey := ⟨[1, 2, 3, 4, 5, 6], none, true, some 5⟩
    let o : RadixKey := ⟨[1, 2, 3, 4, 7], none, true, none⟩
    k.matchLen o 2 = .ok 2 ∧ (∃ r, k.matchLen o 2 = .ok r ∧
      IsGreatest {m | 2 ∣ m ∧ m ≤ k.len ∧ m ≤ o.len ∧
        k.plainUnits.take m = o.plainUnits.take m} r) ∧ k.SequenceLaws 2 :=
  ⟨by decide, matchLen_plain (by decide) rfl rfl⟩

end RadixKey

end Sglang.Radix
