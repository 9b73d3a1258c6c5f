import Mathlib.Data.Vector.Defs
import Sglang.Radix.PathHashes

/-!
# Block hashes of the router and of the worker

`hash.rs` of the router hashes a request from its token ids; the worker hashes the nodes
of its radix tree through `get_hash_str` and publishes `hash_str_to_int64` of them.
SHA-256 is an arbitrary function of bytes. The router chains raw digests and reads them as
big-endian bytes, the worker chains hex strings and reads their first
sixteen digits.
-/

namespace Sglang.Router

open Sglang.Support Sglang.Radix
open List hiding Vector

abbrev Sha256 := List UInt8 → Vector UInt8 32

variable (sha : Sha256)

/-! ## The router -/

/-- `u32::to_le_bytes` -/
def toLeBytes (t : UInt32) : List UInt8 :=
  [t.toUInt8, (t >>> 8).toUInt8, (t >>> 16).toUInt8, (t >>> 24).toUInt8]

/-- The value of bytes in big-endian order. -/
def beValue (bytes : List UInt8) : ℕ := bytes.foldl (fun acc b => acc * 256 + b.toNat) 0

/-- `i64::from_be_bytes` on the first eight bytes. -/
def sha256ToI64 (digest : Vector UInt8 32) : ℤ :=
  (BitVec.ofNat 64 (beValue (digest.toList.take 8))).toInt

def chainBlock (parentDigest : Option (Vector UInt8 32)) (blockTokens : List UInt32) :
    Vector UInt8 32 :=
  sha (parentDigest.elim [] Vector.toList ++ blockTokens.flatMap toLeBytes)

/-- The bytes fed for the units `start .. stop`; an index out of bounds panics. -/
def bigramBytes (tokens : List UInt32) (start stop : ℕ) : Option (List UInt8) :=
  List.flatten <$> (List.range' start (stop - start)).mapM fun j => do
    let t ← tokens[j]?
    let u ← tokens[j + 1]?
    pure (toLeBytes t ++ toLeBytes u)

def chainBlockBigram (parentDigest : Option (Vector UInt8 32)) (tokens : List UInt32)
    (start stop : ℕ) : Option (Vector UInt8 32) :=
  (fun bytes => sha (parentDigest.elim [] Vector.toList ++ bytes)) <$> bigramBytes tokens start stop

/-- The loop both functions run over `n` units. -/
def blockLoop (hash : Option (Vector UInt8 32) → ℕ → ℕ → Option (Vector UInt8 32))
    (blockSize n : ℕ) : ℕ → ℕ → Option (Vector UInt8 32) → Option (List ℤ)
  | 0, _, _ => none
  | fuel + 1, start, prior =>
    if start < n then do
      let stop := min (start + blockSize) n
      let digest ← hash prior start stop
      let out ← blockLoop hash blockSize n fuel stop (some digest)
      pure (sha256ToI64 digest :: out)
    else pure []

variable (tokenIds : List UInt32)

/-- `none` is a panic. -/
def computeBlockHashes (blockSize : ℕ) : Option (List ℤ) :=
  if blockSize = 0 then none
  else if tokenIds.isEmpty then some []
  else
    blockLoop
      (fun prior start stop => some (chainBlock sha prior ((tokenIds.take stop).drop start)))
      blockSize tokenIds.length (tokenIds.length + 1) 0 none

def computeBlockHashesBigram (blockSize : ℕ) : Option (List ℤ) :=
  if blockSize = 0 then none
  else
    let logicalLen := tokenIds.length - 1
    if logicalLen = 0 then some []
    else
      blockLoop (fun prior start stop => chainBlockBigram sha prior tokenIds start stop)
        blockSize logicalLen (logicalLen + 1) 0 none

/-- The function the router calls for a worker with or without bigram keys. -/
def routerHashes (isBigram : Bool) (tokenIds : List UInt32) (blockSize : ℕ) :
    Option (List ℤ) :=
  if isBigram then computeBlockHashesBigram sha tokenIds blockSize
  else computeBlockHashes sha tokenIds blockSize

/-! ## The worker -/

/-- Four little-endian bytes of a token in an array of unsigned ints. -/
def intLeBytes (t : ℤ) : List UInt8 :=
  [UInt8.ofNat (t.toNat % 256), UInt8.ofNat (t.toNat / 256 % 256),
    UInt8.ofNat (t.toNat / 256 / 256 % 256), UInt8.ofNat (t.toNat / 256 / 256 / 256 % 256)]

def gramBytes : Gram → List UInt8
  | .token t => intLeBytes t
  | .bigram t u => intLeBytes t ++ intLeBytes u

/-- The ids of the unit fit the array. -/
def FitsUInt32 : Gram → Prop
  | .token t => 0 ≤ t ∧ t < 2 ^ 32
  | .bigram t u => (0 ≤ t ∧ t < 2 ^ 32) ∧ 0 ≤ u ∧ u < 2 ^ 32

def hexByte (b : UInt8) : List Char := [Nat.digitChar (b.toNat / 16), Nat.digitChar (b.toNat % 16)]

/-- `hexdigest` -/
def hexdigest (digest : Vector UInt8 32) : String := String.ofList (digest.toList.flatMap hexByte)

/-- The value of a lower-case hex digit. -/
def hexValue (c : Char) : Option ℕ :=
  if '0' ≤ c ∧ c ≤ '9' then some (c.toNat - '0'.toNat)
  else if 'a' ≤ c ∧ c ≤ 'f' then some (c.toNat - 'a'.toNat + 10)
  else none

/-- `int(digits, 16)` -/
def intBase16 (digits : List Char) : Option ℕ :=
  digits.foldlM (fun acc c => (fun v => acc * 16 + v) <$> hexValue c) 0

/-- `bytes.fromhex` -/
def bytesFromHex : List Char → Option (List UInt8)
  | [] => some []
  | [_] => none
  | high :: low :: rest => do
      let h ← hexValue high
      let l ← hexValue low
      let bytes ← bytesFromHex rest
      pure (UInt8.ofNat (h * 16 + l) :: bytes)

/-- `get_hash_str` on one page: an empty prior hash counts as none. -/
def getHashStr (priorHash : Option String) (page : List Gram) : Option String :=
  match priorHash with
  | none => some (hexdigest (sha (page.flatMap gramBytes)))
  | some prior =>
    if prior = "" then some (hexdigest (sha (page.flatMap gramBytes)))
    else
      (fun priorDigest => hexdigest (sha (priorDigest ++ page.flatMap gramBytes))) <$>
        bytesFromHex prior.toList

/-- The worker hashes pages of 32-bit ids through `get_hash_str` and reads the first
sixteen digits of a hash. -/
structure HashesBy {A : Type} (P : RadixParams String A) : Prop where
  nativeHash : ∀ prior page d, (∀ g ∈ page, FitsUInt32 g) →
    getHashStr sha prior page = some d → P.nativeHash prior page = d
  leadingBits : ∀ d v, intBase16 (d.toList.take 16) = some v → P.leadingBits d = v

/-- The key of a token sequence in the worker's cache. -/
def workerKey (isBigram : Bool) (tokenIds : List UInt32) : RadixKey where
  tokenIds := tokenIds.map fun t => (t.toNat : ℤ)
  isBigram := isBigram

/-! ## Hex strings and bytes -/

theorem hexValue_digitChar {v : ℕ} (hv : v < 16) : hexValue (Nat.digitChar v) = some v := by
  have hdigits : ∀ d : Fin 16, hexValue (Nat.digitChar d) = some d.val := by decide
  exact hdigits ⟨v, hv⟩

theorem hexValue_hexByte (b : UInt8) :
    hexValue (Nat.digitChar (b.toNat / 16)) = some (b.toNat / 16) ∧
      hexValue (Nat.digitChar (b.toNat % 16)) = some (b.toNat % 16) := by
  have hb : b.toNat < 256 := b.toNat_lt
  exact ⟨hexValue_digitChar (by omega), hexValue_digitChar (by omega)⟩

theorem bytesFromHex_hexByte (bytes : List UInt8) :
    bytesFromHex (bytes.flatMap hexByte) = some bytes := by
  induction bytes with
  | nil => rfl
  | cons b rest ih =>
    have hvalue : b.toNat / 16 * 16 + b.toNat % 16 = b.toNat := Nat.div_add_mod' _ _
    simp only [flatMap_cons, hexByte, cons_append, nil_append, bytesFromHex, hexValue_hexByte b, ih,
      bind, Option.bind_some, hvalue, UInt8.ofNat_toNat]
    rfl

theorem intBase16_hexByte (bytes : List UInt8) :
    intBase16 (bytes.flatMap hexByte) = some (beValue bytes) := by
  have hfold : ∀ acc : ℕ, (bytes.flatMap hexByte).foldlM
      (fun acc c => (fun v => acc * 16 + v) <$> hexValue c) acc =
        some (bytes.foldl (fun acc b => acc * 256 + b.toNat) acc) := by
    induction bytes with
    | nil => exact fun _ => rfl
    | cons b rest ih =>
      intro acc
      have hvalue : (acc * 16 + b.toNat / 16) * 16 + b.toNat % 16 = acc * 256 + b.toNat := by omega
      simp only [flatMap_cons, hexByte, cons_append, nil_append, foldlM_cons, foldl_cons,
        hexValue_hexByte b]
      simpa [hvalue] using ih (acc * 256 + b.toNat)
  exact hfold 0

theorem take_flatMap_hexByte (bytes : List UInt8) (k : ℕ) :
    (bytes.flatMap hexByte).take (2 * k) = (bytes.take k).flatMap hexByte := by
  induction bytes generalizing k with
  | nil => simp
  | cons b rest ih =>
    cases k with
    | zero => rfl
    | succ k =>
      rw [take_succ_cons, flatMap_cons, flatMap_cons, ← ih k, Nat.mul_succ]
      rfl

theorem beValue_lt (bytes : List UInt8) : beValue bytes < 256 ^ bytes.length := by
  induction bytes using List.reverseRecOn with
  | nil => exact Nat.one_pos
  | append_singleton bytes b ih =>
    have hb : b.toNat < 256 := b.toNat_lt
    rw [beValue, foldl_append, length_append, length_singleton, pow_succ]
    simp only [foldl_cons, foldl_nil]
    rw [beValue] at ih
    omega

theorem hexdigest_ne_empty (digest : Vector UInt8 32) : hexdigest digest ≠ "" := by
  intro hempty
  have hlist := congrArg String.toList hempty
  rw [hexdigest, String.toList_ofList] at hlist
  obtain ⟨b, rest, hcons⟩ := exists_cons_of_length_pos
    (show 0 < digest.toList.length by rw [Vector.length_toList]; decide)
  rw [hcons] at hlist
  exact absurd hlist (by simp [hexByte])

variable {sha} {A : Type} {P : RadixParams String A} {start : ℕ}

/-- Both sides read a digest as the same number. -/
theorem HashesBy.hashStrToInt64_hexdigest (H : HashesBy sha P) (digest : Vector UInt8 32) :
    RadixCache.hashStrToInt64 P (hexdigest digest) = sha256ToI64 digest := by
  have hdigits : intBase16 ((hexdigest digest).toList.take 16) =
      some (beValue (digest.toList.take 8)) := by
    rw [hexdigest, String.toList_ofList, show 16 = 2 * 8 from rfl, take_flatMap_hexByte,
      intBase16_hexByte]
  have hlt : beValue (digest.toList.take 8) < 2 ^ 64 := by
    have hlen : (digest.toList.take 8).length = 8 := by simp
    have hbound := beValue_lt (digest.toList.take 8)
    rw [hlen] at hbound
    exact hbound
  rw [RadixCache.hashStrToInt64, H.leadingBits _ _ hdigits, sha256ToI64, BitVec.toInt_ofNat',
    Int.bmod_def]
  split <;> split <;> omega

/-! ## Units as bytes -/

/-- The digest of a page of units after the digest `prior`. -/
def pageDigest (sha : Sha256) (prior : Option (Vector UInt8 32)) (page : List Gram) :
    Vector UInt8 32 :=
  sha (prior.elim [] Vector.toList ++ page.flatMap gramBytes)

theorem intLeBytes_toNat (t : UInt32) : intLeBytes (t.toNat : ℤ) = toLeBytes t := by
  simp only [intLeBytes, toLeBytes, Int.toNat_natCast, List.cons.injEq, and_true]
  refine ⟨?_, ?_, ?_, ?_⟩ <;> apply UInt8.toNat_inj.mp <;>
    simp [Nat.shiftRight_eq_div_pow, Nat.div_div_eq_div_mul]

/-- The worker continues from the hex string of the digest before. -/
theorem HashesBy.nativeHash_eq (H : HashesBy sha P) (prior : Option (Vector UInt8 32))
    {page : List Gram} (hfits : ∀ g ∈ page, FitsUInt32 g) :
    P.nativeHash (prior.map hexdigest) page = hexdigest (pageDigest sha prior page) := by
  apply H.nativeHash _ _ _ hfits
  cases prior with
  | none => rfl
  | some d =>
    simp only [Option.map_some, getHashStr, if_neg (hexdigest_ne_empty d)]
    rw [hexdigest, String.toList_ofList, bytesFromHex_hexByte]
    rfl

theorem units_token :
    (workerKey false tokenIds).units = tokenIds.map fun t => Gram.token t.toNat := by
  simp only [RadixKey.units, workerKey, RadixKey.rawLen, Bool.false_eq_true, if_false,
    take_length, map_map]
  rfl

theorem units_bigram : (workerKey true tokenIds).units =
      List.zipWith (fun t u => Gram.bigram t.toNat u.toNat) tokenIds tokenIds.tail := by
  have hunits : (workerKey true tokenIds).units =
      RadixKey.bigrams (tokenIds.map fun t => (t.toNat : ℤ)) :=
    RadixKey.units_of_bigram_all
  rw [hunits, RadixKey.bigrams, ← map_tail, zipWith_map]

theorem fits_toNat (t : UInt32) : 0 ≤ (t.toNat : ℤ) ∧ (t.toNat : ℤ) < 2 ^ 32 :=
  ⟨Int.natCast_nonneg _, by exact_mod_cast t.toNat_lt⟩

theorem fits_of_mem_units {isBigram : Bool} {tokenIds : List UInt32} {g : Gram}
    (hg : g ∈ (workerKey isBigram tokenIds).units) : FitsUInt32 g := by
  cases isBigram with
  | false =>
    rw [units_token] at hg
    obtain ⟨t, _, rfl⟩ := mem_map.mp hg
    exact fits_toNat t
  | true =>
    rw [units_bigram, ← map_uncurry_zip_eq_zipWith] at hg
    obtain ⟨⟨t, u⟩, _, rfl⟩ := mem_map.mp hg
    exact ⟨fits_toNat t, fits_toNat u⟩

/-! ## The loop -/

/-- The loop hashes the pages of the units that remain. -/
theorem blockLoop_eq {hash : Option (Vector UInt8 32) → ℕ → ℕ → Option (Vector UInt8 32)}
    {units : List Gram} {blockSize : ℕ} (hsize : 0 < blockSize)
    (hhash : ∀ prior start stop, stop ≤ units.length →
      hash prior start stop = some (pageDigest sha prior ((units.take stop).drop start)))
    {fuel : ℕ} (prior : Option (Vector UInt8 32)) (hstart : start ≤ units.length)
    (hfuel : units.length < fuel + start) : blockLoop hash blockSize units.length fuel start prior =
      some ((chain (pageDigest sha) prior (pages blockSize (units.drop start))).map
        sha256ToI64) := by
  induction fuel generalizing start prior with
  | zero => omega
  | succ fuel ih =>
    rw [blockLoop]
    by_cases hgo : start < units.length
    · have hdrop : units.drop start ≠ [] := by
        intro hnil
        rw [drop_eq_nil_iff] at hnil
        omega
      have hpage : (units.take (min (start + blockSize) units.length)).drop start =
          (units.drop start).take blockSize := by
        rw [drop_take, take_eq_take_iff, length_drop]
        omega
      have hrest : units.drop (min (start + blockSize) units.length) =
          (units.drop start).drop blockSize := by
        rw [drop_drop]
        by_cases hle : start + blockSize ≤ units.length
        · rw [min_eq_left hle]
        · rw [min_eq_right (by omega), drop_length, drop_of_length_le (by omega)]
      simp only [if_pos hgo, hhash prior start _ (min_le_right _ _), bind, Option.bind_some]
      rw [ih _ (min_le_right _ _) (by omega), hrest, hpage, pages_cons hsize hdrop]
      rfl
    · rw [if_neg hgo, drop_of_length_le (not_lt.mp hgo), pages_nil _ hsize]
      rfl

/-- The pages of tokens as the router slices them. -/
theorem chainBlock_eq (prior : Option (Vector UInt8 32)) (tokenIds : List UInt32) (start stop : ℕ) :
    chainBlock sha prior ((tokenIds.take stop).drop start) =
      pageDigest sha prior (((workerKey false tokenIds).units.take stop).drop start) := by
  rw [units_token, ← map_take, ← map_drop, chainBlock, pageDigest, flatMap_map]
  simp [gramBytes, intLeBytes_toNat]

/-- Reading a window of a list index by index. -/
theorem mapM_range' {α β : Type} {l : List α} {f : ℕ → Option β} {g : α → β}
    (hf : ∀ j a, l[j]? = some a → f j = some (g a)) {k : ℕ} (hk : start + k ≤ l.length) :
    (List.range' start k).mapM f = some (((l.drop start).take k).map g) := by
  induction k generalizing start with
  | zero => rfl
  | succ k ih =>
    have hlt : start < l.length := by omega
    rw [List.range'_succ, mapM_cons, hf start _ (List.getElem?_eq_getElem hlt),
      ih (by omega), drop_eq_getElem_cons hlt]
    rfl

/-- Reading the units one index at a time never leaves the tokens. -/
theorem bigramBytes_eq {stop : ℕ}
    (hstop : stop ≤ (workerKey true tokenIds).units.length) : bigramBytes tokenIds start stop =
      some ((((workerKey true tokenIds).units.take stop).drop start).flatMap gramBytes) := by
  have hread : ∀ j g, (workerKey true tokenIds).units[j]? = some g →
      (do let t ← tokenIds[j]?
          let u ← tokenIds[j + 1]?
          pure (toLeBytes t ++ toLeBytes u) : Option (List UInt8)) = some (gramBytes g) := by
    intro j g hg
    rw [units_bigram, List.getElem?_zipWith_eq_some] at hg
    obtain ⟨t, u, ht, hu, rfl⟩ := hg
    rw [List.getElem?_tail] at hu
    simp [ht, hu, gramBytes, intLeBytes_toNat]
  rw [drop_take, flatMap_def, bigramBytes]
  by_cases hle : start ≤ stop
  · rw [mapM_range' hread (by omega)]
    rfl
  · rw [Nat.sub_eq_zero_of_le (by omega)]
    rfl

theorem chainBlockBigram_eq (prior : Option (Vector UInt8 32)) (tokenIds : List UInt32)
    {stop : ℕ} (hstop : stop ≤ (workerKey true tokenIds).units.length) :
    chainBlockBigram sha prior tokenIds start stop =
      some (pageDigest sha prior (((workerKey true tokenIds).units.take stop).drop start)) := by
  rw [chainBlockBigram, bigramBytes_eq tokenIds hstop]
  rfl

/-- The router hashes the pages of the units of the worker's key. -/
theorem routerHashes_eq (isBigram : Bool) (tokenIds : List UInt32) {blockSize : ℕ}
    (hsize : 0 < blockSize) : routerHashes sha isBigram tokenIds blockSize =
      some ((chain (pageDigest sha) none
        (pages blockSize (workerKey isBigram tokenIds).units)).map sha256ToI64) := by
  cases isBigram with
  | false =>
    have hlen : (workerKey false tokenIds).units.length = tokenIds.length := by
      rw [units_token, length_map]
    simp only [routerHashes, computeBlockHashes, if_neg hsize.ne', Bool.false_eq_true,
      if_false, List.isEmpty_iff]
    by_cases hnil : tokenIds = []
    · rw [if_pos hnil, units_token, hnil, List.map_nil, pages_nil _ hsize]
      rfl
    · rw [if_neg hnil, ← hlen]
      simp only [chainBlock_eq]
      exact blockLoop_eq hsize (fun _ _ _ _ => rfl) none (Nat.zero_le _) (by omega)
  | true =>
    have hlen : (workerKey true tokenIds).units.length = tokenIds.length - 1 := by
      rw [units_bigram, length_zipWith, length_tail]
      omega
    simp only [routerHashes, computeBlockHashesBigram, if_neg hsize.ne', if_true, ← hlen]
    by_cases hnil : (workerKey true tokenIds).units.length = 0
    · rw [if_pos hnil, length_eq_zero_iff.mp hnil, pages_nil _ hsize]
      rfl
    · rw [if_neg hnil]
      exact blockLoop_eq hsize (fun prior _ _ hstop => chainBlockBigram_eq prior _ hstop) none
        (Nat.zero_le _) (by omega)

/-! ## Agreement -/

/-- The digests of whole pages of a sequence are the first values of the router. -/
theorem HashesBy.digests_eq (H : HashesBy sha P) {isBigram : Bool} {tokenIds : List UInt32}
    {w : List (RadixKey.Letter × ℤ)}
    (hw : (w.map fun e => e.1.2) <+: (workerKey isBigram tokenIds).units)
    (hdvd : P.pageSize ∣ w.length) :
    ∃ values, routerHashes sha isBigram tokenIds P.pageSize = some values ∧
      (digests P w).map (RadixCache.hashStrToInt64 P) = values.take (w.length / P.pageSize) := by
  obtain ⟨rest, hrest⟩ := hw
  refine ⟨_, routerHashes_eq isBigram tokenIds P.pageSize_pos, ?_⟩
  have hfits : ∀ page ∈ pages P.pageSize (w.map fun e => e.1.2), ∀ g ∈ page, FitsUInt32 g := by
    intro page hpage g hg
    have hmem : g ∈ (workerKey isBigram tokenIds).units :=
      hrest ▸ mem_append_left _ (mem_of_mem_pages hpage hg)
    exact fits_of_mem_units hmem
  have hdigests : digests P w =
      (chain (pageDigest sha) none (pages P.pageSize (w.map fun e => e.1.2))).map hexdigest :=
    chain_map (fun prior page hpage => H.nativeHash_eq prior (hfits page hpage)) none
  have hlen : (chain (pageDigest sha) none (pages P.pageSize (w.map fun e => e.1.2))).length =
      w.length / P.pageSize := by
    rw [length_chain, length_pages_of_dvd P.pageSize_pos (by rwa [length_map]), length_map]
  rw [hdigests, map_map, ← hrest,
    pages_append P.pageSize_pos (by rwa [length_map]), chain_append, map_append,
    take_left' (by rw [length_map, hlen])]
  exact map_congr_left fun d _ => H.hashStrToInt64_hexdigest d

/-- Router and worker name the blocks of a cached sequence alike. -/
structure HashesAgree (sha : Sha256) (P : RadixParams String A) (T : RadixCache String A) :
    Prop where
  /-- The whole blocks of a sequence that a path holds. -/
  aligned : ∀ isBigram tokenIds n w hashes, T.HashPath n w hashes →
    (w.map fun e => e.1.2) = (workerKey isBigram tokenIds).units.take
      ((workerKey isBigram tokenIds).len / P.pageSize * P.pageSize) →
    ∃ values, routerHashes sha isBigram tokenIds P.pageSize = some values ∧
      hashes.map (RadixCache.hashStrToInt64 P) =
        values.take ((workerKey isBigram tokenIds).len / P.pageSize)
  /-- The blocks of the part of a sequence that a path holds. -/
  leading : ∀ isBigram tokenIds n w hashes, T.HashPath n w hashes →
    (w.map fun e => e.1.2) <+: (workerKey isBigram tokenIds).units →
    ∃ values, routerHashes sha isBigram tokenIds P.pageSize = some values ∧
      hashes.map (RadixCache.hashStrToInt64 P) = values.take (w.length / P.pageSize)
  /-- A worker that publishes events holds the hashes of every path. -/
  held : P.enableKvCacheEvents = true → ∀ n w, T.RootPath n w → ∃ hashes, T.HashPath n w hashes

/-- Whatever insertions, splits and deletions cut the sequences into nodes. -/
theorem hashesAgree_of_cacheRun (H : HashesBy sha P) {T : RadixCache String A}
    {held : Multiset Radix.NodeId} (h : CacheRun P T held) : HashesAgree sha P T := by
  have hleading : ∀ isBigram tokenIds n w hashes, T.HashPath n w hashes →
      (w.map fun e => e.1.2) <+: (workerKey isBigram tokenIds).units →
      ∃ values, routerHashes sha isBigram tokenIds P.pageSize = some values ∧
        hashes.map (RadixCache.hashStrToInt64 P) = values.take (w.length / P.pageSize) := by
    intro isBigram tokenIds n w hashes hpath hw
    obtain ⟨rfl, hdvd⟩ := h.hashPath_eq hpath
    exact H.digests_eq hw hdvd
  refine ⟨?_, hleading, fun hon n w hpath => h.exists_hashPath hon hpath⟩
  intro isBigram tokenIds n w hashes hpath hw
  have hlen : w.length = (workerKey isBigram tokenIds).len / P.pageSize * P.pageSize := by
    have hmap := congrArg List.length hw
    rw [length_map, length_take, RadixKey.length_units,
      min_eq_left (Nat.div_mul_le_self _ _)] at hmap
    exact hmap
  have hvalues := hleading isBigram tokenIds n w hashes hpath (hw ▸ take_prefix _ _)
  rwa [hlen, Nat.mul_div_cancel _ P.pageSize_pos] at hvalues

/-! ## A sequence cut in two -/

/-- A worker that hashes pages of two ids. -/
def pairParams (sha : Sha256) : RadixParams String Unit where
  pageSize := 2
  pageSize_pos := Nat.two_pos
  isEagle := false
  enableKvCacheEvents := true
  enableSessionRadixCache := false
  disableFinishedInsert := false
  nativeHash := fun prior page => (getHashStr sha prior page).getD ""
  leadingBits := fun d => (intBase16 (d.toList.take 16)).getD 0
  free := fun a _ => a

theorem hashesBy_pairParams (sha : Sha256) : HashesBy sha (pairParams sha) where
  nativeHash prior page d _ h := by simp [pairParams, h]
  leadingBits d v h := by simp [pairParams, h]

/-- Four ids are stored, then a lookup of a sequence that leaves them after two cuts the
node. -/
def cutInTwo (sha : Sha256) : RadixCache String Unit :=
  (CacheOp.matchPrefix { tokenIds := [1, 2, 9, 9] }).next (pairParams sha)
    ((CacheOp.insert { tokenIds := [1, 2, 3, 4] } (some [10, 11, 12, 13])).next (pairParams sha)
      ((blankCache ()).reset (pairParams sha)))

/-- A rolling sum of the bytes in place of SHA-256. -/
def rollingSum : Sha256 := fun bytes =>
  Vector.ofFn fun i => bytes.foldl (fun acc b => 31 * acc + b) (UInt8.ofNat i)

/-- The lower of the two nodes is reached through the upper one. -/
theorem rootPath_cutInTwo : ∃ w, (cutInTwo rollingSum).RootPath 1 w ∧ w.length = 4 := by
  have hupper : ((cutInTwo rollingSum).node (cutInTwo rollingSum).rootNode).children.lookup
      ⟨none, [.token 1, .token 2]⟩ = some 2 := by decide +kernel
  have hlower : ((cutInTwo rollingSum).node 2).children.lookup
      ⟨none, [.token 3, .token 4]⟩ = some 1 := by decide +kernel
  exact ⟨_, .child (.child .root hupper) hlower, by decide +kernel⟩

theorem hashesAgree_cutInTwo :
    HashesAgree rollingSum (pairParams rollingSum) (cutInTwo rollingSum) ∧
      ∃ w hashes, w.length = 4 ∧ (cutInTwo rollingSum).HashPath 1 w hashes := by
  have hstored : (CacheOp.insert { tokenIds := [1, 2, 3, 4] } (some [10, 11, 12, 13])).Legal
      (pairParams rollingSum) ((blankCache ()).reset (pairParams rollingSum)) 0 := by
    rintro v ⟨⟩
    decide
  have hrun : CacheRun (pairParams rollingSum) (cutInTwo rollingSum) 0 :=
    ((CacheRun.start (blankCache ())).next hstored).next trivial
  have hagree := hashesAgree_of_cacheRun (hashesBy_pairParams rollingSum) hrun
  obtain ⟨w, hroot, hlen⟩ := rootPath_cutInTwo
  obtain ⟨hashes, hpath⟩ := hagree.held rfl 1 w hroot
  exact ⟨hagree, w, hashes, hlen, hpath⟩

end Sglang.Router
