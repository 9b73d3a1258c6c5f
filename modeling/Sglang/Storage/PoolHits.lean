import Mathlib.Data.Nat.Find
import Mathlib.Order.Bounds.Basic
import Mathlib.Data.Finset.Insert
import Sglang.FunctionCall.BaseFormat

/-!
# Storage hits over several pools

`HiCacheFile.batch_exists_v2` looks for the longest run of pages that can be loaded. For each pool
it finds the longest run on its own, and it returns the shortest of these. A pool that
needs only its trailing pages may have them at its own length and not at a shorter one.
-/

namespace Sglang.Storage

open Sglang.FunctionCall Function

inductive PoolName where
  | kv | mamba | swa | indexer | deepseekV4C4 | deepseekV4C4Indexer | deepseekV4C128
  | deepseekV4C4State | deepseekV4C4IndexerState | deepseekV4C128State | draft
  deriving DecidableEq

def PoolName.value : PoolName → String
  | .kv => "kv"
  | .mamba => "mamba"
  | .swa => "swa"
  | .indexer => "indexer"
  | .deepseekV4C4 => "deepseek_v4_c4"
  | .deepseekV4C4Indexer => "deepseek_v4_c4_indexer"
  | .deepseekV4C128 => "deepseek_v4_c128"
  | .deepseekV4C4State => "deepseek_v4_c4_state"
  | .deepseekV4C4IndexerState => "deepseek_v4_c4_indexer_state"
  | .deepseekV4C128State => "deepseek_v4_c128_state"
  | .draft => "draft"

inductive PoolHitPolicy where
  | allPages | trailingPages
  deriving DecidableEq

structure PoolTransfer where
  name : PoolName
  keys : Option (List Text) := none
  hitPolicy : PoolHitPolicy := .allPages

structure PoolTransferResult where
  kvHitPages : ℕ
  extraPoolHitPages : PoolName → Option ℕ

/-- `len(transfer.keys) if transfer.keys else 1` -/
def PoolTransfer.trailing (t : PoolTransfer) : ℕ :=
  match t.keys with
  | some (key :: keys) => (key :: keys).length
  | _ => 1

structure HiCacheFile where
  configSuffix : Text
  existingFiles : Finset Text

/-- The last `trailing` of the first `n` pages are there. -/
def HasTrailing (has : ℕ → Bool) (trailing n : ℕ) : Prop :=
  ∀ i < n, n - trailing ≤ i → has i = true

instance (has : ℕ → Bool) (trailing : ℕ) : DecidablePred (HasTrailing has trailing) :=
  fun n => inferInstanceAs (Decidable (∀ i < n, _ → _))

/-- `next((i for i in range(n) if not has(i)), n)` -/
def firstMissing (has : ℕ → Bool) (n : ℕ) : ℕ := ((List.range n).find? fun i => !has i).getD n

/-- The longest run of a pool on its own. -/
def PoolTransfer.boundary (t : PoolTransfer) (has : ℕ → Bool) (kvPages : ℕ) : ℕ :=
  match t.hitPolicy with
  | .allPages => firstMissing has kvPages
  | .trailingPages => Nat.findGreatest (HasTrailing has (max 1 t.trailing)) kvPages

/-- The loop over the pools. -/
def probePools (has : PoolName → ℕ → Bool) (kvPages : ℕ) :
    List PoolTransfer → PoolTransferResult → PoolTransferResult
  | [], r => r
  | t :: ts, r =>
    if r.kvHitPages = 0 then r
    else
      let boundary := t.boundary (has t.name) kvPages
      probePools has kvPages ts
        { kvHitPages := min r.kvHitPages boundary
          extraPoolHitPages := if boundary = 0 then r.extraPoolHitPages
            else update r.extraPoolHitPages t.name (some boundary) }

variable (s : HiCacheFile) (keys : List Text) (ts : List PoolTransfer)

namespace HiCacheFile

def getComponentKey (key : Text) : Option PoolName → Text
  | none | some .kv => key ++ s.configSuffix
  | some name => key ++ '.' :: name.value.toList ++ s.configSuffix

def hasFile (name : Option PoolName) (key : Text) : Bool :=
  s.getComponentKey key name ++ ".bin".toList ∈ s.existingFiles

def hasComponent (name : Option PoolName) (i : ℕ) : Bool := keys[i]?.any (s.hasFile name)

/-- The longest run of the main pool. -/
def kvPages : ℕ := firstMissing (s.hasComponent keys none) keys.length

def batchExistsV2 : PoolTransferResult :=
  let kvPages := s.kvPages keys
  probePools (fun name => s.hasComponent keys (some name)) kvPages ts
    { kvHitPages := kvPages
      extraPoolHitPages := if kvPages = 0 then fun _ => none
        else update (fun _ => none) .kv (some kvPages) }

/-- What the policy of a pool asks for in a run of `n` pages. -/
def Covers (t : PoolTransfer) (n : ℕ) : Prop :=
  HasTrailing (s.hasComponent keys (some t.name))
    (match t.hitPolicy with
      | .allPages => n
      | .trailingPages => t.trailing) n

instance (t : PoolTransfer) : DecidablePred (s.Covers keys t) :=
  fun _ => inferInstanceAs (Decidable (HasTrailing _ _ _))

/-- A run of `n` pages can be loaded. -/
def Usable (n : ℕ) : Prop :=
  (∀ i < n, s.hasComponent keys none i = true) ∧ ∀ t ∈ ts, s.Covers keys t n

instance : DecidablePred (s.Usable keys ts) := fun _ => inferInstanceAs (Decidable (_ ∧ _))

/-- The longest run of the main pool that satisfies `p`. -/
def LongestRun (p : ℕ → Prop) : ℕ → Prop :=
  IsGreatest {n | (∀ i < n, s.hasComponent keys none i = true) ∧ p n}

/-- The shortest of the longest runs of the main pool and of each pool on its own. -/
def ShortestRun : ℕ → Prop :=
  IsLeast {n | s.LongestRun keys (fun _ => True) n ∨
    ∃ t ∈ ts, s.LongestRun keys (s.Covers keys t) n}

end HiCacheFile

/-- The keys that are read for the pools with trailing pages. -/
def syncTrailingKeys (allHashes : List Text) (kvHitPages : ℕ) : List PoolTransfer :=
  ts.map fun t =>
    if t.hitPolicy ≠ .trailingPages then t
    else { t with keys := some ((allHashes.take kvHitPages).drop (kvHitPages - t.trailing)) }

variable {s keys ts} {has : ℕ → Bool} {m n : ℕ} {t : PoolTransfer}

theorem le_firstMissing_iff : m ≤ firstMissing has n ↔ m ≤ n ∧ ∀ i < m, has i = true := by
  unfold firstMissing
  cases hfind : (List.range n).find? fun i => !has i with
  | none =>
    have hall : ∀ i < n, has i = true := by simpa using hfind
    exact ⟨fun h => ⟨h, fun i hi => hall i (hi.trans_le h)⟩, fun h => h.1⟩
  | some j =>
    obtain ⟨hj, hjn, hbefore⟩ := List.find?_range_eq_some.mp hfind
    constructor
    · intro h
      exact ⟨h.trans (List.mem_range.mp hjn).le,
        fun i hi => by simpa using hbefore i (hi.trans_le h)⟩
    · intro h
      by_contra hlt
      simp [h.2 j (not_le.mp hlt)] at hj

theorem PoolTransfer.trailing_pos (t : PoolTransfer) : 1 ≤ t.trailing := by
  unfold PoolTransfer.trailing
  split
  · simp
  · exact le_rfl

/-- Each pool is given the longest run that its policy allows. -/
theorem boundary_eq (t : PoolTransfer) (n : ℕ) :
    t.boundary (s.hasComponent keys (some t.name)) n = Nat.findGreatest (s.Covers keys t) n := by
  refine ((Nat.findGreatest_eq_iff).mpr ?_).symm
  unfold PoolTransfer.boundary HiCacheFile.Covers
  cases t.hitPolicy with
  | allPages =>
    obtain ⟨hle, hall⟩ := le_firstMissing_iff.mp
      (le_refl (firstMissing (s.hasComponent keys (some t.name)) n))
    refine ⟨hle, fun _ i hi _ => hall i hi, fun m hm hmn hcovers => ?_⟩
    refine absurd (le_firstMissing_iff.mpr ⟨hmn, fun i hi => hcovers i hi ?_⟩) (not_le.mpr hm)
    simp
  | trailingPages =>
    rw [max_eq_right t.trailing_pos]
    exact Nat.findGreatest_eq_iff.mp rfl

theorem le_probePools_iff {has : PoolName → ℕ → Bool} (r : PoolTransferResult) :
    m ≤ (probePools has n ts r).kvHitPages ↔
      m ≤ r.kvHitPages ∧ ∀ t ∈ ts, m ≤ t.boundary (has t.name) n := by
  induction ts generalizing r with
  | nil => simp [probePools]
  | cons t ts ih =>
    rw [probePools]
    split
    · -- nothing is left to shorten
      rename_i hzero
      rw [hzero, Nat.le_zero]
      exact ⟨fun h => ⟨h, fun t _ => h ▸ Nat.zero_le _⟩, fun h => h.1⟩
    · rw [ih]
      simp only [Nat.le_min, List.forall_mem_cons, and_assoc]

/-- The shortest of the longest runs is returned. -/
theorem le_kvHitPages_iff : m ≤ (s.batchExistsV2 keys ts).kvHitPages ↔
    m ≤ s.kvPages keys ∧ ∀ t ∈ ts, m ≤ Nat.findGreatest (s.Covers keys t) (s.kvPages keys) := by
  simp only [HiCacheFile.batchExistsV2, le_probePools_iff, boundary_eq]

theorem le_kvPages_iff : n ≤ s.kvPages keys ↔ ∀ i < n, s.hasComponent keys none i = true := by
  refine ⟨fun h => (le_firstMissing_iff.mp h).2, fun h => le_firstMissing_iff.mpr ⟨?_, h⟩⟩
  by_contra hlt
  have hlast := h keys.length (not_le.mp hlt)
  simp [HiCacheFile.hasComponent] at hlast

/-- No usable run is longer than what is returned. -/
theorem HiCacheFile.Usable.le_kvHitPages (h : s.Usable keys ts n) :
    n ≤ (s.batchExistsV2 keys ts).kvHitPages := by
  have hkv := le_kvPages_iff.mpr h.1
  exact le_kvHitPages_iff.mpr ⟨hkv, fun t ht => Nat.le_findGreatest hkv (h.2 t ht)⟩

theorem longestRun_kvPages : s.LongestRun keys (fun _ => True) (s.kvPages keys) :=
  ⟨⟨le_kvPages_iff.mp le_rfl, trivial⟩, fun _ h => le_kvPages_iff.mpr h.1⟩

theorem longestRun_findGreatest (t : PoolTransfer) :
    s.LongestRun keys (s.Covers keys t) (Nat.findGreatest (s.Covers keys t) (s.kvPages keys)) := by
  refine ⟨⟨le_kvPages_iff.mp (Nat.findGreatest_le _), ?_⟩, fun n h =>
    Nat.le_findGreatest (le_kvPages_iff.mpr h.1) h.2⟩
  exact Nat.findGreatest_spec (Nat.zero_le _) fun i hi => absurd hi (Nat.not_lt_zero i)

theorem shortestRun_kvHitPages : s.ShortestRun keys ts (s.batchExistsV2 keys ts).kvHitPages := by
  have hle := le_kvHitPages_iff.mp (le_refl (s.batchExistsV2 keys ts).kvHitPages)
  constructor
  · by_contra hnone
    -- all the runs would be longer
    rw [Set.mem_ofPred_eq, not_or, not_exists] at hnone
    refine Nat.not_succ_le_self (s.batchExistsV2 keys ts).kvHitPages
      (le_kvHitPages_iff.mpr ⟨?_, fun t ht => ?_⟩)
    · exact hle.1.lt_of_ne fun heq => hnone.1 (heq ▸ longestRun_kvPages)
    · exact (hle.2 t ht).lt_of_ne fun heq => hnone.2 t ⟨ht, heq ▸ longestRun_findGreatest t⟩
  · rintro n (h | ⟨t, ht, h⟩)
    · exact hle.1.trans_eq (longestRun_kvPages.unique h)
    · exact (hle.2 t ht).trans_eq ((longestRun_findGreatest t).unique h)

theorem covers_of_allPages (ht : t ∈ ts) (hpolicy : t.hitPolicy = .allPages) :
    s.Covers keys t (s.batchExistsV2 keys ts).kvHitPages := by
  have hle := (le_kvHitPages_iff.mp (le_refl (s.batchExistsV2 keys ts).kvHitPages)).2 t ht
  have hown := (longestRun_findGreatest t : s.LongestRun keys (s.Covers keys t) _).1.2
  rw [HiCacheFile.Covers, hpolicy] at hown ⊢
  exact fun i hi _ => hown i (hi.trans_le hle) (by simp)

/-- The keys that are read are those of the pages that the policy asks for. -/
theorem HiCacheFile.Covers.hasFile (h : s.Covers keys t n) (hpolicy : t.hitPolicy = .trailingPages)
    {key : Text} (hkey : key ∈ ((keys.take n).take n).drop (n - t.trailing)) :
    s.hasFile (some t.name) key = true := by
  rw [List.take_take, min_self] at hkey
  rw [HiCacheFile.Covers, hpolicy] at h
  obtain ⟨i, hi⟩ := List.mem_iff_getElem?.mp hkey
  rw [List.getElem?_drop, List.getElem?_take, ite_eq_iff] at hi
  obtain ⟨hlt, hi⟩ := hi.resolve_right (by simp)
  have hstored := h _ hlt (Nat.le_add_right _ _)
  rwa [HiCacheFile.hasComponent, hi] at hstored

/-- The largest usable run is returned, and the trailing keys for it are present, exactly when each
pool with trailing pages has them at the shortest of the pools' own longest runs. -/
theorem batchExistsV2_isGreatest_iff (s : HiCacheFile) (keys : List Text)
    (ts : List PoolTransfer) :
    (IsGreatest {n | s.Usable keys ts n} (s.batchExistsV2 keys ts).kvHitPages ∧
      ∀ t ∈ syncTrailingKeys ts (keys.take (s.batchExistsV2 keys ts).kvHitPages)
        (s.batchExistsV2 keys ts).kvHitPages, t.hitPolicy = .trailingPages →
        ∀ key ∈ t.keys.getD [], s.hasFile (some t.name) key = true) ↔
    ∀ n, s.ShortestRun keys ts n → ∀ t ∈ ts, t.hitPolicy = .trailingPages →
      s.Covers keys t n := by
  have hshort := (shortestRun_kvHitPages : s.ShortestRun keys ts _)
  constructor
  · intro h n hn t ht _
    rw [hn.unique hshort]
    exact h.1.1.2 t ht
  · intro h
    have hcovers : ∀ t ∈ ts, s.Covers keys t (s.batchExistsV2 keys ts).kvHitPages := by
      intro t ht
      cases hpolicy : t.hitPolicy with
      | allPages => exact covers_of_allPages ht hpolicy
      | trailingPages => exact h _ hshort t ht hpolicy
    have hkv := le_kvHitPages_iff.mp (le_refl (s.batchExistsV2 keys ts).kvHitPages)
    refine ⟨⟨⟨(le_firstMissing_iff.mp hkv.1).2, hcovers⟩, fun n hn => hn.le_kvHitPages⟩, ?_⟩
    intro t' ht' hpolicy key hkey
    obtain ⟨t, ht, rfl⟩ := List.mem_map.mp ht'
    split at hpolicy
    · rename_i hne
      exact absurd hpolicy hne
    · rename_i heq
      rw [if_neg heq] at hkey ⊢
      exact (hcovers t ht).hasFile (not_not.mp heq) hkey

/-- Two pages, of which the indexer has the first and the state the second. -/
def splitStore : HiCacheFile where
  configSuffix := []
  existingFiles :=
    {"a.bin".toList, "b.bin".toList, "a.indexer.bin".toList, "b.mamba.bin".toList}

def splitTransfers : List PoolTransfer :=
  [{ name := .indexer }, { name := .mamba, hitPolicy := .trailingPages }]

/-- One page is returned; it has no state, and no run is usable. -/
theorem not_isGreatest_split :
    ¬ IsGreatest {n | splitStore.Usable ["a".toList, "b".toList] splitTransfers n}
      (splitStore.batchExistsV2 ["a".toList, "b".toList] splitTransfers).kvHitPages := by
  have hone :
      (splitStore.batchExistsV2 ["a".toList, "b".toList] splitTransfers).kvHitPages = 1 := by
    decide
  rw [hone]
  exact fun h => absurd h.1 (by decide : ¬ splitStore.Usable _ splitTransfers 1)

end Sglang.Storage
