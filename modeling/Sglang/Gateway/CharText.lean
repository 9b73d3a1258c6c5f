import Sglang.Support.Lcp
import Mathlib.Data.List.TakeWhile

/-!
# Texts by characters and by bytes

The string helpers of the gateway's prefix tree. A text is its list of characters;
`bytes` are its UTF-8 bytes. The helpers work on bytes as long as these are ASCII and on
characters otherwise. Either way they count characters.
-/

namespace Sglang.Gateway

open Sglang.Support List

def bytes (s : List Char) : List UInt8 := s.flatMap String.utf8EncodeChar

def isAscii (bs : List UInt8) : Bool := bs.all (· < 128)

def sharedPrefixCountChars (a b : List Char) : ℕ := ((a.zip b).takeWhile fun p => p.1 == p.2).length

def sharedPrefixCount (a b : List Char) : ℕ :=
  -- the position of the first difference, or the length of the shorter text
  let commonByteLen := ((bytes a).zip (bytes b)).findIdx fun p => p.1 != p.2
  if isAscii ((bytes a).take commonByteLen) then commonByteLen
  else sharedPrefixCountChars a b

/-- The slice `&s[n..]`; off a character boundary it panics. -/
def sliceFrom : List Char → ℕ → Option (List Char)
  | s, 0 => some s
  | [], _ + 1 => none
  | c :: s, n + 1 => if c.utf8Size ≤ n + 1 then sliceFrom s (n + 1 - c.utf8Size) else none

def advanceByChars (s : List Char) (n : ℕ) : Option (List Char) :=
  if n = 0 then some s
  else if n ≥ (bytes s).length then some []
  else if isAscii ((bytes s).take n) then sliceFrom s n
  else some (s.drop n)

def takeChars (s : List Char) (n : ℕ) : List Char :=
  if n = 0 then []
  else
    match s[n]? with
    | some _ => s.take n
    | none => s

structure NodeText where
  text : List Char
  charCount : ℕ

namespace NodeText

def new (text : List Char) : NodeText := ⟨text, text.length⟩

def empty : NodeText := ⟨[], 0⟩

def firstChar (t : NodeText) : Option Char := t.text.head?

def splitAtChar (t : NodeText) (charIdx : ℕ) : NodeText × NodeText :=
  if charIdx = 0 then (empty, t)
  else if charIdx ≥ t.charCount then (t, empty)
  else (⟨t.text.take charIdx, charIdx⟩, ⟨t.text.drop charIdx, t.charCount - charIdx⟩)

end NodeText

/-! ## Bytes of one character -/

theorem bytes_cons (c : Char) (s : List Char) :
    bytes (c :: s) = String.utf8EncodeChar c ++ bytes s := rfl

theorem length_le_length_bytes (s : List Char) : s.length ≤ (bytes s).length := by
  induction s with
  | nil => exact le_rfl
  | cons c s ih =>
    rw [bytes_cons, length_append, String.length_utf8EncodeChar, length_cons]
    have := c.utf8Size_pos
    omega

/-- The first byte of a character is ASCII only if the character is that byte. -/
theorem utf8EncodeChar_cases (c : Char) : (c.utf8Size = 1 ∧ c.val.toNat < 128 ∧
        String.utf8EncodeChar c = [UInt8.ofNat c.val.toNat]) ∨
      ∃ b bs, String.utf8EncodeChar c = b :: bs ∧ ¬b < 128 := by
  have hlead : ∀ v : ℕ, 128 ≤ v → v < 256 → ¬UInt8.ofNat v < 128 := by
    intro v hlo hhi hlt
    rw [UInt8.lt_iff_toNat_lt, UInt8.toNat_ofNat_of_lt' hhi] at hlt
    exact absurd hlt (not_lt.mpr hlo)
  unfold String.utf8EncodeChar
  by_cases h1 : c.val.toNat ≤ 127
  · refine Or.inl ⟨Char.utf8Size_eq_one_iff.mpr ?_, by omega, if_pos h1⟩
    rw [UInt32.le_iff_toNat_le]
    exact h1
  · refine Or.inr ?_
    simp only [h1, if_false]
    split
    · exact ⟨_, _, rfl, hlead _ (by omega) (by omega)⟩
    · split <;> exact ⟨_, _, rfl, hlead _ (by omega) (by omega)⟩

theorem exists_firstByte (c : Char) :
    ∃ b bs, String.utf8EncodeChar c = b :: bs ∧ (b < 128 → b.toNat = c.val.toNat) := by
  rcases utf8EncodeChar_cases c with ⟨_, hlt, hbytes⟩ | ⟨b, bs, hbytes, hb⟩
  · exact ⟨_, _, hbytes, fun _ => UInt8.toNat_ofNat_of_lt' (hlt.trans (by decide))⟩
  · exact ⟨b, bs, hbytes, fun h => absurd h hb⟩

/-! ## The helpers count characters -/

theorem sharedPrefixCountChars_eq_lcp (a b : List Char) : sharedPrefixCountChars a b = lcp a b := by
  induction a generalizing b with
  | nil => simp [sharedPrefixCountChars, lcp]
  | cons c a ih =>
    cases b with
    | nil => simp [sharedPrefixCountChars, lcp]
    | cons d b =>
      have hrest := ih b
      rw [sharedPrefixCountChars] at hrest ⊢
      by_cases h : c = d
      · simp [lcp, h, hrest]
      · simp [lcp, h]

theorem findIdx_zip_eq_lcp (a b : List UInt8) :
    (a.zip b).findIdx (fun p => p.1 != p.2) = lcp a b := by
  induction a generalizing b with
  | nil => simp [lcp]
  | cons x a ih =>
    cases b with
    | nil => simp [lcp]
    | cons y b =>
      by_cases h : x = y
      · simp [lcp, findIdx_cons, h, ih]
      · rw [zip_cons_cons, findIdx_cons, lcp, if_neg h, bne_iff_ne.mpr h]
        rfl

theorem isAscii_cons {x : UInt8} {bs : List UInt8} :
    isAscii (x :: bs) = true ↔ x < 128 ∧ isAscii bs = true := by
  simp [isAscii]

/-- While the common bytes are ASCII, they are the common characters. -/
theorem lcp_bytes {a b : List Char}
    (h : isAscii ((bytes a).take (lcp (bytes a) (bytes b))) = true) :
    lcp (bytes a) (bytes b) = lcp a b := by
  induction a generalizing b with
  | nil => simp [bytes, lcp]
  | cons c a ih =>
    cases b with
    | nil => simp [bytes, lcp]
    | cons d b =>
      rw [bytes_cons, bytes_cons] at h ⊢
      by_cases hcd : c = d
      · subst hcd
        rcases utf8EncodeChar_cases c with ⟨_, _, hc⟩ | ⟨x, xs, hc, hx⟩
        · rw [hc, singleton_append, singleton_append, lcp, if_pos rfl] at h ⊢
          rw [take_succ_cons, isAscii_cons] at h
          rw [ih h.2, lcp, if_pos rfl]
        · rw [hc, cons_append, cons_append, lcp, if_pos rfl, take_succ_cons,
            isAscii_cons] at h
          exact absurd h.1 hx
      · rw [lcp, if_neg hcd]
        obtain ⟨x, xs, hc, hx⟩ := exists_firstByte c
        obtain ⟨y, ys, hd, hy⟩ := exists_firstByte d
        rw [hc, hd, cons_append, cons_append, lcp] at h ⊢
        by_cases hxy : x = y
        · -- equal first bytes of different characters are not ASCII
          rw [if_pos hxy, take_succ_cons, isAscii_cons] at h
          have hval : c.val.toNat = d.val.toNat := by rw [← hx h.1, ← hy (hxy ▸ h.1), hxy]
          exact absurd (Char.ext (UInt32.toNat_inj.mp hval)) hcd
        · rw [if_neg hxy]

theorem sharedPrefixCount_eq_lcp (a b : List Char) : sharedPrefixCount a b = lcp a b := by
  simp only [sharedPrefixCount, findIdx_zip_eq_lcp]
  split
  · rename_i h
    exact lcp_bytes h
  · exact sharedPrefixCountChars_eq_lcp a b

theorem sliceFrom_of_ascii {s : List Char} {n : ℕ} (hn : n < (bytes s).length)
    (h : isAscii ((bytes s).take n) = true) : sliceFrom s n = some (s.drop n) := by
  induction s generalizing n with
  | nil => exact absurd hn (Nat.not_lt_zero n)
  | cons c s ih =>
    cases n with
    | zero => rfl
    | succ n =>
      rw [bytes_cons] at hn h
      rcases utf8EncodeChar_cases c with ⟨hsize, _, hbytes⟩ | ⟨b, bs, hbytes, hb⟩
      · rw [hbytes, singleton_append, length_cons] at hn
        rw [hbytes, singleton_append, take_succ_cons, isAscii_cons] at h
        rw [sliceFrom, hsize, if_pos (Nat.le_add_left 1 n), Nat.add_sub_cancel,
          ih (by omega) h.2, drop_succ_cons]
      · rw [hbytes, cons_append, take_succ_cons, isAscii_cons] at h
        exact absurd h.1 hb

theorem advanceByChars_eq (s : List Char) (n : ℕ) : advanceByChars s n = some (s.drop n) := by
  have hlen := length_le_length_bytes s
  unfold advanceByChars
  split
  · rename_i h
    rw [h, drop_zero]
  · split
    · rw [drop_of_length_le (by omega)]
    · split
      · rename_i hn h
        exact sliceFrom_of_ascii (by omega) h
      · rfl

theorem takeChars_eq (s : List Char) (n : ℕ) : takeChars s n = s.take n := by
  unfold takeChars
  split
  · rename_i h
    rw [h, take_zero]
  · split
    · rfl
    · rename_i h
      rw [take_of_length_le (List.getElem?_eq_none_iff.mp h)]

theorem NodeText.splitAtChar_eq {t : NodeText} {k : ℕ} (hpos : 0 < k) (hlt : k < t.charCount) :
    t.splitAtChar k = (⟨t.text.take k, k⟩, ⟨t.text.drop k, t.charCount - k⟩) := by
  rw [splitAtChar, if_neg hpos.ne', if_neg (not_le.mpr hlt)]

end Sglang.Gateway
