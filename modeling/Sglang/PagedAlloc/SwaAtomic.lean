import Sglang.PagedAlloc.Swa

/-!
# Allocations that fail

An allocation of the sliding-window allocator that returns `None` should leave both pools
and the table as they were. `alloc_decode` asks both pools before it looks at either
answer.
-/

namespace Sglang.PagedAlloc

open List SwaAllocator

namespace SwaOp

variable (c : SwaConfig) (s : SwaAllocator)

/-- A call that returns `None` before it asks the pools. -/
def checked (asserted short : Prop) [Decidable asserted] [Decidable short]
    (out : Option (List ℤ × SwaAllocator)) : Option (Option (List ℤ) × SwaAllocator) :=
  if ¬asserted then none
  else if short then some (none, s)
  else out.map fun r => (some r.1, r.2)

/-- What an allocation returns and leaves, unless an assertion fails. -/
def result : SwaOp → Option (Option (List ℤ) × SwaAllocator)
  | alloc needSize =>
    checked s (c.pageSize = 1)
      (needSize > s.full.availableSize c.full ∨ needSize > s.swa.availableSize c.swa)
      (s.alloc c needSize)
  | allocExtend reqs =>
    let numNewPages := getNumNewPages c.pageSize reqs
    checked s (1 < c.pageSize) (¬s.newPagesAvailable c numNewPages numNewPages)
      (s.allocExtend c reqs)
  | allocExtendSwaTail r swaTailLen =>
    checked s (1 < c.pageSize ∧ swaTailLen ≤ r.seqLen - r.prefixLen)
      (¬s.newPagesAvailable c (getNumNewPages c.pageSize [r]) (numPagesFor c.pageSize swaTailLen))
      (s.allocExtendSwaTail c r swaTailLen)
  | allocDecode reqs =>
    if ¬1 < c.pageSize then none
    else
      let outFull := s.full.allocDecode c.full reqs
      let outSwa := s.swa.allocDecode c.swa (reqs.map s.swaDecodeReq)
      let s := { s with full := outFull.2, swa := outSwa.2 }
      match outFull.1, outSwa.1 with
      | some fullIndices, some swaIndices =>
        some (some fullIndices, s.setFullToSwaMapping fullIndices swaIndices)
      | _, _ => some (none, s)
  | _ => none

/-- A call that returns `None` changes neither the sizes nor the table. -/
def Atomic (op : SwaOp) : Prop := ∀ s', op.result c s = some (none, s') →
  s'.full.availableSize c.full = s.full.availableSize c.full ∧
    s'.swa.availableSize c.swa = s.swa.availableSize c.swa ∧ s'.fullToSwa = s.fullToSwa

end SwaOp

namespace KVAllocator

variable {c : PoolConfig} {a : KVAllocator} {reqs : List DecodeReq}

theorem availableSize_eq (c : PoolConfig) (a : KVAllocator) :
    a.availableSize c = a.avail.card * c.pageSize := by
  simp [availableSize, avail]

theorem allocDecode_eq_none_iff : (a.allocDecode c reqs).1 = none ↔
    getNumNewPagesDecode c.pageSize reqs > a.supply c := by
  have hle : getNumNewPagesDecode c.pageSize reqs ≤ reqs.length := countP_le_length
  rw [← lt_prepare_iff hle]
  simp only [allocDecode]
  split <;> simp [*]

/-- Where pages are needed, the size stays exactly when the call fails. -/
theorem availableSize_allocDecode_iff (hp : 1 < c.pageSize)
    (hpos : 0 < getNumNewPagesDecode c.pageSize reqs) :
    (a.allocDecode c reqs).2.availableSize c = a.availableSize c ↔
      (a.allocDecode c reqs).1 = none := by
  constructor
  · intro hsame
    cases hout : (a.allocDecode c reqs).1 with
    | none => rfl
    | some out =>
      obtain ⟨taken, hlen, havail, -⟩ := allocDecode_spec hp (Prod.ext hout rfl : _ = (some out, _))
      have hcard := congrArg Multiset.card havail
      rw [Multiset.card_add, Multiset.coe_card, hlen, ← getNumNewPagesDecode_eq hp] at hcard
      rw [availableSize_eq, availableSize_eq, hcard] at hsame
      have hzero := Nat.eq_of_mul_eq_mul_right c.pageSize_pos hsame
      exact absurd (Nat.right_eq_add.mp hzero) hpos.ne'
  · intro h
    simp only [allocDecode] at h ⊢
    split
    · rw [availableSize_eq, (prepare_spec _).1, ← availableSize_eq]
    · rename_i hle
      rw [if_neg hle] at h
      cases h

end KVAllocator

namespace SwaOp

variable {c : SwaConfig} {s s' : SwaAllocator}

theorem eq_of_checked {asserted short : Prop} [Decidable asserted] [Decidable short]
    {out : Option (List ℤ × SwaAllocator)}
    (h : checked s asserted short out = some (none, s')) : s' = s := by
  unfold checked at h
  split at h
  · cases h
  · split at h
    · cases h
      rfl
    · cases out <;> cases h

theorem atomic_of_eq {op : SwaOp} (h : ∀ s', op.result c s = some (none, s') → s' = s) :
    op.Atomic c s := by
  intro s' hs'
  rw [h s' hs']
  exact ⟨rfl, rfl, rfl⟩

theorem atomic_allocDecode_iff (hp : 1 < c.pageSize) (reqs : List DecodeReq) :
    (allocDecode reqs).Atomic c s ↔ ((s.full.allocDecode c.full reqs).1 = none ↔
      (s.swa.allocDecode c.swa (reqs.map s.swaDecodeReq)).1 = none) := by
  have hcount : getNumNewPagesDecode c.pageSize (reqs.map s.swaDecodeReq) =
      getNumNewPagesDecode c.pageSize reqs := countP_map
  -- where one pool fails pages are needed, and both pools keep the state they are left in
  have hnone : (s.full.allocDecode c.full reqs).1 = none ∨
      (s.swa.allocDecode c.swa (reqs.map s.swaDecodeReq)).1 = none →
      ((allocDecode reqs).Atomic c s ↔ (s.full.allocDecode c.full reqs).1 = none ∧
        (s.swa.allocDecode c.swa (reqs.map s.swaDecodeReq)).1 = none) := by
    intro h
    have hpos : 0 < getNumNewPagesDecode c.pageSize reqs := by
      rw [KVAllocator.allocDecode_eq_none_iff, KVAllocator.allocDecode_eq_none_iff] at h
      exact h.elim (Nat.zero_lt_of_lt ·) fun h => hcount ▸ Nat.zero_lt_of_lt h
    rw [← KVAllocator.availableSize_allocDecode_iff (c := c.full) hp hpos,
      ← KVAllocator.availableSize_allocDecode_iff (c := c.swa) hp
        (by rw [← hcount] at hpos; exact hpos)]
    have hresult : (allocDecode reqs).result c s = some (none, { s with
        full := (s.full.allocDecode c.full reqs).2
        swa := (s.swa.allocDecode c.swa (reqs.map s.swaDecodeReq)).2 }) := by
      simp only [result, hp, not_true_eq_false, if_false]
      split
      · simp_all
      · rfl
    simp [Atomic, hresult]
  cases hf : (s.full.allocDecode c.full reqs).1 with
  | none =>
    rw [hnone (Or.inl hf), hf]
    simp
  | some f =>
    cases hw : (s.swa.allocDecode c.swa (reqs.map s.swaDecodeReq)).1 with
    | none =>
      rw [hnone (Or.inr hw), hf]
      simp
    | some w =>
      refine iff_of_true (fun s' h => ?_) (by simp)
      simp only [result, hp, not_true_eq_false, if_false, hf, hw] at h
      cases h

/-- Decoding is atomic where the sequences that begin a page find enough pages in both pools or
in neither; the other allocations are atomic everywhere. -/
theorem atomic_iff (c : SwaConfig) (s : SwaAllocator) (op : SwaOp) : op.Atomic c s ↔
    ∀ reqs, op = .allocDecode reqs → 1 < c.pageSize →
      (getNumNewPagesDecode c.pageSize reqs ≤ s.full.supply c.full ↔
        getNumNewPagesDecode c.pageSize reqs ≤ s.swa.supply c.swa) := by
  cases op with
  | allocDecode reqs =>
    by_cases hp : 1 < c.pageSize
    · have hcount : getNumNewPagesDecode c.pageSize (reqs.map s.swaDecodeReq) =
          getNumNewPagesDecode c.pageSize reqs := countP_map
      have hswa : (s.swa.allocDecode c.swa (reqs.map s.swaDecodeReq)).1 = none ↔ _ :=
        KVAllocator.allocDecode_eq_none_iff
      rw [show c.swa.pageSize = c.pageSize from rfl, hcount] at hswa
      simp only [SwaOp.allocDecode.injEq, forall_eq', hp, forall_const]
      rw [atomic_allocDecode_iff hp, KVAllocator.allocDecode_eq_none_iff, hswa, gt_iff_lt,
        gt_iff_lt, ← not_le, ← not_le, not_iff_not]
      rfl
    · refine iff_of_true (fun s' h => ?_) fun _ _ h => absurd h hp
      rw [result, if_pos hp] at h
      cases h
  | alloc n => exact iff_of_true (atomic_of_eq fun _ => eq_of_checked) (fun _ h => nomatch h)
  | allocExtend reqs =>
    exact iff_of_true (atomic_of_eq fun _ => eq_of_checked) (fun _ h => nomatch h)
  | allocExtendSwaTail r n =>
    exact iff_of_true (atomic_of_eq fun _ => eq_of_checked) (fun _ h => nomatch h)
  | _ => exact iff_of_true (fun s' h => nomatch h) (fun _ h => nomatch h)

end SwaOp

/-- Four full pages of two slots and one window page. -/
def shortWindow : SwaConfig where
  size := 8
  sizeSwa := 2
  pageSize := 2
  pageSize_pos := by decide
  needSort := false

/-- A request that decodes past the only window page loses a full page. -/
theorem not_atomic_shortWindow : ∃ s out,
    (SwaAllocator.clear shortWindow).allocExtend shortWindow [⟨0, 2, -1, by decide⟩] =
        some (out, s) ∧
      ¬(SwaOp.allocDecode [⟨3, 3, by decide⟩]).Atomic shortWindow s :=
  ⟨_, _, rfl, fun h => absurd (h _ rfl).1 (by decide)⟩

end Sglang.PagedAlloc
