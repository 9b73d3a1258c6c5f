import Mathlib.Data.List.GetD
import Sglang.MultiEnded.Band
import Sglang.PagedAlloc.Kernel

/-!
# Runs of slots through pages

The slots of a request fill one page after the other, the last one possibly in part.
`runSlots` lists them from the page ids and `pageIds` reads the ids back; the extend
kernel continues such a run.
-/

namespace Sglang.PagedAlloc

open List

open MultiEnded (uniquePages mem_uniquePages nodup_uniquePages)

variable {p m n : ℕ} {qs qs' l : List ℤ}

/-- The first `n` slots of the pages `qs`. -/
def runSlots (p : ℕ) (qs : List ℤ) (n : ℕ) : List ℤ :=
  (List.range n).map fun i : ℕ => qs.getD (i / p) 0 * p + ((i % p : ℕ) : ℤ)

/-- The pages of a run, read at the first slot of each. -/
def pageIds (p : ℕ) (l : List ℤ) : List ℤ :=
  (List.range (numPagesFor p l.length)).map fun k => l.getD (k * p) 0 / (p : ℤ)

/-- The slots run through their pages in order. -/
def PageRun (p : ℕ) (l : List ℤ) : Prop := l = runSlots p (pageIds p l) l.length

@[simp] theorem length_runSlots (p : ℕ) (qs : List ℤ) (n : ℕ) : (runSlots p qs n).length = n := by
  simp [runSlots]

@[simp] theorem length_pageIds (p : ℕ) (l : List ℤ) :
    (pageIds p l).length = numPagesFor p l.length := by
  simp [pageIds]

theorem getD_runSlots {i : ℕ} (h : i < n) :
    (runSlots p qs n).getD i 0 = qs.getD (i / p) 0 * p + ((i % p : ℕ) : ℤ) := by
  simp [runSlots, getD_eq_getElem?_getD, List.getElem?_map, List.getElem?_range h]

/-- The ids of whole pages in front do not reach behind them. -/
theorem runSlots_add (hp : 0 < p) (hm : qs.length * p = m) :
    runSlots p (qs ++ qs') (m + n) = runSlots p qs m ++ runSlots p qs' n := by
  rw [runSlots, range_add, map_append, map_map]
  congr 1
  · apply map_congr_left
    intro i hi
    have hlt : i / p < qs.length :=
      Nat.div_lt_of_lt_mul (by rw [Nat.mul_comm, hm]; exact mem_range.mp hi)
    rw [getD_append _ _ _ _ hlt]
  · apply map_congr_left
    intro i _
    have hdiv : (m + i) / p = qs.length + i / p := by
      rw [← hm, Nat.add_comm, Nat.add_mul_div_right _ _ hp, Nat.add_comm]
    have hmod : (m + i) % p = i % p := by rw [← hm, Nat.add_comm, Nat.add_mul_mod_self_right]
    simp only [Function.comp_apply]
    rw [hdiv, hmod, getD_append_right _ _ _ _ (Nat.le_add_right _ _), Nat.add_sub_cancel_left]

/-- The slots reach no further page than they need. -/
theorem runSlots_append (h : n ≤ qs.length * p) : runSlots p (qs ++ qs') n = runSlots p qs n := by
  apply map_congr_left
  intro i hi
  have hlt : i / p < qs.length :=
    Nat.div_lt_of_lt_mul (by rw [Nat.mul_comm]; exact (mem_range.mp hi).trans_le h)
  rw [getD_append _ _ _ _ hlt]

theorem pageIds_runSlots (hp : 0 < p) (h : qs.length = numPagesFor p n) :
    pageIds p (runSlots p qs n) = qs := by
  have hp' : (p : ℤ) ≠ 0 := by exact_mod_cast hp.ne'
  apply ext_getElem
  · rw [length_pageIds, length_runSlots, h]
  · intro k hk hk'
    rw [length_pageIds, length_runSlots] at hk
    have hlt := (lt_numPagesFor_iff hp).mp hk
    simp only [pageIds, getElem_map, getElem_range]
    rw [getD_runSlots hlt, Nat.mul_div_cancel _ hp, Nat.mul_mod_left, Nat.cast_zero, add_zero,
      Int.mul_ediv_cancel _ hp', getD_eq_getElem _ _ hk']

theorem pageRun_runSlots (hp : 0 < p) (h : qs.length = numPagesFor p n) :
    PageRun p (runSlots p qs n) := by
  rw [PageRun, pageIds_runSlots hp h, length_runSlots]

theorem numPagesFor_add (hp : 0 < p) (h : p ∣ m) :
    numPagesFor p (m + n) = m / p + numPagesFor p n := by
  obtain ⟨a, rfl⟩ := h
  rw [numPagesFor, numPagesFor, Nat.mul_div_cancel_left _ hp,
    show p * a + n + p - 1 = (n + p - 1) + p * a by omega, Nat.add_mul_div_left _ _ hp,
    Nat.add_comm]

theorem numPagesFor_of_dvd (hp : 0 < p) (h : p ∣ m) : numPagesFor p m = m / p := by
  have hadd := numPagesFor_add (n := 0) hp h
  rwa [numPagesFor_zero hp, Nat.add_zero, Nat.add_zero] at hadd

theorem pageIds_append (hp : 0 < p) (h : p ∣ l.length) (l' : List ℤ) :
    pageIds p (l ++ l') = pageIds p l ++ pageIds p l' := by
  obtain ⟨a, ha⟩ := h
  have hcount : numPagesFor p l.length = a := by
    rw [numPagesFor_of_dvd hp ⟨a, ha⟩, ha, Nat.mul_div_cancel_left _ hp]
  rw [pageIds, length_append, numPagesFor_add hp ⟨a, ha⟩, ha,
    Nat.mul_div_cancel_left _ hp, range_add, map_append, map_map, pageIds,
    pageIds, hcount]
  congr 1
  · apply map_congr_left
    intro k hk
    have hlt : k * p < l.length := by
      rw [ha, Nat.mul_comm]
      exact Nat.mul_lt_mul_of_pos_left (mem_range.mp hk) hp
    rw [getD_append _ _ _ _ hlt]
  · apply map_congr_left
    intro k _
    have hsub : (a + k) * p - l.length = k * p := by
      rw [ha, Nat.add_mul, Nat.mul_comm p a, Nat.add_sub_cancel_left]
    have hle : l.length ≤ (a + k) * p := by
      rw [ha, Nat.add_mul, Nat.mul_comm p a]
      exact Nat.le_add_right _ _
    simp only [Function.comp_apply]
    rw [getD_append_right _ _ _ _ hle, hsub]

/-- Runs can be cut and joined at page boundaries. -/
theorem pageRun_append (hp : 0 < p) (h : p ∣ l.length) {l' : List ℤ} :
    PageRun p (l ++ l') ↔ PageRun p l ∧ PageRun p l' := by
  have hlen : (pageIds p l).length * p = l.length := by
    rw [length_pageIds, numPagesFor_of_dvd hp h, Nat.div_mul_cancel h]
  have hsplit : runSlots p (pageIds p (l ++ l')) (l ++ l').length =
      runSlots p (pageIds p l) l.length ++ runSlots p (pageIds p l') l'.length := by
    rw [pageIds_append hp h, length_append, runSlots_add hp hlen]
  rw [PageRun, hsplit]
  constructor
  · intro heq
    exact append_inj heq (length_runSlots _ _ _).symm
  · rintro ⟨h₁, h₂⟩
    rw [← h₁, ← h₂]

theorem pageRun_nil (hp : 0 < p) : PageRun p [] := by
  rw [PageRun, length_nil, pageIds, length_nil, numPagesFor_zero hp]
  rfl

/-- The pages of the first slots. -/
theorem pageIds_take (hp : 0 < p) (hm : m ≤ l.length) :
    pageIds p (l.take m) = (pageIds p l).take (numPagesFor p m) := by
  rw [pageIds, pageIds, length_take, min_eq_left hm, ← map_take, take_range,
    min_eq_left (numPagesFor_mono hm)]
  apply map_congr_left
  intro k hk
  have hlt := (lt_numPagesFor_iff hp).mp (mem_range.mp hk)
  rw [getD_eq_getElem?_getD, getD_eq_getElem?_getD, List.getElem?_take_of_lt hlt]

theorem PageRun.take (h : PageRun p l) (hp : 0 < p) (hm : m ≤ l.length) : PageRun p (l.take m) := by
  have hlen : (pageIds p (l.take m)).length = numPagesFor p m := by
    rw [length_pageIds, length_take, min_eq_left hm]
  have hruns : l.take m = runSlots p (pageIds p l) m := by
    conv_lhs => rw [h]
    rw [runSlots, ← map_take, take_range, min_eq_left hm]
    rfl
  rw [PageRun, length_take, min_eq_left hm]
  conv_lhs => rw [hruns, ← take_append_drop (numPagesFor p m) (pageIds p l)]
  rw [← pageIds_take hp hm]
  apply runSlots_append
  rw [hlen]
  exact numPagesFor_mul_ge hp m

/-- A started page counts to the slots in front. -/
theorem pageIds_ceil (hp : 0 < p) (h : PageRun p l) (hm : m ≤ l.length) :
    PageRun p (l.take m) ∧ PageRun p (l.drop (numPagesFor p m * p)) ∧
      pageIds p l = pageIds p (l.take m) ++ pageIds p (l.drop (numPagesFor p m * p)) := by
  refine ⟨h.take hp hm, ?_⟩
  rcases Nat.lt_or_ge l.length (numPagesFor p m * p) with hlt | hle
  · rw [drop_eq_nil_of_le hlt.le]
    refine ⟨pageRun_nil hp, ?_⟩
    have hcount : (pageIds p l).length ≤ numPagesFor p m := by
      rw [length_pageIds]
      exact (numPagesFor_mono hlt.le).trans (numPagesFor_mul hp _).le
    have hnil : pageIds p [] = [] := by rw [pageIds, length_nil, numPagesFor_zero hp]; rfl
    rw [pageIds_take hp hm, take_of_length_le hcount, hnil, append_nil]
  · have hdvd : p ∣ (l.take (numPagesFor p m * p)).length := by
      rw [length_take, min_eq_left hle]
      exact Nat.dvd_mul_left _ _
    have hsplit := h
    rw [← take_append_drop (numPagesFor p m * p) l, pageRun_append hp hdvd] at hsplit
    refine ⟨hsplit.2, ?_⟩
    conv_lhs => rw [← take_append_drop (numPagesFor p m * p) l, pageIds_append hp hdvd]
    rw [pageIds_take hp hle, pageIds_take hp hm, numPagesFor_mul hp]

/-! ## The pages of a run -/

theorem exists_of_mem_pageIds (hp : 0 < p) {q : ℤ} (h : q ∈ pageIds p l) :
    ∃ x ∈ l, x / (p : ℤ) = q := by
  obtain ⟨k, hk, rfl⟩ := mem_map.mp h
  have hlt := (lt_numPagesFor_iff hp).mp (mem_range.mp hk)
  refine ⟨l.getD (k * p) 0, ?_, rfl⟩
  rw [getD_eq_getElem _ _ hlt]
  exact getElem_mem _

theorem slot_mod (hp : 0 < p) (q : ℤ) (i : ℕ) :
    (q * p + ((i % p : ℕ) : ℤ)) % (p : ℤ) = ((i % p : ℕ) : ℤ) := by
  have hlt : ((i % p : ℕ) : ℤ) < p := by exact_mod_cast Nat.mod_lt i hp
  rw [Int.add_comm, Int.add_mul_emod_self_right, Int.emod_eq_of_lt (by positivity) hlt]

theorem div_lt_numPagesFor (hp : 0 < p) {i : ℕ} (h : i < n) : i / p < numPagesFor p n :=
  (lt_numPagesFor_iff hp).mpr ((Nat.div_mul_le_self i p).trans_lt h)

theorem PageRun.div_mem (h : PageRun p l) (hp : 0 < p) {x : ℤ} (hx : x ∈ l) :
    x / (p : ℤ) ∈ pageIds p l := by
  rw [h] at hx
  obtain ⟨i, hi, rfl⟩ := mem_map.mp hx
  have hlt : i / p < (pageIds p l).length := by
    rw [length_pageIds]
    exact div_lt_numPagesFor hp (mem_range.mp hi)
  rw [slot_div hp, getD_eq_getElem _ _ hlt]
  exact getElem_mem _

theorem PageRun.mem_pageIds_iff (h : PageRun p l) (hp : 0 < p) {q : ℤ} :
    (∃ x ∈ l, x / (p : ℤ) = q) ↔ q ∈ pageIds p l := by
  refine ⟨?_, exists_of_mem_pageIds hp⟩
  rintro ⟨x, hx, rfl⟩
  exact h.div_mem hp hx

/-- A run of whole pages holds every slot of its pages. -/
theorem PageRun.mem_iff (h : PageRun p l) (hp : 0 < p) (hdvd : p ∣ l.length) {x : ℤ} :
    x ∈ l ↔ x / (p : ℤ) ∈ pageIds p l := by
  refine ⟨h.div_mem hp, fun hx => ?_⟩
  obtain ⟨k, hk, hkx⟩ := getElem_of_mem hx
  have hk' : k < l.length / p := by rwa [length_pageIds, numPagesFor_of_dvd hp hdvd] at hk
  have hpos : (0 : ℤ) < p := by exact_mod_cast hp
  have hoff := Int.emod_lt_of_pos x hpos
  have hnonneg := Int.emod_nonneg x hpos.ne'
  have hroom : k * p + (x % (p : ℤ)).toNat < l.length := by
    have := Nat.mul_le_mul_right p (Nat.succ_le_of_lt hk')
    rw [Nat.div_mul_cancel hdvd, Nat.succ_mul] at this
    omega
  rw [h]
  refine mem_map.mpr ⟨k * p + (x % (p : ℤ)).toNat, mem_range.mpr hroom, ?_⟩
  have hlt : (x % (p : ℤ)).toNat < p := by omega
  have hdiv : (k * p + (x % (p : ℤ)).toNat) / p = k := by
    rw [Nat.mul_comm k p, Nat.mul_add_div hp, Nat.div_eq_of_lt hlt, Nat.add_zero]
  have hmod : (k * p + (x % (p : ℤ)).toNat) % p = (x % (p : ℤ)).toNat := by
    rw [Nat.mul_comm k p, Nat.mul_add_mod, Nat.mod_eq_of_lt hlt]
  rw [hdiv, hmod, getD_eq_getElem _ _ hk, hkx, Int.toNat_of_nonneg hnonneg]
  exact Int.ediv_mul_add_emod x p

/-- Freeing a run frees its pages. -/
theorem PageRun.uniquePages_perm (h : PageRun p l) (hp : 0 < p) (hnodup : (pageIds p l).Nodup) :
    (uniquePages p l).Perm (pageIds p l) := by
  rw [perm_ext_iff_of_nodup (nodup_uniquePages _ _) hnodup]
  intro q
  rw [mem_uniquePages, h.mem_pageIds_iff hp]

/-- A run through distinct pages repeats no slot. -/
theorem PageRun.nodup (h : PageRun p l) (hp : 0 < p) (hnodup : (pageIds p l).Nodup) : l.Nodup := by
  rw [h, runSlots]
  refine List.Nodup.map_on ?_ nodup_range
  intro i hi j hj heq
  have hi' := div_lt_numPagesFor hp (mem_range.mp hi)
  have hj' := div_lt_numPagesFor hp (mem_range.mp hj)
  rw [← length_pageIds] at hi' hj'
  have hdiv := congrArg (· / (p : ℤ)) heq
  simp only [slot_div hp, getD_eq_getElem _ _ hi', getD_eq_getElem _ _ hj'] at hdiv
  have hmod := congrArg (· % (p : ℤ)) heq
  simp only [slot_mod hp] at hmod
  have hpage : i / p = j / p := (List.Nodup.getElem_inj_iff hnodup).mp hdiv
  rw [← Nat.div_add_mod i p, ← Nat.div_add_mod j p, hpage, Nat.cast_inj.mp hmod]

/-! ## Extending a run -/

/-- A run goes on inside its last page. -/
theorem runSlots_continue (hp : 0 < p) (hmn : n ≤ m) (hle : m ≤ numPagesFor p n * p) :
    runSlots p qs m = runSlots p qs n ++ (List.range (m - n)).map fun i : ℕ =>
      (runSlots p qs n).getD (n - 1) 0 + 1 + (i : ℤ) := by
  obtain ⟨d, rfl⟩ := Nat.exists_eq_add_of_le hmn
  rw [runSlots, range_add, map_append, map_map, Nat.add_sub_cancel_left]
  congr 1
  apply map_congr_left
  intro i hi
  have hi' := mem_range.mp hi
  -- the slot before the end lies in the page that goes on
  have hpos : n ≠ 0 := by
    rintro rfl
    rw [numPagesFor_zero hp] at hle
    omega
  obtain ⟨k, rfl⟩ : ∃ k, n = k + 1 := ⟨n - 1, by omega⟩
  rw [numPagesFor_succ hp, Nat.succ_mul] at hle
  have hk := Nat.div_mul_le_self k p
  have hthis : (k + 1 + i) / p = k / p := by
    apply Nat.div_eq_of_lt_le
    · omega
    · rw [Nat.succ_mul]
      omega
  have hmod : (k + 1 + i) % p = k % p + 1 + i := by
    have h₁ := Nat.div_add_mod (k + 1 + i) p
    have h₂ := Nat.div_add_mod k p
    rw [hthis] at h₁
    omega
  simp only [Function.comp_apply]
  rw [Nat.add_sub_cancel, getD_runSlots (by omega), hthis, hmod]
  push_cast
  ring

/-- Whole pages and a started one. -/
theorem runSlots_started (hp : 0 < p) (a : ℕ) {b : ℕ} (hb : b < p) :
    runSlots p qs (a * p + b) = runSlots p qs (a * p) ++
      (List.range b).map fun i : ℕ => qs.getD a 0 * p + (i : ℤ) := by
  rw [runSlots, range_add, map_append, map_map]
  congr 1
  apply map_congr_left
  intro i hi
  have hlt := (mem_range.mp hi).trans hb
  simp only [Function.comp_apply]
  rw [Nat.mul_comm a p, Nat.mul_add_div hp, Nat.div_eq_of_lt hlt, Nat.add_zero,
    Nat.mul_add_mod, Nat.mod_eq_of_lt hlt]

/-- One program of the extend kernel: the rest of the old page, then new pages. -/
theorem extendOne_eq (hp : 0 < p) (r : ExtendReq) (taken : List ℤ) : extendOne p r taken =
      (List.range (min r.seqLen (numPagesFor p r.prefixLen * p) - r.prefixLen)).map
        (fun i : ℕ => r.lastLoc + 1 + (i : ℤ)) ++
      runSlots p taken (r.seqLen - numPagesFor p r.prefixLen * p) := by
  have hge := numPagesFor_mul_ge hp r.prefixLen
  have hpre := r.prefix_le
  rw [extendOne]
  simp only
  by_cases hfirst : r.seqLen ≤ numPagesFor p r.prefixLen * p
  · rw [min_eq_left hfirst, if_pos (by omega), Nat.sub_eq_zero_of_le hfirst]
    simp [runSlots]
  · have hlt := not_le.mp hfirst
    have hfloor := Nat.div_mul_le_self r.seqLen p
    have hpages : numPagesFor p r.prefixLen ≤ r.seqLen / p := (Nat.le_div_iff_mul_le hp).mpr hlt.le
    have hmul := Nat.mul_le_mul_right p hpages
    have hmod := Nat.mod_add_div r.seqLen p
    have hmodlt := Nat.mod_lt r.seqLen hp
    rw [Nat.mul_comm] at hmod
    have hwhole : r.seqLen / p * p - numPagesFor p r.prefixLen * p =
        (r.seqLen / p - numPagesFor p r.prefixLen) * p := (Nat.sub_mul _ _ _).symm
    rw [min_eq_right hlt.le, if_neg (by omega)]
    by_cases hsecond : r.seqLen % p = 0
    · rw [if_pos (by omega)]
      congr 1
      rw [show r.seqLen - numPagesFor p r.prefixLen * p =
        r.seqLen / p * p - numPagesFor p r.prefixLen * p by omega]
      rfl
    · have hnew : r.numNewPages p - 1 = r.seqLen / p - numPagesFor p r.prefixLen := by
        have hseq : numPagesFor p r.seqLen = r.seqLen / p + 1 := by
          conv_lhs => rw [← hmod, Nat.add_comm]
          rw [numPagesFor_add hp (Nat.dvd_mul_left _ _), Nat.mul_div_cancel _ hp]
          congr 1
          apply Nat.div_eq_of_lt_le <;> omega
        rw [ExtendReq.numNewPages, hseq]
        omega
      rw [if_neg (by omega), append_assoc]
      congr 1
      rw [show r.seqLen - numPagesFor p r.prefixLen * p =
        (r.seqLen / p - numPagesFor p r.prefixLen) * p + r.seqLen % p by omega,
        runSlots_started hp _ hmodlt, hwhole, hnew,
        show r.seqLen - r.seqLen / p * p = r.seqLen % p by omega]
      rfl

/-- The extend kernel continues the run of a request whose cached part is whole pages. -/
theorem PageRun.extend (h : PageRun p l) (hp : 0 < p) {base : ℕ} (hbase : p ∣ base)
    {r : ExtendReq} (hlen : r.prefixLen = base + l.length)
    (hlast : l.length % p ≠ 0 → r.lastLoc = l.getD (l.length - 1) 0) {taken : List ℤ}
    (htaken : taken.length = r.numNewPages p) : PageRun p (l ++ extendOne p r taken) ∧
      pageIds p (l ++ extendOne p r taken) = pageIds p l ++ taken := by
  have hwhole : base / p * p = base := Nat.div_mul_cancel hbase
  have hpages : numPagesFor p r.prefixLen = base / p + numPagesFor p l.length := by
    rw [hlen, numPagesFor_add hp hbase]
  have hend : numPagesFor p r.prefixLen * p = base + numPagesFor p l.length * p := by
    rw [hpages, Nat.add_mul, hwhole]
  have hge := numPagesFor_mul_ge hp l.length
  have hle := r.prefix_le
  have hids : (pageIds p l).length = numPagesFor p l.length := length_pageIds p l
  -- the old page is filled first
  have hfill : l ++ (List.range (min r.seqLen (numPagesFor p r.prefixLen * p) -
      r.prefixLen)).map (fun i : ℕ => r.lastLoc + 1 + (i : ℤ)) =
      runSlots p (pageIds p l) (min (r.seqLen - base) (numPagesFor p l.length * p)) := by
    have hself : runSlots p (pageIds p l) l.length = l := h.symm
    have hcount : min r.seqLen (numPagesFor p r.prefixLen * p) - r.prefixLen =
        min (r.seqLen - base) (numPagesFor p l.length * p) - l.length := by
      rw [hend, hlen]
      omega
    rw [runSlots_continue hp (by omega) (min_le_right _ _), hself, hcount]
    congr 1
    apply map_congr_left
    intro i hi
    have hi' := mem_range.mp hi
    have hpart : l.length % p ≠ 0 := fun h0 => by
      have hfull : numPagesFor p l.length * p = l.length := by
        rw [numPagesFor_of_dvd hp (Nat.dvd_of_mod_eq_zero h0),
          Nat.div_mul_cancel (Nat.dvd_of_mod_eq_zero h0)]
      omega
    rw [hlast hpart]
  have hrun : l ++ extendOne p r taken =
      runSlots p (pageIds p l ++ taken) (r.seqLen - base) := by
    rw [extendOne_eq hp, ← append_assoc, hfill, hend]
    by_cases hfirst : r.seqLen - base ≤ numPagesFor p l.length * p
    · rw [min_eq_left hfirst, runSlots_append (by rw [hids]; exact hfirst),
        show r.seqLen - (base + numPagesFor p l.length * p) = 0 by omega]
      exact append_nil _
    · rw [min_eq_right (not_le.mp hfirst).le, show r.seqLen - base =
        numPagesFor p l.length * p + (r.seqLen - (base + numPagesFor p l.length * p)) by omega,
        runSlots_add hp (by rw [hids])]
  have hcount : (pageIds p l ++ taken).length = numPagesFor p (r.seqLen - base) := by
    have hseq : numPagesFor p r.seqLen = base / p + numPagesFor p (r.seqLen - base) := by
      rw [← numPagesFor_add hp hbase, Nat.add_sub_cancel' (by omega)]
    have hmono : numPagesFor p l.length ≤ numPagesFor p (r.seqLen - base) :=
      numPagesFor_mono (by omega)
    rw [length_append, hids, htaken, ExtendReq.numNewPages, hseq, hpages]
    omega
  rw [hrun]
  exact ⟨pageRun_runSlots hp hcount, pageIds_runSlots hp hcount⟩

/-! ## The pages of new slots -/

/-- A slot that goes on inside the page of `last`. -/
theorem step_in_page (hp : 0 < p) {last : ℤ} {i : ℕ}
    (hlast : (last + 1) % (p : ℤ) = ((n % p : ℕ) : ℤ)) (hn : n % p ≠ 0) (hi : n % p + i < p) :
    (last + 1 + i) / (p : ℤ) = last / (p : ℤ) ∧ (last + 1 + i) % (p : ℤ) = ((n % p + i : ℕ) : ℤ) ∧
      last % (p : ℤ) = ((n % p : ℕ) : ℤ) - 1 := by
  have hp' : (0 : ℤ) < p := by exact_mod_cast hp
  have h₁ := Int.ediv_mul_add_emod (last + 1) p
  set a := (last + 1) / (p : ℤ)
  rw [hlast] at h₁
  have hpos : 0 < n % p := Nat.pos_of_ne_zero hn
  have hlast' : last = (((n % p : ℕ) : ℤ) - 1) + a * p := by omega
  have hthis : last + 1 + i = ((n % p + i : ℕ) : ℤ) + a * p := by
    push_cast
    omega
  refine ⟨?_, ?_, ?_⟩
  · rw [hthis, hlast', Int.add_mul_ediv_right _ _ hp'.ne', Int.add_mul_ediv_right _ _ hp'.ne',
      Int.ediv_eq_zero_of_lt (by omega) (by omega), Int.ediv_eq_zero_of_lt (by omega) (by omega)]
  · rw [hthis, Int.add_mul_emod_self_right, Int.emod_eq_of_lt (by omega) (by omega)]
  · conv_lhs => rw [hlast']
    rw [Int.add_mul_emod_self_right, Int.emod_eq_of_lt (by omega) (by omega)]

/-- The slots the extend kernel adds inside the old page. -/
theorem room_in_page (hp : 0 < p) {r : ExtendReq} {i : ℕ}
    (hi : i < min r.seqLen (numPagesFor p r.prefixLen * p) - r.prefixLen) :
    r.prefixLen % p ≠ 0 ∧ r.prefixLen % p + i < p := by
  have hdiv := Nat.div_add_mod' r.prefixLen p
  have hmod := Nat.mod_lt r.prefixLen hp
  have hceil : ∀ k, r.prefixLen ≤ k * p → numPagesFor p r.prefixLen * p ≤ k * p := fun k hk =>
    Nat.mul_le_mul_right p ((numPagesFor_le_iff hp).mpr hk)
  constructor
  · intro h0
    have := hceil (r.prefixLen / p) (by omega)
    omega
  · have := hceil (r.prefixLen / p + 1) (by rw [Nat.succ_mul]; omega)
    rw [Nat.succ_mul] at this
    omega

theorem length_newPages (hp : 0 < p) (r : ExtendReq) :
    r.numNewPages p = numPagesFor p (r.seqLen - numPagesFor p r.prefixLen * p) := by
  rw [ExtendReq.numNewPages, numPagesFor_sub_mul hp]

/-- The request goes on behind `last_loc`. -/
def ExtendReq.Follows (p : ℕ) (r : ExtendReq) : Prop :=
  r.prefixLen % p ≠ 0 → (r.lastLoc + 1) % (p : ℤ) = ((r.prefixLen % p : ℕ) : ℤ)

/-- New slots lie behind `last_loc` in its page, or on new pages. -/
theorem extendOne_page (hp : 0 < p) {r : ExtendReq} (hr : r.Follows p)
    (hl : l.length = r.numNewPages p) {x : ℤ} (hx : x ∈ extendOne p r l) :
    r.prefixLen % p ≠ 0 ∧ x / (p : ℤ) = r.lastLoc / (p : ℤ) ∧ r.lastLoc < x ∨ x / (p : ℤ) ∈ l := by
  rw [extendOne_eq hp] at hx
  rcases mem_append.mp hx with hx | hx
  · obtain ⟨i, hi, rfl⟩ := mem_map.mp hx
    obtain ⟨hpart, hroom⟩ := room_in_page hp (mem_range.mp hi)
    exact Or.inl ⟨hpart, (step_in_page hp (hr hpart) hpart hroom).1, by omega⟩
  · rw [length_newPages hp] at hl
    have hmem := (pageRun_runSlots hp hl).div_mem hp hx
    rw [pageIds_runSlots hp hl] at hmem
    exact Or.inr hmem

/-- Every new page is started. -/
theorem exists_extendOne_page (hp : 0 < p) {r : ExtendReq} (hl : l.length = r.numNewPages p)
    {q : ℤ} (hq : q ∈ l) : ∃ x ∈ extendOne p r l, x / (p : ℤ) = q := by
  rw [length_newPages hp] at hl
  rw [← pageIds_runSlots hp hl] at hq
  obtain ⟨x, hx, hpage⟩ := exists_of_mem_pageIds hp hq
  rw [extendOne_eq hp]
  exact ⟨x, mem_append_right _ hx, hpage⟩

/-- The kernel reads no page beyond those it counts. -/
theorem extendOne_append (hp : 0 < p) (r : ExtendReq) {taken rest : List ℤ}
    (h : r.numNewPages p ≤ taken.length) :
    extendOne p r (taken ++ rest) = extendOne p r taken := by
  rw [extendOne_eq hp, extendOne_eq hp, runSlots_append]
  have hge := numPagesFor_mul_ge hp r.seqLen
  have hmul := Nat.mul_le_mul_right p h
  rw [ExtendReq.numNewPages, Nat.sub_mul] at hmul
  omega

theorem getNumNewPages_cons (p : ℕ) (r : ExtendReq) (reqs : List ExtendReq) :
    getNumNewPages p (r :: reqs) = r.numNewPages p + getNumNewPages p reqs := by
  simp [getNumNewPages]

theorem allocExtendKernel_append (hp : 0 < p) {reqs : List ExtendReq} {taken v : List ℤ}
    (h : getNumNewPages p reqs ≤ taken.length) :
    allocExtendKernel p reqs (taken ++ v) = allocExtendKernel p reqs taken := by
  induction reqs generalizing taken with
  | nil => rfl
  | cons r reqs ih =>
    rw [getNumNewPages_cons] at h
    rw [allocExtendKernel, allocExtendKernel, extendOne_append hp r (by omega),
      drop_append_of_le_length (by omega), ih]
    rw [length_drop]
    omega

/-- The slots of a batch lie behind their requests or on new pages, and start them all. -/
theorem allocExtendKernel_pages (hp : 0 < p) {reqs : List ExtendReq}
    (hr : ∀ r ∈ reqs, r.Follows p) (hl : l.length = getNumNewPages p reqs) :
    (∀ x ∈ allocExtendKernel p reqs l, x / (p : ℤ) ∈ l ∨ ∃ r ∈ reqs, r.prefixLen % p ≠ 0 ∧
        x / (p : ℤ) = r.lastLoc / (p : ℤ)) ∧
      ∀ q ∈ l, ∃ x ∈ allocExtendKernel p reqs l, x / (p : ℤ) = q := by
  induction reqs generalizing l with
  | nil =>
    rw [length_eq_zero_iff.mp hl]
    exact ⟨fun x hx => absurd hx not_mem_nil, fun q hq => absurd hq not_mem_nil⟩
  | cons r reqs ih =>
    rw [getNumNewPages_cons] at hl
    have htake : (l.take (r.numNewPages p)).length = r.numNewPages p := length_take_of_le (by omega)
    have hone : extendOne p r l = extendOne p r (l.take (r.numNewPages p)) := by
      conv_lhs => rw [← take_append_drop (r.numNewPages p) l]
      exact extendOne_append hp r htake.ge
    obtain ⟨hpages, hcover⟩ := ih (l := l.drop (r.numNewPages p))
      (fun r hr' => hr r (mem_cons_of_mem _ hr')) (by rw [length_drop]; omega)
    rw [allocExtendKernel, hone]
    constructor
    · intro x hx
      rcases mem_append.mp hx with hx | hx
      · rcases extendOne_page hp (hr r mem_cons_self) htake hx with ⟨hpart, hpage, -⟩ | hmem
        · exact Or.inr ⟨r, mem_cons_self, hpart, hpage⟩
        · exact Or.inl (mem_of_mem_take hmem)
      · exact (hpages x hx).imp mem_of_mem_drop
          fun ⟨e, he, hpage⟩ => ⟨e, mem_cons_of_mem _ he, hpage⟩
    · intro q hq
      rw [← take_append_drop (r.numNewPages p) l] at hq
      rcases mem_append.mp hq with hq | hq
      · obtain ⟨x, hx, hpage⟩ := exists_extendOne_page hp htake hq
        exact ⟨x, mem_append_left _ hx, hpage⟩
      · obtain ⟨x, hx, hpage⟩ := hcover q hq
        exact ⟨x, mem_append_right _ hx, hpage⟩

end Sglang.PagedAlloc
