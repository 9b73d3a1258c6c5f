import Sglang.MultiEnded.ByteDisjoint
import Sglang.UnifiedPool.SlotBytes

/-!
# Compaction is invisible

The two sub-pools share one byte buffer. A virtual token is read and written
through `translate_kv_loc`; `move_kv_cache` copies the bytes of all its source
slots to its destination slots at once. Over any run of a pair, reading a
bound virtual token returns what was last written to it since its page was
allocated: the pair refines a plain map from live virtual tokens to values.
-/

namespace Sglang.MultiEnded

open Sglang.Support Sglang.PagedAlloc Sglang.UnifiedPool List Function

variable {β : Type*} {C : Composite} {P : Pair} {s : Side} {t v : ℤ} {buf : ℕ → β} {Q : Pair}
  {moves : List (Side × KvMove)}

/-! ## The buffer -/

variable (C)

/-- `move_kv_cache` of one side. -/
def moveKvCache (s : Side) (m : KvMove) (buf : ℕ → β) : ℕ → β :=
  copySlots (C.pool.slotBytes (C.direction s)) buf (m.dst.map Int.toNat) (m.src.map Int.toNat)

/-- The copies of an operation, in the order in which they are issued. -/
def applyMoves (moves : List (Side × KvMove)) (buf : ℕ → β) : ℕ → β :=
  moves.foldl (fun buf m => moveKvCache C m.1 m.2 buf) buf

/-- The physical slot of a virtual token. -/
def slotOfToken (P : Pair) (s : Side) (t : ℤ) : ℕ :=
  (translateKvLoc (C.cfg s) (P s) t).toNat

def readToken (P : Pair) (s : Side) (t : ℤ) (buf : ℕ → β) : List β :=
  readSlot (C.pool.slotBytes (C.direction s)) buf (slotOfToken C P s t)

def writeToken (P : Pair) (s : Side) (t : ℤ) (x : List β) (buf : ℕ → β) : ℕ → β :=
  writeSlot (C.pool.slotBytes (C.direction s)) buf (slotOfToken C P s t) x

/-- The page of the token is bound; page `0` is padding and never handed
out. -/
def TokenBound (P : Pair) (s : Side) (t : ℤ) : Prop :=
  t / ((C.cfg s).pageSize : ℤ) ≠ 0 ∧ (P s).virtualToPhysical (t / ((C.cfg s).pageSize : ℤ)) ≠ -1

variable {C}

instance (C : Composite) (P : Pair) (s : Side) (t : ℤ) :
    Decidable (TokenBound C P s t) :=
  inferInstanceAs (Decidable (_ ∧ _))

/-! ## The abstract map -/

/-- Last value written to each live virtual token since it was allocated. -/
abbrev Contents (β : Type*) := Side → ℤ → Option (List β)

variable {L : Contents β}

/-- Tokens that are not live before and after an operation are forgotten: a
freed id loses its value and a new id starts without one. -/
def retain (C : Composite) (P P' : Pair) (L : Contents β) : Contents β :=
  fun s t => if TokenBound C P s t ∧ TokenBound C P' s t then L s t else none

def Contents.assign (L : Contents β) (s : Side) (t : ℤ) (x : List β) :
    Contents β :=
  fun s' t' => if s' = s ∧ t' = t then some x else L s' t'

/-- Runs of a pair over a buffer, together with the abstract map. As in `ForwardRun`
forwards are recorded in between, and every operation satisfies `ok`. -/
inductive MemRun (C : Composite) (ok : Pair → PairOp → Prop) :
    Pair → (ℕ → β) → Contents β → Prop
  | clear (buf : ℕ → β) : MemRun C ok C.clear buf fun _ _ => none
  | step {P : Pair} {buf : ℕ → β} {L : Contents β} {op : PairOp}
      {r : PairResult} (run : MemRun C ok P buf L) (legal : op.Legal C P)
      (good : ok P op) (step : op.step C P = .ok r) :
      MemRun C ok r.state (applyMoves C r.moves buf) (retain C P r.state L)
  | record {P : Pair} {buf : ℕ → β} {L : Contents β} {s : Side} {op : Op}
      {a : Allocator} (run : MemRun C ok P buf L) (records : op.Records)
      (step : op.step (C.cfg s) (P s) = .ok a) : MemRun C ok (update P s a) buf L
  | write {P : Pair} {buf : ℕ → β} {L : Contents β} {s : Side} {t : ℤ}
      {x : List β} (run : MemRun C ok P buf L) (bound : TokenBound C P s t)
      (size : x.length = C.pool.entryBytes (C.direction s)) :
      MemRun C ok P (writeToken C P s t x buf) (L.assign s t x)

/-- Reading a live token returns the value of the abstract map. -/
def Refines (C : Composite) (P : Pair) (buf : ℕ → β) (L : Contents β) : Prop :=
  ∀ s t x, TokenBound C P s t → L s t = some x → readToken C P s t buf = x

/-! ## Tokens of pages -/

def pageTokens (pageSize : ℕ) (p : ℤ) : List ℤ :=
  (List.range pageSize).map fun i : ℕ => p * pageSize + (i : ℤ)

section PageTokens

variable {ps : ℕ} {p x : ℤ}

theorem mem_pageTokens : x ∈ pageTokens ps p ↔ p * ps ≤ x ∧ x < p * ps + ps := by
  unfold pageTokens
  rw [mem_map]
  constructor
  · rintro ⟨i, hi, rfl⟩
    rw [mem_range] at hi
    omega
  · rintro ⟨hlow, hhigh⟩
    exact ⟨(x - p * ps).toNat, mem_range.mpr (by omega), by omega⟩

theorem div_of_mem_pageTokens (hx : x ∈ pageTokens ps p) : x / (ps : ℤ) = p := by
  obtain ⟨hlow, hhigh⟩ := mem_pageTokens.mp hx
  have hps : (ps : ℤ) ≠ 0 := by omega
  have hsplit : x = (x - p * ps) + p * ps := by omega
  rw [hsplit, Int.add_mul_ediv_right _ _ hps,
    Int.ediv_eq_zero_of_lt (by omega) (by omega), zero_add]

theorem disjointSlots_pageTokens : DisjointSlots (pageTokens ps) ps where
  length_eq := fun p => by simp [pageTokens]
  nodup := fun p => nodup_range.map fun i j hij => by
    have heq : p * (ps : ℤ) + (i : ℤ) = p * (ps : ℤ) + (j : ℤ) := hij
    omega
  disjoint := fun p q hne x hx hx' => hne
    ((div_of_mem_pageTokens hx).symm.trans (div_of_mem_pageTokens hx'))

theorem mem_expandPages {pages : List ℤ} :
    x ∈ expandPages ps pages ↔ ∃ p ∈ pages, x ∈ pageTokens ps p :=
  mem_flatMap

theorem mem_zip_expandPages {is js : List ℤ} {q : ℤ} {o : ℕ} (ho : o < ps)
    (hpq : (p, q) ∈ is.zip js) : (p * ps + o, q * ps + o) ∈
      (expandPages ps is).zip (expandPages ps js) := by
  refine mem_zip_flatMap disjointSlots_pageTokens.length_eq hpq ?_
  unfold pageTokens
  rw [zip_map']
  exact mem_map.mpr ⟨o, mem_range.mpr ho, rfl⟩

/-- The slots of positive pages, as natural numbers. -/
theorem nodup_slots {pages : List ℤ} (hnodup : pages.Nodup) (hpos : ∀ p ∈ pages, 0 < p) :
    ((expandPages ps pages).map Int.toNat).Nodup := by
  refine List.Nodup.map_on ?_ (disjointSlots_pageTokens.nodup_flatMap hnodup)
  have hnonneg : ∀ x ∈ expandPages ps pages, 0 ≤ x := by
    intro x hx
    obtain ⟨p, hp, hxp⟩ := mem_expandPages.mp hx
    have hmul : (0 : ℤ) ≤ p * ps := mul_nonneg (hpos p hp).le (by positivity)
    have := (mem_pageTokens.mp hxp).1
    omega
  intro x hx y hy hxy
  have hx0 := hnonneg x hx
  have hy0 := hnonneg y hy
  omega

end PageTokens

/-! ## One batch of copies -/

section Batch

variable {u : Side} {pages : Set ℤ} {f f' : ℤ → ℤ} {srcs dsts : List ℤ}
  {moves : List KvMove} {buf : ℕ → β}

theorem applyMoves_append (moves moves' : List (Side × KvMove))
    (buf : ℕ → β) : applyMoves C (moves ++ moves') buf =
      applyMoves C moves' (applyMoves C moves buf) :=
  foldl_append

variable (hrel : Relocated (C.cfg u) pages f f' srcs dsts moves)
include hrel

theorem applyMoves_relocated (hne : srcs ≠ []) :
    applyMoves C (labelled u moves) buf = copySlots (C.pool.slotBytes (C.direction u)) buf
        ((expandPages (C.cfg u).pageSize dsts).map Int.toNat)
        ((expandPages (C.cfg u).pageSize srcs).map Int.toNat) := by
  rw [hrel.moves_eq, copyMoves, if_neg hne]
  rfl

theorem applyMoves_of_nil (hnil : srcs = []) : applyMoves C (labelled u moves) buf = buf := by
  rw [hrel.moves_eq, copyMoves, if_pos hnil]
  rfl

/-- A destination page reads as its source page did. -/
theorem readSlot_moved (hpos : ∀ p ∈ pages, 0 < p) {p d : ℤ} (hpd : (p, d) ∈ srcs.zip dsts)
    {o : ℕ} (ho : o < (C.cfg u).pageSize) : readSlot (C.pool.slotBytes (C.direction u))
        (applyMoves C (labelled u moves) buf) (d * (C.cfg u).pageSize + o).toNat =
      readSlot (C.pool.slotBytes (C.direction u)) buf (p * (C.cfg u).pageSize + o).toNat := by
  have hne : srcs ≠ [] := ne_nil_of_mem (of_mem_zip hpd).1
  rw [applyMoves_relocated hrel hne]
  refine (C.pool.disjointSlots _).readSlot_copySlots
    (nodup_slots hrel.dsts_nodup fun d hd => hpos d (hrel.dsts_band d hd)) ?_
  rw [zip_map]
  exact mem_map.mpr ⟨_, mem_zip_expandPages ho (mem_zip_swap hpd), rfl⟩

/-- Cells outside the destination pages keep their value. -/
theorem applyMoves_of_notMem {b : ℕ} (hb : ∀ d ∈ dsts, ∀ x ∈ pageTokens (C.cfg u).pageSize d,
      b ∉ C.pool.slotBytes (C.direction u) x.toNat) :
    applyMoves C (labelled u moves) buf b = buf b := by
  by_cases hne : srcs = []
  · rw [applyMoves_of_nil hrel hne]
  · rw [applyMoves_relocated hrel hne]
    refine copySlots_of_notMem fun n hn => ?_
    obtain ⟨x, hx, rfl⟩ := mem_map.mp hn
    obtain ⟨d, hd, hxd⟩ := mem_expandPages.mp hx
    exact hb d hd x hxd

end Batch

/-! ## Bytes of a token -/

theorem mem_pageBytes_of_mem_slotBytes {p x : ℤ} {b : ℕ}
    (hx : x ∈ pageTokens (C.cfg s).pageSize p) (hp : 0 ≤ p)
    (hb : b ∈ C.pool.slotBytes (C.direction s) x.toNat) : (b : ℤ) ∈ pageBytes (C.cfg s) p := by
  have hpage := UnifiedKVPool.page_of_mem_slotBytes hb
  have he : 0 < C.pool.entryBytesPerPage (C.direction s) := C.pool.entryBytesPerPage_pos _
  have hdiv := div_of_mem_pageTokens hx
  have hx0 : 0 ≤ x := by
    have hmul : (0 : ℤ) ≤ p * (C.cfg s).pageSize := mul_nonneg hp (by positivity)
    have := (mem_pageTokens.mp hx).1
    omega
  have hp' : ((b / C.pool.entryBytesPerPage (C.direction s) : ℕ) : ℤ) = p := by
    rw [hpage, ← hdiv]
    conv_rhs => rw [← Int.toNat_of_nonneg hx0]
    exact Int.natCast_ediv _ _
  have hmod := Nat.div_add_mod b (C.pool.entryBytesPerPage (C.direction s))
  have hlt := Nat.mod_lt b he
  have hb' : p * (C.pool.entryBytesPerPage (C.direction s) : ℤ) +
      ((b % C.pool.entryBytesPerPage (C.direction s) : ℕ) : ℤ) = b := by
    rw [← hp', mul_comm]
    exact_mod_cast hmod
  show p * (C.pool.entryBytesPerPage (C.direction s) : ℤ) ≤ b ∧
    (b : ℤ) < (p + 1) * (C.pool.entryBytesPerPage (C.direction s) : ℤ)
  rw [add_mul, one_mul]
  omega

theorem TokenBound.mem_band (hinv : PairInv C P) (h : TokenBound C P s t) :
    (P s).virtualToPhysical (t / ((C.cfg s).pageSize : ℤ)) ∈ band (C.cfg s) (P s) :=
  (hinv.conserved s).physical_mem_band h.1 h.2

/-- The slot of a token: its physical page and its offset in the page. -/
theorem slotOfToken_eq (hinv : PairInv C P) (h : TokenBound C P s t) : slotOfToken C P s t =
      ((P s).virtualToPhysical (t / ((C.cfg s).pageSize : ℤ)) *
        (C.cfg s).pageSize + (t % ((C.cfg s).pageSize : ℤ)).toNat).toNat := by
  have hps : ((C.cfg s).pageSize : ℤ) ≠ 0 := (C.cfg s).pageSize_pos_int.ne'
  have hmod := Int.emod_nonneg t hps
  have hpos := (hinv.conserved s).band_pos (h.mem_band hinv)
  have hmul : (0 : ℤ) ≤
      (P s).virtualToPhysical (t / ((C.cfg s).pageSize : ℤ)) *
        (C.cfg s).pageSize := mul_nonneg hpos.le (by positivity)
  unfold slotOfToken translateKvLoc
  rw [Int.toNat_of_nonneg hmod, max_eq_right (by omega)]

theorem offset_lt (s : Side) (t : ℤ) :
    (t % ((C.cfg s).pageSize : ℤ)).toNat < (C.cfg s).pageSize := by
  have hps := (C.cfg s).pageSize_pos_int
  have hlt := Int.emod_lt_of_pos t hps
  have hmod := Int.emod_nonneg t hps.ne'
  omega

theorem slot_mem_pageTokens (s : Side) (t p : ℤ) :
    p * ((C.cfg s).pageSize : ℤ) + (t % ((C.cfg s).pageSize : ℤ)).toNat ∈
      pageTokens (C.cfg s).pageSize p := by
  have := offset_lt (C := C) s t
  rw [mem_pageTokens]
  omega

/-! ## One step -/

/-- Relocating the bindings of side `u` keeps what every token reads. -/
theorem readToken_relocated {u : Side} {a : Allocator} {f : ℤ → ℤ}
    {srcs dsts : List ℤ} {moves : List KvMove}
    (hinv : PairInv C P) (hinvQ : PairInv C (update P u a))
    (hrel : Relocated (C.cfg u) (band (C.cfg u) (P u)) f a.virtualToPhysical srcs dsts moves)
    (hP : TokenBound C P s t) (hQ : TokenBound C (update P u a) s t)
    (hf : s = u → f (t / ((C.cfg s).pageSize : ℤ)) =
      (P s).virtualToPhysical (t / ((C.cfg s).pageSize : ℤ))) :
    readToken C (update P u a) s t
        (applyMoves C (labelled u moves) buf) = readToken C P s t buf := by
  have hpos : ∀ p ∈ band (C.cfg u) (P u), 0 < p := fun p hp => (hinv.conserved u).band_pos hp
  have hband := hP.mem_band hinv
  unfold readToken
  rw [slotOfToken_eq hinv hP, slotOfToken_eq hinvQ hQ]
  by_cases hs : s = u
  · subst hs
    rw [update_self, ← hf rfl]
    by_cases hmem : f (t / ((C.cfg s).pageSize : ℤ)) ∈ srcs
    · obtain ⟨d, hd⟩ := exists_mem_zip_of_mem hrel.length_eq hmem
      rw [hrel.moved _ _ d hd rfl]
      exact readSlot_moved hrel hpos hd (offset_lt s t)
    · rw [hrel.kept _ hmem]
      refine readSlot_congr fun b hb => applyMoves_of_notMem hrel ?_
      intro d hd x hx hbx
      -- A byte belongs to one page only, and no bound page is a destination.
      have hpage := slot_mem_pageTokens (C := C) s t (f (t / ((C.cfg s).pageSize : ℤ)))
      have hslot := (C.pool.disjointSlots (C.direction s)).eq_of_mem hbx hb
      have hd0 := hpos d (hrel.dsts_band d hd)
      have hf0 : 0 < f (t / ((C.cfg s).pageSize : ℤ)) := by
        rw [hf rfl]
        exact hpos _ hband
      have hmul : (0 : ℤ) ≤ d * (C.cfg s).pageSize := mul_nonneg hd0.le (by positivity)
      have hmul' : (0 : ℤ) ≤ f (t / ((C.cfg s).pageSize : ℤ)) *
          (C.cfg s).pageSize := mul_nonneg hf0.le (by positivity)
      have hx0 := (mem_pageTokens.mp hx).1
      have hxeq : x = f (t / ((C.cfg s).pageSize : ℤ)) * (C.cfg s).pageSize +
          (t % ((C.cfg s).pageSize : ℤ)).toNat := by omega
      rw [← hxeq] at hpage
      have heq := (div_of_mem_pageTokens hx).symm.trans (div_of_mem_pageTokens hpage)
      exact hrel.dsts_unused _ (heq ▸ hd)
  · have hpeer : s = u.peer := (s.eq_or_eq_peer u).resolve_left hs
    subst hpeer
    rw [update_of_ne hs]
    refine readSlot_congr fun b hb => applyMoves_of_notMem hrel ?_
    intro d hd x hx hbx
    have hdband := hrel.dsts_band d hd
    have hown := mem_pageBytes_of_mem_slotBytes hx (hpos d hdband).le hbx
    have hother := mem_pageBytes_of_mem_slotBytes
      (slot_mem_pageTokens u.peer t _)
      ((hinv.conserved _).band_pos hband).le hb
    exact Set.disjoint_left.mp (hinv.bands_disjoint u hdband hband) hown hother

/-- A binding leaves the bindings of other pages alone. -/
theorem readToken_bound {u : Side} {a : Allocator}
    (ha : s = u → a.virtualToPhysical (t / ((C.cfg s).pageSize : ℤ)) =
      (P s).virtualToPhysical (t / ((C.cfg s).pageSize : ℤ))) :
    readToken C (update P u a) s t buf = readToken C P s t buf := by
  unfold readToken slotOfToken translateKvLoc
  by_cases hs : s = u
  · subst hs
    rw [update_self, ha rfl]
  · rw [update_of_ne hs]

/-- One side step keeps what a token reads that is bound before and after. -/
theorem readToken_sideStep {m : Mode} (hinv : PairInv C P)
    (hstep : SideStep C P m Q moves) (hP : TokenBound C P s t) (hQ : TokenBound C Q s t) :
    readToken C Q s t (applyMoves C moves buf) = readToken C P s t buf := by
  have hinvQ := hinv.sideStep hstep
  cases hstep with
  | @flush m u urgent q r held hr =>
    have hspec := hinv.flush_spec held hr
    obtain ⟨srcs, dsts, hrel⟩ := hspec.relocated
    exact readToken_relocated hinv hinvQ hrel hP hQ fun h => by rw [h]
  | @free u ts a moves hlegal hf =>
    have hspec := free_spec_of_ok (hinv.conserved u) hlegal hf
    obtain ⟨srcs, dsts, hrel⟩ := hspec.relocated
    refine readToken_relocated hinv hinvQ hrel hP hQ fun h => ?_
    subst h
    refine fill_of_notMem fun hmem => hQ.2 ?_
    rw [update_self]
    exact (hspec.unbound_iff (hinv.conserved _) _).mpr (Or.inr hmem)
  | @consume u n peer a henough hroom hc =>
    obtain ⟨k, ps, rest, rfl, ht⟩ := consumeVirtual_spec (hinv.conserved u) henough hc
    refine readToken_bound fun h => ?_
    subst h
    refine scatter_of_notMem fun hmem => hP.2 ?_
    exact (hinv.conserved _).ids_unbound _ (mem_of_mem_take hmem)
  | @adopt vs peer a hnodup hpos hunbound hids hroom ha =>
    obtain ⟨k, ps, rest, rfl, ht⟩ := allocWithVirtual_spec (hinv.conserved .other) ha
    refine readToken_bound fun h => ?_
    subst h
    exact scatter_of_notMem fun hmem => hP.2 (hunbound _ hmem)

/-! ## Whole operations -/

/-- Binding steps keep bound pages bound. -/
theorem SideStep.bound_mono (hinv : PairInv C P) (hstep : SideStep C P .bind Q moves)
    (hP : (P s).virtualToPhysical v ≠ -1) : (Q s).virtualToPhysical v ≠ -1 := by
  have hupdate : ∀ {u : Side} {a : Allocator},
      (∀ w, a.virtualToPhysical w = -1 → (P u).virtualToPhysical w = -1) →
        (update P u a s).virtualToPhysical v ≠ -1 := by
    intro u a ha
    by_cases hs : s = u
    · subst hs
      rw [update_self]
      exact fun hn => hP (ha v hn)
    · rwa [update_of_ne hs]
  cases hstep with
  | @flush m u urgent q r held hr =>
    have hspec := hinv.flush_spec held hr
    exact hupdate fun w => (hspec.unbound_iff (hinv.conserved u) w).mp
  | @consume u n peer a henough hroom hc =>
    obtain ⟨k, ps, rest, rfl, ht⟩ := consumeVirtual_spec (hinv.conserved u) henough hc
    have hnodup := (hinv.conserved u).ids_nodup.sublist (take_sublist n (P u).freeVirtualIds)
    exact hupdate fun w hw => ((boundState_unbound_iff (hinv.conserved u) ht
      hnodup (by simp [henough]) w).mp hw).1
  | @adopt vs peer a hnodup hpos hunbound hids hroom ha =>
    obtain ⟨k, ps, rest, rfl, ht⟩ := allocWithVirtual_spec (hinv.conserved .other) ha
    exact hupdate fun w hw => ((boundState_unbound_iff
      (hinv.conserved .other) ht hnodup rfl w).mp hw).1

/-- Releasing steps bind nothing. -/
theorem SideStep.bound_anti (hinv : PairInv C P) (hstep : SideStep C P .release Q moves)
    (hQ : (Q s).virtualToPhysical v ≠ -1) : (P s).virtualToPhysical v ≠ -1 := by
  have hupdate : ∀ {u : Side} {a : Allocator}, Q = update P u a →
      (∀ w, (P u).virtualToPhysical w = -1 → a.virtualToPhysical w = -1) →
        (P s).virtualToPhysical v ≠ -1 := by
    rintro u a rfl ha
    by_cases hs : s = u
    · subst hs
      rw [update_self] at hQ
      exact fun hn => hQ (ha v hn)
    · rwa [update_of_ne hs] at hQ
  cases hstep with
  | @flush m u urgent q r held hr =>
    have hspec := hinv.flush_spec held hr
    exact hupdate rfl fun w => (hspec.unbound_iff (hinv.conserved u) w).mpr
  | @free u ts a moves hlegal hf =>
    have hspec := free_spec_of_ok (hinv.conserved u) hlegal hf
    exact hupdate rfl fun w hw => (hspec.unbound_iff (hinv.conserved u) w).mpr (Or.inl hw)

theorem Chain.bound_anti (hinv : PairInv C P) (hchain : Chain C .release P Q moves)
    (hQ : (Q s).virtualToPhysical v ≠ -1) : (P s).virtualToPhysical v ≠ -1 := by
  induction hchain with
  | nil => exact hQ
  | cons head _ ih => exact head.bound_anti hinv (ih (hinv.sideStep head) hQ)

/-- A whole operation keeps what a token reads that is bound before and
after. -/
theorem readToken_chain {m : Mode} (buf : ℕ → β) (hinv : PairInv C P)
    (hchain : Chain C m P Q moves) (hP : TokenBound C P s t) (hQ : TokenBound C Q s t) :
    readToken C Q s t (applyMoves C moves buf) = readToken C P s t buf := by
  induction hchain generalizing buf with
  | nil => rfl
  | @cons P R Q moves moves' head tail ih =>
    have hinvR := hinv.sideStep head
    -- The token is bound in the middle: binding steps keep it from the left,
    -- releasing steps cannot have bound it on the right.
    have hR : TokenBound C R s t := by
      refine ⟨hP.1, ?_⟩
      cases m with
      | bind => exact head.bound_mono hinv hP.2
      | release => exact tail.bound_anti hinvR hQ.2
    rw [applyMoves_append, ih _ hinvR hR hQ, readToken_sideStep hinv head hP hR]

/-! ## Writes -/

/-- Distinct bound tokens have disjoint bytes, also across the two sides. -/
theorem TokenBound.disjoint {s' : Side} {t' : ℤ} {b : ℕ}
    (hinv : PairInv C P) (h : TokenBound C P s t) (h' : TokenBound C P s' t')
    (hb : b ∈ C.pool.slotBytes (C.direction s) (slotOfToken C P s t))
    (hb' : b ∈ C.pool.slotBytes (C.direction s') (slotOfToken C P s' t')) : s' = s ∧ t' = t := by
  have hpos := (hinv.conserved s).band_pos (h.mem_band hinv)
  have hpos' := (hinv.conserved s').band_pos (h'.mem_band hinv)
  have hpage := slot_mem_pageTokens (C := C) s t
    ((P s).virtualToPhysical (t / ((C.cfg s).pageSize : ℤ)))
  have hpage' := slot_mem_pageTokens (C := C) s' t'
    ((P s').virtualToPhysical (t' / ((C.cfg s').pageSize : ℤ)))
  rw [slotOfToken_eq hinv h] at hb
  rw [slotOfToken_eq hinv h'] at hb'
  by_cases hs : s' = s
  · subst hs
    refine ⟨rfl, ?_⟩
    have hslot := (C.pool.disjointSlots (C.direction s')).eq_of_mem hb hb'
    have hmul : (0 : ℤ) ≤
        (P s').virtualToPhysical (t / ((C.cfg s').pageSize : ℤ)) *
          (C.cfg s').pageSize := mul_nonneg hpos.le (by positivity)
    have hmul' : (0 : ℤ) ≤
        (P s').virtualToPhysical (t' / ((C.cfg s').pageSize : ℤ)) *
          (C.cfg s').pageSize := mul_nonneg hpos'.le (by positivity)
    have heq : (P s').virtualToPhysical (t / ((C.cfg s').pageSize : ℤ)) *
          (C.cfg s').pageSize + (t % ((C.cfg s').pageSize : ℤ)).toNat =
        (P s').virtualToPhysical (t' / ((C.cfg s').pageSize : ℤ)) *
          (C.cfg s').pageSize + (t' % ((C.cfg s').pageSize : ℤ)).toNat := by
      omega
    have hphys := div_of_mem_pageTokens hpage
    rw [heq, div_of_mem_pageTokens hpage'] at hphys
    have hvirt : t' / ((C.cfg s').pageSize : ℤ) =
        t / ((C.cfg s').pageSize : ℤ) := by
      have hleft := (hinv.conserved s').pool.inverse.left h'.2
      rw [hphys, (hinv.conserved s').pool.inverse.left h.2] at hleft
      exact hleft.symm
    have hps : ((C.cfg s').pageSize : ℤ) ≠ 0 := (C.cfg s').pageSize_pos_int.ne'
    have hmod := Int.emod_nonneg t hps
    have hmod' := Int.emod_nonneg t' hps
    have hdecomp := Int.mul_ediv_add_emod t ((C.cfg s').pageSize : ℤ)
    have hdecomp' := Int.mul_ediv_add_emod t' ((C.cfg s').pageSize : ℤ)
    rw [hvirt] at hdecomp' heq
    omega
  · have hpeer : s' = s.peer := (s'.eq_or_eq_peer s).resolve_left hs
    subst hpeer
    have hown := mem_pageBytes_of_mem_slotBytes hpage hpos.le hb
    have hother := mem_pageBytes_of_mem_slotBytes hpage' hpos'.le hb'
    exact absurd hother (Set.disjoint_left.mp (hinv.bands_disjoint s
      (h.mem_band hinv) (h'.mem_band hinv)) hown)

theorem Refines.write {x : List β} (hinv : PairInv C P) (h : Refines C P buf L)
    (hbound : TokenBound C P s t) (hsize : x.length = C.pool.entryBytes (C.direction s)) :
    Refines C P (writeToken C P s t x buf) (L.assign s t x) := by
  intro s' t' y hbound' hy
  by_cases heq : s' = s ∧ t' = t
  · obtain ⟨rfl, rfl⟩ := heq
    simp only [Contents.assign, and_self, if_true, Option.some.injEq] at hy
    rw [← hy]
    exact (C.pool.disjointSlots _).readSlot_writeSlot hsize
  · rw [Contents.assign, if_neg heq] at hy
    rw [← h s' t' y hbound' hy]
    refine readSlot_congr fun b hb => writeSlot_of_notMem fun hmem => heq ?_
    exact hbound.disjoint hinv hbound' hmem hb

/-! ## Refinement -/

section Runs

variable {ok : Pair → PairOp → Prop}

theorem MemRun.next (hrun : MemRun C ok P buf L) (op : PairOp) (hlegal : op.Legal C P)
    (hok : ok P op) (hreturns : (op.step C P).isOk = true) :
    MemRun C ok (op.next C P) (applyMoves C (op.result C P).moves buf)
      (retain C P (op.next C P) L) :=
  hrun.step hlegal hok (PairOp.step_eq_result hreturns)

end Runs

theorem Refines.step {m : Mode} (hinv : PairInv C P) (h : Refines C P buf L)
    (hchain : Chain C m P Q moves) : Refines C Q (applyMoves C moves buf) (retain C P Q L) := by
  intro s t x hbound hx
  unfold retain at hx
  by_cases hlive : TokenBound C P s t ∧ TokenBound C Q s t
  · rw [if_pos hlive] at hx
    rw [readToken_chain buf hinv hchain hlive.1 hlive.2]
    exact h s t x hlive.1 hx
  · rw [if_neg hlive] at hx
    cases hx

/-- A record moves no page. -/
theorem Refines.record {u : Side} {a : Allocator} (h : Refines C P buf L)
    (hsame : SameBindings (P u) a) : Refines C (update P u a) buf L := by
  intro s t x hbound hx
  have hbindings : (update P u a s).virtualToPhysical = (P s).virtualToPhysical := by
    by_cases hs : s = u
    · subst hs
      rw [update_self, hsame.bindings]
    · rw [update_of_ne hs]
  rw [TokenBound, hbindings] at hbound
  rw [readToken_bound fun hs => by rw [hsame.bindings, hs]]
  exact h s t x hbound hx

end Sglang.MultiEnded
