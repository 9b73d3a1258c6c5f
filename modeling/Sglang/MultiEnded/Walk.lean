import Sglang.MultiEnded.FlushPrepare

/-!
# The survivor walk of a flush

The walk pairs the survivor nearest to the watermark with the deepest hole
until the two meet. What it has picked are the first of the survivors in
watermark order, and what it has filled are the deepest holes. When an urgent
walk stops, every page that stays bound lies deeper than every page that
becomes unbound.
-/

namespace Sglang.MultiEnded

open Sglang.Support Sglang.PagedAlloc Sglang.UnifiedPool List

variable {c : Config} {a : Allocator} {holes rest : List ℤ} {p : ℤ} {w : Walk}
  {latest : Option Event} {n : ℕ} {pending : Finset ℤ}

/-! ## The holes in depth order -/

theorem holesFromDeep_pairwise (hsorted : holes.Pairwise (· ≤ ·)) (hnodup : holes.Nodup) :
    (c.holesFromDeep holes).Pairwise fun x y => c.depth x < c.depth y := by
  have hlt : holes.Pairwise (· < ·) :=
    hsorted.imp₂ (fun _ _ hle hne => lt_of_le_of_ne hle hne) hnodup
  unfold Config.holesFromDeep Config.depth
  cases c.growDirection with
  | up => exact hlt.imp fun h => by simp only; omega
  | down =>
    rw [pairwise_reverse]
    exact hlt.imp fun h => by simp only; omega

theorem holesFromWatermark_eq_reverse (holes : List ℤ) :
    c.holesFromWatermark holes = (c.holesFromDeep holes).reverse := by
  unfold Config.holesFromWatermark Config.holesFromDeep
  cases c.growDirection with
  | up => rfl
  | down => simp

theorem perm_holesFromDeep (holes : List ℤ) : (c.holesFromDeep holes).Perm holes := by
  unfold Config.holesFromDeep
  cases c.growDirection with
  | up => exact List.Perm.refl _
  | down => exact reverse_perm _

/-! ## The survivors in watermark order -/

/-- A page that is neither a hole nor waiting for a forward. -/
def Live (holes : List ℤ) (pending : Finset ℤ) (p : ℤ) : Prop := p ∉ holes ∧ p ∉ pending

instance : DecidablePred (Live holes pending) := fun _ => inferInstanceAs (Decidable (_ ∧ _))

/-- The live pages of depth below `n`, nearest to the watermark first. -/
def livePages (c : Config) (holes : List ℤ) (pending : Finset ℤ) (n : ℕ) : List ℤ :=
  ((List.range n).reverse.map fun k : ℕ => c.pageAt k).filter (Live holes pending)

theorem livePages_succ (hp : c.depth p = n) : livePages c holes pending (n + 1) =
    if Live holes pending p then p :: livePages c holes pending n
    else livePages c holes pending n := by
  obtain rfl : p = c.pageAt n := c.depth_inj.mp (by rw [hp, c.depth_pageAt])
  simp [livePages, range_succ, filter_cons]

theorem mem_livePages : p ∈ livePages c holes pending n ↔
    (0 ≤ c.depth p ∧ c.depth p < n) ∧ Live holes pending p := by
  simp only [livePages, mem_filter, mem_map, mem_reverse, mem_range, decide_eq_true_eq]
  refine and_congr_left fun _ => ⟨?_, fun hp => ⟨(c.depth p).toNat, by omega, ?_⟩⟩
  · rintro ⟨k, hk, rfl⟩
    rw [c.depth_pageAt]
    omega
  · rw [← c.depth_inj, c.depth_pageAt]
    omega

theorem pairwise_livePages :
    (livePages c holes pending n).Pairwise fun x y => c.depth y < c.depth x := by
  refine Pairwise.filter _ (pairwise_map.mpr ((pairwise_reverse.mpr pairwise_lt_range).imp ?_))
  intro i j hij
  rw [c.depth_pageAt, c.depth_pageAt]
  omega

/-- The pages a walk may pick. -/
def candidates (c : Config) (a : Allocator) : ℕ → List ℤ :=
  livePages c (c.holesFromWatermark a.freePhysPages) a.pendingReusePagesCpu

/-- The live pages of the band. -/
def bandCandidates (c : Config) (a : Allocator) : List ℤ := candidates c a (width c a).toNat

theorem mem_candidates : p ∈ bandCandidates c a ↔
    p ∈ band c a ∧ p ∉ a.freePhysPages ∧ p ∉ a.pendingReusePagesCpu := by
  rw [bandCandidates, candidates, mem_livePages, mem_band_iff, Live,
    holesFromWatermark_eq_reverse, mem_reverse, (perm_holesFromDeep _).mem_iff]
  refine and_congr_left fun _ => ?_
  omega

theorem pairwise_candidates : (candidates c a n).Pairwise fun x y => c.depth y < c.depth x :=
  pairwise_livePages

theorem nodup_candidates : (bandCandidates c a).Nodup :=
  pairwise_livePages.imp fun h heq => by rw [heq] at h; exact lt_irrefl _ h

theorem survivor_bound (h : Conserved c a) (hp : p ∈ bandCandidates c a) :
    a.physicalToVirtual p ≠ -1 ∧ p ≠ 0 := by
  obtain ⟨hband, hfree, hcpu⟩ := mem_candidates.mp hp
  refine ⟨h.pool.bound_of_notMem hband fun hmem => ?_, (h.pool.outside p hband).1⟩
  rw [h.pendingCpu, mem_toFinset] at hcpu
  exact (mem_append.mp hmem).elim hfree hcpu

theorem survivor_virtual_nonneg (h : Conserved c a) (hp : p ∈ bandCandidates c a) :
    0 ≤ a.physicalToVirtual p := by
  have hbound := (survivor_bound h hp).1
  refine h.bound_nonneg _ ?_
  rw [h.pool.inverse.right hbound]
  exact h.pool.inverse.ne_null_left hbound

/-! ## The topmost survivor -/

/-- The hole cursor, with `rest` before it, has not passed the page `p`. -/
def Passed (c : Config) (holes rest : List ℤ) (p : ℤ) : Prop :=
  rest.dropWhile (c.beyond · p) = holes.dropWhile (c.beyond · p)

theorem beyond_inward {h : ℤ} (hle : c.depth p ≤ c.depth h) : c.beyond h (c.inward p) = true := by
  rw [c.beyond_iff, c.depth_inward]
  omega

theorem dropWhile_inward (l : List ℤ) : (l.dropWhile (c.beyond · p)).dropWhile
    (c.beyond · (c.inward p)) = l.dropWhile (c.beyond · (c.inward p)) := by
  induction l with
  | nil => rfl
  | cons x l ih =>
    rw [dropWhile_cons]
    split
    · rename_i hx
      have hlt := c.beyond_iff.mp hx
      rw [dropWhile_cons, if_pos (beyond_inward hlt.le), ih]
    · rfl

theorem Passed.inward (h : Passed c holes rest p) :
    Passed c holes (rest.dropWhile (c.beyond · p)) (c.inward p) := by
  unfold Passed
  rw [h, dropWhile_inward]

theorem Passed.tail (h : Passed c holes rest p)
    (hhead : (rest.dropWhile (c.beyond · p)).head? = some p) :
    Passed c holes (rest.dropWhile (c.beyond · p)).tail (c.inward p) := by
  have hin := h.inward
  unfold Passed at hin ⊢
  cases hrest : rest.dropWhile (c.beyond · p) with
  | nil => simp [hrest] at hhead
  | cons x l =>
    obtain rfl : x = p := by simpa [hrest] using hhead
    rwa [hrest, dropWhile_cons, if_pos (beyond_inward le_rfl)] at hin

/-- The cursor shows `p` exactly when `p` is a hole. -/
theorem head?_dropWhile_iff (hsorted : holes.Pairwise fun x y => c.depth y < c.depth x) :
    (holes.dropWhile (c.beyond · p)).head? = some p ↔ p ∈ holes := by
  induction holes with
  | nil => simp
  | cons x holes ih =>
    obtain ⟨hx, hsorted⟩ := pairwise_cons.mp hsorted
    by_cases hbeyond : c.beyond x p = true
    · have hlt := c.beyond_iff.mp hbeyond
      have hne : p ≠ x := by
        rintro rfl
        exact lt_irrefl _ hlt
      rw [dropWhile_cons, if_pos hbeyond, ih hsorted, mem_cons, or_iff_right hne]
    · rw [dropWhile_cons, if_neg hbeyond, List.head?_cons, Option.some.injEq, mem_cons]
      refine ⟨fun heq => Or.inl heq.symm, ?_⟩
      rintro (heq | hmem)
      · exact heq.symm
      · exact absurd (c.beyond_iff.mpr (hx p hmem)) hbeyond

/-- What the survivor loop finds at depth below `n`. -/
inductive SurvivorFound (c : Config) (holes : List ℤ) (pending : Finset ℤ) (n : ℕ) :
    Option ℤ × List ℤ → Prop
  | none {rest : List ℤ} (h : livePages c holes pending n = []) :
      SurvivorFound c holes pending n (none, rest)
  | some {s : ℤ} {rest : List ℤ} {m : ℕ} (depth_eq : c.depth s = m)
      (h : livePages c holes pending n = s :: livePages c holes pending m)
      (passed : Passed c holes rest (c.inward s)) :
      SurvivorFound c holes pending n (some s, rest)

theorem SurvivorFound.of_eq {m : ℕ} {found : Option ℤ × List ℤ}
    (h : SurvivorFound c holes pending m found)
    (heq : livePages c holes pending n = livePages c holes pending m) :
    SurvivorFound c holes pending n found := by
  cases h with
  | none h => exact .none (heq.trans h)
  | some hdepth h hpassed => exact .some hdepth (heq.trans h) hpassed

theorem survivorLoop_found (hsorted : holes.Pairwise fun x y => c.depth y < c.depth x) (n : ℕ) :
    ∀ {fuel : ℕ} {p : ℤ} {rest : List ℤ}, c.depth p + 1 = n → n < fuel → Passed c holes rest p →
      SurvivorFound c holes pending n (survivorLoop c pending fuel p rest) := by
  induction n with
  | zero =>
    intro fuel p rest hp hfuel _
    obtain ⟨fuel, rfl⟩ := Nat.exists_eq_succ_of_ne_zero hfuel.ne'
    have htable : ¬ c.inTable p = true := by
      rw [c.inTable_iff]
      omega
    rw [survivorLoop, if_neg htable]
    exact .none rfl
  | succ n ih =>
    intro fuel p rest hp hfuel hpassed
    obtain ⟨fuel, rfl⟩ := Nat.exists_eq_succ_of_ne_zero (Nat.ne_zero_of_lt hfuel)
    have hdepth : c.depth p = n := by omega
    have hnext : c.depth (c.inward p) + 1 = n := by
      rw [c.depth_inward]
      omega
    have hhead : (rest.dropWhile (c.beyond · p)).head? = some p ↔ p ∈ holes := by
      rw [hpassed, head?_dropWhile_iff hsorted]
    rw [survivorLoop, if_pos (c.inTable_iff.mpr (by omega))]
    have hin := hpassed.inward
    have hstep : livePages c holes pending (n + 1) = _ := livePages_succ hdepth
    dsimp only
    split
    · rename_i hhole
      rw [if_neg fun hlive => hlive.1 (hhead.mp hhole)] at hstep
      exact (ih hnext (Nat.lt_of_succ_lt_succ hfuel) (hpassed.tail hhole)).of_eq hstep
    · split
      · rename_i hpend
        rw [if_neg fun hlive => hlive.2 hpend] at hstep
        exact (ih hnext (Nat.lt_of_succ_lt_succ hfuel) hin).of_eq hstep
      · rename_i hhole hpend
        rw [if_pos ⟨fun hmem => hhole (hhead.mpr hmem), hpend⟩] at hstep
        exact .some hdepth hstep hin

/-! ## The invariant of the walk -/

/-- Survivors paired with the deepest holes, all of which lie deeper: the
survivors are the first of the candidates. -/
structure Paired (c : Config) (a : Allocator) (srcs dsts rest : List ℤ) : Prop where
  holes : dsts ++ rest = c.holesFromDeep a.freePhysPages
  length_eq : srcs.length = dsts.length
  first : srcs <+: bandCandidates c a
  deeper : ∀ s ∈ srcs, ∀ d ∈ dsts, c.depth d < c.depth s

/-- The part of the walk's state that its exit keeps. -/
structure WalkPaired (c : Config) (a : Allocator) (latest : Option Event)
    (w : Walk) : Prop where
  paired : Paired c w.alloc w.srcs w.dsts w.dstRest
  alloc_eq : ∃ x, w.alloc = { a with inflightForward := x }
  vMoveds : w.vMoveds = w.srcs.map w.alloc.physicalToVirtual
  latest_eq : w.latestEvent = latest
  moves : w.moves = []
  released : w.releasedFired = []

/-- The cursor of the running walk stands at depth `n - 1`, and what is left to
pick lies there or deeper. -/
structure WalkAt (c : Config) (w : Walk) (n : ℕ) : Prop where
  start : c.depth (survivorStart c w.alloc w.cursor) + 1 = n
  le_width : n ≤ width c w.alloc
  picked : w.srcs ++ candidates c w.alloc n = bandCandidates c w.alloc
  passed : Passed c (c.holesFromWatermark w.alloc.freePhysPages) w.holeRest
    (survivorStart c w.alloc w.cursor)

/-- What stays bound is deeper than the holes that are left. -/
def HolesAbove (c : Config) (a : Allocator) (srcs rest : List ℤ) : Prop :=
  ∀ p ∈ bandCandidates c a, p ∉ srcs → ∀ d ∈ rest, c.depth p < c.depth d

theorem survivorStart_some (hp : c.depth p < width c a) : survivorStart c a (some p) = p := by
  unfold width Config.depth at hp
  unfold survivorStart
  cases hd : c.growDirection with
  | up =>
    simp only [hd] at hp ⊢
    exact if_neg (by omega)
  | down =>
    simp only [hd] at hp ⊢
    exact if_neg (by omega)

theorem settleInflightForward_eq :
    ∃ x, settleInflightForward a = { a with inflightForward := x } := by
  unfold settleInflightForward
  split
  · exact ⟨a.inflightForward, rfl⟩
  · exact ⟨none, rfl⟩

theorem walkStart_alloc (singlePass : Bool) :
    ∃ x, (walkStart c a singlePass).alloc = { a with inflightForward := x } := by
  cases singlePass with
  | false => exact ⟨a.inflightForward, rfl⟩
  | true => exact settleInflightForward_eq

theorem walkStart_paired (singlePass : Bool) :
    WalkPaired c a (if singlePass then none else a.latestForwardDoneEvent)
      (walkStart c a singlePass) := by
  obtain ⟨x, hx⟩ := walkStart_alloc (c := c) (a := a) singlePass
  refine ⟨⟨?_, rfl, nil_prefix, by simp [walkStart]⟩, ⟨x, hx⟩, rfl, rfl, rfl, rfl⟩
  rw [hx]
  rfl

theorem walkStart_at (hw : 0 ≤ width c a) (singlePass : Bool) :
    WalkAt c (walkStart c a singlePass) (width c a).toNat := by
  obtain ⟨x, hx⟩ := walkStart_alloc (c := c) (a := a) singlePass
  constructor <;> rw [hx]
  · show c.depth (c.inward a.watermarkPhysical) + 1 = _
    rw [c.depth_inward]
    unfold width at *
    omega
  · exact (Int.toNat_of_nonneg hw).le
  · rfl
  · rfl

/-! ## One round -/

/-- The in-flight forward takes no part in what the walk keeps. -/
theorem WalkPaired.resolve (hw : WalkPaired c a latest w) (x : Option (Event × List ℤ))
    (ws : Option (List ℤ)) (holeRest : List ℤ) : WalkPaired c a latest { w with
      alloc := { w.alloc with inflightForward := x }, writeSet := ws, holeRest := holeRest } := by
  obtain ⟨y, hy⟩ := hw.alloc_eq
  exact { hw with
    paired := { hw.paired with }
    alloc_eq := ⟨x, by rw [hy]⟩ }

/-- Materializing the write set on the first survivor that needs it. -/
theorem resolveWriteSet_eq (q : FlushQueries) : ∃ x ws, w.resolveWriteSet c q =
      { w with alloc := { w.alloc with inflightForward := x }, writeSet := ws } ∧
        ∀ s, w.writeSet = some s → ws = some s := by
  unfold Walk.resolveWriteSet
  split
  · rename_i s hs
    exact ⟨w.alloc.inflightForward, w.writeSet, rfl, fun _ h => h⟩
  · rename_i hs
    obtain ⟨x, hx⟩ : ∃ x, (materializeInflightWriteSet c w.alloc q.writeSet).1 =
        { w.alloc with inflightForward := x } := by
      unfold materializeInflightWriteSet
      split
      · exact ⟨_, rfl⟩
      · split
        · exact ⟨none, rfl⟩
        · exact ⟨_, rfl⟩
    refine ⟨x, some ((materializeInflightWriteSet c w.alloc q.writeSet).2.getD []), ?_, ?_⟩
    · dsimp only
      rw [hx]
    · intro s h
      rw [hs] at h
      cases h

/-- Picking the topmost survivor for the deepest remaining hole. -/
theorem WalkPaired.push {src dst : ℤ} (hw : WalkPaired c a latest w)
    (hrest : w.dstRest = dst :: rest) (hfirst : w.srcs ++ [src] <+: bandCandidates c w.alloc)
    (hdeep : (c.holesFromDeep w.alloc.freePhysPages).Pairwise fun x y => c.depth x < c.depth y)
    (hcross : c.depth dst < c.depth src) : WalkPaired c a latest (w.push c src dst rest) := by
  have hholes : (w.dsts ++ [dst]) ++ rest = c.holesFromDeep w.alloc.freePhysPages := by
    rw [← hw.paired.holes, hrest, append_assoc]
    rfl
  have habove : ∀ s ∈ w.srcs ++ [src], c.depth src ≤ c.depth s := by
    have hsorted := pairwise_append.mp (pairwise_livePages.sublist hfirst.sublist)
    intro s hs
    rcases mem_append.mp hs with hs | hs
    · exact (hsorted.2.2 s hs src (mem_singleton_self _)).le
    · rw [mem_singleton.mp hs]
  have hbelow : ∀ d ∈ w.dsts ++ [dst], c.depth d ≤ c.depth dst := by
    rw [← hholes] at hdeep
    have hsorted := pairwise_append.mp (pairwise_append.mp hdeep).1
    intro d hd
    rcases mem_append.mp hd with hd | hd
    · exact (hsorted.2.2 d hd dst (mem_singleton_self _)).le
    · rw [mem_singleton.mp hd]
  refine { hw with
    paired := ⟨hholes, ?_, hfirst, fun s hs d hd =>
      ((hbelow d hd).trans_lt hcross).trans_le (habove s hs)⟩
    vMoveds := ?_ }
  · show (w.srcs ++ [src]).length = (w.dsts ++ [dst]).length
    simp [hw.paired.length_eq]
  · show w.vMoveds ++ [w.alloc.physicalToVirtual src] =
      (w.srcs ++ [src]).map w.alloc.physicalToVirtual
    rw [hw.vMoveds, map_append]
    rfl

/-! ## The whole walk -/

/-- The walk never raises; at the end of an urgent walk the band is packed. -/
theorem walkLoop_spec {urgent : Bool} {q : FlushQueries} (h : Conserved c a)
    (hsorted : a.freePhysPages.Pairwise (· ≤ ·)) (fuel : ℕ) :
    ∀ w n, WalkPaired c a latest w → WalkAt c w n →
      (urgent = true → w.dstRest ≠ [] → w.writeSet = some []) → w.dstRest.length < fuel →
      ∃ w', walkLoop c q urgent fuel w = .ok w' ∧ WalkPaired c a latest w' ∧
        (urgent = true → HolesAbove c w'.alloc w'.srcs w'.dstRest) := by
  induction fuel with
  | zero => intro w n _ _ _ hfuel; exact absurd hfuel (by omega)
  | succ fuel ih =>
    intro w n hw hat hset hfuel
    obtain ⟨y, hy⟩ := hw.alloc_eq
    have hcons : Conserved c w.alloc := hy ▸ h.setEvents _ _
    have hdeep : (c.holesFromDeep w.alloc.freePhysPages).Pairwise
        fun x y => c.depth x < c.depth y :=
      holesFromDeep_pairwise (by rw [hy]; exact hsorted) (nodup_append.mp hcons.pool.nodup).1
    -- what has not been picked is still in front of the cursor
    have hleft : ∀ p ∈ bandCandidates c w.alloc, p ∉ w.srcs → p ∈ candidates c w.alloc n := by
      intro p hp hnot
      rw [← hat.picked, mem_append] at hp
      exact hp.resolve_left hnot
    unfold walkLoop
    split
    · rename_i hnil
      exact ⟨w, rfl, hw, fun _ => by simp [HolesAbove, hnil]⟩
    rename_i dst rest hrest
    have hfound : SurvivorFound c (c.holesFromWatermark w.alloc.freePhysPages)
        w.alloc.pendingReusePagesCpu n (topmostSurvivor c w.alloc w.cursor w.holeRest) := by
      refine survivorLoop_found ?_ n hat.start ?_ hat.passed
      · rw [holesFromWatermark_eq_reverse, pairwise_reverse]
        exact hdeep
      · have hle := hcons.width_le
        have := hat.le_width
        unfold Config.capacity at hle
        omega
    dsimp only
    generalize topmostSurvivor c w.alloc w.cursor w.holeRest = found at hfound
    cases hfound with
    | none hall =>
      refine ⟨_, rfl, hw.resolve w.alloc.inflightForward _ _, fun _ p hp hnot => ?_⟩
      have hmem := hleft p hp hnot
      rw [candidates, hall] at hmem
      cases hmem
    | @some src holeRest m hdepth hlist hpassed =>
      dsimp only
      obtain ⟨x, ws, hresolve, hws⟩ := resolveWriteSet_eq (c := c)
        (w := { w with holeRest := holeRest }) q
      have hw' := hw.resolve x ws holeRest
      rw [hresolve]
      have hset' : urgent = true → ws = some [] :=
        fun hu => hws _ (hset hu (by simp [hrest]))
      have hpicked := hat.picked
      rw [candidates, hlist] at hpicked
      have hsrc : src ∈ bandCandidates c w.alloc := by
        rw [← hpicked]
        simp
      dsimp only
      split
      · rename_i hrace
        have hnu : ¬ urgent = true := by
          intro hu
          rw [hset' hu] at hrace
          cases hrace
        rw [if_neg hnu]
        exact ⟨_, rfl, hw', fun hu => absurd hu hnu⟩
      split
      · rename_i hcross
        rw [c.beyond_iff] at hcross
        refine ⟨_, rfl, hw', fun _ p hp hnot d hd => ?_⟩
        have hp' : c.depth p ≤ c.depth src := by
          have hmem := hleft p hp hnot
          have hsorted := pairwise_candidates (c := c) (a := w.alloc) (n := n)
          rw [candidates, hlist] at hmem hsorted
          rcases mem_cons.mp hmem with rfl | hmem
          · exact le_rfl
          · exact ((pairwise_cons.mp hsorted).1 p hmem).le
        have hd' : c.depth dst ≤ c.depth d := by
          rw [← hw.paired.holes, hrest, pairwise_append, pairwise_cons] at hdeep
          rcases mem_cons.mp (hrest ▸ hd) with rfl | hd
          · exact le_rfl
          · exact (hdeep.2.1.1 d hd).le
        exact (hp'.trans_lt hcross).trans_le hd'
      rename_i hcross
      rw [c.beyond_iff] at hcross
      rw [if_neg (not_lt.mpr (survivor_virtual_nonneg hcons hsrc))]
      have hne : c.depth dst ≠ c.depth src := by
        rw [Ne, c.depth_inj]
        rintro rfl
        refine (mem_candidates.mp hsrc).2.1 ((perm_holesFromDeep (c := c) _).mem_iff.mp ?_)
        rw [← hw.paired.holes, hrest]
        simp
      have hlt := (mem_candidates.mp hsrc).1.2
      have hstart : survivorStart c w.alloc (some (c.inward src)) = c.inward src :=
        survivorStart_some (by rw [c.depth_inward]; omega)
      have hpaired := hw'.push hrest ⟨livePages c _ _ m, by rw [append_assoc]; exact hpicked⟩ hdeep
        (by omega)
      have hat' : WalkAt c (Walk.push c { w with
          alloc := { w.alloc with inflightForward := x }
          writeSet := ws
          holeRest := holeRest } src dst rest) m := by
        refine ⟨?_, ?_, (append_assoc _ _ _).trans hpicked, ?_⟩
        · show c.depth (survivorStart c w.alloc (some (c.inward src))) + 1 = m
          rw [hstart, c.depth_inward]
          omega
        · show (m : ℤ) ≤ width c w.alloc
          omega
        · show Passed c _ holeRest (survivorStart c w.alloc (some (c.inward src)))
          rwa [hstart]
      split
      · rename_i hcap
        exact ⟨_, rfl, hpaired, fun hu => absurd hu hcap.1⟩
      · refine ih _ m hpaired hat' (fun hu _ => hset' hu) ?_
        rw [hrest, length_cons] at hfuel
        exact Nat.lt_of_succ_lt_succ hfuel

end Sglang.MultiEnded
