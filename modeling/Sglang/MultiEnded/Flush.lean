import Sglang.MultiEnded.Walk

/-!
# What a flush does

The moves found by the walk are committed and the freed sources leave the band,
return to the free list, or wait for the running forward. The result is
`FlushSpec`; its only hypothesis beyond the invariant is that a partial pass
does not run under an unfired event that already holds pages.
-/

namespace Sglang.MultiEnded

open Sglang.Support Sglang.PagedAlloc Sglang.UnifiedPool List

variable {c : Config} {a : Allocator} {srcs dsts : List ℤ} {latest : Option Event}
  {fired : Event → Bool} {b : Commit} {w : Walk} {rest : List ℤ}

/-- The tables after moving `srcs` to `dsts`. -/
def remapped (a : Allocator) (srcs dsts : List ℤ) : Allocator :=
  { a with
    virtualToPhysical := scatter a.virtualToPhysical (srcs.map a.physicalToVirtual) dsts
    physicalToVirtual :=
      fill (scatter a.physicalToVirtual dsts (srcs.map a.physicalToVirtual)) srcs (-1) }

/-- The sources of a batch either are released or become a pending entry. -/
inductive Committed (c : Config) (a : Allocator) (srcs dsts : List ℤ)
    (latest : Option Event) (fired : Event → Bool) : Commit → Prop
  | settled : Committed c a srcs dsts latest fired
      ⟨remapped a srcs dsts, srcs, copyMoves c srcs dsts⟩
  | pending {e : Event} (latest_eq : latest = some e) (unfired : fired e = false)
      (ne : srcs ≠ []) : Committed c a srcs dsts latest fired
      ⟨{ remapped a srcs dsts with
          pendingReuse := assignEntry e srcs a.pendingReuse
          pendingReusePagesCpu := a.pendingReusePagesCpu ∪ srcs.toFinset },
        [], copyMoves c srcs dsts⟩

theorem commitMoveBatch_committed (hlen : srcs.length = dsts.length) (latest : Option Event)
    (fired : Event → Bool) : Committed c a srcs dsts latest fired
      (commitMoveBatch c a srcs dsts (srcs.map a.physicalToVirtual) latest fired) := by
  unfold commitMoveBatch
  by_cases hs : srcs = []
  · subst hs
    have hd : dsts = [] := length_eq_zero_iff.mp hlen.symm
    subst hd
    have hsame : remapped a [] [] = a := by simp [remapped, scatter, fill_nil]
    have hsettled : Committed c a [] [] latest fired
        ⟨remapped a [] [], [], copyMoves c [] []⟩ := Committed.settled
    rw [hsame] at hsettled
    exact hsettled
  · have hmoves : copyMoves c srcs dsts =
        [⟨expandPages c.pageSize dsts, expandPages c.pageSize srcs⟩] :=
      if_neg hs
    rw [if_neg hs, ← hmoves]
    cases latest with
    | none => exact Committed.settled
    | some e =>
      dsimp only
      by_cases hf : fired e = true
      · rw [if_pos hf]
        exact Committed.settled
      · rw [if_neg hf]
        exact Committed.pending rfl (by simpa using hf) hs

/-- Without a running forward the sources are always released. -/
theorem Committed.eq_of_latest_none (hb : Committed c a srcs dsts none fired b) :
    b = ⟨remapped a srcs dsts, srcs, copyMoves c srcs dsts⟩ := by
  cases hb with
  | settled => rfl
  | pending hlatest => simp at hlatest

/-! ## The invariant after a batch -/

namespace Paired

variable (hp : Paired c a srcs dsts rest)
include hp

theorem srcs_nodup : srcs.Nodup := nodup_candidates.sublist hp.first.sublist

theorem perm_unbound : (unboundPages a).Perm (dsts ++ (rest ++ pendingPages a)) := by
  rw [← append_assoc, hp.holes]
  exact (perm_holesFromDeep _).symm.append_right _

theorem length_holes : a.freePhysPages.length = dsts.length + rest.length := by
  rw [← (perm_holesFromDeep a.freePhysPages).length_eq, ← hp.holes, length_append]

variable (h : Conserved c a)
include h

theorem srcs_bound : ∀ s ∈ srcs, a.physicalToVirtual s ≠ -1 ∧ s ≠ 0 :=
  fun _ hs => survivor_bound h (hp.first.subset hs)

theorem relocated :
    Relocated c (band c a) a.virtualToPhysical (remapped a srcs dsts).virtualToPhysical srcs dsts
      (copyMoves c srcs dsts) :=
  Relocated.of_pool h.pool hp.srcs_nodup (hp.srcs_bound h) hp.perm_unbound hp.length_eq

theorem pool : SlotPool (remapped a srcs dsts).virtualToPhysical
      (remapped a srcs dsts).physicalToVirtual (-1) (-1) 0 (band c a)
      ((rest ++ pendingPages a) ++ srcs) :=
  h.pool.relocate hp.srcs_nodup (hp.srcs_bound h) hp.perm_unbound hp.length_eq

theorem virtualSide : VirtualSide c (remapped a srcs dsts).virtualToPhysical a.freeVirtualIds
    (heldPages c a) :=
  (hp.relocated h).virtualSide (fun _ => h.band_pos) h.toVirtualSide

/-- A partial pass: `free` and `entries` together hold the remaining holes, the
old pending pages and the sources. -/
theorem conserved {free : List ℤ} {entries : List (Event × List ℤ)}
    {cpu : Finset ℤ}
    (hlazy : c.lazyCompaction = true) (hperm : ((rest ++ pendingPages a) ++ srcs).Perm
      (free ++ entries.flatMap Prod.snd)) (hcpu : cpu = (entries.flatMap Prod.snd).toFinset)
    (hkeys : (entries.map Prod.fst).Nodup)
    (hsorted : c.sortFreeListAfterMerge = true → free.Pairwise (· ≤ ·)) :
    Conserved c { remapped a srcs dsts with
      freePhysPages := free
      pendingReuse := entries
      pendingReusePagesCpu := cpu } := by
  refine h.rearrange hlazy ((hp.pool h).perm hperm) (hp.virtualSide h) ?_ hcpu hkeys hsorted
  rw [hp.perm_unbound.length_eq, ← hperm.length_eq]
  simp only [length_append, hp.length_eq]
  omega

/-- The pages an urgent pass gives up are the top of the band. -/
theorem mem_top (hpend : a.pendingReuse = []) (hpacked : HolesAbove c a srcs rest)
    (hdeep : (c.holesFromDeep a.freePhysPages).Pairwise fun x y => c.depth x < c.depth y) (p : ℤ) :
    p ∈ rest ++ srcs ↔ width c a - a.freePhysPages.length ≤ c.depth p ∧ c.depth p < width c a := by
  have hpool := hp.pool h
  have hnone : pendingPages a = [] := by simp [pendingPages, hpend]
  rw [hnone, append_nil] at hpool
  have hsplit : ∀ x ∈ dsts, ∀ y ∈ rest, c.depth x < c.depth y := by
    rw [← hp.holes, pairwise_append] at hdeep
    exact fun x hx y hy => hdeep.2.2 x hx y hy
  -- A page of the band that stays is deeper than every page given up.
  have hbelow : ∀ x ∈ band c a, x ∉ rest ++ srcs → ∀ y ∈ rest ++ srcs,
      c.depth x < c.depth y := by
    intro x hx hnot y hy
    rw [mem_append, not_or] at hnot
    by_cases hdst : x ∈ dsts
    · rcases mem_append.mp hy with hy | hy
      · exact hsplit x hdst y hy
      · exact hp.deeper y hy x hdst
    · have hfree : x ∉ a.freePhysPages := by
        rw [← (perm_holesFromDeep (c := c) _).mem_iff, ← hp.holes, mem_append]
        exact fun hmem => hmem.elim hdst hnot.1
      have hmem : x ∈ bandCandidates c a :=
        mem_candidates.mpr ⟨hx, hfree, by simp [h.pendingCpu, hnone]⟩
      rcases mem_append.mp hy with hy | hy
      · exact hpacked x hmem hnot.2 y hy
      · obtain ⟨kept, hkept⟩ := hp.first
        have hsorted : (bandCandidates c a).Pairwise fun x y => c.depth y < c.depth x :=
          pairwise_candidates
        rw [← hkept] at hmem hsorted
        exact (pairwise_append.mp hsorted).2.2 y hy x ((mem_append.mp hmem).resolve_left hnot.2)
  have hband : ∀ x ∈ rest ++ srcs, x ∈ band c a := fun x hx => ((hpool.mem_iff x).mp hx).1
  have hlength : (rest ++ srcs).length = a.freePhysPages.length := by
    rw [hp.length_holes, length_append, hp.length_eq, Nat.add_comm]
  have htop := mem_iff_of_upClosed ((rest ++ srcs).map c.depth) (width c a)
    (hpool.nodup.map fun x y heq => c.depth_inj.mp heq)
    (by
      intro d hd
      obtain ⟨x, hx, rfl⟩ := mem_map.mp hd
      exact (hband x hx).2)
    (by
      intro d hd e hde hew
      obtain ⟨x, hx, rfl⟩ := mem_map.mp hd
      refine mem_map.mpr ⟨c.pageAt e, ?_, c.depth_pageAt e⟩
      by_contra hnot
      have hx0 := (hband x hx).1
      have hmem : c.pageAt e ∈ band c a := by
        rw [mem_band_iff, c.depth_pageAt]
        omega
      have := hbelow _ hmem hnot x hx
      rw [c.depth_pageAt] at this
      omega)
    (c.depth p)
  rw [length_map, hlength] at htop
  rw [← htop, mem_map]
  constructor
  · intro hmem
    exact ⟨p, hmem, rfl⟩
  · rintro ⟨x, hx, heq⟩
    rwa [c.depth_inj.mp heq] at hx

/-- An urgent pass retreats past everything that is not bound. -/
theorem conserved_reclaimAll (hlazy : c.lazyCompaction = true) (hpend : a.pendingReuse = [])
    (htop : ∀ p, p ∈ rest ++ srcs ↔ width c a - a.freePhysPages.length ≤ c.depth p ∧
        c.depth p < width c a) :
    Conserved c (reclaimAll c (remapped a srcs dsts) a.watermarkPhysical
      a.freePhysPages.length) := by
  have hnone : pendingPages a = [] := by simp [pendingPages, hpend]
  have hfree : unboundPages a = a.freePhysPages := by simp [unboundPages, hnone]
  have hpool := hp.pool h
  rw [hnone, append_nil] at hpool
  have hlen : (a.freePhysPages.length : ℤ) ≤ width c a := by
    rw [← hfree]
    exact length_le_width h.width_nonneg h.pool.nodup fun p hp => ((h.pool.mem_iff p).mp hp).1
  have hwidth : width c (reclaimAll c (remapped a srcs dsts)
      a.watermarkPhysical a.freePhysPages.length) =
      width c a - a.freePhysPages.length := c.depth_retreat _ _
  have hempty : unboundPages (reclaimAll c (remapped a srcs dsts)
      a.watermarkPhysical a.freePhysPages.length) = [] := hnone
  have hheld : heldPages c (reclaimAll c (remapped a srcs dsts)
      a.watermarkPhysical a.freePhysPages.length) = heldPages c a := by
    rw [heldPages, hwidth, hempty, heldPages, hfree]
    simp only [length_nil]
    omega
  refine
    { pool := ?_
      width_nonneg := by omega
      width_le := ?_
      pendingCpu := h.pendingCpu
      keys_nodup := h.keys_nodup
      live := fun hl => (h.live hl).trans hheld.symm
      sorted := fun _ => List.Pairwise.nil
      eager := fun hfalse => by simp [hlazy] at hfalse
      toVirtualSide := (hp.virtualSide h).of_eq hheld }
  · rw [hempty]
    have hall : (rest ++ srcs).Perm ([] ++ (rest ++ srcs)) := List.Perm.refl _
    refine hpool.shrink hall fun p => ?_
    rw [htop, mem_band_iff, mem_band_iff, hwidth]
    omega
  · have := h.width_le
    omega

end Paired

/-! ## The exit of a partial pass -/

/-- The free list without the consumed destinations. -/
theorem mergeReleased_free (hp : Paired c a srcs dsts rest) (b : Allocator)
    (hb : b.freePhysPages = a.freePhysPages) (released : List ℤ) :
    (mergeReleased c b dsts.length released).freePhysPages.Perm (rest ++ released) ∧
      (a.freePhysPages.Pairwise (· ≤ ·) → c.sortFreeListAfterMerge = true →
        (mergeReleased c b dsts.length released).freePhysPages.Pairwise (· ≤ ·)) := by
  have hholes := hp.holes
  have hcut : ∃ cut : List ℤ, cut.Perm rest ∧ cut.Sublist a.freePhysPages ∧
      (mergeReleased c b dsts.length released).freePhysPages =
        if released = [] then cut else c.mergeFree cut released := by
    unfold mergeReleased Config.holesFromDeep at *
    rw [hb]
    cases hd : c.growDirection with
    | up =>
      simp only [hd] at hholes
      refine ⟨rest, List.Perm.refl _, ?_, ?_⟩
      · rw [← hholes]
        exact sublist_append_right _ _
      · rw [← hholes]
        simp
    | down =>
      simp only [hd] at hholes
      have hrev : a.freePhysPages = rest.reverse ++ dsts.reverse := by
        rw [← reverse_append, hholes, reverse_reverse]
      refine ⟨rest.reverse, reverse_perm _, ?_, ?_⟩
      · rw [hrev]
        exact sublist_append_left _ _
      · rw [hrev]
        simp
  obtain ⟨cut, hperm, hsub, heq⟩ := hcut
  rw [heq]
  by_cases hr : released = []
  · rw [if_pos hr, hr, append_nil]
    exact ⟨hperm, fun hs _ => hs.sublist hsub⟩
  · rw [if_neg hr]
    exact ⟨(c.perm_mergeFree _ _).trans (hperm.append_right _),
      fun _ hs => c.sorted_mergeFree hs _ _⟩

/-! ## The specification -/

/-- A partial pass does not run under an unfired event that already holds
pages. -/
def HeldEventFree (a : Allocator) (urgent : Bool) (q : FlushQueries) : Prop :=
  urgent = true ∨ ∀ e, a.latestForwardDoneEvent = some e →
    e ∈ a.pendingReuse.map Prod.fst → q.drain e = true ∨ q.commit e = true

/-- What a flush does. -/
structure FlushSpec (c : Config) (a : Allocator) (urgent : Bool)
    (r : FlushResult) : Prop where
  conserved : Conserved c r.alloc
  relocated : ∃ srcs dsts, Relocated c (band c a) a.virtualToPhysical
    r.alloc.virtualToPhysical srcs dsts r.moves
  ids : r.alloc.freeVirtualIds = a.freeVirtualIds
  width_le : width c r.alloc ≤ width c a
  urgent_empty : c.lazyCompaction = true → urgent = true →
    r.alloc.freePhysPages = [] ∧ r.alloc.pendingReuse = []
  latest : r.alloc.latestForwardDoneEvent = a.latestForwardDoneEvent
  live : r.alloc.livePageCount = a.livePageCount
  quiet : a.latestForwardDoneEvent = none → a.pendingReuse = [] → r.alloc.pendingReuse = []

theorem band_mono {b : Allocator} (h : width c b ≤ width c a) : band c b ⊆ band c a :=
  fun _ hp => ⟨hp.1, lt_of_lt_of_le hp.2 h⟩

theorem pending_eq_nil_of_urgent {entries : List (Event × List ℤ)} (q : FlushQueries) :
    (entries.filter fun e => !(q.drain e.1 || true)) = [] := by
  simp

/-- The keys of a dictionary do not change when a fresh key is assigned. -/
theorem assignEntry_of_notMem {e : Event} {pages : List ℤ}
    {entries : List (Event × List ℤ)} (he : e ∉ entries.map Prod.fst) :
    assignEntry e pages entries = entries ++ [(e, pages)] :=
  if_neg he

/-- The exit of a partial pass keeps the invariant. -/
theorem conserved_mergeReleased (hp : Paired c a srcs dsts rest) (h : Conserved c a)
    (hlazy : c.lazyCompaction = true) (hsorted : a.freePhysPages.Pairwise (· ≤ ·))
    (hb : Committed c a srcs dsts latest fired b) (hheld : ∀ e, latest = some e → fired e = false →
      e ∉ a.pendingReuse.map Prod.fst) :
    Conserved c (mergeReleased c b.alloc dsts.length b.released) := by
  cases hb with
  | settled =>
    obtain ⟨hperm, hsort⟩ := mergeReleased_free hp
      (remapped a srcs dsts) rfl srcs
    refine hp.conserved h hlazy ?_ h.pendingCpu h.keys_nodup (hsort hsorted)
    calc
      ((rest ++ pendingPages a) ++ srcs).Perm
          ((rest ++ srcs) ++ pendingPages a) := by
        rw [append_assoc, append_assoc]
        exact perm_append_comm.append_left _
      List.Perm _ _ := hperm.symm.append_right _
  | @pending e hlatest hfired hne =>
    have hfresh := hheld e hlatest hfired
    obtain ⟨hperm, hsort⟩ := mergeReleased_free hp
      { remapped a srcs dsts with
        pendingReuse := assignEntry e srcs a.pendingReuse
        pendingReusePagesCpu := a.pendingReusePagesCpu ∪ srcs.toFinset }
      rfl []
    rw [append_nil] at hperm
    have hpages : (assignEntry e srcs a.pendingReuse).flatMap Prod.snd =
        pendingPages a ++ srcs := by
      rw [assignEntry_of_notMem hfresh]
      simp [pendingPages]
    refine hp.conserved h hlazy ?_ ?_ ?_ (hsort hsorted)
    · rw [hpages, append_assoc]
      exact hperm.symm.append_right _
    · rw [hpages, h.pendingCpu, toFinset_append]
    · rw [assignEntry_of_notMem hfresh, map_append]
      refine h.keys_nodup.append (nodup_singleton _) ?_
      intro k hk hke
      have : k = e := by simpa using hke
      exact hfresh (this ▸ hk)

theorem flushWalk_spec (urgent : Bool) (q : FlushQueries) (h : Conserved c a)
    (hsorted : a.freePhysPages.Pairwise (· ≤ ·)) :
    ∃ w, walkLoop c q urgent (a.freePhysPages.length + 2)
        (walkStart c a (urgent && !a.freePhysPages.isEmpty)) = .ok w ∧
      WalkPaired c a (if urgent && !a.freePhysPages.isEmpty then none
        else a.latestForwardDoneEvent) w ∧
      (urgent = true → HolesAbove c w.alloc w.srcs w.dstRest) := by
  have hlen := (perm_holesFromDeep (c := c) a.freePhysPages).length_eq
  refine walkLoop_spec h hsorted _ _ _ (walkStart_paired _) (walkStart_at h.width_nonneg _) ?_ ?_
  · intro hu hne
    have hholes : a.freePhysPages ≠ [] := by
      intro hnil
      rw [hnil] at hlen
      exact hne ((congrArg c.holesFromDeep hnil).trans (length_eq_zero_iff.mp hlen))
    simp [walkStart, hu, hholes]
  · show (c.holesFromDeep a.freePhysPages).length < _
    omega

/-- A flush commits the moves of its walk and leaves by one of two exits. -/
theorem flush_eq {urgent : Bool} {q : FlushQueries} (hlazy : c.lazyCompaction = true)
    (hrun : walkLoop c q urgent ((flushPrepare c a urgent q).freePhysPages.length + 2)
      (walkStart c (flushPrepare c a urgent q)
        (urgent && !(flushPrepare c a urgent q).freePhysPages.isEmpty)) = .ok w)
    (hw : WalkPaired c (flushPrepare c a urgent q) latest w) {b : Commit}
    (hb : b = commitMoveBatch c w.alloc w.srcs w.dsts w.vMoveds w.latestEvent q.commit) :
    ∃ n, flush c a urgent q = .ok
      ⟨if urgent && !w.alloc.freePhysPages.isEmpty then
          reclaimAll c b.alloc w.alloc.watermarkPhysical w.alloc.freePhysPages.length
        else mergeReleased c b.alloc w.dsts.length b.released, b.moves, n⟩ := by
  subst hb
  obtain ⟨x, hx⟩ := hw.alloc_eq
  have hcount : (flushPrepare c a urgent q).freePhysPages.length - w.dstRest.length =
      w.dsts.length := by
    have := hw.paired.length_holes
    rw [hx] at this
    simp only at this
    omega
  refine ⟨w.nMoves + w.srcs.length, ?_⟩
  unfold flush
  rw [if_neg (by simp [hlazy])]
  dsimp only
  rw [hrun]
  simp only [Walk.commit, hw.moves, hw.released, hcount, nil_append, hx]

/-- The exit of an urgent flush with interior holes. -/
theorem reclaimAll_spec (h : Conserved c a) (hlazy : c.lazyCompaction = true)
    (hsorted : a.freePhysPages.Pairwise (· ≤ ·)) (hpend : a.pendingReuse = [])
    (hp : Paired c a srcs dsts rest) (hpacked : HolesAbove c a srcs rest) (urgent : Bool) (n : ℕ) :
    FlushSpec c a urgent ⟨reclaimAll c (remapped a srcs dsts) a.watermarkPhysical
      a.freePhysPages.length, copyMoves c srcs dsts, n⟩ where
  conserved := hp.conserved_reclaimAll h hlazy hpend (hp.mem_top h hpend hpacked
    (holesFromDeep_pairwise hsorted (nodup_append.mp h.pool.nodup).1))
  relocated := ⟨srcs, dsts, hp.relocated h⟩
  ids := rfl
  width_le := by
    show c.depth (c.retreat _ _) ≤ _
    rw [c.depth_retreat]
    exact Int.sub_le_self _ (by omega)
  urgent_empty := fun _ _ => ⟨rfl, hpend⟩
  latest := rfl
  live := rfl
  quiet := fun _ _ => hpend

/-- The exit of a partial pass, and of an urgent one without holes. -/
theorem mergeReleased_spec {urgent : Bool} (h : Conserved c a) (hlazy : c.lazyCompaction = true)
    (hsorted : a.freePhysPages.Pairwise (· ≤ ·)) (hp : Paired c a srcs dsts rest)
    (hb : Committed c a srcs dsts a.latestForwardDoneEvent fired b)
    (hheld : ∀ e, a.latestForwardDoneEvent = some e → fired e = false →
      e ∉ a.pendingReuse.map Prod.fst)
    (hurgent : urgent = true → a.freePhysPages = [] ∧ a.pendingReuse = []) (n : ℕ) :
    FlushSpec c a urgent ⟨mergeReleased c b.alloc dsts.length b.released, b.moves, n⟩ := by
  have hcons := conserved_mergeReleased hp h hlazy hsorted hb hheld
  have hempty : a.freePhysPages = [] → srcs = [] ∧ rest = [] := by
    intro hnil
    have hlen := hp.length_holes
    have hsame := hp.length_eq
    rw [hnil, length_nil] at hlen
    exact ⟨length_eq_zero_iff.mp (by omega), length_eq_zero_iff.mp (by omega)⟩
  cases hb with
  | settled =>
    refine ⟨hcons, ⟨srcs, dsts, hp.relocated h⟩, rfl, le_rfl, ?_, rfl, rfl, fun _ hpend => hpend⟩
    intro _ hu
    obtain ⟨hfree, hpend⟩ := hurgent hu
    obtain ⟨hsrcs, hrest⟩ := hempty hfree
    have hperm := (mergeReleased_free hp (remapped a srcs dsts) rfl srcs).1
    rw [hrest, hsrcs, append_nil] at hperm
    exact ⟨by rw [hsrcs]; exact hperm.eq_nil, hpend⟩
  | pending hlatest _ hne =>
    refine ⟨hcons, ⟨srcs, dsts, hp.relocated h⟩, rfl, le_rfl, ?_, rfl, rfl, ?_⟩
    · exact fun _ hu => absurd (hempty (hurgent hu).1).1 hne
    · intro hnone
      rw [hlatest] at hnone
      cases hnone

/-- What the preparation changed does not matter to a flush. -/
theorem FlushSpec.of_prepared {a₀ : Allocator} {urgent : Bool} {r : FlushResult}
    {p : Event × List ℤ → Bool} {free : List ℤ} {cpu : Finset ℤ} {wm : ℤ}
    {x : Option (Event × List ℤ)} (h : FlushSpec c a₀ urgent r) (hwidth : width c a₀ ≤ width c a)
    (heq : a₀ = { a with
      watermarkPhysical := wm, freePhysPages := free, pendingReuse := a.pendingReuse.filter p
      pendingReusePagesCpu := cpu, inflightForward := x }) : FlushSpec c a urgent r := by
  obtain ⟨srcs, dsts, hrel⟩ := h.relocated
  have hrel' := hrel.mono (band_mono hwidth)
  subst heq
  refine { h with
    relocated := ⟨srcs, dsts, hrel'⟩
    width_le := h.width_le.trans hwidth
    quiet := fun hlatest hpend => h.quiet hlatest ?_ }
  show a.pendingReuse.filter p = []
  rw [hpend]
  rfl

/-- A flush succeeds and keeps the invariant. -/
theorem flush_spec {urgent : Bool} {q : FlushQueries} (h : Conserved c a)
    (hheld : HeldEventFree a urgent q) :
    ∃ r, flush c a urgent q = .ok r ∧ FlushSpec c a urgent r := by
  by_cases hlazy : c.lazyCompaction = true
  · have hprep := flushPrepare_prepared h hlazy urgent q
    obtain ⟨w, hrun, hw, hpacked⟩ := flushWalk_spec urgent q hprep.conserved hprep.sorted
    have hb := commitMoveBatch_committed (c := c) (a := w.alloc) hw.paired.length_eq w.latestEvent
      q.commit
    rw [← hw.vMoveds] at hb
    obtain ⟨n, hflush⟩ := flush_eq hlazy hrun hw rfl
    have hlatest := hw.latest_eq
    obtain ⟨x, hx⟩ := hw.alloc_eq
    obtain ⟨wm, free, cpu, hsame⟩ := hprep.same
    have h₁ : Conserved c w.alloc := hx ▸ hprep.conserved.setEvents _ _
    have hsorted : w.alloc.freePhysPages.Pairwise (· ≤ ·) := by
      rw [hx]
      exact hprep.sorted
    have hwidth : width c w.alloc ≤ width c a := by
      rw [hx]
      exact hprep.width_le
    rw [hsame] at hx hlatest
    refine ⟨_, hflush, FlushSpec.of_prepared ?_ hwidth hx⟩
    have hpend : w.alloc.pendingReuse =
        a.pendingReuse.filter fun e => !(q.drain e.1 || urgent) := by rw [hx]
    have hdrained : urgent = true → w.alloc.pendingReuse = [] := by
      intro hu
      rw [hpend, hu]
      exact pending_eq_nil_of_urgent q
    have hfree : w.alloc.freePhysPages = free := by rw [hx]
    have hlast : w.alloc.latestForwardDoneEvent = a.latestForwardDoneEvent := by rw [hx]
    dsimp only at hlatest
    rw [← hfree] at hlatest
    split
    · rename_i hsingle
      rw [if_pos hsingle] at hlatest
      rw [Bool.and_eq_true] at hsingle
      rw [hlatest] at hb ⊢
      rw [hb.eq_of_latest_none]
      exact reclaimAll_spec h₁ hlazy hsorted (hdrained hsingle.1) hw.paired (hpacked hsingle.1) _ _
    · rename_i hsingle
      rw [if_neg hsingle, ← hlast] at hlatest
      rw [hlatest] at hb ⊢
      refine mergeReleased_spec h₁ hlazy hsorted hw.paired hb ?_ ?_ _
      · intro e he hfired hmem
        rw [hpend] at hmem
        obtain ⟨entry, hentry, rfl⟩ := mem_map.mp hmem
        obtain ⟨hxa, hxq⟩ := mem_filter.mp hentry
        rcases hheld with hu | hheld
        · simp [hu] at hxq
        · have hkey := hheld entry.1 (hlast ▸ he) (mem_map_of_mem hxa)
          simp [hfired] at hkey
          simp [hkey] at hxq
      · intro hu
        refine ⟨?_, hdrained hu⟩
        simpa [hu] using hsingle
  · refine ⟨⟨a, [], 0⟩, by simp [flush, hlazy], ?_⟩
    exact
      { conserved := h
        relocated := ⟨[], [], Relocated.refl _ _⟩
        ids := rfl
        width_le := le_rfl
        urgent_empty := fun hl => absurd hl hlazy
        latest := rfl
        live := rfl
        quiet := fun _ hpend => hpend }

end Sglang.MultiEnded
