import Sglang.MultiEnded.Band

/-!
# Taking pages

`_alloc_bind_fast_or_slow` takes `n` pages, holes first and the rest by
extending the watermark, and binds them to the given virtual pages.
-/

namespace Sglang.MultiEnded

open Sglang.Support Sglang.PagedAlloc Sglang.UnifiedPool List

variable {c : Config} {a a' : Allocator} {peer : Peer} {m n : ℕ} {ps vs : List ℤ} {q : FlushQueries}
  {r : AllocResult}

/-- The allocator with its watermark advanced by `m` pages. -/
def advanced (c : Config) (a : Allocator) (m : ℕ) : Allocator :=
  { a with watermarkPhysical := c.advance a.watermarkPhysical m }

theorem advanced_zero : advanced c a 0 = a := by
  simp [advanced, c.advance_zero]

/-- The `m` pages just past the watermark, as an extension hands them out. -/
def freshPages (c : Config) (a : Allocator) (m : ℕ) : List ℤ := extendedPages c (advanced c a m) m

theorem mem_freshPages {p : ℤ} : p ∈ freshPages c a m ↔
      width c a ≤ c.depth p ∧ c.depth p < width c a + m := by
  unfold freshPages extendedPages advanced width Config.advance Config.depth
  cases c.growDirection with
  | up => simp only [mem_pageRange]; omega
  | down => simp only [mem_reverse, mem_pageRange]; omega

theorem nodup_freshPages (m : ℕ) : (freshPages c a m).Nodup := by
  unfold freshPages extendedPages
  cases c.growDirection with
  | up => exact nodup_pageRange _ _
  | down => exact nodup_reverse.mpr (nodup_pageRange _ _)

theorem length_freshPages (m : ℕ) : (freshPages c a m).length = m := by
  unfold freshPages extendedPages
  cases c.growDirection <;> simp

theorem freshPages_zero : freshPages c a 0 = [] := length_eq_zero_iff.mp (length_freshPages 0)

/-- The ascending run bound by the fast path. -/
theorem perm_freshPages_startPhys (n : ℕ) : (pageRange (startPhys c a.watermarkPhysical n)
      (startPhys c a.watermarkPhysical n + n)).Perm (freshPages c a n) := by
  refine (perm_ext_iff_of_nodup (nodup_pageRange _ _) (nodup_freshPages n)).mpr ?_
  intro p
  rw [mem_freshPages, mem_pageRange]
  unfold startPhys width Config.depth
  cases c.growDirection <;> simp only <;> omega

theorem extendWatermarkEager_some (h : extendWatermarkEager c a n = some a') :
    a' = advanced c a n ∧ width c a + n ≤ c.capacity := by
  unfold extendWatermarkEager at h
  unfold advanced Config.advance width Config.depth Config.capacity
  cases hd : c.growDirection with
  | up =>
    simp only [hd] at h ⊢
    split at h
    · simp at h
    · exact ⟨(Option.some.inj h).symm, by omega⟩
  | down =>
    simp only [hd] at h ⊢
    split at h
    · simp at h
    · exact ⟨(Option.some.inj h).symm, by omega⟩

/-- The lazy extension makes the index check of the eager one, and more. -/
theorem extendWatermarkEager_of_extendWatermark (h : extendWatermark c a peer n = some a') :
    extendWatermarkEager c a n = some a' := by
  unfold extendWatermark at h
  unfold extendWatermarkEager
  grind

theorem drainFree_spec (free : List ℤ) (n : ℕ) (hn : n ≤ free.length) :
    ((drainFree c free n).2 ++ (drainFree c free n).1).Perm free ∧
      (drainFree c free n).2.Sublist free ∧ (drainFree c free n).1.length = n := by
  have hfront : (free.drop n ++ free.take n).Perm free :=
    perm_append_comm.trans (by rw [take_append_drop])
  unfold drainFree
  split
  · refine ⟨?_, take_sublist _ _, ?_⟩
    · calc
        (free.take (free.length - n) ++
            (free.drop (free.length - n)).reverse).Perm
            (free.take (free.length - n) ++ free.drop (free.length - n)) :=
          (reverse_perm _).append_left _
        _ = free := take_append_drop _ _
    · simp only [length_reverse, length_drop]
      omega
  · exact ⟨hfront, drop_sublist _ _, by simp [hn]⟩

/-- The state after binding `vs` to the pages `ps`: the watermark has advanced
by `m`, and `rest` and `ids` are what remains of the two free lists. -/
def boundState (c : Config) (a : Allocator) (vs ps rest ids : List ℤ)
    (m n : ℕ) : Allocator :=
  { advanced c a m with
    freeVirtualIds := ids
    virtualToPhysical := scatter a.virtualToPhysical vs ps
    physicalToVirtual := scatter a.physicalToVirtual ps vs
    freePhysPages := rest
    livePageCount := if c.lazyCompaction then a.livePageCount + n else a.livePageCount }

/-- The pages of a successful take: holes first, then a fresh extension. -/
structure TakenPages (c : Config) (a : Allocator) (ps rest : List ℤ)
    (m n : ℕ) : Prop where
  length_eq : ps.length = n
  perm : (rest ++ ps).Perm (a.freePhysPages ++ freshPages c a m)
  sublist : rest.Sublist a.freePhysPages
  extension : m = n - a.freePhysPages.length
  room : m = 0 ∨ width c a + m ≤ c.capacity

theorem takePhysicalPages_spec (hs : takePhysicalPages c a peer n = some (a', ps)) : ∃ rest,
      a' = { advanced c a (n - a.freePhysPages.length) with
        freePhysPages := rest
        livePageCount := a.livePageCount + n } ∧
      TakenPages c a ps rest (n - a.freePhysPages.length) n := by
  have hmore : n - min n a.freePhysPages.length = n - a.freePhysPages.length := by omega
  have hle : min n a.freePhysPages.length ≤ a.freePhysPages.length := min_le_right _ _
  obtain ⟨hperm, hsub, hlength⟩ := drainFree_spec (c := c) _ _ hle
  unfold takePhysicalPages at hs
  dsimp only at hs
  rw [hmore] at hs
  have hext : ∀ e, (if n - a.freePhysPages.length > 0 then
        extendWatermark c a peer (n - a.freePhysPages.length)
      else some a) = some e →
      e = advanced c a (n - a.freePhysPages.length) ∧
      (n - a.freePhysPages.length = 0 ∨
        width c a + ↑(n - a.freePhysPages.length) ≤ c.capacity) := by
    intro e he
    by_cases hpos : n - a.freePhysPages.length > 0
    · rw [if_pos hpos] at he
      obtain ⟨heq, hroom⟩ := extendWatermarkEager_some (extendWatermarkEager_of_extendWatermark he)
      exact ⟨heq, Or.inr hroom⟩
    · rw [if_neg hpos] at he
      have hzero : n - a.freePhysPages.length = 0 := by omega
      rw [hzero]
      exact ⟨by rw [advanced_zero, Option.some.inj he], Or.inl rfl⟩
  split at hs
  · simp at hs
  · rename_i e he
    obtain ⟨rfl, hroom⟩ := hext e he
    obtain ⟨rfl, rfl⟩ := Prod.mk.inj (Option.some.inj hs)
    refine ⟨_, rfl, ⟨?_, ?_, hsub, rfl, hroom⟩⟩
    · calc
        _ = min n a.freePhysPages.length + (n - a.freePhysPages.length) := by
          rw [length_append]
          exact congrArg₂ (· + ·) hlength (length_freshPages (n - a.freePhysPages.length))
        _ = n := by omega
    · rw [← append_assoc]
      exact hperm.append_right _

theorem allocBindFastOrSlow_spec (h : Conserved c a) (hlen : vs.length = n)
    (hs : allocBindFastOrSlow c a peer vs n = some a') : ∃ (m : ℕ) (ps rest : List ℤ),
      a' = boundState c a vs ps rest a.freeVirtualIds m n ∧ TakenPages c a ps rest m n := by
  unfold allocBindFastOrSlow at hs
  by_cases hn : n = 0
  · rw [if_pos hn] at hs
    obtain rfl : a = a' := Option.some.inj hs
    obtain rfl : vs = [] := length_eq_zero_iff.mp (hlen.trans hn)
    subst hn
    refine ⟨0, [], a.freePhysPages, ?_, ⟨rfl, ?_, List.Sublist.refl _, ?_, ?_⟩⟩
    · simp [boundState, scatter, advanced_zero]
    · simp [freshPages_zero]
    · omega
    · exact Or.inl rfl
  rw [if_neg hn] at hs
  by_cases hfast : ¬ c.lazyCompaction ∨ a.freePhysPages = []
  · have hfree : a.freePhysPages = [] := by
      rcases hfast with hlazy | hfree
      · exact (h.eager (by simpa using hlazy)).1
      · exact hfree
    rw [if_pos hfast] at hs
    have hext : ∀ e, (if c.lazyCompaction = true then extendWatermark c a peer n
        else extendWatermarkEager c a n) = some e →
        extendWatermarkEager c a n = some e := by
      intro e he
      by_cases hlazy : c.lazyCompaction = true
      · rw [if_pos hlazy] at he
        exact extendWatermarkEager_of_extendWatermark he
      · rwa [if_neg hlazy] at he
    dsimp only at hs
    split at hs
    · simp at hs
    · rename_i e he
      obtain ⟨rfl, hroom⟩ := extendWatermarkEager_some (hext e he)
      refine ⟨n, pageRange (startPhys c a.watermarkPhysical n)
        (startPhys c a.watermarkPhysical n + vs.length), [], ?_,
        ⟨by simp [hlen], ?_, nil_sublist _, by simp [hfree], Or.inr hroom⟩⟩
      · rw [← Option.some.inj hs]
        by_cases hlazy : c.lazyCompaction = true
        · simp [boundState, MultiEnded.bind, advanced, hlazy, hfree]
        · simp [boundState, MultiEnded.bind, advanced, hlazy, hfree]
      · rw [hlen, hfree]
        exact perm_freshPages_startPhys n
  · rw [if_neg hfast] at hs
    have hlazy : c.lazyCompaction = true := by
      by_contra hnot
      exact hfast (Or.inl (by simpa using hnot))
    cases htake : takePhysicalPages c a peer n with
    | none => simp [htake] at hs
    | some taken =>
      obtain ⟨a₁, ps⟩ := taken
      simp only [htake, Option.some.injEq] at hs
      obtain ⟨rest, rfl, hpages⟩ := takePhysicalPages_spec htake
      refine ⟨_, ps, rest, ?_, hpages⟩
      rw [← hs]
      simp [boundState, MultiEnded.bind, advanced, hlazy]

/-! ## The invariant after a take -/

theorem width_advanced (m : ℕ) : width c (advanced c a m) = width c a + m := c.depth_advance _ _

/-- Fresh pages lie outside the band and are never the sink or null. -/
theorem freshPages_outside (h : Conserved c a) (hroom : m = 0 ∨ width c a + m ≤ c.capacity) :
    ∀ p ∈ freshPages c a m, p ∉ band c a ∧ p ≠ 0 ∧ p ≠ -1 := by
  intro p hp
  rw [mem_freshPages] at hp
  have hwidth := h.width_nonneg
  have hpos : 0 < p := c.page_pos (by omega) (by omega)
  refine ⟨?_, by omega, by omega⟩
  intro hband
  rw [mem_band_iff] at hband
  omega

theorem TakenPages.perm_unbound {rest : List ℤ} (ht : TakenPages c a ps rest m n) :
    ((rest ++ pendingPages a) ++ ps).Perm (unboundPages a ++ freshPages c a m) := by
  calc
    ((rest ++ pendingPages a) ++ ps).Perm
        ((rest ++ ps) ++ pendingPages a) := by
      rw [append_assoc, append_assoc]
      exact perm_append_comm.append_left _
    List.Perm _ ((a.freePhysPages ++ freshPages c a m) ++ pendingPages a) := ht.perm.append_right _
    List.Perm _ (unboundPages a ++ freshPages c a m) := by
      rw [unboundPages, append_assoc, append_assoc]
      exact perm_append_comm.append_left _

/-- Binding `vs` to the taken pages keeps the invariant. The free ids become
`ids`, a part of the old ones without `vs`. -/
theorem Conserved.boundState {rest ids : List ℤ}
    (h : Conserved c a) (ht : TakenPages c a ps rest m n)
    (hlen : vs.length = n) (hvs : vs.Nodup) (hpos : ∀ v ∈ vs, 0 < v)
    (hfree : ∀ v ∈ vs, a.virtualToPhysical v = -1)
    (hids : ids.Sublist a.freeVirtualIds) (hdisj : ∀ v ∈ vs, v ∉ ids)
    (henough : a.freeVirtualIds.length ≤ ids.length + n) :
    Conserved c (boundState c a vs ps rest ids m n) := by
  have hna : (-1 : ℤ) ∉ vs := fun hmem => by
    have := hpos _ hmem
    omega
  have hwidth : width c (MultiEnded.boundState c a vs ps rest ids m n) =
      width c a + m := width_advanced m
  have hlength : ((rest ++ pendingPages a).length : ℤ) =
      (unboundPages a).length + m - n := by
    have hperm := ht.perm_unbound.length_eq
    have hps := ht.length_eq
    have hnew := length_freshPages (c := c) (a := a) m
    simp only [length_append] at hperm ⊢
    omega
  have hzero := h.width_nonneg
  have hfresh := freshPages_outside h ht.room
  have hband : ∀ p, p ∈ band c (MultiEnded.boundState c a vs ps rest ids m n) ↔
      p ∈ band c a ∨ p ∈ freshPages c a m := by
    intro p
    rw [mem_band_iff, hwidth, mem_band_iff, mem_freshPages]
    omega
  have hpool := h.pool.take ht.perm_unbound hband
    hfresh (nodup_freshPages m) hvs (hlen.trans ht.length_eq.symm) hfree hna
  have hps : (0 : ℤ) ∉ ps := by
    intro hmem
    have hunbound := ht.perm_unbound.mem_iff.mp (mem_append_right _ hmem)
    rcases mem_append.mp hunbound with hold | hnew
    · exact (h.pool.outside 0 ((h.pool.mem_iff 0).mp hold).1).1 rfl
    · exact (hfresh 0 hnew).2.1 rfl
  have hv2p : ∀ v, v ∉ vs →
      scatter a.virtualToPhysical vs ps v = a.virtualToPhysical v :=
    fun v hv => scatter_of_notMem hv
  have hheld : heldPages c (MultiEnded.boundState c a vs ps rest ids m n) =
      heldPages c a + n := by
    rw [heldPages, hwidth, heldPages]
    show _ - ((rest ++ pendingPages a).length : ℤ) = _
    omega
  refine
    { pool := hpool
      width_nonneg := by omega
      width_le := ?_
      pendingCpu := h.pendingCpu
      keys_nodup := h.keys_nodup
      live := ?_
      sorted := fun hs => (h.sorted hs).sublist ht.sublist
      eager := ?_
      anchor := ?_
      sink := ?_
      bound_nonneg := ?_
      ids_nodup := h.ids_nodup.sublist hids
      ids_pos := fun v hv => h.ids_pos v (hids.subset hv)
      ids_unbound := ?_
      ids_enough := ?_ }
  · intro v hv
    by_cases hmem : v ∈ vs
    · have hzip := mem_zip_scatter (t := a.virtualToPhysical) (hlen.trans ht.length_eq.symm) hmem
      exact absurd (hv ▸ (of_mem_zip hzip).2) hps
    · exact h.anchor v (by rwa [← hv2p v hmem])
  · exact (hv2p 0 fun hmem => (hpos 0 hmem).ne rfl).trans_le h.sink
  · intro v hv
    by_cases hmem : v ∈ vs
    · exact (hpos v hmem).le
    · exact h.bound_nonneg v (by rwa [← hv2p v hmem])
  · intro v hv
    have hnot : v ∉ vs := fun hmem => hdisj v hmem hv
    exact (hv2p v hnot).trans (h.ids_unbound v (hids.subset hv))
  · intro hown
    have := h.ids_enough hown
    rw [hheld]
    show _ ≤ (ids.length : ℤ) + _
    omega
  · rw [hwidth]
    rcases ht.room with hm | hroom
    · subst hm
      simpa using h.width_le
    · exact Or.inr hroom
  · intro hlazy
    show (if c.lazyCompaction = true then a.livePageCount + n else a.livePageCount) = _
    rw [if_pos hlazy, h.live hlazy, hheld]
  · intro hlazy
    obtain ⟨hf, hp⟩ := h.eager hlazy
    have hrest : rest.Sublist [] := hf ▸ ht.sublist
    exact ⟨sublist_nil.mp hrest, hp⟩

/-! ## The `alloc*` entry points -/

/-- What a side reports: its holes plus the extension that fits both the byte gap
and the index space. -/
theorem availableTokens_eq (h : Conserved c a) (x : ℤ) : availableTokens c a peer x =
    (min ((currentGapBytes c a peer + x) / (c.entryBytesPerPage : ℤ)) (c.capacity - width c a) +
      a.freePhysPages.length) * c.pageSize := by
  have hdrain : (if c.lazyCompaction = true then
      (a.freePhysPages.length : ℤ) else 0) = a.freePhysPages.length := by
    by_cases hlazy : c.lazyCompaction = true
    · rw [if_pos hlazy]
    · rw [if_neg hlazy, (h.eager (by simpa using hlazy)).1]
      rfl
  unfold availableTokens
  simp only [hdrain]
  rw [allocatedPages_eq, max_eq_right h.width_nonneg]
  rfl

theorem le_availableTokens_iff (h : Conserved c a) {x : ℤ} :
    (n : ℤ) * c.pageSize ≤ availableTokens c a peer x ↔
      (n : ℤ) ≤ min ((currentGapBytes c a peer + x) / (c.entryBytesPerPage : ℤ))
        (c.capacity - width c a) + a.freePhysPages.length := by
  rw [availableTokens_eq h]
  exact mul_le_mul_iff_left₀ c.pageSize_pos_int

/-- Pages the capacity gate lets through. -/
theorem le_availableSize_iff (h : Conserved c a) : (n : ℤ) * c.pageSize ≤ availableSize c a peer ↔
      (n : ℤ) ≤ min (currentGapBytes c a peer / (c.entryBytesPerPage : ℤ))
        (c.capacity - width c a) + a.freePhysPages.length := by
  rw [availableSize, le_availableTokens_iff h, add_zero]

/-- There are always enough free virtual ids for what the gate admits. -/
theorem ids_length_of_gate (h : Conserved c a) (hown : c.isIdOwner = true)
    (hgate : (n : ℤ) * c.pageSize ≤ availableSize c a peer) : n ≤ a.freeVirtualIds.length := by
  have hpages := (le_availableSize_iff h).mp hgate
  have hids := h.ids_enough hown
  rw [heldPages] at hids
  have hindex := min_le_right
    (currentGapBytes c a peer / (c.entryBytesPerPage : ℤ))
    (c.capacity - width c a)
  have hfree : (a.freePhysPages.length : ℤ) ≤ (unboundPages a).length := by simp [unboundPages]
  omega

theorem consumeVirtual_spec (h : Conserved c a) (hn : n ≤ a.freeVirtualIds.length)
    (hs : consumeVirtual c a peer n = some a') : ∃ (m : ℕ) (ps rest : List ℤ),
      a' = boundState c a (a.freeVirtualIds.take n) ps rest
        (a.freeVirtualIds.drop n) m n ∧ TakenPages c a ps rest m n := by
  have hlen : (a.freeVirtualIds.take n).length = n := by simp [hn]
  unfold consumeVirtual at hs
  dsimp only at hs
  split at hs
  · simp at hs
  · rename_i b hb
    obtain ⟨m, ps, rest, rfl, ht⟩ := allocBindFastOrSlow_spec h hlen hb
    exact ⟨m, ps, rest, (Option.some.inj hs).symm, ht⟩

theorem Conserved.consumeVirtual (h : Conserved c a) (hn : n ≤ a.freeVirtualIds.length)
    (hs : consumeVirtual c a peer n = some a') : Conserved c a' := by
  obtain ⟨m, ps, rest, rfl, ht⟩ := consumeVirtual_spec h hn hs
  have hsub : ∀ v ∈ a.freeVirtualIds.take n, v ∈ a.freeVirtualIds :=
    fun v hv => (take_sublist _ _).subset hv
  have hdisj : List.Disjoint (a.freeVirtualIds.take n)
      (a.freeVirtualIds.drop n) := by
    apply disjoint_of_nodup_append
    rw [take_append_drop]
    exact h.ids_nodup
  refine h.boundState ht (by simp [hn])
    (h.ids_nodup.sublist (take_sublist _ _))
    (fun v hv => h.ids_pos v (hsub v hv))
    (fun v hv => h.ids_unbound v (hsub v hv)) (drop_sublist _ _)
    (fun v hv hd => hdisj hv hd) ?_
  simp only [length_drop]
  omega

/-- What a gate does to the peer: nothing, or one urgent flush. -/
inductive PeerOutcome : Peer → Peer → List KvMove → Prop
  | same (peer : Peer) : PeerOutcome peer peer []
  | flushed {cp : Config} {p : Allocator} {q : FlushQueries} {r : FlushResult}
      (h : flush cp p true q = .ok r) :
      PeerOutcome (some (cp, p)) (some (cp, r.alloc)) r.moves

theorem capacityGate_ok {need : ℤ} {peer' : Peer} {moves : List KvMove} {enough : Bool}
    (h : capacityGate c a peer need q = .ok (peer', moves, enough)) : PeerOutcome peer peer' moves ∧
      (enough = true → need ≤ availableSize c a peer') := by
  unfold capacityGate at h
  by_cases hgate : need > availableSize c a peer
  · rw [if_pos hgate] at h
    unfold flushPeerForAlloc at h
    split at h
    · split at h
      · simp at h
      · rename_i hr
        simp only [Except.ok.injEq, Prod.mk.injEq] at h
        obtain ⟨rfl, rfl, rfl⟩ := h
        exact ⟨PeerOutcome.flushed hr, by simp⟩
    · simp only [Except.ok.injEq, Prod.mk.injEq] at h
      obtain ⟨rfl, rfl, rfl⟩ := h
      exact ⟨PeerOutcome.same _, by simp⟩
  · rw [if_neg hgate] at h
    simp only [Except.ok.injEq, Prod.mk.injEq] at h
    obtain ⟨rfl, rfl, rfl⟩ := h
    exact ⟨PeerOutcome.same peer, fun _ => not_lt.mp hgate⟩

/-- What a call of `alloc*` does when it returns: the peer may be flushed, and
this side is unchanged or consumes pages that the gate admits. -/
structure AllocOutcome (c : Config) (a : Allocator) (peer : Peer)
    (r : AllocResult) (peer' : Peer) : Prop where
  peer_outcome : PeerOutcome peer peer' r.peerMoves
  peer_eq : r.peer = peer'.map Prod.snd
  alloc_eq : r.alloc = a ∨ (c.isIdOwner = true ∧ ∃ n : ℕ,
    (n : ℤ) * c.pageSize ≤ availableSize c a peer' ∧
      MultiEnded.consumeVirtual c a peer' n = some r.alloc)

theorem alloc_pages {need : ℕ} (h : alloc c a peer need q = .ok r) :
    ((need / c.pageSize : ℕ) : ℤ) * c.pageSize = need := by
  unfold alloc at h
  split at h
  · simp at h
  split at h
  · rename_i hzero
    simp [hzero]
  split at h
  · simp at h
  rename_i hmod
  exact_mod_cast Nat.div_mul_cancel (Nat.dvd_of_mod_eq_zero (by simpa using hmod))

/-- How an `alloc*` call for `n` pages returns: before the gate, refused by it or
by the watermark, or with the ids `out` and `n` virtual pages bound. -/
inductive AllocCase (c : Config) (a : Allocator) (peer : Peer) (n : ℕ) (out : List ℤ)
    (q : FlushQueries) : AllocResult → Prop
  | early {ids : Option (List ℤ)} (h : ∀ l, ids = some l → n = 0 ∧ l = out) :
      AllocCase c a peer n out q ⟨a, peer.map Prod.snd, [], ids⟩
  | refused {peer' : Peer} {moves : List KvMove} {enough : Bool}
      (gate : capacityGate c a peer ((n : ℤ) * c.pageSize) q = .ok (peer', moves, enough)) :
      AllocCase c a peer n out q ⟨a, peer'.map Prod.snd, moves, none⟩
  | bound {peer' : Peer} {moves : List KvMove} {a' : Allocator}
      (owner : c.isIdOwner = true)
      (gate : capacityGate c a peer ((n : ℤ) * c.pageSize) q = .ok (peer', moves, true))
      (h : consumeVirtual c a peer' n = some a') :
      AllocCase c a peer n out q ⟨a', peer'.map Prod.snd, moves, some out⟩

theorem alloc_cases {need : ℕ} (h : alloc c a peer need q = .ok r) :
    AllocCase c a peer (need / c.pageSize)
      (expandPages c.pageSize (a.freeVirtualIds.take (need / c.pageSize))) q r := by
  have hneed := alloc_pages h
  unfold alloc at h
  split at h
  · simp at h
  rename_i hown
  split at h
  · rename_i hzero
    obtain rfl := Except.ok.inj h
    exact .early fun _ hnil => by simp_all [expandPages]
  split at h
  · simp at h
  rw [← hneed] at h
  split at h
  · simp at h
  · rename_i hg
    obtain rfl := Except.ok.inj h
    exact .refused hg
  · rename_i hg
    dsimp only at h
    split at h
    · obtain rfl := Except.ok.inj h
      exact .refused hg
    · rename_i hc
      obtain rfl := Except.ok.inj h
      exact .bound (by simpa using hown) hg hc

theorem allocPaged_cases {sortBound : ℕ} {out : List ℤ}
    (h : allocPaged c a peer n sortBound out q = .ok r) : AllocCase c a peer n out q r := by
  unfold allocPaged at h
  split at h
  · simp at h
  rename_i hown
  split at h
  · obtain rfl := Except.ok.inj h
    exact .early fun _ hnone => by simp at hnone
  split at h
  · simp at h
  · rename_i hg
    obtain rfl := Except.ok.inj h
    exact .refused hg
  · rename_i hg
    split at h
    · simp at h
    split at h
    · obtain rfl := Except.ok.inj h
      exact .refused hg
    · rename_i hc
      obtain rfl := Except.ok.inj h
      exact .bound (by simpa using hown) hg hc

/-- `alloc` behind a gate that passes. -/
theorem alloc_of_gate {peer' : Peer} {moves : List KvMove} (hown : c.isIdOwner = true) (hn : n ≠ 0)
    (hg : capacityGate c a peer ((n * c.pageSize : ℕ) : ℤ) q = .ok (peer', moves, true))
    (hc : consumeVirtual c a peer' n = some a') : alloc c a peer (n * c.pageSize) q =
      .ok ⟨a', peer'.map Prod.snd, moves,
        some (expandPages c.pageSize (a.freeVirtualIds.take n))⟩ := by
  have hpos := Nat.mul_pos (Nat.pos_of_ne_zero hn) c.pageSize_pos
  unfold alloc
  rw [if_neg (by simp [hown]), if_neg hpos.ne', if_neg (by simp), hg]
  simp only [Nat.mul_div_cancel n c.pageSize_pos, hc]

theorem AllocCase.outcome {out : List ℤ} (h : AllocCase c a peer n out q r) :
    ∃ peer', AllocOutcome c a peer r peer' := by
  cases h with
  | early => exact ⟨peer, PeerOutcome.same peer, rfl, Or.inl rfl⟩
  | refused gate => exact ⟨_, (capacityGate_ok gate).1, rfl, Or.inl rfl⟩
  | bound owner gate hc =>
    obtain ⟨hpeer, hgate⟩ := capacityGate_ok gate
    exact ⟨_, hpeer, rfl, Or.inr ⟨owner, n, hgate rfl, hc⟩⟩

theorem AllocOutcome.conserved {peer' : Peer}
    (h : Conserved c a) (ho : AllocOutcome c a peer r peer') : Conserved c r.alloc := by
  rcases ho.alloc_eq with heq | ⟨hown, n, hgate, hc⟩
  · rw [heq]
    exact h
  · exact h.consumeVirtual (ids_length_of_gate h hown hgate) hc

theorem allocWithVirtual_eq_ok_iff : allocWithVirtual c a peer vs = .ok a' ↔
      allocBindFastOrSlow c a peer vs vs.length = some a' := by
  unfold allocWithVirtual
  by_cases hvs : vs = []
  · rw [if_pos hvs, hvs]
    show Except.ok a = Except.ok a' ↔ some a = some a'
    rw [Except.ok.injEq, Option.some.injEq]
  · rw [if_neg hvs]
    cases allocBindFastOrSlow c a peer vs vs.length <;> simp

theorem allocWithVirtual_spec (h : Conserved c a) (hs : allocWithVirtual c a peer vs = .ok a') :
    ∃ (m : ℕ) (ps rest : List ℤ), a' = boundState c a vs ps rest a.freeVirtualIds m vs.length ∧
        TakenPages c a ps rest m vs.length :=
  allocBindFastOrSlow_spec h rfl (allocWithVirtual_eq_ok_iff.mp hs)

/-- Binding virtual pages minted elsewhere. -/
theorem Conserved.allocWithVirtual (h : Conserved c a) (hvs : vs.Nodup) (hpos : ∀ v ∈ vs, 0 < v)
    (hfree : ∀ v ∈ vs, a.virtualToPhysical v = -1) (hids : ∀ v ∈ vs, v ∉ a.freeVirtualIds)
    (hs : allocWithVirtual c a peer vs = .ok a') : Conserved c a' := by
  obtain ⟨m, ps, rest, rfl, ht⟩ := allocWithVirtual_spec h hs
  exact h.boundState ht rfl hvs hpos hfree (List.Sublist.refl _) hids (by omega)

end Sglang.MultiEnded
