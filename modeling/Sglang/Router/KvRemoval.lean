import Sglang.Router.KvIndex

/-!
# Removal from the KV-event index

A rank is owned by its listed worker or by the lifecycle call in progress for it. While calls
for one URL do not overlap and no
rank is cleared under an event that is past the live check, everything that mentions a rank
(nodes, cursors, the pump) mentions an owned one, so nothing is left when a removal returns.
The live check and the tree updates are separate critical sections, though: a batch
that passed the check before the rank was marked dead is applied after the removal returned.
-/

namespace Sglang.Router

open Function

open Sglang.Support (Dict HashOrder Reachable)
open TreeState

/-- The ranks a lifecycle call is about. -/
def Phase.dpRanks : Phase → List ℕ
  | markedLive dpRanks | listed dpRanks | unlisted dpRanks | markedDead dpRanks
  | joining dpRanks _ | joined dpRanks | clearing dpRanks => dpRanks

/-- The ranks a call found or made live. -/
def Phase.liveRanks : Phase → List ℕ
  | markedLive dpRanks | listed dpRanks | unlisted dpRanks => dpRanks
  | _ => []

/-- What a call in progress tells of the listed ranks. -/
def Phase.Agrees (ranks : Option (List ℕ)) : Phase → Prop
  | markedLive dpRanks => ∀ old, ranks = some old → old ⊆ dpRanks
  | listed dpRanks => ranks = some dpRanks
  | _ => ranks = none

def Pump.since : Pump → ℕ
  | passed _ since => since
  | applying _ _ _ since => since
  | _ => 0

namespace IndexState

variable {s s' : IndexState} {w w' : KvWorkerId} {url : String}

/-- Listed with its worker. -/
def Listed (s : IndexState) (w : KvWorkerId) : Prop :=
  ∃ dpRanks, s.workers.lookup w.url = some dpRanks ∧ w.dpRank ∈ dpRanks

def Owned (s : IndexState) (w : KvWorkerId) : Prop :=
  s.Listed w ∨ ∃ p ∈ s.calls w.url, w.dpRank ∈ p.dpRanks

structure IndexInv (s : IndexState) : Prop where
  tidy : s.tree.Tidy ∅
  held : ∃ held, Holds s.tree held ∧ ∀ w c, c ∈ held w → s.Owned w
  cursor : ∀ w p, s.cursors.lookup w = some p → s.Owned w ∧ s.stamp w = s.epoch w.url
  pump : ∀ w, s.pump.holds = some w → s.Owned w ∧ s.pump.since = s.epoch w.url
  live : ∀ w ∈ s.live, s.Listed w ∨ ∃ p ∈ s.calls w.url, w.dpRank ∈ p.liveRanks
  agrees : ∀ url, ∀ p ∈ s.calls url, p.Agrees (s.workers.lookup url)
  single : ∀ url, (s.calls url).length ≤ 1

theorem IndexInv.new (now : ℕ) : IndexInv (new now) := by
  refine ⟨tidy_new now, ⟨_, Holds.new now, fun _ _ hc => hc.elim⟩, ?_, ?_, ?_,
    (fun _ _ h => nomatch h), fun _ => Nat.zero_le 1⟩
  · intro w p hp
    exact absurd hp (by simp [IndexState.new])
  · intro w hw
    cases hw
  · intro w hw
    exact absurd hw (Finset.notMem_empty w)

theorem liveRanks_subset (p : Phase) : p.liveRanks ⊆ p.dpRanks := by
  cases p <;> simp [Phase.liveRanks, Phase.dpRanks]

theorem IndexInv.owned_of_live (V : IndexInv s) (hw : w ∈ s.live) : s.Owned w :=
  (V.live w hw).imp_right fun ⟨p, hp, h⟩ => ⟨p, hp, liveRanks_subset p h⟩

/-! ## The pump -/

/-- Steps of the pump and the subscribers that leave tree and cursors alone. -/
theorem IndexInv.of_pump (V : IndexInv s) {channel : List WorkerEvent} {pump : Pump}
    (hpump : ∀ w, pump.holds = some w → s.Owned w ∧ pump.since = s.epoch w.url) :
    IndexInv { s with channel, pump } :=
  ⟨V.tidy, V.held, V.cursor, hpump, V.live, V.agrees, V.single⟩

theorem IndexInv.send (V : IndexInv s) {ev : WorkerEvent} (h : s.send ev = some s') :
    IndexInv s' := by
  unfold IndexState.send at h
  split at h
  · cases h
    exact V.of_pump V.pump
  · cases h

theorem IndexInv.recv (V : IndexInv s) (h : s.recv = some s') : IndexInv s' := by
  unfold IndexState.recv at h
  split at h
  · cases h
    exact V.of_pump fun w hw => by cases hw
  · cases h

theorem IndexInv.checkLive (V : IndexInv s) (h : s.checkLive = some s') : IndexInv s' := by
  unfold IndexState.checkLive at h
  split at h
  · split at h
    · rename_i hlive
      cases h
      refine V.of_pump fun w hw => ?_
      cases hw
      exact ⟨V.owned_of_live hlive, rfl⟩
    · cases h
      exact V.of_pump fun w hw => by cases hw
  · cases h

theorem IndexInv.compareCursor (V : IndexInv s) (h : s.compareCursor = some s') : IndexInv s' := by
  unfold IndexState.compareCursor at h
  split at h
  · split at h
    · cases h
      refine ⟨V.tidy, V.held, fun w p hp => ?_, fun w hw => absurd hw (by simp [Pump.holds]),
        V.live, V.agrees, V.single⟩
      rw [Dict.lookup_erase_eq] at hp
      split at hp
      · cases hp
      · exact V.cursor w p hp
    · rename_i worker seq events since hpump
      have hpass : ∀ w, (Pump.applying worker seq events since).holds = some w →
          s.Owned w ∧ since = s.epoch w.url := by
        intro w hw
        cases hw
        have hown := V.pump worker (by rw [hpump]; rfl)
        rw [hpump] at hown
        exact hown
      split at h
      · split at h
        · cases h
          exact V.of_pump fun w hw => by cases hw
        · cases h
          exact V.of_pump hpass
      · cases h
        exact V.of_pump hpass
    · cases h
  · cases h

/-- An event touches the chains of its own worker only. -/
theorem holds_apply {t : TreeState} {held : KvWorkerId → Set (List ℤ)}
    (H : Holds t held) (T : t.Tidy ∅) (O : HashOrder NodeId) (w : KvWorkerId)
    (e : KvEvent) (now : ℕ) :
    (e.apply O t w now).Tidy ∅ ∧ ∃ new, Holds (e.apply O t w now) new ∧
      ∀ w' c, c ∈ new w' → w' = w ∨ c ∈ held w' := by
  have hupdate : ∀ {S : Set (List ℤ)} {w' c}, c ∈ update held w S w' →
      w' = w ∨ c ∈ held w' := by
    intro S w' c hc
    by_cases hw : w' = w
    · exact Or.inl hw
    · rw [update_of_ne hw] at hc
      exact Or.inr hc
  cases e with
  | blockStored parentHash hs =>
    obtain ⟨c, hc⟩ := H.wf.exists_path (edge_isSome.mpr (resolveParent_mem H.wf O w parentHash))
    have H' := H.insertFrom w now hs T hc
    rw [← insert_eq] at H'
    exact ⟨(insert_spec H.wf T O w parentHash hs now).2, _, H', fun w' c hc => hupdate hc⟩
  | blockRemoved hs =>
    exact ⟨(foldl_removeAt_spec w _ H.wf T).2, _, H.remove O w hs,
      fun w' c hc => hupdate hc⟩
  | allBlocksCleared =>
    exact ⟨(clearWorker_spec H.wf T O w).2, _, H.clearWorker T O w,
      fun w' c hc => hupdate hc⟩

theorem IndexInv.applyEvent (V : IndexInv s) {O : HashOrder NodeId} {now : ℕ}
    (h : s.applyEvent O now = some s') : IndexInv s' := by
  unfold IndexState.applyEvent at h
  split at h
  · rename_i worker seq event events since hpump
    have hown := V.pump worker (by rw [hpump]; rfl)
    rw [hpump] at hown
    cases h
    obtain ⟨held, H, hheld⟩ := V.held
    obtain ⟨T', new, H', hnew⟩ := holds_apply H V.tidy O worker event now
    refine ⟨T', ⟨new, H', fun w c hc => ?_⟩, V.cursor, fun w hw => ?_, V.live, V.agrees, V.single⟩
    · rcases hnew w c hc with rfl | hc
      · exact hown.1
      · exact hheld w c hc
    · cases hw
      exact hown
  · cases h

theorem IndexInv.advanceCursor (V : IndexInv s) (h : s.advanceCursor = some s') : IndexInv s' := by
  unfold IndexState.advanceCursor at h
  split at h
  · split at h
    · rename_i worker seq since hpump
      have hown := V.pump worker (by rw [hpump]; rfl)
      rw [hpump] at hown
      cases h
      refine ⟨V.tidy, V.held, fun w p hp => ?_, fun w hw => absurd hw (by simp [Pump.holds]),
        V.live, V.agrees, V.single⟩
      by_cases hw : w = worker
      · subst hw
        refine ⟨hown.1, ?_⟩
        simp only [update_self]
        exact hown.2
      · rw [Finmap.lookup_insert_of_ne _ hw] at hp
        simp only [update_of_ne hw]
        exact V.cursor w p hp
    · cases h
  · cases h

/-! ## Lifecycle calls -/

/-- A step of a call for `url` that leaves tree, cursors and pump alone. -/
theorem IndexInv.of_call (V : IndexInv s) {live handles : Finset KvWorkerId}
    {tasks : Multiset KvWorkerId} {workers : Dict String (List ℕ)} {cursorLock : Option String}
    {ps : List Phase} (hps : ps.length ≤ 1)
    (hworkers : ∀ u, u ≠ url → workers.lookup u = s.workers.lookup u)
    (hlive : ∀ w ∈ live, w.url ≠ url → w ∈ s.live) (hown : ∀ r, s.Owned ⟨url, r⟩ →
      (∃ rs, workers.lookup url = some rs ∧ r ∈ rs) ∨ ∃ p ∈ ps, r ∈ p.dpRanks)
    (hliveAt : ∀ r, ⟨url, r⟩ ∈ live →
      (∃ rs, workers.lookup url = some rs ∧ r ∈ rs) ∨ ∃ p ∈ ps, r ∈ p.liveRanks)
    (hagrees : ∀ p ∈ ps, p.Agrees (workers.lookup url)) :
    IndexInv (setCalls { s with live, handles, tasks, workers, cursorLock } url ps) := by
  set t := setCalls { s with live, handles, tasks, workers, cursorLock } url ps with ht
  have hcalls : ∀ u, u ≠ url → t.calls u = s.calls u := fun u hu => update_of_ne hu _ _
  have hcallsAt : t.calls url = ps := update_self _ _ _
  have howned : ∀ w, s.Owned w → t.Owned w := by
    intro w hw
    by_cases hu : w.url = url
    · subst hu
      unfold Owned
      rw [hcallsAt]
      exact hown w.dpRank hw
    · unfold Owned Listed at hw ⊢
      rwa [hcalls _ hu, show t.workers.lookup w.url = _ from hworkers _ hu]
  obtain ⟨held, H, hheld⟩ := V.held
  refine ⟨V.tidy, ⟨held, H, fun w c hc => howned w (hheld w c hc)⟩,
    fun w q hq => ⟨howned w (V.cursor w q hq).1, (V.cursor w q hq).2⟩,
    fun w hw => ⟨howned w (V.pump w hw).1, (V.pump w hw).2⟩, fun w hw => ?_, fun u => ?_,
    fun u => ?_⟩
  · by_cases hu : w.url = url
    · subst hu
      rw [hcallsAt]
      exact hliveAt w.dpRank hw
    · have hold := V.live w (hlive w hw hu)
      unfold Listed at hold ⊢
      rwa [hcalls _ hu, show t.workers.lookup w.url = _ from hworkers _ hu]
  · by_cases hu : u = url
    · subst hu
      rwa [hcallsAt]
    · rw [hcalls _ hu, show t.workers.lookup u = _ from hworkers _ hu]
      exact V.agrees u
  · by_cases hu : u = url
    · rwa [hu, hcallsAt]
    · rw [hcalls _ hu]
      exact V.single u

theorem mem_rankIds {rs : List ℕ} {r : ℕ} : ⟨url, r⟩ ∈ rankIds url rs ↔ r ∈ rs := by
  simp [rankIds]

theorem url_of_mem_rankIds {rs : List ℕ} (hw : w ∈ rankIds url rs) : w.url = url := by
  unfold rankIds at hw
  obtain ⟨r, -, rfl⟩ := List.mem_map.mp (List.mem_toFinset.mp hw)
  rfl

section

variable (V : IndexInv s)
include V

/-- The only call for its URL. -/
theorem IndexInv.call_eq {k : ℕ} {p : Phase} (h : (s.calls url)[k]? = some p) :
    k = 0 ∧ s.calls url = [p] := by
  have hone := V.single url
  obtain ⟨hk, rfl⟩ := List.getElem?_eq_some_iff.mp h
  obtain rfl : k = 0 := by omega
  obtain ⟨q, hq⟩ := List.length_eq_one_iff.mp (Nat.le_antisymm hone hk)
  exact ⟨rfl, by simp [hq]⟩

/-- The ranks of a worker without a call are listed. -/
theorem IndexInv.listed_of_idle (hidle : s.calls url = []) {r : ℕ} :
    (s.Owned ⟨url, r⟩ → s.Listed ⟨url, r⟩) ∧ (⟨url, r⟩ ∈ s.live → s.Listed ⟨url, r⟩) := by
  have hown : s.Owned ⟨url, r⟩ → s.Listed ⟨url, r⟩ := fun h => h.resolve_right fun ⟨p, hp, _⟩ => by
    rw [hidle] at hp
    exact List.not_mem_nil hp
  exact ⟨hown, fun hr => hown (V.owned_of_live hr)⟩

theorem IndexInv.addWorker {dpRanks : List ℕ} (hok : s.Undisturbed (.addWorker url dpRanks))
    (h : s.addWorker url dpRanks = some s') : IndexInv s' := by
  obtain ⟨hidle, hold⟩ := hok
  unfold IndexState.addWorker at h
  split at h
  · cases h
  · cases h
    rw [hidle, List.nil_append]
    refine V.of_call le_rfl (fun _ _ => rfl) (fun w hw hu => ?_)
      (fun r hr => Or.inl ((V.listed_of_idle hidle).1 hr)) (fun r hr => ?_)
      (List.forall_mem_singleton.mpr hold)
    · rcases Finset.mem_union.mp hw with hw | hw
      · exact hw
      · exact absurd (url_of_mem_rankIds hw) hu
    · rcases Finset.mem_union.mp hr with hr | hr
      · exact Or.inl ((V.listed_of_idle hidle).2 hr)
      · exact Or.inr ⟨_, List.mem_singleton_self _, mem_rankIds.mp hr⟩

theorem IndexInv.removeWorker (hidle : s.calls url = []) (h : s.removeWorker url = some s') :
    IndexInv s' := by
  unfold IndexState.removeWorker at h
  split at h
  · cases h
    exact V
  · rename_i dpRanks hranks
    cases h
    have hlist : ∀ r, s.Listed ⟨url, r⟩ → r ∈ dpRanks := by
      rintro r ⟨rs, hrs, hr⟩
      rw [hranks] at hrs
      cases hrs
      exact hr
    rw [hidle, List.nil_append]
    exact V.of_call le_rfl (fun u hu => Finmap.lookup_erase_ne hu) (fun w hw _ => hw)
      (fun r hr => Or.inr ⟨_, List.mem_singleton_self _, hlist r ((V.listed_of_idle hidle).1 hr)⟩)
      (fun r hr => Or.inr ⟨_, List.mem_singleton_self _, hlist r ((V.listed_of_idle hidle).2 hr)⟩)
      (List.forall_mem_singleton.mpr (Finmap.lookup_erase _ _))

/-! ### A call in progress -/

section

variable {k : ℕ} {p : Phase} (hcall : (s.calls url)[k]? = some p)
include hcall

theorem IndexInv.agrees_call : p.Agrees (s.workers.lookup url) :=
  V.agrees url p (List.mem_of_getElem? hcall)

theorem IndexInv.owned_call {r : ℕ} (h : s.Owned ⟨url, r⟩) :
    s.Listed ⟨url, r⟩ ∨ r ∈ p.dpRanks := by
  refine h.imp_right fun ⟨q, hq, hr⟩ => ?_
  rw [(V.call_eq hcall).2] at hq
  rwa [← List.mem_singleton.mp hq]

theorem IndexInv.setCall_eq (q : Phase) :
    (s.calls url).set k q = [q] ∧ (s.calls url).eraseIdx k = [] := by
  obtain ⟨rfl, hone⟩ := V.call_eq hcall
  rw [hone]
  exact ⟨rfl, rfl⟩

/-- A removal in progress has all the ranks of its worker. -/
theorem IndexInv.removing (hnone : s.workers.lookup url = none) {r : ℕ} :
    (s.Owned ⟨url, r⟩ → r ∈ p.dpRanks) ∧ (⟨url, r⟩ ∈ s.live → r ∈ p.liveRanks) := by
  have hnot : ¬ s.Listed ⟨url, r⟩ := by
    rintro ⟨rs, hrs, -⟩
    rw [hnone] at hrs
    cases hrs
  refine ⟨fun h => (V.owned_call hcall h).resolve_left hnot, fun h => ?_⟩
  obtain ⟨q, hq, hr⟩ := (V.live _ h).resolve_left hnot
  rw [(V.call_eq hcall).2] at hq
  rwa [← List.mem_singleton.mp hq]

/-- A removal in progress moves on with its ranks. -/
theorem IndexInv.of_removal {live handles : Finset KvWorkerId} {tasks : Multiset KvWorkerId}
    {cursorLock : Option String} {q : Phase} (hnone : s.workers.lookup url = none)
    (hq : q.Agrees none) (hranks : q.dpRanks = p.dpRanks) (hsub : live ⊆ s.live)
    (hlive : ∀ r, ⟨url, r⟩ ∈ live → r ∈ p.liveRanks → r ∈ q.liveRanks) :
    IndexInv (setCall { s with live, handles, tasks, cursorLock } url k q) := by
  rw [setCall, (V.setCall_eq hcall q).1]
  refine V.of_call le_rfl (fun _ _ => rfl) (fun w hw _ => hsub hw) (fun r hr => Or.inr ?_)
    (fun r hr => Or.inr ?_) (List.forall_mem_singleton.mpr (hnone ▸ hq))
  · exact ⟨q, List.mem_singleton_self q, hranks ▸ (V.removing hcall hnone).1 hr⟩
  · exact ⟨q, List.mem_singleton_self q, hlive r hr ((V.removing hcall hnone).2 (hsub hr))⟩

end

section

variable {k : ℕ}

theorem IndexInv.listWorker (h : s.listWorker url k = some s') : IndexInv s' := by
  unfold IndexState.listWorker at h
  split at h
  · rename_i dpRanks hcall
    cases h
    have hadding : ∀ old, s.workers.lookup url = some old → old ⊆ dpRanks := V.agrees_call hcall
    have hown : ∀ r, s.Owned ⟨url, r⟩ → r ∈ dpRanks := by
      intro r hr
      rcases V.owned_call hcall hr with ⟨old, hold, hr⟩ | hr
      · exact hadding old hold hr
      · exact hr
    rw [setCall, (V.setCall_eq hcall _).1]
    exact V.of_call le_rfl (fun u hu => Finmap.lookup_insert_of_ne _ hu) (fun w hw _ => hw)
      (fun r hr => Or.inr ⟨_, List.mem_singleton_self _, hown r hr⟩)
      (fun r hr => Or.inr ⟨_, List.mem_singleton_self _, hown r (V.owned_of_live hr)⟩)
      (List.forall_mem_singleton.mpr (Finmap.lookup_insert _))
  · cases h

theorem IndexInv.subscribe (h : s.subscribe url k = some s') : IndexInv s' := by
  unfold IndexState.subscribe at h
  split at h
  · rename_i dpRanks hcall
    cases h
    have hlist : ∀ r, s.Owned ⟨url, r⟩ → s.Listed ⟨url, r⟩ := fun r hr =>
      (V.owned_call hcall hr).elim id fun hr => ⟨dpRanks, V.agrees_call hcall, hr⟩
    rw [endCall, (V.setCall_eq hcall (.listed [])).2]
    exact V.of_call (Nat.zero_le 1) (fun _ _ => rfl) (fun w hw _ => hw)
      (fun r hr => Or.inl (hlist r hr)) (fun r hr => Or.inl (hlist r (V.owned_of_live hr)))
      fun _ h => nomatch h
  · cases h

theorem IndexInv.markDead (h : s.markDead url k = some s') : IndexInv s' := by
  unfold IndexState.markDead at h
  split at h
  · rename_i dpRanks hcall
    cases h
    refine V.of_removal hcall (V.agrees_call hcall) rfl rfl Finset.sdiff_subset fun r hr hin => ?_
    exact absurd (mem_rankIds.mpr hin) (Finset.mem_sdiff.mp hr).2
  · cases h

theorem IndexInv.drainHandles (h : s.drainHandles url k = some s') : IndexInv s' := by
  unfold IndexState.drainHandles at h
  split at h
  · rename_i dpRanks hcall
    cases h
    exact V.of_removal hcall (V.agrees_call hcall) rfl rfl (Finset.Subset.refl _) fun _ _ hin => hin
  · cases h

theorem IndexInv.joinTasks (h : s.joinTasks url k = some s') : IndexInv s' := by
  unfold IndexState.joinTasks at h
  split at h
  · rename_i dpRanks drained hcall
    cases h
    exact V.of_removal hcall (V.agrees_call hcall) rfl rfl (Finset.Subset.refl _) fun _ _ hin => hin
  · cases h

theorem IndexInv.lockCursors (h : s.lockCursors url k = some s') : IndexInv s' := by
  unfold IndexState.lockCursors at h
  split at h
  · rename_i dpRanks hcall hlock
    cases h
    exact V.of_removal hcall (V.agrees_call hcall) rfl rfl (Finset.Subset.refl _) fun _ _ hin => hin
  · cases h

theorem IndexInv.clearRank {O : HashOrder NodeId} (hok : s.Undisturbed (.clearRank url k O))
    (h : s.clearRank url k O = some s') : IndexInv s' := by
  unfold IndexState.clearRank at h
  split at h
  · rename_i r rs hcall
    have hnone : s.workers.lookup url = none := V.agrees_call hcall
    have hquiet := hok r rs hcall
    cases h
    rw [setCall, (V.setCall_eq hcall _).1]
    set t := setCalls
      { s with
        tree := s.tree.clearWorker O ⟨url, r⟩
        cursors := s.cursors.erase ⟨url, r⟩ } url [.clearing rs] with ht
    have hcallsAt : t.calls url = [.clearing rs] := update_self _ _ _
    have hother : ∀ u, u ≠ url → t.calls u = s.calls u := fun u hu => update_of_ne hu _ _
    have howned : ∀ w, s.Owned w → w ≠ ⟨url, r⟩ → t.Owned w := by
      rintro ⟨u, k⟩ hw hne
      by_cases hu : u = url
      · subst hu
        refine Or.inr ⟨.clearing rs, hcallsAt ▸ List.mem_singleton_self _, ?_⟩
        exact (List.mem_cons.mp ((V.removing hcall hnone).1 hw)).resolve_left
          fun hk => hne (congrArg (KvWorkerId.mk u) hk)
      · unfold Owned at hw ⊢
        rwa [hother u hu]
    obtain ⟨held, H, hheld⟩ := V.held
    refine ⟨(clearWorker_spec H.wf V.tidy O ⟨url, r⟩).2,
      ⟨_, H.clearWorker V.tidy O ⟨url, r⟩, fun w c hc => ?_⟩, fun w p hp => ?_, fun w hw => ?_,
      fun w hw => ?_, fun u => ?_, fun u => ?_⟩
    · by_cases hw : w = ⟨url, r⟩
      · rw [hw, update_self] at hc
        exact hc.elim
      · rw [update_of_ne hw] at hc
        exact howned w (hheld w c hc) hw
    · have hne : w ≠ ⟨url, r⟩ := by
        rintro rfl
        exact absurd hp (by simp [ht, setCalls])
      have hp : (s.cursors.erase ⟨url, r⟩).lookup w = some p := hp
      rw [Finmap.lookup_erase_ne hne] at hp
      exact ⟨howned w (V.cursor w p hp).1 hne, (V.cursor w p hp).2⟩
    · have hne : w ≠ ⟨url, r⟩ := fun heq => hquiet (heq ▸ hw)
      exact ⟨howned w (V.pump w hw).1 hne, (V.pump w hw).2⟩
    · by_cases hu : w.url = url
      · subst hu
        exact absurd ((V.removing hcall hnone).2 hw) List.not_mem_nil
      · rw [hother _ hu]
        exact V.live w hw
    · by_cases hurl : u = url
      · rw [hurl, hcallsAt]
        exact List.forall_mem_singleton.mpr hnone
      · rw [hother u hurl]
        exact V.agrees u
    · by_cases hurl : u = url
      · rw [hurl, hcallsAt]
        exact le_rfl
      · rw [hother u hurl]
        exact V.single u
  · cases h

theorem IndexInv.removeReturns (h : s.removeReturns url k = some s') : IndexInv s' := by
  unfold IndexState.removeReturns at h
  split at h
  · rename_i hcall
    have hgone : ∀ w, s.Owned w → w.url ≠ url := by
      rintro w hw rfl
      exact List.not_mem_nil ((V.removing hcall (V.agrees_call hcall)).1 hw)
    have V' : IndexInv (setCalls { s with cursorLock := none } url []) := by
      exact V.of_call (Nat.zero_le 1) (fun _ _ => rfl) (fun w hw _ => hw)
        (fun r hr => absurd rfl (hgone _ hr))
        (fun r hr => absurd rfl (hgone _ (V.owned_of_live hr))) fun _ h => nomatch h
    cases h
    rw [endCall, (V.setCall_eq hcall (.clearing [])).2]
    -- the count of removals changes for a worker that nothing mentions
    refine ⟨V'.tidy, V'.held, fun w p hp => ⟨(V'.cursor w p hp).1, ?_⟩,
      fun w hw => ⟨(V'.pump w hw).1, ?_⟩, V'.live, V'.agrees, V'.single⟩
    · have hne := hgone w (V.cursor w p hp).1
      exact (V.cursor w p hp).2.trans (update_of_ne hne _ _).symm
    · have hne := hgone w (V.pump w hw).1
      exact (V.pump w hw).2.trans (update_of_ne hne _ _).symm
  · cases h

end

theorem IndexInv.step (op : IndexOp) (hok : s.Undisturbed op)
    (h : s.run op = some s') : IndexInv s' := by
  cases op with
  | send ev => exact V.send h
  | recv => exact V.recv h
  | checkLive => exact V.checkLive h
  | compareCursor => exact V.compareCursor h
  | applyEvent O now => exact V.applyEvent h
  | advanceCursor => exact V.advanceCursor h
  | addWorker url dpRanks => exact V.addWorker hok h
  | listWorker url k => exact V.listWorker h
  | subscribe url k => exact V.subscribe h
  | removeWorker url => exact V.removeWorker hok h
  | markDead url k => exact V.markDead h
  | drainHandles url k => exact V.drainHandles h
  | joinTasks url k => exact V.joinTasks h
  | lockCursors url k => exact V.lockCursors h
  | clearRank url k O => exact V.clearRank hok h
  | removeReturns url k => exact V.removeReturns h

theorem IndexInv.removalSafe : RemovalSafe s := by
  have hgone : ∀ url, s.calls url = [] → s.workers.lookup url = none → ∀ r,
      ¬s.Owned ⟨url, r⟩ := by
    intro url hidle hnone r hr
    obtain ⟨rs, hrs, -⟩ := (V.listed_of_idle hidle).1 hr
    rw [hnone] at hrs
    cases hrs
  refine ⟨?_, ?_, fun w p hp => (V.cursor w p hp).2⟩
  · intro url hidle hnone r i n hn hw
    obtain ⟨held, H, hheld⟩ := V.held
    obtain ⟨c, hc⟩ := H.wf.exists_path (edge_isSome.mpr (Dict.mem_keys_iff.mpr ⟨n, hn⟩))
    rw [← holders_eq hn, H.workers_iff hc] at hw
    exact hgone url hidle hnone r (hheld _ c hw)
  · intro url hidle hnone r
    by_contra hsome
    obtain ⟨p, hp⟩ := Option.ne_none_iff_exists'.mp hsome
    exact hgone url hidle hnone r (V.cursor _ p hp).1

end

/-- Removals are safe in every undisturbed interleaving. -/
theorem removalSafe_of_undisturbed (hrun : ReachesUndisturbed s) : RemovalSafe s := by
  refine IndexInv.removalSafe (Reachable.invariant ?_ ?_ hrun)
  · rintro _ ⟨now, rfl⟩
    exact IndexInv.new now
  · exact fun op V hok h => V.step op hok h

/-- A batch is applied and its worker removed up to the cursor lock. -/
def applyAndRemove : List IndexOp :=
  [.addWorker "w" [0], .listWorker "w" 0, .subscribe "w" 0,
    .send (.batch ⟨"w", 0⟩ 5 [.blockStored none [10]]), .recv, .checkLive, .compareCursor,
    .applyEvent HashOrder.increasing 1, .advanceCursor, .removeWorker "w", .markDead "w" 0,
    .drainHandles "w" 0, .joinTasks "w" 0, .lockCursors "w" 0]

/-- A batch that is applied before the removal leaves nothing behind. -/
theorem removalSafe_applyAndRemove :
    ∃ s, ReachesUndisturbed s ∧ s.epoch "w" = 1 ∧ s.tree.nodeCount = 0 ∧ RemovalSafe s := by
  have hstart : ReachesUndisturbed (new 0) := Reachable.start ⟨0, rfl⟩
  have hrun₁ : ReachesUndisturbed _ := Reachable.of_permitted (s := new 0) applyAndRemove
    ⟨⟨rfl, fun old hold => by cases hold⟩, trivial, trivial, trivial, trivial, trivial, trivial,
      trivial, trivial, rfl, trivial, trivial, trivial, trivial, trivial⟩ hstart rfl
  have hclear : ∀ s : IndexState, s.pump = .idle →
      s.Undisturbed (.clearRank "w" 0 HashOrder.increasing) := by
    intro s hidle dpRank dpRanks _
    rw [hidle]
    simp [Pump.holds]
  have hrun₂ : ReachesUndisturbed _ := hrun₁.step (hclear _ rfl) rfl
  have hrun₃ : ReachesUndisturbed _ :=
    hrun₂.of_runAll [.removeReturns "w" 0] (fun s => by simp [Undisturbed]) rfl
  exact ⟨_, hrun₃, rfl, by decide, removalSafe_of_undisturbed hrun₃⟩

/-- The removal falls between the live check and the events of the batch. -/
def removeUnderBatch : List IndexOp :=
  [.addWorker "w" [0], .listWorker "w" 0, .subscribe "w" 0,
    .send (.batch ⟨"w", 0⟩ 5 [.blockStored none [10]]), .recv, .checkLive, .compareCursor,
    .removeWorker "w", .markDead "w" 0, .drainHandles "w" 0, .joinTasks "w" 0,
    .lockCursors "w" 0, .clearRank "w" 0 HashOrder.increasing, .removeReturns "w" 0,
    .applyEvent HashOrder.increasing 1, .advanceCursor]

/-- The worker comes back with a new publisher. -/
def attachAgain : List IndexOp :=
  [.addWorker "w" [0], .listWorker "w" 0, .subscribe "w" 0,
    .send (.batch ⟨"w", 0⟩ 1 [.blockStored none [20]]), .recv, .checkLive]

/-- The worker comes back while it is removed. -/
def addUnderRemoval : List IndexOp :=
  [.addWorker "w" [0], .listWorker "w" 0, .subscribe "w" 0,
    .send (.batch ⟨"w", 0⟩ 5 [.blockStored none [10]]), .recv, .checkLive, .compareCursor,
    .applyEvent HashOrder.increasing 1, .advanceCursor, .removeWorker "w", .markDead "w" 0,
    .drainHandles "w" 0, .joinTasks "w" 0, .addWorker "w" [0], .listWorker "w" 1,
    .subscribe "w" 1, .send (.batch ⟨"w", 0⟩ 1 [.blockStored none [20]]), .recv, .checkLive]

/-- A batch past the live check outlives the removal: its worker is in the tree and has a
cursor, and the first batch of the next publisher is skipped because of that cursor. So it is
where the worker is added before its removal has returned. -/
theorem stale_removeUnderBatch :
    (∃ s, Reaches s ∧ s.calls "w" = [] ∧ s.workers.lookup "w" = none ∧
      (∃ n, s.tree.nodes.lookup 1 = some n ∧ ⟨"w", 0⟩ ∈ n.workers) ∧
      s.cursors.lookup ⟨"w", 0⟩ = some 5 ∧ s.epoch "w" = 1 ∧ s.stamp ⟨"w", 0⟩ = 0 ∧
      ∃ s', Reachable.runAll run s attachAgain = some s' ∧
        s'.pump = .passed (.batch ⟨"w", 0⟩ 1 [.blockStored none [20]]) 1 ∧
        s'.compareCursor = some { s' with pump := .idle }) ∧
    ∃ s, Reaches s ∧ s.pump = .passed (.batch ⟨"w", 0⟩ 1 [.blockStored none [20]]) 0 ∧
      s.compareCursor = some { s with pump := .idle } := by
  have hstart : Reaches (new 0) := Reachable.start ⟨0, rfl⟩
  constructor
  · refine ⟨_, hstart.of_runAll removeUnderBatch (fun _ _ _ => trivial) rfl, rfl, rfl,
      ⟨_, rfl, ?_⟩, rfl, rfl, rfl, _, rfl, rfl, rfl⟩
    decide
  · exact ⟨_, hstart.of_runAll addUnderRemoval (fun _ _ _ => trivial) rfl, rfl, rfl⟩

end IndexState

end Sglang.Router
