import Mathlib.Data.Finset.Max
import Sglang.Router.HashTreeShape

/-!
# Runs of the hash tree

Every operation keeps the shape and leaves no bare leaf behind, whatever the events say and
in whatever order maps and sets are iterated. Eviction reaches its cap because a tree with
nodes besides the root has a leaf.
-/

namespace Sglang.Router

open List Function

open Sglang.Support (Dict HashOrder)

namespace TreeState

variable {O : HashOrder NodeId} {s s' : TreeState} {i j p : NodeId} {n m : Node} {h : ℤ}
  {E : Set NodeId} {w : KvWorkerId} {now : ℕ}

/-! ## Insertion -/

/-- The child is found, or hung below `current`. -/
theorem childFor_spec (W : s.Wf) (T : s.Tidy ∅) (hp : p ∈ s.nodes.keys) (h : ℤ) (now : ℕ) :
    ∃ c t, s.childFor p h now = (some c, t) ∧ t.Wf ∧ t.Tidy {c} ∧
      t.links.edge c = some (h, some p) ∧
      (t = s ∨ s.links.kid p h = none ∧ t.links = s.links.grow p h ∧ t.holders = s.holders) := by
  rw [childFor, kid_apply]
  cases hc : s.links.kid p h with
  | some c => exact ⟨c, s, rfl, W, T.mono (Set.empty_subset _), W.kid_iff.mp hc, Or.inl rfl⟩
  | none =>
    obtain ⟨n, hn⟩ := Dict.mem_keys_iff.mp hp
    obtain ⟨t, ht, hlinks, hholders⟩ := createChild_spec W hn h now
    refine ⟨s.nextId, t, ht, ?_, T.grow W hlinks hholders, ?_, Or.inr ⟨rfl, hlinks, hholders⟩⟩
    · rw [Wf, hlinks]
      exact Links.Wf.grow W (edge_isSome.mpr hp) hc
    · rw [hlinks]
      exact W.edge_grow.mpr (Or.inl ⟨rfl, rfl⟩)

theorem links_visit (s : TreeState) (w : KvWorkerId) (now : ℕ) (i : NodeId) :
    (s.visit w now i).links = s.links :=
  links_modify s i fun _ => ⟨rfl, rfl, rfl⟩

theorem holders_visit (hi : i ∈ s.nodes.keys) : (s.visit w now i).holders =
    update s.holders i (Insert.insert w (s.holders i)) := by
  refine holders_modify s i (fun _ => rfl) fun hnone => ?_
  obtain ⟨n, hn⟩ := Dict.mem_keys_iff.mp hi
  exact absurd (hnone.symm.trans hn) (by simp)

theorem tidy_visit (hi : i ∈ s.nodes.keys) (T : s.Tidy {i}) : (s.visit w now i).Tidy ∅ := by
  refine ((T.relabel (links_visit s w now i) (holders_visit hi)).of_not_bare (i := i) ?_).mono ?_
  · rintro ⟨-, -, hworkers, -⟩
    rw [holders_visit hi, update_self] at hworkers
    exact Finset.insert_ne_empty _ _ hworkers
  · simp

theorem insertFrom_spec (w : KvWorkerId) (now : ℕ) (hs : List ℤ) :
    ∀ {s : TreeState} {p : NodeId}, s.Wf → s.Tidy ∅ → p ∈ s.nodes.keys →
      (insertFrom w now hs p s).Wf ∧ (insertFrom w now hs p s).Tidy ∅ := by
  induction hs with
  | nil => exact fun W T _ => ⟨W, T⟩
  | cons h hs ih =>
    intro s p W T hp
    obtain ⟨c, t, ht, Wt, Tt, hedge, -⟩ := childFor_spec W T hp h now
    have hc : c ∈ t.nodes.keys := edge_isSome.mp (by rw [hedge]; rfl)
    obtain ⟨m, hm⟩ := Dict.mem_keys_iff.mp hc
    simp only [insertFrom, ht, hm]
    refine ih ?_ (tidy_visit hc Tt) ?_
    · rwa [Wf, links_visit]
    · rwa [← edge_isSome, links_visit, edge_isSome]

theorem headD_mem {set : Finset NodeId} (h : set.card = 1) (d : NodeId) :
    (O.list set).headD d ∈ set := by
  have hlen := O.length_list set
  rw [h] at hlen
  obtain ⟨a, ha⟩ := length_eq_one_iff.mp hlen
  rw [← O.mem_list, ha]
  exact mem_singleton.mpr rfl

theorem any_workers_iff {w : KvWorkerId} :
    ((s.nodes.lookup i).any fun n => w ∈ n.workers) = true ↔ w ∈ s.holders i := by
  change _ ↔ w ∈ workersOf (s.nodes.lookup i)
  cases s.nodes.lookup i <;> simp

/-- The one candidate, else one the worker holds, else the root. -/
theorem resolveParent_some {ph : ℤ} {set : Finset NodeId} (hset : s.byHash.lookup ph = some set)
    (O : HashOrder NodeId) (w : KvWorkerId) : set.card = 1 ∧ s.resolveParent O w (some ph) ∈ set ∨
      (s.resolveParent O w (some ph) ∈ set ∧ w ∈ s.holders (s.resolveParent O w (some ph))) ∨
      s.resolveParent O w (some ph) = rootId ∧ ∀ c ∈ set, w ∉ s.holders c := by
  rw [resolveParent, hset]
  simp only
  by_cases hone : set.card = 1
  · rw [if_pos hone]
    exact Or.inl ⟨hone, headD_mem hone _⟩
  · rw [if_neg hone]
    cases hfind : (O.list set).find? fun cand =>
        (s.nodes.lookup cand).any fun n => w ∈ n.workers with
    | none =>
      refine Or.inr (Or.inr ⟨rfl, fun c hc hw => ?_⟩)
      exact List.find?_eq_none.mp hfind c (O.mem_list.mpr hc) (any_workers_iff.mpr hw)
    | some c =>
      have hheld := List.find?_some hfind
      exact Or.inr (Or.inl ⟨O.mem_list.mp (mem_of_find?_eq_some hfind), any_workers_iff.mp hheld⟩)

theorem resolveParent_mem (W : s.Wf) (O : HashOrder NodeId) (w : KvWorkerId)
    (parentHash : Option ℤ) : s.resolveParent O w parentHash ∈ s.nodes.keys := by
  cases parentHash with
  | none => exact W.root_mem
  | some ph =>
    cases hset : s.byHash.lookup ph with
    | none =>
      rw [resolveParent, hset]
      exact W.root_mem
    | some set =>
      have hcarried : ∀ i ∈ set, i ∈ s.nodes.keys := by
        intro i hi
        have hin : i ∈ (s.links.index ph).getD ∅ := by
          change i ∈ (s.byHash.lookup ph).getD ∅
          rwa [hset]
        obtain ⟨p, hp⟩ := W.mem_index_iff.mp hin
        exact edge_isSome.mp (by rw [hp]; rfl)
      rcases resolveParent_some hset O w with ⟨-, hmem⟩ | ⟨hmem, -⟩ | ⟨heq, -⟩
      · exact hcarried _ hmem
      · exact hcarried _ hmem
      · rw [heq]
        exact W.root_mem

theorem insert_eq (s : TreeState) (O : HashOrder NodeId) (w : KvWorkerId)
    (parentHash : Option ℤ) (hs : List ℤ) (now : ℕ) : s.insert O w parentHash hs now =
      insertFrom w now hs (s.resolveParent O w parentHash) s := by
  unfold insert
  split
  · rename_i hnil
    rw [hnil]
    rfl
  · rfl

theorem insert_spec (W : s.Wf) (T : s.Tidy ∅) (O : HashOrder NodeId) (w : KvWorkerId)
    (parentHash : Option ℤ) (hs : List ℤ) (now : ℕ) :
    (s.insert O w parentHash hs now).Wf ∧ (s.insert O w parentHash hs now).Tidy ∅ := by
  rw [insert_eq]
  exact insertFrom_spec w now hs W T (resolveParent_mem W O w parentHash)

/-! ## Removal -/

theorem links_dropWorker (s : TreeState) (w : KvWorkerId) (i : NodeId) :
    (s.dropWorker w i).links = s.links :=
  links_modify s i fun _ => ⟨rfl, rfl, rfl⟩

theorem holders_dropWorker (s : TreeState) (w : KvWorkerId) (i : NodeId) :
    (s.dropWorker w i).holders = update s.holders i ((s.holders i).erase w) :=
  holders_modify s i (g := fun workers => workers.erase w) (fun _ => rfl) fun _ =>
    Finset.erase_empty w

theorem lookup_dropWorker (hi : s.nodes.lookup i = some n) (w : KvWorkerId) :
    (s.dropWorker w i).nodes.lookup i = some { n with workers := n.workers.erase w } := by
  change (Dict.modify s.nodes i _).lookup i = _
  rw [Dict.lookup_modify_self, hi]
  rfl

theorem dropWorker_of_none (hi : s.nodes.lookup i = none) (w : KvWorkerId) :
    s.dropWorker w i = s := by
  rw [dropWorker, Dict.modify, hi]

theorem removeAt_spec (W : s.Wf) (T : s.Tidy E) (w : KvWorkerId) (i : NodeId) :
    (removeAt w s i).Wf ∧ (removeAt w s i).Tidy E ∧ Pruned (s.dropWorker w i) (removeAt w s i) := by
  unfold removeAt
  cases hi : s.nodes.lookup i with
  | none =>
    rw [dropWorker_of_none hi]
    exact ⟨W, T, Pruned.refl s⟩
  | some n =>
    have W' : (s.dropWorker w i).Wf := by rwa [Wf, links_dropWorker]
    have T' := T.relabel (links_dropWorker s w i) (holders_dropWorker s w i)
    have hnone : (E ∪ {i}) \ {i} ⊆ E := by
      rintro j ⟨hj | hj, hne⟩
      · exact hj
      · exact absurd hj hne
    simp only
    split
    · obtain ⟨W'', P, T'', -⟩ := pruneCascade_spec W' T' i
      exact ⟨W'', T''.mono hnone, P⟩
    · rename_i hprun
      refine ⟨W', (T'.of_not_bare fun hbare => ?_).mono hnone, Pruned.refl _⟩
      exact hprun ((bare_iff (lookup_dropWorker hi w) hbare.1).mp hbare)

theorem foldl_removeAt_spec (w : KvWorkerId) (ids : List NodeId) :
    ∀ {s : TreeState}, s.Wf → s.Tidy ∅ →
      (ids.foldl (removeAt w) s).Wf ∧ (ids.foldl (removeAt w) s).Tidy ∅ := by
  induction ids with
  | nil => exact fun W T => ⟨W, T⟩
  | cons i ids ih =>
    intro s W T
    obtain ⟨W', T', -⟩ := removeAt_spec W T w i
    exact ih W' T'

/-- The first loop collects the leaves that lost their last worker. -/
theorem clearAt_spec {acc : TreeState × List NodeId} (W : acc.1.Wf)
    (T : acc.1.Tidy { x | x ∈ acc.2 }) (w : KvWorkerId) (i : NodeId) :
    (clearAt w acc i).1.Wf ∧ (clearAt w acc i).1.Tidy { x | x ∈ (clearAt w acc i).2 } := by
  unfold clearAt
  cases hi : acc.1.nodes.lookup i with
  | none => exact ⟨W, T⟩
  | some n =>
    refine ⟨by rwa [Wf, links_dropWorker], ?_⟩
    have T' := T.relabel (links_dropWorker acc.1 w i) (holders_dropWorker acc.1 w i)
    intro j hbare
    simp only [Set.mem_ofPred_eq]
    rcases T' j hbare with hj | rfl
    · split
      · exact mem_append_left _ hj
      · exact hj
    · have hprun := (bare_iff (lookup_dropWorker hi w) hbare.1).mp hbare
      split
      · exact mem_append_right _ (mem_singleton.mpr rfl)
      · rename_i hnot
        have hw : w ∉ n.workers := fun hw => hnot ⟨hw, hprun⟩
        have hempty : n.workers.erase w = ∅ := hprun.1
        rw [Finset.erase_eq_of_notMem hw] at hempty
        exact T j ((bare_iff hi hbare.1).mpr ⟨hempty, hprun.2⟩)

theorem foldl_clearAt_spec (w : KvWorkerId) (ids : List NodeId) :
    ∀ acc : TreeState × List NodeId, acc.1.Wf → acc.1.Tidy { x | x ∈ acc.2 } →
      (ids.foldl (clearAt w) acc).1.Wf ∧
        (ids.foldl (clearAt w) acc).1.Tidy { x | x ∈ (ids.foldl (clearAt w) acc).2 } := by
  induction ids with
  | nil => exact fun _ W T => ⟨W, T⟩
  | cons i ids ih =>
    intro acc W T
    obtain ⟨W', T'⟩ := clearAt_spec W T w i
    exact ih _ W' T'

theorem pruneIfPresent_spec (W : s.Wf) (T : s.Tidy E) (i : NodeId) :
    (s.pruneIfPresent i).Wf ∧ Pruned s (s.pruneIfPresent i) ∧
      (s.pruneIfPresent i).Tidy (E \ {i}) := by
  unfold pruneIfPresent
  split
  · obtain ⟨W', P, T', -⟩ := pruneCascade_spec W T i
    exact ⟨W', P, T'⟩
  · rename_i hmem
    exact ⟨W, Pruned.refl s, T.of_not_bare fun hbare => hmem hbare.2.1⟩

theorem foldl_pruneIfPresent_spec (ids : List NodeId) :
    ∀ {s : TreeState}, s.Wf → s.Tidy { x | x ∈ ids } →
      (ids.foldl pruneIfPresent s).Wf ∧ Pruned s (ids.foldl pruneIfPresent s) ∧
        (ids.foldl pruneIfPresent s).Tidy ∅ := by
  induction ids with
  | nil => exact fun {s} W T => ⟨W, Pruned.refl s, T.mono fun x hx => absurd hx not_mem_nil⟩
  | cons i ids ih =>
    intro s W T
    obtain ⟨W', P, T'⟩ := pruneIfPresent_spec W T i
    obtain ⟨W'', P', T''⟩ := ih W' (T'.mono fun x hx => (mem_cons.mp hx.1).resolve_left hx.2)
    exact ⟨W'', P.trans P', T''⟩

theorem clearWorker_spec (W : s.Wf) (T : s.Tidy ∅) (O : HashOrder NodeId) (w : KvWorkerId) :
    (s.clearWorker O w).Wf ∧ (s.clearWorker O w).Tidy ∅ := by
  obtain ⟨W', T'⟩ := foldl_clearAt_spec w ((O.list s.nodes.keys).filter (· ≠ rootId)) (s, []) W
    (T.mono (Set.empty_subset _))
  obtain ⟨W'', -, T''⟩ := foldl_pruneIfPresent_spec _ W' T'
  exact ⟨W'', T''⟩

/-! ## Lookup -/

/-- The trees differ in time stamps only. -/
abbrev SameViews (s s' : TreeState) : Prop := s'.links = s.links ∧ s'.holders = s.holders

theorem SameViews.pruned (h : SameViews s s') : Pruned s s' := ⟨fun hi => h.1 ▸ hi, h.2⟩

theorem sameViews_touch (s : TreeState) (now : ℕ) (i : NodeId) : SameViews s (s.touch now i) := by
  have hholders : (s.touch now i).holders = update s.holders i (id (s.holders i)) :=
    holders_modify s i (fun _ => rfl) fun _ => rfl
  exact ⟨links_modify s i fun _ => ⟨rfl, rfl, rfl⟩, hholders.trans (update_eq_self i _)⟩

theorem sameViews_matchFrom (now : ℕ) (hs : List ℤ) :
    ∀ (s : TreeState) (p : NodeId) (k : ℕ) (last : Option NodeId),
      SameViews s (matchFrom now hs p k last s).2 := by
  induction hs with
  | nil => exact fun s _ _ _ => ⟨rfl, rfl⟩
  | cons h hs ih =>
    intro s p k last
    rw [matchFrom]
    split
    · exact ⟨rfl, rfl⟩
    · rename_i c _
      obtain ⟨hlinks, hholders⟩ := sameViews_touch s now c
      obtain ⟨hlinks', hholders'⟩ := ih (s.touch now c) c (k + 1) (some c)
      exact ⟨hlinks'.trans hlinks, hholders'.trans hholders⟩

theorem sameViews_matchPrefix (s : TreeState) (O : HashOrder NodeId) (parentHash : Option ℤ)
    (hs : List ℤ) (now : ℕ) : SameViews s (s.matchPrefix O parentHash hs now).2 := by
  unfold matchPrefix
  split
  · exact ⟨rfl, rfl⟩
  · exact sameViews_matchFrom now hs s _ _ _

theorem matchPrefix_spec (W : s.Wf) (T : s.Tidy ∅) (O : HashOrder NodeId)
    (parentHash : Option ℤ) (hs : List ℤ) (now : ℕ) :
    (s.matchPrefix O parentHash hs now).2.Wf ∧ (s.matchPrefix O parentHash hs now).2.Tidy ∅ := by
  obtain ⟨hlinks, hholders⟩ := sameViews_matchPrefix s O parentHash hs now
  refine ⟨by rwa [Wf, hlinks], ?_⟩
  rintro i ⟨hne, hmem, hworkers, hkid⟩
  rw [← edge_isSome, hlinks, edge_isSome] at hmem
  exact T i ⟨hne, hmem, hholders ▸ hworkers, hlinks ▸ hkid⟩

/-! ## Eviction -/

/-- A leaf that eviction may choose. -/
def IsLeaf (s : TreeState) (i : NodeId) : Prop :=
  i ≠ rootId ∧ ∃ n, s.nodes.lookup i = some n ∧ n.children = ∅

/-- Ids grow downwards, so the greatest one is a leaf. -/
theorem Wf.exists_leaf (W : s.Wf) (hpos : 0 < s.nodeCount) : ∃ i, s.IsLeaf i := by
  have hne : (s.nodes.keys.erase rootId).Nonempty := by
    rw [← Finset.card_pos, Finset.card_erase_of_mem W.root_mem]
    exact hpos
  obtain ⟨i, hi, hmax⟩ := Finset.exists_max_image _ id hne
  obtain ⟨hne, hi⟩ := Finset.mem_erase.mp hi
  obtain ⟨n, hn⟩ := Dict.mem_keys_iff.mp hi
  refine ⟨i, hne, n, hn, Dict.eq_empty_iff.mpr fun h => ?_⟩
  by_contra hsome
  obtain ⟨j, hj⟩ := Option.ne_none_iff_exists'.mp hsome
  have hedge := W.kid_iff.mp ((congrFun (kid_eq hn) h).trans hj)
  have hle : j ≤ i := hmax j (Finset.mem_erase.mpr
    ⟨W.ne_root hedge, edge_isSome.mp (by rw [hedge]; rfl)⟩)
  exact absurd (W.parent hedge).2 (not_lt.mpr hle)

theorem olderLeaf_spec {acc : Option (ℕ × NodeId)} (hacc : ∀ a ∈ acc, s.IsLeaf a.2) (i : NodeId) :
    (∀ a ∈ s.olderLeaf acc i, s.IsLeaf a.2) ∧
      (acc.isSome ∨ s.IsLeaf i → (s.olderLeaf acc i).isSome) := by
  unfold olderLeaf
  cases hi : s.nodes.lookup i with
  | none =>
    refine ⟨hacc, ?_⟩
    rintro (h | ⟨-, n, hn, -⟩)
    · exact h
    · rw [hi] at hn
      cases hn
  | some n =>
    simp only
    split
    · rename_i hskip
      refine ⟨hacc, ?_⟩
      rintro (h | ⟨hne, m, hm, hchildren⟩)
      · exact h
      · rw [hi] at hm
        cases hm
        rcases hskip with h | h
        · exact absurd h hne
        · exact absurd hchildren h
    · rename_i hskip
      rw [not_or, not_not] at hskip
      have hleaf : s.IsLeaf i := ⟨hskip.1, n, hi, hskip.2⟩
      cases acc with
      | none =>
        refine ⟨fun a ha => ?_, fun _ => rfl⟩
        cases ha
        exact hleaf
      | some a =>
        simp only
        split
        · refine ⟨fun a ha => ?_, fun _ => rfl⟩
          cases ha
          exact hleaf
        · exact ⟨hacc, fun _ => rfl⟩

theorem foldl_olderLeaf_spec (ids : List NodeId) :
    ∀ acc : Option (ℕ × NodeId), (∀ a ∈ acc, s.IsLeaf a.2) →
      (∀ a ∈ ids.foldl s.olderLeaf acc, s.IsLeaf a.2) ∧
        (acc.isSome ∨ (∃ i ∈ ids, s.IsLeaf i) → (ids.foldl s.olderLeaf acc).isSome) := by
  induction ids with
  | nil =>
    intro acc hacc
    refine ⟨hacc, ?_⟩
    rintro (h | ⟨i, hi, -⟩)
    · exact h
    · cases hi
  | cons i ids ih =>
    intro acc hacc
    obtain ⟨hleaf, hsome⟩ := olderLeaf_spec hacc i
    obtain ⟨hleaf', hsome'⟩ := ih _ hleaf
    refine ⟨hleaf', ?_⟩
    rintro (h | ⟨j, hj, hleafj⟩)
    · exact hsome' (Or.inl (hsome (Or.inl h)))
    · rcases mem_cons.mp hj with rfl | hj
      · exact hsome' (Or.inl (hsome (Or.inr hleafj)))
      · exact hsome' (Or.inr ⟨j, hj, hleafj⟩)

theorem oldestLeaf_spec (W : s.Wf) (O : HashOrder NodeId) (hpos : 0 < s.nodeCount) :
    ∃ a, s.oldestLeaf O = some a ∧ s.IsLeaf a.2 := by
  obtain ⟨i, hi⟩ := W.exists_leaf hpos
  obtain ⟨hleaf, hsome⟩ := foldl_olderLeaf_spec (O.list s.nodes.keys) none
    (fun a ha => by cases ha)
  obtain ⟨-, n, hn, -⟩ := id hi
  have hin : i ∈ O.list s.nodes.keys := O.mem_list.mpr (Dict.mem_keys_iff.mpr ⟨n, hn⟩)
  obtain ⟨a, ha⟩ := Option.isSome_iff_exists.mp (hsome (Or.inr ⟨i, hin, hi⟩))
  exact ⟨a, ha, hleaf a ha⟩

/-- The victim goes, whatever workers it had. -/
theorem evictVictim_spec (W : s.Wf) (T : s.Tidy ∅) (hleaf : s.IsLeaf i) :
    ((s.clearWorkers i).pruneCascade i).Wf ∧ ((s.clearWorkers i).pruneCascade i).Tidy ∅ ∧
      ((s.clearWorkers i).pruneCascade i).nodes.keys ⊂ s.nodes.keys := by
  obtain ⟨hne, n, hn, hchildren⟩ := hleaf
  have hlinks : (s.clearWorkers i).links = s.links := links_modify s i fun _ => ⟨rfl, rfl, rfl⟩
  have T' := T.relabel hlinks (holders_modify s i (g := fun _ => ∅) (fun _ => rfl) fun _ => rfl)
  obtain ⟨W', P, T'', hgone⟩ := pruneCascade_spec (by rwa [Wf, hlinks]) T' i
  have hkeys : (s.clearWorkers i).nodes.keys = s.nodes.keys := Dict.keys_modify _ _ _
  have hnode : (s.clearWorkers i).nodes.lookup i = some { n with workers := ∅ } := by
    change (Dict.modify s.nodes i _).lookup i = _
    rw [Dict.lookup_modify_self, hn]
    rfl
  have hbare : (s.clearWorkers i).Bare i := (bare_iff hnode hne).mpr ⟨rfl, hchildren⟩
  refine ⟨W', T''.mono (by simp), Finset.ssubset_iff_subset_ne.mpr ⟨hkeys ▸ P.keys_subset, ?_⟩⟩
  exact fun heq => hgone hbare (heq ▸ Dict.mem_keys_iff.mpr ⟨n, hn⟩)

theorem evictOldest_spec (O : HashOrder NodeId) (maxSize : ℕ) {iters : ℕ} :
    ∀ {s : TreeState}, s.Wf → s.Tidy ∅ → s.nodeCount ≤ iters →
      (evictOldest O maxSize iters s).Wf ∧ (evictOldest O maxSize iters s).Tidy ∅ ∧
        (evictOldest O maxSize iters s).nodeCount ≤ maxSize ∧
        (evictOldest O maxSize iters s).nodes.keys ⊆ s.nodes.keys := by
  induction iters with
  | zero =>
    intro s W T hiters
    exact ⟨W, T, (Nat.le_zero.mp hiters).trans_le (Nat.zero_le _), subset_rfl⟩
  | succ iters ih =>
    intro s W T hiters
    rw [evictOldest]
    split
    · rename_i hover
      obtain ⟨a, ha, hleaf⟩ := oldestLeaf_spec W O (Nat.zero_lt_of_lt hover)
      obtain ⟨W', T', hlt⟩ := evictVictim_spec W T hleaf
      have hcard := Finset.card_lt_card hlt
      have hcount : ((s.clearWorkers a.2).pruneCascade a.2).nodeCount ≤ iters := by
        unfold nodeCount at hiters ⊢
        omega
      obtain ⟨W'', T'', hcap, hsub⟩ := ih W' T' hcount
      simp only [ha]
      exact ⟨W'', T'', hcap, hsub.trans hlt.subset⟩
    · rename_i hcap
      exact ⟨W, T, not_lt.mp hcap, subset_rfl⟩

/-- There are no empty leaves to drop first. -/
theorem emptyLeaves_eq_nil (T : s.Tidy ∅) (O : HashOrder NodeId) : s.emptyLeaves O = [] := by
  rw [emptyLeaves, filter_eq_nil_iff]
  intro i _ hi
  obtain ⟨hne, hprun⟩ := of_decide_eq_true hi
  obtain ⟨n, hn, hprun⟩ := Option.any_eq_true _ _ |>.mp hprun
  exact T i ((bare_iff hn hne).mpr (of_decide_eq_true hprun))

theorem evictLru_spec (W : s.Wf) (T : s.Tidy ∅) (O : HashOrder NodeId) (maxSize : ℕ) :
    (s.evictLru O maxSize).2.Wf ∧ (s.evictLru O maxSize).2.Tidy ∅ ∧
      (s.evictLru O maxSize).2.nodeCount ≤ maxSize ∧
      (s.evictLru O maxSize).1 + (s.evictLru O maxSize).2.nodeCount = s.nodeCount := by
  unfold evictLru
  split
  · rename_i hcap
    exact ⟨W, T, hcap, Nat.zero_add _⟩
  · simp only [emptyLeaves_eq_nil T, evictEmpty]
    have hiters : s.nodeCount ≤ s.nodes.keys.card + 1 := by
      unfold nodeCount
      omega
    obtain ⟨W', T', hcap, hsub⟩ := evictOldest_spec O maxSize W T hiters
    refine ⟨W', T', hcap, ?_⟩
    have hle := Finset.card_le_card hsub
    have hpos := Finset.card_pos.mpr ⟨_, W'.root_mem⟩
    unfold nodeCount
    omega

end TreeState

/-! ## Runs -/

/-- The public operations of `HashTree`. -/
inductive TreeOp where
  | insert (worker : KvWorkerId) (parentHash : Option ℤ) (blockHashes : List ℤ) (now : ℕ)
  | remove (worker : KvWorkerId) (blockHashes : List ℤ)
  | clearWorker (worker : KvWorkerId)
  | matchPrefix (parentHash : Option ℤ) (blockHashes : List ℤ) (now : ℕ)
  | evictLru (maxSize : ℕ)

def TreeOp.run (O : HashOrder NodeId) (s : TreeState) : TreeOp → TreeState
  | insert worker parentHash blockHashes now => s.insert O worker parentHash blockHashes now
  | remove worker blockHashes => s.remove O worker blockHashes
  | clearWorker worker => s.clearWorker O worker
  | matchPrefix parentHash blockHashes now => (s.matchPrefix O parentHash blockHashes now).2
  | evictLru maxSize => (s.evictLru O maxSize).2

/-- The trees of all operation sequences; every operation iterates in its own order. -/
inductive TreeRun : TreeState → Prop
  | start (now : ℕ) : TreeRun (TreeState.new now)
  | step {s : TreeState} (hrun : TreeRun s) (O : HashOrder NodeId) (op : TreeOp) :
      TreeRun (op.run O s)

namespace TreeState

variable {s : TreeState} {i : NodeId} {n : Node}

theorem wf_of_treeRun (hrun : TreeRun s) : s.Wf ∧ s.Tidy ∅ := by
  induction hrun with
  | start now => exact ⟨Wf.new now, tidy_new now⟩
  | step _ O op ih =>
    obtain ⟨W, T⟩ := ih
    cases op with
    | insert w parentHash hs now => exact insert_spec W T O w parentHash hs now
    | remove w hs => exact foldl_removeAt_spec w _ W T
    | clearWorker w => exact clearWorker_spec W T O w
    | matchPrefix parentHash hs now => exact matchPrefix_spec W T O parentHash hs now
    | evictLru maxSize =>
      obtain ⟨W', T', -⟩ := evictLru_spec W T O maxSize
      exact ⟨W', T'⟩

/-- Reachable from the root by child edges. -/
inductive Reach (s : TreeState) : NodeId → Prop
  | root : Reach s rootId
  | child {i j : NodeId} {n : Node} {h : ℤ} (hi : Reach s i) (hn : s.nodes.lookup i = some n)
      (hj : n.children.lookup h = some j) : Reach s j

theorem Wf.linked (W : s.Wf) (hn : s.nodes.lookup i = some n) (hne : i ≠ rootId) :
    ∃ p m, n.parent = some p ∧ s.nodes.lookup p = some m ∧
      m.children.lookup n.blockHash = some i ∧ p < i := by
  obtain ⟨hash, _ | p, workers, children, lastUsed⟩ := n
  · exact absurd (W.eq_root (edge_eq hn)) hne
  · obtain ⟨m, hm⟩ := Dict.mem_keys_iff.mp (edge_isSome.mp (W.parent (edge_eq hn)).1)
    have hkid := W.kid_iff.mpr (edge_eq hn)
    rw [kid_eq hm] at hkid
    exact ⟨p, m, rfl, hm, hkid, (W.parent (edge_eq hn)).2⟩

theorem Wf.reach_iff (W : s.Wf) : s.Reach i ↔ i ∈ s.nodes.keys := by
  constructor
  · intro hreach
    cases hreach with
    | root => exact W.root_mem
    | child _ hn hj =>
      have hedge := W.kid_iff.mp ((congrFun (kid_eq hn) _).trans hj)
      exact edge_isSome.mp (by rw [hedge]; rfl)
  · -- from the parent, whose id is smaller
    induction i using Nat.strong_induction_on with
    | _ i ih =>
      intro hi
      by_cases hroot : i = rootId
      · rw [hroot]
        exact Reach.root
      · obtain ⟨n, hn⟩ := Dict.mem_keys_iff.mp hi
        obtain ⟨p, m, -, hm, hlink, hlt⟩ := W.linked hn hroot
        exact Reach.child (ih p hlt (Dict.mem_keys_iff.mpr ⟨m, hm⟩)) hm hlink

/-- Arena, links, reverse index and workers agree. -/
structure Consistent (s : TreeState) : Prop where
  reach_iff : ∀ i, s.Reach i ↔ i ∈ s.nodes.keys
  linked : ∀ i n, s.nodes.lookup i = some n → i ≠ rootId → ∃ p m, n.parent = some p ∧
    s.nodes.lookup p = some m ∧ m.children.lookup n.blockHash = some i
  index_eq : ∀ h i, (∃ set, s.byHash.lookup h = some set ∧ i ∈ set) ↔
    ∃ n, s.nodes.lookup i = some n ∧ i ≠ rootId ∧ n.blockHash = h
  index_nonempty : ∀ h set, s.byHash.lookup h = some set → set.Nonempty
  leaf_held : ∀ i n, s.nodes.lookup i = some n → i ≠ rootId → n.children = ∅ → n.workers.Nonempty

theorem Wf.consistent (W : s.Wf) (T : s.Tidy ∅) : s.Consistent := by
  refine ⟨fun i => W.reach_iff, ?_, ?_, ?_, ?_⟩
  · intro i n hn hne
    obtain ⟨p, m, hp, hm, hlink, -⟩ := W.linked hn hne
    exact ⟨p, m, hp, hm, hlink⟩
  · intro h i
    have hmem : (∃ set, s.byHash.lookup h = some set ∧ i ∈ set) ↔
        ∃ p, s.links.edge i = some (h, some p) := by
      rw [← W.mem_index_iff]
      change _ ↔ i ∈ (s.byHash.lookup h).getD ∅
      cases s.byHash.lookup h <;> simp
    rw [hmem]
    constructor
    · rintro ⟨p, hp⟩
      obtain ⟨n, hn, heq⟩ := Option.map_eq_some_iff.mp hp
      exact ⟨n, hn, W.ne_root hp, congrArg Prod.fst heq⟩
    · rintro ⟨n, hn, hne, rfl⟩
      obtain ⟨p, -, hp, -⟩ := W.linked hn hne
      exact ⟨p, hp ▸ edge_eq hn⟩
  · intro h set hset
    rw [Finset.nonempty_iff_ne_empty]
    exact fun hempty => W.index_ne h (hempty ▸ hset)
  · intro i n hn hne hchildren
    rw [Finset.nonempty_iff_ne_empty]
    exact fun hworkers => T i ((bare_iff hn hne).mpr ⟨hworkers, hchildren⟩)

/-- Eviction meets its cap, counts what it removes and leaves a small tree alone. -/
structure EvictExact (s : TreeState) (O : HashOrder NodeId) (maxSize : ℕ) : Prop where
  capped : (s.evictLru O maxSize).2.nodeCount ≤ maxSize
  counted : (s.evictLru O maxSize).1 + (s.evictLru O maxSize).2.nodeCount = s.nodeCount
  idle : s.nodeCount ≤ maxSize → s.evictLru O maxSize = (0, s)

/-- Every run leaves a consistent tree, and eviction is exact in it. -/
theorem consistent_of_treeRun (hrun : TreeRun s) :
    s.Consistent ∧ ∀ O maxSize, s.EvictExact O maxSize := by
  obtain ⟨W, T⟩ := wf_of_treeRun hrun
  refine ⟨W.consistent T, fun O maxSize => ?_⟩
  obtain ⟨-, -, hcap, hcount⟩ := evictLru_spec W T O maxSize
  exact ⟨hcap, hcount, fun hle => if_pos hle⟩

/-- A chain that repeats its hash. -/
theorem consistent_repeatedHash :
    let s := (TreeOp.insert ⟨"http://a", 0⟩ none [5, 5] 3).run HashOrder.increasing (new 0)
    s.nodeCount = 2 ∧ s.byHash.lookup 5 = some {1, 2} ∧ s.Consistent ∧
      ∀ O maxSize, s.EvictExact O maxSize :=
  ⟨by decide, by decide, consistent_of_treeRun (.step (.start 0) _ _)⟩

end TreeState

end Sglang.Router
