import Mathlib.Tactic.IntervalCases
import Sglang.Router.HashTreeRun

/-!
# Exactness of the hash tree

Each worker holds a prefix-closed set of chains of block hashes and reports every change of
it. Whatever the interleaving of the reports, the paths of the tree are the chains held by
some worker and a node lists the workers that hold its path, so `match_prefix` finds the
longest prefix any worker holds and exactly the workers that hold it.
-/

namespace Sglang.Router

open List Function

open Sglang.Support (Dict HashOrder)

/-! ## Paths -/

namespace Links

variable {L L' : Links} {i j p : NodeId} {h : ℤ} {c d : List ℤ}

/-- The chain of hashes from the root to a node. -/
inductive Path (L : Links) : NodeId → List ℤ → Prop
  | root : Path L rootId []
  | child {i p : NodeId} {h : ℤ} {c : List ℤ} (hp : Path L p c)
      (hi : L.edge i = some (h, some p)) : Path L i (c ++ [h])

theorem Path.mono (hsub : ∀ {i e}, L.edge i = some e → L'.edge i = some e) (hi : L.Path i c) :
    L'.Path i c := by
  induction hi with
  | root => exact Path.root
  | child _ hi ih => exact Path.child ih (hsub hi)

theorem Path.nil_iff : L.Path i [] ↔ i = rootId := by
  constructor
  · generalize hc : ([] : List ℤ) = c
    intro hi
    cases hi with
    | root => rfl
    | child _ _ => exact absurd hc (by simp)
  · rintro rfl
    exact Path.root

/-- The last step of a path. -/
theorem Path.last (hi : L.Path i (c ++ [h])) : ∃ p, L.Path p c ∧ L.edge i = some (h, some p) := by
  generalize hd : c ++ [h] = d at hi
  cases hi with
  | root => exact absurd hd (by simp)
  | child hp hi =>
    obtain ⟨rfl, hhash⟩ := append_inj' hd rfl
    cases hhash
    exact ⟨_, hp, hi⟩

/-- Paths have all their prefixes. -/
theorem Path.take (hi : L.Path i c) (k : ℕ) : ∃ j, L.Path j (c.take k) := by
  induction hi with
  | root => exact ⟨rootId, by rw [take_nil]; exact Path.root⟩
  | @child i p h c hp hi ih =>
    by_cases hk : k ≤ c.length
    · rw [take_append_of_le_length hk]
      exact ih
    · rw [take_of_length_le (by rw [length_append, length_singleton]; omega)]
      exact ⟨i, Path.child hp hi⟩

namespace Wf

theorem path_last (W : L.Wf) (hi : L.Path i c) (he : L.edge i = some (h, some p)) :
    ∃ d, L.Path p d ∧ c = d ++ [h] := by
  cases hi with
  | root => exact absurd rfl (W.ne_root he)
  | child hp hi =>
    rw [he] at hi
    cases hi
    exact ⟨_, hp, rfl⟩

theorem path_unique (W : L.Wf) (hi : L.Path i c) : ∀ {d}, L.Path i d → c = d := by
  induction hi with
  | root =>
    intro d hd
    cases hd with
    | root => rfl
    | child _ he => exact absurd rfl (W.ne_root he)
  | child _ he ih =>
    intro d hd
    obtain ⟨d', hd', rfl⟩ := W.path_last hd he
    rw [ih hd']

theorem exists_path (W : L.Wf) : (L.edge i).isSome → ∃ c, L.Path i c := by
  induction i using Nat.strong_induction_on with
  | _ i ih =>
    intro hi
    obtain ⟨⟨h, _ | p⟩, he⟩ := Option.isSome_iff_exists.mp hi
    · exact ⟨[], Path.nil_iff.mpr (W.eq_root he)⟩
    · obtain ⟨c, hc⟩ := ih p (W.parent he).2 (W.parent he).1
      exact ⟨_, Path.child hc he⟩

theorem path_inj (W : L.Wf) : L.Path i c → L.Path j c → i = j := by
  induction c using List.reverseRecOn generalizing i j with
  | nil =>
    intro hi hj
    rw [Path.nil_iff.mp hi, Path.nil_iff.mp hj]
  | append_singleton c h ih =>
    intro hi hj
    obtain ⟨p, hp, hi⟩ := hi.last
    obtain ⟨q, hq, hj⟩ := hj.last
    obtain rfl := ih hp hq
    exact Option.some.inj ((W.kid_iff.mpr hi).symm.trans (W.kid_iff.mpr hj))

/-- Where a path goes on, its node has the child. -/
theorem kid_of_path (W : L.Wf) (hp : L.Path p c) (hj : L.Path j (c ++ [h])) :
    L.kid p h = some j := by
  obtain ⟨q, hq, hj⟩ := hj.last
  obtain rfl := W.path_inj hp hq
  exact W.kid_iff.mpr hj

theorem edge_of_path (W : L.Wf) (hi : L.Path i c) : (L.edge i).isSome := by
  cases hi with
  | root =>
    obtain ⟨r, hr⟩ := W.root
    rw [hr]
    rfl
  | child _ hi =>
    rw [hi]
    rfl

/-- Nodes keep their path where links come or go elsewhere. -/
theorem path_of_kept (W : L.Wf) (W' : L'.Wf)
    (hsub : ∀ {i e}, L'.edge i = some e → L.edge i = some e) (hi : L.Path i c)
    (hkept : (L'.edge i).isSome) : L'.Path i c := by
  obtain ⟨d, hd⟩ := W'.exists_path hkept
  rw [W.path_unique hi (hd.mono hsub)]
  exact hd

end Wf

end Links

namespace TreeState

open Links (Path)

variable {O : HashOrder NodeId} {s s' : TreeState} {i j p : NodeId} {h : ℤ} {c d : List ℤ}
  {w w' : KvWorkerId} {now : ℕ} {held : KvWorkerId → Set (List ℤ)}

/-! ## Held chains -/

/-- The chains of the nodes that list a worker. -/
def chains (s : TreeState) (w : KvWorkerId) : Set (List ℤ) :=
  { c | ∃ i, s.links.Path i c ∧ w ∈ s.holders i }

/-- The nodes list the holders of their paths. -/
structure Holds (s : TreeState) (held : KvWorkerId → Set (List ℤ)) : Prop where
  wf : s.Wf
  chains : s.chains = held
  root : s.holders rootId = ∅

theorem mem_of_mem_holders (hw : w ∈ s.holders i) : i ∈ s.nodes.keys := by
  cases hi : s.nodes.lookup i with
  | some n => exact Dict.mem_keys_iff.mpr ⟨n, hi⟩
  | none =>
    change w ∈ workersOf (s.nodes.lookup i) at hw
    rw [hi] at hw
    exact absurd hw (Finset.notMem_empty w)

namespace Holds

theorem new (now : ℕ) : Holds (TreeState.new now) fun _ => ∅ := by
  have hnone : ∀ i, (TreeState.new now).holders i = ∅ := by
    intro i
    change workersOf ((TreeState.new now).nodes.lookup i) = ∅
    rw [lookup_new]
    split <;> rfl
  refine ⟨Wf.new now, ?_, hnone rootId⟩
  funext w
  refine Set.eq_empty_iff_forall_notMem.mpr ?_
  rintro c ⟨i, -, hw⟩
  rw [hnone i] at hw
  exact absurd hw (Finset.notMem_empty w)

theorem workers_iff (H : Holds s held) (hi : s.links.Path i c) (w : KvWorkerId) :
    w ∈ s.holders i ↔ c ∈ held w := by
  rw [← H.chains]
  refine ⟨fun hw => ⟨i, hi, hw⟩, ?_⟩
  rintro ⟨j, hj, hw⟩
  rwa [H.wf.path_inj hi hj]

theorem stored (H : Holds s held) (hc : c ∈ held w) : ∃ i, s.links.Path i c := by
  rw [← H.chains] at hc
  obtain ⟨i, hi, -⟩ := hc
  exact ⟨i, hi⟩

theorem ne_nil (H : Holds s held) (w : KvWorkerId) : [] ∉ held w := by
  intro hc
  rw [← H.workers_iff Path.root, H.root] at hc
  exact Finset.notMem_empty w hc

/-- A held chain has a node below the root, which carries its last hash. -/
theorem exists_edge (H : Holds s held) (hc : c ∈ held w) :
    ∃ i p h, s.links.Path i c ∧ s.links.edge i = some (h, some p) ∧ c.getLast? = some h := by
  obtain ⟨i, hi⟩ := H.stored hc
  cases hi with
  | root => exact absurd hc (H.ne_nil w)
  | child hp hi => exact ⟨_, _, _, Path.child hp hi, hi, getLast?_concat⟩

/-- Links that come and go without a worker change nothing. -/
theorem relink (H : Holds s held) (W' : s'.Wf) (hholders : s'.holders = s.holders)
    (hpath : ∀ {i c}, i ∈ s.nodes.keys → i ∈ s'.nodes.keys →
      (s'.links.Path i c ↔ s.links.Path i c)) : Holds s' held := by
  refine ⟨W', ?_, hholders ▸ H.root⟩
  rw [← H.chains]
  ext c
  refine exists_congr fun i => ?_
  rw [hholders]
  refine and_congr_left fun hw => hpath (mem_of_mem_holders hw) ?_
  rw [← hholders] at hw
  exact mem_of_mem_holders hw

theorem pruned (H : Holds s held) (P : Pruned s s') (W' : s'.Wf) : Holds s' held :=
  H.relink W' P.holders fun _ hi => ⟨fun hc => hc.mono P.edge, fun hc =>
    H.wf.path_of_kept W' P.edge hc (edge_isSome.mpr hi)⟩

theorem grown (H : Holds s held) (W' : s'.Wf) (hlinks : s'.links = s.links.grow p h)
    (hholders : s'.holders = s.holders) : Holds s' held := by
  have hsub : ∀ {i e}, s.links.edge i = some e → s'.links.edge i = some e := by
    intro i e he
    rw [hlinks]
    exact H.wf.edge_grow.mpr (Or.inr he)
  exact H.relink W' hholders fun hi _ => ⟨fun hc =>
    W'.path_of_kept H.wf hsub hc (edge_isSome.mpr hi), fun hc => hc.mono hsub⟩

/-- The chains after the workers of one node are set. -/
theorem mem_chains_relabel (H : Holds s held) (hlinks : s'.links = s.links)
    {ws : Finset KvWorkerId} (hholders : s'.holders = update s.holders i ws) :
    d ∈ s'.chains w' ↔ (s.links.Path i d → w' ∈ ws) ∧ (s.links.Path i d ∨ d ∈ held w') := by
  rw [← H.chains]
  change (∃ j, s'.links.Path j d ∧ w' ∈ s'.holders j) ↔ _
  rw [hlinks, hholders]
  by_cases hi : s.links.Path i d
  · rw [forall_prop_of_true hi, and_iff_left (Or.inl hi)]
    constructor
    · rintro ⟨j, hj, hw⟩
      rwa [H.wf.path_inj hj hi, update_self] at hw
    · exact fun hw => ⟨i, hi, by rwa [update_self]⟩
  · rw [and_iff_right fun h => absurd h hi, or_iff_right hi]
    refine exists_congr fun j => and_congr_right fun hj => ?_
    rw [update_of_ne]
    rintro rfl
    exact hi hj

/-- A worker is added to a node. -/
theorem visit (H : Holds s held) (hi : s.links.Path i c) (hne : i ≠ rootId) (w : KvWorkerId)
    (now : ℕ) : Holds (s.visit w now i) (update held w (held w ∪ {c})) := by
  have hholders : (s.visit w now i).holders = _ :=
    holders_visit (edge_isSome.mp (H.wf.edge_of_path hi))
  refine ⟨by rw [Wf, links_visit]; exact H.wf, ?_, ?_⟩
  · funext w'
    ext d
    rw [H.mem_chains_relabel (links_visit s w now i) hholders, update_apply]
    have hdc : s.links.Path i d ↔ d = c :=
      ⟨fun hd => H.wf.path_unique hd hi, fun hd => by rwa [hd]⟩
    rw [hdc, Finset.mem_insert, H.workers_iff hi]
    split
    · rename_i hw
      rw [hw, Set.mem_union, or_comm (a := d = c)]
      simp
    · rename_i hw
      rw [or_iff_right hw]
      exact ⟨fun h => h.2.elim (fun hd => hd ▸ h.1 hd) id,
        fun hd => ⟨fun heq => heq ▸ hd, Or.inr hd⟩⟩
  · rw [hholders, update_of_ne hne.symm]
    exact H.root

/-- The chains left when a worker gives up those in `S`. -/
def without (held : KvWorkerId → Set (List ℤ)) (w : KvWorkerId) (S : Set (List ℤ)) :
    KvWorkerId → Set (List ℤ) :=
  update held w (held w \ S)

theorem mem_without {S : Set (List ℤ)} :
    c ∈ without held w S w' ↔ c ∈ held w' ∧ ¬(w' = w ∧ c ∈ S) := by
  unfold without
  by_cases hw : w' = w
  · subst hw
    simp
  · simp [hw]

/-- A worker is dropped from a node. -/
theorem dropWorker (H : Holds s held) (w : KvWorkerId) (i : NodeId) :
    Holds (s.dropWorker w i) (without held w { c | s.links.Path i c }) := by
  refine ⟨by rw [Wf, links_dropWorker]; exact H.wf, ?_, ?_⟩
  · funext w'
    ext d
    rw [H.mem_chains_relabel (links_dropWorker s w i) (holders_dropWorker s w i), mem_without]
    by_cases hd : s.links.Path i d
    · rw [Finset.mem_erase, H.workers_iff hd]
      simp [hd, and_comm]
    · simp [hd]
  · rw [holders_dropWorker, update_apply, H.root]
    split
    · rename_i hroot
      rw [← hroot, H.root, Finset.erase_empty]
    · rfl

/-- A loop that drops a worker node by node, pruning on the way. -/
theorem foldl_drop {step : TreeState → NodeId → TreeState}
    (hstep : ∀ {s} i, s.Wf → (step s i).Wf ∧ Pruned (s.dropWorker w i) (step s i))
    (ids : List NodeId) : ∀ {s : TreeState} {held : KvWorkerId → Set (List ℤ)}, Holds s held →
      Holds (ids.foldl step s) (without held w { c | ∃ i ∈ ids, s.links.Path i c }) := by
  induction ids with
  | nil =>
    intro s held H
    have hsame : without held w { c | ∃ i ∈ ([] : List NodeId), s.links.Path i c } = held := by
      ext c
      rw [mem_without]
      simp
    rw [hsame]
    exact H
  | cons i ids ih =>
    intro s held H
    obtain ⟨W', P⟩ := hstep i H.wf
    have H' := (H.dropWorker w i).pruned P W'
    have hpath : ∀ {j c}, (step s i).links.Path j c → s.links.Path j c := fun hj =>
      links_dropWorker s w i ▸ hj.mono P.edge
    have hsame : without held w { c | ∃ j ∈ i :: ids, s.links.Path j c } =
        without (without held w { c | s.links.Path i c }) w
          { c | ∃ j ∈ ids, (step s i).links.Path j c } := by
      ext c
      rw [mem_without, mem_without]
      constructor
      · rintro ⟨hc, hnot⟩
        refine ⟨mem_without.mpr ⟨hc, fun ⟨hw, hi⟩ => hnot ⟨hw, i, mem_cons_self, hi⟩⟩, ?_⟩
        rintro ⟨hw, j, hj, hjc⟩
        exact hnot ⟨hw, j, mem_cons_of_mem _ hj, hpath hjc⟩
      · rintro ⟨hc, hnot⟩
        obtain ⟨hc', hi⟩ := mem_without.mp hc
        refine ⟨hc', ?_⟩
        rintro ⟨hw, j, hj, hjc⟩
        rcases mem_cons.mp hj with rfl | hj
        · exact hi ⟨hw, hjc⟩
        · -- a chain still held has its node, and that is `j`
          obtain ⟨k, hk⟩ := H'.stored hc
          obtain rfl := H.wf.path_inj (hpath hk) hjc
          exact hnot ⟨hw, k, hj, hk⟩
    rw [hsame]
    exact ih H'

/-- Chains that end in one of the hashes. -/
def endingIn (hs : List ℤ) : Set (List ℤ) := { c | ∃ h ∈ hs, c.getLast? = some h }

theorem mem_targets {hs : List ℤ} (W : s.Wf) (hi : s.links.edge i = some (h, some p)) :
    i ∈ s.targets O hs ↔ h ∈ hs := by
  have hmem : ∀ h', i ∈ ((s.byHash.lookup h').elim [] O.list) ↔ h' = h := by
    intro h'
    have hindex : i ∈ (s.byHash.lookup h').getD ∅ ↔ _ := W.mem_index_iff
    rw [hi] at hindex
    simp only [Option.some.injEq, Prod.mk.injEq, exists_and_left, exists_eq', and_true] at hindex
    rw [← eq_comm, ← hindex]
    cases s.byHash.lookup h' <;> simp [O.mem_list]
  unfold targets
  simp [mem_flatMap, hmem]

theorem remove (H : Holds s held) (O : HashOrder NodeId) (w : KvWorkerId) (hs : List ℤ) :
    Holds (s.remove O w hs) (without held w (endingIn hs)) := by
  have hdrop := foldl_drop (fun {s} i W =>
    have hspec := removeAt_spec W (fun _ _ => trivial) w i
    ⟨hspec.1, hspec.2.2⟩) (s.targets O hs) H
  have hsame : without held w (endingIn hs) =
      without held w { c | ∃ i ∈ s.targets O hs, s.links.Path i c } := by
    ext c
    rw [mem_without, mem_without]
    refine and_congr_right fun hc => not_congr (and_congr_right fun _ => ?_)
    obtain ⟨i, p, h, hi, he, hlast⟩ := H.exists_edge hc
    constructor
    · rintro ⟨h', hh, hch⟩
      rw [hlast] at hch
      cases hch
      exact ⟨i, (mem_targets H.wf he).mpr hh, hi⟩
    · rintro ⟨j, hj, hjc⟩
      obtain rfl := H.wf.path_inj hi hjc
      exact ⟨h, (mem_targets H.wf he).mp hj, hlast⟩
  rw [hsame]
  exact hdrop

theorem foldl_clearAt (w : KvWorkerId) (ids : List NodeId) :
    ∀ acc : TreeState × List NodeId, (ids.foldl (clearAt w) acc).1 =
      ids.foldl (fun s i => s.dropWorker w i) acc.1 := by
  induction ids with
  | nil => exact fun _ => rfl
  | cons i ids ih =>
    intro acc
    rw [foldl_cons, foldl_cons, ih]
    congr 1
    unfold clearAt
    cases hi : acc.1.nodes.lookup i with
    | none => exact (dropWorker_of_none hi w).symm
    | some n => rfl

theorem clearWorker (H : Holds s held) (T : s.Tidy ∅) (O : HashOrder NodeId) (w : KvWorkerId) :
    Holds (s.clearWorker O w) (update held w ∅) := by
  set ids := (O.list s.nodes.keys).filter (· ≠ rootId) with hids
  have hdrop := foldl_drop (fun {s} i W =>
    ⟨by rw [Wf, links_dropWorker]; exact W, Pruned.refl (s.dropWorker w i)⟩) ids H
  rw [← foldl_clearAt w ids (s, [])] at hdrop
  obtain ⟨W', T'⟩ := foldl_clearAt_spec w ids (s, []) H.wf (T.mono (Set.empty_subset _))
  obtain ⟨W'', P, -⟩ := foldl_pruneIfPresent_spec _ W' T'
  have hsame : without held w { c | ∃ i ∈ ids, s.links.Path i c } = update held w ∅ := by
    unfold without
    congr 1
    rw [Set.eq_empty_iff_forall_notMem]
    rintro c ⟨hc, hnot⟩
    obtain ⟨i, p, h, hi, he, -⟩ := H.exists_edge hc
    have hmem := edge_isSome.mp (H.wf.edge_of_path hi)
    refine hnot ⟨i, mem_filter.mpr ⟨O.mem_list.mpr hmem, ?_⟩, hi⟩
    exact decide_eq_true (H.wf.ne_root he)
  rw [hsame] at hdrop
  exact hdrop.pruned P W''

/-- The chains a stored event adds below `c`. -/
def below (c hs : List ℤ) : Set (List ℤ) := { d | ∃ k < hs.length, d = c ++ hs.take (k + 1) }

theorem below_cons (c : List ℤ) (h : ℤ) (hs : List ℤ) :
    below c (h :: hs) = {c ++ [h]} ∪ below (c ++ [h]) hs := by
  ext d
  constructor
  · rintro ⟨k, hk, rfl⟩
    cases k with
    | zero => exact Or.inl (by simp)
    | succ k => exact Or.inr ⟨k, by simpa using hk, by simp⟩
  · rintro (rfl | ⟨k, hk, rfl⟩)
    · exact ⟨0, by simp, by simp⟩
    · exact ⟨k + 1, by simpa using hk, by simp⟩

theorem insertFrom (w : KvWorkerId) (now : ℕ) (hs : List ℤ) :
    ∀ {s : TreeState} {held : KvWorkerId → Set (List ℤ)} {p : NodeId} {c : List ℤ},
      Holds s held → s.Tidy ∅ → s.links.Path p c →
      Holds (insertFrom w now hs p s) (update held w (held w ∪ below c hs)) := by
  induction hs with
  | nil =>
    intro s held p c H _ _
    have hnone : below c [] = ∅ := by simp [below]
    rw [hnone, Set.union_empty, update_eq_self]
    exact H
  | cons h hs ih =>
    intro s held p c H T hp
    obtain ⟨i, t, ht, Wt, Tt, hedge, hcase⟩ :=
      childFor_spec H.wf T (edge_isSome.mp (H.wf.edge_of_path hp)) h now
    have hgrow : Holds t held ∧ t.links.Path p c := by
      rcases hcase with rfl | ⟨-, hlinks, hholders⟩
      · exact ⟨H, hp⟩
      · refine ⟨H.grown Wt hlinks hholders, hp.mono fun he => ?_⟩
        rw [hlinks]
        exact H.wf.edge_grow.mpr (Or.inr he)
    obtain ⟨Ht, hpt⟩ := hgrow
    have hpath := Path.child hpt hedge
    have hi := edge_isSome.mp (Wt.edge_of_path hpath)
    have hnext := ih (Ht.visit hpath (Wt.ne_root hedge) w now) (tidy_visit hi Tt)
      (links_visit t w now i ▸ hpath)
    rw [update_self, update_idem, Set.union_assoc, ← below_cons] at hnext
    obtain ⟨m, hm⟩ := Dict.mem_keys_iff.mp hi
    simp only [TreeState.insertFrom, ht, hm]
    exact hnext

end Holds

end TreeState

/-! ## Events -/

open TreeState.Holds (without endingIn below)

/-- Held chains, closed under prefixes. -/
def PrefixClosed (H : Set (List ℤ)) : Prop := ∀ c h, c ++ [h] ∈ H → c ≠ [] → c ∈ H

/-- The hash of a block determines its chain. -/
def Determined (H : Set (List ℤ)) : Prop := ∀ c ∈ H, ∀ d ∈ H, c.getLast? = d.getLast? → c = d

/-- The events of a worker. -/
inductive KvEvent where
  | blockStored (parentHash : Option ℤ) (blockHashes : List ℤ)
  | blockRemoved (blockHashes : List ℤ)
  | allBlocksCleared

namespace KvEvent

/-- The chain a stored event goes on from. -/
def IsParent (H : Set (List ℤ)) : Option ℤ → List ℤ → Prop
  | none, c => c = []
  | some parentHash, c => c ∈ H ∧ c.getLast? = some parentHash

/-- The chains the worker holds after the event. -/
def held (H : Set (List ℤ)) : KvEvent → Set (List ℤ)
  | blockStored parentHash blockHashes =>
    H ∪ { d | ∃ c, IsParent H parentHash c ∧ d ∈ below c blockHashes }
  | blockRemoved blockHashes => H \ endingIn blockHashes
  | allBlocksCleared => ∅

/-- A stored event names a parent the worker holds and its hashes determine their chains; a
removed event leaves a prefix-closed set, as when childless blocks are dropped. -/
def Faithful (H : Set (List ℤ)) (e : KvEvent) : Prop :=
  match e with
  | blockStored parentHash _ => (∃ c, IsParent H parentHash c) ∧ Determined (e.held H)
  | blockRemoved _ => PrefixClosed (e.held H)
  | allBlocksCleared => True

/-- The event applied to the tree. -/
def apply (O : HashOrder NodeId) (s : TreeState) (w : KvWorkerId) (now : ℕ) :
    KvEvent → TreeState
  | blockStored parentHash blockHashes => s.insert O w parentHash blockHashes now
  | blockRemoved blockHashes => s.remove O w blockHashes
  | allBlocksCleared => s.clearWorker O w

end KvEvent

/-- Interleavings of faithful event streams and lookups, with the chains each worker holds. -/
inductive FaithfulRun : TreeState → (KvWorkerId → Set (List ℤ)) → Prop
  | start (now : ℕ) : FaithfulRun (TreeState.new now) fun _ => ∅
  | event {s : TreeState} {held : KvWorkerId → Set (List ℤ)} (hrun : FaithfulRun s held)
      (O : HashOrder NodeId) (w : KvWorkerId) (e : KvEvent) (now : ℕ)
      (hfaithful : e.Faithful (held w)) :
      FaithfulRun (e.apply O s w now) (update held w (e.held (held w)))
  | lookup {s : TreeState} {held : KvWorkerId → Set (List ℤ)} (hrun : FaithfulRun s held)
      (O : HashOrder NodeId) (parentHash : Option ℤ) (blockHashes : List ℤ) (now : ℕ) :
      FaithfulRun (s.matchPrefix O parentHash blockHashes now).2 held

namespace TreeState

open Links (Path)

variable {O : HashOrder NodeId} {s : TreeState} {c d : List ℤ} {w : KvWorkerId}
  {held : KvWorkerId → Set (List ℤ)}

/-- The parent of a stored event is found through the reverse index. -/
theorem Holds.resolveParent_path (H : Holds s held) (hdet : Determined (held w))
    (O : HashOrder NodeId) {parentHash : Option ℤ} (hc : KvEvent.IsParent (held w) parentHash c) :
    s.links.Path (s.resolveParent O w parentHash) c := by
  cases parentHash with
  | none =>
    rw [show c = [] from hc]
    exact Path.root
  | some ph =>
    obtain ⟨hc, hlast⟩ := hc
    obtain ⟨i, p, h, hi, he, hh⟩ := H.exists_edge hc
    obtain rfl : h = ph := Option.some.inj (hh.symm.trans hlast)
    have hmem : i ∈ (s.byHash.lookup h).getD ∅ := H.wf.mem_index_iff.mpr ⟨p, he⟩
    cases hset : s.byHash.lookup h with
    | none =>
      rw [hset] at hmem
      exact absurd hmem (Finset.notMem_empty i)
    | some set =>
      rw [hset] at hmem
      rcases resolveParent_some hset O w with ⟨hone, hr⟩ | ⟨hr, hw⟩ | ⟨-, hnone⟩
      · obtain ⟨a, rfl⟩ := Finset.card_eq_one.mp hone
        rw [Finset.mem_singleton.mp hr, ← Finset.mem_singleton.mp hmem]
        exact hi
      · -- the worker holds the chain of the node found, which ends in the same hash
        have hin : s.resolveParent O w (some h) ∈ (s.byHash.lookup h).getD ∅ := by rwa [hset]
        obtain ⟨q, hq⟩ := H.wf.mem_index_iff.mp hin
        obtain ⟨d, hd⟩ := H.wf.exists_path (by rw [hq]; rfl)
        obtain ⟨e, -, rfl⟩ := H.wf.path_last hd hq
        rw [hdet c hc _ ((H.workers_iff hd w).mp hw) (by rw [hlast, getLast?_concat])]
        exact hd
      · exact absurd ((H.workers_iff hi w).mpr hc) (hnone i hmem)

theorem prefixClosed_stored {H : Set (List ℤ)} (hclosed : PrefixClosed H)
    (parentHash : Option ℤ) (hs : List ℤ) :
    PrefixClosed ((KvEvent.blockStored parentHash hs).held H) := by
  rintro c h (hin | ⟨e, he, k, hk, heq⟩) hne
  · exact Or.inl (hclosed c h hin hne)
  · rw [take_succ_eq_append_getElem hk, ← append_assoc] at heq
    obtain ⟨rfl, -⟩ := append_inj' heq rfl
    cases k with
    | zero =>
      rw [take_zero, append_nil] at hne ⊢
      cases parentHash with
      | none => exact absurd he hne
      | some ph => exact Or.inl he.1
    | succ k => exact Or.inr ⟨e, he, k, by omega, rfl⟩

/-! ## Lookup -/

/-- The descent goes as far as there are nodes, and ends at the node of the matched chain. -/
theorem matchFrom_exact (now : ℕ) (hs : List ℤ) :
    ∀ {s : TreeState} {p : NodeId} {c : List ℤ} (k : ℕ) (last : Option NodeId), s.Wf →
      s.links.Path p c → ∃ d ≤ hs.length, (matchFrom now hs p k last s).1.1 = k + d ∧
        (d = 0 → (matchFrom now hs p k last s).1.2 = last) ∧
        (0 < d → ∃ i, (matchFrom now hs p k last s).1.2 = some i ∧
          s.links.Path i (c ++ hs.take d)) ∧
        (d < hs.length → ∀ i, ¬s.links.Path i (c ++ hs.take (d + 1))) := by
  induction hs with
  | nil =>
    intro s p c k last W hp
    exact ⟨0, le_rfl, rfl, fun _ => rfl, fun h => absurd h (Nat.lt_irrefl 0),
      fun h => absurd h (Nat.not_lt_zero 0)⟩
  | cons h hs ih =>
    intro s p c k last W hp
    rw [matchFrom, kid_apply]
    cases hj : s.links.kid p h with
    | none =>
      refine ⟨0, Nat.zero_le _, rfl, fun _ => rfl, fun h => absurd h (Nat.lt_irrefl 0),
        fun _ i hi => ?_⟩
      rw [W.kid_of_path hp hi] at hj
      cases hj
    | some j =>
      have hlinks := (sameViews_touch s now j).1
      have hpath := Path.child hp (W.kid_iff.mp hj)
      obtain ⟨d, hd, hcount, hzero, hpos, hmax⟩ :=
        ih (k + 1) (some j) (by rwa [Wf, hlinks]) (hlinks ▸ hpath)
      rw [hlinks] at hpos hmax
      have happ : ∀ e, c ++ [h] ++ hs.take e = c ++ (h :: hs).take (e + 1) := by
        intro e
        rw [take_succ_cons, append_assoc, singleton_append]
      refine ⟨d + 1, Nat.succ_le_succ hd, ?_, fun h0 => absurd h0 (Nat.succ_ne_zero d),
        fun _ => ?_, fun hlt i => ?_⟩
      · exact hcount.trans (by omega)
      · rcases Nat.eq_zero_or_pos d with h0 | h0
        · refine ⟨j, hzero h0, ?_⟩
          rw [h0, ← happ, take_zero, append_nil]
          exact hpath
        · rw [← happ]
          exact hpos h0
      · rw [← happ]
        exact hmax (Nat.lt_of_succ_lt_succ hlt) i

/-- Below every node some worker holds a chain through it. -/
theorem Holds.exists_worker (H : Holds s held) (T : s.Tidy ∅)
    (hclosed : ∀ w, PrefixClosed (held w)) {k : ℕ} : ∀ {i c}, s.links.Path i c → i ≠ rootId →
      s.nextId ≤ i + k → ∃ w, c ∈ held w := by
  -- from the leaves up: ids grow downwards and are bounded
  induction k with
  | zero =>
    intro i c hi hne hk
    exact absurd (H.wf.fresh (H.wf.edge_of_path hi)) (not_lt.mpr hk)
  | succ k ih =>
    intro i c hi hne hk
    have hmem := edge_isSome.mp (H.wf.edge_of_path hi)
    by_cases hleaf : ∀ h, s.links.kid i h = none
    · have hworkers : s.holders i ≠ ∅ := fun hempty => T i ⟨hne, hmem, hempty, hleaf⟩
      obtain ⟨w, hw⟩ := Finset.nonempty_iff_ne_empty.mpr hworkers
      exact ⟨w, (H.workers_iff hi w).mp hw⟩
    · obtain ⟨h, hsome⟩ := not_forall.mp hleaf
      obtain ⟨j, hj⟩ := Option.ne_none_iff_exists'.mp hsome
      have he := H.wf.kid_iff.mp hj
      have hlt : i + 1 ≤ j := (H.wf.parent he).2
      obtain ⟨w, hw⟩ := ih (Path.child hi he) (H.wf.ne_root he)
        (hk.trans (by rw [Nat.add_comm k 1, ← Nat.add_assoc]; exact Nat.add_le_add_right hlt k))
      refine ⟨w, hclosed w c h hw ?_⟩
      rintro rfl
      exact hne (Path.nil_iff.mp hi)

/-! ## Exactness -/

/-- The invariant of faithful runs. -/
structure Exact (s : TreeState) (held : KvWorkerId → Set (List ℤ)) : Prop where
  holds : Holds s held
  tidy : s.Tidy ∅
  closed : ∀ w, PrefixClosed (held w)
  determined : ∀ w, Determined (held w)

theorem forall_update {P : Set (List ℤ) → Prop} {H : Set (List ℤ)} (hall : ∀ w, P (held w))
    (hnew : P H) (w w' : KvWorkerId) : P (update held w H w') := by
  by_cases hw : w' = w
  · subst hw
    rwa [update_self]
  · rw [update_of_ne hw]
    exact hall w'

theorem Exact.parent_unique (X : Exact s held) (w : KvWorkerId) {parentHash : Option ℤ}
    (hc : KvEvent.IsParent (held w) parentHash c) (hd : KvEvent.IsParent (held w) parentHash d) :
    c = d := by
  cases parentHash with
  | none => exact Eq.trans hc (Eq.symm hd)
  | some ph => exact X.determined w c hc.1 d hd.1 (hc.2.trans hd.2.symm)

theorem Exact.event (X : Exact s held) (O : HashOrder NodeId) (w : KvWorkerId) {e : KvEvent}
    (now : ℕ) (he : e.Faithful (held w)) :
    Exact (e.apply O s w now) (update held w (e.held (held w))) := by
  cases e with
  | blockStored parentHash hs =>
    obtain ⟨⟨c, hc⟩, hdet⟩ := he
    have hpath := X.holds.resolveParent_path (X.determined w) O hc
    have hsame : (KvEvent.blockStored parentHash hs).held (held w) = held w ∪ below c hs := by
      refine congrArg (held w ∪ ·) ?_
      ext d
      refine ⟨?_, fun hd => ⟨c, hc, hd⟩⟩
      rintro ⟨c', hc', hd⟩
      rwa [X.parent_unique w hc' hc] at hd
    have hspec := insert_spec X.holds.wf X.tidy O w parentHash hs now
    refine ⟨?_, hspec.2, forall_update X.closed (prefixClosed_stored (X.closed w) _ _) w,
      forall_update X.determined hdet w⟩
    rw [hsame, KvEvent.apply, insert_eq]
    exact X.holds.insertFrom w now hs X.tidy hpath
  | blockRemoved hs =>
    refine ⟨X.holds.remove O w hs, (foldl_removeAt_spec w _ X.holds.wf X.tidy).2,
      forall_update X.closed he w, forall_update X.determined ?_ w⟩
    exact fun c hc d hd => X.determined w c hc.1 d hd.1
  | allBlocksCleared =>
    refine ⟨X.holds.clearWorker X.tidy O w, (clearWorker_spec X.holds.wf X.tidy O w).2,
      forall_update X.closed ?_ w, forall_update X.determined ?_ w⟩
    · exact fun _ _ hc => hc.elim
    · exact fun _ hc => hc.elim

theorem Exact.of_run (hrun : FaithfulRun s held) : Exact s held := by
  induction hrun with
  | start now => exact ⟨Holds.new now, tidy_new now, fun _ _ _ hc => hc.elim, fun _ _ hc => hc.elim⟩
  | event _ O w e now he ih => exact ih.event O w now he
  | lookup _ O parentHash hs now ih =>
    obtain ⟨W', T'⟩ := matchPrefix_spec ih.holds.wf ih.tidy O parentHash hs now
    exact ⟨ih.holds.pruned (sameViews_matchPrefix _ O parentHash hs now).pruned W', T', ih.closed,
      ih.determined⟩

/-- What `match_prefix` reports for chains held as `held`. -/
structure MatchExact (held : KvWorkerId → Set (List ℤ)) (hs : List ℤ) (r : MatchResult) :
    Prop where
  isGreatest : IsGreatest { k | k ≤ hs.length ∧ (k = 0 ∨ ∃ w, hs.take k ∈ held w) } r.matchedBlocks
  workers_iff : ∀ w, w ∈ r.workers ↔ hs.take r.matchedBlocks ∈ held w
  workers_eq_empty : r.matchedBlocks = 0 → r.workers = ∅

theorem Exact.matchPrefix (X : Exact s held) (O : HashOrder NodeId) (hs : List ℤ) (now : ℕ) :
    MatchExact held hs (s.matchPrefix O none hs now).1 := by
  have hzero : MatchExact held [] ⟨0, ∅⟩ :=
    ⟨⟨⟨le_rfl, Or.inl rfl⟩, fun k hk => hk.1⟩, fun w => by simpa using X.holds.ne_nil w,
      fun _ => rfl⟩
  unfold TreeState.matchPrefix
  split
  · rename_i hnil
    rw [hnil]
    exact hzero
  · obtain ⟨d, hd, hcount, hlast, hpos, hmax⟩ :=
      matchFrom_exact now hs 0 none X.holds.wf Path.root
    simp only [matchStart]
    rw [hcount, Nat.zero_add]
    simp only [nil_append] at hpos hmax
    have hgreatest : IsGreatest { k | k ≤ hs.length ∧ (k = 0 ∨ ∃ w, hs.take k ∈ held w) } d := by
      refine ⟨⟨hd, ?_⟩, ?_⟩
      · rcases Nat.eq_zero_or_pos d with h0 | h0
        · exact Or.inl h0
        · obtain ⟨i, -, hi⟩ := hpos h0
          refine Or.inr (X.holds.exists_worker X.tidy X.closed hi ?_ (Nat.le_add_left _ _))
          rintro rfl
          have hlen := congrArg List.length (X.holds.wf.path_unique hi Path.root)
          rw [length_take_of_le hd, length_nil] at hlen
          omega
      · rintro k ⟨hk, h0 | ⟨w, hw⟩⟩
        · omega
        · by_contra hlt
          obtain ⟨i, hi⟩ := X.holds.stored hw
          obtain ⟨j, hj⟩ := hi.take (d + 1)
          rw [take_take, min_eq_left (by omega)] at hj
          exact hmax (by omega) j hj
    rcases Nat.eq_zero_or_pos d with h0 | h0
    · rw [hlast h0, h0]
      exact ⟨h0 ▸ hgreatest, fun w => by simpa using X.holds.ne_nil w, fun _ => rfl⟩
    · obtain ⟨i, hi, hpath⟩ := hpos h0
      have hworkers : ∀ t : TreeState, t.holders = s.holders →
          ((some i).bind t.nodes.lookup).elim ∅ (·.workers) = s.holders i := fun t ht => ht ▸ rfl
      rw [hi, hworkers _ (sameViews_matchFrom now hs s rootId 0 none).2]
      refine ⟨hgreatest, X.holds.workers_iff hpath, fun heq => ?_⟩
      exact absurd heq (by simp only; omega)

/-- Lookups are exact after every interleaving of faithful streams. -/
theorem matchExact_of_faithfulRun (hrun : FaithfulRun s held) (O : HashOrder NodeId)
    (hs : List ℤ) (now : ℕ) : MatchExact held hs (s.matchPrefix O none hs now).1 :=
  (Exact.of_run hrun).matchPrefix O hs now

/-- A worker that stored two blocks is found for both of them. -/
theorem matchExact_twoBlocks :
    ∃ held, FaithfulRun ((new 0).insert HashOrder.increasing ⟨"http://a", 0⟩ none [1, 2] 5) held ∧
      [1, 2] ∈ held ⟨"http://a", 0⟩ ∧
      MatchExact held [1, 2, 3] (((new 0).insert HashOrder.increasing ⟨"http://a", 0⟩ none [1, 2]
        5).matchPrefix HashOrder.increasing none [1, 2, 3] 9).1 := by
  have hchains : ∀ d ∈ (KvEvent.blockStored none [1, 2]).held ∅, d = [1] ∨ d = [1, 2] := by
    rintro d (hd | ⟨c, hc, k, hk, rfl⟩)
    · exact hd.elim
    · rw [show c = [] from hc]
      have hlt : k < 2 := hk
      interval_cases k
      · exact Or.inl rfl
      · exact Or.inr rfl
  have hfaithful : (KvEvent.blockStored none [1, 2]).Faithful ∅ := by
    refine ⟨⟨[], rfl⟩, fun c hc d hd heq => ?_⟩
    rcases hchains c hc with rfl | rfl <;> rcases hchains d hd with rfl | rfl
    · rfl
    · exact absurd heq (by decide)
    · exact absurd heq (by decide)
    · rfl
  have hrun := (FaithfulRun.start 0).event HashOrder.increasing ⟨"http://a", 0⟩
    (.blockStored none [1, 2]) 5 hfaithful
  refine ⟨_, hrun, ?_, matchExact_of_faithfulRun hrun HashOrder.increasing [1, 2, 3] 9⟩
  exact Or.inr ⟨[], rfl, 1, by decide, rfl⟩

end TreeState

end Sglang.Router
