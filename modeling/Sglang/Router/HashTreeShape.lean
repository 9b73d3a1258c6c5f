import Sglang.Router.HashTree

/-!
# The shape of the hash tree

Arena, child links and reverse index agree: children are linked both ways, the index of a
hash is the set of nodes that carry it, and no leaf is without workers. Ids grow from
parent to child, which makes the links a tree. Every operation is a chain of three changes:
relabelling a node, hanging a new leaf below a node and cutting off a leaf without workers.
-/

namespace Sglang.Router

open Sglang.Support (Dict HashOrder)
open Finmap Function

theorem update_update_apply {α β γ : Type*} [DecidableEq α] [DecidableEq β] (f : α → β → γ)
    (a a' : α) (b b' : β) (v : γ) :
    update f a (update (f a) b v) a' b' = if a' = a ∧ b' = b then v else f a' b' := by
  by_cases ha : a' = a
  · subst ha
    simp [update_apply]
  · simp [ha]

/-- Hash and parent of every node, its children, and the reverse index. -/
@[ext] structure Links where
  edge : NodeId → Option (ℤ × Option NodeId)
  kid : NodeId → ℤ → Option NodeId
  index : ℤ → Option (Finset NodeId)
  nextId : NodeId

namespace Links

variable {L : Links} {i j c p : NodeId} {h : ℤ} {e : ℤ × Option NodeId}

structure Wf (L : Links) : Prop where
  root : ∃ h, L.edge rootId = some (h, none)
  eq_root : ∀ {i h}, L.edge i = some (h, none) → i = rootId
  kid_iff : ∀ {i h j}, L.kid i h = some j ↔ L.edge j = some (h, some i)
  parent : ∀ {i h p}, L.edge i = some (h, some p) → (L.edge p).isSome ∧ p < i
  fresh : ∀ {i}, (L.edge i).isSome → i < L.nextId
  mem_index_iff : ∀ {h i}, i ∈ (L.index h).getD ∅ ↔ ∃ p, L.edge i = some (h, some p)
  index_ne : ∀ h, L.index h ≠ some ∅

theorem Wf.ne_root (W : L.Wf) (hi : L.edge i = some (h, some p)) : i ≠ rootId := by
  rintro rfl
  obtain ⟨r, hr⟩ := W.root
  rw [hi] at hr
  cases hr

/-- The links with a new leaf for `h` below `p`. -/
def grow (L : Links) (p : NodeId) (h : ℤ) : Links where
  edge := update L.edge L.nextId (some (h, some p))
  kid := update L.kid p (update (L.kid p) h (some L.nextId))
  index := update L.index h (some (insert L.nextId ((L.index h).getD ∅)))
  nextId := L.nextId + 1

theorem Wf.edge_grow (W : L.Wf) : (L.grow p h).edge i = some e ↔
    i = L.nextId ∧ e = (h, some p) ∨ L.edge i = some e := by
  have hnew : L.edge L.nextId = none := by
    by_contra hsome
    exact lt_irrefl _ (W.fresh (Option.isSome_iff_ne_none.mpr hsome))
  change update L.edge L.nextId _ i = some e ↔ _
  rw [update_apply]
  split
  · rename_i heq
    rw [heq, hnew]
    simp [eq_comm]
  · rename_i hne
    simp [hne]

theorem Wf.grow (W : L.Wf) (hp : (L.edge p).isSome) (hfree : L.kid p h = none) :
    (L.grow p h).Wf := by
  have hold : ∀ {i}, (L.edge i).isSome → ((L.grow p h).edge i).isSome := by
    intro i hi
    obtain ⟨e, he⟩ := Option.isSome_iff_exists.mp hi
    rw [W.edge_grow.mpr (Or.inr he)]
    rfl
  constructor
  · obtain ⟨r, hr⟩ := W.root
    exact ⟨r, W.edge_grow.mpr (Or.inr hr)⟩
  · intro i h' hi
    rcases W.edge_grow.mp hi with ⟨-, heq⟩ | hi
    · cases heq
    · exact W.eq_root hi
  · intro i h' j
    rw [W.edge_grow, ← W.kid_iff]
    change update L.kid p (update (L.kid p) h _) i h' = _ ↔ _
    rw [update_update_apply]
    split
    · rename_i heq
      simp [heq, hfree, eq_comm]
    · rename_i hne
      rw [Prod.mk.injEq, Option.some.injEq, and_comm (a := h' = h)]
      simp [hne]
  · intro i h' q hi
    rcases W.edge_grow.mp hi with ⟨rfl, heq⟩ | hi
    · cases heq
      exact ⟨hold hp, W.fresh hp⟩
    · exact ⟨hold (W.parent hi).1, (W.parent hi).2⟩
  · intro i hi
    obtain ⟨e, he⟩ := Option.isSome_iff_exists.mp hi
    rcases W.edge_grow.mp he with ⟨rfl, -⟩ | he
    · exact Nat.lt_succ_self _
    · exact Nat.lt_succ_of_lt (W.fresh (by rw [he]; rfl))
  · intro h' i
    simp only [W.edge_grow, exists_or, ← W.mem_index_iff, Prod.mk.injEq]
    change i ∈ (update L.index h _ h').getD ∅ ↔ _
    rw [update_apply]
    split
    · rename_i heq
      simp [heq]
    · rename_i hne
      simp [hne]
  · intro h'
    change update L.index h _ h' ≠ some ∅
    rw [update_apply]
    split
    · exact fun heq => Finset.insert_ne_empty _ _ (Option.some.inj heq)
    · exact W.index_ne h'

/-- The links without the leaf `c`, the child of `p` for `h`. -/
def trim (L : Links) (c p : NodeId) (h : ℤ) : Links where
  edge := update L.edge c none
  kid := update L.kid p (update (L.kid p) h none)
  index := update L.index h (((L.index h).map (·.erase c)).filter (· ≠ ∅))
  nextId := L.nextId

theorem edge_trim : (L.trim c p h).edge i = some e ↔ i ≠ c ∧ L.edge i = some e := by
  change update L.edge c none i = some e ↔ _
  rw [update_apply]
  split
  · rename_i heq
    simp [heq]
  · rename_i hne
    simp [hne]

theorem Wf.trim (W : L.Wf) (hc : L.edge c = some (h, some p)) (hleaf : ∀ h', L.kid c h' = none) :
    (L.trim c p h).Wf := by
  constructor
  · obtain ⟨r, hr⟩ := W.root
    exact ⟨r, edge_trim.mpr ⟨(W.ne_root hc).symm, hr⟩⟩
  · exact fun hi => W.eq_root (edge_trim.mp hi).2
  · intro i h' j
    rw [edge_trim, ← W.kid_iff]
    change update L.kid p (update (L.kid p) h _) i h' = _ ↔ _
    rw [update_update_apply]
    split
    · rename_i heq
      rw [heq.1, heq.2, W.kid_iff.mpr hc]
      simp [eq_comm]
    · rename_i hne
      refine ⟨fun hj => ⟨?_, hj⟩, fun hj => hj.2⟩
      rintro rfl
      rw [W.kid_iff, hc] at hj
      cases hj
      exact hne ⟨rfl, rfl⟩
  · intro i h' q hi
    rw [edge_trim] at hi
    replace hi := hi.2
    have hqc : q ≠ c := by
      rintro rfl
      rw [← W.kid_iff, hleaf] at hi
      cases hi
    obtain ⟨e, he⟩ := Option.isSome_iff_exists.mp (W.parent hi).1
    refine ⟨?_, (W.parent hi).2⟩
    rw [edge_trim.mpr ⟨hqc, he⟩]
    rfl
  · intro i hi
    obtain ⟨e, he⟩ := Option.isSome_iff_exists.mp hi
    exact W.fresh (by rw [(edge_trim.mp he).2]; rfl)
  · intro h' i
    simp only [edge_trim, exists_and_left, ← W.mem_index_iff]
    change i ∈ (update L.index h _ h').getD ∅ ↔ _
    rw [update_apply]
    split
    · rename_i heq
      rw [heq]
      cases L.index h with
      | none => simp
      | some set =>
        rw [Option.getD_some, ne_eq, ← Finset.mem_erase]
        by_cases hempty : set.erase c = ∅ <;> simp [Option.filter_some, hempty]
    · rename_i hne
      refine ⟨fun hi => ⟨?_, hi⟩, fun hi => hi.2⟩
      rintro rfl
      obtain ⟨q, hq⟩ := W.mem_index_iff.mp hi
      rw [hc] at hq
      cases hq
      exact hne rfl
  · intro h'
    change update L.index h _ h' ≠ some ∅
    rw [update_apply]
    split
    · intro heq
      simpa using (Option.filter_eq_some_iff.mp heq).2
    · exact W.index_ne h'

end Links

namespace TreeState

variable {s s' : TreeState} {i j p c : NodeId} {n m : Node} {h : ℤ} {E : Set NodeId}

def node (s : TreeState) (i : NodeId) : Option Node := s.nodes.lookup i

abbrev edgeOf : Option Node → Option (ℤ × Option NodeId) :=
  Option.map fun n => (n.blockHash, n.parent)

abbrev kidsOf (n : Option Node) (h : ℤ) : Option NodeId := n.bind fun n => n.children.lookup h

abbrev workersOf (n : Option Node) : Finset KvWorkerId := n.elim ∅ Node.workers

def links (s : TreeState) : Links where
  edge := edgeOf ∘ s.node
  kid := kidsOf ∘ s.node
  index h := s.byHash.lookup h
  nextId := s.nextId

/-- The workers listed at a node. -/
def holders (s : TreeState) : NodeId → Finset KvWorkerId := workersOf ∘ s.node

abbrev Wf (s : TreeState) : Prop := s.links.Wf

theorem edge_eq (hi : s.node i = some n) : s.links.edge i = some (n.blockHash, n.parent) :=
  congrArg edgeOf hi

theorem kid_eq (hi : s.node i = some n) : s.links.kid i = n.children.lookup :=
  congrArg kidsOf hi

theorem kid_apply (s : TreeState) (p : NodeId) (h : ℤ) :
    ((s.nodes.lookup p).bind fun n => n.children.lookup h) = s.links.kid p h :=
  rfl

theorem holders_eq (hi : s.node i = some n) : s.holders i = n.workers :=
  congrArg workersOf hi

theorem edge_isSome : (s.links.edge i).isSome ↔ i ∈ s.nodes.keys := by
  change (Option.map _ (s.nodes.lookup i)).isSome ↔ _
  rw [Option.isSome_map, Dict.mem_keys_iff, Option.isSome_iff_exists]

/-- A leaf without workers. -/
def Bare (s : TreeState) (i : NodeId) : Prop :=
  i ≠ rootId ∧ i ∈ s.nodes.keys ∧ s.holders i = ∅ ∧ ∀ h, s.links.kid i h = none

theorem bare_iff (hi : s.nodes.lookup i = some n) (hne : i ≠ rootId) : s.Bare i ↔ n.isPrunable := by
  simp only [Bare, Node.isPrunable, holders_eq hi, kid_eq hi, ← Dict.eq_empty_iff,
    Dict.mem_keys_iff, hi]
  simp [hne]

/-- Leaves without workers occur in `E` only. -/
def Tidy (s : TreeState) (E : Set NodeId) : Prop := ∀ i, s.Bare i → i ∈ E

theorem Tidy.mono {F : Set NodeId} (h : s.Tidy E) (hsub : E ⊆ F) : s.Tidy F := fun i hi =>
  hsub (h i hi)

theorem Tidy.of_not_bare (T : s.Tidy E) (hi : ¬s.Bare i) : s.Tidy (E \ {i}) := fun j hj =>
  ⟨T j hj, fun heq => hi (heq ▸ hj)⟩

theorem lookup_new (now : ℕ) (i : NodeId) : (new now).nodes.lookup i =
    if i = rootId then some ⟨rootHashSentinel, none, ∅, ∅, now⟩ else none := by
  rw [new, Dict.lookup_insert_eq, lookup_empty]

theorem Wf.new (now : ℕ) : (TreeState.new now).Wf := by
  have hedge : ∀ {i e}, (TreeState.new now).links.edge i = some e ↔
      i = rootId ∧ e = (rootHashSentinel, none) := by
    intro i e
    change Option.map _ ((TreeState.new now).nodes.lookup i) = _ ↔ _
    rw [lookup_new]
    split <;> simp [*, eq_comm]
  have hkid : ∀ i h, (TreeState.new now).links.kid i h = none := by
    intro i h
    change Option.bind ((TreeState.new now).nodes.lookup i) _ = _
    rw [lookup_new]
    split <;> rfl
  have hindex : ∀ h, (TreeState.new now).links.index h = none := fun h => rfl
  refine ⟨⟨_, hedge.mpr ⟨rfl, rfl⟩⟩, fun hi => (hedge.mp hi).1, ?_, ?_, ?_, ?_, ?_⟩
  · simp [hkid, hedge]
  · intro i h p hi
    cases (hedge.mp hi).2
  · intro i hi
    obtain ⟨e, he⟩ := Option.isSome_iff_exists.mp hi
    rw [(hedge.mp he).1]
    exact Nat.zero_lt_one
  · simp [hindex, hedge]
  · simp [hindex]

theorem tidy_new (now : ℕ) : (TreeState.new now).Tidy ∅ := by
  rintro i ⟨hne, hmem, -⟩
  rw [Dict.mem_keys_iff, lookup_new, if_neg hne] at hmem
  obtain ⟨n, hn⟩ := hmem
  cases hn

/-! ## Relabelling -/

section Modify

variable (s) (i : NodeId) {f : Node → Node}

theorem node_modify : node { s with nodes := Dict.modify s.nodes i f } =
    update s.node i ((s.node i).map f) := by
  funext j
  rw [node, Dict.lookup_modify_eq, update_apply]
  rfl

/-- Workers and time stamp of a node change. -/
theorem links_modify (hf : ∀ n, (f n).blockHash = n.blockHash ∧ (f n).parent = n.parent ∧
      (f n).children = n.children) :
    links { s with nodes := Dict.modify s.nodes i f } = s.links := by
  unfold links
  rw [node_modify, comp_update, comp_update]
  congr 1
  · refine update_eq_self_iff.mpr ?_
    simp [hf, Function.comp_def]
  · refine update_eq_self_iff.mpr ?_
    funext h
    simp [hf, Option.bind_map]

theorem holders_modify {g : Finset KvWorkerId → Finset KvWorkerId}
    (hf : ∀ n, (f n).workers = g n.workers) (hg : s.node i = none → g ∅ = ∅) :
    holders { s with nodes := Dict.modify s.nodes i f } = update s.holders i (g (s.holders i)) := by
  unfold holders
  rw [node_modify, comp_update]
  congr 1
  cases hi : s.node i with
  | none => simp [hi, hg hi]
  | some n => simp [hi, hf]

end Modify

/-- A relabelled node may become bare, no other one does. -/
theorem Tidy.relabel (T : s.Tidy E) (hlinks : s'.links = s.links) {W : Finset KvWorkerId}
    (hholders : s'.holders = update s.holders i W) : s'.Tidy (E ∪ {i}) := by
  rintro j ⟨hne, hmem, hworkers, hkid⟩
  by_cases heq : j = i
  · exact Or.inr heq
  · rw [hlinks] at hkid
    rw [← edge_isSome, hlinks, edge_isSome] at hmem
    rw [hholders, update_of_ne heq] at hworkers
    exact Or.inl (T j ⟨hne, hmem, hworkers, hkid⟩)

/-! ## A new leaf -/

/-- Node `a` comes or goes, and the children of `p` change with it. -/
theorem views_of_node {a : NodeId} {x y : Option Node} (hne : a ≠ p)
    (hnode : s'.node = update (update s.node a x) p y) (hkid : kidsOf x = s.links.kid a)
    (hedge : edgeOf y = s.links.edge p) (hx : workersOf x = s.holders a)
    (hy : workersOf y = s.holders p) : s'.links.edge = update s.links.edge a (edgeOf x) ∧
      s'.links.kid = update s.links.kid p (kidsOf y) ∧ s'.holders = s.holders := by
  refine ⟨?_, ?_, ?_⟩
  · change edgeOf ∘ s'.node = _
    rw [hnode, update_comm hne, comp_update, comp_update, hedge]
    exact congrArg (update · a _) (update_eq_self p s.links.edge)
  · change kidsOf ∘ s'.node = _
    rw [hnode, comp_update, comp_update, hkid]
    exact congrArg (update · p _) (update_eq_self a s.links.kid)
  · change workersOf ∘ s'.node = _
    rw [hnode, comp_update, comp_update, hx, hy]
    exact (congrArg (update · p _) (update_eq_self a s.holders)).trans (update_eq_self p s.holders)

theorem createChild_spec (W : s.Wf) (hp : s.node p = some n) (h : ℤ) (now : ℕ) :
    ∃ t, s.createChild p h now = (some s.nextId, t) ∧ t.links = s.links.grow p h ∧
      t.holders = s.holders := by
  have hne : p ≠ s.nextId := (W.fresh (by rw [edge_eq hp]; rfl)).ne
  have hnew : s.node s.nextId = none := by
    by_contra hsome
    have hmem := Dict.mem_keys_iff.mpr (Option.ne_none_iff_exists'.mp hsome)
    exact lt_irrefl s.nextId (W.fresh (edge_isSome.mpr hmem))
  have hparent : (s.nodes.insert s.nextId (Node.newChild h p now)).lookup p = some n :=
    (lookup_insert_of_ne _ hne).trans hp
  obtain ⟨t, ht⟩ : ∃ t, s.createChild p h now = (some s.nextId, t) := by
    simp only [createChild, hparent]
    exact ⟨_, rfl⟩
  have hstate := ht
  simp only [createChild, hparent, Prod.mk.injEq, true_and] at hstate
  have hnode : t.node = update (update s.node s.nextId (some (Node.newChild h p now))) p
      (some { n with children := n.children.insert h s.nextId }) := by
    funext i
    rw [← hstate, node, Dict.lookup_modify_eq, hparent, Dict.lookup_insert_eq, update_apply,
      update_apply]
    rfl
  obtain ⟨hedge, hkid, hholders⟩ := views_of_node hne.symm hnode
    (congrArg kidsOf hnew).symm (edge_eq hp).symm (congrArg workersOf hnew).symm
    (holders_eq hp).symm
  refine ⟨t, ht, Links.ext hedge (hkid.trans ?_) ?_ ?_, hholders⟩
  · refine congrArg (update _ p) (funext fun h' => ?_)
    rw [update_apply, kid_eq hp]
    exact Dict.lookup_insert_eq ..
  · funext h'
    rw [← hstate]
    exact (Dict.lookup_insert_eq ..).trans (update_apply s.links.index h _ h').symm
  · rw [← hstate]
    rfl

/-- Only the new leaf may be bare. -/
theorem Tidy.grow (T : s.Tidy ∅) (W : s.Wf) (hlinks : s'.links = s.links.grow p h)
    (hholders : s'.holders = s.holders) : s'.Tidy {s.nextId} := by
  rintro i ⟨hne, hmem, hworkers, hkid⟩
  by_contra hnew
  rw [← edge_isSome, hlinks] at hmem
  obtain ⟨e, he⟩ := Option.isSome_iff_exists.mp hmem
  have hold := (W.edge_grow.mp he).resolve_left fun heq => hnew heq.1
  refine T i ⟨hne, edge_isSome.mp (by rw [hold]; rfl), hholders ▸ hworkers, fun h' => ?_⟩
  have hnone := hkid h'
  rw [hlinks] at hnone
  change update s.links.kid p (update (s.links.kid p) h _) i h' = none at hnone
  rw [update_update_apply] at hnone
  split at hnone
  · cases hnone
  · exact hnone

/-! ## Cutting off a leaf -/

theorem detach_spec (hc : s.node c = some n) (hp : s.node p = some m)
    (hne : c ≠ p) (hbare : n.isPrunable) :
    (s.detach c p n.blockHash).links = s.links.trim c p n.blockHash ∧
      (s.detach c p n.blockHash).holders = s.holders := by
  have hnode : (s.detach c p n.blockHash).node = update (update s.node c none) p
      (some { m with children := m.children.erase n.blockHash }) := by
    funext i
    rw [update_comm hne, node, detach, Dict.lookup_erase_eq, Dict.lookup_modify_eq, update_apply,
      update_apply]
    have hp' : s.nodes.lookup p = some m := hp
    rw [hp']
    rfl
  have hleaf : kidsOf none = s.links.kid c := by
    rw [kid_eq hc, hbare.2]
    rfl
  obtain ⟨hedge, hkid, hholders⟩ := views_of_node hne hnode hleaf (edge_eq hp).symm
    (hbare.1.symm.trans (holders_eq hc).symm) (holders_eq hp).symm
  refine ⟨Links.ext hedge (hkid.trans ?_) ?_ rfl, hholders⟩
  · refine congrArg (update _ p) (funext fun h' => ?_)
    rw [update_apply, kid_eq hp]
    exact Dict.lookup_erase_eq ..
  · funext h'
    change (s.unindex n.blockHash c).lookup h' = update s.byHash.lookup n.blockHash _ h'
    rw [unindex, update_apply]
    change _ = if h' = n.blockHash then ((s.byHash.lookup n.blockHash).map (·.erase c)).filter _
      else s.byHash.lookup h'
    cases hset : s.byHash.lookup n.blockHash with
    | none =>
      by_cases heq : h' = n.blockHash
      · rw [if_pos heq, heq]
        exact hset
      · rw [if_neg heq]
    | some set =>
      by_cases hempty : set.erase c = ∅
      · simp [Dict.lookup_erase_eq, Option.filter_some, hempty]
      · simp [Dict.lookup_insert_eq, Option.filter_some, hempty]

/-- Only the parent of the leaf may become bare. -/
theorem Tidy.trim (T : s.Tidy E) (hlinks : s'.links = s.links.trim c p h)
    (hholders : s'.holders = s.holders) : s'.Tidy (E \ {c} ∪ {p}) := by
  rintro i ⟨hne, hmem, hworkers, hkid⟩
  rw [← edge_isSome, hlinks] at hmem
  obtain ⟨e, he⟩ := Option.isSome_iff_exists.mp hmem
  obtain ⟨hic, he⟩ := Links.edge_trim.mp he
  by_cases hip : i = p
  · exact Or.inr hip
  · refine Or.inl ⟨T i ⟨hne, edge_isSome.mp (by rw [he]; rfl), hholders ▸ hworkers, ?_⟩, hic⟩
    intro h'
    have hnone := hkid h'
    rw [hlinks] at hnone
    exact (congrFun (update_of_ne hip _ _) h').symm.trans hnone

/-- Only nodes without workers are missing from `s'`. -/
structure Pruned (s s' : TreeState) : Prop where
  edge : ∀ {i e}, s'.links.edge i = some e → s.links.edge i = some e
  holders : s'.holders = s.holders

namespace Pruned

theorem refl (s : TreeState) : Pruned s s := ⟨fun hi => hi, rfl⟩

theorem trans {s'' : TreeState} (P : Pruned s s') (Q : Pruned s' s'') : Pruned s s'' :=
  ⟨fun hi => P.edge (Q.edge hi), Q.holders.trans P.holders⟩

theorem keys_subset (P : Pruned s s') : s'.nodes.keys ⊆ s.nodes.keys := by
  intro i hi
  obtain ⟨e, he⟩ := Option.isSome_iff_exists.mp (edge_isSome.mpr hi)
  exact edge_isSome.mp (by rw [P.edge he]; rfl)

end Pruned

theorem Wf.root_mem (W : s.Wf) : rootId ∈ s.nodes.keys := by
  obtain ⟨r, hr⟩ := W.root
  exact edge_isSome.mp (by rw [hr]; rfl)

/-- What the prune loop leaves: the node is gone if it was bare, and with it every ancestor
that became bare on the way. -/
theorem pruneLoop_spec {fuel : ℕ} : ∀ {s : TreeState} {c : NodeId} {E : Set NodeId}, s.Wf →
    s.nodes.keys.card ≤ fuel → s.Tidy E → (pruneLoop fuel c s).Wf ∧ Pruned s (pruneLoop fuel c s) ∧
      (pruneLoop fuel c s).Tidy (E \ {c}) ∧ (s.Bare c → c ∉ (pruneLoop fuel c s).nodes.keys) := by
  induction fuel with
  | zero =>
    intro s c E W hfuel
    exact absurd (Finset.card_pos.mpr ⟨_, W.root_mem⟩) (by omega)
  | succ fuel ih =>
    intro s c E W hfuel T
    have hstop : ¬s.Bare c → s.Wf ∧ Pruned s s ∧ s.Tidy (E \ {c}) ∧
        (s.Bare c → c ∉ s.nodes.keys) := fun hbare =>
      ⟨W, Pruned.refl s, T.of_not_bare hbare, fun h => absurd h hbare⟩
    rw [pruneLoop]
    split
    · rename_i hroot
      exact hstop fun hbare => hbare.1 hroot
    · rename_i hroot
      cases hc : s.nodes.lookup c with
      | none =>
        refine hstop fun hbare => ?_
        obtain ⟨n, hn⟩ := Dict.mem_keys_iff.mp hbare.2.1
        rw [hc] at hn
        cases hn
      | some n =>
        obtain ⟨hash, _ | p, workers, children, lastUsed⟩ := n
        · exact absurd (W.eq_root (edge_eq hc)) hroot
        · dsimp only
          split
          · rename_i hprun
            exact hstop fun hbare => hprun ((bare_iff hc hroot).mp hbare)
          · rename_i hprun
            have hbare := not_not.mp hprun
            obtain ⟨hsome, hlt⟩ := W.parent (edge_eq hc)
            obtain ⟨m, hm⟩ := Dict.mem_keys_iff.mp (edge_isSome.mp hsome)
            obtain ⟨hlinks, hholders⟩ := detach_spec hc hm hlt.ne' hbare
            have hleaf := ((bare_iff hc hroot).mpr hbare).2.2.2
            have W' : (s.detach c p hash).Wf := by
              rw [Wf, hlinks]
              exact Links.Wf.trim W (edge_eq hc) hleaf
            have P : Pruned s (s.detach c p hash) := by
              refine ⟨fun hi => ?_, hholders⟩
              rw [hlinks] at hi
              exact (Links.edge_trim.mp hi).2
            have T' := T.trim hlinks hholders
            have hgone : c ∉ (s.detach c p hash).nodes.keys := by
              rw [← edge_isSome, hlinks]
              simp [Links.trim]
            have hcard : (s.detach c p hash).nodes.keys.card ≤ fuel := by
              have hin : c ∈ s.nodes.keys := Dict.mem_keys_iff.mpr ⟨_, hc⟩
              have hlt := Finset.card_lt_card (Finset.ssubset_iff_subset_ne.mpr
                ⟨P.keys_subset, fun heq => hgone (heq ▸ hin)⟩)
              omega
            have hset : (E \ {c} ∪ {p}) \ {p} ⊆ E \ {c} := by
              rintro i ⟨hi | hi, hip⟩
              · exact hi
              · exact absurd hi hip
            cases hp : (s.detach c p hash).nodes.lookup p with
            | none =>
              refine ⟨W', P, (T'.of_not_bare fun hbare => ?_).mono hset, fun _ => hgone⟩
              obtain ⟨k, hk⟩ := Dict.mem_keys_iff.mp hbare.2.1
              rw [hp] at hk
              cases hk
            | some k =>
              dsimp only
              split
              · obtain ⟨W'', P', T'', -⟩ := ih W' hcard T'
                exact ⟨W'', P.trans P', T''.mono hset, fun _ hin => hgone (P'.keys_subset hin)⟩
              · rename_i hnot
                refine ⟨W', P, (T'.of_not_bare fun hbare => ?_).mono hset, fun _ => hgone⟩
                exact hnot ⟨hbare.1, (bare_iff hp hbare.1).mp hbare⟩

theorem pruneCascade_spec (W : s.Wf) (T : s.Tidy E) (c : NodeId) :
    (s.pruneCascade c).Wf ∧ Pruned s (s.pruneCascade c) ∧ (s.pruneCascade c).Tidy (E \ {c}) ∧
      (s.Bare c → c ∉ (s.pruneCascade c).nodes.keys) :=
  pruneLoop_spec W le_rfl T

end TreeState

end Sglang.Router
