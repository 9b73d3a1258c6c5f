import Sglang.Gateway.TenantTree
import Sglang.Support.PathTree

/-!
# The shape of the prefix tree

The heap represents a path-compressed tree whose edges are told apart by their first
characters: `live` are its nodes, `path n` is the text read from the root to `n`.
Splitting an edge, attaching a leaf and unlinking a leaf keep the representation.
-/

namespace Sglang.Gateway

open Sglang.Support Function Gateway.Tree

namespace Tree

variable (T : Tree)

/-- The parent of a node other than the root. -/
def parentOf (n : NodeId) : NodeId := (T.node n).parent.getD rootId

/-- The text of a node. -/
def label (n : NodeId) : List Char := (T.node n).text.text

end Tree

/-- The heap represents the tree. -/
structure Shape (T : Tree) (live : Finset NodeId) (path : NodeId → List Char) : Prop where
  tree : PathTree id 1 live rootId T.parentOf T.label path
  fresh : ∀ {n}, n ∈ live → n < T.nextId
  parent_some : ∀ {n}, n ∈ live → n ≠ rootId → (T.node n).parent = some (T.parentOf n)
  root_parent : (T.node rootId).parent = none
  root_label : T.label rootId = []
  count_eq : ∀ {n}, n ∈ live → (T.node n).text.charCount = (T.label n).length
  child_iff : ∀ {p c n}, p ∈ live → ((T.node p).children.lookup c = some n ↔
    n ∈ live ∧ n ≠ rootId ∧ T.parentOf n = p ∧ (T.label n).head? = some c)

theorem take_one_eq_iff {l m : List Char} :
    (l.take 1).map id = (m.take 1).map id ↔ l.head? = m.head? := by
  cases l <;> cases m <;> simp

namespace Shape

variable {T T' : Tree} {live : Finset NodeId} {path : NodeId → List Char}
  (S : Shape T live path) {n m p c : NodeId}

include S

theorem root_mem : rootId ∈ live := S.tree.root_mem

theorem nextId_notMem : T.nextId ∉ live := fun h => lt_irrefl _ (S.fresh h)

theorem nextId_ne (hn : n ∈ live) : n ≠ T.nextId := (S.fresh hn).ne

theorem exists_head (hn : n ∈ live) (hr : n ≠ rootId) : ∃ c, (T.label n).head? = some c := by
  obtain ⟨c, rest, h⟩ := List.exists_cons_of_ne_nil (S.tree.label_ne hn hr)
  exact ⟨c, by rw [h, List.head?_cons]⟩

theorem fresh_insert (hnext : T'.nextId = T.nextId + 1) (hn : n ∈ insert T.nextId live) :
    n < T'.nextId := by
  rw [hnext]
  rcases Finset.mem_insert.mp hn with rfl | hn
  · exact Nat.lt_succ_self _
  · exact (S.fresh hn).trans (Nat.lt_succ_self _)

theorem parentOf_ne (hn : n ∈ live) (hr : n ≠ rootId) : T.parentOf n ≠ n := by
  intro h
  have hlt := S.tree.length_parent_lt hn hr
  rw [h] at hlt
  exact lt_irrefl _ hlt

/-! ## Children -/

theorem mem_kids (O : HashOrder Char) (hp : p ∈ live) :
    n ∈ T.kids O p ↔ n ∈ live ∧ n ≠ rootId ∧ T.parentOf n = p := by
  rw [kids, List.mem_filterMap]
  constructor
  · rintro ⟨c, _, hc⟩
    obtain ⟨hn, hr, hparent, _⟩ := (S.child_iff hp).mp hc
    exact ⟨hn, hr, hparent⟩
  · rintro ⟨hn, hr, hparent⟩
    obtain ⟨c, hc⟩ := S.exists_head hn hr
    have hlook := (S.child_iff hp).mpr ⟨hn, hr, hparent, hc⟩
    exact ⟨c, O.mem_list.mpr (Dict.mem_keys_iff.mpr ⟨n, hlook⟩), hlook⟩

theorem nodup_kids (O : HashOrder Char) (hp : p ∈ live) : (T.kids O p).Nodup := by
  refine List.Nodup.filterMap (fun a b n ha hb => ?_) (O.nodup _)
  have hca := ((S.child_iff hp).mp (Option.mem_def.mp ha)).2.2.2
  have hcb := ((S.child_iff hp).mp (Option.mem_def.mp hb)).2.2.2
  exact Option.some.inj (hca.symm.trans hcb)

theorem childHas_iff (O : HashOrder Char) (hp : p ∈ live) {tenant : String} :
    T.childHas O p tenant = true ↔
      ∃ n ∈ live, n ≠ rootId ∧ T.parentOf n = p ∧ tenant ∈ T.tenants n := by
  simp only [childHas, List.any_eq_true, S.mem_kids O hp, decide_eq_true_eq, and_assoc]

theorem children_eq_empty_iff (hp : p ∈ live) :
    (T.node p).children = ∅ ↔ ∀ n ∈ live, n ≠ rootId → T.parentOf n ≠ p := by
  rw [Dict.eq_empty_iff]
  constructor
  · intro h n hn hr hparent
    obtain ⟨c, hc⟩ := S.exists_head hn hr
    have hlook := (S.child_iff hp).mpr ⟨hn, hr, hparent, hc⟩
    rw [h c] at hlook
    cases hlook
  · intro h c
    cases hlook : (T.node p).children.lookup c with
    | none => rfl
    | some n =>
      obtain ⟨hn, hr, hparent, _⟩ := (S.child_iff hp).mp hlook
      exact absurd hparent (h n hn hr)

theorem rooted (O : HashOrder Char) : Rooted live rootId T.parentOf (T.kids O) where
  root_mem := S.root_mem
  induct motive hbase hstep := S.tree.induct (motive := motive) hbase hstep
  nodup hp := S.nodup_kids O hp
  mem_kids hp := S.mem_kids O hp

theorem card_live_le : live.card ≤ T.nextId := by
  have hsub : live ⊆ Finset.range T.nextId := fun n hn => Finset.mem_range.mpr (S.fresh hn)
  exact (Finset.card_le_card hsub).trans (Finset.card_range _).le

/-- The traversals pop the nodes of the tree, each once. -/
theorem visited_spec (O : HashOrder Char) :
    ∃ nodes, T.visited O = some nodes ∧ nodes.Nodup ∧ ∀ n, n ∈ nodes ↔ n ∈ live :=
  (S.rooted O).dfs_spec (Nat.lt_succ_of_le S.card_live_le)

end Shape

/-! ## Changes of anything but the tree -/

/-- `T'` with the children, texts and parents of `T`. -/
def Tree.reshape (T' T : Tree) : Tree :=
  { T' with
    nextId := T.nextId
    node := fun n => { T'.node n with
      children := (T.node n).children
      text := (T.node n).text
      parent := (T.node n).parent } }

/-- The heaps have the same children, texts and parents. -/
abbrev Agree (T T' : Tree) : Prop := T' = T'.reshape T

namespace Agree

variable {T T' T'' : Tree}

theorem trans (h : Agree T T') (h' : Agree T' T'') : Agree T T'' := by
  refine Eq.trans h' ?_
  rw [h]
  rfl

theorem modifyNode (T : Tree) (n : NodeId) {f : Node → Node}
    (hf : ∀ x, f x = { f x with children := x.children, text := x.text, parent := x.parent }) :
    Agree T (T.modifyNode n f) := by
  simp only [Agree, Tree.modifyNode, reshape]
  congr 1
  funext m
  by_cases hm : m = n
  · rw [hm, update_self, ← hf]
  · rw [update_of_ne hm]

variable (h : Agree T T')

include h

theorem parentOf (n : NodeId) : T'.parentOf n = T.parentOf n := by
  rw [h]
  rfl

theorem label (n : NodeId) : T'.label n = T.label n := by
  rw [h]
  rfl

theorem parent (n : NodeId) : (T'.node n).parent = (T.node n).parent := by
  rw [h]
  rfl

theorem shape {live : Finset NodeId} {path : NodeId → List Char} (S : Shape T live path) :
    Shape T' live path := by
  rw [h]
  exact ⟨S.tree, S.fresh, S.parent_some, S.root_parent, S.root_label, S.count_eq, S.child_iff⟩

end Agree

/-! ## Splitting an edge -/

/-- The edge of `c` is cut after `k` characters; the new node takes the upper part. -/
structure Split (T : Tree) (c : NodeId) (k : ℕ) (firstChar firstNewChar : Char) (T' : Tree) :
    Prop where
  node_new : T'.node T.nextId =
    { children := (∅ : Dict Char NodeId).insert firstNewChar c
      text := ⟨(T.label c).take k, k⟩
      tenantLastAccessTime := (T.node c).tenantLastAccessTime
      parent := some (T.parentOf c)
      lastTenant := (T.node c).lastTenant }
  node_cut : T'.node c =
    { T.node c with
      text := ⟨(T.label c).drop k, (T.node c).text.charCount - k⟩
      parent := some T.nextId }
  node_parent : T'.node (T.parentOf c) =
    { T.node (T.parentOf c) with
      children := (T.node (T.parentOf c)).children.insert firstChar T.nextId }
  node_other : ∀ {n}, n ≠ T.nextId → n ≠ c → n ≠ T.parentOf c → T'.node n = T.node n
  nextId : T'.nextId = T.nextId + 1
  tenantCharCount : T'.tenantCharCount = T.tenantCharCount
  epochCounter : T'.epochCounter = T.epochCounter

variable {T : Tree} {live : Finset NodeId} {path : NodeId → List Char}

theorem Shape.splitNode_spec
    (S : Shape T live path) {c : NodeId} {k : ℕ} (firstChar : Char) (hc : c ∈ live)
    (hr : c ≠ rootId) (hpos : 0 < k) (hlt : k < (T.label c).length) :
    ∃ firstNewChar T', T.splitNode (T.parentOf c) firstChar c k = some T' ∧
      ((T.label c).drop k).head? = some firstNewChar ∧ Split T c k firstChar firstNewChar T' := by
  have hdrop : (T.label c).drop k ≠ [] := by
    intro hnil
    rw [List.drop_eq_nil_iff] at hnil
    omega
  obtain ⟨firstNewChar, rest, hcons⟩ := List.exists_cons_of_ne_nil hdrop
  have hhead : ((T.label c).drop k).head? = some firstNewChar := by rw [hcons, List.head?_cons]
  have hsplit := NodeText.splitAtChar_eq hpos (lt_of_lt_of_eq hlt (S.count_eq hc).symm)
  have hnc : c ≠ T.nextId := S.nextId_ne hc
  have hnp : T.parentOf c ≠ T.nextId := S.nextId_ne (S.tree.parent_mem hc hr)
  have hpc : T.parentOf c ≠ c := S.parentOf_ne hc hr
  refine ⟨firstNewChar, T.putAbove (T.parentOf c) firstChar c ⟨(T.label c).take k, k⟩
    ⟨(T.label c).drop k, (T.node c).text.charCount - k⟩ firstNewChar, ?_, hhead, ?_⟩
  · rw [splitNode, hsplit]
    simp only [NodeText.firstChar]
    rw [show (T.node c).text.text = T.label c from rfl, hhead]
  · refine ⟨?_, ?_, ?_, ?_, rfl, rfl, rfl⟩
    · simp [putAbove, modifyNode, hnc.symm, hnp.symm]
    · simp [putAbove, modifyNode, hnc, hpc.symm]
    · simp [putAbove, modifyNode, hnp, hpc]
    · intro n hn hnc' hnp'
      simp [putAbove, modifyNode, hn, hnc', hnp']

namespace Split

variable {T T' : Tree} {live : Finset NodeId} {path : NodeId → List Char} {c : NodeId} {k : ℕ}
  {firstChar firstNewChar : Char} (h : Split T c k firstChar firstNewChar T')
  (S : Shape T live path) (hc : c ∈ live) (hr : c ≠ rootId) {n : NodeId}

include h

theorem parentOf_new : T'.parentOf T.nextId = T.parentOf c := by
  rw [Tree.parentOf, h.node_new, Option.getD_some]

theorem parentOf_cut : T'.parentOf c = T.nextId := by
  rw [Tree.parentOf, h.node_cut, Option.getD_some]

theorem label_new : T'.label T.nextId = (T.label c).take k := by
  rw [Tree.label, h.node_new]

theorem label_cut : T'.label c = (T.label c).drop k := by
  rw [Tree.label, h.node_cut]

/-- Every other node keeps all but its children. -/
theorem node_kept (hn : n ≠ T.nextId) (hnc : n ≠ c) :
    T'.node n = { T.node n with children := (T'.node n).children } := by
  by_cases hp : n = T.parentOf c
  · rw [hp, h.node_parent]
  · rw [h.node_other hn hnc hp]

theorem parentOf_kept (hn : n ≠ T.nextId) (hnc : n ≠ c) : T'.parentOf n = T.parentOf n := by
  rw [Tree.parentOf, h.node_kept hn hnc, Tree.parentOf]

theorem label_kept (hn : n ≠ T.nextId) (hnc : n ≠ c) : T'.label n = T.label n := by
  rw [Tree.label, h.node_kept hn hnc, Tree.label]

include S

theorem children_kept (hn : n ∈ live) (hp : n ≠ T.parentOf c) :
    (T'.node n).children = (T.node n).children := by
  by_cases hnc : n = c
  · rw [hnc, h.node_cut]
  · rw [h.node_other (S.nextId_ne hn) hnc hp]

include hc hr

theorem shape (hpos : 0 < k) (hlt : k < (T.label c).length)
    (hfirst : (T.label c).head? = some firstChar)
    (hnew : ((T.label c).drop k).head? = some firstNewChar) : Shape T' (insert T.nextId live)
      (update path T.nextId (path (T.parentOf c) ++ (T.label c).take k)) := by
  have hne : ∀ {n}, n ∈ live → n ≠ T.nextId := S.nextId_ne
  have hp : T.parentOf c ∈ live := S.tree.parent_mem hc hr
  have hhead : (T'.label T.nextId).head? = some firstChar := by
    rw [h.label_new, ← hfirst]
    cases hl : T.label c with
    | nil => simp
    | cons a l => rw [show k = k - 1 + 1 by omega, List.take_succ_cons]; rfl
  refine ⟨?_, ?_, ?_, ?_, ?_, ?_, ?_⟩
  · exact S.tree.split S.nextId_notMem hc hr (one_dvd k) hpos hlt
      (fun n hn _ hnc => h.parentOf_kept (hne hn) hnc)
      (fun n hn _ hnc => h.label_kept (hne hn) hnc)
      (fun n hn => update_of_ne (hne hn) _ _) h.parentOf_new h.parentOf_cut
      h.label_new h.label_cut (update_self _ _ _)
  · exact S.fresh_insert h.nextId
  · intro n hn hnr
    rcases Finset.mem_insert.mp hn with rfl | hn
    · rw [h.parentOf_new, h.node_new]
    · by_cases hnc : n = c
      · rw [hnc, h.parentOf_cut, h.node_cut]
      · rw [h.parentOf_kept (hne hn) hnc, h.node_kept (hne hn) hnc, S.parent_some hn hnr]
  · rw [h.node_kept (hne S.root_mem) hr.symm, S.root_parent]
  · rw [h.label_kept (hne S.root_mem) hr.symm, S.root_label]
  · intro n hn
    rcases Finset.mem_insert.mp hn with rfl | hn
    · rw [h.label_new, h.node_new, List.length_take, min_eq_left hlt.le]
    · by_cases hnc : n = c
      · rw [hnc, h.label_cut, h.node_cut, List.length_drop, S.count_eq hc]
      · rw [h.label_kept (hne hn) hnc, h.node_kept (hne hn) hnc, S.count_eq hn]
  · change Indexes (insert T.nextId live) rootId T'.parentOf (fun n => (T'.label n).head?)
      fun p a => (T'.node p).children.lookup a
    refine Indexes.split (fun _ _ _ => S.child_iff) S.root_mem (fun n => S.tree.parent_mem)
      S.nextId_notMem hc hr hfirst (fun n hn _ hnc => h.parentOf_kept (hne hn) hnc)
      (fun n hn _ hnc => by rw [h.label_kept (hne hn) hnc]) h.parentOf_new h.parentOf_cut hhead
      (by rw [h.label_cut, hnew]) (fun a n => ?_) ?_ (fun a ha => ?_) fun q hq hqp => ?_
    · rw [h.node_new, Dict.lookup_insert_eq]
      split <;> simp_all [eq_comm]
    · rw [h.node_parent, Dict.lookup_insert_eq, if_pos rfl]
    · rw [h.node_parent, Dict.lookup_insert_eq, if_neg ha]
    · rw [h.children_kept S hq hqp]

end Split

/-! ## Attaching a leaf -/

/-- A new leaf with the text `rest` under `p`. -/
structure Graft (T : Tree) (p : NodeId) (firstChar : Char) (rest : List Char) (tenant : String)
    (T' : Tree) : Prop where
  node_new : T'.node T.nextId =
    { children := ∅
      text := .new rest
      tenantLastAccessTime := (∅ : Dict String UInt64).insert tenant T.epochCounter
      parent := some p
      lastTenant := some tenant }
  node_parent : T'.node p =
    { T.node p with children := (T.node p).children.insert firstChar T.nextId }
  node_other : ∀ {n}, n ≠ T.nextId → n ≠ p → T'.node n = T.node n
  nextId : T'.nextId = T.nextId + 1
  tenantCharCount : T'.tenantCharCount = T.tenantCharCount.insert tenant
    ((T.tenantCharCount.lookup tenant).getD 0 + rest.length)

theorem Shape.attachLeaf_spec
    (S : Shape T live path) {p : NodeId} (hp : p ∈ live) (firstChar : Char) (rest : List Char)
    (tenant : String) : Graft T p firstChar rest tenant (T.attachLeaf p firstChar rest tenant) := by
  have hnp : p ≠ T.nextId := S.nextId_ne hp
  refine ⟨?_, ?_, ?_, rfl, rfl⟩
  · simp [attachLeaf, modifyNode, addChars, hnp.symm]
  · simp [attachLeaf, modifyNode, addChars, hnp]
  · intro n hn hp'
    simp [attachLeaf, modifyNode, addChars, hn, hp']

namespace Graft

variable {T T' : Tree} {live : Finset NodeId} {path : NodeId → List Char} {p : NodeId}
  {firstChar : Char} {rest : List Char} {tenant : String} {n : NodeId}

section

variable (h : Graft T p firstChar rest tenant T')
include h

theorem node_kept (hn : n ≠ T.nextId) :
    T'.node n = { T.node n with children := (T'.node n).children } := by
  by_cases hnp : n = p
  · rw [hnp, h.node_parent]
  · rw [h.node_other hn hnp]

theorem parentOf_kept (hn : n ≠ T.nextId) : T'.parentOf n = T.parentOf n := by
  rw [Tree.parentOf, h.node_kept hn, Tree.parentOf]

theorem label_kept (hn : n ≠ T.nextId) : T'.label n = T.label n := by
  rw [Tree.label, h.node_kept hn, Tree.label]

theorem parentOf_new : T'.parentOf T.nextId = p := by
  rw [Tree.parentOf, h.node_new, Option.getD_some]

theorem label_new : T'.label T.nextId = rest := by
  rw [Tree.label, h.node_new, NodeText.new]

end

theorem shape (h : Graft T p firstChar (firstChar :: rest) tenant T') (S : Shape T live path)
    (hp : p ∈ live) (hvacant : (T.node p).children.lookup firstChar = none) :
    Shape T' (insert T.nextId live) (update path T.nextId (path p ++ firstChar :: rest)) := by
  have hne : ∀ {n}, n ∈ live → n ≠ T.nextId := S.nextId_ne
  have hnr : rootId ≠ T.nextId := hne S.root_mem
  have hfree : ∀ n ∈ live, n ≠ rootId → T.parentOf n = p →
      (T.label n).head? ≠ some firstChar := by
    intro n hn hr hparent hhead
    rw [(S.child_iff hp).mpr ⟨hn, hr, hparent, hhead⟩] at hvacant
    cases hvacant
  refine ⟨?_, ?_, ?_, ?_, ?_, ?_, ?_⟩
  · refine S.tree.addLeaf hp (fun n hn _ => h.parentOf_kept (hne hn))
      (fun n hn _ => h.label_kept (hne hn)) (fun n hn => update_of_ne (hne hn) _ _)
      h.parentOf_new ?_ ?_ (one_dvd _) ?_
    · rw [update_self, h.label_new]
    · rw [h.label_new]
      exact List.cons_ne_nil _ _
    · intro n hn hr hparent
      rw [h.label_new, Ne, take_one_eq_iff, List.head?_cons]
      exact hfree n hn hr hparent
  · exact S.fresh_insert h.nextId
  · intro n hn hr
    rcases Finset.mem_insert.mp hn with rfl | hn
    · rw [h.parentOf_new, h.node_new]
    · rw [h.parentOf_kept (hne hn), h.node_kept (hne hn), S.parent_some hn hr]
  · rw [h.node_kept hnr, S.root_parent]
  · rw [h.label_kept hnr, S.root_label]
  · intro n hn
    rcases Finset.mem_insert.mp hn with rfl | hn
    · rw [h.label_new, h.node_new, NodeText.new]
    · rw [h.label_kept (hne hn), h.node_kept (hne hn), S.count_eq hn]
  · change Indexes (insert T.nextId live) rootId T'.parentOf (fun n => (T'.label n).head?)
      fun p a => (T'.node p).children.lookup a
    refine Indexes.addLeaf (fun _ _ _ => S.child_iff) S.root_mem (fun n => S.tree.parent_mem)
      S.nextId_notMem hp hvacant (fun n hn _ => h.parentOf_kept (hne hn))
      (fun n hn _ => by rw [h.label_kept (hne hn)]) h.parentOf_new
      (by rw [h.label_new, List.head?_cons]) (fun a => ?_) ?_ (fun a ha => ?_)
      fun q hq hqp => ?_
    · rw [h.node_new, Finmap.lookup_empty]
    · rw [h.node_parent, Dict.lookup_insert_eq, if_pos rfl]
    · rw [h.node_parent, Dict.lookup_insert_eq, if_neg ha]
    · rw [h.node_other (hne hq) hqp]

end Graft

/-! ## Unlinking a leaf -/

/-- Changing the children of a node keeps everything else. -/
theorem Tree.node_modifyChildren (T : Tree) (p : NodeId) (g : Dict Char NodeId → Dict Char NodeId)
    (m : NodeId) :
    (T.modifyNode p fun x => { x with children := g x.children }).node m =
      { T.node m with
        children := ((T.modifyNode p fun x =>
          { x with children := g x.children }).node m).children } := by
  by_cases hm : m = p
  · rw [hm, modifyNode_self]
  · rw [modifyNode_of_ne _ hm]

theorem Shape.unlink
    (S : Shape T live path) {n : NodeId} {firstChar : Char} (hn : n ∈ live) (hr : n ≠ rootId)
    (hleaf : (T.node n).children = ∅) (hfirst : (T.label n).head? = some firstChar) :
    Shape (T.modifyNode (T.parentOf n) fun p =>
      { p with children := p.children.erase firstChar }) (live.erase n) path := by
  have hp : T.parentOf n ∈ live := S.tree.parent_mem hn hr
  set T' := T.modifyNode (T.parentOf n) fun p =>
    { p with children := p.children.erase firstChar } with hT'
  have hself : (T'.node (T.parentOf n)).children =
      (T.node (T.parentOf n)).children.erase firstChar := by rw [hT', modifyNode_self]
  have hother : ∀ {m}, m ≠ T.parentOf n → T'.node m = T.node m := fun hm => T.modifyNode_of_ne hm _
  have hkept : ∀ m, T'.node m = { T.node m with children := (T'.node m).children } :=
    T.node_modifyChildren _ fun d => d.erase firstChar
  have hparent : ∀ m, T'.parentOf m = T.parentOf m := fun m => by
    rw [Tree.parentOf, hkept, Tree.parentOf]
  have hlabel : ∀ m, T'.label m = T.label m := fun m => by rw [Tree.label, hkept, Tree.label]
  have hmem : ∀ {m}, m ∈ live.erase n → m ∈ live := Finset.mem_of_mem_erase
  have hnone := (S.children_eq_empty_iff hn).mp hleaf
  refine ⟨?_, fun hm => S.fresh (hmem hm), ?_, ?_, ?_, ?_, ?_⟩
  · exact (S.tree.erase hr hnone).congr (fun m _ _ => hparent m) fun m _ _ => hlabel m
  · intro m hm hmr
    rw [hkept, hparent, S.parent_some (hmem hm) hmr]
  · rw [hkept, S.root_parent]
  · rw [hlabel, S.root_label]
  · intro m hm
    rw [hkept, hlabel, S.count_eq (hmem hm)]
  · change Indexes (live.erase n) rootId T'.parentOf (fun n => (T'.label n).head?)
      fun p a => (T'.node p).children.lookup a
    refine Indexes.erase (fun _ _ _ => S.child_iff) hn hr hfirst (fun m _ _ _ => hparent m)
      (fun m _ _ _ => by rw [hlabel]) ?_ (fun a ha => ?_) fun q _ _ hqp => ?_
    · rw [hself, Dict.lookup_erase_eq, if_pos rfl]
    · rw [hself, Dict.lookup_erase_eq, if_neg ha]
    · rw [hother hqp]

end Sglang.Gateway
