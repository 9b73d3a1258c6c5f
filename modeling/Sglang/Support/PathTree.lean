import Mathlib.Data.Finset.Card
import Mathlib.Data.List.Infix
import Mathlib.Logic.Relation
import Mathlib.Tactic.Linarith
import Mathlib.Tactic.Ring

/-!
# Path-compressed trees

A path-compressed tree is given by parent pointers and edge labels; `path n` is
the word read from the root to `n`. Siblings are told apart by the keys
`π` of the first `page` letters of their labels only, and labels are whole pages.
The results say that this decides everything: a node is determined by the
keys of its word, and a word is stored with one sequence of letters.
-/

namespace Sglang.Support

open List Finset Relation

variable {ν α κ : Type*}

structure PathTree (π : α → κ) (page : ℕ) (live : Finset ν) (root : ν) (parent : ν → ν)
    (label path : ν → List α) : Prop where
  page_pos : 0 < page
  root_mem : root ∈ live
  path_root : path root = []
  edge : ∀ {n}, n ∈ live → n ≠ root → parent n ∈ live ∧ path n = path (parent n) ++ label n ∧
    label n ≠ [] ∧ page ∣ (label n).length
  siblings : ∀ {m n}, m ∈ live → m ≠ root → n ∈ live → n ≠ root → parent m = parent n →
    ((label m).take page).map π = ((label n).take page).map π → m = n

namespace PathTree

/-- A root alone. -/
theorem single {π : α → κ} {page : ℕ} (hpage : 0 < page) (root : ν) (parent : ν → ν)
    (label : ν → List α) : PathTree π page {root} root parent label fun _ => [] := by
  have hroot : ∀ {n}, n ∈ ({root} : Finset ν) → n ≠ root → False :=
    fun hn hr => hr (Finset.mem_singleton.mp hn)
  exact ⟨hpage, Finset.mem_singleton_self _, rfl, fun hn hr => (hroot hn hr).elim,
    fun hn hr => (hroot hn hr).elim⟩

variable {π : α → κ} {page : ℕ} {live : Finset ν} {root : ν} {parent : ν → ν}
  {label path : ν → List α} (T : PathTree π page live root parent label path)
  {m n c d : ν} {k : ℕ}

include T

section Edge

variable (hn : n ∈ live) (hroot : n ≠ root)
include hn hroot

theorem parent_mem : parent n ∈ live := (T.edge hn hroot).1

theorem path_eq : path n = path (parent n) ++ label n := (T.edge hn hroot).2.1

theorem label_ne : label n ≠ [] := (T.edge hn hroot).2.2.1

theorem page_dvd : page ∣ (label n).length := (T.edge hn hroot).2.2.2

end Edge

theorem page_le (hn : n ∈ live) (hroot : n ≠ root) : page ≤ (label n).length :=
  Nat.le_of_dvd (length_pos_of_ne_nil (T.label_ne hn hroot)) (T.page_dvd hn hroot)

theorem length_path (hn : n ∈ live) (hroot : n ≠ root) :
    (path n).length = (path (parent n)).length + (label n).length := by
  rw [T.path_eq hn hroot, length_append]

theorem length_parent_lt (hn : n ∈ live) (hroot : n ≠ root) :
    (path (parent n)).length < (path n).length := by
  have hlen := T.length_path hn hroot
  have hpage := T.page_le hn hroot
  have := T.page_pos
  omega

theorem prefix_of_parent (hn : n ∈ live) (hroot : n ≠ root) : path (parent n) <+: path n := by
  rw [T.path_eq hn hroot]
  exact prefix_append _ _

/-- Induction from the root down. -/
theorem induct {motive : ν → Prop} (hbase : motive root)
    (hstep : ∀ n, n ∈ live → n ≠ root → motive (parent n) → motive n) :
    ∀ n, n ∈ live → motive n := by
  intro n
  induction hlen : (path n).length using Nat.strong_induction_on generalizing n with
  | _ len ih =>
    intro hn
    by_cases hroot : n = root
    · exact hroot ▸ hbase
    · exact hstep n hn hroot
        (ih _ (hlen ▸ T.length_parent_lt hn hroot) _ rfl (T.parent_mem hn hroot))

theorem page_dvd_path (hn : n ∈ live) : page ∣ (path n).length := by
  refine T.induct (motive := fun n => page ∣ (path n).length) ?_ ?_ n hn
  · rw [T.path_root]
    exact dvd_zero _
  · intro n hn hroot hparent
    rw [T.length_path hn hroot]
    exact Nat.dvd_add hparent (T.page_dvd hn hroot)

theorem eq_root_of_path_nil (hn : n ∈ live) (h : (path n).length = 0) : n = root := by
  by_contra hroot
  have := T.length_parent_lt hn hroot
  omega

/-- The first page below a node decides the edge. -/
theorem edge_unique (hc : c ∈ live) (hcr : c ≠ root) (hd : d ∈ live) (hdr : d ≠ root)
    (hparent : parent c = parent d)
    (hpage : ((path c).map π).take ((path (parent c)).length + page) =
      ((path d).map π).take ((path (parent c)).length + page)) : c = d := by
  apply T.siblings hc hcr hd hdr hparent
  have hdrop := congrArg (List.drop (path (parent c)).length) hpage
  rw [T.path_eq hc hcr, T.path_eq hd hdr, ← hparent, map_append, map_append,
    drop_take, drop_take] at hdrop
  simpa [map_take] using hdrop

/-- Two children of one node on the way to the same word are equal. -/
theorem edge_unique_of_prefixes {w : List κ} (hc : c ∈ live) (hcr : c ≠ root) (hd : d ∈ live)
    (hdr : d ≠ root) (hparent : parent c = parent d) (hcw : (path c).map π <+: w)
    (hdw : (path d).map π <+: w) : c = d := by
  apply T.edge_unique hc hcr hd hdr hparent
  have hlen : ∀ {e}, e ∈ live → e ≠ root → parent e = parent c →
      (path e).map π <+: w → ((path e).map π).take ((path (parent c)).length + page) =
        w.take ((path (parent c)).length + page) := by
    intro e he her hep hew
    have hle : (path (parent c)).length + page ≤ ((path e).map π).length := by
      rw [length_map, T.length_path he her, hep]
      exact Nat.add_le_add_left (T.page_le he her) _
    rw [prefix_iff_eq_take.mp hew, take_take, min_eq_left hle]
  rw [hlen hc hcr rfl hcw, hlen hd hdr hparent.symm hdw]

/-! ## Words determine nodes -/

omit T in
/-- The edges from parent to child. -/
def Child (live : Finset ν) (root : ν) (parent : ν → ν) (n c : ν) : Prop :=
  c ∈ live ∧ c ≠ root ∧ parent c = n

theorem prefix_of_above (h : ReflTransGen (Child live root parent) n m) : path n <+: path m := by
  induction h with
  | refl => exact prefix_rfl
  | tail _ hc ih =>
    obtain ⟨hc, hcr, rfl⟩ := hc
    exact ih.trans (T.prefix_of_parent hc hcr)

theorem above_root (hm : m ∈ live) : ReflTransGen (Child live root parent) root m :=
  T.induct ReflTransGen.refl (fun _ hn hr ih => ih.tail ⟨hn, hr, rfl⟩) m hm

/-- A node lies above every node whose keys its own are a prefix of. -/
theorem above_of_keys (hn : n ∈ live) (hm : m ∈ live) (h : (path n).map π <+: (path m).map π) :
    ReflTransGen (Child live root parent) n m := by
  revert h
  refine T.induct (motive := fun n => (path n).map π <+: (path m).map π →
    ReflTransGen (Child live root parent) n m) (fun _ => T.above_root hm) ?_ n hn
  intro n hn hnr ih h
  have hup := (T.prefix_of_parent hn hnr).map π
  rcases (ih (hup.trans h)).cases_head with heq | ⟨c, ⟨hc, hcr, hcp⟩, hcm⟩
  · have hlt := T.length_parent_lt hn hnr
    have hle := h.length_le
    rw [length_map, length_map, ← heq] at hle
    omega
  · have hcw := (T.prefix_of_above hcm).map π
    rwa [← T.edge_unique_of_prefixes hc hcr hn hnr hcp hcw h]

theorem child_of_prefix_keys (hn : n ∈ live) (hm : m ∈ live)
    (h : (path n).map π <+: (path m).map π) (hlt : (path n).length < (path m).length) :
    ∃ c, c ∈ live ∧ c ≠ root ∧ parent c = n ∧ path c <+: path m := by
  rcases (T.above_of_keys hn hm h).cases_head with rfl | ⟨c, ⟨hc, hcr, hcp⟩, hcm⟩
  · exact absurd hlt (lt_irrefl _)
  · exact ⟨c, hc, hcr, hcp, T.prefix_of_above hcm⟩

theorem eq_of_keys (hn : n ∈ live) (hm : m ∈ live) (h : (path n).map π = (path m).map π) :
    n = m := by
  rcases (T.above_of_keys hn hm (h ▸ prefix_rfl)).cases_head with heq | ⟨c, ⟨hc, hcr, rfl⟩, hcm⟩
  · exact heq
  · have hlt := T.length_parent_lt hc hcr
    have hle := (T.prefix_of_above hcm).length_le
    have hlen := congrArg List.length h
    rw [length_map, length_map] at hlen
    omega

/-- The nodes above `m`, itself included, are those above its parent and `m`. -/
theorem prefix_iff_parent (hn : n ∈ live) (hm : m ∈ live) (hmr : m ≠ root) :
    path n <+: path m ↔ n = m ∨ path n <+: path (parent m) := by
  constructor
  · intro h
    rcases (T.above_of_keys hn hm (h.map π)).cases_tail with heq | ⟨c, hc, -, -, rfl⟩
    · exact Or.inl heq.symm
    · exact Or.inr (T.prefix_of_above hc)
  · rintro (rfl | h)
    · exact prefix_rfl
    · exact h.trans (T.prefix_of_parent hm hmr)

/-- The subtrees below two children are disjoint. -/
theorem child_eq_of_prefixes (hc : c ∈ live) (hcr : c ≠ root) (hd : d ∈ live) (hdr : d ≠ root)
    (hparent : parent c = parent d) (hcm : path c <+: path m) (hdm : path d <+: path m) : c = d :=
  T.edge_unique_of_prefixes hc hcr hd hdr hparent (hcm.map π) (hdm.map π)

/-! ## Words inside edges -/

/-- A nonempty stored word ends inside the edge of some node. -/
theorem exists_cover (hm : m ∈ live) (hk : 0 < k) (hkm : k ≤ (path m).length) :
    ∃ c, c ∈ live ∧ c ≠ root ∧ path c <+: path m ∧ (path (parent c)).length < k ∧
      k ≤ (path c).length := by
  revert hkm
  refine T.induct (motive := fun m => k ≤ (path m).length → ∃ c, c ∈ live ∧ c ≠ root ∧
    path c <+: path m ∧ (path (parent c)).length < k ∧ k ≤ (path c).length) ?_ ?_ m hm
  · intro hkm
    rw [T.path_root] at hkm
    exact absurd hkm (not_le.mpr hk)
  · intro m hm hmr ih hkm
    by_cases hle : k ≤ (path (parent m)).length
    · obtain ⟨c, hc, hcr, hcm, hlt⟩ := ih hle
      exact ⟨c, hc, hcr, hcm.trans (T.prefix_of_parent hm hmr), hlt⟩
    · exact ⟨m, hm, hmr, prefix_rfl, not_le.mp hle, hkm⟩

theorem page_le_of_lt (hn : n ∈ live) (hk : page ∣ k) (hlt : (path n).length < k) :
    (path n).length + page ≤ k := by
  obtain ⟨a, ha⟩ := T.page_dvd_path hn
  obtain ⟨b, rfl⟩ := hk
  rw [ha] at hlt ⊢
  have hab : a + 1 ≤ b := Nat.lt_of_mul_lt_mul_left hlt
  calc page * a + page = page * (a + 1) := by ring
    _ ≤ page * b := Nat.mul_le_mul_left _ hab

/-- The edge a word ends in is determined by the keys of the word. -/
theorem cover_unique (hk : page ∣ k) (hc : c ∈ live) (hcr : c ≠ root) (hd : d ∈ live)
    (hdr : d ≠ root) (hck : (path (parent c)).length < k) (hcl : k ≤ (path c).length)
    (hdk : (path (parent d)).length < k) (hdl : k ≤ (path d).length)
    (h : ((path c).map π).take k = ((path d).map π).take k) : c = d := by
  -- each node lies above the other: its parent does, and the edges start with the same page
  have hpre : ∀ {x y : ν}, x ∈ live → x ≠ root → y ∈ live →
      (path (parent x)).length < k → k ≤ (path y).length →
      ((path x).map π).take k = ((path y).map π).take k → path x <+: path y := by
    intro x y hx hxr hy hxk hyl hxy
    have hup : (path (parent x)).map π <+: (path y).map π := by
      refine IsPrefix.trans ?_ (List.take_prefix k _)
      rw [← hxy]
      exact prefix_take_iff.mpr ⟨(T.prefix_of_parent hx hxr).map π, by simpa using hxk.le⟩
    obtain ⟨e, he, her, hep, hey⟩ := T.child_of_prefix_keys (T.parent_mem hx hxr) hy hup (by omega)
    have hroom := T.page_le_of_lt (T.parent_mem hx hxr) hk hxk
    have htake := congrArg (List.take ((path (parent x)).length + page)) hxy
    rw [take_take, take_take, min_eq_left hroom] at htake
    have hex : x = e := by
      refine T.edge_unique hx hxr he her hep.symm ?_
      have hlen : (path (parent x)).length + page ≤ ((path e).map π).length := by
        rw [length_map, T.length_path he her, hep]
        exact Nat.add_le_add_left (T.page_le he her) _
      rw [htake, prefix_iff_eq_take.mp (hey.map π), take_take, min_eq_left hlen]
    rwa [hex]
  have hcd := hpre hc hcr hd hck hdl h
  exact T.eq_of_keys hc hd (by rw [hcd.eq_of_length_le (hpre hd hdr hc hdk hcl h.symm).length_le])

/-- Stored words of whole pages with the same keys are the same word. -/
theorem eq_of_map_eq {e f : List α} (hm : m ∈ live) (hn : n ∈ live) (he : e <+: path m)
    (hf : f <+: path n) (hpage : page ∣ e.length) (h : e.map π = f.map π) : e = f := by
  have hlen : e.length = f.length := by simpa using congrArg List.length h
  by_cases hpos : 0 < e.length
  · obtain ⟨c, hc, hcr, hcm, hck, hcl⟩ := T.exists_cover hm hpos he.length_le
    obtain ⟨d, hd, hdr, hdn, hdk, hdl⟩ := T.exists_cover hn hpos (hlen ▸ hf.length_le)
    have hec : e = (path c).take e.length := by
      exact prefix_iff_eq_take.mp (prefix_of_prefix_length_le he hcm hcl)
    have hfd : f = (path d).take e.length := by
      rw [hlen]
      exact prefix_iff_eq_take.mp (prefix_of_prefix_length_le hf hdn (hlen ▸ hdl))
    have hcd : c = d := by
      apply T.cover_unique hpage hc hcr hd hdr hck hcl hdk hdl
      rw [← map_take, ← map_take, ← hec, ← hfd, h]
    rw [hec, hfd, hcd]
  · rw [length_eq_zero_iff.mp (by omega : e.length = 0),
      length_eq_zero_iff.mp (by omega : f.length = 0)]

/-- If no edge at `n` continues the word `w`, nothing longer of `w` is stored. -/
theorem le_of_stuck {w : List κ} (hn : n ∈ live) (hw : (path n).map π <+: w)
    (hstuck : ∀ c, c ∈ live → c ≠ root → parent c = n →
      ((label c).take page).map π ≠ (w.drop (path n).length).take page)
    (hm : m ∈ live) (hk : page ∣ k) (hkm : k ≤ (path m).length)
    (h : ((path m).map π).take k = w.take k) : k ≤ (path n).length := by
  by_contra hlt
  have hroom := T.page_le_of_lt hn hk (not_le.mp hlt)
  have hpre : (path n).map π <+: ((path m).map π).take k := by
    rw [h]
    exact prefix_take_iff.mpr ⟨hw, by simp; omega⟩
  obtain ⟨c, hc, hcr, rfl, hcm⟩ := T.child_of_prefix_keys hn hm
    (hpre.trans (List.take_prefix _ _)) (by omega)
  refine hstuck c hc hcr rfl ?_
  have hpage := T.page_le hc hcr
  have hlen := T.length_path hc hcr
  have hcw : ((path c).map π).take ((path (parent c)).length + page) =
      w.take ((path (parent c)).length + page) := by
    rw [prefix_iff_eq_take.mp (hcm.map π), take_take, length_map, min_eq_left (by omega)]
    have := congrArg (List.take ((path (parent c)).length + page)) h
    rwa [take_take, take_take, min_eq_left hroom] at this
  have hdrop := congrArg (List.drop (path (parent c)).length) hcw
  rw [T.path_eq hc hcr, map_append, drop_take, drop_take] at hdrop
  simpa [map_take] using hdrop

/-! ## Distance from the root -/

omit T in
/-- How many live words are shorter than that of `n`. -/
def rank (live : Finset ν) (path : ν → List α) (n : ν) : ℕ :=
  (live.filter fun m => (path m).length < (path n).length).card

theorem rank_parent_lt (hn : n ∈ live) (hroot : n ≠ root) :
    rank live path (parent n) < rank live path n := by
  have hlt := T.length_parent_lt hn hroot
  apply card_lt_card
  refine ⟨fun m hm => ?_, fun hsub => ?_⟩
  · have hm' := mem_filter.mp hm
    exact mem_filter.mpr ⟨hm'.1, hm'.2.trans hlt⟩
  · have := (mem_filter.mp
      (hsub (mem_filter.mpr ⟨T.parent_mem hn hroot, hlt⟩))).2
    omega

omit T in
theorem rank_le_card (live : Finset ν) (path : ν → List α) (n : ν) : rank live path n ≤ live.card :=
  card_filter_le _ _

/-! ## Growing and shrinking -/

section Changes

variable [DecidableEq ν] {z : ν} {parent' : ν → ν} {label' path' : ν → List α}

omit T [DecidableEq ν] in
/-- The same tree under functions that agree on the live nodes. -/
theorem congr (T : PathTree π page live root parent label path)
    (hparent : ∀ n ∈ live, n ≠ root → parent' n = parent n)
    (hlabel : ∀ n ∈ live, n ≠ root → label' n = label n) :
    PathTree π page live root parent' label' path where
  page_pos := T.page_pos
  root_mem := T.root_mem
  path_root := T.path_root
  edge hn hr := by
    rw [hparent _ hn hr, hlabel _ hn hr]
    exact T.edge hn hr
  siblings hm hmr hn hnr hp hl := by
    rw [hparent _ hm hmr, hparent _ hn hnr] at hp
    rw [hlabel _ hm hmr, hlabel _ hn hnr] at hl
    exact T.siblings hm hmr hn hnr hp hl

/-- A new leaf under `p` whose first page no edge at `p` has. -/
theorem addLeaf {p : ν} (hp : p ∈ live)
    (hparent : ∀ n ∈ live, n ≠ root → parent' n = parent n)
    (hlabel : ∀ n ∈ live, n ≠ root → label' n = label n)
    (hpath : ∀ n ∈ live, path' n = path n) (hzp : parent' z = p)
    (hzpath : path' z = path p ++ label' z) (hne : label' z ≠ []) (hpage : page ∣ (label' z).length)
    (hfresh : ∀ c, c ∈ live → c ≠ root → parent c = p →
      ((label c).take page).map π ≠ ((label' z).take page).map π) :
    PathTree π page (insert z live) root parent' label' path' := by
  have hold : ∀ {n}, n ∈ insert z live → n ≠ z → n ∈ live :=
    fun hn hnz => (mem_insert.mp hn).resolve_left hnz
  refine ⟨T.page_pos, mem_insert_of_mem T.root_mem, ?_, ?_, ?_⟩
  · rw [hpath _ T.root_mem, T.path_root]
  · intro n hn hr
    by_cases hnz : n = z
    · rw [hnz, hzpath, hzp, hpath p hp]
      exact ⟨mem_insert_of_mem hp, rfl, hne, hpage⟩
    · have hl := hold hn hnz
      obtain ⟨hmem, heq, hrest⟩ := T.edge hl hr
      rw [hpath n hl, hparent n hl hr, hlabel n hl hr, hpath _ hmem]
      exact ⟨mem_insert_of_mem hmem, heq, hrest⟩
  · intro m n hm hmr hn hnr hparents hlabels
    have hmn := @T.siblings m n
    by_cases hmz : m = z <;> by_cases hnz : n = z <;> grind

/-- The edge of `c` is cut after `k` letters; `z` takes the upper part. -/
theorem split {k : ℕ} (hz : z ∉ live) (hc : c ∈ live) (hcr : c ≠ root) (hk : page ∣ k)
    (hpos : 0 < k) (hlt : k < (label c).length)
    (hparent : ∀ n ∈ live, n ≠ root → n ≠ c → parent' n = parent n)
    (hlabel : ∀ n ∈ live, n ≠ root → n ≠ c → label' n = label n)
    (hpath : ∀ n ∈ live, path' n = path n) (hzp : parent' z = parent c) (hcp : parent' c = z)
    (hzl : label' z = (label c).take k) (hcl : label' c = (label c).drop k)
    (hzpath : path' z = path (parent c) ++ (label c).take k) :
    PathTree π page (insert z live) root parent' label' path' := by
  have hpagek : page ≤ k := Nat.le_of_dvd hpos hk
  have hzc : z ≠ c := fun h => hz (h ▸ hc)
  -- the upper part keeps the first page of the edge
  have hfirst : ((label' z).take page).map π = ((label c).take page).map π := by
    rw [hzl, take_take, min_eq_left hpagek]
  have hold : ∀ {n}, n ∈ insert z live → n ≠ z → n ∈ live :=
    fun hn hnz => (mem_insert.mp hn).resolve_left hnz
  refine ⟨T.page_pos, mem_insert_of_mem T.root_mem, ?_, ?_, ?_⟩
  · rw [hpath _ T.root_mem, T.path_root]
  · intro n hn hr
    obtain ⟨hup, heq, hne, hdvd⟩ := T.edge hc hcr
    by_cases hnz : n = z
    · rw [hnz, hzpath, hzp, hzl, hpath _ hup, length_take, min_eq_left hlt.le]
      exact ⟨mem_insert_of_mem hup, rfl, by simp [hpos.ne', hne], hk⟩
    by_cases hnc : n = c
    · rw [hnc, hpath _ hc, hcp, hcl, hzpath, append_assoc, take_append_drop, length_drop]
      exact ⟨mem_insert_self _ _, heq, by simpa using hlt, Nat.dvd_sub hdvd hk⟩
    · have hl := hold hn hnz
      obtain ⟨hmem, heq, hrest⟩ := T.edge hl hr
      rw [hpath n hl, hparent n hl hr hnc, hlabel n hl hr hnc, hpath _ hmem]
      exact ⟨mem_insert_of_mem hmem, heq, hrest⟩
  · intro m n hm hmr hn hnr hparents hlabels
    have hmn := @T.siblings m n
    have hmc := @T.siblings m c
    have hnc := @T.siblings n c
    have hmu := T.parent_mem (n := m)
    have hnu := T.parent_mem (n := n)
    have hcu := T.parent_mem hc hcr
    by_cases hmz : m = z <;> by_cases hnz : n = z <;> by_cases hmc : m = c <;>
      by_cases hnc : n = c <;> grind

omit [DecidableEq ν] in
/-- What lies below the upper part of a cut edge lies below the edge. -/
theorem prefix_split_iff {k : ℕ} (hc : c ∈ live) (hcr : c ≠ root) (hk : page ∣ k)
    (hpos : 0 < k) (hlt : k < (label c).length) (hm : m ∈ live) :
    path (parent c) ++ (label c).take k <+: path m ↔ path c <+: path m := by
  have hword : path (parent c) ++ (label c).take k =
      (path c).take ((path (parent c)).length + k) := by
    rw [T.path_eq hc hcr, take_length_add_append]
  have hlen := T.length_path hc hcr
  rw [hword]
  refine ⟨fun h => ?_, (List.take_prefix _ _).trans⟩
  have hle := h.length_le
  rw [length_take, min_eq_left (by omega)] at hle
  obtain ⟨d, hd, hdr, hdm, hdk, hdl⟩ := T.exists_cover hm (by omega) hle
  have hcd : c = d := by
    refine T.cover_unique (Nat.dvd_add (T.page_dvd_path (T.parent_mem hc hcr)) hk) hc hcr hd hdr
      (by omega) (by omega) hdk hdl ?_
    have hpre := prefix_of_prefix_length_le h hdm (by rw [length_take]; omega)
    have heq := prefix_iff_eq_take.mp hpre
    rw [length_take, min_eq_left (by omega)] at heq
    rw [← map_take, ← map_take, heq]
  rwa [hcd]

/-- A childless node can be dropped. -/
theorem erase (hc : c ≠ root) (hleaf : ∀ n, n ∈ live → n ≠ root → parent n ≠ c) :
    PathTree π page (live.erase c) root parent label path where
  page_pos := T.page_pos
  root_mem := mem_erase.mpr ⟨hc.symm, T.root_mem⟩
  path_root := T.path_root
  edge hn hr := by
    obtain ⟨hmem, hrest⟩ := T.edge (mem_of_mem_erase hn) hr
    exact ⟨mem_erase.mpr ⟨hleaf _ (mem_of_mem_erase hn) hr, hmem⟩, hrest⟩
  siblings hm hmr hn := T.siblings (mem_of_mem_erase hm) hmr (mem_of_mem_erase hn)

end Changes

end PathTree

/-! ## Child tables -/

variable [DecidableEq ν]

/-- `look` finds the children of a node by the keys of their edges. -/
def Indexes (live : Finset ν) (root : ν) (parent : ν → ν) (key : ν → Option κ)
    (look : ν → κ → Option ν) : Prop :=
  ∀ ⦃p a n⦄, p ∈ live → (look p a = some n ↔ n ∈ live ∧ n ≠ root ∧ parent n = p ∧ key n = some a)

namespace Indexes

variable {live : Finset ν} {root : ν} {parent parent' : ν → ν} {key key' : ν → Option κ}
  {look look' : ν → κ → Option ν} {z p c : ν} {a b : κ}
  (h : Indexes live root parent key look) (hroot : root ∈ live)
  (hup : ∀ n ∈ live, n ≠ root → parent n ∈ live) (hz : z ∉ live)

include h hroot hup hz

/-- A new leaf in a vacant place. -/
theorem addLeaf (hp : p ∈ live) (hfree : look p a = none)
    (hparent : ∀ n ∈ live, n ≠ root → parent' n = parent n)
    (hkey : ∀ n ∈ live, n ≠ root → key' n = key n) (hzp : parent' z = p) (hzk : key' z = some a)
    (hnone : ∀ b, look' z b = none) (hself : look' p a = some z)
    (hsame : ∀ b, b ≠ a → look' p b = look p b)
    (hother : ∀ q ∈ live, q ≠ p → look' q = look q) :
    Indexes (insert z live) root parent' key' look' := by
  intro q b n hq
  simp only [mem_insert] at hq ⊢
  have hp0 := h (a := b) (n := n) hp
  have hp1 := h (a := a) (n := n) hp
  have hq0 := @h q b n
  have hun := hup n
  by_cases hqp : q = p <;> by_cases hba : b = a <;> by_cases hnz : n = z <;>  grind

/-- A new node `z` between `c` and its parent. -/
theorem split (hc : c ∈ live) (hcr : c ≠ root) (ha : key c = some a)
    (hparent : ∀ n ∈ live, n ≠ root → n ≠ c → parent' n = parent n)
    (hkey : ∀ n ∈ live, n ≠ root → n ≠ c → key' n = key n) (hzp : parent' z = parent c)
    (hcp : parent' c = z) (hzk : key' z = some a) (hck : key' c = some b)
    (hdown : ∀ d n, look' z d = some n ↔ d = b ∧ n = c) (hself : look' (parent c) a = some z)
    (hsame : ∀ d, d ≠ a → look' (parent c) d = look (parent c) d)
    (hother : ∀ q ∈ live, q ≠ parent c → look' q = look q) :
    Indexes (insert z live) root parent' key' look' := by
  intro q d n hq
  simp only [mem_insert] at hq ⊢
  have hcl := hup c hc hcr
  have hp0 := @h (parent c) d n hcl
  have hp1 := @h (parent c) a n hcl
  have hp2 := @h (parent c) a c hcl
  have hq0 := @h q d n
  have hun := hup n
  by_cases hqp : q = parent c <;> by_cases hda : d = a <;> by_cases hnz : n = z <;>
    by_cases hnc : n = c <;> grind

omit hroot hup hz in
/-- A childless node is dropped. -/
theorem erase (hc : c ∈ live) (hcr : c ≠ root) (ha : key c = some a)
    (hparent : ∀ n ∈ live, n ≠ root → n ≠ c → parent' n = parent n)
    (hkey : ∀ n ∈ live, n ≠ root → n ≠ c → key' n = key n) (hself : look' (parent c) a = none)
    (hsame : ∀ b, b ≠ a → look' (parent c) b = look (parent c) b)
    (hother : ∀ q ∈ live, q ≠ c → q ≠ parent c → look' q = look q) :
    Indexes (live.erase c) root parent' key' look' := by
  intro q b n hq
  simp only [mem_erase] at hq ⊢
  have hq0 := @h q b n hq.2
  have hq1 := @h q b c hq.2
  by_cases hqp : q = parent c <;> by_cases hba : b = a <;> by_cases hnc : n = c <;> grind

end Indexes
end Sglang.Support
