import Sglang.Gateway.TenantAccounts

/-!
# Descending the prefix tree

Lookups find the longest prefix of a text among the texts of the nodes they may enter.
An insertion adds the text, and with it its prefixes, to what the tenant holds.
-/

namespace Sglang.Gateway

open Sglang.Support List Touched

variable {T : Tree} {live : Finset NodeId} {path : NodeId → List Char} {n m prev c : NodeId}
  {enters : NodeId → Bool} {text : List Char} {tenant : String}

theorem head_eq_of_lcp_pos {l l' : List Char} (h : 0 < lcp l l') : l.head? = l'.head? := by
  cases l with
  | nil => simp [lcp] at h
  | cons a l =>
    cases l' with
    | nil => simp [lcp] at h
    | cons b l' =>
      rw [lcp] at h
      split at h
      · rename_i heq
        rw [heq, List.head?_cons, List.head?_cons]
      · exact absurd h (lt_irrefl 0)

theorem lcp_pos_of_head {a : Char} {rest l : List Char} (h : l.head? = some a) :
    0 < lcp (a :: rest) l := by
  cases l with
  | nil => simp at h
  | cons b l =>
    rw [List.head?_cons, Option.some.injEq] at h
    simp [lcp, h]

namespace Shape

/-- A text that leads on from `prev` leads through one of its children. -/
theorem exists_child (S : Shape T live path) (hprev : prev ∈ live) (hm : m ∈ live)
    {remaining : List Char} {i : ℕ} (hpos : 0 < i) (hi : i ≤ remaining.length)
    (h : path prev ++ remaining.take i <+: path m) :
    ∃ c ∈ live, c ≠ rootId ∧ T.parentOf c = prev ∧ path c <+: path m ∧
      min i (T.label c).length ≤ lcp remaining (T.label c) := by
  have hlen := h.length_le
  rw [length_append, length_take, min_eq_left hi] at hlen
  have hkeys : (path prev).map id <+: (path m).map id := by
    rw [map_id, map_id]
    exact (prefix_append _ _).trans h
  obtain ⟨c, hc, hr, hparent, hcm⟩ := S.tree.child_of_prefix_keys hprev hm hkeys (by omega)
  refine ⟨c, hc, hr, hparent, hcm, le_lcp_iff.mpr ⟨?_, min_le_right _ _, ?_⟩⟩
  · exact (min_le_left _ _).trans hi
  · -- both continue the same word after `prev`
    have hpath := S.tree.path_eq hc hr
    rw [hparent] at hpath
    rw [hpath] at hcm
    obtain ⟨u, hu⟩ := h
    obtain ⟨v, hv⟩ := hcm
    have hsame : remaining.take i ++ u = T.label c ++ v := by
      rw [append_assoc] at hu hv
      exact append_cancel_left (hu.trans hv.symm)
    have htake := congrArg (List.take (min i (T.label c).length)) hsame
    rwa [take_append_of_le_length (by rw [length_take]; omega),
      take_append_of_le_length (min_le_right _ _), take_take,
      min_eq_left (min_le_left _ _)] at htake

theorem lookup_of_lcp_pos (S : Shape T live path) (hc : c ∈ live) (hr : c ≠ rootId)
    {a : Char} {rest : List Char} (h : 0 < lcp (a :: rest) (T.label c)) :
    (T.node (T.parentOf c)).children.lookup a = some c :=
  (S.child_iff (S.tree.parent_mem hc hr)).mpr ⟨hc, hr, rfl, (head_eq_of_lcp_pos h).symm⟩

end Shape

/-! ## Lookups -/

/-- The longest prefix of `text` among the texts of the nodes that may be entered. -/
structure Matched (live : Finset NodeId) (path : NodeId → List Char) (enters : NodeId → Bool)
    (text : List Char) (k : ℕ) (n : NodeId) : Prop where
  mem : n ∈ live
  entered : n = rootId ∨ enters n = true
  le : k ≤ text.length
  take_le : text.take k <+: path n
  best : ∀ m ∈ live, m = rootId ∨ enters m = true → ∀ j ≤ text.length,
    text.take j <+: path m → j ≤ k

/-- The nodes on the way to a node that may be entered may be entered. -/
def Closed (live : Finset NodeId) (path : NodeId → List Char) (enters : NodeId → Bool) : Prop :=
  ∀ c ∈ live, ∀ m ∈ live, path c <+: path m → enters m = true → enters c = true

theorem matchLoop_spec (S : Shape T live path)
    (hclosed : Closed live path enters) {remaining : List Char} {fuel : ℕ}
    (hprev : prev ∈ live) (hin : prev = rootId ∨ enters prev = true)
    (htext : text = path prev ++ remaining) (hfuel : remaining.length < fuel) :
    ∃ k n, T.matchLoop enters fuel remaining (path prev).length prev = some (k, n) ∧
      Matched live path enters text k n := by
  induction fuel generalizing remaining prev with
  | zero => omega
  | succ fuel ih =>
    have htake : ∀ i, text.take ((path prev).length + i) = path prev ++ remaining.take i :=
      fun i => by rw [htext, take_length_add_append]
    have hlen : text.length = (path prev).length + remaining.length := by rw [htext, length_append]
    -- what a longer match would have to look like
    have hlonger : ∀ m ∈ live, m = rootId ∨ enters m = true → ∀ j ≤ text.length,
        text.take j <+: path m → (path prev).length < j →
        ∃ c ∈ live, c ≠ rootId ∧ T.parentOf c = prev ∧ enters c = true ∧
          min (j - (path prev).length) (T.label c).length ≤ lcp remaining (T.label c) := by
      intro m hm hmin j hj hjm hlt
      have hpre : path prev ++ remaining.take (j - (path prev).length) <+: path m := by
        rwa [← htake, Nat.add_sub_cancel' hlt.le]
      obtain ⟨c, hc, hr, hparent, hcm, hlcp⟩ := S.exists_child hprev hm (by omega) (by omega) hpre
      refine ⟨c, hc, hr, hparent, ?_, hlcp⟩
      rcases hmin with rfl | hmin
      · rw [S.tree.path_root, prefix_nil] at hcm
        have hlt := S.tree.length_parent_lt hc hr
        rw [hcm] at hlt
        exact absurd hlt (Nat.not_lt_zero _)
      · exact hclosed c hc m hm hcm hmin
    have hstop : (∀ c ∈ live, c ≠ rootId → T.parentOf c = prev → enters c = true →
        lcp remaining (T.label c) = 0) →
        Matched live path enters text (path prev).length prev := by
      intro hnone
      refine ⟨hprev, hin, by omega, ?_, fun m hm hmin j hj hjm => ?_⟩
      · rw [htext, take_left]
      · by_contra hlt
        obtain ⟨c, hc, hr, hparent, hent, hlcp⟩ := hlonger m hm hmin j hj hjm (by omega)
        rw [hnone c hc hr hparent hent] at hlcp
        have hpos := length_pos_of_ne_nil (S.tree.label_ne hc hr)
        omega
    cases remaining with
    | nil => exact ⟨_, prev, rfl, hstop fun c _ _ _ _ => by simp [lcp]⟩
    | cons a rest =>
      rw [Tree.matchLoop]
      cases hlook : (T.node prev).children.lookup a with
      | none =>
        refine ⟨_, prev, rfl, hstop fun c hc hr hparent _ => ?_⟩
        by_contra hne
        have hsome := S.lookup_of_lcp_pos hc hr (Nat.pos_of_ne_zero hne)
        rw [hparent, hlook] at hsome
        cases hsome
      | some c =>
        obtain ⟨hc, hr, hparent, hhead⟩ := (S.child_iff hprev).mp hlook
        have honly : ∀ d ∈ live, d ≠ rootId → T.parentOf d = prev →
            0 < lcp (a :: rest) (T.label d) → d = c := by
          intro d hd hdr hdp hpos
          have hsome := S.lookup_of_lcp_pos hd hdr hpos
          rw [hdp, hlook] at hsome
          exact (Option.some.inj hsome).symm
        have hpath : path c = path prev ++ T.label c := by rw [S.tree.path_eq hc hr, hparent]
        simp only [sharedPrefixCount_eq_lcp, S.count_eq hc, advanceByChars_eq]
        rw [show (T.node c).text.text = T.label c from rfl]
        by_cases hent : enters c = true
        · rw [if_pos hent]
          by_cases hfull : lcp (a :: rest) (T.label c) = (T.label c).length
          · -- the whole edge matches
            have heq : path c ++ (a :: rest).drop (T.label c).length = text := by
              have hlabel := take_lcp (a :: rest) (T.label c)
              rw [hfull, take_length] at hlabel
              rw [htext, hpath, append_assoc]
              nth_rewrite 1 [← hlabel]
              rw [take_append_drop]
            have hpos := length_pos_of_ne_nil (S.tree.label_ne hc hr)
            have hrec := ih hc (Or.inr hent) heq.symm (by
              rw [length_drop]
              simp only [length_cons] at hfuel ⊢
              omega)
            rw [if_pos hfull, hfull]
            rw [hpath, length_append] at hrec
            exact hrec
          · -- the match ends inside the edge
            have hlt : lcp (a :: rest) (T.label c) < (T.label c).length :=
              lt_of_le_of_ne (lcp_le_right _ _) hfull
            have hle := lcp_le_left (a :: rest) (T.label c)
            rw [if_neg hfull]
            refine ⟨_, c, rfl, hc, Or.inr hent, by omega, ?_, fun m hm hmin j hj hjm => ?_⟩
            · rw [htake, take_lcp, hpath]
              exact (prefix_append_right_inj _).mpr (List.take_prefix _ _)
            · by_contra hgt
              obtain ⟨d, hd, hdr, hdp, _, hlcp⟩ := hlonger m hm hmin j hj hjm (by omega)
              have hdpos := length_pos_of_ne_nil (S.tree.label_ne hd hdr)
              rw [honly d hd hdr hdp (by omega)] at hlcp
              omega
        · rw [if_neg hent]
          refine ⟨_, prev, rfl, hstop fun d hd hdr hdp hdent => ?_⟩
          by_contra hne
          rw [honly d hd hdr hdp (Nat.pos_of_ne_zero hne)] at hdent
          exact hent hdent

theorem matchLoop_root (S : Shape T live path)
    (hclosed : Closed live path enters) (text : List Char) :
    ∃ k n, T.matchLoop enters (text.length + 1) text 0 rootId = some (k, n) ∧
      Matched live path enters text k n := by
  have hroot := S.tree.path_root
  have hspec := matchLoop_spec S hclosed S.root_mem (Or.inl rfl)
    (show text = path rootId ++ text by rw [hroot, nil_append]) (Nat.lt_succ_self _)
  rwa [hroot, length_nil] at hspec

theorem Matched.eq_zero_of_root (S : Shape T live path)
    {k : ℕ} (M : Matched live path enters text k rootId) : k = 0 := by
  have hnil := M.take_le
  rw [S.tree.path_root, prefix_nil] at hnil
  have hlen := congrArg List.length hnil
  rwa [length_take, min_eq_left M.le] at hlen

theorem Tenanted.closed (N : Tenanted T live) (S : Shape T live path) (tenant : String) :
    Closed live path fun n => tenant ∈ T.tenants n := by
  intro c hc m hm hcm hmem
  exact decide_eq_true (N.tenants_mono S hc hm hcm (of_decide_eq_true hmem))

theorem Touched.touchTenant (T : Tree) (n : NodeId) (tenant : String) :
    Touched T (T.touchTenant n tenant) := by
  unfold Tree.touchTenant
  split
  · rename_i hmem
    exact (setAccessTime hmem _).trans (advanceEpoch _)
  · exact refl T

theorem Touched.touchSometimes (h : tenant ∈ T.tenants n ∨ T.epochCounter &&& 7 ≠ 0) :
    Touched T (T.touchSometimes n tenant) := by
  unfold Tree.touchSometimes
  split
  · rename_i hdue
    have hmem : tenant ∈ T.advanceEpoch.tenants n := h.resolve_right fun hne => hne hdue
    exact (advanceEpoch T).trans (setAccessTime hmem _)
  · exact advanceEpoch T

/-- `prefix_match_tenant` returns the longest prefix the tenant holds. -/
theorem prefixMatchTenant_spec (S : Shape T live path) (N : Tenanted T live) (text : List Char)
    (tenant : String) :
    ∃ k T', T.prefixMatchTenant text tenant = some (text.take k, T') ∧ Touched T T' ∧
      k ≤ text.length ∧
      ∀ j ≤ text.length, j ≤ k ↔ j = 0 ∨ T.Holds live path tenant (text.take j) := by
  obtain ⟨k, n, hloop, M⟩ := matchLoop_root S (N.closed S tenant) text
  refine ⟨k, T.touchTenant n tenant, ?_, touchTenant T n tenant, M.le,
    fun j hj => ⟨fun hjk => ?_, ?_⟩⟩
  · rw [Tree.prefixMatchTenant, hloop, ← takeChars_eq]
    rfl
  · rcases M.entered with rfl | hent
    · rw [M.eq_zero_of_root S] at hjk
      exact Or.inl (Nat.le_zero.mp hjk)
    · exact Or.inr ⟨n, M.mem, of_decide_eq_true hent, (take_prefix_take_left hjk).trans M.take_le⟩
  · rintro (rfl | ⟨m, hm, hmem, hpre⟩)
    · exact Nat.zero_le k
    · exact M.best m hm (Or.inr (decide_eq_true hmem)) j hj hpre

/-- `prefix_match_tenant` answers alike for the tenant. -/
def SameMatches (T T' : Tree) (tenant : String) : Prop :=
  ∀ text, ∃ matched U U', T.prefixMatchTenant text tenant = some (matched, U) ∧
    T'.prefixMatchTenant text tenant = some (matched, U')

/-- The answers depend on what the tenant holds. -/
theorem sameMatches_of_holds {T' : Tree} {live' : Finset NodeId} {path' : NodeId → List Char}
    (S : Shape T live path) (N : Tenanted T live) (S' : Shape T' live' path')
    (N' : Tenanted T' live') (h : ∀ w, T'.Holds live' path' tenant w ↔ T.Holds live path tenant w) :
    SameMatches T T' tenant := by
  intro text
  obtain ⟨k, U, hk, _, hkl, hiff⟩ := prefixMatchTenant_spec S N text tenant
  obtain ⟨k', U', hk', _, hkl', hiff'⟩ := prefixMatchTenant_spec S' N' text tenant
  have heq : k' = k := by
    refine le_antisymm ((hiff k' hkl').mpr ?_) ((hiff' k hkl).mpr ?_)
    · rw [← h]
      exact (hiff' k' hkl').mp le_rfl
    · rw [h]
      exact (hiff k hkl).mp le_rfl
  exact ⟨_, U, U', hk, heq ▸ hk'⟩

/-- The tenant chosen at a node is one of its tenants, if it has any. -/
theorem selectTenant_spec (T : Tree) (O : HashOrder String) (n : NodeId) :
    (Touched T (T.selectTenant O n).2 ∧ (T.selectTenant O n).2.epochCounter = T.epochCounter) ∧
      (T.tenants n ≠ ∅ → (T.selectTenant O n).1 ∈ T.tenants n) := by
  have hrefresh : (Touched T (T.refreshTenant O n).2 ∧
      (T.refreshTenant O n).2.epochCounter = T.epochCounter) ∧
      (T.tenants n ≠ ∅ → (T.refreshTenant O n).1 ∈ T.tenants n) := by
    refine ⟨⟨setLastTenant T n _, rfl⟩, fun hne => ?_⟩
    obtain ⟨t, ht⟩ := Finset.nonempty_iff_ne_empty.mpr hne
    cases hlist : O.list (T.tenants n) with
    | nil => exact absurd (O.mem_list.mpr ht) (by rw [hlist]; exact not_mem_nil)
    | cons a rest =>
      have hhead : (T.refreshTenant O n).1 = a := by rw [Tree.refreshTenant, hlist, headD_cons]
      rw [hhead, ← O.mem_list, hlist]
      exact mem_cons_self
  unfold Tree.selectTenant
  split
  · split
    · rename_i hmem
      exact ⟨⟨refl T, rfl⟩, fun _ => hmem⟩
    · exact hrefresh
  · exact hrefresh

/-- `prefix_match_with_counts` stops at the node of the longest stored prefix and answers a
tenant of that node; it touches time stamps only, if the node has a tenant or no time
stamp is due. -/
theorem prefixMatchWithCounts_spec (S : Shape T live path) (O : HashOrder String)
    (text : List Char) : ∃ r n T', T.prefixMatchWithCounts O text = some (r, T') ∧
      Matched live path (fun _ => true) text r.matchedCharCount n ∧ r.inputCharCount = text.length ∧
      (T.tenants n ≠ ∅ → r.tenant ∈ T.tenants n) ∧
      (T.tenants n ≠ ∅ ∨ T.epochCounter &&& 7 ≠ 0 → Touched T T') := by
  have hclosed : Closed live path fun _ => true := fun _ _ _ _ _ _ => rfl
  obtain ⟨k, n, hloop, M⟩ := matchLoop_root S hclosed text
  obtain ⟨⟨htouch, hepoch⟩, hmem⟩ := selectTenant_spec T O n
  refine ⟨⟨(T.selectTenant O n).1, k, text.length⟩, n,
    (T.selectTenant O n).2.touchSometimes n (T.selectTenant O n).1, ?_, M, rfl, hmem,
    fun hdue => htouch.trans (touchSometimes ?_)⟩
  · rw [Tree.prefixMatchWithCounts, hloop]
    rfl
  · rw [htouch.tenants, hepoch]
    exact hdue.imp hmem id

/-! ## Insertion -/

/-- The loop of `insert` adds the text to what the tenant holds. -/
theorem insertLoop_spec {remaining : List Char} {fuel : ℕ}
    (I : Inv T live path) (hprev : prev ∈ live) (htenant : tenant ∈ T.tenants prev)
    (htext : text = path prev ++ remaining) (hfuel : remaining.length < fuel) :
    ∃ T' live' path', Tree.insertLoop tenant fuel remaining prev T = some T' ∧
      Inv T' live' path' ∧ ∀ u w, T'.Holds live' path' u w ↔
        T.Holds live path u w ∨ u = tenant ∧ w <+: text := by
  induction fuel generalizing T live path remaining prev with
  | zero => omega
  | succ fuel ih =>
    have S := I.shape
    cases remaining with
    | nil =>
      have htouch := (setAccessTime htenant T.epochCounter).trans (advanceEpoch _)
      refine ⟨_, live, path, rfl, htouch.inv I, fun u w => ?_⟩
      rw [htouch.holds_iff, htext, append_nil]
      refine ⟨Or.inl, fun hor => hor.elim id ?_⟩
      rintro ⟨rfl, hw⟩
      exact ⟨prev, hprev, htenant, hw⟩
    | cons a rest =>
      rw [Tree.insertLoop]
      cases hlook : (T.node prev).children.lookup a with
      | none =>
        have hgraft := S.attachLeaf_spec hprev a (a :: rest) tenant
        refine ⟨_, _, _, rfl, hgraft.inv I hprev htenant hlook, fun u w => ?_⟩
        rw [hgraft.holds_iff S, htext]
      | some c =>
        obtain ⟨hc, hr, hparent, hhead⟩ := (S.child_iff hprev).mp hlook
        have hpath : path c = path prev ++ T.label c := by rw [S.tree.path_eq hc hr, hparent]
        have hpos : 0 < lcp (a :: rest) (T.label c) := lcp_pos_of_head hhead
        have hlcp := take_lcp (a :: rest) (T.label c)
        have hle := lcp_le_left (a :: rest) (T.label c)
        simp only [sharedPrefixCount_eq_lcp, S.count_eq hc, advanceByChars_eq]
        rw [show (T.node c).text.text = T.label c from rfl]
        set k := lcp (a :: rest) (T.label c) with hk
        have hdrop : ((a :: rest).drop k).length < fuel := by
          rw [length_drop]
          omega
        have hword : text = (path prev ++ (T.label c).take k) ++ (a :: rest).drop k := by
          rw [htext, ← hlcp, append_assoc, take_append_drop]
        -- the node entered next adds a prefix of the text
        have hstep : ∀ (A : Prop) (u : String) (w : List Char),
            (A ∨ u = tenant ∧ w <+: path prev ++ (T.label c).take k) ∨
              u = tenant ∧ w <+: text ↔ A ∨ u = tenant ∧ w <+: text := by
          intro A u w
          rw [or_assoc, or_iff_right_of_imp (And.imp_right fun hw =>
            hw.trans (hword ▸ prefix_append _ _))]
        by_cases hlt : k < (T.label c).length
        · obtain ⟨b, T₁, hrun, hnew, hsplit⟩ := S.splitNode_spec a hc hr hpos hlt
          have I₁ := hsplit.inv I hc hr hpos hlt hhead hnew
          have hmem : T.nextId ∈ insert T.nextId live := Finset.mem_insert_self _ _
          have hlen : k = (T₁.label T.nextId).length := by
            rw [hsplit.label_new, length_take, min_eq_left hlt.le]
          have htag : Tagged T₁ T.nextId tenant (T₁.attachTenant T.nextId tenant k) :=
            Tree.attachTenant_spec hlen
          have hcarry : tenant ∈ T₁.tenants (T₁.parentOf T.nextId) := by
            rw [hsplit.parentOf_new, hparent, hsplit.tenants_kept (S.nextId_ne hprev)]
            exact htenant
          obtain ⟨T', live', path', hrest, I', hholds⟩ :=
            ih (htag.inv I₁ hmem fun _ => hcarry) hmem
              (htag.mem_tenants.mpr (Or.inr ⟨rfl, rfl⟩))
              (by rw [Function.update_self, hparent]; exact hword) hdrop
          rw [if_pos hlt, ← hparent, hrun]
          refine ⟨T', live', path', hrest, I', fun u w => ?_⟩
          rw [hholds, htag.holds_iff hmem, hsplit.holds_iff I hc hr, Function.update_self,
            hparent, hstep]
        · have hfull : (T.label c).take k = T.label c :=
            take_of_length_le (not_lt.mp hlt)
          rw [hfull, ← hpath] at hword hstep
          have htag : Tagged T c tenant (T.attachTenant c tenant (T.label c).length) :=
            Tree.attachTenant_spec rfl
          obtain ⟨T', live', path', hrest, I', hholds⟩ :=
            ih (htag.inv I hc fun _ => hparent ▸ htenant) hc
              (htag.mem_tenants.mpr (Or.inr ⟨rfl, rfl⟩)) hword hdrop
          rw [if_neg hlt]
          refine ⟨T', live', path', hrest, I', fun u w => ?_⟩
          rw [hholds, htag.holds_iff hc, hstep]

theorem insert_spec (I : Inv T live path) (text : List Char) (tenant : String) :
    ∃ T' live' path', T.insert text tenant = some T' ∧ Inv T' live' path' ∧
      ∀ u w, T'.Holds live' path' u w ↔ T.Holds live path u w ∨ u = tenant ∧ w <+: text := by
  have hroot := I.shape.root_mem
  have hnil := I.shape.tree.path_root
  have htag := I.enterRoot_spec tenant
  obtain ⟨T', live', path', hrun, I', hholds⟩ := insertLoop_spec
    (htag.inv I hroot fun h => absurd rfl h) hroot
    (htag.mem_tenants.mpr (Or.inr ⟨rfl, rfl⟩))
    (show text = path rootId ++ text by rw [hnil, nil_append]) (Nat.lt_succ_self _)
  refine ⟨T', live', path', hrun, I', fun u w => ?_⟩
  rw [hholds, htag.holds_iff hroot, or_assoc,
    or_iff_right_of_imp (And.imp_right fun hw => hw.trans (hnil ▸ nil_prefix))]

end Sglang.Gateway
