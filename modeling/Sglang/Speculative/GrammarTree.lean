import Sglang.Speculative.DraftTree
import Mathlib.Tactic.IntervalCases

/-!
# Grammar masks over a draft tree

`traverse_tree` walks the draft tree with the grammar of the request, one `accept_token` down and
one `rollback` up, and fills the mask of every node it gets to. Verification can only walk
through nodes whose mask was filled, up to the token that ends the grammar; the rest of the run
is dropped.
-/

namespace Sglang.Speculative

open Function DraftTree

/-- A grammar object: `accept_token` may raise, `rollback` takes back one token, and a row of the
mask packs 32 tokens into a word. -/
structure Grammar (σ : Type*) where
  acceptToken : σ → ℕ → Option σ
  rollback : σ → σ
  isTerminated : σ → Bool
  fillVocabMask : σ → ℕ → ℕ

/-- The bit of a token in a row. -/
def allowed (row : ℕ → ℕ) (token : ℕ) : Bool := row (token / 32) &&& (1 <<< (token % 32)) != 0

namespace Grammar

variable {σ : Type*}

/-- The operations fit together: a rollback takes back the last token, and the mask of a state has
the tokens of the vocabulary that the state accepts. -/
structure Consistent (G : Grammar σ) (vocabSize : ℕ) : Prop where
  rollback : ∀ s t s', G.acceptToken s t = some s' → G.rollback s' = s
  mask : ∀ s t, G.isTerminated s = false →
    (allowed (G.fillVocabMask s) t = true ↔ (G.acceptToken s t).isSome ∧ t < vocabSize)

/-- `_accept_grammar_tokens`: the retained tokens, the state, and whether a token was refused. -/
def acceptGrammarTokens (G : Grammar σ) : σ → List ℕ → List ℕ × σ × Bool
  | s, [] => ([], s, false)
  | s, token :: tokens =>
    match G.acceptToken s token with
    | none => ([], s, true)
    | some s' =>
      if G.isTerminated s' then ([token], s', false)
      else (token :: (G.acceptGrammarTokens s' tokens).1, (G.acceptGrammarTokens s' tokens).2)

variable (G : Grammar σ) (L : Links) (vocabSize : ℕ)

/-- `dfs` of `traverse_tree` at one node; `below` visits its children. -/
def visit (below : σ × (ℕ → ℕ → ℕ) → Option (σ × (ℕ → ℕ → ℕ))) (curr parentPos : ℕ)
    (r : σ × (ℕ → ℕ → ℕ)) : Option (σ × (ℕ → ℕ → ℕ)) :=
  let isAccepted :=
    if curr = 0 then true
    else if vocabSize ≠ 0 ∧ vocabSize ≤ L.draftToken curr then false
    else allowed (r.2 parentPos) (L.draftToken curr)
  if isAccepted then
    (if curr ≠ 0 then G.acceptToken r.1 (L.draftToken curr) else some r.1).bind fun s =>
      (if G.isTerminated s then some (s, r.2)
        else below (s, update r.2 curr (G.fillVocabMask s))).map fun r =>
          (if curr ≠ 0 then G.rollback r.1 else r.1, r.2)
  else some r

/-- `dfs` of `traverse_tree` on the grammar and the rows of the mask. -/
def dfs : ℕ → ℕ → ℕ → σ × (ℕ → ℕ → ℕ) → Option (σ × (ℕ → ℕ → ℕ))
  | 0, _, _, _ => none
  | fuel + 1, curr, parentPos, r =>
    (visit G L vocabSize
      (fun r => (L.nextToken curr).elim (some r) fun child => dfs fuel child curr r)
      curr parentPos r).bind fun r =>
        (L.nextSibling curr).elim (some r) fun sibling => dfs fuel sibling parentPos r

/-- A node of the siblings `T` is reached from the state `s` of their parent through tokens that
the grammar accepts and that do not end it. -/
inductive Reached : DraftTree → σ → ℕ → σ → Prop
  | here {pos : ℕ} {child sibling : DraftTree} {s s' : σ}
      (haccept : G.acceptToken s (L.draftToken pos) = some s')
      (hvocab : L.draftToken pos < vocabSize)
      (hgoing : G.isTerminated s' = false) : Reached (.node pos child sibling) s pos s'
  | down {pos n : ℕ} {child sibling : DraftTree} {s s' u : σ}
      (haccept : G.acceptToken s (L.draftToken pos) = some s')
      (hvocab : L.draftToken pos < vocabSize)
      (hgoing : G.isTerminated s' = false) (h : Reached child s' n u) :
      Reached (.node pos child sibling) s n u
  | across {pos n : ℕ} {child sibling : DraftTree} {s u : σ} (h : Reached sibling s n u) :
      Reached (.node pos child sibling) s n u

/-- The nodes that are reached through the node `pos`. -/
def Through (child : DraftTree) (pos : ℕ) (s : σ) (n : ℕ) (u : σ) : Prop :=
  ∃ s', G.acceptToken s (L.draftToken pos) = some s' ∧ L.draftToken pos < vocabSize ∧
    G.isTerminated s' = false ∧ (n = pos ∧ u = s' ∨ Reached G L vocabSize child s' n u)

/-- The rows of the nodes in `R` got the masks of their states, and no other row has changed. -/
structure Filled (R : ℕ → σ → Prop) (rows rows' : ℕ → ℕ → ℕ) : Prop where
  mask : ∀ n u, R n u → rows' n = G.fillVocabMask u
  rest : ∀ n, (∀ u, ¬ R n u) → rows' n = rows n

end Grammar

namespace Grammar

variable {σ : Type*} {G : Grammar σ} {L : Links} {vocabSize : ℕ} {T : DraftTree} {s u : σ} {n : ℕ}
  {pos fuel : ℕ} {child : DraftTree} {rows : ℕ → ℕ → ℕ}

theorem Reached.mem (h : Reached G L vocabSize T s n u) : n ∈ T.positions := by
  induction h with
  | here => simp [positions]
  | down _ _ _ _ ih => simp [positions, ih]
  | across _ ih => simp [positions, ih]

theorem reached_node_iff {sibling : DraftTree} :
    Reached G L vocabSize (.node pos child sibling) s n u ↔
      (∃ s', G.acceptToken s (L.draftToken pos) = some s' ∧ L.draftToken pos < vocabSize ∧
        G.isTerminated s' = false ∧ (n = pos ∧ u = s' ∨ Reached G L vocabSize child s' n u)) ∨
        Reached G L vocabSize sibling s n u := by
  constructor
  · intro h
    cases h with
    | here haccept hvocab hgoing => exact Or.inl ⟨_, haccept, hvocab, hgoing, Or.inl ⟨rfl, rfl⟩⟩
    | down haccept hvocab hgoing h => exact Or.inl ⟨_, haccept, hvocab, hgoing, Or.inr h⟩
    | across h => exact Or.inr h
  · rintro (⟨s', haccept, hvocab, hgoing, ⟨rfl, rfl⟩ | h⟩ | h)
    · exact .here haccept hvocab hgoing
    · exact .down haccept hvocab hgoing h
    · exact .across h

/-- The test of `dfs` below a filled row. -/
theorem accepted_iff (hG : G.Consistent vocabSize) (hgoing : G.isTerminated s = false) (token : ℕ) :
    (if vocabSize ≠ 0 ∧ vocabSize ≤ token then false
      else allowed (G.fillVocabMask s) token) = true ↔
      (G.acceptToken s token).isSome ∧ token < vocabSize := by
  have hmask := hG.mask s token hgoing
  split
  · simp only [Bool.false_eq_true, false_iff, not_and]
    omega
  · exact hmask

theorem Filled.trans {R R' : ℕ → σ → Prop} {rows₁ rows₂ : ℕ → ℕ → ℕ}
    (h : G.Filled R rows rows₁) (h' : G.Filled R' rows₁ rows₂)
    (hdisj : ∀ n u v, R n u → ¬ R' n v) : G.Filled (fun n u => R n u ∨ R' n u) rows rows₂ := by
  obtain ⟨hmask, hrest⟩ := h
  obtain ⟨hmask', hrest'⟩ := h'
  constructor
  · rintro n u (hu | hu)
    · rw [hrest' n fun v => hdisj n u v hu, hmask n u hu]
    · exact hmask' n u hu
  · intro n hn
    rw [hrest' n fun v hv => hn v (Or.inr hv), hrest n fun v hv => hn v (Or.inl hv)]

theorem visit_spec (hG : G.Consistent vocabSize) {parent : ℕ}
    (below : σ × (ℕ → ℕ → ℕ) → Option (σ × (ℕ → ℕ → ℕ)))
    (hpos : pos ≠ 0) (hchild : pos ∉ child.positions) (hgoing : G.isTerminated s = false)
    (hrow : rows parent = G.fillVocabMask s)
    (hbelow : ∀ s' rows, G.isTerminated s' = false → rows pos = G.fillVocabMask s' →
      ∃ rows', below (s', rows) = some (s', rows') ∧
        G.Filled (Reached G L vocabSize child s') rows rows') :
    ∃ rows', visit G L vocabSize below pos parent (s, rows) = some (s, rows') ∧
      G.Filled (Through G L vocabSize child pos s) rows rows' := by
  have htest := accepted_iff hG hgoing (L.draftToken pos)
  simp only [visit, if_neg hpos, hrow, if_pos hpos, ne_eq]
  by_cases haccepted : (G.acceptToken s (L.draftToken pos)).isSome ∧ L.draftToken pos < vocabSize
  · obtain ⟨s', hs'⟩ := Option.isSome_iff_exists.mp haccepted.1
    rw [if_pos (htest.mpr haccepted), hs']
    cases hterm : G.isTerminated s' with
    | true =>
      refine ⟨rows, by simp [hterm, hG.rollback _ _ _ hs'], fun n u h => ?_, fun _ _ => rfl⟩
      obtain ⟨v, hv, -, hv', -⟩ := h
      grind
    | false =>
      obtain ⟨rows₁, heq, hfilled⟩ := hbelow s' (update rows pos (G.fillVocabMask s')) hterm
        (update_self ..)
      refine ⟨rows₁, by simp [hterm, heq, hG.rollback _ _ _ hs'], ?_, ?_⟩
      · rintro n u ⟨v, hv, -, -, ⟨rfl, rfl⟩ | h⟩
        · rw [hfilled.rest n fun u hu => hchild hu.mem, update_self]
          grind
        · exact hfilled.mask n u (by grind)
      · intro n hn
        have hne : n ≠ pos := by
          rintro rfl
          exact hn s' ⟨s', hs', haccepted.2, hterm, Or.inl ⟨rfl, rfl⟩⟩
        rw [hfilled.rest n fun u hu => hn u ⟨s', hs', haccepted.2, hterm, Or.inr hu⟩,
          update_of_ne hne]
  · rw [if_neg fun h => haccepted (htest.mp h)]
    refine ⟨rows, rfl, fun n u h => ?_, fun _ _ => rfl⟩
    obtain ⟨v, hv, hvocab, -⟩ := h
    exact absurd ⟨by simp [hv], hvocab⟩ haccepted

/-- A row of siblings below a filled row. -/
theorem dfs_spec (hG : G.Consistent vocabSize) {parent : ℕ}
    (hL : T.Linked L) (hfuel : T.size ≤ fuel) (hzero : 0 ∉ T.positions)
    (hparent : parent ∉ T.positions) (hnodup : T.positions.Nodup)
    (hgoing : G.isTerminated s = false) (hrow : rows parent = G.fillVocabMask s) :
    ∃ rows', T.root?.elim (some (s, rows)) (fun c => G.dfs L vocabSize fuel c parent (s, rows)) =
      some (s, rows') ∧ G.Filled (Reached G L vocabSize T s) rows rows' := by
  induction T generalizing fuel parent rows s with
  | leaf => exact ⟨rows, rfl, ⟨fun _ _ h => (by cases h), fun _ _ => rfl⟩⟩
  | node pos child sibling ihc ihs =>
    obtain ⟨hnext, hsibling, hLc, hLs⟩ := hL
    obtain ⟨fuel, rfl⟩ : ∃ f, fuel = f + 1 := ⟨fuel - 1, by simp only [size] at hfuel; omega⟩
    simp only [size, positions, List.mem_cons, List.mem_append, not_or,
      List.nodup_cons, List.nodup_append] at hfuel hzero hparent hnodup
    obtain ⟨⟨hposc, hposs⟩, hndc, hnds, hdisj⟩ := hnodup
    obtain ⟨rows₁, heq, hfilled⟩ := visit_spec hG
      (fun r => child.root?.elim (some r) fun c => G.dfs L vocabSize fuel c pos r)
      (Ne.symm hzero.1) hposc hgoing hrow fun s' rows hs' hrow' =>
        ihc hLc (by omega) hzero.2.1 hposc hndc hs' hrow'
    have hrow₁ : rows₁ parent = G.fillVocabMask s := by
      rw [hfilled.rest parent, hrow]
      rintro u ⟨s', -, -, -, ⟨rfl, -⟩ | h⟩
      · exact hparent.1 rfl
      · exact hparent.2.1 h.mem
    obtain ⟨rows₂, heq₂, hfilled₂⟩ := ihs hLs (by omega : sibling.size ≤ fuel)
      hzero.2.2 hparent.2.2 hnds hgoing hrow₁
    refine ⟨rows₂, ?_, ?_⟩
    · simp only [root?_node, Option.elim_some, dfs, hnext, hsibling]
      rw [heq]
      exact heq₂
    · have hboth := hfilled.trans hfilled₂ (by
        rintro n u v ⟨s', -, -, -, ⟨rfl, -⟩ | h⟩ h'
        · exact hposs h'.mem
        · exact hdisj n h.mem n h'.mem rfl)
      refine ⟨fun n u h => hboth.mask n u (reached_node_iff.mp h), fun n hn => hboth.rest n ?_⟩
      exact fun u hu => hn u (reached_node_iff.mpr hu)

/-- No token was refused, and a token was dropped only behind the end of the grammar. -/
def Retained (G : Grammar σ) (s : σ) (run : List ℕ) : Prop :=
  (G.acceptGrammarTokens s run).2.2 = false ∧ ((G.acceptGrammarTokens s run).1 = run ∨
    G.isTerminated (G.acceptGrammarTokens s run).2.1 = true)

end Grammar

end Sglang.Speculative
