import Sglang.Support.Dict

/-!
# Indexes of a map

An index groups the values of a map under a key and lists for each value an entry. It
projects the map when every value has its entry once, under its current key, and
nothing else is listed.
-/

namespace Sglang.Support

variable {ι κ ω β : Type*} [DecidableEq ι] [DecidableEq κ]

namespace Dict

/-- The entries under a key. -/
def entries (ix : Dict κ (List β)) (k : κ) : List β := (ix.lookup k).getD []

/-- `entry(k).or_default().push(b)` -/
def pushUnder (ix : Dict κ (List β)) (k : κ) (b : β) : Dict κ (List β) :=
  ix.insert k (ix.entries k ++ [b])

/-- `retain` on the entries under a key, if there are any. -/
def retainUnder (ix : Dict κ (List β)) (k : κ) (keep : β → Bool) : Dict κ (List β) :=
  ix.modify k (List.filter keep)

variable (ix : Dict κ (List β)) (k k' : κ)

theorem entries_pushUnder (b : β) :
    (ix.pushUnder k b).entries k' = if k' = k then ix.entries k ++ [b] else ix.entries k' := by
  rw [entries, pushUnder, lookup_insert_eq]
  split <;> rfl

theorem entries_retainUnder (keep : β → Bool) : (ix.retainUnder k keep).entries k' =
      if k' = k then (ix.entries k).filter keep else ix.entries k' := by
  rw [entries, retainUnder, lookup_modify_eq]
  split
  · rw [entries]
    cases ix.lookup k <;> rfl
  · rfl

end Dict

open Dict

/-- The index lists the entry of every value of the map once, under the value's key. -/
structure Projects (m : Dict ι ω) (key : ω → κ) (entry : ι → ω → β) (ix : Dict κ (List β)) :
    Prop where
  nodup : ∀ k, (ix.entries k).Nodup
  mem_iff : ∀ k b, b ∈ ix.entries k ↔ ∃ i w, m.lookup i = some w ∧ key w = k ∧ entry i w = b

namespace Projects

variable {m : Dict ι ω} {key : ω → κ} {entry : ι → ω → β} {ix : Dict κ (List β)} {i : ι} {w : ω}

theorem empty : Projects (∅ : Dict ι ω) key entry ∅ where
  nodup k := by
    rw [entries, Finmap.lookup_empty]
    exact List.nodup_nil
  mem_iff k b := by
    simp [entries]

/-- A value under a new index is pushed under its key. -/
theorem insert (h : Projects m key entry ix) (hfresh : m.lookup i = none)
    (hnew : ∀ j v, m.lookup j = some v → entry j v ≠ entry i w) :
    Projects (m.insert i w) key entry (ix.pushUnder (key w) (entry i w)) := by
  have hnot : ∀ k, entry i w ∉ ix.entries k := by
    intro k hmem
    obtain ⟨j, v, hj, _, heq⟩ := (h.mem_iff k _).mp hmem
    exact hnew j v hj heq
  -- the values of the extended map are the old ones and `w`
  have hsplit : ∀ k b, (∃ j v, (m.insert i w).lookup j = some v ∧ key v = k ∧ entry j v = b) ↔
      b ∈ ix.entries k ∨ key w = k ∧ entry i w = b := by
    intro k b
    constructor
    · rintro ⟨j, v, hj, hk, hb⟩
      rw [lookup_insert_eq] at hj
      split at hj
      · obtain rfl := Option.some.inj hj
        subst j
        exact Or.inr ⟨hk, hb⟩
      · exact Or.inl ((h.mem_iff k b).mpr ⟨j, v, hj, hk, hb⟩)
    · rintro (hmem | ⟨hk, hb⟩)
      · obtain ⟨j, v, hj, hk, hb⟩ := (h.mem_iff k b).mp hmem
        have hne : j ≠ i := by
          rintro rfl
          rw [hfresh] at hj
          cases hj
        exact ⟨j, v, by rw [lookup_insert_eq, if_neg hne, hj], hk, hb⟩
      · exact ⟨i, w, Finmap.lookup_insert m, hk, hb⟩
  constructor
  · intro k
    rw [entries_pushUnder]
    split
    · refine List.nodup_append.mpr ⟨h.nodup _, List.nodup_singleton _, ?_⟩
      rintro b hb _ hlast rfl
      exact hnot _ (List.mem_singleton.mp hlast ▸ hb)
    · exact h.nodup k
  · intro k b
    rw [hsplit, entries_pushUnder]
    split
    · rename_i hk
      rw [List.mem_append, List.mem_singleton, hk]
      exact or_congr_right ⟨fun hb => ⟨rfl, hb.symm⟩, fun hb => hb.2.symm⟩
    · rename_i hk
      exact ⟨Or.inl, fun hor => hor.resolve_right fun hw => hk hw.1.symm⟩

/-- Removing a value retains under its key the entries of the other values. -/
theorem erase (h : Projects m key entry ix) (hi : m.lookup i = some w) {keep : β → Bool}
    (hkeep : ∀ j v, m.lookup j = some v → (keep (entry j v) = true ↔ j ≠ i)) :
    Projects (m.erase i) key entry (ix.retainUnder (key w) keep) := by
  have hsplit : ∀ k b, (∃ j v, (m.erase i).lookup j = some v ∧ key v = k ∧ entry j v = b) ↔
      b ∈ ix.entries k ∧ (k = key w → keep b = true) := by
    intro k b
    constructor
    · rintro ⟨j, v, hj, hk, hb⟩
      rw [lookup_erase_eq] at hj
      split at hj
      · cases hj
      · rename_i hne
        subst hb
        exact ⟨(h.mem_iff k _).mpr ⟨j, v, hj, hk, rfl⟩, fun _ => (hkeep j v hj).mpr hne⟩
    · rintro ⟨hmem, hkept⟩
      obtain ⟨j, v, hj, hk, rfl⟩ := (h.mem_iff k b).mp hmem
      have hne : j ≠ i := by
        rintro rfl
        obtain rfl := Option.some.inj (hi.symm.trans hj)
        exact (hkeep j w hi).mp (hkept hk.symm) rfl
      exact ⟨j, v, by rw [lookup_erase_eq, if_neg hne, hj], hk, rfl⟩
  constructor
  · intro k
    rw [entries_retainUnder]
    split
    · exact (h.nodup _).filter _
    · exact h.nodup k
  · intro k b
    rw [hsplit, entries_retainUnder]
    split
    · rename_i hk
      rw [List.mem_filter, hk]
      exact and_congr_right fun _ => ⟨fun hb _ => hb, fun hb => hb rfl⟩
    · rename_i hk
      exact ⟨fun hb => ⟨hb, fun heq => absurd heq hk⟩, And.left⟩

/-- Pushing the index of a value that the map already has lists it twice, or under a key that
it no longer has. -/
theorem not_replace {ix : Dict κ (List ι)} (h : Projects m key (fun i _ => i) ix) {old : ω}
    (hi : m.lookup i = some old) :
    ¬Projects (m.insert i w) key (fun i _ => i) (ix.pushUnder (key w) i) := by
  intro h'
  have hmem : i ∈ ix.entries (key old) := (h.mem_iff _ i).mpr ⟨i, old, hi, rfl, rfl⟩
  by_cases hk : key old = key w
  · have htwice := h'.nodup (key w)
    rw [entries_pushUnder, if_pos rfl, List.nodup_append] at htwice
    exact htwice.2.2 i (hk ▸ hmem) i (List.mem_singleton_self i) rfl
  · have hstale : i ∈ (ix.pushUnder (key w) i).entries (key old) := by
      rw [entries_pushUnder, if_neg hk]
      exact hmem
    obtain ⟨j, v, hj, hv, heq⟩ := (h'.mem_iff _ i).mp hstale
    subst heq
    rw [Finmap.lookup_insert] at hj
    exact hk (hv.symm.trans (congrArg key (Option.some.inj hj).symm))

end Projects

end Sglang.Support
