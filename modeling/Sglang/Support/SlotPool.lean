import Mathlib.Data.Int.Interval
import Mathlib.Data.List.Perm.Basic
import Mathlib.Data.Set.Basic
import Sglang.Support.Table

/-!
# Pools of slots bound through a pair of tables

A `SlotPool` is a band of slots, each of which is either bound through a pair
of mutually inverse tables or on a duplicate-free list of unbound slots. One
reserved slot, the sink, may be bound outside the band. The lemmas say how the
pool changes when slots are taken, given back, moved, or when the band itself
shrinks.
-/

namespace Sglang.Support

open List

variable {α β : Type*}

/-- The band is exactly the disjoint union of the bound slots and `unbound`. -/
structure SlotPool (f : α → β) (g : β → α) (na : α) (nb sink : β)
    (band : Set β) (unbound : List β) : Prop where
  inverse : PartialInverse f g na nb
  bound_cases : ∀ b, g b ≠ na → b = sink ∨ b ∈ band
  nodup : unbound.Nodup
  mem_iff : ∀ b, b ∈ unbound ↔ b ∈ band ∧ g b = na
  outside : ∀ b ∈ band, b ≠ sink ∧ b ≠ nb

namespace SlotPool

variable {f : α → β} {g : β → α} {na : α} {nb sink : β} {band : Set β}
  {unbound : List β} {b : β}

section

variable (h : SlotPool f g na nb sink band unbound)
include h

theorem perm {unbound' : List β}
    (hperm : unbound.Perm unbound') : SlotPool f g na nb sink band unbound' :=
  { h with
    nodup := hperm.nodup_iff.mp h.nodup
    mem_iff := fun b => by rw [← hperm.mem_iff, h.mem_iff] }

theorem unbound_of_notMem (hband : b ∉ band) (hsink : b ≠ sink) : g b = na := by
  by_contra hb
  rcases h.bound_cases b hb with rfl | hmem
  · exact hsink rfl
  · exact hband hmem

theorem bound_of_notMem (hband : b ∈ band) (hfree : b ∉ unbound) : g b ≠ na :=
  fun hb => hfree ((h.mem_iff b).mpr ⟨hband, hb⟩)

theorem mem_band (hb : g b ≠ na) (hsink : b ≠ sink) : b ∈ band :=
  (h.bound_cases b hb).resolve_left hsink

/-- The band gives up unbound slots. -/
theorem shrink {band' : Set β} {kept top : List β} (hperm : unbound.Perm (kept ++ top))
    (hband : ∀ b, b ∈ band' ↔ b ∈ band ∧ b ∉ top) : SlotPool f g na nb sink band' kept := by
  have hp := h.perm hperm
  have htop : ∀ b ∈ top, g b = na := fun b hb => ((hp.mem_iff b).mp (mem_append_right _ hb)).2
  have hdisj := disjoint_of_nodup_append hp.nodup
  refine
    { inverse := h.inverse
      bound_cases := ?_
      nodup := (nodup_append.mp hp.nodup).1
      mem_iff := ?_
      outside := fun b hb => h.outside b ((hband b).mp hb).1 }
  · intro b hb
    rcases h.bound_cases b hb with hsink | hmem
    · exact Or.inl hsink
    · exact Or.inr ((hband b).mpr ⟨hmem, fun ht => hb (htop b ht)⟩)
  · intro b
    rw [hband]
    constructor
    · intro hb
      obtain ⟨hmem, hna⟩ := (hp.mem_iff b).mp (mem_append_left _ hb)
      exact ⟨⟨hmem, fun ht => hdisj hb ht⟩, hna⟩
    · rintro ⟨⟨hmem, ht⟩, hna⟩
      have := (hp.mem_iff b).mpr ⟨hmem, hna⟩
      exact (mem_append.mp this).resolve_right ht

end

variable [DecidableEq α] [DecidableEq β]

variable (h : SlotPool f g na nb sink band unbound)
include h

/-- Slots are taken, from the unbound list or from a fresh extension of the
band, and bound to fresh partners. -/
theorem take {band' : Set β}
    {fresh rest taken : List β} {vs : List α} (hperm : (rest ++ taken).Perm (unbound ++ fresh))
    (hband : ∀ b, b ∈ band' ↔ b ∈ band ∨ b ∈ fresh)
    (hfresh : ∀ b ∈ fresh, b ∉ band ∧ b ≠ sink ∧ b ≠ nb)
    (hfreshNodup : fresh.Nodup) (hvs : vs.Nodup)
    (hlen : vs.length = taken.length) (hfv : ∀ a ∈ vs, f a = nb) (hna : na ∉ vs) :
    SlotPool (scatter f vs taken) (scatter g taken vs) na nb sink band' rest := by
  have hdisj : List.Disjoint unbound fresh := fun b hu hf => (hfresh b hf).1 ((h.mem_iff b).mp hu).1
  have hnodup : (rest ++ taken).Nodup := hperm.nodup_iff.mpr (h.nodup.append hfreshNodup hdisj)
  have htaken : taken.Nodup := (nodup_append.mp hnodup).2.1
  have hrt := disjoint_of_nodup_append hnodup
  -- What is on either list is unbound and will lie in the new band.
  have hfree : ∀ b, b ∈ rest ++ taken ↔ b ∈ band' ∧ g b = na := by
    intro b
    rw [hperm.mem_iff, mem_append, h.mem_iff, hband]
    constructor
    · rintro (⟨hb, hg⟩ | hb)
      · exact ⟨Or.inl hb, hg⟩
      · exact ⟨Or.inr hb, h.unbound_of_notMem (hfresh b hb).1 (hfresh b hb).2.1⟩
    · rintro ⟨hb | hb, hg⟩
      · exact Or.inl ⟨hb, hg⟩
      · exact Or.inr hb
  have houtside : ∀ b ∈ band', b ≠ sink ∧ b ≠ nb := by
    intro b hb
    rcases (hband b).mp hb with hb | hb
    · exact h.outside b hb
    · exact (hfresh b hb).2
  have htna : ∀ b ∈ taken, g b = na := fun b hb => ((hfree b).mp (mem_append_right _ hb)).2
  have htband : ∀ b ∈ taken, b ∈ band' := fun b hb => ((hfree b).mp (mem_append_right _ hb)).1
  refine
    { inverse := h.inverse.bind hvs htaken hlen hfv htna hna
        (fun hmem => (houtside nb (htband nb hmem)).2 rfl)
      bound_cases := ?_
      nodup := (nodup_append.mp hnodup).1
      mem_iff := ?_
      outside := houtside }
  · intro b hb
    by_cases ht : b ∈ taken
    · exact Or.inr (htband b ht)
    · rw [scatter_of_notMem ht] at hb
      rcases h.bound_cases b hb with hs | hmem
      · exact Or.inl hs
      · exact Or.inr ((hband b).mpr (Or.inl hmem))
  · intro b
    rw [scatter_eq_null_iff htaken hlen.symm hna]
    constructor
    · intro hb
      obtain ⟨hmem, hg⟩ := (hfree b).mp (mem_append_left _ hb)
      exact ⟨hmem, hg, fun ht => hrt hb ht⟩
    · rintro ⟨hmem, hg, ht⟩
      exact (mem_append.mp ((hfree b).mpr ⟨hmem, hg⟩)).resolve_right ht

/-- Bound partners are released and their slots become unbound. -/
theorem release {vs : List α} (hvs : vs.Nodup) (hbound : ∀ a ∈ vs, f a ≠ nb ∧ f a ≠ sink) :
    SlotPool (fill f vs nb) (fill g (vs.map f) na) na nb sink band (unbound ++ vs.map f) := by
  have hg : ∀ b ∈ vs.map f, g b ≠ na ∧ b ∈ band := by
    intro b hb
    obtain ⟨a, ha, rfl⟩ := mem_map.mp hb
    have hne := h.inverse.ne_null_right (hbound a ha).1
    exact ⟨hne, h.mem_band hne (hbound a ha).2⟩
  have hnodup : (vs.map f).Nodup := by
    refine List.Nodup.map_on ?_ hvs
    intro a ha a' ha' heq
    rw [← h.inverse.left (hbound a ha).1, heq, h.inverse.left (hbound a' ha').1]
  refine
    { inverse := h.inverse.unbind vs
      bound_cases := ?_
      nodup := h.nodup.append hnodup fun b hu hv => (hg b hv).1 ((h.mem_iff b).mp hu).2
      mem_iff := ?_
      outside := h.outside }
  · intro b hb
    by_cases hmem : b ∈ vs.map f
    · exact Or.inr (hg b hmem).2
    · rw [fill_of_notMem hmem] at hb
      exact h.bound_cases b hb
  · intro b
    rw [mem_append]
    by_cases hmem : b ∈ vs.map f
    · simp [fill_of_mem hmem, hmem, (hg b hmem).2]
    · simp [fill_of_notMem hmem, hmem, h.mem_iff]

/-- The bindings of `srcs` move to the unbound slots `dsts`, and `srcs` become
unbound: the partners are released and bound again. -/
theorem relocate
    {srcs dsts rest : List β} (hsrcs : srcs.Nodup) (hbound : ∀ b ∈ srcs, g b ≠ na ∧ b ≠ sink)
    (hperm : unbound.Perm (dsts ++ rest)) (hlen : srcs.length = dsts.length) :
    SlotPool (scatter f (srcs.map g) dsts)
      (fill (scatter g dsts (srcs.map g)) srcs na) na nb sink band (rest ++ srcs) := by
  have hg : ∀ b ∈ srcs, g b ≠ na := fun b hb => (hbound b hb).1
  have hvs := h.inverse.nodup_map_right hsrcs hg
  have hlen' : (srcs.map g).length = dsts.length := by simpa using hlen
  have hp := h.perm hperm
  have hdsts : dsts.Nodup := (nodup_append.mp hp.nodup).1
  have hpartner : ∀ a ∈ srcs.map g, a ≠ na ∧ f a ≠ nb ∧ f a ≠ sink := by
    intro a ha
    obtain ⟨b, hb, rfl⟩ := mem_map.mp ha
    rw [h.inverse.right (hg b hb)]
    exact ⟨hg b hb, h.inverse.ne_null_left (hg b hb), (hbound b hb).2⟩
  have hreleased := h.release hvs fun a ha => (hpartner a ha).2
  rw [h.inverse.map_map_right hg] at hreleased
  have hsplit : ((rest ++ srcs) ++ dsts).Perm ((unbound ++ srcs) ++ []) := by
    rw [append_nil]
    calc
      ((rest ++ srcs) ++ dsts).Perm (dsts ++ (rest ++ srcs)) := perm_append_comm
      List.Perm _ (unbound ++ srcs) := by
        rw [← append_assoc]
        exact hperm.symm.append_right _
  have hband : ∀ b, b ∈ band ↔ b ∈ band ∨ b ∈ ([] : List β) := fun _ => by simp
  have htaken := hreleased.take hsplit hband (by simp) nodup_nil hvs hlen'
    (fun _ ha => fill_of_mem ha) (fun hmem => (hpartner na hmem).1 rfl)
  have htables : scatter (fill f (srcs.map g) nb) (srcs.map g) dsts = scatter f (srcs.map g) dsts ∧
      scatter (fill g srcs na) dsts (srcs.map g) =
        fill (scatter g dsts (srcs.map g)) srcs na := by
    refine ⟨funext fun a => scatter_congr hvs hlen' fill_of_notMem, funext fun b => ?_⟩
    by_cases hb : b ∈ srcs
    · have hd : b ∉ dsts := fun hd => hg b hb ((hp.mem_iff b).mp (mem_append_left _ hd)).2
      rw [scatter_of_notMem hd, fill_of_mem hb, fill_of_mem hb]
    · rw [fill_of_notMem hb]
      exact scatter_congr hdsts hlen'.symm fun _ => fill_of_notMem hb
  rwa [htables.1, htables.2] at htaken

end SlotPool

/-! ## Packing -/

/-- A duplicate-free list that is upward closed below `w` is the top of the
interval below `w`. -/
theorem mem_iff_of_upClosed (top : List ℤ) (w : ℤ) (hnodup : top.Nodup) (hlt : ∀ x ∈ top, x < w)
    (hup : ∀ x ∈ top, ∀ y, x ≤ y → y < w → y ∈ top) (x : ℤ) :
    x ∈ top ↔ w - top.length ≤ x ∧ x < w := by
  have hcard : top.toFinset.card = top.length := toFinset_card_of_nodup hnodup
  constructor
  · intro hx
    have hsub : Finset.Ico x w ⊆ top.toFinset := by
      intro y hy
      rw [Finset.mem_Ico] at hy
      exact mem_toFinset.mpr (hup x hx y hy.1 hy.2)
    have hle := Finset.card_le_card hsub
    rw [Int.card_Ico, hcard] at hle
    exact ⟨by omega, hlt x hx⟩
  · rintro ⟨hle, hxw⟩
    by_contra hx
    have hsub : top.toFinset ⊆ Finset.Ico (x + 1) w := by
      intro y hy
      rw [mem_toFinset] at hy
      have hyx : x < y := by
        by_contra hnot
        exact hx (hup y hy x (not_lt.mp hnot) hxw)
      exact Finset.mem_Ico.mpr ⟨by omega, hlt y hy⟩
    have hcount := Finset.card_le_card hsub
    rw [Int.card_Ico, hcard] at hcount
    omega

end Sglang.Support
