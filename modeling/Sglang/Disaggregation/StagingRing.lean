import Mathlib.Data.Prod.Lex
import Mathlib.Data.List.Pairwise
import Mathlib.Data.List.TakeWhile
import Sglang.Support.Reachable

/-!
# The staging ring

`StagingAllocator` hands out regions of one buffer, lap after lap and without waiting for frees.
The writers wait instead: they compare their region with the last watermark that reached them.
A position of the ring is a pair of a round and an offset, and later positions are larger.
-/

namespace Sglang.Disaggregation

open Sglang.Support List

/-- An entry of `allocations`. -/
structure Region where
  offset : ℕ
  size : ℕ
  round : ℕ
  deriving DecidableEq

namespace Region

def stop (A : Region) : ℕ := A.offset + A.size

def Overlaps (A B : Region) : Prop := ∃ x, (A.offset ≤ x ∧ x < A.stop) ∧ B.offset ≤ x ∧ x < B.stop

/-- The second region starts where the first one ends, or later. -/
def Precedes (A B : Region) : Prop := toLex (A.round, A.stop) ≤ toLex (B.round, B.offset)

theorem Precedes.start_le {A B : Region} (h : A.Precedes B) :
    toLex (A.round, A.offset) ≤ toLex (B.round, B.offset) := by
  refine le_trans ?_ h
  rw [Prod.Lex.toLex_le_toLex]
  exact Or.inr ⟨rfl, Nat.le_add_right _ _⟩

end Region

structure StagingAllocator where
  totalSize : ℕ
  head : ℕ := 0
  round : ℕ := 0
  allocations : List (ℕ × Region) := []
  allocOrder : List ℕ := []
  nextAllocId : ℕ := 0
  watermarkRound : ℕ := 0
  watermarkTail : ℕ := 0

namespace StagingAllocator

variable (a : StagingAllocator)

def IsLive (allocations : List (ℕ × Region)) (allocId : ℕ) : Prop :=
  allocId ∈ allocations.map Prod.fst

instance (allocations : List (ℕ × Region)) : DecidablePred (IsLive allocations) := fun allocId =>
  inferInstanceAs (Decidable (allocId ∈ allocations.map Prod.fst))

/-- The region that `assign` chooses. -/
def nextRegion (requiredBytes : ℕ) : Region :=
  if requiredBytes ≤ a.totalSize - a.head then ⟨a.head, requiredBytes, a.round⟩
  else ⟨0, requiredBytes, a.round + 1⟩

def assign (requiredBytes : ℕ) : Option (Region × StagingAllocator) :=
  if a.totalSize < requiredBytes then none
  else
    let A := a.nextRegion requiredBytes
    some (A, { a with
      head := A.stop
      round := A.round
      nextAllocId := a.nextAllocId + 1
      allocations := a.allocations ++ [(a.nextAllocId, A)]
      allocOrder := a.allocOrder ++ [a.nextAllocId] })

def setWatermark (position : ℕ × ℕ) : StagingAllocator :=
  { a with watermarkRound := position.1, watermarkTail := position.2 }

/-- The watermark after a free: the oldest allocation, or the head when none is left. -/
def oldest (allocations : List (ℕ × Region)) (allocOrder : List ℕ) : ℕ × ℕ :=
  if allocations = [] then (a.round, a.head)
  else match allocOrder.head?.bind fun allocId => allocations.lookup allocId with
    | some A => (A.round, A.offset)
    | none => (a.watermarkRound, a.watermarkTail)

def free (allocId : ℕ) : StagingAllocator :=
  if IsLive a.allocations allocId then
    let allocations := a.allocations.filter (·.1 ≠ allocId)
    let allocOrder := a.allocOrder.dropWhile (¬ IsLive allocations ·)
    { a with allocations, allocOrder }.setWatermark (a.oldest allocations allocOrder)
  else a

def getWatermark : ℕ × ℕ := (a.watermarkRound, a.watermarkTail)

end StagingAllocator

open StagingAllocator (IsLive)

def isWatermarkReady (remoteWatermark : ℕ × ℕ) (allocRound allocEnd : ℕ) : Bool :=
  if allocRound = 0 then true
  else
    allocRound - 1 < remoteWatermark.1 ∨
      allocRound - 1 = remoteWatermark.1 ∧ allocEnd ≤ remoteWatermark.2

def handleWatermarkMsg (msg prev : ℕ × ℕ) : ℕ × ℕ := if toLex prev < toLex msg then msg else prev

/-! ## Both ends of the ring -/

/-- The allocator with everything it has handed out, by allocation id, the watermarks it has sent
and the one that a writer knows. -/
structure Ring where
  allocator : StagingAllocator
  regions : List Region := []
  sent : List (ℕ × ℕ) := []
  remote : ℕ × ℕ := (0, 0)

inductive RingOp where
  | assign (requiredBytes : ℕ)
  | free (allocId : ℕ)
  | sendWatermark
  /-- Any message that was sent arrives; it may arrive late, again or not at all. -/
  | deliver (n : ℕ)

namespace Ring

variable (s : Ring)

def run : RingOp → Option Ring
  | .assign requiredBytes => (s.allocator.assign requiredBytes).map fun r =>
    { s with regions := s.regions ++ [r.1], allocator := r.2 }
  | .free allocId => some { s with allocator := s.allocator.free allocId }
  | .sendWatermark => some { s with sent := s.sent ++ [s.allocator.getWatermark] }
  | .deliver n => s.sent[n]?.map fun msg =>
    { s with remote := handleWatermarkMsg msg s.remote }

abbrev Reaches : Ring → Prop :=
  Reachable (fun s => ∃ totalSize, s = { allocator := { totalSize } }) (fun _ _ => True) run

/-- A region that a writer may write overlaps no older region that is not freed, and the writer
is never ahead of the allocator. -/
structure Sound : Prop where
  apart : ∀ i j A B, s.regions[i]? = some A → s.regions[j]? = some B → i < j →
    IsLive s.allocator.allocations i →
    isWatermarkReady s.remote B.round B.stop = true → ¬A.Overlaps B
  remote_le : toLex s.remote ≤ toLex s.allocator.getWatermark

structure Inv : Prop where
  next_eq : s.allocator.nextAllocId = s.regions.length
  ordered : s.regions.Pairwise Region.Precedes
  behind : ∀ A ∈ s.regions, toLex (A.round, A.stop) ≤ toLex (s.allocator.round, s.allocator.head)
  order_sorted : s.allocator.allocOrder.Pairwise (· < ·)
  order_lt : ∀ i ∈ s.allocator.allocOrder, i < s.regions.length
  granted : ∀ i A, (i, A) ∈ s.allocator.allocations → s.regions[i]? = some A
  listed : ∀ i, IsLive s.allocator.allocations i → i ∈ s.allocator.allocOrder
  watermark_le : toLex s.allocator.getWatermark ≤ toLex (s.allocator.round, s.allocator.head)
  oldest_le : ∀ i A, (i, A) ∈ s.allocator.allocations →
    toLex s.allocator.getWatermark ≤ toLex (A.round, A.offset)
  sent_le : ∀ msg ∈ s.sent, toLex msg ≤ toLex s.allocator.getWatermark
  remote_le : toLex s.remote ≤ toLex s.allocator.getWatermark

variable {s}

theorem precedes_of_lt (I : s.Inv) {i j : ℕ} {A B : Region} (hA : s.regions[i]? = some A)
    (hB : s.regions[j]? = some B) (hij : i < j) : A.Precedes B := by
  obtain ⟨hi, rfl⟩ := List.getElem?_eq_some_iff.mp hA
  obtain ⟨hj, rfl⟩ := List.getElem?_eq_some_iff.mp hB
  exact pairwise_iff_getElem.mp I.ordered i j hi hj hij

theorem head_le_nextRegion (a : StagingAllocator) (n : ℕ) :
    toLex (a.round, a.head) ≤ toLex ((a.nextRegion n).round, (a.nextRegion n).offset) := by
  rw [StagingAllocator.nextRegion, Prod.Lex.toLex_le_toLex]
  split <;> simp

theorem Inv.assign (I : s.Inv) {n : ℕ} {A : Region} {a : StagingAllocator}
    (h : s.allocator.assign n = some (A, a)) :
    Inv { s with regions := s.regions ++ [A], allocator := a } := by
  rw [StagingAllocator.assign] at h
  split at h
  · cases h
  cases h
  have hhead := head_le_nextRegion s.allocator n
  generalize s.allocator.nextRegion n = A at hhead ⊢
  have hmono : toLex (s.allocator.round, s.allocator.head) ≤ toLex (A.round, A.stop) := by
    refine hhead.trans ?_
    rw [Prod.Lex.toLex_le_toLex]
    exact Or.inr ⟨rfl, Nat.le_add_right _ _⟩
  have hold : ∀ i, i < s.regions.length → (s.regions ++ [A])[i]? = s.regions[i]? := fun i hi =>
    List.getElem?_append_left hi
  constructor
  · simp [I.next_eq]
  · refine pairwise_append.mpr ⟨I.ordered, pairwise_singleton _ _, fun B hB C hC => ?_⟩
    obtain rfl := mem_singleton.mp hC
    exact (I.behind B hB).trans hhead
  · intro B hB
    rcases mem_append.mp hB with hB | hB
    · exact (I.behind B hB).trans hmono
    · rw [mem_singleton.mp hB]
  · refine pairwise_append.mpr ⟨I.order_sorted, pairwise_singleton _ _, fun i hi j hj => ?_⟩
    rw [mem_singleton.mp hj, I.next_eq]
    exact I.order_lt i hi
  · intro i hi
    have := I.order_lt i
    have := I.next_eq
    grind
  · intro i B hB
    rcases mem_append.mp hB with hB | hB
    · have hget := I.granted i B hB
      rw [hold i (List.getElem?_eq_some_iff.mp hget).1, hget]
    · obtain ⟨rfl, rfl⟩ : i = _ ∧ B = A := by simpa using hB
      simp [I.next_eq]
  · intro i hi
    have := I.listed i
    simp only [IsLive, map_append, mem_append] at this hi ⊢
    exact hi.imp this (by simp)
  · exact I.watermark_le.trans hmono
  · intro i B hB
    rcases mem_append.mp hB with hB | hB
    · exact I.oldest_le i B hB
    · obtain ⟨-, rfl⟩ : i = _ ∧ B = A := by simpa using hB
      exact I.watermark_le.trans hhead
  · exact I.sent_le
  · exact I.remote_le

theorem Inv.deliver (I : s.Inv) {n : ℕ} {msg : ℕ × ℕ} (h : s.sent[n]? = some msg) :
    Inv { s with remote := handleWatermarkMsg msg s.remote } := by
  refine { I with remote_le := ?_ }
  rw [handleWatermarkMsg]
  split
  · exact I.sent_le msg (mem_of_getElem? h)
  · exact I.remote_le

/-- Dropping freed ids from the front of the order loses no allocation that is still there. -/
theorem mem_dropWhile_of_isLive {allocations : List (ℕ × Region)} {order : List ℕ} {i : ℕ}
    (hi : IsLive allocations i) (hmem : i ∈ order) :
    i ∈ order.dropWhile (¬ IsLive allocations ·) := by
  rw [← takeWhile_append_dropWhile (p := (¬ IsLive allocations ·)) (l := order)] at hmem
  refine (mem_append.mp hmem).resolve_left fun h => ?_
  simpa [hi] using mem_takeWhile_imp h

theorem mem_of_lookup {allocations : List (ℕ × Region)} {i : ℕ} {A : Region}
    (h : allocations.lookup i = some A) : (i, A) ∈ allocations := by
  obtain ⟨l₁, l₂, rfl, -⟩ := lookup_eq_some_iff.mp h
  simp

/-- The watermark that a free computes lies between the old one and every allocation it keeps. -/
theorem Inv.oldest (I : s.Inv) {allocations : List (ℕ × Region)} {order : List ℕ}
    (hsub : allocations ⊆ s.allocator.allocations) (hsuf : order.Sublist s.allocator.allocOrder)
    (hlisted : ∀ i, IsLive allocations i → i ∈ order)
    {w : ℕ × ℕ} (hw : s.allocator.oldest allocations order = w) :
    toLex s.allocator.getWatermark ≤ toLex w ∧
      toLex w ≤ toLex (s.allocator.round, s.allocator.head) ∧
      ∀ i A, (i, A) ∈ allocations → toLex w ≤ toLex (A.round, A.offset) := by
  rw [StagingAllocator.oldest] at hw
  split at hw
  next hnil =>
    subst hw hnil
    exact ⟨I.watermark_le, le_rfl, by simp⟩
  split at hw
  next A hA =>
    subst hw
    obtain ⟨i, hhead, hlookup⟩ := Option.bind_eq_some_iff.mp hA
    have hi := hsub (mem_of_lookup hlookup)
    have hget := I.granted i A hi
    obtain ⟨rest, rfl⟩ := List.head?_eq_some_iff.mp hhead
    refine ⟨I.oldest_le i A hi, ?_, fun j B hB => ?_⟩
    · refine le_trans ?_ (I.behind A (mem_of_getElem? hget))
      rw [Prod.Lex.toLex_le_toLex]
      exact Or.inr ⟨rfl, Nat.le_add_right _ _⟩
    · have hgetB := I.granted j B (hsub hB)
      rcases mem_cons.mp (hlisted j (mem_map_of_mem hB)) with rfl | hj
      · rw [Option.some.inj (hget.symm.trans hgetB)]
      · have hlt := (pairwise_cons.mp (I.order_sorted.sublist hsuf)).1 j hj
        exact (precedes_of_lt I hget hgetB hlt).start_le
  next =>
    subst hw
    exact ⟨le_rfl, I.watermark_le, fun i A h => I.oldest_le i A (hsub h)⟩

theorem Inv.free (I : s.Inv) (allocId : ℕ) :
    Inv { s with allocator := s.allocator.free allocId } := by
  rw [StagingAllocator.free]
  split
  case isFalse => exact I
  extract_lets allocations allocOrder
  have hsub : allocations ⊆ s.allocator.allocations := filter_sublist.subset
  have hsuf : allocOrder.Sublist s.allocator.allocOrder := dropWhile_sublist _
  have hlisted : ∀ i, IsLive allocations i → i ∈ allocOrder := fun i hi =>
    mem_dropWhile_of_isLive hi (I.listed i (map_subset _ hsub hi))
  obtain ⟨hle, hhead, hkeep⟩ := I.oldest hsub hsuf hlisted rfl
  exact
    { next_eq := I.next_eq
      ordered := I.ordered
      behind := I.behind
      order_sorted := I.order_sorted.sublist hsuf
      order_lt := fun i hi => I.order_lt i (hsuf.subset hi)
      granted := fun i A h => I.granted i A (hsub h)
      listed := hlisted
      watermark_le := hhead
      oldest_le := hkeep
      sent_le := fun msg h => (I.sent_le msg h).trans hle
      remote_le := I.remote_le.trans hle }

theorem Inv.sendWatermark (I : s.Inv) :
    Inv { s with sent := s.sent ++ [s.allocator.getWatermark] } := by
  refine { I with sent_le := fun msg h => ?_ }
  rcases mem_append.mp h with h | h
  · exact I.sent_le msg h
  · rw [mem_singleton.mp h]

theorem Inv.run {s' : Ring} (I : s.Inv) (op : RingOp) (h : s.run op = some s') : s'.Inv := by
  cases op with
  | assign n =>
    obtain ⟨⟨A, a⟩, hassign, rfl⟩ := Option.map_eq_some_iff.mp h
    exact I.assign hassign
  | free allocId =>
    cases h
    exact I.free allocId
  | sendWatermark =>
    cases h
    exact I.sendWatermark
  | deliver n =>
    obtain ⟨msg, hmsg, rfl⟩ := Option.map_eq_some_iff.mp h
    exact I.deliver hmsg

theorem Reaches.inv (h : s.Reaches) : s.Inv := by
  refine Reachable.invariant ?_ (fun op I _ h => Inv.run I op h) h
  rintro _ ⟨totalSize, rfl⟩
  constructor <;> simp [IsLive, StagingAllocator.getWatermark]

/-- A writer that sees the watermark past its region, one round back, meets no older allocation. -/
theorem Inv.apart (I : s.Inv) {i j : ℕ} {A B : Region} (hA : s.regions[i]? = some A)
    (hB : s.regions[j]? = some B) (hij : i < j)
    (hlive : IsLive s.allocator.allocations i)
    (hready : isWatermarkReady s.remote B.round B.stop = true) : ¬A.Overlaps B := by
  rintro ⟨x, hxA, hxB⟩
  have hprec := precedes_of_lt I hA hB hij
  obtain ⟨⟨i, C⟩, hmem, rfl⟩ := mem_map.mp hlive
  have hC := I.granted i C hmem
  obtain rfl : A = C := Option.some.inj (hA.symm.trans hC)
  have hwm := I.remote_le.trans (I.oldest_le _ A hmem)
  rw [Region.Precedes, Prod.Lex.toLex_le_toLex] at hprec
  rw [← Prod.mk.eta (p := s.remote), Prod.Lex.toLex_le_toLex] at hwm
  simp only [isWatermarkReady] at hready
  grind

theorem watermark_sound (h : s.Reaches) : s.Sound := ⟨fun _ _ _ _ => h.inv.apart, h.inv.remote_le⟩

/-- The second region laps the first, and may be written once the first one's free arrives. -/
theorem watermark_sound_lapped : ∃ s : Ring, s.Reaches ∧ s.remote = (1, 0) ∧
    isWatermarkReady s.remote 1 2 = true ∧ s.Sound := by
  obtain ⟨s, hs, hremote⟩ : ∃ s : Ring, s.Reaches ∧ s.remote = (1, 0) :=
    ⟨_, Reachable.of_runAll [.assign 2, .assign 2, .free 0, .sendWatermark, .deliver 0]
      (fun _ _ _ => trivial) (.start ⟨3, rfl⟩) rfl, rfl⟩
  exact ⟨s, hs, hremote, by rw [hremote]; decide, watermark_sound hs⟩

/-! ## No stuck region -/

/-- A request that meets an empty ring fits behind the head, or before it. -/
def Roomy (s : Ring) : RingOp → Prop
  | .assign n => s.allocator.allocations = [] →
    n ≤ s.allocator.totalSize - s.allocator.head ∨ n ≤ s.allocator.head
  | _ => True

variable (s) in
/-- A region whose predecessors are all freed may be written by a writer that knows the current
watermark, and the message of the last free makes it known. -/
structure Progress : Prop where
  ready : ∀ j B, s.regions[j]? = some B → (∀ i < j, ¬IsLive s.allocator.allocations i) →
    s.remote = s.allocator.getWatermark → isWatermarkReady s.remote B.round B.stop = true
  known : ∀ msg ∈ s.sent, msg = s.allocator.getWatermark → handleWatermarkMsg msg s.remote = msg

variable (s) in
structure Covered : Prop where
  inv : s.Inv
  empty : s.allocator.allocations = [] →
    s.allocator.getWatermark = (s.allocator.round, s.allocator.head)
  ready : ∀ j B, s.regions[j]? = some B → (∀ i < j, ¬IsLive s.allocator.allocations i) →
    isWatermarkReady s.allocator.getWatermark B.round B.stop = true

theorem isWatermarkReady_of_le {w : ℕ × ℕ} {round stop : ℕ} (h : round ≤ w.1) :
    isWatermarkReady w round stop = true := by
  rw [isWatermarkReady]
  split
  · rfl
  · exact decide_eq_true (Or.inl (by omega))

theorem round_le_of_toLex_le {r x r' x' : ℕ} (h : toLex (r, x) ≤ toLex (r', x')) : r ≤ r' := by
  rw [Prod.Lex.toLex_le_toLex] at h
  exact h.elim le_of_lt fun h => h.1.le

theorem Covered.assign (K : s.Covered) {n : ℕ} {A : Region} {a : StagingAllocator}
    (h : s.allocator.assign n = some (A, a)) (hroom : Roomy s (.assign n)) :
    Covered { s with regions := s.regions ++ [A], allocator := a } := by
  have I := K.inv.assign h
  rw [StagingAllocator.assign] at h
  split at h
  · cases h
  cases h
  refine ⟨I, by simp, fun j B hB hfreed => ?_⟩
  have hfreed : ∀ i < j, ¬IsLive s.allocator.allocations i := fun i hi hlive =>
    hfreed i hi (map_subset _ (subset_append_left _ _) hlive)
  rcases Nat.lt_or_ge j s.regions.length with hj | hj
  · rw [List.getElem?_append_left hj] at hB
    exact K.ready j B hB hfreed
  · -- All that was assigned before is freed, so the request met an empty ring.
    have hnil : s.allocator.allocations = [] := by
      refine eq_nil_iff_forall_not_mem.mpr fun ⟨i, C⟩ hC => ?_
      have hi := (List.getElem?_eq_some_iff.mp (K.inv.granted i C hC)).1
      exact hfreed i (hi.trans_le hj) (mem_map_of_mem hC)
    obtain rfl : s.allocator.nextRegion n = B := by grind
    change isWatermarkReady s.allocator.getWatermark _ _ = true
    rw [K.empty hnil, StagingAllocator.nextRegion]
    split
    next => exact isWatermarkReady_of_le le_rfl
    next hend =>
      have hn := (hroom hnil).resolve_left hend
      simpa [isWatermarkReady, Region.stop] using hn

/-- The watermark of a free has left the round of every region before the oldest that is left. -/
theorem Inv.round_le_oldest (I : s.Inv) {allocations : List (ℕ × Region)}
    (hsub : allocations ⊆ s.allocator.allocations) {j : ℕ} {B : Region}
    (hB : s.regions[j]? = some B) (hfreed : ∀ i < j, ¬IsLive allocations i) :
    B.round ≤ (s.allocator.oldest allocations
      (s.allocator.allocOrder.dropWhile (¬ IsLive allocations ·))).1 := by
  rw [StagingAllocator.oldest]
  split
  next => exact round_le_of_toLex_le (I.behind B (mem_of_getElem? hB))
  next hne =>
    obtain ⟨⟨i, C⟩, hC⟩ := exists_mem_of_ne_nil _ hne
    have hi := I.listed i (mem_map_of_mem (hsub hC))
    have hi' : IsLive allocations i := mem_map_of_mem hC
    obtain ⟨k, hfirst⟩ := Option.isSome_iff_exists.mp
      (find?_isSome (p := (IsLive allocations ·)).mpr ⟨i, hi, decide_eq_true hi'⟩)
    have hk := find?_some hfirst
    rw [find?_eq_head?_dropWhile_not] at hfirst
    simp only [decide_not, hfirst, Option.bind_some]
    obtain ⟨⟨k, A⟩, hA, rfl⟩ := mem_map.mp (of_decide_eq_true hk)
    have hjk : j ≤ k := not_lt.mp fun h => hfreed k h (of_decide_eq_true hk)
    cases hlookup : allocations.lookup k with
    | none => simpa using lookup_eq_none_iff.mp hlookup _ hA
    | some A =>
      have hget := I.granted k A (hsub (mem_of_lookup hlookup))
      rcases hjk.lt_or_eq with hlt | rfl
      · exact round_le_of_toLex_le (precedes_of_lt I hB hget hlt)
      · rw [Option.some.inj (hB.symm.trans hget)]

theorem Covered.free (K : s.Covered) (allocId : ℕ) :
    Covered { s with allocator := s.allocator.free allocId } := by
  refine ⟨K.inv.free allocId, ?_, ?_⟩ <;> rw [StagingAllocator.free] <;> split
  · intro hnil
    exact if_pos hnil
  · exact K.empty
  · exact fun j B hB hfreed => isWatermarkReady_of_le
      (K.inv.round_le_oldest filter_sublist.subset hB hfreed)
  · exact K.ready

theorem Covered.run {s' : Ring} (K : s.Covered) (op : RingOp) (hroom : s.Roomy op)
    (h : s.run op = some s') : s'.Covered := by
  cases op with
  | assign n =>
    obtain ⟨⟨A, a⟩, hassign, rfl⟩ := Option.map_eq_some_iff.mp h
    exact K.assign hassign hroom
  | free allocId =>
    cases h
    exact K.free allocId
  | sendWatermark =>
    cases h
    exact { K with inv := K.inv.sendWatermark }
  | deliver n =>
    obtain ⟨msg, hmsg, rfl⟩ := Option.map_eq_some_iff.mp h
    exact { K with inv := K.inv.deliver hmsg }

abbrev ReachesRoomy : Ring → Prop :=
  Reachable (fun s => ∃ totalSize, s = { allocator := { totalSize } }) Roomy run

theorem progress_of_roomy (h : s.ReachesRoomy) : s.Progress := by
  have K : s.Covered := by
    refine Reachable.invariant ?_ (fun op K hroom h => Covered.run K op hroom h) h
    rintro _ ⟨totalSize, rfl⟩
    exact ⟨Reaches.inv (.start ⟨totalSize, rfl⟩), fun _ => rfl, by simp⟩
  refine ⟨fun j B hB hfreed hknown => ?_, fun msg _ hmsg => ?_⟩
  · rw [hknown]
    exact K.ready j B hB hfreed
  · rw [handleWatermarkMsg]
    split
    next => rfl
    next hlt => exact toLex.injective (le_antisymm (hmsg ▸ K.inv.remote_le) (not_lt.mp hlt))

/-- The second region wraps to where the first one was. -/
theorem progress_of_roomy_wrapped : ∃ s : Ring, s.ReachesRoomy ∧ s.allocator.round = 1 ∧
    s.Progress := by
  obtain ⟨s, hs, hround⟩ : ∃ s : Ring, s.ReachesRoomy ∧ s.allocator.round = 1 :=
    ⟨_, Reachable.of_permitted [.assign 6, .free 0, .sendWatermark, .deliver 0, .assign 5]
      (by refine ⟨fun _ => .inl ?_, trivial, trivial, trivial, fun _ => .inr ?_,
        trivial⟩ <;> decide)
      (.start ⟨10, rfl⟩) rfl, rfl⟩
  exact ⟨s, hs, hround, progress_of_roomy hs⟩

/-- The ring is empty, but a request longer than what lies behind the head and before it waits
for a watermark that only its own free would send. -/
theorem not_progress_long : ∃ s : Ring, s.Reaches ∧ ¬ s.Progress := by
  refine ⟨_, Reachable.of_runAll [.assign 4, .free 0, .sendWatermark, .deliver 0, .assign 7]
    (fun _ _ _ => trivial) (.start ⟨10, rfl⟩) rfl, fun h => ?_⟩
  have hready := h.ready 1 ⟨0, 7, 1⟩ rfl (by decide) rfl
  revert hready
  decide

/-- The head and the ends of all regions lie in the buffer. -/
def Inside (s : Ring) : Prop :=
  s.allocator.head ≤ s.allocator.totalSize ∧ ∀ A ∈ s.regions, A.stop ≤ s.allocator.totalSize

theorem Inside.run {s' : Ring} (h : s.Inside) (op : RingOp) (hrun : s.run op = some s') :
    s'.Inside := by
  cases op with
  | assign n =>
    obtain ⟨⟨A, a⟩, hassign, rfl⟩ := Option.map_eq_some_iff.mp hrun
    grind [Inside, StagingAllocator.assign, StagingAllocator.nextRegion, Region.stop]
  | free allocId => grind [Inside, Ring.run, StagingAllocator.free, StagingAllocator.setWatermark]
  | sendWatermark => grind [Inside, Ring.run]
  | deliver n =>
    obtain ⟨msg, -, rfl⟩ := Option.map_eq_some_iff.mp hrun
    exact h

/-- Every region lies in the buffer, and no two regions of one round overlap, freed or not. -/
theorem regions_apart (h : s.Reaches) : (∀ A ∈ s.regions, A.stop ≤ s.allocator.totalSize) ∧
    ∀ (i j : ℕ) (A B : Region), s.regions[i]? = some A → s.regions[j]? = some B → i < j →
      A.round = B.round → ¬A.Overlaps B := by
  constructor
  · have hinside : s.Inside := by
      refine Reachable.invariant ?_ (fun op hs _ hrun => hs.run op hrun) h
      rintro _ ⟨totalSize, rfl⟩
      simp [Inside]
    exact hinside.2
  · rintro i j A B hA hB hlt hround ⟨x, hxA, hxB⟩
    have hprec := precedes_of_lt h.inv hA hB hlt
    rw [Region.Precedes, Prod.Lex.toLex_le_toLex] at hprec
    grind

/-- The second region wraps, and the third one lies behind it in the same round. -/
theorem regions_apart_wrapped : ∃ s : Ring, s.Reaches ∧ (∀ A ∈ s.regions, A.stop ≤ 10) ∧
    s.regions = [⟨0, 6, 0⟩, ⟨0, 5, 1⟩, ⟨5, 3, 1⟩] ∧ ¬Region.Overlaps ⟨0, 5, 1⟩ ⟨5, 3, 1⟩ :=
  have h := Reachable.of_runAll [.assign 6, .free 0, .assign 5, .assign 3] (fun _ _ _ => trivial)
    (.start ⟨10, rfl⟩) rfl
  ⟨_, h, (regions_apart h).1, rfl,
    (regions_apart h).2 1 2 ⟨0, 5, 1⟩ ⟨5, 3, 1⟩ rfl rfl Nat.one_lt_two rfl⟩

end Ring

end Sglang.Disaggregation
