import LttngParallelAnalyses.Common.Loops
import LttngParallelAnalyses.Lib.Cuts

/-! Every timestamp belongs to exactly one worker. Both modes build the workers of a trace
set from nondecreasing cuts below 2^64-1, and the interval of a worker, closed at both ends
after the 1 is added, is the span between two cuts. -/

namespace LttngParallelAnalyses
open Lib CountedLoop

/-- The worker at an index processes the events at a timestamp. -/
def Holds (workers : List TraceWorker) (i : Nat) (t : Timestamp) : Prop :=
  ∃ worker ∈ workers[i]?, Within worker.beginPos worker.endPos t

/-- Every timestamp has exactly one worker, and a later one has no earlier worker. -/
structure Partition (workers : List TraceWorker) : Prop where
  unique : ∀ t, ∃! i, Holds workers i t
  monotone : ∀ t t', t ≤ t' → ∀ i i', Holds workers i t → Holds workers i' t' → i ≤ i'

/-- Cuts as both modes compute them. -/
structure Cutting (cuts : List Timestamp) : Prop where
  ordered : cuts.Pairwise (· ≤ ·)
  below : ∀ cut ∈ cuts, cut < maxTimestamp

theorem cutting_nil : Cutting [] where
  ordered := List.Pairwise.nil
  below := by simp

theorem le_maxTimestamp (t : Timestamp) : t ≤ maxTimestamp := Nat.le_of_lt_succ t.toNat_lt

theorem add_one_le_iff {a t : Timestamp} (below : a < maxTimestamp) : a + 1 ≤ t ↔ a < t := by
  unfold maxTimestamp at below
  grind

theorem within_iff (span : Cuts.Span Timestamp) (below : ∀ a ∈ span.lo, a < maxTimestamp)
    (t : Timestamp) : Within (span.lo.map (· + 1)) span.hi t ↔ span.Contains t := by
  unfold Within Cuts.Span.Contains
  cases lo : span.lo with
  | none => simp
  | some a =>
    have small : a < maxTimestamp := below a lo
    simp [add_one_le_iff small]

/-! ## Workers and spans -/

/-- The workers of a stream are the spans between its cuts. -/
theorem streamWorkers_eq (trace : TraceSet) (cuts : List Timestamp) :
    streamWorkers trace cuts =
      (Cuts.spans none cuts).mapIdx (fun i span => TraceWorker.new i trace span.lo span.hi) := by
  apply List.ext_getElem
  · simp [streamWorkers]
  · intro i inside _
    have le : i ≤ cuts.length := by
      have bound := inside
      simp only [streamWorkers, List.length_map, List.length_range] at bound
      omega
    simp only [streamWorkers, List.getElem_map, List.getElem_range, List.getElem_mapIdx,
      Cuts.getElem_spans]
    congr 1
    · by_cases first : i = 0
      · simp [first]
      · rw [if_neg first, if_neg first, List.getD_eq_getElem?_getD,
          List.getElem?_eq_getElem (by omega)]
        rfl
    · by_cases last : i = cuts.length
      · simp [last]
      · rw [if_neg last, List.getD_eq_getElem?_getD, List.getElem?_eq_getElem (by omega)]
        rfl

theorem spans_below {cuts : List Timestamp} (cutting : Cutting cuts)
    {span : Cuts.Span Timestamp} (member : span ∈ Cuts.spans none cuts) :
    ∀ a ∈ span.lo, a < maxTimestamp := by
  intro a own
  rcases Cuts.mem_of_mem_spans member own with start | cut
  · cases start
  · exact cutting.below a cut

theorem events_new (i : Nat) (trace : TraceSet) (span : Cuts.Span Timestamp)
    (below : ∀ a ∈ span.lo, a < maxTimestamp) :
    (TraceWorker.new i trace span.lo span.hi).events =
      Cuts.part (·.timestamp) trace.events span := by
  calc (TraceWorker.new i trace span.lo span.hi).events
      = trace.events.filter
          (fun event => Within (span.lo.map (· + 1)) span.hi event.timestamp) :=
        trace.between_eq _ _
    _ = Cuts.part (·.timestamp) trace.events span := by
        apply List.filter_congr
        intro event _
        rw [decide_eq_decide]
        exact within_iff span below event.timestamp

/-- The workers of a stream process its events once each, in order. -/
theorem flatMap_events (trace : TraceSet) {cuts : List Timestamp} (cutting : Cutting cuts) :
    (streamWorkers trace cuts).flatMap TraceWorker.events = trace.events := by
  have parts : (streamWorkers trace cuts).map TraceWorker.events =
      (Cuts.spans none cuts).map (Cuts.part (·.timestamp) trace.events) := by
    rw [streamWorkers_eq]
    apply List.ext_getElem
    · simp
    · intro i inside _
      have member : i < (Cuts.spans none cuts).length := by simpa using inside
      rw [List.getElem_map, List.getElem_map, List.getElem_mapIdx]
      exact events_new i trace _ (spans_below cutting (List.getElem_mem member))
  rw [List.flatMap_def, parts, ← List.flatMap_def]
  exact Cuts.flatMap_parts_all (·.timestamp) trace.events cuts trace.sorted cutting.ordered

theorem holds_streamWorkers (trace : TraceSet) {cuts : List Timestamp} (cutting : Cutting cuts)
    (i : Nat) (t : Timestamp) :
    Holds (streamWorkers trace cuts) i t ↔
      ∃ h : i < (Cuts.spans none cuts).length, (Cuts.spans none cuts)[i].Contains t := by
  unfold Holds
  rw [streamWorkers_eq, List.getElem?_mapIdx]
  by_cases inside : i < (Cuts.spans none cuts).length
  · have below := spans_below cutting (List.getElem_mem inside)
    rw [List.getElem?_eq_getElem inside, Option.map_some]
    constructor
    · intro held
      obtain ⟨worker, own, within⟩ := held
      obtain rfl := Option.some.inj own
      exact ⟨inside, (within_iff _ below t).mp within⟩
    · intro spanned
      obtain ⟨_, contains⟩ := spanned
      exact ⟨_, rfl, (within_iff _ below t).mpr contains⟩
  · rw [List.getElem?_eq_none (not_lt.mp inside)]
    constructor
    · intro held
      obtain ⟨worker, own, _⟩ := held
      cases own
    · exact fun ⟨h, _⟩ => absurd h inside

theorem partition_streamWorkers (trace : TraceSet) {cuts : List Timestamp}
    (cutting : Cutting cuts) : Partition (streamWorkers trace cuts) where
  unique t := by
    simp only [holds_streamWorkers trace cutting]
    exact Cuts.existsUnique_contains cutting.ordered t
  monotone t t' le i i' holds holds' := by
    rw [holds_streamWorkers trace cutting] at holds holds'
    obtain ⟨h, inside⟩ := holds
    obtain ⟨h', inside'⟩ := holds'
    rw [Cuts.contains_iff none t (by simp) cutting.ordered] at inside
    rw [Cuts.contains_iff none t' (by simp) cutting.ordered] at inside'
    rw [inside, inside']
    exact Cuts.spanOf_mono cuts le

/-- The workers of a stream leave out no event, whatever the order of the cuts. -/
theorem exists_worker (trace : TraceSet) (cuts : List Timestamp) {event : EventValue}
    (member : event ∈ trace.events) :
    ∃ worker ∈ streamWorkers trace cuts, event ∈ worker.events := by
  have start : ∀ a ∈ (none : Option Timestamp), a < event.timestamp := by simp
  obtain ⟨span, inside, contains⟩ := Cuts.exists_contains cuts start
  have below : ∀ a ∈ span.lo, a < maxTimestamp := by
    intro a low
    exact (contains.1 a low).trans_le (le_maxTimestamp event.timestamp)
  obtain ⟨i, own, rfl⟩ := List.getElem_of_mem inside
  have worker : TraceWorker.new i trace (Cuts.spans none cuts)[i].lo
      (Cuts.spans none cuts)[i].hi ∈ streamWorkers trace cuts := by
    rw [streamWorkers_eq]
    exact List.mem_mapIdx.mpr ⟨i, own, rfl⟩
  refine ⟨_, worker, TraceWorker.mem_events.mpr ⟨member, ?_⟩⟩
  exact (within_iff _ below event.timestamp).mpr contains

/-- The worker at an index holds what lies behind the cut before it, up to the cut at it. -/
theorem holds_between (trace : TraceSet) (cuts : List Timestamp) {i : Nat} {t : Timestamp}
    (inside : i ≤ cuts.length) (after : ∀ j, i = j + 1 → ∀ cut ∈ cuts[j]?, cut + 1 ≤ t)
    (before : ∀ cut ∈ cuts[i]?, t ≤ cut) : Holds (streamWorkers trace cuts) i t := by
  have index : i < (Cuts.spans none cuts).length := by
    rw [Cuts.length_spans]
    omega
  unfold Holds
  rw [streamWorkers_eq, List.getElem?_mapIdx, List.getElem?_eq_getElem index]
  refine ⟨_, rfl, ?_⟩
  rw [Cuts.getElem_spans]
  refine ⟨?_, before⟩
  intro begin_ own
  obtain ⟨cut, found, rfl⟩ := Option.map_eq_some_iff.mp own
  cases i with
  | zero => cases found
  | succ j => exact after j rfl cut found

section Overlaps
variable (trace : TraceSet) {cuts : List Timestamp} (below : ∀ cut ∈ cuts, cut < maxTimestamp)
  {t : Timestamp}

include below

/-- Behind a cut the next worker holds what the next cut does not exclude. -/
theorem holds_behind {j : Nat} (inside : j < cuts.length) (lt : cuts[j] < t)
    (before : ∀ cut ∈ cuts[j + 1]?, t ≤ cut) : Holds (streamWorkers trace cuts) (j + 1) t := by
  apply holds_between trace cuts inside _ before
  intro k same cut own
  obtain rfl : j = k := Nat.succ.inj same
  rw [List.getElem?_eq_getElem inside, Option.mem_some_iff] at own
  rw [← own]
  exact (add_one_le_iff (below _ (List.getElem_mem inside))).mpr lt

theorem exists_holds_le {p : Nat} (inside : p < cuts.length) (le : t ≤ cuts[p]) :
    ∃ i ≤ p, Holds (streamWorkers trace cuts) i t := by
  have upper : ∀ {k : Nat} (h : k < cuts.length), t ≤ cuts[k] → ∀ cut ∈ cuts[k]?, t ≤ cut := by
    intro k h le cut own
    rw [List.getElem?_eq_getElem h, Option.mem_some_iff] at own
    exact own ▸ le
  induction p with
  | zero =>
    exact ⟨0, le_rfl, holds_between trace cuts (Nat.zero_le _) (by simp) (upper inside le)⟩
  | succ p ih =>
    by_cases earlier : t ≤ cuts[p]
    · obtain ⟨i, early, holds⟩ := ih (Nat.lt_of_succ_lt inside) earlier
      exact ⟨i, early.trans (Nat.le_succ p), holds⟩
    · exact ⟨p + 1, le_rfl, holds_behind trace below _ (not_le.mp earlier) (upper inside le)⟩

theorem exists_holds_gt {q : Nat} (inside : q < cuts.length) (lt : cuts[q] < t) :
    ∃ i > q, Holds (streamWorkers trace cuts) i t := by
  induction left : cuts.length - q generalizing q with
  | zero => omega
  | succ left ih =>
    by_cases again : ∃ h : q + 1 < cuts.length, cuts[q + 1] < t
    · obtain ⟨next, later⟩ := again
      obtain ⟨i, late, holds⟩ := ih next later (by omega)
      exact ⟨i, Nat.lt_of_succ_lt late, holds⟩
    · refine ⟨q + 1, Nat.lt_succ_self q, holds_behind trace below inside lt ?_⟩
      intro cut own
      obtain ⟨next, rfl⟩ := List.getElem?_eq_some_iff.mp own
      exact not_lt.mp (fun later => again ⟨next, later⟩)

end Overlaps

/-- Cuts that go back, or that lie at 2^64-1, where the begin after them wraps to 0, give some
timestamp two workers. -/
theorem cutting_of_unique {cuts : List Timestamp}
    (unique : ∀ t, ∃ trace, ∀ i j, Holds (streamWorkers trace cuts) i t →
      Holds (streamWorkers trace cuts) j t → i = j) : Cutting cuts := by
  have below : ∀ cut ∈ cuts, cut < maxTimestamp := by
    intro cut member
    by_contra late
    obtain ⟨k, inside, rfl⟩ := List.getElem_of_mem member
    have last : cuts[k] = maxTimestamp := le_antisymm (le_maxTimestamp _) (not_lt.mp late)
    obtain ⟨trace, same⟩ := unique 0
    have first := holds_between trace cuts (t := 0) (Nat.zero_le _) (by simp)
      (fun _ _ => Nat.zero_le _)
    have again : Holds (streamWorkers trace cuts) (k + 1) 0 := by
      refine holds_between trace cuts inside ?_ (fun _ _ => Nat.zero_le _)
      intro j same cut own
      obtain rfl : k = j := Nat.succ.inj same
      rw [List.getElem?_eq_getElem inside, Option.mem_some_iff] at own
      rw [← own, last]
      exact le_refl (0 : Timestamp)
    exact absurd (same 0 (k + 1) first again) (Nat.succ_ne_zero k).symm
  refine ⟨?_, below⟩
  rw [List.pairwise_iff_getElem]
  intro p q hp hq order
  by_contra back
  obtain ⟨trace, same⟩ := unique cuts[p]
  obtain ⟨i, early, first⟩ := exists_holds_le trace below hp (le_refl cuts[p])
  obtain ⟨j, late, second⟩ := exists_holds_gt trace below hq (not_le.mp back)
  have once := same i j first second
  omega

/-! ## Unbalanced mode -/

section Unbalanced
variable {begin_ end_ : Timestamp} {threads : Nat}

/-- The positions, computed without wrapping around. -/
theorem position_toNat (le : begin_ ≤ end_) (fits : threads < 2 ^ 64) {i : Nat} (inside : i < threads) :
    ((unbalancedPositions begin_ end_ threads).getD i 0).toNat =
      begin_.toNat + i * ((end_.toNat - begin_.toNat) / threads) := by
  have room : i * ((end_.toNat - begin_.toNat) / threads) ≤ end_.toNat - begin_.toNat :=
    (Nat.mul_le_mul_right _ inside.le).trans (Nat.mul_div_le _ _)
  have upper := end_.toNat_lt
  have ordered : begin_.toNat ≤ end_.toNat := le
  have index : (UInt64.ofNat i).toNat = i := UInt64.toNat_ofNat_of_lt' (inside.trans fits)
  have count : (UInt64.ofNat threads).toNat = threads := UInt64.toNat_ofNat_of_lt' fits
  have step : ((end_ - begin_) / UInt64.ofNat threads).toNat =
      (end_.toNat - begin_.toNat) / threads := by
    rw [UInt64.toNat_div, UInt64.toNat_sub_of_le _ _ le, count]
  simp only [unbalancedPositions, List.getD_eq_getElem?_getD, List.getElem?_map,
    List.getElem?_range inside, Option.map_some, Option.getD_some, UInt64.toNat_add,
    UInt64.toNat_mul, index, step]
  rw [Nat.mod_eq_of_lt (b := 2 ^ 64) (by omega), Nat.mod_eq_of_lt (by omega)]

theorem length_unbalancedPositions :
    (unbalancedPositions begin_ end_ threads).length = threads := by
  simp [unbalancedPositions]

private theorem getElem_toNat (le : begin_ ≤ end_) (fits : threads < 2 ^ 64) {i : Nat}
    (h : i < (unbalancedPositions begin_ end_ threads).length) :
    ((unbalancedPositions begin_ end_ threads)[i]).toNat =
      begin_.toNat + i * ((end_.toNat - begin_.toNat) / threads) := by
  have inside : i < threads := by simpa only [length_unbalancedPositions] using h
  rw [← position_toNat le fits inside, List.getD_eq_getElem?_getD,
    List.getElem?_eq_getElem h, Option.getD_some]

theorem unbalancedPositions_le (le : begin_ ≤ end_) (fits : threads < 2 ^ 64) :
    ∀ cut ∈ unbalancedPositions begin_ end_ threads, cut ≤ end_ := by
  intro cut member
  obtain ⟨i, hi, rfl⟩ := List.getElem_of_mem member
  have inside : i < threads := by simpa only [length_unbalancedPositions] using hi
  have room : i * ((end_.toNat - begin_.toNat) / threads) ≤ end_.toNat - begin_.toNat :=
    (Nat.mul_le_mul_right _ inside.le).trans (Nat.mul_div_le _ threads)
  have ordered : begin_.toNat ≤ end_.toNat := le
  change UInt64.toNat _ ≤ UInt64.toNat _
  rw [getElem_toNat le fits hi]
  omega

theorem unbalancedPositions_ge (le : begin_ ≤ end_) (fits : threads < 2 ^ 64) :
    ∀ cut ∈ unbalancedPositions begin_ end_ threads, begin_ ≤ cut := by
  intro cut member
  obtain ⟨i, hi, rfl⟩ := List.getElem_of_mem member
  change UInt64.toNat _ ≤ UInt64.toNat _
  rw [getElem_toNat le fits hi]
  exact Nat.le_add_right _ _

/-- The cuts of the unbalanced mode lie within the trace. -/
theorem unbalanced_within (le : begin_ ≤ end_) (fits : threads < 2 ^ 64) :
    ∀ cut ∈ (unbalancedPositions begin_ end_ threads).tail, begin_ ≤ cut ∧ cut ≤ end_ := by
  intro cut member
  have position := List.mem_of_mem_tail member
  exact ⟨unbalancedPositions_ge le fits cut position, unbalancedPositions_le le fits cut position⟩

/-- The positions are the begin itself or lie before the end. -/
theorem unbalancedPositions_below (le : begin_ ≤ end_) (fits : threads < 2 ^ 64)
    (below : begin_ < maxTimestamp) :
    ∀ cut ∈ unbalancedPositions begin_ end_ threads, cut < maxTimestamp := by
  intro cut member
  obtain ⟨i, hi, rfl⟩ := List.getElem_of_mem member
  have inside : i < threads := by simpa only [length_unbalancedPositions] using hi
  have ordered : begin_.toNat ≤ end_.toNat := le
  have start : begin_.toNat < 2 ^ 64 - 1 := below
  have upper := end_.toNat_lt
  have whole := Nat.mul_div_le (end_.toNat - begin_.toNat) threads
  change UInt64.toNat _ < 2 ^ 64 - 1
  rw [getElem_toNat le fits hi]
  rcases Nat.eq_zero_or_pos ((end_.toNat - begin_.toNat) / threads) with still | moving
  · rw [still, Nat.mul_zero]
    exact start
  · have room := Nat.mul_lt_mul_of_pos_right inside moving
    omega

theorem unbalancedPositions_ordered (le : begin_ ≤ end_) (fits : threads < 2 ^ 64) :
    (unbalancedPositions begin_ end_ threads).Pairwise (· ≤ ·) := by
  rw [List.pairwise_iff_getElem]
  intro i j hi hj before
  have scaled : i * ((end_.toNat - begin_.toNat) / threads) ≤
      j * ((end_.toNat - begin_.toNat) / threads) := Nat.mul_le_mul_right _ before.le
  change UInt64.toNat _ ≤ UInt64.toNat _
  rw [getElem_toNat le fits hi, getElem_toNat le fits hj]
  omega

/-- The first position is no cut: the first worker has no begin. -/
theorem unbalancedWorkers_eq (set : TraceSet) (some_thread : 0 < threads) :
    unbalancedWorkers set threads =
      streamWorkers set (unbalancedPositions set.getBegin set.getEnd threads).tail := by
  have workers : (unbalancedPositions set.getBegin set.getEnd threads).tail.length + 1 =
      threads := by
    rw [List.length_tail, length_unbalancedPositions]
    omega
  rw [unbalancedWorkers, streamWorkers, workers]
  apply List.map_congr_left
  intro i inside
  rw [List.mem_range] at inside
  have last : threads - 1 = (unbalancedPositions set.getBegin set.getEnd threads).tail.length := by
    omega
  simp only [last, List.getD_eq_getElem?_getD, List.getElem?_tail]
  by_cases first : i = 0
  · simp only [first, if_true]
  · rw [Nat.sub_add_cancel (by omega)]

theorem unbalanced_cutting (le : begin_ ≤ end_) (below : begin_ < maxTimestamp)
    (fits : threads < 2 ^ 64) :
    Cutting (unbalancedPositions begin_ end_ threads).tail where
  ordered := (unbalancedPositions_ordered le fits).tail
  below cut member := unbalancedPositions_below le fits below cut (List.mem_of_mem_tail member)

end Unbalanced

/-! ## Balanced mode -/

theorem packetLoop_sublist (maxPacketSize acc : UInt64) (indices : List PacketHeader) :
    (packetLoop maxPacketSize acc indices).Sublist
      (indices.map (fun header => header.tsReal.timestampEnd)) := by
  induction indices generalizing acc with
  | nil => exact List.Sublist.refl _
  | cons header rest ih =>
    rw [packetLoop, List.map_cons]
    by_cases full : acc + header.contentSize ≥ maxPacketSize
    · rw [if_pos full]
      exact (ih 0).cons_cons _
    · rw [if_neg full]
      exact (ih _).cons _

/-- Every cut is the end of some packet, in packet order. -/
theorem balancedPositions_sublist {indices : List PacketHeader} {positions : List Timestamp}
    (computed : balancedPositions indices = some positions) :
    positions.Sublist (indices.map (fun header => header.tsReal.timestampEnd)) := by
  unfold balancedPositions at computed
  by_cases empty : indices.length = 0
  · simp [empty] at computed
  · simp only [empty, if_false, Option.some.injEq] at computed
    rw [← computed]
    exact (packetLoop_sublist _ 0 _).trans ((List.dropLast_sublist indices).map _)

theorem balancedPositions_isSome {indices : List PacketHeader} (nonempty : indices ≠ []) :
    ∃ positions, balancedPositions indices = some positions := by
  have some_packet : ¬ indices.length = 0 := by simpa using nonempty
  unfold balancedPositions
  simp only [some_packet, if_false]
  exact ⟨_, rfl⟩

/-- The packets of an index file in time order, as a tracer writes them. -/
structure StreamFile.WellFormed (file : StreamFile) : Prop where
  ordered : file.indices.Pairwise (fun a b => a.tsReal.timestampEnd ≤ b.tsReal.timestampEnd)
  below : ∀ header ∈ file.indices, header.tsReal.timestampEnd < maxTimestamp

theorem balanced_cutting {file : StreamFile} {positions : List Timestamp}
    (wellFormed : file.WellFormed) (computed : balancedPositions file.indices = some positions) :
    Cutting positions where
  ordered :=
    (List.pairwise_map.mpr wellFormed.ordered).sublist (balancedPositions_sublist computed)
  below cut member := by
    obtain ⟨header, inside, rfl⟩ :=
      List.mem_map.mp ((balancedPositions_sublist computed).subset member)
    exact wellFormed.below header inside

theorem StreamFile.WellFormed.cutting {file : StreamFile} (wellFormed : file.WellFormed) :
    Cutting file.cuts := by
  unfold StreamFile.cuts
  cases computed : balancedPositions file.indices with
  | none => exact cutting_nil
  | some positions => exact balanced_cutting wellFormed computed

/-- Every cut of a file is the end of one of its packets. -/
theorem StreamFile.mem_cuts {file : StreamFile} {cut : Timestamp} (member : cut ∈ file.cuts) :
    ∃ header ∈ file.indices, header.tsReal.timestampEnd = cut := by
  unfold StreamFile.cuts at member
  cases computed : balancedPositions file.indices with
  | none =>
    rw [computed] at member
    cases member
  | some positions =>
    rw [computed] at member
    exact List.mem_map.mp ((balancedPositions_sublist computed).subset member)

/-- Computing for all items is computing for each. -/
theorem mapM_eq_some_iff {α β : Type} {f : α → Option β} {items : List α} {results : List β} :
    items.mapM f = some results ↔ List.Forall₂ (fun a b => f a = some b) items results := by
  induction items generalizing results with
  | nil => simp [eq_comm]
  | cons a rest ih =>
    rw [List.mapM_cons, List.forall₂_cons_left_iff]
    simp only [← ih]
    constructor
    · intro computed
      obtain ⟨first, here, later⟩ := Option.bind_eq_some_iff.mp computed
      obtain ⟨others, there, joined⟩ := Option.bind_eq_some_iff.mp later
      exact ⟨first, others, here, there, (Option.some.inj joined).symm⟩
    · intro found
      obtain ⟨first, others, here, there, rfl⟩ := found
      rw [here, there]
      rfl

/-- The workers of all files are those of each file between its cuts, file after file. -/
theorem balancedWorkers_eq_some {files : List StreamFile} {workers : List TraceWorker}
    (computed : balancedWorkers files = some workers) :
    workers = files.flatMap (fun file => streamWorkers file.trace file.cuts) := by
  obtain ⟨chunked, each, rfl⟩ := Option.map_eq_some_iff.mp computed
  rw [mapM_eq_some_iff] at each
  clear computed
  induction each with
  | nil => rfl
  | cons here _ ih =>
    obtain ⟨positions, found, rfl⟩ := Option.map_eq_some_iff.mp here
    rw [List.flatten_cons, List.flatMap_cons, ← ih, StreamFile.cuts, found]
    rfl

/-- Every timestamp has exactly one worker: in unbalanced mode for any thread count, the
positions being exact, and in balanced mode within each stream, for the workers that the loops give
where they end. -/
theorem every_timestamp_has_one_worker (set : TraceSet) (threads : Nat) (file : StreamFile) :
    (set.getBegin ≤ set.getEnd → set.getEnd < maxTimestamp → 1 ≤ threads → threads < 2 ^ 64 →
      (∀ i < threads,
        ((unbalancedPositions set.getBegin set.getEnd threads).getD i 0).toNat =
          set.getBegin.toNat + i * ((set.getEnd.toNat - set.getBegin.toNat) / threads)) ∧
      Partition (unbalancedWorkers set threads)) ∧
    (file.indices ≠ [] → file.WellFormed →
      ∃ workers, fileWorkers file = some workers ∧ Partition workers ∧
        ∀ given, Gives (countedWorkers file) given ↔ LoopsEnd file.indices ∧ given = workers) := by
  constructor
  · intro le below some_thread fits
    refine ⟨fun i inside => position_toNat le fits inside, ?_⟩
    rw [unbalancedWorkers_eq set some_thread]
    exact partition_streamWorkers set (unbalanced_cutting le (le.trans_lt below) fits)
  · intro nonempty wellFormed
    obtain ⟨positions, computed⟩ := balancedPositions_isSome nonempty
    have workers : fileWorkers file = some (streamWorkers file.trace positions) := by
      rw [fileWorkers, computed]
      rfl
    refine ⟨_, workers,
      partition_streamWorkers file.trace (balanced_cutting wellFormed computed), ?_⟩
    intro given
    rw [gives_countedWorkers, workers, Option.some.injEq, eq_comm]

/-- More threads than nanoseconds, where the step is 0, and two packets that end at once. -/
theorem every_timestamp_has_one_worker_short :
    let set := TraceSet.ofEvents [] [] 10 20 .nil (by simp) (by simp)
    let header : PacketHeader := ⟨0, 0, 0, 0, 0, 0, ⟨0, 0⟩, ⟨10, 20⟩⟩
    Partition (unbalancedWorkers set 100) ∧
      ∃ workers, Gives (countedWorkers ⟨set, [header, header]⟩) workers ∧ Partition workers := by
  intro set header
  have modes := every_timestamp_has_one_worker set 100 ⟨set, [header, header]⟩
  obtain ⟨workers, _, partition, given⟩ := modes.2 (by simp) ⟨by decide, by decide⟩
  exact ⟨(modes.1 (by decide) (by decide) (by decide) (by decide)).2, workers,
    (given workers).mpr ⟨⟨by decide, by decide⟩, rfl⟩, partition⟩

end LttngParallelAnalyses
