import LttngParallelAnalyses.Common.Folder

/-! The count analysis. The counts of the workers add up to the number of events modulo 2^32,
in whatever order they are reduced, so the printed `int` is exact while that number fits. -/

namespace LttngParallelAnalyses
open Lib Lib.Interleaving Lib.UnstableSort

def CountWorker.doMap (worker : TraceWorker) : Int32 :=
  worker.events.foldl (fun count _ => count + 1) 0

def CountWorker.doReduce (final intermediate : Int32) : Int32 := final + intermediate

def countAnalysis : TraceAnalysis Int32 where
  doMap := CountWorker.doMap
  doReduce := CountWorker.doReduce
  initial := 0
  isOrderedReduce := false
  doEnd data := data

/-- The count that a serial run prints. -/
def CountAnalysis.doExecuteSerial (set : TraceSet) : Int32 :=
  set.events.foldl (fun count _ => count + 1) 0

/-! ## Counts modulo 2^32 -/

/-- The number of events that some workers iterate over, all together. -/
def processed (workers : List TraceWorker) : Nat :=
  (workers.map (fun worker => worker.events.length)).sum

theorem processed_perm {order workers : List TraceWorker} (perm : order.Perm workers) :
    processed order = processed workers :=
  List.Perm.sum_eq (perm.map (fun worker : TraceWorker => worker.events.length))

theorem foldl_count (events : List EventValue) (n : Nat) :
    events.foldl (fun count _ => count + 1) (Int32.ofNat n) = Int32.ofNat (n + events.length) := by
  induction events generalizing n with
  | nil => rfl
  | cons event rest ih =>
    have next : Int32.ofNat n + 1 = Int32.ofNat (n + 1) := by
      rw [Int32.ofNat_add]
      rfl
    rw [List.foldl_cons, next, ih, List.length_cons, Nat.add_assoc, Nat.add_comm 1]

theorem CountWorker.doMap_eq (worker : TraceWorker) :
    CountWorker.doMap worker = Int32.ofNat worker.events.length := by
  have counted := foldl_count worker.events 0
  rw [Nat.zero_add] at counted
  exact counted

theorem CountAnalysis.doExecuteSerial_eq (set : TraceSet) :
    CountAnalysis.doExecuteSerial set = Int32.ofNat set.events.length := by
  have counted := foldl_count set.events 0
  rw [Nat.zero_add] at counted
  exact counted

theorem foldl_doReduce (workers : List TraceWorker) (n : Nat) :
    (workers.map CountWorker.doMap).foldl CountWorker.doReduce (Int32.ofNat n) =
      Int32.ofNat (n + processed workers) := by
  induction workers generalizing n with
  | nil => rfl
  | cons worker rest ih =>
    have next : CountWorker.doReduce (Int32.ofNat n) (CountWorker.doMap worker) =
        Int32.ofNat (n + worker.events.length) := by
      rw [CountWorker.doMap_eq, CountWorker.doReduce, Int32.ofNat_add]
    have total : processed (worker :: rest) = worker.events.length + processed rest := rfl
    rw [List.map_cons, List.foldl_cons, next, ih, total, Nat.add_assoc]

/-- The order of the reduction does not matter: it has one result. -/
theorem mappedReduced_count {workers : List TraceWorker} {reduced : Int32} :
    MappedReduced workers countAnalysis.doMap countAnalysis.doReduce countAnalysis.initial
        countAnalysis.reduceOptions reduced ↔
      reduced = Int32.ofNat (processed workers) := by
  have fold : ∀ order : List TraceWorker, order.Perm workers →
      (order.map CountWorker.doMap).foldl CountWorker.doReduce 0 =
        Int32.ofNat (processed workers) := by
    intro order perm
    rw [← processed_perm perm]
    have counted := foldl_doReduce order 0
    rw [Nat.zero_add] at counted
    exact counted
  constructor
  · intro run
    obtain ⟨order, perm, rfl⟩ := run
    exact fold order perm
  · intro same
    obtain rfl := same
    exact ⟨workers, List.Perm.refl workers, (fold workers (List.Perm.refl workers)).symm⟩

theorem unbalanced_count {set : TraceSet} {threads : Nat} {data : Int32} :
    DoExecuteParallelUnbalanced countAnalysis set threads data ↔
      data = Int32.ofNat (processed (unbalancedWorkers set threads)) := by
  unfold DoExecuteParallelUnbalanced
  simp only [mappedReduced_count]
  constructor
  · intro run
    obtain ⟨reduced, rfl, rfl⟩ := run
    rfl
  · intro same
    obtain rfl := same
    exact ⟨_, rfl, rfl⟩

theorem balanced_count {files : List StreamFile} {data : Int32} :
    DoExecuteParallelBalanced countAnalysis files data ↔
      ∃ workers, balancedWorkers files = some workers ∧ data = Int32.ofNat (processed workers) := by
  unfold DoExecuteParallelBalanced
  simp only [mappedReduced_count]
  constructor
  · intro run
    obtain ⟨workers, computed, order, sorted, reduced, rfl, rfl⟩ := run
    exact ⟨workers, computed, congrArg Int32.ofNat (processed_perm sorted.1)⟩
  · intro counted
    obtain ⟨workers, computed, rfl⟩ := counted
    obtain ⟨order, sorted⟩ := exists_sortedByBegin workers
    exact ⟨workers, computed, order, sorted, _, rfl,
      congrArg Int32.ofNat (processed_perm sorted.1).symm⟩

/-! ## Every event is counted once -/

theorem processed_streamWorkers (trace : TraceSet) {cuts : List Timestamp}
    (cutting : Cutting cuts) : processed (streamWorkers trace cuts) = trace.events.length := by
  calc processed (streamWorkers trace cuts)
      = ((streamWorkers trace cuts).flatMap TraceWorker.events).length :=
        List.length_flatMap.symm
    _ = trace.events.length := by rw [flatMap_events trace cutting]

theorem processed_flatten (chunked : List (List TraceWorker)) :
    processed chunked.flatten = (chunked.map processed).sum := by
  induction chunked with
  | nil => rfl
  | cons workers rest ih =>
    calc processed (workers ++ rest.flatten)
        = processed workers + processed rest.flatten := by
          unfold processed
          rw [List.map_append, List.sum_append]
      _ = ((workers :: rest).map processed).sum := by rw [ih, List.map_cons, List.sum_cons]

theorem processed_balancedWorkers {files : List StreamFile} {workers : List TraceWorker}
    (computed : balancedWorkers files = some workers) :
    processed workers =
      (files.map (fun file => processed (streamWorkers file.trace file.cuts))).sum := by
  rw [balancedWorkers_eq_some computed, List.flatMap_def, processed_flatten, List.map_map]
  rfl

theorem processed_unbalanced {set : TraceSet} {threads : Nat} (some_thread : 0 < threads)
    (fits : threads < 2 ^ 64) (begins : set.events = [] ∨ set.getBegin ≠ maxTimestamp) :
    processed (unbalancedWorkers set threads) = set.events.length := by
  rw [unbalancedWorkers_eq set some_thread]
  cases events : set.events with
  | nil =>
    rw [processed, List.length_nil, List.sum_eq_zero_iff]
    intro n member
    obtain ⟨worker, own, rfl⟩ := List.mem_map.mp member
    rw [TraceWorker.events, worker.traceSet.between_eq, streamWorkers_traceSet own, events]
    rfl
  | cons event rest =>
    have inside : event ∈ set.events := by simp [events]
    have le : set.getBegin ≤ set.getEnd :=
      (set.begin_le event inside).trans (set.le_end event inside)
    have early : set.getBegin ≠ maxTimestamp := begins.resolve_left (by simp [events])
    have below : set.getBegin < maxTimestamp := lt_of_le_of_ne (le_maxTimestamp _) early
    rw [← events]
    exact processed_streamWorkers set (unbalanced_cutting le below fits)

end LttngParallelAnalyses
