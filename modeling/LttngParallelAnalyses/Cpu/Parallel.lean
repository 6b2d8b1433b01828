import LttngParallelAnalyses.Common.Coverage
import LttngParallelAnalyses.Cpu.Chunked

/-! The workers of one trace set. Their chunks are those that the cuts leave of its
sched_switch events, so an unbalanced parallel run prints what a serial run prints. -/

namespace LttngParallelAnalyses
open Lib CpuContext

theorem schedSwitches_part (trace : TraceSet) (events : List EventValue)
    (span : Cuts.Span Timestamp) :
    schedSwitches trace (Cuts.part (·.timestamp) events span) =
      Cuts.part (·.timestamp) (schedSwitches trace events) span := by
  rw [schedSwitches_eq_filter, schedSwitches_eq_filter]
  exact List.filter_comm ..

theorem schedSwitches_sorted (set : TraceSet) {events : List EventValue}
    (sorted : TimeSorted events) : TimeSorted (schedSwitches set events) :=
  sorted.sublist (schedSwitches_sublist set events)

/-- The chunks of the workers of a stream. -/
theorem map_chunk_streamWorkers (trace : TraceSet) {cuts : List Timestamp}
    (cutting : Cutting cuts) :
    (streamWorkers trace cuts).map CpuWorker.chunk =
      cutInto (schedSwitches trace trace.events) trace.getBegin trace.getEnd cuts := by
  rw [streamWorkers_eq, cutInto]
  apply List.ext_getElem
  · simp
  · intro i inside _
    have member : i < (Cuts.spans none cuts).length := by simpa using inside
    have below := spans_below cutting (List.getElem_mem member)
    rw [List.getElem_map, List.getElem_map, List.getElem_mapIdx, CpuWorker.chunk,
      events_new i trace _ below, ← schedSwitches_part]
    rfl

/-- The chunks of the unbalanced mode end with the trace, since no cut lies behind its end. -/
theorem reduce_unbalanced_end (events : List EventValue) {begin_ end_ : Timestamp} {threads : Nat}
    (le : begin_ ≤ end_) (fits : threads < 2 ^ 64) :
    (reduce (cutInto events begin_ end_ (unbalancedPositions begin_ end_ threads).tail)).end_ =
      end_ := by
  rw [reduce_cutInto_end]
  exact mergedEnd_eq (fun cut member => (unbalanced_within le fits cut member).2)

/-- What an unbalanced parallel run prints is what a serial run prints: the same CPU times and
the same process table, for any number of threads. -/
theorem unbalanced_agrees_serial {set : TraceSet} {threads : Nat} {data : CpuContext}
    (present : ¬ getEventId set "sched_switch" < 0)
    (chained : Chained (schedSwitches set set.events)) (le : set.getBegin ≤ set.getEnd)
    (below : set.getEnd < maxTimestamp) (some_thread : 0 < threads) (fits : threads < 2 ^ 64)
    (run : DoExecuteParallelUnbalanced cpuAnalysis set threads data) :
    ∃ serial, CpuAnalysis.doExecuteSerial set = some serial ∧ SameResults data serial := by
  obtain ⟨reduced, mapped, rfl⟩ := run
  have cutting := unbalanced_cutting le (le.trans_lt below) fits
  rw [mappedReduced_cpu, unbalancedWorkers_eq set some_thread,
    map_chunk_streamWorkers set cutting] at mapped
  refine ⟨_, CpuAnalysis.doExecuteSerial_eq set present, ?_⟩
  have sorted := schedSwitches_sorted set set.sorted
  have accounts := reduce_cutInto_accounts set.getBegin set.getEnd sorted chained cutting.ordered
  rw [mapped]
  apply accounts.sameResults (accounts_ofEvents _ _ _)
  rw [reduce_unbalanced_end _ le fits, ofEvents_end]

end LttngParallelAnalyses
