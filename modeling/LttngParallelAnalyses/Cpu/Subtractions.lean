import LttngParallelAnalyses.Cpu.Chunked
import LttngParallelAnalyses.Cpu.Conservation
import LttngParallelAnalyses.Cpu.Straddles

/-! The subtractions of times that a CPU run carries out: in `handleSchedSwitch`, in `merge`
and in `handleEnd`. What they give is all that a run adds to the CPU records. In a trace in
time order no subtrahend exceeds its minuend, chained or not. -/

namespace LttngParallelAnalyses
open Lib Lib.Tables

/-- A subtraction of two times, which are unsigned. -/
structure Subtraction where
  minuend : Timestamp
  subtrahend : Timestamp
  deriving DecidableEq, Repr

def Subtraction.difference (s : Subtraction) : UInt64 := s.minuend - s.subtrahend

/-- The subtraction does not wrap. -/
def Subtraction.Fits (s : Subtraction) : Prop := s.subtrahend ≤ s.minuend

instance (s : Subtraction) : Decidable s.Fits :=
  inferInstanceAs (Decidable (s.subtrahend ≤ s.minuend))

namespace CpuContext

/-- `timestamp - c.currentTask->start`, which is added to the CPU and to the process. -/
def switchSubtractions (ctx : CpuContext) (event : EventValue) : List Subtraction :=
  ((ctx.getCpu event.cpuId).currentTask.map
    (fun task => { minuend := event.timestamp, subtrahend := task.start })).toList

def handleSubtractions (ctx : CpuContext) : List EventValue → List Subtraction
  | [] => []
  | event :: rest =>
    switchSubtractions ctx event ++ handleSubtractions (ctx.handleSchedSwitch event) rest

/-- `otherCpu.unknownTask->end - thisCpu.currentTask->start` -/
def Straddle.subtraction (s : Straddle) : Subtraction where
  minuend := s.unknown.end_
  subtrahend := s.current.start

/-- `end - cpu.currentTask->start`, which is added to the CPU and to the process. -/
def endSubtractions (ctx : CpuContext) : List Subtraction :=
  ctx.cpus.filterMap (fun cpu => cpu.currentTask.map
    (fun task => { minuend := ctx.end_, subtrahend := task.start }))

def chunkSubtractions (chunk : Chunk) : List Subtraction :=
  handleSubtractions { start := chunk.start, end_ := chunk.end_ } chunk.events

/-- The subtractions of a whole run: those of the workers, of the reduction and of the end. -/
def runSubtractions (chunks : List Chunk) : List Subtraction :=
  chunks.flatMap chunkSubtractions ++
    (reduceStraddles {} (chunks.map ofChunk)).map Straddle.subtraction ++
    endSubtractions (reduce chunks)

/-! ## What they add -/

def differences (log : List Subtraction) : UInt64 := (log.map Subtraction.difference).sum

theorem differences_append (first second : List Subtraction) :
    differences (first ++ second) = differences first + differences second := by
  simp [differences]

theorem cpuTotal_handle (ctx : CpuContext) (events : List EventValue) :
    (ctx.handle events).cpuTotal = ctx.cpuTotal + differences (handleSubtractions ctx events) := by
  induction events generalizing ctx with
  | nil => exact (add_zero _).symm
  | cons event rest ih =>
    have one : differences (switchSubtractions ctx event) =
        elapsed (ctx.getCpu event.cpuId).currentTask event.timestamp := by
      unfold switchSubtractions elapsed
      cases (ctx.getCpu event.cpuId).currentTask <;>
        simp [differences, Subtraction.difference]
    rw [handle, List.foldl_cons, ← handle, ih, cpuTotal_handleSchedSwitch, handleSubtractions,
      differences_append, one, add_assoc]

theorem cpuTotal_merge (ctx other : CpuContext) :
    (ctx.merge other).cpuTotal = ctx.cpuTotal + other.cpuTotal +
      differences ((straddles ctx other).map Straddle.subtraction) := by
  have fix : ∀ (others : List Cpu) (state : CpuContext × List Straddle),
      (others.foldl fixStep state).1.cpuTotal -
          differences ((others.foldl fixStep state).2.map Straddle.subtraction) =
        state.1.cpuTotal - differences (state.2.map Straddle.subtraction) := by
    intro others
    induction others with
    | nil => exact fun _ => rfl
    | cons otherCpu rest ih =>
      intro state
      rw [List.foldl_cons, ih, cpuTotal_fixStep, fixStep, List.map_append, differences_append]
      cases straddle (state.1.getCpu otherCpu.id) otherCpu with
      | none => simp [differences]
      | some s =>
        simp only [differences, Option.elim_some, Option.toList_some, List.map_cons, List.map_nil,
          List.sum_cons, List.sum_nil, Subtraction.difference, Straddle.subtraction,
          Straddle.taskTime]
        abel
  have run := fix other.cpus (merged ctx other, [])
  rw [← mergeRun_eq, cpuTotal_merged, List.map_nil] at run
  rw [merge, straddles, eq_add_of_sub_eq run]
  simp [differences]

theorem cpuTotal_foldl_merge (chunks : List Chunk) (ctx : CpuContext) :
    ((chunks.map ofChunk).foldl merge ctx).cpuTotal =
      ctx.cpuTotal + differences (chunks.flatMap chunkSubtractions) +
        differences ((reduceStraddles ctx (chunks.map ofChunk)).map Straddle.subtraction) := by
  induction chunks generalizing ctx with
  | nil => simp [differences, reduceStraddles]
  | cons chunk rest ih =>
    have own : (ofChunk chunk).cpuTotal = differences (chunkSubtractions chunk) :=
      (cpuTotal_handle _ chunk.events).trans (zero_add _)
    rw [List.map_cons, List.foldl_cons, ih, cpuTotal_merge, own, List.flatMap_cons,
      reduceStraddles, List.map_append, differences_append, differences_append]
    abel

/-- The CPU time that a run reports is the sum of its subtractions. -/
theorem cpuTotal_run (chunks : List Chunk) :
    (reduce chunks).handleEnd.cpuTotal = differences (runSubtractions chunks) := by
  have ends : ∀ cpus : List Cpu, ((openBills (reduce chunks).end_ cpus).map (·.2)) =
      (cpus.filterMap (fun cpu => cpu.currentTask.map (fun task =>
        ({ minuend := (reduce chunks).end_, subtrahend := task.start } : Subtraction)))).map
          Subtraction.difference := by
    intro cpus
    rw [openBills, List.map_filterMap, List.map_filterMap]
    simp only [Option.map_map]
    rfl
  have fresh : ({} : CpuContext).cpuTotal = 0 := rfl
  rw [cpuTotal_handleEnd, ends, reduce, cpuTotal_foldl_merge, fresh, zero_add, runSubtractions,
    differences_append, differences_append]
  rfl

/-! ## None wraps -/

variable {ctx : CpuContext} {events : List EventValue}

theorem OpenedBy.handleSchedSwitch (opened : ctx.OpenedBy events) (event : EventValue) :
    (ctx.handleSchedSwitch event).OpenedBy (events ++ [event]) := by
  intro cpu task running
  rw [find_handleSchedSwitch] at running
  rw [onCpu_append]
  by_cases own : event.cpuId = cpu
  · rw [if_pos own, Option.bind_some, switchCpu_currentTask] at running
    obtain ⟨last, inside, began⟩ := lastTask_start
      (show lastTask [event] = some task from running)
    obtain rfl := List.mem_singleton.mp inside
    exact ⟨last, by simp [onCpu, own], began⟩
  · rw [if_neg own] at running
    obtain ⟨first, inside, began⟩ := opened cpu task running
    exact ⟨first, List.mem_append_left _ inside, began⟩

theorem switchSubtractions_fit (opened : ctx.OpenedBy events) (event : EventValue)
    (later : ∀ first ∈ events, first.timestamp ≤ event.timestamp) :
    ∀ s ∈ switchSubtractions ctx event, s.Fits := by
  intro s logged
  obtain ⟨task, running, rfl⟩ := Option.map_eq_some_iff.mp (Option.mem_toList.mp logged)
  rw [getCpu_currentTask] at running
  obtain ⟨first, inside, began⟩ := opened event.cpuId task running
  unfold Subtraction.Fits
  rw [began]
  exact later first (mem_onCpu.mp inside).1

theorem handleSubtractions_fit (rest : List EventValue) (opened : ctx.OpenedBy events)
    (sorted : TimeSorted (events ++ rest)) : ∀ s ∈ handleSubtractions ctx rest, s.Fits := by
  induction rest generalizing ctx events with
  | nil => simp [handleSubtractions]
  | cons event rest ih =>
    intro s logged
    rw [handleSubtractions, List.mem_append] at logged
    rcases logged with here | later
    · apply switchSubtractions_fit opened event _ s here
      intro first inside
      exact (List.pairwise_append.mp sorted).2.2 first inside event List.mem_cons_self
    · apply ih (opened.handleSchedSwitch event) _ s later
      rwa [List.append_assoc]

theorem OpenedBy.reduce (chunks : List Chunk) (opened : ctx.OpenedBy events) :
    ((chunks.map ofChunk).foldl CpuContext.merge ctx).OpenedBy (events ++ chunks.flatMap Chunk.events) := by
  induction chunks generalizing ctx events with
  | nil => simpa using opened
  | cons chunk rest ih =>
    have merged : (ctx.merge (ofChunk chunk)).OpenedBy (events ++ chunk.events) := opened.merge
    have later := ih merged
    rwa [List.append_assoc] at later

theorem distinct_reduce (chunks : List Chunk) : (reduce chunks).Distinct := by
  induction chunks using List.reverseRecOn with
  | nil => exact List.nodup_nil
  | append_singleton chunks chunk ih =>
    rw [reduce_concat]
    exact distinct_merge ih _

theorem endSubtractions_fit (opened : ctx.OpenedBy events) (distinct : ctx.Distinct)
    (ended : ∀ event ∈ events, event.timestamp ≤ ctx.end_) :
    ∀ s ∈ endSubtractions ctx, s.Fits := by
  intro s logged
  obtain ⟨cpu, member, open_⟩ := List.mem_filterMap.mp logged
  obtain ⟨task, running, rfl⟩ := Option.map_eq_some_iff.mp open_
  have found : ctx.find cpu.id = some cpu := find_of_mem distinct member
  obtain ⟨first, inside, began⟩ := opened cpu.id task (by rw [found]; exact running)
  unfold Subtraction.Fits
  rw [began]
  exact ended first (mem_onCpu.mp inside).1

/-- In chunks that follow each other in time no subtraction of a run wraps, if the merged end
is not before an event. -/
theorem runSubtractions_fit (chunks : List Chunk) (sorted : TimeSorted (chunks.flatMap Chunk.events))
    (ended : ∀ event ∈ chunks.flatMap Chunk.events, event.timestamp ≤ (reduce chunks).end_) :
    ∀ s ∈ runSubtractions chunks, s.Fits := by
  intro s logged
  rw [runSubtractions, List.mem_append, List.mem_append] at logged
  rcases logged with (worker | merging) | ending
  · obtain ⟨chunk, member, here⟩ := List.mem_flatMap.mp worker
    have part : chunk.events.Sublist (chunks.flatMap Chunk.events) :=
      List.sublist_flatten_of_mem (List.mem_map_of_mem member)
    have fresh : CpuContext.OpenedBy { start := chunk.start, end_ := chunk.end_ } [] := by
      intro cpu task none
      cases none
    exact handleSubtractions_fit chunk.events fresh (sorted.sublist part) s here
  · obtain ⟨straddle, member, rfl⟩ := List.mem_map.mp merging
    have parts := List.pairwise_flatMap.mp sorted
    apply reduceStraddles_ordered chunks openedBy_nil _ _ straddle member
    · intro chunk _ cpu event inside
      cases inside
    · apply parts.2.imp
      intro first second before cpu event inside event' inside'
      exact before event (mem_onCpu.mp inside).1 event' (mem_onCpu.mp inside').1
  · exact endSubtractions_fit (openedBy_nil.reduce chunks) (distinct_reduce chunks) ended s ending

theorem cutInto_fit {events : List EventValue} {cuts : List Timestamp}
    (traceBegin traceEnd : Timestamp) (sorted : TimeSorted events)
    (ended : ∀ event ∈ events, event.timestamp ≤ traceEnd) (ordered : cuts.Pairwise (· ≤ ·)) :
    ∀ s ∈ runSubtractions (cutInto events traceBegin traceEnd cuts), s.Fits := by
  have whole := cutInto_events traceBegin traceEnd sorted ordered
  apply runSubtractions_fit
  · rwa [whole]
  · rw [whole, reduce_cutInto_end, mergedEnd]
    exact fun event member => (ended event member).trans (le_max_right _ _)

end CpuContext

end LttngParallelAnalyses
