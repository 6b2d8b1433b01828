import LttngParallelAnalyses.Common.TraceAnalysis
import LttngParallelAnalyses.Cpu.Merge

/-! The CPU analysis: its workers, its serial pass, and the reduction of chunk contexts. -/

namespace LttngParallelAnalyses
open Lib

namespace CpuWorker

def doMap (worker : TraceWorker) : CpuContext :=
  let data : CpuContext :=
    { start := worker.beginPos.getD worker.traceSet.getBegin
      end_ := worker.endPos.getD worker.traceSet.getEnd }
  let schedSwitchId := getEventId worker.traceSet "sched_switch"
  if schedSwitchId < 0 then data
  else worker.events.foldl (fun data event =>
    if event.id = schedSwitchId then data.handleSchedSwitch event else data) data

def doReduce (final intermediate : CpuContext) : CpuContext := final.merge intermediate

end CpuWorker

def cpuAnalysis : TraceAnalysis CpuContext where
  doMap := CpuWorker.doMap
  doReduce := CpuWorker.doReduce
  initial := {}
  isOrderedReduce := true
  doEnd := CpuContext.handleEnd

/-- The data that a serial run prints; it prints none for a trace without the event. -/
def CpuAnalysis.doExecuteSerial (set : TraceSet) : Option CpuContext :=
  let data : CpuContext := { start := set.getBegin, end_ := set.getEnd }
  let schedSwitchId := getEventId set "sched_switch"
  if schedSwitchId < 0 then none
  else some (set.events.foldl (fun data event =>
    if event.id = schedSwitchId then data.handleSchedSwitch event else data) data).handleEnd

/-! ## Chunks -/

/-- What a worker processes: its sched_switch events and the bounds that it sets. -/
structure Chunk where
  events : List EventValue
  start : Timestamp
  end_ : Timestamp

namespace CpuContext

/-- The events handled from a fresh context with these bounds. -/
def ofEvents (events : List EventValue) (start end_ : Timestamp) : CpuContext :=
  handle { start, end_ } events

def ofChunk (chunk : Chunk) : CpuContext := ofEvents chunk.events chunk.start chunk.end_

/-- The left fold of the chunk contexts, from a default context. -/
def reduce (chunks : List Chunk) : CpuContext := (chunks.map ofChunk).foldl merge {}

theorem reduce_concat (chunks : List Chunk) (chunk : Chunk) :
    reduce (chunks ++ [chunk]) = (reduce chunks).merge (ofChunk chunk) := by
  simp [reduce]

/-- The straddles of a whole reduction, in order. -/
def reduceStraddles (ctx : CpuContext) : List CpuContext → List Straddle
  | [] => []
  | other :: rest => straddles ctx other ++ reduceStraddles (ctx.merge other) rest

end CpuContext

/-- The sched_switch events of a trace set, as the analysis tells them. -/
def schedSwitches (set : TraceSet) (events : List EventValue) : List EventValue :=
  let schedSwitchId := getEventId set "sched_switch"
  if schedSwitchId < 0 then [] else events.filter (fun event => event.id = schedSwitchId)

def isSchedSwitch (set : TraceSet) (event : EventValue) : Bool :=
  0 ≤ getEventId set "sched_switch" ∧ event.id = getEventId set "sched_switch"

theorem schedSwitches_eq_filter (set : TraceSet) (events : List EventValue) :
    schedSwitches set events = events.filter (isSchedSwitch set) := by
  unfold schedSwitches isSchedSwitch
  by_cases missing : getEventId set "sched_switch" < 0
  · have absent : ¬ 0 ≤ getEventId set "sched_switch" := not_le.mpr missing
    simp [missing, absent]
  · have present : 0 ≤ getEventId set "sched_switch" := not_lt.mp missing
    simp [missing, present]

theorem schedSwitches_congr {set set' : TraceSet} (same : set.tracesInfos = set'.tracesInfos) :
    schedSwitches set = schedSwitches set' := by
  unfold schedSwitches getEventId
  rw [same]

theorem schedSwitches_sublist (set : TraceSet) (events : List EventValue) :
    (schedSwitches set events).Sublist events := by
  rw [schedSwitches_eq_filter]
  exact List.filter_sublist

def CpuWorker.chunk (worker : TraceWorker) : Chunk where
  events := schedSwitches worker.traceSet worker.events
  start := worker.beginPos.getD worker.traceSet.getBegin
  end_ := worker.endPos.getD worker.traceSet.getEnd

private theorem foldl_filtered (id : Int) (events : List EventValue) (data : CpuContext) :
    events.foldl (fun data event => if event.id = id then data.handleSchedSwitch event else data)
      data = data.handle (events.filter (fun event => event.id = id)) := by
  rw [CpuContext.handle, List.foldl_filter]
  simp only [decide_eq_true_eq]

theorem CpuWorker.doMap_eq (worker : TraceWorker) :
    CpuWorker.doMap worker = CpuContext.ofChunk (CpuWorker.chunk worker) := by
  unfold CpuWorker.doMap CpuContext.ofChunk CpuWorker.chunk CpuContext.ofEvents schedSwitches
  by_cases missing : getEventId worker.traceSet "sched_switch" < 0
  · simp only [missing, if_true]
    rfl
  · simp only [missing, if_false]
    exact foldl_filtered _ _ _

theorem foldl_doMap (workers : List TraceWorker) :
    (workers.map cpuAnalysis.doMap).foldl cpuAnalysis.doReduce cpuAnalysis.initial =
      CpuContext.reduce (workers.map CpuWorker.chunk) := by
  unfold CpuContext.reduce
  rw [List.map_map]
  have maps : cpuAnalysis.doMap = CpuContext.ofChunk ∘ CpuWorker.chunk :=
    funext CpuWorker.doMap_eq
  rw [maps]
  rfl

/-- The reduction of the CPU analysis is ordered: it has one result. -/
theorem mappedReduced_cpu {workers : List TraceWorker} {reduced : CpuContext} :
    MappedReduced workers cpuAnalysis.doMap cpuAnalysis.doReduce cpuAnalysis.initial
        cpuAnalysis.reduceOptions reduced ↔
      reduced = CpuContext.reduce (workers.map CpuWorker.chunk) := by
  rw [← foldl_doMap]
  rfl

theorem CpuAnalysis.doExecuteSerial_eq (set : TraceSet)
    (present : ¬ getEventId set "sched_switch" < 0) :
    CpuAnalysis.doExecuteSerial set = some (CpuContext.ofEvents (schedSwitches set set.events)
      set.getBegin set.getEnd).handleEnd := by
  unfold CpuAnalysis.doExecuteSerial CpuContext.ofEvents schedSwitches
  simp only [present, if_false]
  rw [foldl_filtered]

/-- A serial run that prints anything has found the event. -/
theorem CpuAnalysis.eq_of_doExecuteSerial {set : TraceSet} {serial : CpuContext}
    (printed : CpuAnalysis.doExecuteSerial set = some serial) :
    serial = (CpuContext.ofEvents (schedSwitches set set.events)
      set.getBegin set.getEnd).handleEnd := by
  have present : ¬ getEventId set "sched_switch" < 0 := by
    intro missing
    simp [CpuAnalysis.doExecuteSerial, missing] at printed
  rw [CpuAnalysis.doExecuteSerial_eq set present, Option.some.injEq] at printed
  exact printed.symm

end LttngParallelAnalyses
