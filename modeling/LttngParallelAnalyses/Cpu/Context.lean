import LttngParallelAnalyses.Common.Trace
import LttngParallelAnalyses.Lib.Tables

/-! The state of the CPU analysis and its four operations: a sched_switch event, a step of
the reduction, and the end of the trace. Counters are 64-bit and wrap. -/

namespace LttngParallelAnalyses
open Lib Lib.Tables

def unknownTid : Int32 := -1

structure Task where
  start : Timestamp := 0
  end_ : Timestamp := 0
  tid : Int32 := unknownTid
  deriving DecidableEq, Repr

structure Process where
  pid : Int32 := unknownTid
  tid : Int32 := unknownTid
  cpuNs : UInt64 := 0
  comm : String := ""
  deriving DecidableEq, Repr

/-- What `tids[tid]` creates for an absent tid. -/
instance : Inhabited Process := ⟨{}⟩

/-- `p.cpu_ns += time` -/
def Process.charge (time : UInt64) (p : Process) : Process := { p with cpuNs := p.cpuNs + time }

structure Cpu where
  id : UInt32
  currentTask : Option Task := none
  unknownTask : Option Task := none
  cpuNs : UInt64 := 0
  deriving DecidableEq, Repr

structure CpuContext where
  cpus : List Cpu := []
  tids : Hash Int32 Process := ∅
  sortedTids : List Process := []
  start : Timestamp := 0
  end_ : Timestamp := 0

namespace CpuContext

def find (ctx : CpuContext) (cpu : UInt32) : Option Cpu := Tables.find Cpu.id ctx.cpus cpu

/-- `getCpu` finds a record or appends a new one; what is written through the reference that
it returns is put back by `setCpu`. -/
def getCpu (ctx : CpuContext) (cpu : UInt32) : Cpu := (ctx.find cpu).getD { id := cpu }

def setCpu (ctx : CpuContext) (c : Cpu) : CpuContext := { ctx with cpus := put Cpu.id ctx.cpus c }

/-! ## sched_switch -/

/-- What `handleSchedSwitch` does to the record of its CPU. -/
def switchCpu (c : Cpu) (event : EventValue) : Cpu :=
  -- Calculate CPU time
  let c := match c.currentTask with
    | some task => { c with cpuNs := c.cpuNs + (event.timestamp - task.start) }
    | none =>
      -- We had an unknown running task
      if event.prevTid ≠ 0 then
        { c with unknownTask := some { end_ := event.timestamp, tid := event.prevTid } }
      else c
  -- Update current task
  { c with
    currentTask :=
      if event.nextTid ≠ 0 then some { start := event.timestamp, tid := event.nextTid } else none }

/-- What `handleSchedSwitch` does to the process table, given the task that was running. -/
def switchTids (tids : Hash Int32 Process) (current : Option Task) (event : EventValue) :
    Hash Int32 Process :=
  -- Create previous process if doesn't exist
  let tids :=
    if event.prevTid ∈ tids then
      Hash.modify tids event.prevTid (fun p => { p with comm := event.prevComm })
    else AList.insert event.prevTid { comm := event.prevComm, tid := event.prevTid } tids
  -- Update previous process
  match current with
  | some task =>
    Hash.modify tids event.prevTid (Process.charge (event.timestamp - task.start))
  | none => tids

def handleSchedSwitch (ctx : CpuContext) (event : EventValue) : CpuContext :=
  let c := ctx.getCpu event.cpuId
  { ctx.setCpu (switchCpu c event) with tids := switchTids ctx.tids c.currentTask event }

/-! ## Merging -/

/-- A subtraction `unknownTask->end - currentTask->start` that `merge` carries out: the task
that was open before the other chunk, and the one that its first switch ended. -/
structure Straddle where
  cpu : UInt32
  current : Task
  unknown : Task
  deriving DecidableEq, Repr

def Straddle.taskTime (s : Straddle) : UInt64 := s.unknown.end_ - s.current.start

/-- The straddles for which `merge` prints a Mismatch message. -/
def Straddle.Mismatch (s : Straddle) : Prop := s.current.tid ≠ s.unknown.tid

instance (s : Straddle) : Decidable s.Mismatch :=
  inferInstanceAs (Decidable (s.current.tid ≠ s.unknown.tid))

def straddle (thisCpu otherCpu : Cpu) : Option Straddle :=
  match thisCpu.currentTask, otherCpu.unknownTask with
  | some current, some unknown => some ⟨otherCpu.id, current, unknown⟩
  | _, _ => none

def mergeCpus (ctx : CpuContext) (others : List Cpu) : CpuContext :=
  others.foldl (fun ctx otherCpu =>
    let thisCpu := ctx.getCpu otherCpu.id
    ctx.setCpu { thisCpu with cpuNs := thisCpu.cpuNs + otherCpu.cpuNs }) ctx

def mergeProcess (thisTid : Option Process) (otherTid : Process) : Process :=
  match thisTid with
  | some thisTid =>
    { thisTid with cpuNs := thisTid.cpuNs + otherTid.cpuNs, comm := otherTid.comm }
  | none => otherTid

/-- The fixing of one CPU record. -/
def fixCpu (thisCpu otherCpu : Cpu) : Cpu :=
  match thisCpu.currentTask with
  | some current =>
    match otherCpu.unknownTask with
    | some unknown =>
      -- We matched this current, change to the next current
      { thisCpu with
        cpuNs := thisCpu.cpuNs + (unknown.end_ - current.start)
        currentTask := otherCpu.currentTask }
    | none =>
      -- Keep the current unfinished task
      thisCpu
  | none =>
    -- We did not have an unfinished task, take the next
    { thisCpu with currentTask := otherCpu.currentTask }

/-- The process that a straddling task is charged to, if the tids match. -/
def fixTids (tids : Hash Int32 Process) (thisCpu otherCpu : Cpu) : Hash Int32 Process :=
  match straddle thisCpu otherCpu with
  | some s =>
    if s.current.tid = s.unknown.tid then
      Hash.modify tids s.current.tid (Process.charge s.taskTime)
    else tids
  | none => tids

/-- One round of the fixing loop, with the straddles recorded so far. -/
def fixStep (state : CpuContext × List Straddle) (otherCpu : Cpu) : CpuContext × List Straddle :=
  let thisCpu := state.1.getCpu otherCpu.id
  ({ state.1.setCpu (fixCpu thisCpu otherCpu) with
      tids := fixTids state.1.tids thisCpu otherCpu },
    state.2 ++ (straddle thisCpu otherCpu).toList)

def mergeBounds (ctx other : CpuContext) : CpuContext :=
  { ctx with
    start := if other.start < ctx.start ∨ ctx.start = 0 then other.start else ctx.start
    end_ := if other.end_ > ctx.end_ then other.end_ else ctx.end_ }

/-- `merge` with the straddles that it handled, in order. -/
def mergeRun (ctx other : CpuContext) : CpuContext × List Straddle :=
  let ctx := mergeBounds ctx other
  let ctx := mergeCpus ctx other.cpus
  let ctx := { ctx with tids := Hash.absorb mergeProcess ctx.tids other.tids }
  other.cpus.foldl fixStep (ctx, [])

def merge (ctx other : CpuContext) : CpuContext := (mergeRun ctx other).1

def straddles (ctx other : CpuContext) : List Straddle := (mergeRun ctx other).2

/-! ## End of the trace -/

/-- One round of the loop that patches the tasks still running at the end. -/
def patchStep (end_ : Timestamp) (state : List Cpu × Hash Int32 Process) (cpu : Cpu) :
    List Cpu × Hash Int32 Process :=
  match cpu.currentTask with
  | some task =>
    let time := end_ - task.start
    (state.1 ++ [{ cpu with cpuNs := cpu.cpuNs + time, currentTask := none }],
      Hash.modify state.2 task.tid (Process.charge time))
  | none => (state.1 ++ [cpu], state.2)

/-- Both lists end sorted by decreasing time. The order of equal times is unspecified for
`cpus`, and the order in which the hash gives its values always is. -/
def handleEnd (ctx : CpuContext) : CpuContext :=
  let patched := ctx.cpus.foldl (patchStep ctx.end_) ([], ctx.tids)
  { ctx with
    cpus := patched.1.insertionSort (fun a b => b.cpuNs ≤ a.cpuNs)
    tids := patched.2
    sortedTids := (patched.2.entries.map (·.2)).insertionSort (fun a b => b.cpuNs ≤ a.cpuNs) }

end CpuContext

end LttngParallelAnalyses
