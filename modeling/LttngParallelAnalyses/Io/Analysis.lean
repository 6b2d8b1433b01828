import LttngParallelAnalyses.Common.Coverage
import LttngParallelAnalyses.Io.Chunked

/-! The I/O analysis: which events it tracks, its workers and its serial pass. -/

namespace LttngParallelAnalyses
open Lib

def readSyscalls : List String :=
  ["sys_read", "syscall_entry_read", "sys_recvmsg", "syscall_entry_recvmsg", "sys_recvfrom",
    "syscall_entry_recvfrom", "sys_readv", "syscall_entry_readv"]

def writeSyscalls : List String :=
  ["sys_write", "syscall_entry_write", "sys_sendmsg", "syscall_entry_sendmsg", "sys_sendto",
    "syscall_entry_sendto", "sys_writev", "syscall_entry_writev"]

def readWriteSyscalls : List String :=
  ["sys_splice", "syscall_entry_splice", "sys_sendfile64", "syscall_entry_sendfile64"]

def exitSyscalls : List String :=
  ["syscall_exit_read", "syscall_exit_recvmsg", "syscall_exit_recvfrom", "syscall_exit_readv",
    "syscall_exit_write", "syscall_exit_sendmsg", "syscall_exit_sendto", "syscall_exit_writev",
    "syscall_exit_splice", "syscall_exit_sendfile64", "exit_syscall"]

/-- The set of the ids of some events; one that the trace lacks puts -1 in it. -/
def eventIds (set : TraceSet) (names : List String) : List Int := names.map (getEventId set)

/-- The body of the loop over the events, the same in a worker and in a serial pass. -/
def IoAnalysis.handleEvent (set : TraceSet) (data : IoContext) (event : EventValue) : IoContext :=
  if event.id ∈ eventIds set readSyscalls then data.handleSysRead event
  else if event.id ∈ eventIds set writeSyscalls then data.handleSysWrite event
  else if event.id ∈ eventIds set readWriteSyscalls then data.handleSysReadWrite event
  else if event.id ∈ eventIds set exitSyscalls then data.handleExitSyscall event
  else data

def IoWorker.doMap (worker : TraceWorker) : IoContext :=
  (worker.events.foldl (IoAnalysis.handleEvent worker.traceSet) {}).handleEnd

def IoWorker.doReduce (final intermediate : IoContext) : IoContext := final.merge intermediate

def ioAnalysis : TraceAnalysis IoContext where
  doMap := IoWorker.doMap
  doReduce := IoWorker.doReduce
  initial := {}
  isOrderedReduce := true
  doEnd := IoContext.handleEnd

/-- The data that a serial run prints. -/
def IoAnalysis.doExecuteSerial (set : TraceSet) : IoContext :=
  (set.events.foldl (IoAnalysis.handleEvent set) {}).handleEnd

/-! ## Tracked events -/

/-- The handler of an event. -/
def dispatch (set : TraceSet) (event : EventValue) : Option IoHandler :=
  if event.id ∈ eventIds set readSyscalls then some .sysRead
  else if event.id ∈ eventIds set writeSyscalls then some .sysWrite
  else if event.id ∈ eventIds set readWriteSyscalls then some .sysReadWrite
  else if event.id ∈ eventIds set exitSyscalls then some .exitSyscall
  else none

def track (set : TraceSet) (event : EventValue) : Option Tracked :=
  (dispatch set event).map (fun handler => { handler, event })

theorem handleEvent_eq (set : TraceSet) (data : IoContext) (event : EventValue) :
    IoAnalysis.handleEvent set data event = (track set event).elim data data.handle := by
  unfold IoAnalysis.handleEvent track dispatch
  by_cases reads : event.id ∈ eventIds set readSyscalls
  · rw [if_pos reads, if_pos reads]
    rfl
  by_cases writes : event.id ∈ eventIds set writeSyscalls
  · rw [if_neg reads, if_neg reads, if_pos writes, if_pos writes]
    rfl
  by_cases both : event.id ∈ eventIds set readWriteSyscalls
  · rw [if_neg reads, if_neg reads, if_neg writes, if_neg writes, if_pos both, if_pos both]
    rfl
  by_cases exits : event.id ∈ eventIds set exitSyscalls
  · simp only [reads, writes, both, exits, if_true, if_false]
    rfl
  · simp only [reads, writes, both, exits, if_false]
    rfl

theorem foldl_handleEvent (set : TraceSet) (events : List EventValue) (data : IoContext) :
    events.foldl (IoAnalysis.handleEvent set) data =
      data.handleAll (events.filterMap (track set)) := by
  induction events generalizing data with
  | nil => rfl
  | cons event rest ih =>
    rw [List.foldl_cons, ih, handleEvent_eq, List.filterMap_cons]
    cases track set event <;> rfl

/-- The tracked events of a worker. -/
def IoWorker.tracked (worker : TraceWorker) : List Tracked :=
  worker.events.filterMap (track worker.traceSet)

theorem IoWorker.doMap_eq (worker : TraceWorker) :
    IoWorker.doMap worker = IoContext.ofTracked (IoWorker.tracked worker) := by
  rw [IoWorker.doMap, foldl_handleEvent]
  rfl

theorem IoAnalysis.doExecuteSerial_eq (set : TraceSet) :
    IoAnalysis.doExecuteSerial set = IoContext.ofTracked (set.events.filterMap (track set)) := by
  rw [IoAnalysis.doExecuteSerial, foldl_handleEvent]
  rfl

/-- The reduction merges the contexts of the workers in order. -/
theorem mappedReduced_io {workers : List TraceWorker} {reduced : IoContext} :
    MappedReduced workers ioAnalysis.doMap ioAnalysis.doReduce ioAnalysis.initial
        ioAnalysis.reduceOptions reduced ↔
      reduced = IoContext.reduce (workers.map IoWorker.tracked) := by
  have maps : ioAnalysis.doMap = IoContext.ofTracked ∘ IoWorker.tracked := funext IoWorker.doMap_eq
  rw [IoContext.reduce, List.map_map, ← maps]
  rfl

/-- The workers of the unbalanced mode track every event once, in order. -/
theorem flatten_tracked {set : TraceSet} {threads : Nat} (le : set.getBegin ≤ set.getEnd)
    (below : set.getEnd < maxTimestamp) (some_thread : 0 < threads) (small : threads < 2 ^ 64) :
    ((unbalancedWorkers set threads).map IoWorker.tracked).flatten =
      set.events.filterMap (track set) := by
  have cutting := unbalanced_cutting le (le.trans_lt below) small
  rw [unbalancedWorkers_eq set some_thread, ← flatMap_events set cutting, List.filterMap_flatMap,
    ← List.flatMap_def]
  apply List.flatMap_congr
  intro worker member
  rw [IoWorker.tracked, streamWorkers_traceSet member]

/-- What an unbalanced parallel run shows of a process is what a serial run shows, for any
number of threads. -/
theorem io_unbalanced_agrees_serial {set : TraceSet} {threads : Nat} {data : IoContext}
    (fits : ∀ tracked ∈ set.events.filterMap (track set), ¬ tracked.IsEntry →
      IoProcess.FitsInt tracked.event.ret)
    (alternating : IoContext.Alternating (set.events.filterMap (track set)))
    (le : set.getBegin ≤ set.getEnd) (below : set.getEnd < maxTimestamp)
    (some_thread : 0 < threads) (small : threads < 2 ^ 64)
    (run : DoExecuteParallelUnbalanced ioAnalysis set threads data) (t : Int32) :
    (data.tids.lookup t).map IoProcess.visible =
      ((IoAnalysis.doExecuteSerial set).tids.lookup t).map IoProcess.visible := by
  obtain ⟨reduced, mapped, rfl⟩ := run
  have whole := flatten_tracked le below some_thread small
  rw [IoAnalysis.doExecuteSerial_eq, ← whole, IoContext.lookup_ofTracked,
    mappedReduced_io.mp mapped]
  rw [← whole] at fits alternating
  exact IoContext.lookup_reduce _ fits alternating t

end LttngParallelAnalyses
