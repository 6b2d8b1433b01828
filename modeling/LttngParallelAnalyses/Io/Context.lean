import LttngParallelAnalyses.Cpu.Context

/-! The state of the I/O analysis: for each tid, the syscall it is in and its totals. -/

namespace LttngParallelAnalyses
open Lib Lib.Tables

inductive IoType where
  | unknown
  | read
  | write
  | readWrite
  deriving DecidableEq, Repr

structure Syscall where
  type : IoType := .unknown
  name : String := ""
  start : Timestamp := 0
  end_ : Timestamp := 0
  fd : Int32 := -1
  ret : Int32 := -1
  deriving DecidableEq, Repr

structure IoProcess extends Process where
  currentSyscall : Option Syscall := none
  unknownSyscall : Option Syscall := none
  totalReadLatency : UInt64 := 0
  readCount : UInt64 := 0
  totalWriteLatency : UInt64 := 0
  writeCount : UInt64 := 0
  readBytes : UInt64 := 0
  writeBytes : UInt64 := 0
  deriving DecidableEq, Repr

namespace IoProcess

def countRead (latency : UInt64) (ret : Int64) (p : IoProcess) : IoProcess :=
  { p with
    totalReadLatency := p.totalReadLatency + latency
    readBytes := p.readBytes + ret.toUInt64
    readCount := p.readCount + 1 }

def countWrite (latency : UInt64) (ret : Int64) (p : IoProcess) : IoProcess :=
  { p with
    totalWriteLatency := p.totalWriteLatency + latency
    writeBytes := p.writeBytes + ret.toUInt64
    writeCount := p.writeCount + 1 }

/-- What an exit does to the record of its process. -/
def exitSyscall (timestamp : Timestamp) (ret : Int64) (p : IoProcess) : IoProcess :=
  match p.currentSyscall with
  | none =>
    if p.unknownSyscall.isNone then
      -- We have an unknown syscall, save it; its ret is an int
      { p with unknownSyscall := some { end_ := timestamp, ret := ret.toInt32 } }
    else p
  | some call =>
    let p :=
      if ret ≥ 0 then
        let latency := timestamp - call.start
        let p := if call.type = .read ∨ call.type = .readWrite then p.countRead latency ret else p
        if call.type = .write ∨ call.type = .readWrite then p.countWrite latency ret else p
      else p
    { p with currentSyscall := none }

/-- What an entry does to the record of its process. -/
def enterSyscall (event : EventValue) (type : IoType) (p : IoProcess) : IoProcess :=
  let call : Syscall := { type, start := event.timestamp, name := event.name }
  let call := if type = .read ∨ type = .write then { call with fd := event.fd } else call
  { p with currentSyscall := some call }

end IoProcess

structure IoContext where
  tids : Hash Int32 IoProcess := ∅
  sortedTids : List IoProcess := []

namespace IoContext

/-- Run a handler's update on the record of the event's process, created if absent. An event
without a tid is skipped. -/
def update (ctx : IoContext) (event : EventValue) (f : IoProcess → IoProcess) : IoContext :=
  match event.tid with
  | none => ctx
  | some tid =>
    let comm := event.procname.getD ""
    let p := (ctx.tids.lookup tid).getD { tid, comm }
    { ctx with tids := AList.insert tid (f p) ctx.tids }

def handleExitSyscall (ctx : IoContext) (event : EventValue) : IoContext :=
  ctx.update event (IoProcess.exitSyscall event.timestamp event.ret)

def handleReadWrite (ctx : IoContext) (event : EventValue) (type : IoType) : IoContext :=
  ctx.update event (IoProcess.enterSyscall event type)

def handleSysRead (ctx : IoContext) (event : EventValue) : IoContext :=
  ctx.handleReadWrite event .read

def handleSysWrite (ctx : IoContext) (event : EventValue) : IoContext :=
  ctx.handleReadWrite event .write

def handleSysReadWrite (ctx : IoContext) (event : EventValue) : IoContext :=
  ctx.handleReadWrite event .readWrite

/-- The values of the table; the order in which the hash gives them is unspecified. -/
def handleEnd (ctx : IoContext) : IoContext := { ctx with sortedTids := ctx.tids.entries.map (·.2) }

/-! ## Merging -/

/-- The accounting that `merge` does for a syscall that the other chunk ends. -/
def finishSyscall (call unknown : Syscall) (p : IoProcess) : IoProcess :=
  let latency := unknown.end_ - call.start
  let p :=
    if call.type = .read ∨ call.type = .readWrite then
      let ret := unknown.ret.toInt64
      if ret ≥ 0 then p.countRead latency ret else p
    else p
  if call.type = .write ∨ call.type = .readWrite then
    let ret := unknown.ret.toInt64
    if ret ≥ 0 then p.countWrite latency ret else p
  else p

def addTotals (thisProcess otherProcess : IoProcess) : IoProcess :=
  { thisProcess with
    totalReadLatency := thisProcess.totalReadLatency + otherProcess.totalReadLatency
    totalWriteLatency := thisProcess.totalWriteLatency + otherProcess.totalWriteLatency
    readBytes := thisProcess.readBytes + otherProcess.readBytes
    writeBytes := thisProcess.writeBytes + otherProcess.writeBytes
    readCount := thisProcess.readCount + otherProcess.readCount
    writeCount := thisProcess.writeCount + otherProcess.writeCount }

def mergeProcess (thisProcess : Option IoProcess) (otherProcess : IoProcess) : IoProcess :=
  match thisProcess with
  | none => otherProcess
  | some thisProcess =>
    let p := addTotals thisProcess otherProcess
    let p :=
      match thisProcess.currentSyscall, otherProcess.unknownSyscall with
      | some call, some unknown => finishSyscall call unknown p
      | _, _ => p
    { p with currentSyscall := otherProcess.currentSyscall }

/-- The loop goes over the values of the other table, under their own tids. -/
def merge (ctx other : IoContext) : IoContext :=
  { ctx with
    tids := (other.tids.entries.map (·.2)).foldl (fun tids otherProcess =>
      AList.insert otherProcess.tid
        (mergeProcess (tids.lookup otherProcess.tid) otherProcess) tids) ctx.tids }

end IoContext

/-! ## Events -/

/-- The handlers that an event may be given to. -/
inductive IoHandler where
  | sysRead
  | sysWrite
  | sysReadWrite
  | exitSyscall
  deriving DecidableEq, Repr

/-- An event that the analysis tracks, with its handler. -/
structure Tracked where
  handler : IoHandler
  event : EventValue
  deriving DecidableEq, Repr

def IoContext.handle (ctx : IoContext) (tracked : Tracked) : IoContext :=
  match tracked.handler with
  | .sysRead => ctx.handleSysRead tracked.event
  | .sysWrite => ctx.handleSysWrite tracked.event
  | .sysReadWrite => ctx.handleSysReadWrite tracked.event
  | .exitSyscall => ctx.handleExitSyscall tracked.event

end LttngParallelAnalyses
