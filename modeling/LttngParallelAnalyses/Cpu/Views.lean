import LttngParallelAnalyses.Cpu.Context
import LttngParallelAnalyses.Lib.Adjacent

/-! How a context is read: the record of a CPU and the time of a process. A switch is a
local step of its CPU that charges one process, so a run of switches is described CPU by
CPU, by the adjacent pairs of the CPU's own events. -/

namespace LttngParallelAnalyses
open Lib Lib.Tables Lib.KeyedFold Lib.Adjacent
open scoped BigOperators

/-- The events on one CPU. -/
def onCpu (cpu : UInt32) (events : List EventValue) : List EventValue :=
  events.filter (fun event => event.cpuId = cpu)

@[simp] theorem onCpu_nil (cpu : UInt32) : onCpu cpu [] = [] := rfl

theorem onCpu_append (cpu : UInt32) (first second : List EventValue) :
    onCpu cpu (first ++ second) = onCpu cpu first ++ onCpu cpu second :=
  List.filter_append ..

theorem mem_onCpu {cpu : UInt32} {events : List EventValue} {event : EventValue} :
    event ∈ onCpu cpu events ↔ event ∈ events ∧ event.cpuId = cpu := by
  simp [onCpu]

/-- The CPUs that have events. -/
def cpuIds (events : List EventValue) : Finset UInt32 := (events.map (·.cpuId)).toFinset

theorem mem_cpuIds {events : List EventValue} {cpu : UInt32} :
    cpu ∈ cpuIds events ↔ onCpu cpu events ≠ [] := by
  rw [cpuIds, List.mem_toFinset, List.mem_map, Ne, List.eq_nil_iff_forall_not_mem]
  simp [mem_onCpu]

theorem cpuId_mem_cpuIds {events : List EventValue} {event : EventValue} (member : event ∈ events) :
    event.cpuId ∈ cpuIds events :=
  List.mem_toFinset.mpr (List.mem_map_of_mem member)

/-- The time of a task that ends now, 0 where none was running. -/
def elapsed (task : Option Task) (timestamp : Timestamp) : UInt64 :=
  task.elim 0 (fun task => timestamp - task.start)

/-- The task that a switch starts, unless it is to idle. -/
def taskAfter (event : EventValue) : Option Task :=
  if event.nextTid ≠ 0 then some { start := event.timestamp, tid := event.nextTid } else none

/-- The task that runs after the last of a CPU's events. -/
def lastTask (events : List EventValue) : Option Task := events.getLast?.bind taskAfter

/-- The time of the task that one switch starts and the next one ends. -/
def gap (opening closing : EventValue) : UInt64 := elapsed (taskAfter opening) closing.timestamp

/-- The gap as it is charged to a process: to the one that the closing switch names. -/
def tidGap (tid : Int32) (opening closing : EventValue) : UInt64 :=
  if closing.prevTid = tid then gap opening closing else 0

theorem Process.charge_zero (p : Process) : p.charge 0 = p := by
  simp [Process.charge]

theorem Process.charge_charge (a b : UInt64) (p : Process) :
    (p.charge a).charge b = p.charge (a + b) := by
  simp [Process.charge, add_assoc]

namespace CpuContext

/-- The time charged to a process, 0 for one that is not in the table. -/
def time (ctx : CpuContext) (tid : Int32) : UInt64 := (ctx.tids.lookup tid).elim 0 (·.cpuNs)

@[simp] theorem find_setCpu (ctx : CpuContext) (c : Cpu) (k : UInt32) :
    (ctx.setCpu c).find k = if c.id = k then some c else ctx.find k :=
  find_put ctx.cpus c k

@[simp] theorem setCpu_tids (ctx : CpuContext) (c : Cpu) : (ctx.setCpu c).tids = ctx.tids := rfl

@[simp] theorem find_with_tids (ctx : CpuContext) (tids : Hash Int32 Process) (k : UInt32) :
    ({ ctx with tids } : CpuContext).find k = ctx.find k := rfl

/-- No two records have the same id. -/
abbrev Distinct (ctx : CpuContext) : Prop := (ctx.cpus.map Cpu.id).Nodup

theorem distinct_setCpu {ctx : CpuContext} (c : Cpu) (distinct : ctx.Distinct) :
    (ctx.setCpu c).Distinct := nodup_put c distinct

theorem getCpu_id (ctx : CpuContext) (cpu : UInt32) : (ctx.getCpu cpu).id = cpu := by
  unfold getCpu
  cases found : ctx.find cpu with
  | none => rfl
  | some c => exact key_of_find found

/-! ## One switch -/

@[simp] theorem switchCpu_id (c : Cpu) (event : EventValue) : (switchCpu c event).id = c.id := by
  unfold switchCpu
  cases c.currentTask with
  | none => by_cases h : event.prevTid ≠ 0 <;> simp [h]
  | some task => rfl

@[simp] theorem switchCpu_currentTask (c : Cpu) (event : EventValue) :
    (switchCpu c event).currentTask = taskAfter event := rfl

theorem switchCpu_cpuNs (c : Cpu) (event : EventValue) :
    (switchCpu c event).cpuNs = c.cpuNs + elapsed c.currentTask event.timestamp := by
  unfold switchCpu elapsed
  cases c.currentTask with
  | none => by_cases h : event.prevTid ≠ 0 <;> simp [h]
  | some task => rfl

theorem switchCpu_unknownTask (c : Cpu) (event : EventValue) :
    (switchCpu c event).unknownTask =
      if c.currentTask = none ∧ event.prevTid ≠ 0 then
        some { end_ := event.timestamp, tid := event.prevTid }
      else c.unknownTask := by
  unfold switchCpu
  cases c.currentTask with
  | none => by_cases h : event.prevTid ≠ 0 <;> simp [h]
  | some task => simp

/-- The process table after a switch: the process switched out is there, named as the event
names it, and has been charged the time of the task. -/
theorem lookup_switchTids (tids : Hash Int32 Process) (current : Option Task) (event : EventValue)
    (t : Int32) :
    (switchTids tids current event).lookup t =
      if event.prevTid = t then
        some { (tids.lookup t).getD { tid := t } with
          comm := event.prevComm
          cpuNs := (tids.lookup t).elim 0 (·.cpuNs) + elapsed current event.timestamp }
      else tids.lookup t := by
  by_cases own : event.prevTid = t
  · subst own
    rw [if_pos rfl]
    unfold switchTids
    by_cases known : event.prevTid ∈ tids
    · obtain ⟨p, found⟩ := Option.isSome_iff_exists.mp (AList.lookup_isSome.mpr known)
      cases current <;> simp [known, found, Hash.lookup_modify, elapsed, Process.charge]
    · have absent : tids.lookup event.prevTid = none := AList.lookup_eq_none.mpr known
      cases current <;> simp [known, absent, Hash.lookup_modify, elapsed, Process.charge]
  · rw [if_neg own]
    unfold switchTids
    by_cases known : event.prevTid ∈ tids <;> cases current <;>
      simp [known, own, Hash.lookup_modify, Hash.lookup_insert_if]

theorem find_handleSchedSwitch (ctx : CpuContext) (event : EventValue) (k : UInt32) :
    (ctx.handleSchedSwitch event).find k =
      if event.cpuId = k then some (switchCpu (ctx.getCpu k) event) else ctx.find k := by
  simp only [handleSchedSwitch, find_with_tids, find_setCpu, switchCpu_id, getCpu_id]
  by_cases own : event.cpuId = k
  · rw [if_pos own, if_pos own, own]
  · rw [if_neg own, if_neg own]

/-- Switches as local steps of their CPUs. -/
def switching : Keyed CpuContext EventValue UInt32 (Option Cpu) where
  step := handleSchedSwitch
  key event := some event.cpuId
  view := find
  act found event := some (switchCpu (found.getD { id := event.cpuId }) event)
  view_step ctx event k := by
    simp only [handleSchedSwitch, find_with_tids, find_setCpu, switchCpu_id, getCpu_id,
      Option.some.injEq]
    by_cases own : event.cpuId = k
    · subst own
      simp [getCpu]
    · simp [own]

theorem switching_only (cpu : UInt32) (events : List EventValue) :
    switching.only cpu events = onCpu cpu events := by
  simp [Keyed.only, switching, onCpu]

theorem getCpu_currentTask (ctx : CpuContext) (cpu : UInt32) :
    (ctx.getCpu cpu).currentTask = (ctx.find cpu).bind (·.currentTask) := by
  unfold getCpu
  cases ctx.find cpu <;> rfl

/-- The time of one process as a ledger that all CPUs charge. -/
def timeLedger (tid : Int32) : Ledger switching UInt64 where
  account ctx := ctx.time tid
  charge found event :=
    if event.prevTid = tid then elapsed (found.bind (·.currentTask)) event.timestamp else 0
  account_step ctx event k own := by
    obtain rfl : event.cpuId = k := by simpa [switching] using own
    simp only [switching, time, handleSchedSwitch, lookup_switchTids, getCpu_currentTask]
    by_cases charged : event.prevTid = tid <;> simp [charged]
  account_skip ctx event none_key := by simp [switching] at none_key

/-! ## A run of switches -/

/-- A run of `handleSchedSwitch`. -/
def handle (ctx : CpuContext) (events : List EventValue) : CpuContext :=
  events.foldl handleSchedSwitch ctx

/-- The record of a CPU after its events, from no record. -/
def record (events : List EventValue) : Option Cpu := events.foldl switching.act none

theorem distinct_handle {ctx : CpuContext} (distinct : ctx.Distinct) (events : List EventValue) :
    (ctx.handle events).Distinct := by
  unfold handle
  induction events generalizing ctx with
  | nil => exact distinct
  | cons event rest ih => exact ih (distinct_setCpu (switchCpu _ event) distinct)

theorem find_handle (events : List EventValue) (ctx : CpuContext) (fresh : ctx.cpus = [])
    (cpu : UInt32) : (ctx.handle events).find cpu = record (onCpu cpu events) := by
  have run := switching.view_run ctx events cpu
  rw [switching_only] at run
  have start : switching.view ctx cpu = none := by
    simp [switching, find, fresh, find_nil]
  rw [start] at run
  exact run

theorem record_concat (events : List EventValue) (event : EventValue) :
    record (events ++ [event]) =
      some (switchCpu ((record events).getD { id := event.cpuId }) event) := by
  rw [record, List.foldl_append]
  rfl

theorem record_eq_none {events : List EventValue} : record events = none ↔ events = [] := by
  induction events using List.reverseRecOn with
  | nil => simp [record]
  | append_singleton events event _ => simp [record_concat]

theorem getD_currentTask (found : Option Cpu) (cpu : UInt32) :
    (found.getD { id := cpu }).currentTask = found.bind (·.currentTask) := by
  cases found <;> rfl

theorem record_currentTask (events : List EventValue) :
    (record events).bind (·.currentTask) = lastTask events := by
  induction events using List.reverseRecOn with
  | nil => rfl
  | append_singleton events event _ => simp [record_concat, lastTask]

/-- The task that a CPU was found running is overwritten by every switch from idle that names one. -/
theorem record_unknownTask_concat (events : List EventValue) (event : EventValue) :
    (record (events ++ [event])).bind (·.unknownTask) =
      if lastTask events = none ∧ event.prevTid ≠ 0 then
        some { end_ := event.timestamp, tid := event.prevTid }
      else (record events).bind (·.unknownTask) := by
  rw [record_concat, Option.bind_some, switchCpu_unknownTask, getD_currentTask, record_currentTask]
  cases record events <;> rfl

theorem getD_cpuNs (found : Option Cpu) (cpu : UInt32) :
    (found.getD { id := cpu }).cpuNs = found.elim 0 (·.cpuNs) := by
  cases found <;> rfl

theorem elapsed_lastTask (events : List EventValue) (event : EventValue) :
    elapsed (lastTask events) event.timestamp =
      events.getLast?.elim 0 (fun last => gap last event) := by
  cases last : events.getLast? <;> simp [lastTask, last, gap, elapsed]

theorem record_cpuNs (events : List EventValue) :
    (record events).elim 0 (·.cpuNs) = weight gap events := by
  induction events using List.reverseRecOn with
  | nil => rfl
  | append_singleton events event ih =>
    rw [record_concat, Option.elim_some, switchCpu_cpuNs, getD_currentTask, record_currentTask,
      getD_cpuNs, ih, elapsed_lastTask, weight_concat]

theorem charges_record (tid : Int32) (events : List EventValue) :
    (timeLedger tid).charges none events = weight (tidGap tid) events := by
  induction events using List.reverseRecOn with
  | nil => rfl
  | append_singleton events event ih =>
    have current : (events.foldl switching.act none).bind (·.currentTask) = lastTask events :=
      record_currentTask events
    rw [Ledger.charges_append, ih, weight_concat]
    simp only [Ledger.charges, timeLedger, current, elapsed_lastTask, add_zero, tidGap]
    cases events.getLast? <;> simp

/-- The time of a process is what its switches on every CPU charge. -/
theorem time_handle (events : List EventValue) (ctx : CpuContext) (fresh : ctx.cpus = [])
    (cpus : Finset UInt32) (known : ∀ event ∈ events, event.cpuId ∈ cpus) (tid : Int32) :
    (ctx.handle events).time tid =
      ctx.time tid + ∑ cpu ∈ cpus, weight (tidGap tid) (onCpu cpu events) := by
  have run := (timeLedger tid).account_run cpus ctx events
    (fun event member k own => by
      obtain rfl : event.cpuId = k := by simpa [switching] using own
      exact known event member)
  refine Eq.trans run ?_
  have start : ∀ cpu, switching.view ctx cpu = none := by
    intro cpu
    simp [switching, find, fresh, find_nil]
  simp only [switching_only, start, charges_record]
  rfl

end CpuContext

end LttngParallelAnalyses
