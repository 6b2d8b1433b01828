import LttngParallelAnalyses.Cpu.Bounds
import LttngParallelAnalyses.Cpu.Parallel
import LttngParallelAnalyses.Lib.Ranking

/-! The printed tables of the CPU analysis. `std::sort` and the hash leave the order of equal times
open, so one run may print several reports; those of a parallel and of a serial run have the same
percentages in the same lines, and the same processes above the ties of the last line. -/

namespace LttngParallelAnalyses
open Lib Lib.Tables CpuContext Lib.Ranking

/-- The lines of the two tables: a name and a percentage. -/
structure CpuReport where
  cpus : List (String × String)
  processes : List (String × String)
  deriving DecidableEq, Repr

namespace CpuAnalysis

def cpuName (id : UInt32) : String := "CPU " ++ toString id

def processName (process : Process) : String :=
  process.comm ++ " (" ++ toString process.tid ++ ")"

/-- The division and its format are those of doubles; the product is one of 64-bit numbers. -/
def printResults (percentage : UInt64 → UInt64 → String) (data : CpuContext) : CpuReport :=
  let total := data.end_ - data.start
  { cpus := data.cpus.map (fun cpu => (cpuName cpu.id, percentage (cpu.cpuNs * 100) total))
    -- Print out top 10 processes
    processes := (data.sortedTids.take 10).map (fun process =>
      (processName process, percentage (process.cpuNs * 100) total)) }

/-- The data with equal times in another order. -/
structure Reordered (data ended : CpuContext) : Prop where
  cpus : ended.cpus.Perm data.cpus
  cpusRanked : Ranked Cpu.cpuNs ended.cpus
  processes : ended.sortedTids.Perm (data.tids.entries.map (·.2))
  processesRanked : Ranked Process.cpuNs ended.sortedTids
  start : ended.start = data.start
  end_ : ended.end_ = data.end_

/-- The reports that the data may be printed as. -/
def Prints (percentage : UInt64 → UInt64 → String) (data : CpuContext) (report : CpuReport) : Prop :=
  ∃ ended, Reordered data ended ∧ report = printResults percentage ended

/-- The line of a process in the data. -/
def line (percentage : UInt64 → UInt64 → String) (data : CpuContext) (process : Process) :
    String × String := (processName process, percentage (process.cpuNs * 100) data.total)

/-- `handleEnd` itself gives one of the orders. -/
theorem reordered_handleEnd (ctx : CpuContext) : Reordered ctx.handleEnd ctx.handleEnd where
  cpus := List.Perm.rfl
  cpusRanked := ranked_rank _ _
  processes := handleEnd_sortedTids ctx
  processesRanked := ranked_rank _ _
  start := rfl
  end_ := rfl

theorem prints_handleEnd (percentage : UInt64 → UInt64 → String) (ctx : CpuContext) :
    Prints percentage ctx.handleEnd (printResults percentage ctx.handleEnd) :=
  ⟨_, reordered_handleEnd ctx, rfl⟩

variable {percentage : UInt64 → UInt64 → String} {data serial ended ended' : CpuContext}

theorem Reordered.total (reordered : Reordered data ended) : ended.total = data.total := by
  rw [CpuContext.total, CpuContext.total, reordered.start, reordered.end_]

/-! ## Columns -/

theorem cpuTimes_perm (same : SameTimes data serial) (reordered : Reordered data ended)
    (reordered' : Reordered serial ended') : ended.cpuTimes.Perm ended'.cpuTimes :=
  ((reordered.cpus.map _).trans same.cpus).trans (reordered'.cpus.map _).symm

theorem cpuNs_eq (same : SameTimes data serial) (reordered : Reordered data ended)
    (reordered' : Reordered serial ended') :
    ended.cpus.map Cpu.cpuNs = ended'.cpus.map Cpu.cpuNs := by
  apply reordered.cpusRanked.map_eq reordered'.cpusRanked
  have times := (cpuTimes_perm same reordered reordered').map Prod.snd
  rw [cpuTimes, cpuTimes, List.map_map, List.map_map] at times
  exact times

/-- The times that a table holds, whatever the names. -/
theorem lookup_cpuNs (same : SameTimes data serial) (t : Int32) :
    (data.tids.lookup t).map Process.cpuNs = (serial.tids.lookup t).map Process.cpuNs := by
  have key := same.keys t
  have charged := same.times t
  rw [← AList.lookup_isSome, ← AList.lookup_isSome] at key
  unfold CpuContext.time at charged
  cases here : data.tids.lookup t with
  | none =>
    cases there : serial.tids.lookup t with
    | none => rfl
    | some q => simp [here, there] at key
  | some p =>
    cases there : serial.tids.lookup t with
    | none => simp [here, there] at key
    | some q =>
      rw [here, there] at charged
      exact congrArg some charged

theorem processTimes_perm (same : SameTimes data serial) (reordered : Reordered data ended)
    (reordered' : Reordered serial ended') :
    (ended.sortedTids.map Process.cpuNs).Perm (ended'.sortedTids.map Process.cpuNs) := by
  have values := Hash.values_perm Process.cpuNs (lookup_cpuNs same)
  have left := reordered.processes.map Process.cpuNs
  have right := reordered'.processes.map Process.cpuNs
  rw [List.map_map] at left right
  exact (left.trans values).trans right.symm

/-- Two runs with the same times and the same total print the same percentages in the same lines,
and the same CPUs. -/
theorem columns_agree {report report' : CpuReport} (same : SameTimes data serial)
    (total : data.total = serial.total) (prints : Prints percentage data report)
    (prints' : Prints percentage serial report') :
    report.cpus.map Prod.snd = report'.cpus.map Prod.snd ∧
    report.cpus.Perm report'.cpus ∧
    report.processes.map Prod.snd = report'.processes.map Prod.snd := by
  obtain ⟨ended, reordered, rfl⟩ := prints
  obtain ⟨ended', reordered', rfl⟩ := prints'
  have totals : ended.end_ - ended.start = serial.total :=
    reordered.total.trans total
  have totals' : ended'.end_ - ended'.start = serial.total := reordered'.total
  unfold printResults
  rw [totals, totals']
  refine ⟨?_, ?_, ?_⟩
  · have column := congrArg (List.map (fun ns => percentage (ns * 100) serial.total))
      (cpuNs_eq same reordered reordered')
    rw [List.map_map, List.map_map] at column ⊢
    exact column
  · have rows := (cpuTimes_perm same reordered reordered').map
      (fun pair => (cpuName pair.1, percentage (pair.2 * 100) serial.total))
    rw [cpuTimes, cpuTimes, List.map_map, List.map_map] at rows
    exact rows
  · have column := congrArg (List.map (fun ns => percentage (ns * 100) serial.total))
      (reordered.processesRanked.take_map_eq reordered'.processesRanked
        (processTimes_perm same reordered reordered') 10)
    rw [List.map_map, List.map_map] at column ⊢
    exact column

/-! ## Processes -/

theorem sameTimes_of_sameResults (same : SameResults data serial) : SameTimes data serial where
  cpus := same.cpus
  keys t := by rw [← AList.lookup_isSome, ← AList.lookup_isSome, same.tids]
  times t := by rw [CpuContext.time, CpuContext.time, same.tids]

theorem sortedTids_perm (same : SameResults data serial) (reordered : Reordered data ended)
    (reordered' : Reordered serial ended') : ended.sortedTids.Perm ended'.sortedTids := by
  have values : (data.tids.entries.map (·.2)).Perm (serial.tids.entries.map (·.2)) :=
    Hash.values_perm id (fun t => congrArg _ (same.tids t))
  exact (reordered.processes.trans values).trans reordered'.processes.symm

theorem Reordered.mem_sortedTids (reordered : Reordered data ended) {t : Int32} {p : Process}
    (found : data.tids.lookup t = some p) : p ∈ ended.sortedTids := by
  rw [reordered.processes.mem_iff]
  exact List.mem_map.mpr ⟨⟨t, p⟩, AList.mem_lookup_iff.mp found, rfl⟩

/-- Two runs with the same results and the same total print both every process that is among the ten
first when all ties are lost. -/
theorem processes_agree {report report' : CpuReport} (same : SameResults data serial)
    (total : data.total = serial.total) (prints : Prints percentage data report)
    (prints' : Prints percentage serial report') {t : Int32} {p : Process}
    (found : serial.tids.lookup t = some p)
    (high : standing Process.cpuNs p.cpuNs (serial.tids.entries.map (·.2)) ≤ 10) :
    line percentage serial p ∈ report.processes ∧ line percentage serial p ∈ report'.processes := by
  obtain ⟨ended, reordered, rfl⟩ := prints
  obtain ⟨ended', reordered', rfl⟩ := prints'
  have totals : ended.end_ - ended.start = serial.total :=
    reordered.total.trans total
  have totals' : ended'.end_ - ended'.start = serial.total := reordered'.total
  have processes := sortedTids_perm same reordered reordered'
  unfold printResults
  rw [totals, totals']
  have member' := reordered'.mem_sortedTids found
  rw [← standing_perm reordered'.processes] at high
  have early' := reordered'.processesRanked.mem_take member' high
  rw [← standing_perm processes] at high
  have early := reordered.processesRanked.mem_take (processes.mem_iff.mpr member') high
  exact ⟨List.mem_map_of_mem early, List.mem_map_of_mem early'⟩

end CpuAnalysis

/-- What an unbalanced parallel run prints for a chained trace that does not begin at 0 agrees with
what a serial run prints, for any number of threads. -/
theorem unbalanced_report_agrees {percentage : UInt64 → UInt64 → String} {set : TraceSet}
    {threads : Nat} {data serial : CpuContext} {report report' : CpuReport}
    (chained : Chained (schedSwitches set set.events)) (nonzero : set.getBegin ≠ 0)
    (le : set.getBegin ≤ set.getEnd) (below : set.getEnd < maxTimestamp)
    (some_thread : 0 < threads) (fits : threads < 2 ^ 64)
    (run : DoExecuteParallelUnbalanced cpuAnalysis set threads data)
    (serialRun : CpuAnalysis.doExecuteSerial set = some serial)
    (prints : CpuAnalysis.Prints percentage data report)
    (prints' : CpuAnalysis.Prints percentage serial report') :
    report.cpus.map Prod.snd = report'.cpus.map Prod.snd ∧
    report.cpus.Perm report'.cpus ∧
    report.processes.map Prod.snd = report'.processes.map Prod.snd ∧
    ∀ t p, serial.tids.lookup t = some p →
      standing Process.cpuNs p.cpuNs (serial.tids.entries.map (·.2)) ≤ 10 →
      CpuAnalysis.line percentage serial p ∈ report.processes ∧
        CpuAnalysis.line percentage serial p ∈ report'.processes := by
  have present : ¬ getEventId set "sched_switch" < 0 := by
    intro missing
    simp [CpuAnalysis.doExecuteSerial, missing] at serialRun
  obtain ⟨serial', made, same⟩ :=
    unbalanced_agrees_serial present chained le below some_thread fits run
  obtain rfl : serial' = serial := Option.some.inj (made.symm.trans serialRun)
  have inside : set.getBegin ≠ maxTimestamp := (le.trans_lt below).ne
  have total := (unbalanced_total_iff le some_thread fits serialRun run).mpr
    (Or.inr ⟨nonzero, inside⟩)
  have columns := CpuAnalysis.columns_agree (CpuAnalysis.sameTimes_of_sameResults same) total prints
    prints'
  exact ⟨columns.1, columns.2.1, columns.2.2,
    fun t p found high => CpuAnalysis.processes_agree same total prints prints' found high⟩

/-- A task that runs across the cut between two threads. -/
def switchTrace : TraceSet :=
  TraceSet.ofEvents [⟨"lttng-kernel", [("sched_switch", 0)]⟩]
    [{ timestamp := 12, nextTid := 5 }, { timestamp := 18, prevTid := 5, prevComm := "cat" }] 10 20
    (by decide) (by decide) (by decide)

theorem unbalanced_report_agrees_switchTrace :
    let share := fun part total : UInt64 => toString part ++ "/" ++ toString total
    let run := (unbalancedWorkers switchTrace 2).map cpuAnalysis.doMap
    let parallel := (run.foldl cpuAnalysis.doReduce cpuAnalysis.initial).handleEnd
    let serial := (CpuContext.ofEvents switchTrace.events 10 20).handleEnd
    (CpuAnalysis.printResults share parallel).cpus.map Prod.snd =
        (CpuAnalysis.printResults share serial).cpus.map Prod.snd ∧
      (CpuAnalysis.printResults share parallel).processes.map Prod.snd =
        (CpuAnalysis.printResults share serial).processes.map Prod.snd := by
  intro share run parallel serial
  have serialRun : CpuAnalysis.doExecuteSerial switchTrace = some serial := rfl
  have agree := unbalanced_report_agrees (by decide) (by decide) (by decide) (by decide)
    (by decide : 0 < 2) (by decide) ⟨_, rfl, rfl⟩ serialRun
    (CpuAnalysis.prints_handleEnd share _) (CpuAnalysis.prints_handleEnd share _)
  exact ⟨agree.1, agree.2.2.1⟩

end LttngParallelAnalyses
