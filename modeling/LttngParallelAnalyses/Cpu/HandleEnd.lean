import LttngParallelAnalyses.Cpu.Views

/-! The end of the trace. Every task still running is charged up to the end, to its CPU
and to its process; sorting changes the order of the records only. -/

namespace LttngParallelAnalyses
open Lib Lib.Tables
open scoped BigOperators

/-- A task of that process is running. -/
def Runs (tid : Int32) (current : Option Task) : Prop := ∃ task ∈ current, task.tid = tid

instance (tid : Int32) (current : Option Task) : Decidable (Runs tid current) :=
  inferInstanceAs (Decidable (∃ task ∈ current, task.tid = tid))

/-- The time from the start of a process's running task to the end of the trace. -/
def openTime (end_ : Timestamp) (tid : Int32) (current : Option Task) : UInt64 :=
  if Runs tid current then elapsed current end_ else 0

@[simp] theorem not_runs_none (tid : Int32) : ¬ Runs tid none := by simp [Runs]

@[simp] theorem runs_some (tid : Int32) (task : Task) : Runs tid (some task) ↔ task.tid = tid := by
  simp [Runs]

@[simp] theorem openTime_none (end_ : Timestamp) (tid : Int32) : openTime end_ tid none = 0 := by
  simp [openTime]

namespace CpuContext

/-- A CPU record after the end. -/
def closeCpu (end_ : Timestamp) (cpu : Cpu) : Cpu :=
  { cpu with cpuNs := cpu.cpuNs + elapsed cpu.currentTask end_, currentTask := none }

/-- The tasks that are charged at the end, with their times. -/
def openBills (end_ : Timestamp) (cpus : List Cpu) : List (Int32 × UInt64) :=
  cpus.filterMap (fun cpu => cpu.currentTask.map (fun task => (task.tid, end_ - task.start)))

theorem patchStep_eq (end_ : Timestamp) (done : List Cpu) (tids : Hash Int32 Process) (cpu : Cpu) :
    patchStep end_ (done, tids) cpu =
      (done ++ [closeCpu end_ cpu], Hash.settle Process.charge tids (openBills end_ [cpu])) := by
  unfold patchStep closeCpu openBills elapsed
  cases current : cpu.currentTask with
  | some task => simp [current, Hash.settle]
  | none =>
    have same : cpu = { cpu with currentTask := none } := by rw [← current]
    simpa [current, Hash.settle] using same

theorem patch_eq (end_ : Timestamp) (cpus done : List Cpu) (tids : Hash Int32 Process) :
    cpus.foldl (patchStep end_) (done, tids) =
      (done ++ cpus.map (closeCpu end_),
        Hash.settle Process.charge tids (openBills end_ cpus)) := by
  induction cpus generalizing done tids with
  | nil => simp [openBills, Hash.settle]
  | cons cpu rest ih =>
    have bills : openBills end_ (cpu :: rest) = openBills end_ [cpu] ++ openBills end_ rest := by
      simp only [openBills, ← List.filterMap_append, List.singleton_append]
    rw [List.foldl_cons, patchStep_eq, ih, bills, List.append_assoc, Hash.settle_append]
    rfl

theorem handleEnd_cpus (ctx : CpuContext) :
    ctx.handleEnd.cpus.Perm (ctx.cpus.map (closeCpu ctx.end_)) := by
  rw [handleEnd, patch_eq]
  exact List.perm_insertionSort _ _

theorem handleEnd_tids (ctx : CpuContext) :
    ctx.handleEnd.tids = Hash.settle Process.charge ctx.tids (openBills ctx.end_ ctx.cpus) := by
  rw [handleEnd, patch_eq]

/-- The process list that is printed holds exactly the processes of the table. -/
theorem handleEnd_sortedTids (ctx : CpuContext) :
    ctx.handleEnd.sortedTids.Perm (ctx.handleEnd.tids.entries.map (·.2)) :=
  List.perm_insertionSort _ _

theorem map_closeCpu_id (end_ : Timestamp) (cpus : List Cpu) :
    (cpus.map (closeCpu end_)).map Cpu.id = cpus.map Cpu.id := by
  rw [List.map_map]
  rfl

theorem distinct_handleEnd {ctx : CpuContext} (distinct : ctx.Distinct) :
    ctx.handleEnd.Distinct := by
  unfold Distinct
  rw [(ctx.handleEnd_cpus.map Cpu.id).nodup_iff, map_closeCpu_id]
  exact distinct

theorem find_handleEnd {ctx : CpuContext} (distinct : ctx.Distinct) (cpu : UInt32) :
    ctx.handleEnd.find cpu = (ctx.find cpu).map (closeCpu ctx.end_) := by
  rw [find, find_perm ctx.handleEnd_cpus (distinct_handleEnd distinct),
    find_map (closeCpu ctx.end_) (fun _ => rfl)]
  rfl

theorem openBills_names {end_ : Timestamp} {cpus : List Cpu} {t : Int32} :
    (∃ bill ∈ openBills end_ cpus, bill.1 = t) ↔ ∃ cpu ∈ cpus, Runs t cpu.currentTask := by
  simp only [openBills, List.mem_filterMap, Option.map_eq_some_iff, Runs, Option.mem_def]
  constructor
  · intro billed
    obtain ⟨bill, ⟨cpu, member, task, running, rfl⟩, own⟩ := billed
    exact ⟨cpu, member, task, running, own⟩
  · intro runs
    obtain ⟨cpu, member, task, running, own⟩ := runs
    exact ⟨_, ⟨cpu, member, task, running, rfl⟩, own⟩

theorem owed_openBills (end_ : Timestamp) (cpus : List Cpu) (t : Int32) :
    Hash.owed t (openBills end_ cpus) =
      (cpus.map (fun cpu => openTime end_ t cpu.currentTask)).sum := by
  induction cpus with
  | nil => rfl
  | cons cpu rest ih =>
    rw [List.map_cons, List.sum_cons, ← ih]
    cases current : cpu.currentTask with
    | none => simp [openBills, current]
    | some task =>
      simp only [openBills, current, List.filterMap_cons, Option.map_some, Hash.owed_cons]
      by_cases own : task.tid = t <;> simp [openTime, elapsed, own]

/-- A process after the end: created if a task of it was running, and charged. -/
theorem lookup_handleEnd (ctx : CpuContext) (t : Int32) :
    ctx.handleEnd.tids.lookup t =
      if ∃ cpu ∈ ctx.cpus, Runs t cpu.currentTask then
        some (((ctx.tids.lookup t).getD default).charge
          (ctx.cpus.map (fun cpu => openTime ctx.end_ t cpu.currentTask)).sum)
      else ctx.tids.lookup t := by
  rw [handleEnd_tids, Hash.lookup_settle _ Process.charge_charge,
    owed_openBills]
  simp only [openBills_names]

theorem mem_handleEnd_tids (ctx : CpuContext) (t : Int32) :
    t ∈ ctx.handleEnd.tids ↔ (∃ cpu ∈ ctx.cpus, Runs t cpu.currentTask) ∨ t ∈ ctx.tids := by
  rw [← AList.lookup_isSome, lookup_handleEnd, ← AList.lookup_isSome]
  by_cases running : ∃ cpu ∈ ctx.cpus, Runs t cpu.currentTask <;> simp [running]

theorem time_handleEnd (ctx : CpuContext) (t : Int32) :
    ctx.handleEnd.time t = ctx.time t +
      (ctx.cpus.map (fun cpu => openTime ctx.end_ t cpu.currentTask)).sum := by
  rw [time, lookup_handleEnd]
  by_cases running : ∃ cpu ∈ ctx.cpus, Runs t cpu.currentTask
  · rw [if_pos running, Option.elim_some, time]
    cases ctx.tids.lookup t <;> rfl
  · have idle : (ctx.cpus.map (fun cpu => openTime ctx.end_ t cpu.currentTask)).sum = 0 := by
      apply List.sum_eq_zero
      intro time member
      obtain ⟨cpu, inside, rfl⟩ := List.mem_map.mp member
      exact if_neg (fun runs => running ⟨cpu, inside, runs⟩)
    rw [if_neg running, idle, add_zero]
    rfl

end CpuContext

end LttngParallelAnalyses
