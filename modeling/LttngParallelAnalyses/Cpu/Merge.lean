import LttngParallelAnalyses.Cpu.HandleEnd

/-! A step of the reduction, CPU by CPU and process by process. The three loops of `merge`
visit every CPU record of the other context once, so each record of the result depends on
the two records of its CPU, and the straddles are those of the two contexts before the step. -/

namespace LttngParallelAnalyses
open Lib Lib.Tables Lib.KeyedFold
open scoped BigOperators

namespace CpuContext

@[simp] theorem fixCpu_id (thisCpu otherCpu : Cpu) : (fixCpu thisCpu otherCpu).id = thisCpu.id := by
  unfold fixCpu
  cases thisCpu.currentTask <;> cases otherCpu.unknownTask <;> rfl

theorem fixCpu_cpuNs (thisCpu otherCpu : Cpu) :
    (fixCpu thisCpu otherCpu).cpuNs =
      thisCpu.cpuNs + (straddle thisCpu otherCpu).elim 0 Straddle.taskTime := by
  unfold fixCpu straddle
  cases thisCpu.currentTask <;> cases otherCpu.unknownTask <;> simp [Straddle.taskTime]

/-- A task is kept where nothing in the other chunk says when it ended. -/
theorem fixCpu_currentTask (thisCpu otherCpu : Cpu) :
    (fixCpu thisCpu otherCpu).currentTask =
      if thisCpu.currentTask ≠ none ∧ otherCpu.unknownTask = none then thisCpu.currentTask
      else otherCpu.currentTask := by
  unfold fixCpu
  cases current : thisCpu.currentTask <;> cases otherCpu.unknownTask <;> simp [current]

/-- The first loop of `merge`, as local steps. -/
def adding : Keyed CpuContext Cpu UInt32 (Option Cpu) where
  step ctx otherCpu :=
    let thisCpu := ctx.getCpu otherCpu.id
    ctx.setCpu { thisCpu with cpuNs := thisCpu.cpuNs + otherCpu.cpuNs }
  key otherCpu := some otherCpu.id
  view := find
  act found otherCpu :=
    let thisCpu := found.getD { id := otherCpu.id }
    some { thisCpu with cpuNs := thisCpu.cpuNs + otherCpu.cpuNs }
  view_step ctx otherCpu k := by
    by_cases own : otherCpu.id = k
    · subst own
      rw [find_setCpu, if_pos (getCpu_id ctx otherCpu.id), if_pos rfl]
      rfl
    · rw [find_setCpu, if_neg (by rwa [getCpu_id]), if_neg (by simpa using own)]

/-- The fixing loop, as local steps. -/
def fixing : Keyed (CpuContext × List Straddle) Cpu UInt32 (Option Cpu) where
  step := fixStep
  key otherCpu := some otherCpu.id
  view state := state.1.find
  act found otherCpu := some (fixCpu (found.getD { id := otherCpu.id }) otherCpu)
  view_step state otherCpu k := by
    simp only [fixStep, find_with_tids, find_setCpu, fixCpu_id, getCpu_id, Option.some.injEq]
    by_cases own : otherCpu.id = k
    · subst own
      simp [getCpu]
    · simp [own]

/-- The record of a CPU with the time of the other record added. -/
def addTime (found : Option Cpu) (otherCpu : Cpu) : Cpu :=
  let thisCpu := found.getD { id := otherCpu.id }
  { thisCpu with cpuNs := thisCpu.cpuNs + otherCpu.cpuNs }

theorem addTime_currentTask (found : Option Cpu) (otherCpu : Cpu) :
    (addTime found otherCpu).currentTask = found.bind (·.currentTask) := by
  cases found <;> rfl

theorem addTime_cpuNs (found : Option Cpu) (otherCpu : Cpu) :
    (addTime found otherCpu).cpuNs = found.elim 0 (·.cpuNs) + otherCpu.cpuNs := by
  cases found <;> rfl

theorem find_mergeCpus (ctx : CpuContext) (others : List Cpu)
    (distinct : (others.map Cpu.id).Nodup) (k : UInt32) :
    (ctx.mergeCpus others).find k = (Tables.find Cpu.id others k).elim (ctx.find k)
      (fun otherCpu => some (addTime (ctx.find k) otherCpu)) :=
  adding.view_run_distinct Cpu.id (fun _ => rfl) ctx others distinct k

/-- The context between the merging loops and the fixing loop. -/
def merged (ctx other : CpuContext) : CpuContext :=
  let ctx := (mergeBounds ctx other).mergeCpus other.cpus
  { ctx with tids := Hash.absorb mergeProcess ctx.tids other.tids }

theorem mergeRun_eq (ctx other : CpuContext) :
    mergeRun ctx other = other.cpus.foldl fixStep (merged ctx other, []) := rfl

theorem mergeCpus_tids (ctx : CpuContext) (others : List Cpu) :
    (ctx.mergeCpus others).tids = ctx.tids := by
  unfold mergeCpus
  induction others generalizing ctx with
  | nil => rfl
  | cons otherCpu rest ih => rw [List.foldl_cons, ih, setCpu_tids]

theorem find_merged (ctx other : CpuContext) (distinct : other.Distinct)
    (k : UInt32) :
    (merged ctx other).find k = (other.find k).elim (ctx.find k)
      (fun otherCpu => some (addTime (ctx.find k) otherCpu)) :=
  find_mergeCpus (mergeBounds ctx other) other.cpus distinct k

/-- Every CPU record of the result, from the two records of that CPU. -/
theorem find_merge (ctx other : CpuContext) (distinct : other.Distinct)
    (k : UInt32) :
    (ctx.merge other).find k = (other.find k).elim (ctx.find k)
      (fun otherCpu => some (fixCpu (addTime (ctx.find k) otherCpu) otherCpu)) := by
  have run : (ctx.merge other).find k = (other.find k).elim ((merged ctx other).find k)
      (fixing.act ((merged ctx other).find k)) :=
    fixing.view_run_distinct Cpu.id (fun _ => rfl) (merged ctx other, []) other.cpus distinct k
  rw [run, find_merged ctx other distinct]
  cases other.find k <;> rfl

theorem getCpu_merged_currentTask (ctx other : CpuContext)
    (distinct : other.Distinct) (k : UInt32) :
    ((merged ctx other).getCpu k).currentTask = (ctx.find k).bind (·.currentTask) := by
  rw [getCpu_currentTask, find_merged ctx other distinct]
  cases other.find k with
  | none => rfl
  | some otherCpu => cases ctx.find k <;> rfl

theorem straddle_congr {thisCpu thisCpu' otherCpu : Cpu}
    (same : thisCpu.currentTask = thisCpu'.currentTask) :
    straddle thisCpu otherCpu = straddle thisCpu' otherCpu := by
  unfold straddle
  rw [same]

private theorem fix_log (others : List Cpu) (state : CpuContext × List Straddle) :
    (others.foldl fixStep state).2 =
      state.2 ++ fixing.readings Cpu.id (fun found otherCpu =>
        straddle (found.getD { id := otherCpu.id }) otherCpu) state others := by
  induction others generalizing state with
  | nil => exact (List.append_nil _).symm
  | cons otherCpu rest ih =>
    rw [List.foldl_cons, ih, Keyed.readings, ← List.append_assoc]
    rfl

/-- The straddles of a step: for each CPU of the other context, the task that was open
before it and the one that its chunk found already running. -/
theorem straddles_eq (ctx other : CpuContext) (distinct : other.Distinct) :
    straddles ctx other =
      other.cpus.filterMap (fun otherCpu => straddle (ctx.getCpu otherCpu.id) otherCpu) := by
  rw [straddles, mergeRun_eq, fix_log, List.nil_append,
    fixing.readings_distinct Cpu.id (fun _ => rfl) _ _ _ distinct]
  refine List.filterMap_congr (fun otherCpu _ => straddle_congr ?_)
  show ((merged ctx other).getCpu otherCpu.id).currentTask = _
  rw [getCpu_merged_currentTask ctx other distinct, getCpu_currentTask]

/-- The straddles of a merge, from the two records of their CPU. -/
theorem mem_straddles {ctx other : CpuContext} (distinct : other.Distinct) (s : Straddle) :
    s ∈ straddles ctx other ↔ (ctx.find s.cpu).bind (·.currentTask) = some s.current ∧
      (other.find s.cpu).bind (·.unknownTask) = some s.unknown := by
  rw [straddles_eq ctx other distinct, List.mem_filterMap]
  constructor
  · intro logged
    obtain ⟨otherCpu, member, split⟩ := logged
    have found : other.find otherCpu.id = some otherCpu := find_of_mem distinct member
    unfold straddle at split
    rw [getCpu_currentTask] at split
    split at split
    · rename_i current unknown running told
      rw [Option.some.injEq] at split
      rw [← split]
      exact ⟨running, by rw [found, Option.bind_some, told]⟩
    · cases split
  · intro both
    obtain ⟨running, told⟩ := both
    obtain ⟨otherCpu, found, unknown⟩ := Option.bind_eq_some_iff.mp told
    have own : otherCpu.id = s.cpu := key_of_find found
    refine ⟨otherCpu, mem_of_find found, ?_⟩
    unfold straddle
    rw [getCpu_currentTask, own, running, unknown]

/-- The matched straddles, as bills to processes. -/
def straddleBills (log : List Straddle) : List (Int32 × UInt64) :=
  log.filterMap (fun s => if s.Mismatch then none else some (s.current.tid, s.taskTime))

/-- What a straddle charges to a process. -/
def share (t : Int32) (s : Straddle) : UInt64 :=
  if s.Mismatch then 0 else if s.current.tid = t then s.taskTime else 0

theorem owed_straddleBills (t : Int32) (log : List Straddle) :
    Hash.owed t (straddleBills log) = (log.map (share t)).sum := by
  induction log with
  | nil => rfl
  | cons s rest ih =>
    rw [List.map_cons, List.sum_cons, ← ih]
    by_cases mismatch : s.Mismatch
    · simp [straddleBills, share, mismatch]
    · simp [straddleBills, share, mismatch, Hash.owed_cons]

private theorem sum_filterMap (f : Straddle → UInt64) (find : Cpu → Option Straddle)
    (cpus : List Cpu) :
    ((cpus.filterMap find).map f).sum = (cpus.map (fun cpu => (find cpu).elim 0 f)).sum := by
  induction cpus with
  | nil => rfl
  | cons cpu rest ih =>
    rw [List.map_cons, List.sum_cons, ← ih]
    cases split : find cpu <;> simp [split]

/-- A measure of the straddles of a step, CPU by CPU. -/
theorem sum_straddles (ctx : CpuContext) {other : CpuContext} (distinct : other.Distinct)
    (f : Straddle → UInt64) (cpus : Finset UInt32)
    (known : ∀ otherCpu ∈ other.cpus, otherCpu.id ∈ cpus) :
    ((straddles ctx other).map f).sum = ∑ cpu ∈ cpus, (other.find cpu).elim 0 (fun otherCpu =>
      (straddle (ctx.getCpu otherCpu.id) otherCpu).elim 0 f) := by
  rw [straddles_eq ctx other distinct, sum_filterMap]
  exact sum_eq_sum_find _ distinct cpus known

private theorem fix_tids (others : List Cpu) (state : CpuContext × List Straddle)
    (tids : Hash Int32 Process)
    (start : state.1.tids = Hash.settle Process.charge tids (straddleBills state.2)) :
    (others.foldl fixStep state).1.tids =
      Hash.settle Process.charge tids (straddleBills (others.foldl fixStep state).2) := by
  induction others generalizing state with
  | nil => exact start
  | cons otherCpu rest ih =>
    apply ih
    cases split : straddle (state.1.getCpu otherCpu.id) otherCpu with
    | none => simpa [fixStep, fixTids, split] using start
    | some s =>
      have bills : straddleBills (state.2 ++ [s]) = straddleBills state.2 ++ straddleBills [s] :=
        List.filterMap_append
      simp only [fixStep, fixTids, split, Option.toList_some, bills]
      rw [Hash.settle_append, ← start]
      by_cases matching : s.current.tid = s.unknown.tid <;>
        simp [straddleBills, Straddle.Mismatch, matching, Hash.settle]

theorem merged_tids (ctx other : CpuContext) :
    (merged ctx other).tids = Hash.absorb mergeProcess ctx.tids other.tids :=
  congrArg (fun tids => Hash.absorb mergeProcess tids other.tids)
    (mergeCpus_tids (mergeBounds ctx other) other.cpus)

/-- The process table of the result: the two tables merged, then charged with the
straddling tasks whose process is known. -/
theorem merge_tids (ctx other : CpuContext) :
    (ctx.merge other).tids =
      Hash.settle Process.charge (Hash.absorb mergeProcess ctx.tids other.tids)
        (straddleBills (straddles ctx other)) := by
  apply fix_tids other.cpus (merged ctx other, []) _
  simpa [straddleBills, Hash.settle] using merged_tids ctx other

theorem mergeProcess_cpuNs (found : Option Process) (p : Process) :
    (mergeProcess found p).cpuNs = found.elim 0 (·.cpuNs) + p.cpuNs := by
  cases found <;> simp [mergeProcess]

theorem time_merge (ctx other : CpuContext) (t : Int32) :
    (ctx.merge other).time t =
      ctx.time t + other.time t + Hash.owed t (straddleBills (straddles ctx other)) := by
  have joined : ((Hash.absorb mergeProcess ctx.tids other.tids).lookup t).elim 0 (·.cpuNs) =
      ctx.time t + other.time t := by
    rw [Hash.lookup_absorb, time, time]
    cases other.tids.lookup t with
    | none => simp
    | some p => exact mergeProcess_cpuNs _ _
  rw [time, merge_tids, Hash.lookup_settle _ Process.charge_charge, ← joined]
  by_cases named : ∃ bill ∈ straddleBills (straddles ctx other), bill.1 = t
  · rw [if_pos named, Option.elim_some]
    cases (Hash.absorb mergeProcess ctx.tids other.tids).lookup t <;> rfl
  · rw [if_neg named, Hash.owed_eq_zero (fun bill member same => named ⟨bill, member, same⟩),
      add_zero]

/-- Where the straddles charge only processes of the other table, a process is that of the
two tables joined, charged with its straddles. -/
theorem lookup_merge (ctx other : CpuContext) (t : Int32)
    (known : (∃ bill ∈ straddleBills (straddles ctx other), bill.1 = t) → t ∈ other.tids) :
    (ctx.merge other).tids.lookup t = (other.tids.lookup t).elim (ctx.tids.lookup t) (fun p =>
      some ((mergeProcess (ctx.tids.lookup t) p).charge
        (Hash.owed t (straddleBills (straddles ctx other))))) := by
  rw [merge_tids, Hash.lookup_settle _ Process.charge_charge, Hash.lookup_absorb]
  by_cases billed : ∃ bill ∈ straddleBills (straddles ctx other), bill.1 = t
  · obtain ⟨p, found⟩ := Option.isSome_iff_exists.mp (AList.lookup_isSome.mpr (known billed))
    rw [if_pos billed, found]
    rfl
  · have free : Hash.owed t (straddleBills (straddles ctx other)) = 0 :=
      Hash.owed_eq_zero (fun bill member same => billed ⟨bill, member, same⟩)
    rw [if_neg billed, free]
    simp only [Process.charge_zero]

theorem distinct_mergeCpus {ctx : CpuContext} (distinct : ctx.Distinct) (others : List Cpu) :
    (ctx.mergeCpus others).Distinct := by
  unfold mergeCpus
  induction others generalizing ctx with
  | nil => exact distinct
  | cons otherCpu rest ih => exact ih (distinct_setCpu _ distinct)

theorem distinct_merge {ctx : CpuContext} (distinct : ctx.Distinct) (other : CpuContext) :
    (ctx.merge other).Distinct := by
  have fix : ∀ (others : List Cpu) (state : CpuContext × List Straddle),
      state.1.Distinct → (others.foldl fixStep state).1.Distinct := by
    intro others
    induction others with
    | nil => exact fun state start => start
    | cons otherCpu rest ih => exact fun state start => ih _ (distinct_setCpu _ start)
  have bounds : (mergeBounds ctx other).Distinct := distinct
  exact fix other.cpus (merged ctx other, []) (distinct_mergeCpus bounds other.cpus)

end CpuContext

end LttngParallelAnalyses
