import LttngParallelAnalyses.Cpu.Merge

/-! The contexts that any run of the operations reaches. Their CPU records have distinct ids and
their running tasks have tids; what `handleSchedSwitch` and `merge` enter in the process table
is stored under its own tid. `handleEnd` enters a task that was never switched out as a default
process, whose tid is that of no process. -/

namespace LttngParallelAnalyses
open Lib Lib.Tables

namespace CpuContext

/-- A run of the operations; the context merged in comes from a run of its own. -/
inductive Run where
  | fresh (start end_ : Timestamp)
  | handleSchedSwitch (run : Run) (event : EventValue)
  | merge (run other : Run)
  | handleEnd (run : Run)

namespace Run

/-- The context at the end of a run. -/
def state : Run → CpuContext
  | fresh start end_ => { start, end_ }
  | handleSchedSwitch run event => run.state.handleSchedSwitch event
  | merge run other => run.state.merge other.state
  | handleEnd run => run.state.handleEnd

/-- The contexts that a run goes through, with those of the runs merged in. -/
def states : Run → List CpuContext
  | fresh start end_ => [{ start, end_ }]
  | handleSchedSwitch run event => run.states ++ [run.state.handleSchedSwitch event]
  | merge run other => run.states ++ other.states ++ [run.state.merge other.state]
  | handleEnd run => run.states ++ [run.state.handleEnd]

theorem state_mem_states (run : Run) : run.state ∈ run.states := by
  cases run <;> simp [states, state]

end Run

/-- Every process is stored under its own tid. -/
def OwnTids (ctx : CpuContext) : Prop := ∀ t p, ctx.tids.lookup t = some p → p.tid = t

/-- Every running task belongs to a known process, or to none. -/
def KnownTasks (ctx : CpuContext) : Prop :=
  ∀ c ∈ ctx.cpus, ∀ task ∈ c.currentTask, task.tid ∈ ctx.tids ∨ task.tid = unknownTid

/-- In every run of `handleEnd` the running tasks are known. -/
def Run.EndsKnown : Run → Prop
  | fresh _ _ => True
  | handleSchedSwitch run _ => run.EndsKnown
  | merge run other => run.EndsKnown ∧ other.EndsKnown
  | handleEnd run => run.EndsKnown ∧ run.state.KnownTasks

/-! ## CPU records -/

/-- No two records have the same id, and no running task has the tid of idle. The task that a
context found running has been entered in its process table. -/
structure CpusFormed (ctx : CpuContext) : Prop where
  distinct : ctx.Distinct
  running : ∀ cpu task, (ctx.find cpu).bind (·.currentTask) = some task → task.tid ≠ 0
  found : ∀ cpu task, (ctx.find cpu).bind (·.unknownTask) = some task → task.tid ∈ ctx.tids

variable {ctx other : CpuContext}

theorem mem_switchTids (tids : Hash Int32 Process) (current : Option Task) (event : EventValue)
    (t : Int32) : t ∈ switchTids tids current event ↔ t = event.prevTid ∨ t ∈ tids := by
  rw [← AList.lookup_isSome, ← AList.lookup_isSome, lookup_switchTids]
  by_cases own : event.prevTid = t
  · simp [own]
  · simp [own, Ne.symm own]

theorem cpusFormed_fresh (start end_ : Timestamp) :
    ({ start, end_ } : CpuContext).CpusFormed where
  distinct := List.nodup_nil
  running cpu task none := by cases none
  found cpu task none := by cases none

theorem CpusFormed.handleSchedSwitch (formed : ctx.CpusFormed) (event : EventValue) :
    (ctx.handleSchedSwitch event).CpusFormed where
  distinct := distinct_setCpu _ formed.distinct
  running cpu task running := by
    rw [find_handleSchedSwitch] at running
    by_cases own : event.cpuId = cpu
    · rw [if_pos own, Option.bind_some, switchCpu_currentTask, taskAfter] at running
      by_cases idle : event.nextTid = 0
      · simp [idle] at running
      · rw [if_pos idle, Option.some.injEq] at running
        rw [← running]
        exact idle
    · rw [if_neg own] at running
      exact formed.running cpu task running
  found cpu task unknown := by
    rw [find_handleSchedSwitch] at unknown
    show task.tid ∈ switchTids _ _ _
    rw [mem_switchTids]
    by_cases own : event.cpuId = cpu
    · rw [if_pos own, Option.bind_some, switchCpu_unknownTask] at unknown
      split at unknown
      · rw [Option.some.injEq] at unknown
        exact Or.inl (by rw [← unknown])
      · right
        apply formed.found cpu task
        unfold getCpu at unknown
        cases here : ctx.find cpu with
        | none => simp [here] at unknown
        | some c => simpa [here] using unknown
    · rw [if_neg own] at unknown
      exact Or.inr (formed.found cpu task unknown)

theorem mem_merge_tids (t : Int32) (known : t ∈ ctx.tids ∨ t ∈ other.tids) :
    t ∈ (ctx.merge other).tids := by
  rw [← AList.lookup_isSome, ← AList.lookup_isSome] at known
  rw [← AList.lookup_isSome, merge_tids, Hash.lookup_settle _ Process.charge_charge,
    Hash.lookup_absorb]
  split
  · rfl
  · cases there : other.tids.lookup t with
    | none => simpa [there] using known
    | some p => rfl

theorem fixCpu_unknownTask (thisCpu otherCpu : Cpu) :
    (fixCpu thisCpu otherCpu).unknownTask = thisCpu.unknownTask := by
  unfold fixCpu
  cases thisCpu.currentTask <;> cases otherCpu.unknownTask <;> rfl

theorem addTime_unknownTask (found : Option Cpu) (otherCpu : Cpu) :
    (addTime found otherCpu).unknownTask = found.bind (·.unknownTask) := by
  cases found <;> rfl

theorem CpusFormed.merge (formed : ctx.CpusFormed) (formed' : other.CpusFormed) :
    (ctx.merge other).CpusFormed where
  distinct := distinct_merge formed.distinct other
  running cpu task running := by
    rw [find_merge ctx other formed'.distinct] at running
    cases there : other.find cpu with
    | none =>
      rw [there, Option.elim_none] at running
      exact formed.running cpu task running
    | some otherCpu =>
      rw [there, Option.elim_some, Option.bind_some, fixCpu_currentTask, addTime_currentTask]
        at running
      split at running
      · exact formed.running cpu task running
      · exact formed'.running cpu task (by rw [there]; exact running)
  found cpu task unknown := by
    apply mem_merge_tids
    left
    apply formed.found cpu task
    rw [find_merge ctx other formed'.distinct] at unknown
    cases there : other.find cpu with
    | none => rwa [there] at unknown
    | some otherCpu =>
      rwa [there, Option.elim_some, Option.bind_some, fixCpu_unknownTask, addTime_unknownTask]
        at unknown

theorem CpusFormed.handleEnd (formed : ctx.CpusFormed) : ctx.handleEnd.CpusFormed where
  distinct := distinct_handleEnd formed.distinct
  running cpu task running := by
    rw [find_handleEnd formed.distinct] at running
    cases here : ctx.find cpu <;> simp [here, closeCpu] at running
  found cpu task unknown := by
    rw [mem_handleEnd_tids]
    right
    apply formed.found cpu task
    rw [find_handleEnd formed.distinct] at unknown
    cases here : ctx.find cpu with
    | none => simp [here] at unknown
    | some c => simpa [here, closeCpu] using unknown

theorem Run.state_formed (run : Run) : run.state.CpusFormed := by
  induction run with
  | fresh start end_ => exact cpusFormed_fresh start end_
  | handleSchedSwitch run event ih => exact ih.handleSchedSwitch event
  | merge run other ih ih' => exact ih.merge ih'
  | handleEnd run ih => exact ih.handleEnd

theorem Run.states_formed (run : Run) : ∀ ctx ∈ run.states, ctx.CpusFormed := by
  induction run with
  | fresh start end_ =>
    intro ctx member
    obtain rfl := List.mem_singleton.mp member
    exact cpusFormed_fresh start end_
  | handleSchedSwitch run event ih =>
    intro ctx member
    rcases List.mem_append.mp member with before | last
    · exact ih ctx before
    · obtain rfl := List.mem_singleton.mp last
      exact (run.handleSchedSwitch event).state_formed
  | merge run other ih ih' =>
    intro ctx member
    rcases List.mem_append.mp member with before | last
    · rcases List.mem_append.mp before with own | others
      · exact ih ctx own
      · exact ih' ctx others
    · obtain rfl := List.mem_singleton.mp last
      exact (run.merge other).state_formed
  | handleEnd run ih =>
    intro ctx member
    rcases List.mem_append.mp member with before | last
    · exact ih ctx before
    · obtain rfl := List.mem_singleton.mp last
      exact run.handleEnd.state_formed

/-! ## The process table -/

theorem ownTids_fresh (start end_ : Timestamp) : ({ start, end_ } : CpuContext).OwnTids := by
  intro t p found
  cases found

theorem OwnTids.handleSchedSwitch (own : ctx.OwnTids) (event : EventValue) :
    (ctx.handleSchedSwitch event).OwnTids := by
  intro t p found
  change (switchTids _ _ _).lookup t = some p at found
  rw [lookup_switchTids] at found
  by_cases prev : event.prevTid = t
  · rw [if_pos prev, Option.some.injEq] at found
    rw [← found]
    cases here : ctx.tids.lookup t with
    | none => rfl
    | some q => exact own t q here
  · rw [if_neg prev] at found
    exact own t p found

/-- What a merge charges, it charges to a process of the other table: the task that the other
context found running was entered there. -/
theorem CpusFormed.billed (formed : other.CpusFormed) (ctx : CpuContext) (t : Int32)
    (billed : ∃ bill ∈ straddleBills (straddles ctx other), bill.1 = t) : t ∈ other.tids := by
  obtain ⟨bill, member, rfl⟩ := billed
  obtain ⟨s, logged, matched⟩ := List.mem_filterMap.mp member
  rw [straddles_eq ctx other formed.distinct] at logged
  obtain ⟨otherCpu, inside, split⟩ := List.mem_filterMap.mp logged
  unfold straddle at split
  cases current : (ctx.getCpu otherCpu.id).currentTask with
  | none => simp [current] at split
  | some running =>
    cases unknown : otherCpu.unknownTask with
    | none => simp [current, unknown] at split
    | some task =>
      simp only [current, unknown, Option.some.injEq] at split
      have entered := formed.found otherCpu.id task (by
        rw [find, find_of_mem formed.distinct inside]
        exact unknown)
      by_cases mismatch : s.Mismatch
      · simp [mismatch] at matched
      · rw [if_neg mismatch, Option.some.injEq] at matched
        have same : s.current.tid = s.unknown.tid := not_not.mp mismatch
        rw [← matched, same, ← split]
        exact entered

theorem OwnTids.merge (own : ctx.OwnTids) (own' : other.OwnTids) (formed : other.CpusFormed) :
    (ctx.merge other).OwnTids := by
  intro t p found
  rw [lookup_merge ctx other t (formed.billed ctx t)] at found
  cases there : other.tids.lookup t with
  | none =>
    rw [there] at found
    exact own t p found
  | some q =>
    rw [there, Option.elim_some, Option.some.injEq] at found
    rw [← found]
    cases here : ctx.tids.lookup t with
    | none => exact own' t q there
    | some r => exact own t r here

/-- The end keeps the table right exactly where the running tasks are known. -/
theorem ownTids_handleEnd_iff (own : ctx.OwnTids) : ctx.handleEnd.OwnTids ↔ ctx.KnownTasks := by
  constructor
  · intro ended c member task running
    by_contra unknown
    obtain ⟨absent, named⟩ := not_or.mp unknown
    have runs : ∃ cpu ∈ ctx.cpus, Runs task.tid cpu.currentTask := ⟨c, member, task, running, rfl⟩
    have entered := lookup_handleEnd ctx task.tid
    rw [if_pos runs, AList.lookup_eq_none.mpr absent, Option.getD_none] at entered
    exact named (ended task.tid _ entered).symm
  · intro known t p found
    rw [lookup_handleEnd] at found
    split at found
    · rename_i runs
      obtain ⟨c, member, task, running, rfl⟩ := runs
      rw [Option.some.injEq] at found
      rw [← found]
      cases here : ctx.tids.lookup task.tid with
      | some q => exact own task.tid q here
      | none =>
        have absent : task.tid ∉ ctx.tids := AList.lookup_eq_none.mp here
        exact ((known c member task running).resolve_left absent).symm
    · exact own t p found

theorem Run.state_ownTids {run : Run} (known : run.EndsKnown) : run.state.OwnTids := by
  induction run with
  | fresh start end_ => exact ownTids_fresh start end_
  | handleSchedSwitch run event ih => exact (ih known).handleSchedSwitch event
  | merge run other ih ih' => exact (ih known.1).merge (ih' known.2) other.state_formed
  | handleEnd run ih => exact (ownTids_handleEnd_iff (ih known.1)).mpr known.2

/-- A run keeps every process under its own tid exactly where its ends know the running tasks. -/
theorem Run.states_ownTids_iff (run : Run) : (∀ ctx ∈ run.states, ctx.OwnTids) ↔ run.EndsKnown := by
  induction run with
  | fresh start end_ => simpa [states, EndsKnown] using ownTids_fresh start end_
  | handleSchedSwitch run event ih =>
    rw [states, List.forall_mem_append, ih, List.forall_mem_singleton]
    have step : run.EndsKnown → run.state.OwnTids := state_ownTids
    exact ⟨fun both => both.1, fun known => ⟨known, (step known).handleSchedSwitch event⟩⟩
  | merge run other ih ih' =>
    rw [states, List.forall_mem_append, List.forall_mem_append, ih, ih', List.forall_mem_singleton]
    exact ⟨fun both => both.1, fun known =>
      ⟨known, (state_ownTids known.1).merge (state_ownTids known.2) other.state_formed⟩⟩
  | handleEnd run ih =>
    rw [states, List.forall_mem_append, ih, List.forall_mem_singleton]
    constructor
    · intro both
      exact ⟨both.1, (ownTids_handleEnd_iff (state_ownTids both.1)).mp both.2⟩
    · intro both
      exact ⟨both.1, (ownTids_handleEnd_iff (state_ownTids both.1)).mpr both.2⟩

/-- Every printed process is printed under the tid that it is stored under. -/
theorem printed_own (ended : ctx.handleEnd.OwnTids) :
    ∀ p ∈ ctx.handleEnd.sortedTids, ctx.handleEnd.tids.lookup p.tid = some p := by
  intro p printed
  rw [ctx.handleEnd_sortedTids.mem_iff] at printed
  obtain ⟨entry, member, rfl⟩ := List.mem_map.mp printed
  have stored : ctx.handleEnd.tids.lookup entry.1 = some entry.2 := AList.mem_lookup_iff.mpr member
  rwa [ended entry.1 entry.2 stored]

/-- In every run the CPU records are well formed. Every process is stored, and then printed,
under its own tid exactly where each end of the run finds only known tasks running. -/
theorem reachable_formed_iff (run : Run) :
    (∀ ctx ∈ run.states, ctx.Distinct ∧ ∀ c ∈ ctx.cpus, ∀ task ∈ c.currentTask, task.tid ≠ 0) ∧
    ((∀ ctx ∈ run.states, ctx.OwnTids) ↔ run.EndsKnown) ∧
    (run.handleEnd.EndsKnown → ∀ p ∈ run.handleEnd.state.sortedTids,
      run.handleEnd.state.tids.lookup p.tid = some p) := by
  refine ⟨fun ctx member => ?_, run.states_ownTids_iff, fun known => ?_⟩
  · have formed := run.states_formed ctx member
    refine ⟨formed.distinct, fun c inside task running => ?_⟩
    apply formed.running c.id task
    rw [find, find_of_mem formed.distinct inside]
    exact running
  · exact printed_own (Run.state_ownTids known)

/-- A task that is switched in and never out. -/
def neverOut : Run := (Run.fresh 0 20).handleSchedSwitch { timestamp := 10, nextTid := 5 }

theorem reachable_misnamed :
    ¬ (∀ run : Run, ∀ ctx ∈ run.states, ctx.OwnTids) ∧
      (neverOut.handleEnd.state.tids.lookup 5).map (·.tid) = some (-1) := by
  constructor
  · intro every
    have wrong := every neverOut.handleEnd _ neverOut.handleEnd.state_mem_states 5
      { cpuNs := 10 } (by decide)
    exact absurd wrong (by decide)
  · decide

end CpuContext

end LttngParallelAnalyses
