import LttngParallelAnalyses.Cpu.Analysis

/-! Conservation of CPU time. Every operation adds the same amount to the CPU records and
to the process table, except that a mismatched straddle is added to a CPU only. -/

namespace LttngParallelAnalyses
open Lib Lib.Tables

namespace CpuContext

def cpuTotal (ctx : CpuContext) : UInt64 := (ctx.cpus.map (·.cpuNs)).sum

def tidTotal (ctx : CpuContext) : UInt64 := Hash.total Process.cpuNs ctx.tids

/-- The time on CPUs that no process was charged. -/
def imbalance (ctx : CpuContext) : UInt64 := ctx.cpuTotal - ctx.tidTotal

def mismatchTime (log : List Straddle) : UInt64 :=
  ((log.filter (fun s => s.Mismatch)).map Straddle.taskTime).sum

theorem mismatchTime_append (first second : List Straddle) :
    mismatchTime (first ++ second) = mismatchTime first + mismatchTime second := by
  simp [mismatchTime]

theorem cpuTotal_setCpu (ctx : CpuContext) (c : Cpu) (time : UInt64)
    (adds : c.cpuNs = (ctx.getCpu c.id).cpuNs + time) :
    (ctx.setCpu c).cpuTotal = ctx.cpuTotal + time := by
  have before : (Tables.find Cpu.id ctx.cpus c.id).elim 0 (·.cpuNs) = (ctx.getCpu c.id).cpuNs :=
    (getD_cpuNs _ c.id).symm
  rw [cpuTotal, setCpu, sum_put, before, adds, cpuTotal]
  abel

theorem charge_adds (time : UInt64) (p : Process) : (p.charge time).cpuNs = p.cpuNs + time := rfl

theorem total_charge (tids : Hash Int32 Process) (t : Int32) (time : UInt64) :
    Hash.total Process.cpuNs (Hash.modify tids t (Process.charge time)) =
      Hash.total Process.cpuNs tids + time :=
  Hash.total_modify Process.cpuNs tids t _ time rfl (charge_adds time)

/-! ## Switches -/

theorem total_switchTids (tids : Hash Int32 Process) (current : Option Task) (event : EventValue) :
    Hash.total Process.cpuNs (switchTids tids current event) =
      Hash.total Process.cpuNs tids + elapsed current event.timestamp := by
  -- naming the process leaves the total alone, whether it is new or not
  have naming : Hash.total Process.cpuNs
      (if event.prevTid ∈ tids then
        Hash.modify tids event.prevTid (fun p => { p with comm := event.prevComm })
      else AList.insert event.prevTid { comm := event.prevComm, tid := event.prevTid } tids) =
      Hash.total Process.cpuNs tids := by
    by_cases known : event.prevTid ∈ tids
    · have renamed := Hash.total_modify Process.cpuNs tids event.prevTid
        (fun p => { p with comm := event.prevComm }) 0 rfl (fun p => (add_zero p.cpuNs).symm)
      rw [if_pos known, renamed, add_zero]
    · rw [if_neg known, Hash.total_insert, AList.lookup_eq_none.mpr known]
      simp
  unfold switchTids
  cases current with
  | none => exact naming.trans (add_zero _).symm
  | some task =>
    rw [← naming]
    exact total_charge _ _ _

theorem cpuTotal_handleSchedSwitch (ctx : CpuContext) (event : EventValue) :
    (ctx.handleSchedSwitch event).cpuTotal =
      ctx.cpuTotal + elapsed (ctx.getCpu event.cpuId).currentTask event.timestamp := by
  apply cpuTotal_setCpu
  rw [switchCpu_cpuNs, switchCpu_id, getCpu_id]

theorem imbalance_handleSchedSwitch (ctx : CpuContext) (event : EventValue) :
    (ctx.handleSchedSwitch event).imbalance = ctx.imbalance := by
  have tids : (ctx.handleSchedSwitch event).tidTotal =
      ctx.tidTotal + elapsed (ctx.getCpu event.cpuId).currentTask event.timestamp :=
    total_switchTids ctx.tids _ event
  rw [imbalance, imbalance, cpuTotal_handleSchedSwitch, tids]
  abel

theorem imbalance_ofEvents (events : List EventValue) (start end_ : Timestamp) :
    (ofEvents events start end_).imbalance = 0 := by
  unfold ofEvents handle
  induction events using List.reverseRecOn with
  | nil => exact sub_self 0
  | append_singleton events event ih => rw [List.foldl_concat, imbalance_handleSchedSwitch, ih]

/-! ## Merging -/

theorem cpuTotal_mergeCpus (ctx : CpuContext) (others : List Cpu) :
    (ctx.mergeCpus others).cpuTotal = ctx.cpuTotal + (others.map (·.cpuNs)).sum := by
  unfold mergeCpus
  induction others generalizing ctx with
  | nil => exact (add_zero _).symm
  | cons otherCpu rest ih =>
    have step := cpuTotal_setCpu ctx
      { ctx.getCpu otherCpu.id with cpuNs := (ctx.getCpu otherCpu.id).cpuNs + otherCpu.cpuNs }
      otherCpu.cpuNs (by rw [getCpu_id])
    rw [List.foldl_cons, ih, step, List.map_cons, List.sum_cons, add_assoc]

theorem cpuTotal_merged (ctx other : CpuContext) :
    (merged ctx other).cpuTotal = ctx.cpuTotal + other.cpuTotal :=
  cpuTotal_mergeCpus (mergeBounds ctx other) other.cpus

theorem imbalance_merged (ctx other : CpuContext) :
    (merged ctx other).imbalance = ctx.imbalance + other.imbalance := by
  have tids : (merged ctx other).tidTotal = ctx.tidTotal + other.tidTotal := by
    rw [tidTotal, merged_tids]
    exact Hash.total_absorb Process.cpuNs mergeProcess mergeProcess_cpuNs _ _
  rw [imbalance, cpuTotal_merged, tids, imbalance, imbalance]
  abel

theorem cpuTotal_fixStep (state : CpuContext × List Straddle) (otherCpu : Cpu) :
    (fixStep state otherCpu).1.cpuTotal = state.1.cpuTotal +
      (straddle (state.1.getCpu otherCpu.id) otherCpu).elim 0 Straddle.taskTime := by
  apply cpuTotal_setCpu
  rw [fixCpu_cpuNs, fixCpu_id, getCpu_id]

theorem imbalance_fixStep (state : CpuContext × List Straddle) (otherCpu : Cpu) :
    (fixStep state otherCpu).1.imbalance - mismatchTime (fixStep state otherCpu).2 =
      state.1.imbalance - mismatchTime state.2 := by
  have tids : (fixStep state otherCpu).1.tidTotal =
      Hash.total Process.cpuNs
        (fixTids state.1.tids (state.1.getCpu otherCpu.id) otherCpu) := rfl
  have log : mismatchTime (fixStep state otherCpu).2 = mismatchTime state.2 +
      mismatchTime (straddle (state.1.getCpu otherCpu.id) otherCpu).toList :=
    mismatchTime_append _ _
  rw [imbalance, cpuTotal_fixStep, tids, log, imbalance, tidTotal, fixTids]
  cases split : straddle (state.1.getCpu otherCpu.id) otherCpu with
  | none => simp [mismatchTime]
  | some s =>
    by_cases matching : s.current.tid = s.unknown.tid
    · simp [matching, total_charge, mismatchTime, Straddle.Mismatch]
    · simp only [matching, if_false, Option.elim_some, Option.toList_some, mismatchTime,
        Straddle.Mismatch, ne_eq, not_false_eq_true, decide_true, List.filter_cons_of_pos,
        List.filter_nil, List.map_cons, List.map_nil, List.sum_cons, List.sum_nil]
      abel

/-- A step of the reduction adds the imbalances, and the mismatched straddles. -/
theorem imbalance_merge (ctx other : CpuContext) :
    (ctx.merge other).imbalance =
      ctx.imbalance + other.imbalance + mismatchTime (straddles ctx other) := by
  have fix : ∀ (others : List Cpu) (state : CpuContext × List Straddle),
      (others.foldl fixStep state).1.imbalance - mismatchTime (others.foldl fixStep state).2 =
        state.1.imbalance - mismatchTime state.2 := by
    intro others
    induction others with
    | nil => exact fun _ => rfl
    | cons otherCpu rest ih => exact fun state => (ih _).trans (imbalance_fixStep state otherCpu)
  have run := fix other.cpus (merged ctx other, [])
  rw [← mergeRun_eq, imbalance_merged] at run
  have none_yet : mismatchTime [] = 0 := rfl
  rw [none_yet, sub_zero] at run
  rw [merge, straddles, ← run]
  abel

theorem imbalance_foldl_merge (contexts : List CpuContext) (ctx : CpuContext)
    (balanced : ∀ other ∈ contexts, other.imbalance = 0) :
    (contexts.foldl merge ctx).imbalance =
      ctx.imbalance + mismatchTime (reduceStraddles ctx contexts) := by
  induction contexts generalizing ctx with
  | nil => exact (add_zero _).symm
  | cons other rest ih =>
    have later := ih (ctx.merge other) (fun later member => balanced later (by simp [member]))
    calc ((other :: rest).foldl merge ctx).imbalance
        = (ctx.merge other).imbalance + mismatchTime (reduceStraddles (ctx.merge other) rest) :=
          later
      _ = ctx.imbalance + mismatchTime (straddles ctx other) +
            mismatchTime (reduceStraddles (ctx.merge other) rest) := by
          rw [imbalance_merge, balanced other (by simp), add_zero]
      _ = ctx.imbalance + mismatchTime (reduceStraddles ctx (other :: rest)) := by
          rw [reduceStraddles, mismatchTime_append, add_assoc]

/-! ## The end -/

theorem cpuTotal_handleEnd (ctx : CpuContext) :
    ctx.handleEnd.cpuTotal = ctx.cpuTotal + ((openBills ctx.end_ ctx.cpus).map (·.2)).sum := by
  have opened : ∀ cpus : List Cpu,
      ((cpus.map (closeCpu ctx.end_)).map (·.cpuNs)).sum =
        (cpus.map (·.cpuNs)).sum + ((openBills ctx.end_ cpus).map (·.2)).sum := by
    intro cpus
    induction cpus with
    | nil => rfl
    | cons cpu rest ih =>
      rw [List.map_cons, List.map_cons, List.sum_cons, ih, List.map_cons, List.sum_cons]
      cases current : cpu.currentTask with
      | none => simp [openBills, closeCpu, current, elapsed, add_assoc]
      | some task =>
        simp only [openBills, closeCpu, current, elapsed, List.filterMap_cons, Option.map_some,
          Option.elim_some, List.map_cons, List.sum_cons]
        abel
  rw [cpuTotal, (ctx.handleEnd_cpus.map (·.cpuNs)).sum_eq]
  exact opened ctx.cpus

theorem imbalance_handleEnd (ctx : CpuContext) : ctx.handleEnd.imbalance = ctx.imbalance := by
  have tids : ctx.handleEnd.tidTotal =
      ctx.tidTotal + ((openBills ctx.end_ ctx.cpus).map (·.2)).sum := by
    rw [tidTotal, handleEnd_tids]
    exact Hash.total_settle Process.charge Process.cpuNs rfl charge_adds _ _
  rw [imbalance, cpuTotal_handleEnd, tids, imbalance]
  abel

/-- The time on CPUs that no process was charged is the time of the mismatched straddles:
there is none in a serial run, nor in a parallel run without a mismatch. -/
theorem time_conserved (chunks : List Chunk) (events : List EventValue) (begin_ end_ : Timestamp) :
    (reduce chunks).handleEnd.cpuTotal - (reduce chunks).handleEnd.tidTotal =
      mismatchTime (reduceStraddles {} (chunks.map ofChunk)) ∧
    (ofEvents events begin_ end_).handleEnd.cpuTotal =
      (ofEvents events begin_ end_).handleEnd.tidTotal ∧
    ((∀ s ∈ reduceStraddles {} (chunks.map ofChunk), ¬ s.Mismatch) →
      (reduce chunks).handleEnd.cpuTotal = (reduce chunks).handleEnd.tidTotal) := by
  have parallel : (reduce chunks).handleEnd.imbalance =
      mismatchTime (reduceStraddles {} (chunks.map ofChunk)) := by
    have run := imbalance_foldl_merge (chunks.map ofChunk) {} (by
      intro other member
      obtain ⟨chunk, _, rfl⟩ := List.mem_map.mp member
      exact imbalance_ofEvents chunk.events chunk.start chunk.end_)
    have fresh : ({} : CpuContext).imbalance = 0 := sub_self 0
    rw [imbalance_handleEnd, reduce, run, fresh, zero_add]
  have serial : (ofEvents events begin_ end_).handleEnd.imbalance = 0 := by
    rw [imbalance_handleEnd, imbalance_ofEvents]
  refine ⟨parallel, sub_eq_zero.mp serial, fun matched => sub_eq_zero.mp ?_⟩
  have silent : (reduceStraddles {} (chunks.map ofChunk)).filter (fun s => s.Mismatch) = [] := by
    rw [List.filter_eq_nil_iff]
    exact fun s member => by simpa using matched s member
  calc (reduce chunks).handleEnd.imbalance
      = mismatchTime (reduceStraddles {} (chunks.map ofChunk)) := parallel
    _ = 0 := by rw [mismatchTime, silent]; rfl

end CpuContext

end LttngParallelAnalyses
