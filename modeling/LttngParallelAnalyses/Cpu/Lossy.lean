import LttngParallelAnalyses.Cpu.Parallel

/-! Traces with lost events. A switch may then name another process than the one that was switched in
before. Where every chunk still closes the tasks that were left open before it, the CPU times of a
parallel run are those of a serial one. A process gets less: `merge` charges nobody for a straddle
whose two processes differ, which a serial pass charges to the one that is switched out. -/

namespace LttngParallelAnalyses
open Lib Lib.Tables Lib.KeyedFold Lib.Adjacent
open scoped BigOperators

namespace CpuContext

/-- What a straddle fails to charge to a process. -/
def uncharged (t : Int32) (s : Straddle) : UInt64 :=
  if s.Mismatch ∧ s.unknown.tid = t then s.taskTime else 0

/-- What the straddles of a run fail to charge to a process. -/
def lost (t : Int32) (log : List Straddle) : UInt64 := (log.map (uncharged t)).sum

theorem lost_append (t : Int32) (log later : List Straddle) :
    lost t (log ++ later) = lost t log + lost t later := by
  rw [lost, List.map_append, List.sum_append]
  rfl

/-- What is charged to a process and what is not make the whole time of the straddle. -/
theorem share_add_uncharged (t : Int32) (s : Straddle) :
    share t s + uncharged t s = if s.unknown.tid = t then s.taskTime else 0 := by
  unfold share uncharged
  by_cases mismatch : s.Mismatch
  · simp [mismatch]
  · have same : s.current.tid = s.unknown.tid := not_not.mp mismatch
    simp [mismatch, same]

/-- A serial pass charges the task between two lists of events to the process that is switched out. -/
theorem seam_tidGap (cpu : UInt32) (t : Int32) (before chunk : List EventValue) :
    (seam cpu before chunk).elim 0 (fun s => if s.unknown.tid = t then s.taskTime else 0) =
      jointWeight (tidGap t) before chunk := by
  cases chunk with
  | nil => cases task : lastTask before <;> simp [seam, task]
  | cons first rest =>
    rw [jointWeight_cons]
    unfold seam lastTask
    cases before.getLast? with
    | none => rfl
    | some last =>
      cases task : taskAfter last with
      | none => simp [task, tidGap, gap, elapsed]
      | some current => simp [task, tidGap, gap, elapsed, Straddle.taskTime]

/-- A context with the CPU records of the events, and their names; its processes have what the events
charge but for what straddles have lost. -/
structure AccountsLossy (ctx : CpuContext) (events : List EventValue) (log : List Straddle) : Prop
    extends ctx.AccountsCpus events where
  charged : ∀ t (cpus : Finset UInt32), cpuIds events ⊆ cpus →
    ctx.time t + lost t log = ∑ cpu ∈ cpus, weight (tidGap t) (onCpu cpu events)
  table : ∀ t, ctx.tids.lookup t = entry t (ctx.time t) events

variable {ctx other : CpuContext} {events chunk : List EventValue} {log : List Straddle}
  {start end_ : Timestamp}

theorem Accounts.lossy (accounts : ctx.Accounts events) : ctx.AccountsLossy events [] where
  toAccountsCpus := accounts.toAccountsCpus
  charged t cpus known := (add_zero _).trans (accounts.charged t cpus known)
  table := accounts.table

theorem lost_chunk (accounts : ctx.AccountsCpus events) (accounts' : other.AccountsCpus chunk)
    (tells : other.Tells events chunk) (t : Int32) (cpus : Finset UInt32)
    (known : cpuIds chunk ⊆ cpus) :
    Hash.owed t (straddleBills (straddles ctx other)) + lost t (straddles ctx other) =
      ∑ cpu ∈ cpus, jointWeight (tidGap t) (onCpu cpu events) (onCpu cpu chunk) := by
  have whole := sum_straddles_chunk accounts accounts' tells
    (fun s => if s.unknown.tid = t then s.taskTime else 0) cpus known
  simp only [seam_tidGap] at whole
  rw [owed_straddleBills, lost, ← List.sum_map_add, ← whole]
  simp only [share_add_uncharged]

theorem AccountsLossy.merge (accounts : ctx.AccountsLossy events log)
    (handover : ∀ cpu, Handover (onCpu cpu events) (onCpu cpu chunk)) :
    (ctx.merge (ofEvents chunk start end_)).AccountsLossy (events ++ chunk)
      (log ++ straddles ctx (ofEvents chunk start end_)) := by
  have accounts' := accounts_ofEvents chunk start end_
  have tells : (ofEvents chunk start end_).Tells events chunk := tells_of_handover handover
  constructor
  · exact accounts.toAccountsCpus.join accounts'.toAccountsCpus tells
  · intro t cpus known
    have split : cpuIds (events ++ chunk) = cpuIds events ∪ cpuIds chunk := by
      simp [cpuIds, List.toFinset_append]
    rw [split, Finset.union_subset_iff] at known
    have joint := lost_chunk accounts.toAccountsCpus accounts'.toAccountsCpus tells t cpus known.2
    rw [time_merge, lost_append]
    simp only [onCpu_append, weight_append, Finset.sum_add_distrib]
    rw [← accounts.charged t cpus known.1, ← accounts'.charged t cpus known.2, ← joint]
    abel
  · exact table_join accounts.toAccountsCpus accounts'.toAccountsCpus tells accounts.table
      accounts'.table

theorem reduceStraddles_concat (ctx : CpuContext) (contexts : List CpuContext) (last : CpuContext) :
    reduceStraddles ctx (contexts ++ [last]) =
      reduceStraddles ctx contexts ++ straddles (contexts.foldl CpuContext.merge ctx) last := by
  induction contexts generalizing ctx with
  | nil => exact List.append_nil _
  | cons first rest ih =>
    rw [List.cons_append, reduceStraddles, reduceStraddles, ih, List.append_assoc]
    rfl

theorem handedOver_nil : HandedOver [] := by
  intro before chunk after split
  cases before <;> cases split

/-- The last chunk closes what the chunks before it leave open, and they do so among themselves. -/
theorem handedOver_concat_iff {chunks : List (List EventValue)} {chunk : List EventValue} :
    HandedOver (chunks ++ [chunk]) ↔
      HandedOver chunks ∧ ∀ cpu, Handover (onCpu cpu chunks.flatten) (onCpu cpu chunk) := by
  constructor
  · intro handed
    refine ⟨fun before middle after split => ?_, handed chunks chunk [] rfl⟩
    apply handed before middle (after ++ [chunk])
    rw [split, List.append_assoc, List.cons_append]
  · intro both before middle after split
    rcases List.eq_nil_or_concat' after with rfl | ⟨between, last, rfl⟩
    · obtain ⟨rfl, same⟩ := List.append_inj' split rfl
      rw [← List.singleton_inj.mp same]
      exact both.2
    · rw [← List.cons_append, ← List.append_assoc] at split
      obtain ⟨rfl, _⟩ := List.append_inj' split rfl
      exact both.1 before middle between rfl

theorem reduce_accountsLossy (chunks : List Chunk) (handed : HandedOver (chunks.map Chunk.events)) :
    (reduce chunks).AccountsLossy (chunks.flatMap Chunk.events)
      (reduceStraddles {} (chunks.map ofChunk)) := by
  induction chunks using List.reverseRecOn with
  | nil => exact accounts_nil.lossy
  | append_singleton chunks chunk ih =>
    rw [reduce_concat, List.flatMap_append, List.flatMap_singleton, List.map_append,
      List.map_singleton, reduceStraddles_concat]
    rw [List.map_append, List.map_singleton, handedOver_concat_iff, ← List.flatMap_def] at handed
    exact (ih handed.1).merge handed.2

/-! ## The end -/

theorem AccountsLossy.handleEnd_time (accounts : ctx.AccountsLossy events log) (t : Int32)
    (cpus : Finset UInt32) (known : cpuIds events ⊆ cpus) :
    ctx.handleEnd.time t + lost t log = ∑ cpu ∈ cpus, chargedTime ctx.end_ t (onCpu cpu events) := by
  have opened := accounts.sum_current (openTime ctx.end_ t) (openTime_none ctx.end_ t) cpus known
  rw [time_handleEnd, opened, add_right_comm, accounts.charged t cpus known]
  simp only [chargedTime, Finset.sum_add_distrib]

/-- The name that is reported for a process depends on the events alone. -/
theorem comm_handleEnd (accounts : ctx.AccountsCpus events)
    (table : ∀ t, ctx.tids.lookup t = entry t (ctx.time t) events) (t : Int32) :
    (ctx.handleEnd.tids.lookup t).map (·.comm) =
      if ∃ cpu, Runs t (lastTask (onCpu cpu events)) then
        some ((named t events).getLast?.elim default (·.prevComm))
      else (named t events).getLast?.map (·.prevComm) := by
  rw [lookup_handleEnd, table]
  simp only [accounts.runs_iff]
  split
  · cases last : (named t events).getLast? with
    | none => simp [entry, last, Process.charge]; rfl
    | some event => simp [entry, last, Process.charge]
  · cases last : (named t events).getLast? with
    | none => simp [entry, last]
    | some event => simp [entry, last]

/-- The merged chunks of a trace with lost events, against a serial pass. -/
theorem lossy_chunks (chunks : List Chunk) (handed : HandedOver (chunks.map Chunk.events))
    (begin_ : Timestamp) :
    let serial := ofEvents (chunks.flatMap Chunk.events) begin_ (reduce chunks).end_
    (reduce chunks).handleEnd.cpuTimes.Perm serial.handleEnd.cpuTimes ∧
    (∀ t, ((reduce chunks).handleEnd.tids.lookup t).map (·.comm) =
      (serial.handleEnd.tids.lookup t).map (·.comm)) ∧
    ∀ t, (reduce chunks).handleEnd.time t + lost t (reduceStraddles {} (chunks.map ofChunk)) =
      serial.handleEnd.time t := by
  intro serial
  have accounts := reduce_accountsLossy chunks handed
  have accounts' : serial.Accounts (chunks.flatMap Chunk.events) := accounts_ofEvents _ _ _
  have closed : (reduce chunks).end_ = serial.end_ := (ofEvents_end _ _ _).symm
  refine ⟨?_, ?_, ?_⟩
  · exact accounts.toAccountsCpus.cpuTimes_perm accounts'.toAccountsCpus (fun _ => rfl) closed
  · intro t
    rw [comm_handleEnd accounts.toAccountsCpus accounts.table,
      comm_handleEnd accounts'.toAccountsCpus accounts'.table]
  · intro t
    rw [accounts.handleEnd_time t _ subset_rfl, accounts'.handleEnd_time t _ subset_rfl, closed]

end CpuContext

open CpuContext

/-- Whatever events were lost, where every worker closes the tasks that the workers before it left
open, an unbalanced run gives the CPU times and the names of a serial run, and every process its time
there but for the straddles that `merge` charged to nobody. -/
theorem lossy_run_agrees {set : TraceSet} {threads : Nat} {data serial : CpuContext}
    (le : set.getBegin ≤ set.getEnd) (below : set.getEnd < maxTimestamp) (some_thread : 0 < threads)
    (fits : threads < 2 ^ 64)
    (handed : HandedOver ((unbalancedWorkers set threads).map
      (fun worker => (CpuWorker.chunk worker).events)))
    (run : DoExecuteParallelUnbalanced cpuAnalysis set threads data)
    (serialRun : CpuAnalysis.doExecuteSerial set = some serial) :
    data.cpuTimes.Perm serial.cpuTimes ∧
    (∀ t, (data.tids.lookup t).map (·.comm) = (serial.tids.lookup t).map (·.comm)) ∧
    ∀ t, data.time t + lost t (reduceStraddles {}
      ((unbalancedWorkers set threads).map CpuWorker.doMap)) = serial.time t := by
  obtain ⟨reduced, mapped, rfl⟩ := run
  have cutting := unbalanced_cutting le (le.trans_lt below) fits
  have cuts := map_chunk_streamWorkers set cutting
  rw [← unbalancedWorkers_eq set some_thread] at cuts
  have whole : ((unbalancedWorkers set threads).map CpuWorker.chunk).flatMap Chunk.events =
      schedSwitches set set.events := by
    rw [cuts]
    exact cutInto_events _ _ (schedSwitches_sorted set set.sorted) cutting.ordered
  have closed : (reduce ((unbalancedWorkers set threads).map CpuWorker.chunk)).end_ =
      set.getEnd := by
    rw [cuts, reduce_unbalanced_end _ le fits]
  have maps : ((unbalancedWorkers set threads).map CpuWorker.chunk).map ofChunk =
      (unbalancedWorkers set threads).map CpuWorker.doMap := by
    rw [List.map_map]
    exact List.map_congr_left (fun worker _ => (CpuWorker.doMap_eq worker).symm)
  have agree := lossy_chunks ((unbalancedWorkers set threads).map CpuWorker.chunk)
    (by rw [List.map_map]; exact handed) set.getBegin
  rw [whole, closed, maps] at agree
  rw [mappedReduced_cpu] at mapped
  rw [mapped, CpuAnalysis.eq_of_doExecuteSerial serialRun]
  exact agree

/-- Task 5 is switched in, and task 7 is switched out: the switch between them was lost. -/
def lostTrace : TraceSet :=
  TraceSet.ofEvents [⟨"lttng-kernel", [("sched_switch", 0)]⟩]
    [{ timestamp := 12, nextTid := 5 }, { timestamp := 18, prevTid := 7, prevComm := "cat" }] 10 20
    (by decide) (by decide) (by decide)

/-- The 6 ns between the switches are in the time of the CPU, and task 7 has none of them. -/
theorem lossy_run_agrees_lostTrace :
    let run := (unbalancedWorkers lostTrace 2).map cpuAnalysis.doMap
    let parallel := (run.foldl cpuAnalysis.doReduce cpuAnalysis.initial).handleEnd
    let serial := (ofEvents lostTrace.events 10 20).handleEnd
    parallel.cpuTimes.Perm serial.cpuTimes ∧ parallel.time 7 + 6 = serial.time 7 := by
  intro run parallel serial
  have handed : HandedOver ((unbalancedWorkers lostTrace 2).map
      (fun worker => (CpuWorker.chunk worker).events)) := by
    have chunks : (unbalancedWorkers lostTrace 2).map
        (fun worker => (CpuWorker.chunk worker).events) = [] ++ [lostTrace.events.take 1] ++
          [lostTrace.events.drop 1] := rfl
    rw [chunks, handedOver_concat_iff, handedOver_concat_iff]
    refine ⟨⟨handedOver_nil, fun cpu carried => absurd rfl carried⟩, fun cpu carried => ?_⟩
    by_cases own : cpu = 0
    · subst own
      exact ⟨List.isChain_singleton _, by decide⟩
    · exact absurd (by simp [onCpu, lostTrace, TraceSet.ofEvents, Ne.symm own, lastTask]) carried
  have agree := lossy_run_agrees (by decide) (by decide) (by decide : 0 < 2) (by decide) handed
    ⟨_, rfl, rfl⟩ (rfl : CpuAnalysis.doExecuteSerial lostTrace = some serial)
  exact ⟨agree.1, agree.2.2 7⟩

end LttngParallelAnalyses
