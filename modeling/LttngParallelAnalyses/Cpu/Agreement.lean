import LttngParallelAnalyses.Cpu.Accounts

/-! Contexts closed at the end of the trace. What is reported for a context that accounts
for some events is fixed by the events of each CPU and by the end, so two contexts that
account for the same events on every CPU report the same times. -/

namespace LttngParallelAnalyses
open Lib Lib.Tables Lib.KeyedFold Lib.Adjacent
open scoped BigOperators

/-- The busy time of a CPU with these events. -/
def busyTime (end_ : Timestamp) (events : List EventValue) : UInt64 :=
  weight gap events + elapsed (lastTask events) end_

/-- The time of a process on a CPU with these events. -/
def chargedTime (end_ : Timestamp) (t : Int32) (events : List EventValue) : UInt64 :=
  weight (tidGap t) events + openTime end_ t (lastTask events)

namespace CpuContext

/-- The CPU times as reported, whatever the order of the list. -/
def cpuTimes (ctx : CpuContext) : List (UInt32 × UInt64) := ctx.cpus.map (fun c => (c.id, c.cpuNs))

/-- The same CPUs with the same times, and the same processes with the same times. -/
structure SameTimes (a b : CpuContext) : Prop where
  cpus : a.cpuTimes.Perm b.cpuTimes
  keys : ∀ t, t ∈ a.tids ↔ t ∈ b.tids
  times : ∀ t, a.time t = b.time t

/-- The same CPUs with the same times, and the same process table. -/
structure SameResults (a b : CpuContext) : Prop where
  cpus : a.cpuTimes.Perm b.cpuTimes
  tids : ∀ t, a.tids.lookup t = b.tids.lookup t

variable {ctx other : CpuContext} {events events' : List EventValue}

theorem AccountsCpus.handleEnd_cpuNs (accounts : ctx.AccountsCpus events) (cpu : UInt32) :
    (ctx.handleEnd.find cpu).map (·.cpuNs) =
      if onCpu cpu events = [] then none else some (busyTime ctx.end_ (onCpu cpu events)) := by
  have known := accounts.known cpu
  rw [find_handleEnd accounts.distinct, busyTime, ← accounts.busy cpu, ← accounts.current cpu]
  cases found : ctx.find cpu with
  | none =>
    rw [if_pos (known.mp found)]
    rfl
  | some c =>
    have present : onCpu cpu events ≠ [] := by
      rw [Ne, ← known, found]
      exact Option.some_ne_none c
    rw [if_neg present]
    rfl

/-- A measure of the running tasks, summed over the CPU records. -/
theorem AccountsCpus.sum_current {A : Type} [AddCommMonoid A] (accounts : ctx.AccountsCpus events)
    (measure : Option Task → A) (idle : measure none = 0) (cpus : Finset UInt32)
    (known : cpuIds events ⊆ cpus) :
    (ctx.cpus.map (fun c => measure c.currentTask)).sum =
      ∑ cpu ∈ cpus, measure (lastTask (onCpu cpu events)) := by
  have inside : ∀ c ∈ ctx.cpus, c.id ∈ cpus := accounts.id_mem known
  rw [sum_eq_sum_find (fun c => measure c.currentTask) accounts.distinct cpus inside]
  apply Finset.sum_congr rfl
  intro cpu _
  rw [← accounts.current cpu, find]
  cases Tables.find Cpu.id ctx.cpus cpu with
  | none => exact idle.symm
  | some c => rfl

theorem AccountsCpus.runs_iff (accounts : ctx.AccountsCpus events) (t : Int32) :
    (∃ c ∈ ctx.cpus, Runs t c.currentTask) ↔ ∃ cpu, Runs t (lastTask (onCpu cpu events)) := by
  constructor
  · intro running
    obtain ⟨c, member, runs⟩ := running
    refine ⟨c.id, ?_⟩
    rw [← accounts.current, find, find_of_mem accounts.distinct member]
    exact runs
  · intro running
    obtain ⟨cpu, runs⟩ := running
    rw [← accounts.current] at runs
    cases found : ctx.find cpu with
    | none => simp [found] at runs
    | some c => exact ⟨c, mem_of_find found, by simpa [found] using runs⟩

theorem Accounts.handleEnd_time (accounts : ctx.Accounts events) (t : Int32)
    (cpus : Finset UInt32) (known : cpuIds events ⊆ cpus) :
    ctx.handleEnd.time t = ∑ cpu ∈ cpus, chargedTime ctx.end_ t (onCpu cpu events) := by
  rw [time_handleEnd, accounts.charged t cpus known,
    accounts.sum_current (openTime ctx.end_ t) (openTime_none ctx.end_ t) cpus known]
  simp only [chargedTime, Finset.sum_add_distrib]

theorem Accounts.mem_handleEnd (accounts : ctx.Accounts events) (t : Int32) :
    t ∈ ctx.handleEnd.tids ↔
      (∃ cpu, Runs t (lastTask (onCpu cpu events))) ∨ ∃ event ∈ events, event.prevTid = t := by
  have entered : t ∈ ctx.tids ↔ ∃ event ∈ events, event.prevTid = t := by
    rw [← AList.lookup_isSome, accounts.table t, Option.isSome_iff_ne_none, Ne, named_eq_nil,
      List.eq_nil_iff_forall_not_mem]
    simp [named]
  rw [mem_handleEnd_tids, accounts.runs_iff, entered]

theorem mem_of_onCpu (same : ∀ cpu, onCpu cpu events = onCpu cpu events') {event : EventValue}
    (member : event ∈ events) : event ∈ events' := by
  have inside : event ∈ onCpu event.cpuId events := mem_onCpu.mpr ⟨member, rfl⟩
  rw [same] at inside
  exact (mem_onCpu.mp inside).1

theorem cpuIds_of_onCpu (same : ∀ cpu, onCpu cpu events = onCpu cpu events') :
    cpuIds events = cpuIds events' := by
  ext cpu
  rw [mem_cpuIds, mem_cpuIds, same]

theorem AccountsCpus.cpuTimes_perm (accounts : ctx.AccountsCpus events)
    (accounts' : other.AccountsCpus events') (same : ∀ cpu, onCpu cpu events = onCpu cpu events')
    (sameEnd : ctx.end_ = other.end_) : ctx.handleEnd.cpuTimes.Perm other.handleEnd.cpuTimes := by
  apply map_perm_of_find (·.cpuNs) (distinct_handleEnd accounts.distinct)
    (distinct_handleEnd accounts'.distinct)
  intro cpu
  have left := accounts.handleEnd_cpuNs cpu
  have right := accounts'.handleEnd_cpuNs cpu
  rw [same, sameEnd] at left
  exact left.trans right.symm

theorem Accounts.sameTimes (accounts : ctx.Accounts events) (accounts' : other.Accounts events')
    (same : ∀ cpu, onCpu cpu events = onCpu cpu events') (sameEnd : ctx.end_ = other.end_) :
    SameTimes ctx.handleEnd other.handleEnd where
  cpus := accounts.cpuTimes_perm accounts'.toAccountsCpus same sameEnd
  keys t := by
    have transfer : (∃ event ∈ events, event.prevTid = t) ↔ ∃ event ∈ events', event.prevTid = t :=
      ⟨fun ⟨event, member, own⟩ => ⟨event, mem_of_onCpu same member, own⟩,
        fun ⟨event, member, own⟩ => ⟨event, mem_of_onCpu (fun cpu => (same cpu).symm) member, own⟩⟩
    rw [accounts.mem_handleEnd, accounts'.mem_handleEnd, transfer]
    simp only [same]
  times t := by
    rw [accounts.handleEnd_time t (cpuIds events) subset_rfl,
      accounts'.handleEnd_time t (cpuIds events) (cpuIds_of_onCpu same).ge, sameEnd]
    simp only [same]

/-- Two contexts that account for one list also report the same names. -/
theorem Accounts.sameResults (accounts : ctx.Accounts events) (accounts' : other.Accounts events)
    (sameEnd : ctx.end_ = other.end_) : SameResults ctx.handleEnd other.handleEnd where
  cpus := accounts.cpuTimes_perm accounts'.toAccountsCpus (fun _ => rfl) sameEnd
  tids t := by
    have charged : ctx.time t = other.time t := by
      rw [accounts.charged t (cpuIds events) subset_rfl,
        accounts'.charged t (cpuIds events) subset_rfl]
    have opened := accounts.sum_current (openTime other.end_ t) (openTime_none _ t)
      (cpuIds events) subset_rfl
    rw [← accounts'.sum_current (openTime other.end_ t) (openTime_none _ t)
      (cpuIds events) subset_rfl] at opened
    rw [lookup_handleEnd, lookup_handleEnd, accounts.table, accounts'.table, charged, sameEnd,
      opened]
    simp only [accounts.runs_iff, accounts'.runs_iff]

/-! ## The end of a reduction -/

theorem mergeCpus_end (ctx : CpuContext) (others : List Cpu) :
    (ctx.mergeCpus others).end_ = ctx.end_ := by
  unfold mergeCpus
  induction others generalizing ctx with
  | nil => rfl
  | cons otherCpu rest ih => exact ih _

theorem fix_end (others : List Cpu) (state : CpuContext × List Straddle) :
    (others.foldl fixStep state).1.end_ = state.1.end_ := by
  induction others generalizing state with
  | nil => rfl
  | cons otherCpu rest ih => exact ih _

theorem merge_end (ctx other : CpuContext) : (ctx.merge other).end_ = max ctx.end_ other.end_ := by
  have bounds : (mergeBounds ctx other).end_ = max ctx.end_ other.end_ := by
    unfold mergeBounds
    by_cases later : other.end_ > ctx.end_
    · rw [if_pos later, max_eq_right later.le]
    · rw [if_neg later, max_eq_left (not_lt.mp later)]
  rw [← bounds, merge, mergeRun_eq, fix_end]
  exact mergeCpus_end (mergeBounds ctx other) other.cpus

theorem ofEvents_end (events : List EventValue) (start end_ : Timestamp) :
    (ofEvents events start end_).end_ = end_ := by
  unfold ofEvents handle
  induction events using List.reverseRecOn with
  | nil => rfl
  | append_singleton events event ih => rw [List.foldl_concat, handleSchedSwitch]; exact ih

/-- The latest of some timestamps, 0 if there are none. -/
def latest (times : List Timestamp) : Timestamp := times.foldl max 0

theorem latest_concat (times : List Timestamp) (t : Timestamp) :
    latest (times ++ [t]) = max (latest times) t := List.foldl_concat ..

theorem latest_le_iff {times : List Timestamp} {bound : Timestamp} :
    latest times ≤ bound ↔ ∀ t ∈ times, t ≤ bound := by
  induction times using List.reverseRecOn with
  | nil => simp [latest]
  | append_singleton times t ih =>
    rw [latest_concat, max_le_iff, ih]
    simp [or_imp, forall_and]

theorem reduce_end (chunks : List Chunk) :
    (reduce chunks).end_ = latest (chunks.map Chunk.end_) := by
  induction chunks using List.reverseRecOn with
  | nil => rfl
  | append_singleton chunks chunk ih =>
    rw [reduce_concat, merge_end, ih, List.map_append, List.map_singleton, latest_concat,
      ofChunk, ofEvents_end]

end CpuContext

end LttngParallelAnalyses
