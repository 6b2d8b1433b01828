import LttngParallelAnalyses.Cpu.Analysis

/-! What a context says about the events it stands for. A context accounts for a list of
events when its CPU records and its process table are those of the list: handling the
events gives such a context, and merging in a chunk extends the list by that chunk, where
the chunk hands over the tasks that were left open. -/

namespace LttngParallelAnalyses
open Lib Lib.Tables Lib.KeyedFold Lib.Adjacent
open scoped BigOperators

/-- The events that switch a process out. -/
def named (tid : Int32) (events : List EventValue) : List EventValue :=
  events.filter (fun event => event.prevTid = tid)

/-- The entry of a process that is charged `time`: the last event that names it gives its name. -/
def entry (tid : Int32) (time : UInt64) (events : List EventValue) : Option Process :=
  (named tid events).getLast?.map (fun last => { tid, comm := last.prevComm, cpuNs := time })

/-- On every CPU the process switched out is the one that was switched in before. -/
def Chained (events : List EventValue) : Prop :=
  ∀ cpu, (onCpu cpu events).IsChain (fun first second => second.prevTid = first.nextTid)

instance (events : List EventValue) : Decidable (Chained events) :=
  decidable_of_iff
    (∀ event ∈ events,
      (onCpu event.cpuId events).IsChain (fun first second => second.prevTid = first.nextTid))
    ⟨fun chained cpu => by
      by_cases absent : onCpu cpu events = []
      · rw [absent]
        exact List.isChain_nil
      · obtain ⟨event, member⟩ := List.exists_mem_of_ne_nil _ absent
        obtain ⟨inside, rfl⟩ := mem_onCpu.mp member
        exact chained event inside,
      fun chained event _ => chained event.cpuId⟩

/-- No task appears from idle between two switches. -/
def Settled (events : List EventValue) : Prop :=
  events.IsChain (fun first second => first.nextTid = 0 → second.prevTid = 0)

/-- The task that a chunk finds running, if its first event names one. -/
def unknownBefore (event : EventValue) : Option Task :=
  if event.prevTid ≠ 0 then some { end_ := event.timestamp, tid := event.prevTid } else none

/-- A task left open by the events before a chunk on one CPU is the one that the chunk closes. -/
def Handover (before chunk : List EventValue) : Prop :=
  lastTask before ≠ none → Settled chunk ∧ ∀ first ∈ chunk.head?, first.prevTid ≠ 0

theorem taskAfter_eq_none {event : EventValue} : taskAfter event = none ↔ event.nextTid = 0 := by
  by_cases idle : event.nextTid = 0 <;> simp [taskAfter, idle]

theorem lastTask_append {before chunk : List EventValue} (present : chunk ≠ []) :
    lastTask (before ++ chunk) = lastTask chunk := by
  unfold lastTask
  rw [List.getLast?_append_of_ne_nil _ present]

namespace CpuContext

/-- The straddle of two adjacent lists of events on one CPU. -/
def seam (cpu : UInt32) (before chunk : List EventValue) : Option Straddle :=
  (lastTask before).bind (fun current => chunk.head?.map (fun first =>
    { cpu, current, unknown := { end_ := first.timestamp, tid := first.prevTid } }))

theorem seam_time (cpu : UInt32) (before chunk : List EventValue) :
    (seam cpu before chunk).elim 0 Straddle.taskTime = jointWeight gap before chunk := by
  cases chunk with
  | nil => cases task : lastTask before <;> simp [seam, task]
  | cons first rest =>
    rw [jointWeight_cons]
    unfold seam lastTask
    cases before.getLast? with
    | none => rfl
    | some last => cases task : taskAfter last <;> simp [task, gap, elapsed, Straddle.taskTime]

theorem record_unknownTask {events : List EventValue} (settled : Settled events) :
    (record events).bind (·.unknownTask) = events.head?.bind unknownBefore := by
  induction events using List.reverseRecOn with
  | nil => rfl
  | append_singleton events event ih =>
    rw [record_unknownTask_concat]
    cases last : events.getLast? with
    | none =>
      obtain rfl : events = [] := List.getLast?_eq_none_iff.mp last
      by_cases idle : event.prevTid = 0 <;> simp [lastTask, unknownBefore, record, idle]
    | some before =>
      have nonempty : events ≠ [] := by
        intro same
        obtain rfl := same
        simp at last
      have chain := List.isChain_append.mp settled
      have quiet : ¬ (lastTask events = none ∧ event.prevTid ≠ 0) := by
        intro both
        obtain ⟨idle, runs⟩ := both
        rw [lastTask, last, Option.bind_some, taskAfter_eq_none] at idle
        exact runs (chain.2.2 before (by simp [last]) event (by simp) idle)
      rw [if_neg quiet, ih chain.1, List.head?_append_of_ne_nil _ nonempty]

theorem find_ofEvents (events : List EventValue) (start end_ : Timestamp) (cpu : UInt32) :
    (ofEvents events start end_).find cpu = record (onCpu cpu events) :=
  find_handle events { start, end_ } rfl cpu

theorem distinct_ofEvents (events : List EventValue) (start end_ : Timestamp) :
    (ofEvents events start end_).Distinct := by
  have fresh : ({ start, end_ } : CpuContext).Distinct := List.nodup_nil
  exact distinct_handle fresh events

/-! ## CPU records -/

/-- The CPU records are those of the events. -/
structure AccountsCpus (ctx : CpuContext) (events : List EventValue) : Prop where
  distinct : ctx.Distinct
  known : ∀ cpu, ctx.find cpu = none ↔ onCpu cpu events = []
  current : ∀ cpu, (ctx.find cpu).bind (·.currentTask) = lastTask (onCpu cpu events)
  busy : ∀ cpu, (ctx.find cpu).elim 0 (·.cpuNs) = weight gap (onCpu cpu events)

theorem accountsCpus_ofEvents (events : List EventValue) (start end_ : Timestamp) :
    (ofEvents events start end_).AccountsCpus events where
  distinct := distinct_ofEvents events start end_
  known cpu := by rw [find_ofEvents, record_eq_none]
  current cpu := by rw [find_ofEvents, record_currentTask]
  busy cpu := by rw [find_ofEvents, record_cpuNs]

variable {ctx : CpuContext} {events chunk : List EventValue} {start end_ : Timestamp}

/-- A context with the events of a chunk tells the tasks that it found running, as far as the
events before leave any open. -/
def Tells (other : CpuContext) (events chunk : List EventValue) : Prop :=
  ∀ cpu, lastTask (onCpu cpu events) ≠ none →
    (other.find cpu).bind (·.unknownTask) = (onCpu cpu chunk).head?.map (fun first =>
      { end_ := first.timestamp, tid := first.prevTid })

/-- A task that is handed over is the one that the chunk found running. -/
theorem tells_of_handover (handover : ∀ cpu, Handover (onCpu cpu events) (onCpu cpu chunk)) :
    (ofEvents chunk start end_).Tells events chunk := by
  intro cpu carried
  obtain ⟨settled, runs⟩ := handover cpu carried
  rw [find_ofEvents, record_unknownTask settled]
  cases head : (onCpu cpu chunk).head? with
  | none => rfl
  | some first => simp [unknownBefore, runs first head]

theorem straddle_eq_seam (cpu : UInt32) {thisCpu otherCpu : Cpu} {before chunk : List EventValue}
    (own : otherCpu.id = cpu) (current : thisCpu.currentTask = lastTask before)
    (told : lastTask before ≠ none → otherCpu.unknownTask = chunk.head?.map (fun first =>
      { end_ := first.timestamp, tid := first.prevTid })) :
    straddle thisCpu otherCpu = seam cpu before chunk := by
  unfold straddle seam
  rw [current]
  cases task : lastTask before with
  | none => rfl
  | some running =>
    rw [told (by simp [task])]
    cases chunk.head? with
    | none => rfl
    | some first => simp [own]

private theorem current_merge {found : Option Cpu} {otherCpu : Cpu}
    {before chunk : List EventValue} (current : found.bind (·.currentTask) = lastTask before)
    (last : otherCpu.currentTask = lastTask chunk) (present : chunk ≠ [])
    (told : lastTask before ≠ none → otherCpu.unknownTask = chunk.head?.map (fun first =>
      { end_ := first.timestamp, tid := first.prevTid })) :
    (fixCpu (addTime found otherCpu) otherCpu).currentTask = lastTask (before ++ chunk) := by
  rw [fixCpu_currentTask, addTime_currentTask, current, lastTask_append present, last]
  by_cases carried : lastTask before = none
  · rw [if_neg (fun both => both.1 carried)]
  · have closed : otherCpu.unknownTask ≠ none := by
      rw [told carried]
      simpa using present
    rw [if_neg (fun both => closed both.2)]

variable {other : CpuContext}

theorem AccountsCpus.join (accounts : ctx.AccountsCpus events)
    (accounts' : other.AccountsCpus chunk) (tells : other.Tells events chunk) :
    (ctx.merge other).AccountsCpus (events ++ chunk) := by
  have found := find_merge ctx other accounts'.distinct
  refine ⟨distinct_merge accounts.distinct _, fun cpu => ?_, fun cpu => ?_, fun cpu => ?_⟩
  · rw [found, onCpu_append, List.append_eq_nil_iff, ← accounts.known cpu, ← accounts'.known cpu]
    cases other.find cpu <;> simp
  · rw [found, onCpu_append]
    have last := accounts'.current cpu
    have told := tells cpu
    have known := accounts'.known cpu
    cases here : other.find cpu with
    | none =>
      rw [known.mp here, List.append_nil]
      exact accounts.current cpu
    | some otherCpu =>
      rw [here, Option.bind_some] at last told
      have present : onCpu cpu chunk ≠ [] := by
        rw [Ne, ← known, here]
        exact Option.some_ne_none otherCpu
      exact current_merge (accounts.current cpu) last present told
  · rw [found, onCpu_append, weight_append, ← accounts.busy cpu, ← accounts'.busy cpu]
    have told := tells cpu
    have known := accounts'.known cpu
    cases here : other.find cpu with
    | none => simp [known.mp here]
    | some otherCpu =>
      rw [here, Option.bind_some] at told
      have current : (addTime (ctx.find cpu) otherCpu).currentTask = lastTask (onCpu cpu events) :=
        (addTime_currentTask _ _).trans (accounts.current cpu)
      rw [Option.elim_some, Option.elim_some, fixCpu_cpuNs, addTime_cpuNs,
        straddle_eq_seam cpu (key_of_find here) current told, seam_time, add_right_comm]
      rfl

theorem AccountsCpus.merge (accounts : ctx.AccountsCpus events)
    (handover : ∀ cpu, Handover (onCpu cpu events) (onCpu cpu chunk)) :
    (ctx.merge (ofEvents chunk start end_)).AccountsCpus (events ++ chunk) :=
  accounts.join (accountsCpus_ofEvents chunk start end_) (tells_of_handover handover)

/-! ## Process times and names -/

/-- The CPU records and the process table are those of the events. -/
structure Accounts (ctx : CpuContext) (events : List EventValue) : Prop
    extends ctx.AccountsCpus events where
  charged : ∀ t (cpus : Finset UInt32), cpuIds events ⊆ cpus →
    ctx.time t = ∑ cpu ∈ cpus, weight (tidGap t) (onCpu cpu events)
  table : ∀ t, ctx.tids.lookup t = entry t (ctx.time t) events

theorem accounts_nil : ({} : CpuContext).Accounts [] where
  toAccountsCpus := accountsCpus_ofEvents [] 0 0
  charged t cpus _ := by simp [time]
  table t := rfl

private theorem table_handle (events : List EventValue) (t : Int32) :
    (ofEvents events start end_).tids.lookup t =
      entry t ((ofEvents events start end_).time t) events := by
  induction events using List.reverseRecOn with
  | nil => rfl
  | append_singleton events event ih =>
    have step : ofEvents (events ++ [event]) start end_ =
        (ofEvents events start end_).handleSchedSwitch event := List.foldl_concat ..
    unfold time
    rw [step, handleSchedSwitch, lookup_switchTids]
    by_cases own : event.prevTid = t
    · have last : (named t (events ++ [event])).getLast? = some event := by simp [named, own]
      rw [if_pos own, ih, entry, entry, last]
      cases (named t events).getLast? <;> rfl
    · rw [if_neg own, ← time, ih]
      simp [entry, named, own]

theorem accounts_ofEvents (events : List EventValue) (start end_ : Timestamp) :
    (ofEvents events start end_).Accounts events where
  toAccountsCpus := accountsCpus_ofEvents events start end_
  charged t cpus known := by
    have run := time_handle events { start, end_ } rfl cpus
      (fun event member => known (cpuId_mem_cpuIds member)) t
    calc (ofEvents events start end_).time t
        = ({ start, end_ } : CpuContext).time t +
            ∑ cpu ∈ cpus, weight (tidGap t) (onCpu cpu events) := run
      _ = ∑ cpu ∈ cpus, weight (tidGap t) (onCpu cpu events) := by
          rw [time, AList.lookup_empty, Option.elim_none, zero_add]
  table t := table_handle events t

theorem handover_of_chained (chained : Chained (events ++ chunk)) (cpu : UInt32) :
    Handover (onCpu cpu events) (onCpu cpu chunk) := by
  have chain := chained cpu
  rw [onCpu_append, List.isChain_append] at chain
  intro carried
  refine ⟨chain.2.1.imp (fun first second same idle => same.trans idle), ?_⟩
  intro first head
  cases last : (onCpu cpu events).getLast? with
  | none => simp [lastTask, last] at carried
  | some before =>
    rw [lastTask, last, Option.bind_some, Ne, taskAfter_eq_none] at carried
    rw [chain.2.2 before last first head]
    exact carried

/-- In a chained trace the straddling task is charged to the process that the gap is. -/
private theorem share_seam (cpu : UInt32) (t : Int32) (chained : Chained (events ++ chunk)) :
    (seam cpu (onCpu cpu events) (onCpu cpu chunk)).elim 0 (share t) =
      jointWeight (tidGap t) (onCpu cpu events) (onCpu cpu chunk) := by
  have chain := chained cpu
  rw [onCpu_append, List.isChain_append] at chain
  cases inside : onCpu cpu chunk with
  | nil => cases task : lastTask (onCpu cpu events) <;> simp [seam, task]
  | cons first rest =>
    rw [jointWeight_cons]
    cases last : (onCpu cpu events).getLast? with
    | none => simp [seam, lastTask, last]
    | some before =>
      have same : first.prevTid = before.nextTid := chain.2.2 before last first (by simp [inside])
      by_cases idle : before.nextTid = 0
      · simp [seam, lastTask, last, taskAfter, idle, tidGap, gap, elapsed]
      · simp [seam, lastTask, last, taskAfter, idle, tidGap, gap, elapsed, share,
          Straddle.Mismatch, Straddle.taskTime, same]

theorem entry_append (t : Int32) (time : UInt64) (events chunk : List EventValue) :
    entry t time (events ++ chunk) = (entry t time chunk).or (entry t time events) := by
  unfold entry named
  rw [List.filter_append, List.getLast?_append]
  cases (chunk.filter (fun event => event.prevTid = t)).getLast? <;> rfl

theorem AccountsCpus.id_mem (accounts : ctx.AccountsCpus events) {cpus : Finset UInt32}
    (known : cpuIds events ⊆ cpus) : ∀ c ∈ ctx.cpus, c.id ∈ cpus := by
  intro c member
  apply known
  rw [mem_cpuIds, Ne, ← accounts.known, find, find_of_mem accounts.distinct member]
  exact Option.some_ne_none c

/-- The straddle that a merge finds on a CPU of the chunk. -/
theorem straddle_chunk (accounts : ctx.AccountsCpus events) (tells : other.Tells events chunk)
    {cpu : UInt32} {c : Cpu} (found : other.find cpu = some c) :
    straddle (ctx.getCpu c.id) c = seam cpu (onCpu cpu events) (onCpu cpu chunk) := by
  have told := tells cpu
  rw [found, Option.bind_some] at told
  have own : c.id = cpu := key_of_find found
  apply straddle_eq_seam cpu own _ told
  rw [own, getCpu_currentTask, accounts.current]

/-- A measure of the straddles that a merge finds, CPU by CPU. -/
theorem sum_straddles_chunk (accounts : ctx.AccountsCpus events)
    (accounts' : other.AccountsCpus chunk) (tells : other.Tells events chunk)
    (f : Straddle → UInt64) (cpus : Finset UInt32) (known : cpuIds chunk ⊆ cpus) :
    ((straddles ctx other).map f).sum =
      ∑ cpu ∈ cpus, (seam cpu (onCpu cpu events) (onCpu cpu chunk)).elim 0 f := by
  rw [sum_straddles ctx accounts'.distinct f cpus (accounts'.id_mem known)]
  apply Finset.sum_congr rfl
  intro cpu _
  cases found : other.find cpu with
  | none =>
    have absent := (accounts'.known cpu).mp found
    cases task : lastTask (onCpu cpu events) <;> simp [seam, absent, task]
  | some c => rw [Option.elim_some, straddle_chunk accounts tells found]

private theorem owed_chunk (accounts : ctx.AccountsCpus events)
    (accounts' : other.AccountsCpus chunk) (tells : other.Tells events chunk)
    (chained : Chained (events ++ chunk)) (t : Int32) (cpus : Finset UInt32)
    (known : cpuIds chunk ⊆ cpus) :
    Hash.owed t (straddleBills (straddles ctx other)) =
      ∑ cpu ∈ cpus, jointWeight (tidGap t) (onCpu cpu events) (onCpu cpu chunk) := by
  rw [owed_straddleBills, sum_straddles_chunk accounts accounts' tells (share t) cpus known]
  exact Finset.sum_congr rfl (fun cpu _ => share_seam cpu t chained)

/-- A straddle charges a process that the chunk names. -/
private theorem named_of_billed (accounts : ctx.AccountsCpus events)
    (accounts' : other.AccountsCpus chunk) (tells : other.Tells events chunk) {t : Int32}
    (billed : ∃ bill ∈ straddleBills (straddles ctx other), bill.1 = t) :
    named t chunk ≠ [] := by
  obtain ⟨bill, member, rfl⟩ := billed
  obtain ⟨s, logged, eq⟩ := List.mem_filterMap.mp member
  rw [straddles_eq ctx _ accounts'.distinct] at logged
  obtain ⟨c, inside, split⟩ := List.mem_filterMap.mp logged
  have found : other.find c.id = some c := find_of_mem accounts'.distinct inside
  rw [straddle_chunk accounts tells found] at split
  obtain ⟨current, _, mapped⟩ := Option.bind_eq_some_iff.mp split
  obtain ⟨first, head, rfl⟩ := Option.map_eq_some_iff.mp mapped
  have present : first ∈ chunk := (mem_onCpu.mp (List.mem_of_mem_head? head)).1
  by_cases matching : current.tid = first.prevTid
  · simp only [Straddle.Mismatch, matching, ne_eq, not_true_eq_false, if_false,
      Option.some.injEq] at eq
    rw [← eq]
    apply List.ne_nil_of_mem (a := first)
    simp [named, present]
  · simp [Straddle.Mismatch, matching] at eq

theorem named_eq_nil {t : Int32} {events : List EventValue} {time : UInt64} :
    entry t time events = none ↔ named t events = [] := by
  rw [entry, Option.map_eq_none_iff, List.getLast?_eq_none_iff]

/-- What a context has in its table after a merge, whether the trace is chained or not. -/
theorem table_join (accounts : ctx.AccountsCpus events) (accounts' : other.AccountsCpus chunk)
    (tells : other.Tells events chunk)
    (entries : ∀ t, ctx.tids.lookup t = entry t (ctx.time t) events)
    (entries' : ∀ t, other.tids.lookup t = entry t (other.time t) chunk) (t : Int32) :
    (ctx.merge other).tids.lookup t = entry t ((ctx.merge other).time t) (events ++ chunk) := by
  have billed : (∃ bill ∈ straddleBills (straddles ctx other), bill.1 = t) →
      named t chunk ≠ [] :=
    named_of_billed accounts accounts' tells
  have before : named t events = [] → ctx.time t = 0 := by
    intro absent
    rw [time, entries t, named_eq_nil.mpr absent, Option.elim_none]
  have inside : named t chunk = [] → other.time t = 0 := by
    intro absent
    rw [time, entries' t, named_eq_nil.mpr absent, Option.elim_none]
  have found : (∃ bill ∈ straddleBills (straddles ctx other), bill.1 = t) →
      t ∈ other.tids := by
    intro charged
    rw [← AList.lookup_isSome, entries' t, Option.isSome_iff_ne_none, Ne, named_eq_nil]
    exact billed charged
  rw [lookup_merge _ _ _ found, time_merge, entry_append, entries t, entries' t]
  cases last : (named t chunk).getLast? with
  | none =>
    have absent : named t chunk = [] := List.getLast?_eq_none_iff.mp last
    have free : Hash.owed t (straddleBills (straddles ctx other)) = 0 :=
      Hash.owed_eq_zero (fun bill member same => billed ⟨bill, member, same⟩ absent)
    rw [inside absent, free, named_eq_nil.mpr absent, named_eq_nil.mpr absent]
    simp
  | some event =>
    cases prior : (named t events).getLast? with
    | none =>
      rw [before (List.getLast?_eq_none_iff.mp prior)]
      simp [entry, last, prior, mergeProcess, Process.charge]
    | some _ => simp [entry, last, prior, mergeProcess, Process.charge]

theorem Accounts.join (accounts : ctx.Accounts events) (accounts' : other.Accounts chunk)
    (tells : other.Tells events chunk) (chained : Chained (events ++ chunk)) :
    (ctx.merge other).Accounts (events ++ chunk) where
  toAccountsCpus := accounts.toAccountsCpus.join accounts'.toAccountsCpus tells
  charged t cpus known := by
    have split : cpuIds (events ++ chunk) = cpuIds events ∪ cpuIds chunk := by
      simp [cpuIds, List.toFinset_append]
    rw [split, Finset.union_subset_iff] at known
    rw [time_merge, accounts.charged t cpus known.1, accounts'.charged t cpus known.2,
      owed_chunk accounts.toAccountsCpus accounts'.toAccountsCpus tells chained t cpus known.2]
    simp only [onCpu_append, weight_append, Finset.sum_add_distrib]
    abel
  table := table_join accounts.toAccountsCpus accounts'.toAccountsCpus tells accounts.table
    accounts'.table

theorem Accounts.merge (accounts : ctx.Accounts events) (chained : Chained (events ++ chunk)) :
    (ctx.merge (ofEvents chunk start end_)).Accounts (events ++ chunk) :=
  accounts.join (accounts_ofEvents chunk start end_)
    (tells_of_handover (handover_of_chained chained)) chained

/-! ## Reductions -/

/-- Each chunk closes the tasks that the chunks before it left open. -/
def HandedOver (chunks : List (List EventValue)) : Prop :=
  ∀ before chunk after, chunks = before ++ chunk :: after →
    ∀ cpu, Handover (onCpu cpu before.flatten) (onCpu cpu chunk)

theorem reduce_accountsCpus (chunks : List Chunk)
    (handed : HandedOver (chunks.map Chunk.events)) :
    (reduce chunks).AccountsCpus (chunks.flatMap Chunk.events) := by
  induction chunks using List.reverseRecOn with
  | nil => exact accountsCpus_ofEvents [] 0 0
  | append_singleton chunks chunk ih =>
    rw [reduce_concat, List.flatMap_append, List.flatMap_singleton]
    apply AccountsCpus.merge
    · apply ih
      intro before middle after split
      apply handed before middle (after ++ [chunk.events])
      rw [List.map_append, split, List.append_assoc]
      rfl
    · intro cpu
      rw [List.flatMap_def]
      exact handed _ _ [] (by rw [List.map_append]; rfl) cpu

theorem reduce_accounts (chunks : List Chunk)
    (chained : Chained (chunks.flatMap Chunk.events)) :
    (reduce chunks).Accounts (chunks.flatMap Chunk.events) := by
  induction chunks using List.reverseRecOn with
  | nil => exact accounts_nil
  | append_singleton chunks chunk ih =>
    rw [List.flatMap_append, List.flatMap_singleton] at chained ⊢
    rw [reduce_concat]
    apply Accounts.merge _ chained
    apply ih
    intro cpu
    have chain := chained cpu
    rw [onCpu_append] at chain
    exact chain.left_of_append

end CpuContext

end LttngParallelAnalyses
