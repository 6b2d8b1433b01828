import LttngParallelAnalyses.Cpu.Subtractions
import LttngParallelAnalyses.Io.Chunked

/-! The subtractions of times that an I/O run carries out: in `handleExitSyscall` and in `merge`.
With those of a CPU run, none of them wraps in a trace in time order, however it is cut. -/

namespace LttngParallelAnalyses
open Lib Lib.Tables Lib.KeyedFold Tracked

namespace IoContext

/-- `timestamp - p.currentSyscall->start`, which a failed syscall does not reach. -/
def exitSubtractions (ctx : IoContext) (tracked : Tracked) : List Subtraction :=
  match tracked.handler,
    tracked.event.tid.bind (fun tid => (ctx.tids.lookup tid).bind (·.currentSyscall)) with
  | .exitSyscall, some call =>
    if tracked.event.ret ≥ 0 then
      [{ minuend := tracked.event.timestamp, subtrahend := call.start }]
    else []
  | _, _ => []

def handleSubtractions (ctx : IoContext) : List Tracked → List Subtraction
  | [] => []
  | tracked :: rest => exitSubtractions ctx tracked ++ handleSubtractions (ctx.handle tracked) rest

/-- `otherProcess.unknownSyscall->end - thisProcess.currentSyscall->start`, whatever the type and
the return value of the syscall. -/
def overlap (thisProcess : Option IoProcess) (otherProcess : IoProcess) : Option Subtraction :=
  match thisProcess.bind (·.currentSyscall), otherProcess.unknownSyscall with
  | some call, some unknown => some { minuend := unknown.end_, subtrahend := call.start }
  | _, _ => none

/-- One round of the loop of `merge`, with the subtractions so far. -/
def mergeStep (state : Hash Int32 IoProcess × List Subtraction) (otherProcess : IoProcess) :
    Hash Int32 IoProcess × List Subtraction :=
  let thisProcess := state.1.lookup otherProcess.tid
  (AList.insert otherProcess.tid (mergeProcess thisProcess otherProcess) state.1,
    state.2 ++ (overlap thisProcess otherProcess).toList)

def mergeRun (ctx other : IoContext) : Hash Int32 IoProcess × List Subtraction :=
  (other.tids.entries.map (·.2)).foldl mergeStep (ctx.tids, [])

def mergeSubtractions (ctx other : IoContext) : List Subtraction := (mergeRun ctx other).2

def reduceSubtractions (ctx : IoContext) : List IoContext → List Subtraction
  | [] => []
  | other :: rest => mergeSubtractions ctx other ++ reduceSubtractions (ctx.merge other) rest

/-- The subtractions of a whole run: those of the workers and those of the reduction. -/
def runSubtractions (chunks : List (List Tracked)) : List Subtraction :=
  chunks.flatMap (handleSubtractions {}) ++ reduceSubtractions {} (chunks.map ofTracked)

/-- The recorded loop is the loop of `merge`. -/
theorem mergeRun_tids (ctx other : IoContext) : (mergeRun ctx other).1 = (ctx.merge other).tids := by
  have run : ∀ (others : List IoProcess) (state : Hash Int32 IoProcess × List Subtraction),
      (others.foldl mergeStep state).1 = others.foldl (fun tids otherProcess =>
        AList.insert otherProcess.tid (mergeProcess (tids.lookup otherProcess.tid) otherProcess)
          tids) state.1 := by
    intro others
    induction others with
    | nil => exact fun _ => rfl
    | cons otherProcess rest ih => exact fun state => ih _
  exact run _ _

/-- The latencies that the end of a syscall adds are the difference, each where it is due. -/
theorem usage_latencies (call : Syscall) (timestamp : Timestamp) (ret : Int64) :
    let latency := Subtraction.difference { minuend := timestamp, subtrahend := call.start }
    (usage call timestamp ret).totalReadLatency =
        (if ret ≥ 0 ∧ (call.type = .read ∨ call.type = .readWrite) then latency else 0) ∧
      (usage call timestamp ret).totalWriteLatency =
        (if ret ≥ 0 ∧ (call.type = .write ∨ call.type = .readWrite) then latency else 0) := by
  unfold usage IoProcess.exitSyscall IoProcess.countRead IoProcess.countWrite
  by_cases done : ret ≥ 0 <;>
    by_cases reads : call.type = .read ∨ call.type = .readWrite <;>
    by_cases writes : call.type = .write ∨ call.type = .readWrite <;>
    simp [done, reads, writes, Subtraction.difference]

/-! ## Where the times come from -/

/-- The loop of `merge`, as local steps. -/
def joining : Keyed (Hash Int32 IoProcess × List Subtraction) IoProcess Int32
    (Option IoProcess) where
  step := mergeStep
  key otherProcess := some otherProcess.tid
  view state t := state.1.lookup t
  act found otherProcess := some (mergeProcess found otherProcess)
  view_step state otherProcess t := by
    simp only [mergeStep, Hash.lookup_insert_if, Option.some.injEq]
    by_cases own : otherProcess.tid = t
    · subst own
      rfl
    · simp [own]

private theorem join_log (others : List IoProcess)
    (state : Hash Int32 IoProcess × List Subtraction) :
    (others.foldl mergeStep state).2 =
      state.2 ++ joining.readings (fun p => p.tid) overlap state others := by
  induction others generalizing state with
  | nil => exact (List.append_nil _).symm
  | cons otherProcess rest ih =>
    rw [List.foldl_cons, ih, Keyed.readings, ← List.append_assoc]
    rfl

theorem mergeSubtractions_eq (ctx : IoContext) {other : IoContext} (own : other.OwnTids) :
    mergeSubtractions ctx other = (other.tids.entries.map (·.2)).filterMap
      (fun otherProcess => overlap (ctx.tids.lookup otherProcess.tid) otherProcess) := by
  have named : (other.tids.entries.map (·.2)).map (fun p => p.tid) = other.tids.keys := by
    rw [List.map_map]
    apply List.map_congr_left
    intro entry member
    exact own entry.1 entry.2 (AList.mem_lookup_iff.mpr member)
  have distinct : ((other.tids.entries.map (·.2)).map (fun p => p.tid)).Nodup := by
    rw [named]
    exact other.tids.keys_nodup
  rw [mergeSubtractions, mergeRun, join_log, List.nil_append,
    joining.readings_distinct (fun p => p.tid) (fun _ => rfl) _ _ _ distinct]
  rfl

/-- Every open syscall was started by one of the events. -/
def OpenedBy (ctx : IoContext) (events : List Tracked) : Prop :=
  ∀ t call, (ctx.tids.lookup t).bind (·.currentSyscall) = some call →
    ∃ tracked ∈ events, call.start = tracked.event.timestamp

theorem act_started {tracked : Tracked} {p : IoProcess} {call : Syscall}
    (open_ : (tracked.act p).currentSyscall = some call) :
    call.start = tracked.event.timestamp := by
  have entered : ∀ type, (p.enterSyscall tracked.event type).currentSyscall = some call →
      call.start = tracked.event.timestamp := by
    intro type entry
    simp only [IoProcess.enterSyscall, Option.some.injEq] at entry
    rw [← entry]
    by_cases file : type = .read ∨ type = .write <;> simp [file]
  unfold act at open_
  cases kind : tracked.handler with
  | exitSyscall =>
    rw [kind] at open_
    rw [exitSyscall_currentSyscall] at open_
    cases open_
  | sysRead => exact entered .read (by rwa [kind] at open_)
  | sysWrite => exact entered .write (by rwa [kind] at open_)
  | sysReadWrite => exact entered .readWrite (by rwa [kind] at open_)

theorem act_saved {tracked : Tracked} {p : IoProcess} {call : Syscall}
    (saved : (tracked.act p).unknownSyscall = some call) :
    p.unknownSyscall = some call ∨ call.end_ = tracked.event.timestamp := by
  rw [act_unknownSyscall_eq] at saved
  split at saved
  · rw [Option.some.injEq] at saved
    exact Or.inr (by rw [← saved]; rfl)
  · exact Or.inl saved

theorem record_saved {t : Int32} {events : List Tracked} {call : Syscall}
    (saved : (record t events).bind (·.unknownSyscall) = some call) :
    ∃ tracked ∈ events, call.end_ = tracked.event.timestamp := by
  induction events using List.reverseRecOn with
  | nil => cases saved
  | append_singleton events tracked ih =>
    rw [record_concat, step, Option.bind_some] at saved
    rcases act_saved saved with before | here
    · have earlier : (record t events).bind (·.unknownSyscall) = some call := by
        cases found : record t events with
        | none => simp [found, fresh] at before
        | some p => simpa [found] using before
      obtain ⟨first, member, same⟩ := ih earlier
      exact ⟨first, List.mem_append_left _ member, same⟩
    · exact ⟨tracked, by simp, here⟩

variable {ctx : IoContext} {events : List Tracked}

theorem openedBy_nil : ({} : IoContext).OpenedBy [] := by
  intro t call open_
  cases open_

theorem OpenedBy.handle (opened : ctx.OpenedBy events) (tracked : Tracked) :
    (ctx.handle tracked).OpenedBy (events ++ [tracked]) := by
  intro t call open_
  rw [handle_eq, lookup_update] at open_
  by_cases own : tracked.event.tid = some t
  · rw [if_pos own, Option.bind_some] at open_
    exact ⟨tracked, by simp, act_started open_⟩
  · rw [if_neg own] at open_
    obtain ⟨first, member, same⟩ := opened t call open_
    exact ⟨first, List.mem_append_left _ member, same⟩

theorem openedBy_ofTracked (events : List Tracked) : (ofTracked events).OpenedBy events := by
  show (handleAll {} events).OpenedBy events
  unfold handleAll
  induction events using List.reverseRecOn with
  | nil => exact openedBy_nil
  | append_singleton events tracked ih =>
    rw [List.foldl_concat]
    exact ih.handle tracked

theorem OpenedBy.merge (opened : ctx.OpenedBy events) (chunk : List Tracked) :
    (ctx.merge (ofTracked chunk)).OpenedBy (events ++ chunk) := by
  intro t call open_
  rw [lookup_merge ctx (ownTids_ofTracked chunk)] at open_
  cases here : (ofTracked chunk).tids.lookup t with
  | none =>
    rw [here, Option.elim_none] at open_
    obtain ⟨first, member, same⟩ := opened t call open_
    exact ⟨first, List.mem_append_left _ member, same⟩
  | some q =>
    rw [here, Option.elim_some, Option.bind_some, mergeProcess_currentSyscall] at open_
    obtain ⟨last, member, same⟩ := openedBy_ofTracked chunk t call (by rw [here]; exact open_)
    exact ⟨last, List.mem_append_right _ member, same⟩

/-! ## None wraps -/

/-- Tracked events in the order of their times. -/
abbrev InOrder (events : List Tracked) : Prop :=
  events.Pairwise (fun first second => first.event.timestamp ≤ second.event.timestamp)

theorem exitSubtractions_fit (opened : ctx.OpenedBy events) (tracked : Tracked)
    (later : ∀ first ∈ events, first.event.timestamp ≤ tracked.event.timestamp) :
    ∀ s ∈ exitSubtractions ctx tracked, s.Fits := by
  intro s logged
  unfold exitSubtractions at logged
  split at logged
  · rename_i call _ found
    split at logged
    · obtain ⟨t, _, open_⟩ := Option.bind_eq_some_iff.mp found
      obtain ⟨first, member, began⟩ := opened t call open_
      obtain rfl := List.mem_singleton.mp logged
      unfold Subtraction.Fits
      rw [began]
      exact later first member
    · cases logged
  · cases logged

theorem handleSubtractions_fit (rest : List Tracked) (opened : ctx.OpenedBy events)
    (sorted : InOrder (events ++ rest)) : ∀ s ∈ handleSubtractions ctx rest, s.Fits := by
  induction rest generalizing ctx events with
  | nil => simp [handleSubtractions]
  | cons tracked rest ih =>
    intro s logged
    rw [handleSubtractions, List.mem_append] at logged
    rcases logged with here | later
    · apply exitSubtractions_fit opened tracked _ s here
      intro first inside
      exact (List.pairwise_append.mp sorted).2.2 first inside tracked List.mem_cons_self
    · apply ih (opened.handle tracked) _ s later
      rwa [List.append_assoc]

theorem mergeSubtractions_fit (opened : ctx.OpenedBy events) {chunk : List Tracked}
    (ordered : ∀ first ∈ events, ∀ second ∈ chunk,
      first.event.timestamp ≤ second.event.timestamp) :
    ∀ s ∈ mergeSubtractions ctx (ofTracked chunk), s.Fits := by
  intro s logged
  rw [mergeSubtractions_eq ctx (ownTids_ofTracked chunk)] at logged
  obtain ⟨q, value, joined⟩ := List.mem_filterMap.mp logged
  obtain ⟨entry, member, rfl⟩ := List.mem_map.mp value
  have stored : (ofTracked chunk).tids.lookup entry.1 = some entry.2 :=
    AList.mem_lookup_iff.mpr member
  have found : record entry.1 (ofTid entry.1 chunk) = some entry.2 := by
    rw [← lookup_ofTracked, stored]
  unfold overlap at joined
  split at joined
  · rename_i call unknown open_ saved
    obtain ⟨first, inside, began⟩ := opened _ call open_
    obtain ⟨second, inside', closed⟩ := record_saved
      (show (record entry.1 (ofTid entry.1 chunk)).bind (·.unknownSyscall) = some unknown by
        rw [found, Option.bind_some, saved])
    rw [Option.some.injEq] at joined
    rw [← joined]
    unfold Subtraction.Fits
    rw [began, closed]
    exact ordered first inside second (List.mem_of_mem_filter inside')
  · cases joined

theorem reduceSubtractions_fit (chunks : List (List Tracked)) (opened : ctx.OpenedBy events)
    (sorted : InOrder (events ++ chunks.flatten)) :
    ∀ s ∈ reduceSubtractions ctx (chunks.map ofTracked), s.Fits := by
  induction chunks generalizing ctx events with
  | nil => simp [reduceSubtractions]
  | cons chunk rest ih =>
    intro s logged
    rw [List.flatten_cons, ← List.append_assoc] at sorted
    rw [List.map_cons, reduceSubtractions, List.mem_append] at logged
    rcases logged with here | later
    · apply mergeSubtractions_fit opened _ s here
      exact (List.pairwise_append.mp (List.pairwise_append.mp sorted).1).2.2
    · exact ih (opened.merge chunk) sorted s later

theorem runSubtractions_fit (chunks : List (List Tracked)) (sorted : InOrder chunks.flatten) :
    ∀ s ∈ runSubtractions chunks, s.Fits := by
  intro s logged
  rw [runSubtractions, List.mem_append] at logged
  rcases logged with worker | merging
  · obtain ⟨chunk, member, here⟩ := List.mem_flatMap.mp worker
    have own : InOrder chunk := sorted.sublist (List.sublist_flatten_of_mem member)
    exact handleSubtractions_fit chunk openedBy_nil own s here
  · exact reduceSubtractions_fit chunks openedBy_nil sorted s merging

/-- The chunks that cuts leave of the tracked events. -/
def cutInto (calls : List Tracked) (cuts : List Timestamp) : List (List Tracked) :=
  (Cuts.spans none cuts).map (Cuts.part (fun tracked => tracked.event.timestamp) calls)

theorem cutInto_flatten {calls : List Tracked} {cuts : List Timestamp} (sorted : InOrder calls)
    (ordered : cuts.Pairwise (· ≤ ·)) : (cutInto calls cuts).flatten = calls := by
  rw [cutInto, ← List.flatMap_def]
  exact Cuts.flatMap_parts_all _ calls cuts sorted ordered

theorem cutInto_fit {calls : List Tracked} {cuts : List Timestamp} (sorted : InOrder calls)
    (ordered : cuts.Pairwise (· ≤ ·)) : ∀ s ∈ runSubtractions (cutInto calls cuts), s.Fits := by
  apply runSubtractions_fit
  rwa [cutInto_flatten sorted ordered]

end IoContext

/-- In a trace in time order no subtraction of times wraps: not in the handlers, not in a merge
and not at the end, whichever events are missing and wherever the trace is cut. -/
theorem subtractions_fit (events : List EventValue) (calls : List Tracked)
    (traceBegin traceEnd : Timestamp) (cuts : List Timestamp) (sorted : TimeSorted events)
    (ended : ∀ event ∈ events, event.timestamp ≤ traceEnd) (sortedCalls : IoContext.InOrder calls)
    (ordered : cuts.Pairwise (· ≤ ·)) :
    (∀ s ∈ CpuContext.runSubtractions (cutInto events traceBegin traceEnd cuts), s.Fits) ∧
      ∀ s ∈ IoContext.runSubtractions (IoContext.cutInto calls cuts), s.Fits :=
  ⟨CpuContext.cutInto_fit traceBegin traceEnd sorted ended ordered,
    IoContext.cutInto_fit sortedCalls ordered⟩

/-- A task and a read that are open across a cut. -/
theorem subtractions_fit_open :
    (∀ s ∈ CpuContext.runSubtractions (cutInto longTask 0 100 [20, 50]), s.Fits) ∧
      ∀ s ∈ IoContext.runSubtractions (IoContext.cutInto IoContext.openRead.flatten [20, 50]),
        s.Fits :=
  subtractions_fit longTask IoContext.openRead.flatten 0 100 [20, 50] (by decide) (by decide)
    (by decide) (by decide)

end LttngParallelAnalyses
