import LttngParallelAnalyses.Common.MergeOrder
import LttngParallelAnalyses.Cpu.Parallel
import LttngParallelAnalyses.Lib.Interleaving

/-! Balanced mode, where the switches of a CPU lie in one stream. The workers of that stream
that hold some of them have increasing begins, so every order sorted by begin keeps them in
time order, and the workers in between do not touch the CPU. -/

namespace LttngParallelAnalyses
open Lib Lib.Interleaving CpuContext

/-- A stream and the cuts that are chosen for it. -/
structure CutStream where
  trace : TraceSet
  cuts : List Timestamp
  cutting : Cutting cuts

namespace CutStream

def workers (stream : CutStream) : List TraceWorker := streamWorkers stream.trace stream.cuts

def switches (stream : CutStream) : List EventValue :=
  schedSwitches stream.trace stream.trace.events

end CutStream

/-- The trace as a whole: it interleaves the streams, and each CPU lies in one of them. -/
structure Merges (streams : List CutStream) (whole : TraceSet) : Prop where
  infos : ∀ stream ∈ streams, stream.trace.tracesInfos = whole.tracesInfos
  interleaved : Interleaves (streams.map (fun stream => stream.trace.events)) whole.events
  separate : streams.Pairwise (fun first second => ∀ event ∈ first.switches,
    ∀ event' ∈ second.switches, event.cpuId ≠ event'.cpuId)
  ended : whole.getEnd = latest (streams.map (fun stream => stream.trace.getEnd))

theorem flatMap_filter_nonempty {α β : Type} (p : β → Bool) (f : α → List β) (items : List α) :
    (items.flatMap f).filter p =
      (items.filter (fun a => (f a).filter p ≠ [])).flatMap (fun a => (f a).filter p) := by
  induction items with
  | nil => rfl
  | cons a rest ih =>
    rw [List.flatMap_cons, List.filter_append, ih]
    by_cases empty : (f a).filter p = []
    · rw [List.filter_cons_of_neg (by simpa using empty), empty, List.nil_append]
    · rw [List.filter_cons_of_pos (by simpa using empty), List.flatMap_cons]

/-- The events of a worker on one CPU. -/
def workerOn (cpu : UInt32) (worker : TraceWorker) : List EventValue :=
  onCpu cpu (CpuWorker.chunk worker).events

theorem mem_workerOn {cpu : UInt32} {worker : TraceWorker} {event : EventValue} :
    event ∈ workerOn cpu worker ↔
      event ∈ onCpu cpu (schedSwitches worker.traceSet worker.traceSet.events) ∧
        Within worker.beginPos worker.endPos event.timestamp := by
  simp only [workerOn, CpuWorker.chunk, mem_onCpu, schedSwitches_eq_filter, List.mem_filter,
    TraceWorker.mem_events]
  tauto

theorem onCpu_workers (cpu : UInt32) (workers : List TraceWorker) :
    onCpu cpu ((workers.map CpuWorker.chunk).flatMap Chunk.events) =
      (workers.filter (fun worker => workerOn cpu worker ≠ [])).flatMap (workerOn cpu) := by
  rw [List.flatMap_map]
  exact flatMap_filter_nonempty _ _ _

/-- The workers of a stream that hold events of a CPU begin one after the other. -/
theorem workers_strict (stream : CutStream) (cpu : UInt32) :
    (stream.workers.filter (fun worker => workerOn cpu worker ≠ [])).Pairwise
      (fun a b => beginsBefore a b = true) := by
  apply ((streamWorkers_pairwise stream.trace stream.cutting).filter _).imp_of_mem
  intro a b first second apart
  rw [List.mem_filter, decide_eq_true_eq] at first second
  obtain ⟨event, member⟩ := List.exists_mem_of_ne_nil _ first.2
  obtain ⟨event', member'⟩ := List.exists_mem_of_ne_nil _ second.2
  exact (apart _ _ (mem_workerOn.mp member).2 (mem_workerOn.mp member').2).1

/-- The chunks of a stream hold its switches once each, in order. -/
theorem events_stream (stream : CutStream) :
    (stream.workers.map CpuWorker.chunk).flatMap Chunk.events = stream.switches := by
  rw [CutStream.workers, map_chunk_streamWorkers stream.trace stream.cutting,
    cutInto_events _ _ (schedSwitches_sorted _ stream.trace.sorted) stream.cutting.ordered]
  rfl

/-- A stream without events of a CPU has no worker that holds any. -/
theorem workers_none {stream : CutStream} {cpu : UInt32} (none_there : onCpu cpu stream.switches = []) :
    stream.workers.filter (fun worker => workerOn cpu worker ≠ []) = [] := by
  rw [List.filter_eq_nil_iff]
  intro worker member
  rw [decide_eq_true_eq, not_not, List.eq_nil_iff_forall_not_mem]
  intro event inside
  have held := (mem_workerOn.mp inside).1
  rw [streamWorkers_traceSet member] at held
  exact List.not_mem_nil (none_there ▸ held)

variable {streams : List CutStream} {whole : TraceSet} {order : List TraceWorker}

private def selects (whole : TraceSet) (cpu : UInt32) (event : EventValue) : Bool :=
  event.cpuId = cpu && isSchedSwitch whole event

private theorem onCpu_schedSwitches (cpu : UInt32) (events : List EventValue) :
    onCpu cpu (schedSwitches whole events) = events.filter (selects whole cpu) := by
  rw [onCpu, schedSwitches_eq_filter, List.filter_filter]
  rfl

private theorem Merges.selected (merges : Merges streams whole) (cpu : UInt32) {stream : CutStream}
    (member : stream ∈ streams) :
    onCpu cpu stream.switches = stream.trace.events.filter (selects whole cpu) := by
  rw [CutStream.switches, schedSwitches_congr (merges.infos stream member), onCpu_schedSwitches]

/-- The whole trace holds the events of a CPU as the one stream that has any. -/
theorem Merges.onCpu_eq {before after : List CutStream} {stream : CutStream}
    (merges : Merges (before ++ stream :: after) whole) (cpu : UInt32)
    (none_before : ∀ other ∈ before, onCpu cpu other.switches = [])
    (none_after : ∀ other ∈ after, onCpu cpu other.switches = []) :
    onCpu cpu (schedSwitches whole whole.events) = onCpu cpu stream.switches := by
  have unselected : ∀ others : List CutStream,
      (∀ other ∈ others, other ∈ before ++ stream :: after) →
      (∀ other ∈ others, onCpu cpu other.switches = []) →
      ∀ events ∈ others.map (fun other => other.trace.events), ∀ event ∈ events,
        selects whole cpu event = false := by
    intro others inside none_there events member event present
    obtain ⟨other, among, rfl⟩ := List.mem_map.mp member
    have empty := merges.selected cpu (inside other among)
    rw [none_there other among, eq_comm, List.filter_eq_nil_iff] at empty
    simpa using empty event present
  have interleaved := merges.interleaved
  rw [List.map_append, List.map_cons] at interleaved
  rw [onCpu_schedSwitches, merges.selected cpu (by simp)]
  apply interleaved.filter_eq
  · exact unselected before (fun _ => List.mem_append_left _) none_before
  · exact unselected after
      (fun _ among => List.mem_append_right _ (List.mem_cons_of_mem _ among)) none_after

theorem Merges.onCpu_eq_nil (merges : Merges streams whole) (cpu : UInt32)
    (none_there : ∀ stream ∈ streams, onCpu cpu stream.switches = []) :
    onCpu cpu (schedSwitches whole whole.events) = [] := by
  rw [onCpu_schedSwitches, List.filter_eq_nil_iff]
  intro event member selected
  obtain ⟨events, among, inside⟩ := (merges.interleaved.mem_iff event).mp member
  obtain ⟨stream, present, rfl⟩ := List.mem_map.mp among
  have held : event ∈ stream.trace.events.filter (selects whole cpu) :=
    List.mem_filter.mpr ⟨inside, selected⟩
  rw [← merges.selected cpu present, none_there stream present] at held
  exact List.not_mem_nil held

/-- A CPU that has events in one stream has none in the others. -/
theorem Merges.alone {before after : List CutStream} {stream : CutStream}
    (merges : Merges (before ++ stream :: after) whole) {cpu : UInt32}
    (present : onCpu cpu stream.switches ≠ []) :
    (∀ other ∈ before, onCpu cpu other.switches = []) ∧
      ∀ other ∈ after, onCpu cpu other.switches = [] := by
  obtain ⟨event, held⟩ := List.exists_mem_of_ne_nil _ present
  have apart := List.pairwise_append.mp merges.separate
  constructor
  · intro other among
    rw [List.eq_nil_iff_forall_not_mem]
    intro event' held'
    have differ := apart.2.2 other among stream List.mem_cons_self event' (mem_onCpu.mp held').1
      event (mem_onCpu.mp held).1
    exact differ ((mem_onCpu.mp held').2.trans (mem_onCpu.mp held).2.symm)
  · intro other among
    rw [List.eq_nil_iff_forall_not_mem]
    intro event' held'
    have differ := List.rel_of_pairwise_cons apart.2.1 among event (mem_onCpu.mp held).1 event'
      (mem_onCpu.mp held').1
    exact differ ((mem_onCpu.mp held).2.trans (mem_onCpu.mp held').2.symm)

theorem streams_none {cpu : UInt32} (none_there : ∀ stream ∈ streams, onCpu cpu stream.switches = []) :
    (streams.flatMap CutStream.workers).filter (fun worker => workerOn cpu worker ≠ []) = [] := by
  rw [List.filter_flatMap, List.flatMap_eq_nil_iff]
  exact fun stream member => workers_none (none_there stream member)

/-- Merging in begin order keeps the events of every CPU as they are in the whole trace. -/
theorem onCpu_order (merges : Merges streams whole)
    (sorted : SortedByBegin (streams.flatMap CutStream.workers) order) (cpu : UInt32) :
    onCpu cpu ((order.map CpuWorker.chunk).flatMap Chunk.events) =
      onCpu cpu (schedSwitches whole whole.events) := by
  rw [onCpu_workers]
  by_cases here : ∃ stream ∈ streams, onCpu cpu stream.switches ≠ []
  · obtain ⟨stream, member, present⟩ := here
    obtain ⟨before, after, rfl⟩ := List.append_of_mem member
    obtain ⟨none_before, none_after⟩ := merges.alone present
    have selected : ((before ++ stream :: after).flatMap CutStream.workers).filter
        (fun worker => workerOn cpu worker ≠ []) =
          stream.workers.filter (fun worker => workerOn cpu worker ≠ []) := by
      rw [List.flatMap_append, List.flatMap_cons, List.filter_append, List.filter_append,
        streams_none none_before, streams_none none_after, List.nil_append, List.append_nil]
    have kept := (sortedByBegin_iff.mp sorted).filter_eq beginsBefore_asymm
      (fun worker => workerOn cpu worker ≠ []) (by rw [selected]; exact workers_strict stream cpu)
    rw [kept, selected, ← onCpu_workers, events_stream,
      merges.onCpu_eq cpu none_before none_after]
  · have none_there : ∀ stream ∈ streams, onCpu cpu stream.switches = [] := by
      intro stream member
      by_contra present
      exact here ⟨stream, member, present⟩
    have empty : order.filter (fun worker => workerOn cpu worker ≠ []) = [] := by
      rw [← List.perm_nil, ← streams_none none_there]
      exact sorted.1.filter _
    rw [empty, merges.onCpu_eq_nil cpu none_there]
    rfl

theorem order_ends (sorted : SortedByBegin (streams.flatMap CutStream.workers) order) :
    ((order.map CpuWorker.chunk).map Chunk.end_).Perm
      (streams.flatMap (fun stream => stream.cuts ++ [stream.trace.getEnd])) := by
  apply ((sorted.1.map CpuWorker.chunk).map Chunk.end_).trans
  rw [List.map_flatMap, List.map_flatMap]
  have each : ∀ stream : CutStream, (stream.workers.map CpuWorker.chunk).map Chunk.end_ =
      stream.cuts ++ [stream.trace.getEnd] := by
    intro stream
    rw [CutStream.workers, map_chunk_streamWorkers stream.trace stream.cutting, cutInto_ends]
  simp only [each]
  exact List.Perm.refl _

theorem reduce_order_end (merges : Merges streams whole)
    (sorted : SortedByBegin (streams.flatMap CutStream.workers) order) :
    (reduce (order.map CpuWorker.chunk)).end_ =
      mergedEnd whole.getEnd (streams.flatMap CutStream.cuts) := by
  apply eq_of_forall_ge_iff
  intro bound
  rw [reduce_end, latest_le_iff, mergedEnd, max_le_iff, latest_le_iff, merges.ended,
    latest_le_iff]
  simp only [(order_ends sorted).mem_iff]
  constructor
  · intro ended
    refine ⟨fun cut member => ?_, fun end_ member => ?_⟩
    · obtain ⟨stream, present, inside⟩ := List.mem_flatMap.mp member
      exact ended cut (List.mem_flatMap.mpr ⟨stream, present, List.mem_append_left _ inside⟩)
    · obtain ⟨stream, present, rfl⟩ := List.mem_map.mp member
      exact ended _ (List.mem_flatMap.mpr ⟨stream, present, by simp⟩)
  · intro bounds
    obtain ⟨cuts, ends⟩ := bounds
    intro t member
    obtain ⟨stream, present, inside⟩ := List.mem_flatMap.mp member
    rcases List.mem_append.mp inside with cut | last
    · exact cuts t (List.mem_flatMap.mpr ⟨stream, present, cut⟩)
    · rw [List.mem_singleton.mp last]
      exact ends _ (List.mem_map.mpr ⟨stream, present, rfl⟩)

/-- Where the switches of each CPU lie in one stream, the merged workers of all streams, in
any order sorted by begin, give the times of a serial pass over the whole trace. -/
theorem balanced_agrees_serial (streams : List CutStream) (whole : TraceSet)
    (order : List TraceWorker) (merges : Merges streams whole)
    (chained : Chained (schedSwitches whole whole.events))
    (sorted : SortedByBegin (streams.flatMap CutStream.workers) order) :
    SameTimes
      (cpuAnalysis.doEnd
        ((order.map cpuAnalysis.doMap).foldl cpuAnalysis.doReduce cpuAnalysis.initial))
      (ofEvents (schedSwitches whole whole.events) whole.getBegin
        (mergedEnd whole.getEnd (streams.flatMap CutStream.cuts))).handleEnd ∧
    ((∀ stream ∈ streams, ∀ cut ∈ stream.cuts, cut ≤ whole.getEnd) →
      ∀ serial, CpuAnalysis.doExecuteSerial whole = some serial →
        SameTimes
          (cpuAnalysis.doEnd
            ((order.map cpuAnalysis.doMap).foldl cpuAnalysis.doReduce cpuAnalysis.initial))
          serial) := by
  rw [foldl_doMap]
  have same := onCpu_order merges sorted
  have joined : Chained ((order.map CpuWorker.chunk).flatMap Chunk.events) := by
    intro cpu
    rw [same cpu]
    exact chained cpu
  have accounts := reduce_accounts (order.map CpuWorker.chunk) joined
  have closed := reduce_order_end merges sorted
  constructor
  · apply accounts.sameTimes (accounts_ofEvents _ _ _) same
    rw [closed, ofEvents_end]
  · intro inside serial ran
    have cuts_inside : ∀ cut ∈ streams.flatMap CutStream.cuts, cut ≤ whole.getEnd := by
      intro cut member
      obtain ⟨stream, present, own⟩ := List.mem_flatMap.mp member
      exact inside stream present cut own
    rw [CpuAnalysis.eq_of_doExecuteSerial ran]
    apply accounts.sameTimes (accounts_ofEvents _ _ _) same
    rw [closed, ofEvents_end, mergedEnd_eq cuts_inside]

/-! ## A trace of two streams -/

def kernelInfos : List TraceInfos := [⟨"lttng-kernel", [("sched_switch", 3)]⟩]

def onCpu0 : CutStream where
  trace := TraceSet.ofEvents kernelInfos
    [{ id := 3, timestamp := 10, nextTid := 5 }, { id := 3, timestamp := 30, prevTid := 5 }]
    10 30 (by decide) (by decide) (by decide)
  cuts := [20]
  cutting := ⟨by decide, by simp [maxTimestamp]⟩

def onCpu1 : CutStream where
  trace := TraceSet.ofEvents kernelInfos [{ id := 3, timestamp := 15, cpuId := 1, nextTid := 7 }]
    15 40 (by decide) (by decide) (by decide)
  cuts := []
  cutting := ⟨by decide, by simp [maxTimestamp]⟩

def bothCpus : TraceSet :=
  TraceSet.ofEvents kernelInfos
    [{ id := 3, timestamp := 10, nextTid := 5 },
      { id := 3, timestamp := 15, cpuId := 1, nextTid := 7 },
      { id := 3, timestamp := 30, prevTid := 5 }]
    10 40 (by decide) (by decide) (by decide)

theorem merges_bothCpus : Merges [onCpu0, onCpu1] bothCpus where
  infos := by
    intro stream member
    rcases List.mem_cons.mp member with rfl | last
    · rfl
    · rw [List.mem_singleton.mp last]
      rfl
  interleaved := by
    apply Interleaves.take [] _ _ [_]
    apply Interleaves.take [_] [] _ []
    apply Interleaves.take [] _ _ []
    exact Interleaves.done _ (by simp)
  separate := by
    decide
  ended := by decide

theorem balanced_agrees_serial_bothCpus :
    SameTimes
      (cpuAnalysis.doEnd (([TraceWorker.new 0 onCpu0.trace none (some 20),
        TraceWorker.new 0 onCpu1.trace none none,
        TraceWorker.new 1 onCpu0.trace (some 20) none].map cpuAnalysis.doMap).foldl
          cpuAnalysis.doReduce cpuAnalysis.initial))
      (ofEvents (schedSwitches bothCpus bothCpus.events) 10 (mergedEnd 40 [20])).handleEnd := by
  apply (balanced_agrees_serial [onCpu0, onCpu1] bothCpus _ merges_bothCpus (by decide) _).1
  constructor
  · exact List.Perm.cons _ (List.Perm.swap _ _ _)
  · decide

end LttngParallelAnalyses
