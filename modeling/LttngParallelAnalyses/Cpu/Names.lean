import LttngParallelAnalyses.Cpu.Balanced
import LttngParallelAnalyses.Cpu.Reachable

/-! The names of processes in balanced mode. `merge` takes the name that the chunk merged last
has for a process. Chunks are merged in the order of their begins, so that is not always the
chunk that saw the process last. -/

namespace LttngParallelAnalyses
open Lib Lib.Tables Lib.UnstableSort Lib.Interleaving CpuContext

namespace CpuContext

theorem cpusFormed_ofEvents (events : List EventValue) (start end_ : Timestamp) :
    (ofEvents events start end_).CpusFormed := by
  unfold ofEvents handle
  induction events using List.reverseRecOn with
  | nil => exact cpusFormed_fresh start end_
  | append_singleton events event ih =>
    rw [List.foldl_concat]
    exact ih.handleSchedSwitch event

def nameOf (ctx : CpuContext) (t : Int32) : Option String := (ctx.tids.lookup t).map (·.comm)

/-- The event that switched a process out last, in the order of the list. -/
def lastOut (t : Int32) (events : List EventValue) : Option EventValue := (named t events).getLast?

theorem nameOf_ofEvents (events : List EventValue) (start end_ : Timestamp) (t : Int32) :
    (ofEvents events start end_).nameOf t = (lastOut t events).map (·.prevComm) := by
  rw [nameOf, (accounts_ofEvents events start end_).table, entry, Option.map_map]
  rfl

/-- A process that the other context knows takes the name that it has there. -/
theorem nameOf_merge (ctx : CpuContext) {other : CpuContext} (formed : other.CpusFormed)
    (t : Int32) : (ctx.merge other).nameOf t = (other.nameOf t).or (ctx.nameOf t) := by
  rw [nameOf, lookup_merge ctx other t (formed.billed ctx t), nameOf, nameOf]
  cases other.tids.lookup t with
  | none => rfl
  | some p => cases ctx.tids.lookup t <;> rfl

theorem lastOut_append (t : Int32) (first second : List EventValue) :
    lastOut t (first ++ second) = (lastOut t second).or (lastOut t first) := by
  unfold lastOut named
  rw [List.filter_append, List.getLast?_append]

/-- The merged name is that of the last event of the chunks, in the order of merging. -/
theorem nameOf_reduce (chunks : List Chunk) (t : Int32) :
    (reduce chunks).nameOf t = (lastOut t (chunks.flatMap Chunk.events)).map (·.prevComm) := by
  induction chunks using List.reverseRecOn with
  | nil => rfl
  | append_singleton chunks chunk ih =>
    rw [reduce_concat, ofChunk, nameOf_merge _ (cpusFormed_ofEvents _ _ _), nameOf_ofEvents, ih,
      List.flatMap_append, List.flatMap_singleton, lastOut_append]
    cases lastOut t chunk.events <;> rfl

end CpuContext

/-! ## Workers -/

/-- The last event of a worker that switches a process out. -/
def lastSeen (t : Int32) (worker : TraceWorker) : Option EventValue :=
  lastOut t (CpuWorker.chunk worker).events

/-- Some event of the worker switches the process out. -/
def SeesOut (t : Int32) (worker : TraceWorker) : Prop :=
  named t (CpuWorker.chunk worker).events ≠ []

instance (t : Int32) (worker : TraceWorker) : Decidable (SeesOut t worker) :=
  inferInstanceAs (Decidable (named t (CpuWorker.chunk worker).events ≠ []))

/-- No worker that sees the process switched out begins after this one, which sees it too. -/
def BeginsLast (t : Int32) (workers : List TraceWorker) (worker : TraceWorker) : Prop :=
  SeesOut t worker ∧ ∀ other ∈ workers, SeesOut t other → beginsBefore worker other = false

/-- The workers that begin last among those that see the process agree on its name. -/
def LastNameIs (t : Int32) (workers : List TraceWorker) (name : String) : Prop :=
  ∀ worker ∈ workers, BeginsLast t workers worker →
    (lastSeen t worker).map (·.prevComm) = some name

theorem getLast?_flatMap {α β : Type} (f : α → List β) {items : List α} {last : α}
    (own : items.getLast? = some last) (nonempty : f last ≠ []) :
    (items.flatMap f).getLast? = (f last).getLast? := by
  obtain ⟨before, rfl⟩ := List.getLast?_eq_some_iff.mp own
  rw [List.flatMap_append, List.flatMap_singleton, List.getLast?_append_of_ne_nil _ nonempty]

/-- The name of a process after merging is the one that its last worker saw last. -/
theorem nameOf_order {order : List TraceWorker} {t : Int32} {last : TraceWorker}
    (own : (order.filter (fun worker => SeesOut t worker)).getLast? = some last) :
    (reduce (order.map CpuWorker.chunk)).nameOf t = (lastSeen t last).map (·.prevComm) := by
  have sees : SeesOut t last := by
    simpa using (List.mem_filter.mp (List.mem_of_mem_getLast? own)).2
  have parts : named t ((order.map CpuWorker.chunk).flatMap Chunk.events) =
      (order.filter (fun worker => SeesOut t worker)).flatMap
        (fun worker => named t (CpuWorker.chunk worker).events) := by
    rw [List.flatMap_map]
    exact flatMap_filter_nonempty _ _ _
  rw [nameOf_reduce, lastOut, parts,
    getLast?_flatMap (fun worker => named t (CpuWorker.chunk worker).events) own sees]
  rfl

/-- In every sorted order the merged name is this one, exactly where it is the one that the
workers beginning last give. -/
theorem nameOf_orders_iff {workers : List TraceWorker} {t : Int32}
    (seen : ∃ worker ∈ workers, SeesOut t worker) (name : String) :
    (∀ order, SortedByBegin workers order →
        (reduce (order.map CpuWorker.chunk)).nameOf t = some name) ↔
      LastNameIs t workers name := by
  constructor
  · intro every worker member beginsLast
    obtain ⟨order, sorted, own⟩ := exists_sortedBy_last beginsBefore_asymm beginsBefore_trans
      (fun worker => SeesOut t worker) member (by simpa using beginsLast.1)
      (by simpa using beginsLast.2)
    rw [← nameOf_order own]
    exact every order (sortedByBegin_iff.mpr sorted)
  · intro agreed order sorted
    obtain ⟨worker, member, sees⟩ := seen
    have present : order.filter (fun worker => SeesOut t worker) ≠ [] := by
      apply List.ne_nil_of_mem
      exact List.mem_filter.mpr ⟨sorted.1.mem_iff.mpr member, by simpa using sees⟩
    have own := List.getLast?_eq_some_getLast present
    have greatest := (sortedByBegin_iff.mp sorted).last_greatest beginsBefore_asymm _ own
    rw [nameOf_order own]
    refine agreed _ greatest.1 ⟨by simpa using greatest.2.1, ?_⟩
    simpa using greatest.2.2

/-! ## Streams -/

variable {streams : List CutStream} {whole : TraceSet}

theorem exists_seesOut {t : Int32} {event : EventValue}
    (member : event ∈ named t (streams.flatMap CutStream.switches)) :
    ∃ worker ∈ streams.flatMap CutStream.workers, SeesOut t worker := by
  obtain ⟨inside, own⟩ := List.mem_filter.mp member
  obtain ⟨stream, present, held⟩ := List.mem_flatMap.mp inside
  rw [← events_stream, List.flatMap_map, List.mem_flatMap] at held
  obtain ⟨worker, among, holds⟩ := held
  refine ⟨worker, List.mem_flatMap.mpr ⟨stream, present, among⟩, ?_⟩
  exact List.ne_nil_of_mem (List.mem_filter.mpr ⟨holds, own⟩)

theorem Merges.mem_switches (merges : Merges streams whole) (event : EventValue) :
    event ∈ schedSwitches whole whole.events ↔ event ∈ streams.flatMap CutStream.switches := by
  rw [schedSwitches_eq_filter, List.mem_filter, merges.interleaved.mem_iff, List.mem_flatMap]
  have each : ∀ stream ∈ streams, event ∈ stream.switches ↔
      event ∈ stream.trace.events ∧ isSchedSwitch whole event = true := by
    intro stream present
    rw [CutStream.switches, schedSwitches_congr (merges.infos stream present),
      schedSwitches_eq_filter, List.mem_filter]
  constructor
  · intro found
    obtain ⟨⟨events, among, held⟩, kind⟩ := found
    obtain ⟨stream, present, rfl⟩ := List.mem_map.mp among
    exact ⟨stream, present, (each stream present).mpr ⟨held, kind⟩⟩
  · intro found
    obtain ⟨stream, present, held⟩ := found
    have both := (each stream present).mp held
    exact ⟨⟨_, List.mem_map_of_mem present, both.1⟩, both.2⟩

/-- The event is the latest of all that switch the process out. -/
def LatestOut (t : Int32) (events : List EventValue) (event : EventValue) : Prop :=
  event ∈ named t events ∧ ∀ other ∈ named t events, other.timestamp ≤ event.timestamp

/-- A serial pass ends with the name in the latest event. -/
theorem lastOut_sorted {t : Int32} {events : List EventValue} {event : EventValue}
    (sorted : TimeSorted events) (latest : LatestOut t events event)
    (distinct : ∀ first ∈ named t events, ∀ second ∈ named t events,
      first.timestamp = second.timestamp → first = second) : lastOut t events = some event := by
  obtain ⟨before, last, split⟩ :=
    (List.eq_nil_or_concat' (named t events)).resolve_left (List.ne_nil_of_mem latest.1)
  have order : TimeSorted (named t events) := sorted.filter _
  have final : last ∈ named t events := by
    rw [split]
    exact List.mem_concat_self
  have later : event.timestamp ≤ last.timestamp := by
    have member := latest.1
    rw [split] at member order
    rcases List.mem_append.mp member with earlier | same
    · exact (List.pairwise_append.mp order).2.2 event earlier last (List.mem_singleton_self _)
    · rw [List.mem_singleton.mp same]
  rw [lastOut, split, List.getLast?_concat,
    distinct last final event latest.1 (le_antisymm (latest.2 last final) later)]

/-- A serial pass stores the name in the latest event. Balanced mode does, in every order sorted
by begin, exactly where the workers that begin last among those that see the process saw it last
under that name. -/
theorem balanced_name_iff (streams : List CutStream) (whole : TraceSet)
    (merges : Merges streams whole) (t : Int32) (event : EventValue)
    (latest : LatestOut t (streams.flatMap CutStream.switches) event)
    (distinct : ∀ first ∈ named t (streams.flatMap CutStream.switches),
      ∀ second ∈ named t (streams.flatMap CutStream.switches),
        first.timestamp = second.timestamp → first = second) :
    (ofEvents (schedSwitches whole whole.events) whole.getBegin whole.getEnd).nameOf t =
      some event.prevComm ∧
    ((∀ order, SortedByBegin (streams.flatMap CutStream.workers) order →
        ((order.map cpuAnalysis.doMap).foldl cpuAnalysis.doReduce cpuAnalysis.initial).nameOf t =
          some event.prevComm) ↔
      LastNameIs t (streams.flatMap CutStream.workers) event.prevComm) := by
  have same : ∀ other, other ∈ named t (schedSwitches whole whole.events) ↔
      other ∈ named t (streams.flatMap CutStream.switches) := by
    intro other
    rw [named, named, List.mem_filter, List.mem_filter, merges.mem_switches]
  constructor
  · have last := lastOut_sorted (schedSwitches_sorted whole whole.sorted)
      ⟨(same event).mpr latest.1, fun other member => latest.2 other ((same other).mp member)⟩
      (fun first member second member' =>
        distinct first ((same first).mp member) second ((same second).mp member'))
    rw [nameOf_ofEvents, last]
    rfl
  · simp only [foldl_doMap]
    exact nameOf_orders_iff (exists_seesOut latest.1) event.prevComm

/-! ## A process that is renamed -/

/-- The process runs here later, under its new name. -/
def renamed : CutStream where
  trace := TraceSet.ofEvents kernelInfos
    [{ id := 3, timestamp := 70, nextTid := 7 },
      { id := 3, timestamp := 100, prevTid := 7, prevComm := "new" }]
    70 100 (by decide) (by decide) (by decide)
  cuts := []
  cutting := cutting_nil

/-- The process ran here before, in a chunk that begins at a cut. -/
def original : CutStream where
  trace := TraceSet.ofEvents kernelInfos
    [{ id := 3, timestamp := 55, cpuId := 1, nextTid := 7 },
      { id := 3, timestamp := 60, cpuId := 1, prevTid := 7, prevComm := "old" }]
    40 60 (by decide) (by decide) (by decide)
  cuts := [50]
  cutting := ⟨by decide, by simp [maxTimestamp]⟩

def moved : TraceSet :=
  TraceSet.ofEvents kernelInfos
    [{ id := 3, timestamp := 55, cpuId := 1, nextTid := 7 },
      { id := 3, timestamp := 60, cpuId := 1, prevTid := 7, prevComm := "old" },
      { id := 3, timestamp := 70, nextTid := 7 },
      { id := 3, timestamp := 100, prevTid := 7, prevComm := "new" }]
    40 100 (by decide) (by decide) (by decide)

theorem merges_moved : Merges [renamed, original] moved where
  infos := by
    intro stream member
    rcases List.mem_cons.mp member with rfl | last
    · rfl
    · rw [List.mem_singleton.mp last]
      rfl
  interleaved := by
    apply Interleaves.take [_] [] _ [_]
    apply Interleaves.take [_] [] _ []
    apply Interleaves.take [] [_] _ [_]
    apply Interleaves.take [] [_] _ []
    exact Interleaves.done _ (by simp)
  separate := by decide
  ended := by decide

/-- The same run of the process, in a chunk that begins at a later cut than the one before. -/
def resumed : CutStream where
  trace := TraceSet.ofEvents kernelInfos
    [{ id := 3, timestamp := 70, nextTid := 7 },
      { id := 3, timestamp := 100, prevTid := 7, prevComm := "new" }]
    62 100 (by decide) (by decide) (by decide)
  cuts := [65]
  cutting := ⟨by decide, by simp [maxTimestamp]⟩

theorem merges_resumed : Merges [resumed, original] moved where
  infos := by
    intro stream member
    rcases List.mem_cons.mp member with rfl | last
    · rfl
    · rw [List.mem_singleton.mp last]
      rfl
  interleaved := merges_moved.interleaved
  separate := by decide
  ended := by decide

/-- Two workers see the process out, under two names. -/
theorem balanced_name_iff_moved :
    let workers := [resumed, original].flatMap CutStream.workers
    (ofEvents (schedSwitches moved moved.events) 40 100).nameOf 7 = some "new" ∧
      ∀ order, SortedByBegin workers order →
        ((order.map cpuAnalysis.doMap).foldl cpuAnalysis.doReduce cpuAnalysis.initial).nameOf 7 =
          some "new" := by
  have both := balanced_name_iff [resumed, original] moved merges_resumed 7
    { id := 3, timestamp := 100, prevTid := 7, prevComm := "new" } ⟨by decide, by decide⟩
    (by decide)
  exact ⟨both.1, both.2.mpr (by unfold LastNameIs BeginsLast; decide)⟩

/-- The merged name is the old one, in a chained trace of two streams. -/
theorem balanced_name_outdated :
    Merges [renamed, original] moved ∧ Chained (schedSwitches moved moved.events) ∧
      ¬ ∀ order, SortedByBegin ([renamed, original].flatMap CutStream.workers) order →
        ((order.map cpuAnalysis.doMap).foldl cpuAnalysis.doReduce cpuAnalysis.initial).nameOf 7 =
          some "new" := by
  refine ⟨merges_moved, by decide, fun every => ?_⟩
  have sorted : SortedByBegin ([renamed, original].flatMap CutStream.workers)
      ([renamed, original].flatMap CutStream.workers) := ⟨List.Perm.refl _, by decide⟩
  have merged := every _ sorted
  rw [foldl_doMap, nameOf_reduce] at merged
  exact absurd merged (by decide)

end LttngParallelAnalyses
