import LttngParallelAnalyses.Count.Analysis

/-! When the count is exact. The `int` holds fewer than 2^31 events; the unbalanced mode wants room
for its positions on the stack, and a begin from which it can go on; and the balanced mode wants
files that are read against their own streams and cut in order. -/

namespace LttngParallelAnalyses
open Lib Lib.Interleaving

/-! ## Counts -/

/-- A run gives a result, and that is the number of events. -/
def Counts (set : TraceSet) (run : Int32 → Prop) : Prop :=
  (∃ data, run data) ∧ ∀ data, run data → data.toInt = set.events.length

theorem toInt_ofNat_eq_iff (m n : Nat) :
    (Int32.ofNat m).toInt = n ↔ n < 2 ^ 31 ∧ m ≡ n [MOD 2 ^ 32] := by
  rw [Int32.toInt_ofNat']
  simp only [Int.bmod, Int32.size, Nat.ModEq]
  omega

theorem toInt_ofNat_self_iff (n : Nat) : (Int32.ofNat n).toInt = n ↔ n < 2 ^ 31 := by
  rw [toInt_ofNat_eq_iff, and_iff_left (Nat.ModEq.refl n)]

namespace TraceFolder
variable {folder : TraceFolder} {library other : TraceLibrary}

/-- The events of a whole trace interleave those of the streams. -/
def Interleaved (folder : TraceFolder) (library : TraceLibrary) (whole : TraceSet) : Prop :=
  Interleaves (folder.streams.map (fun stream => (stream.own library).trace.events)) whole.events

/-- Another library that finds the same packets in the files. The events may be others. -/
structure SameFiles (folder : TraceFolder) (library other : TraceLibrary) : Prop where
  heap : other.heap = library.heap
  clocks : ∀ stream ∈ folder.streams, other.clockInfos (stream.own other).trace =
    library.clockInfos (stream.own library).trace

/-- Files that are counted exactly: no name has a dot, the index files are readable, the counters
of the loops suffice, and the positions of every stream are in order, below 2^64-1. -/
structure Orderly (folder : TraceFolder) (library : TraceLibrary) : Prop where
  plain : ∀ stream ∈ folder.streams, '.' ∉ stream.fileName.toList
  readable : folder.Readable
  counted : folder.Counted library
  cutting : ∀ stream ∈ folder.streams, Cutting (stream.own library).cuts

theorem SameFiles.indices (same : folder.SameFiles library other) {stream : Stream}
    (among : stream ∈ folder.streams) :
    (stream.own other).indices = (stream.own library).indices := by
  change (PacketIndex.new _ (other.clockInfos (stream.own other).trace) _).indices = _
  rw [same.heap, same.clocks stream among]
  rfl

theorem SameFiles.cuts (same : folder.SameFiles library other) {stream : Stream}
    (among : stream ∈ folder.streams) : (stream.own other).cuts = (stream.own library).cuts := by
  rw [StreamFile.cuts, StreamFile.cuts, same.indices among]

theorem SameFiles.counted (same : folder.SameFiles library other)
    (plain : ∀ stream ∈ folder.streams, '.' ∉ stream.fileName.toList) :
    folder.Counted other ↔ folder.Counted library := by
  apply CountersSuffice.congr
  intro stream shown
  have among := List.mem_of_mem_filter shown
  rw [packets_of_plain other (plain stream among), packets_of_plain library (plain stream among),
    same.indices among]

/-- A run counts what the workers of all index files process. -/
theorem count_run {data : Int32}
    (run : folder.DoExecuteParallelBalancedByLoops library countAnalysis data) :
    ∃ (fileList : List String) (indexFiles : List Stream) (parsed : Parsed),
      fileList.Perm (entryInfoList id folder.fileNames) ∧
      parseIndices library (registerTraces fileList) {} indexFiles = some parsed ∧
      data = Int32.ofNat (processed parsed.workers) := by
  obtain ⟨tasks, _⟩ := (folder.byLoops_iff library _ _).mp run
  obtain ⟨fileList, indexFiles, parsed, order, reduced, listed, _, parses, sorted, mapped, rfl⟩ :=
    (folder.byTasks_iff library _ _).mp tasks
  refine ⟨fileList, indexFiles, parsed, listed, parses, ?_⟩
  rw [← processed_perm sorted.1]
  exact mappedReduced_count.mp mapped

/-- Without dots in the names it counts what the workers of each stream process. -/
theorem count_run_plain (plain : ∀ stream ∈ folder.streams, '.' ∉ stream.fileName.toList)
    {data : Int32} (run : folder.DoExecuteParallelBalancedByLoops library countAnalysis data) :
    data = Int32.ofNat (folder.streams.map (fun stream =>
      processed (streamWorkers (stream.own library).trace (stream.own library).cuts))).sum := by
  obtain ⟨tasks, _⟩ := (folder.byLoops_iff library _ _).mp run
  obtain ⟨indexFiles, perm, counted⟩ := (folder.doExecuteParallelBalanced_iff library plain _ _).mp
    ((folder.byTasks_iff library _ _).mp tasks)
  obtain ⟨workers, computed, rfl⟩ := balanced_count.mp counted
  rw [processed_balancedWorkers computed, List.map_map]
  exact congrArg Int32.ofNat (perm.map _).sum_eq

/-- The workers of streams that are cut in order process the events of the whole trace. -/
theorem processed_streams (cutting : ∀ stream ∈ folder.streams, Cutting (stream.own library).cuts)
    {whole : TraceSet} (interleaved : folder.Interleaved library whole) :
    (folder.streams.map (fun stream =>
      processed (streamWorkers (stream.own library).trace (stream.own library).cuts))).sum =
        whole.events.length := by
  have each : folder.streams.map (fun stream =>
      processed (streamWorkers (stream.own library).trace (stream.own library).cuts)) =
      folder.streams.map (fun stream => (stream.own library).trace.events.length) :=
    List.map_congr_left (fun stream among => processed_streamWorkers _ (cutting stream among))
  rw [each, interleaved.length, List.map_map]
  rfl

/-- Files in order give the exact count of any trace that fits the counter. -/
theorem Orderly.counts (orderly : folder.Orderly library) {whole : TraceSet}
    (interleaved : folder.Interleaved library whole) (small : whole.events.length < 2 ^ 31) :
    Counts whole (folder.DoExecuteParallelBalancedByLoops library countAnalysis) := by
  refine ⟨(folder.ends_iff library countAnalysis).mpr ⟨orderly.readable, orderly.counted⟩, ?_⟩
  intro data run
  rw [count_run_plain orderly.plain run, processed_streams orderly.cutting interleaved]
  exact (toInt_ofNat_self_iff _).mpr small

theorem Orderly.congr (orderly : folder.Orderly library) (same : folder.SameFiles library other) :
    folder.Orderly other where
  plain := orderly.plain
  readable := orderly.readable
  counted := (same.counted orderly.plain).mpr orderly.counted
  cutting stream among := by
    rw [same.cuts among]
    exact orderly.cutting stream among

/-! ## Files that miscount some trace -/

/-- The one event of a directory, if it is this one. -/
def soloEvents (here : Bool) (t : Timestamp) : List EventValue :=
  if here then [{ timestamp := t }] else []

theorem timestamp_soloEvents {here : Bool} {t : Timestamp} :
    ∀ event ∈ soloEvents here t, event.timestamp = t := by
  intro event member
  cases here with
  | false => cases member
  | true => rw [List.mem_singleton.mp member]

/-- A library that finds the same packets, and one event in all streams, in this directory. -/
def soloLibrary (library : TraceLibrary) (directory : String) (t : Timestamp) : TraceLibrary where
  traceSet directories :=
    TraceSet.ofEvents (directories.map (fun name => ⟨name, []⟩))
      (soloEvents (directories = [directory]) t) t t
      (List.pairwise_of_forall_mem_list (fun a first b second => by
        rw [timestamp_soloEvents a first, timestamp_soloEvents b second]))
      (fun event member => (timestamp_soloEvents event member).ge)
      (fun event member => (timestamp_soloEvents event member).le)
  clockInfos trace :=
    -- the directories of a trace set are kept as its trace types
    library.clockInfos (library.traceSet (trace.tracesInfos.map (·.traceType)))
  heap := library.heap

/-- The whole trace. -/
def soloTrace (t : Timestamp) : TraceSet :=
  TraceSet.ofEvents [] (soloEvents true t) t t (List.pairwise_singleton _ _)
    (fun event member => (timestamp_soloEvents event member).ge)
    (fun event member => (timestamp_soloEvents event member).le)

theorem length_soloTrace (t : Timestamp) : (soloTrace t).events.length = 1 := rfl

theorem sameFiles_solo (directory : String) (t : Timestamp) :
    folder.SameFiles library (soloLibrary library directory t) := ⟨rfl, fun _ _ => rfl⟩

theorem events_solo (stream other : Stream) (t : Timestamp) :
    (stream.own (soloLibrary library (streamDirPath other.fileName) t)).trace.events =
      soloEvents (stream.fileName = other.fileName) t := by
  have same : [streamDirPath stream.fileName] = [streamDirPath other.fileName] ↔
      stream.fileName = other.fileName := by
    rw [List.singleton_inj, streamDirPath, streamDirPath, String.append_left_inj]
  change soloEvents (decide (_ = _)) t = _
  rw [decide_eq_decide.mpr same]

/-- The other streams have other names. -/
theorem exists_split {stream : Stream} (among : stream ∈ folder.streams) :
    ∃ left right, folder.streams = left ++ stream :: right ∧
      ∀ other ∈ left ++ right, other.fileName ≠ stream.fileName := by
  obtain ⟨left, right, split⟩ := List.append_of_mem among
  refine ⟨left, right, split, ?_⟩
  have distinct := folder.distinct
  rw [split, List.map_append, List.map_cons, List.nodup_middle, ← List.map_append,
    List.nodup_cons] at distinct
  exact fun other member same => distinct.1 (List.mem_map.mpr ⟨other, member, same⟩)

theorem events_solo_ne {stream other : Stream} {t : Timestamp}
    (apart : other.fileName ≠ stream.fileName) :
    (other.own (soloLibrary library (streamDirPath stream.fileName) t)).trace.events = [] := by
  rw [events_solo, decide_eq_false apart]
  rfl

theorem events_solo_self (stream : Stream) (t : Timestamp) :
    (stream.own (soloLibrary library (streamDirPath stream.fileName) t)).trace.events =
      soloEvents true t := by
  rw [events_solo, decide_eq_true rfl]

theorem interleaved_solo {stream : Stream} (among : stream ∈ folder.streams) (t : Timestamp) :
    folder.Interleaved (soloLibrary library (streamDirPath stream.fileName) t) (soloTrace t) := by
  obtain ⟨left, right, split, apart⟩ := exists_split among
  rw [Interleaved, split, List.map_append, List.map_cons, events_solo_self]
  apply Interleaves.take _ _ _ []
  apply Interleaves.done
  intro events member
  rcases List.mem_append.mp member with before | after
  · obtain ⟨other, inside, rfl⟩ := List.mem_map.mp before
    exact events_solo_ne (apart other (List.mem_append_left _ inside))
  · rcases List.mem_cons.mp after with rfl | last
    · rfl
    · obtain ⟨other, inside, rfl⟩ := List.mem_map.mp last
      exact events_solo_ne (apart other (List.mem_append_right _ inside))

end TraceFolder

/-- Workers of an empty trace process nothing. -/
theorem processed_eq_zero {workers : List TraceWorker}
    (empty : ∀ worker ∈ workers, worker.traceSet.events = []) : processed workers = 0 := by
  rw [processed, List.sum_eq_zero_iff]
  intro n member
  obtain ⟨worker, own, rfl⟩ := List.mem_map.mp member
  rw [TraceWorker.events, TraceSet.between_eq, empty worker own]
  rfl

/-- No worker of a stream processes more than all its events. -/
theorem processed_streamWorkers_le (trace : TraceSet) (cuts : List Timestamp) :
    processed (streamWorkers trace cuts) ≤ (cuts.length + 1) * trace.events.length := by
  have each : ∀ n ∈ (streamWorkers trace cuts).map (fun worker => worker.events.length),
      n ≤ trace.events.length := by
    intro n member
    obtain ⟨worker, own, rfl⟩ := List.mem_map.mp member
    rw [TraceWorker.events, TraceSet.between_eq, streamWorkers_traceSet own]
    exact List.length_filter_le _ _
  have bound := List.sum_le_card_nsmul _ _ each
  rwa [List.length_map, streamWorkers, List.length_map, List.length_range, smul_eq_mul] at bound

/-- An event that two workers hold is processed twice. -/
theorem two_le_processed {trace : TraceSet} {cuts : List Timestamp} {event : EventValue}
    (inside : event ∈ trace.events) {i j : Nat} (apart : i ≠ j)
    (first : Holds (streamWorkers trace cuts) i event.timestamp)
    (second : Holds (streamWorkers trace cuts) j event.timestamp) :
    2 ≤ processed (streamWorkers trace cuts) := by
  have one : ∀ {k}, Holds (streamWorkers trace cuts) k event.timestamp →
      ∃ h : k < (streamWorkers trace cuts).length,
        1 ≤ (streamWorkers trace cuts)[k].events.length := by
    intro k holds
    obtain ⟨worker, own, within⟩ := holds
    obtain ⟨h, rfl⟩ := List.getElem?_eq_some_iff.mp own
    refine ⟨h, List.length_pos_of_mem (a := event) (TraceWorker.mem_events.mpr ⟨?_, within⟩)⟩
    rwa [streamWorkers_traceSet (List.getElem_mem h)]
  obtain ⟨hi, oneI⟩ := one first
  obtain ⟨hj, oneJ⟩ := one second
  have sum : processed (streamWorkers trace cuts) =
      ∑ k : Fin (streamWorkers trace cuts).length, (streamWorkers trace cuts)[k].events.length := by
    rw [processed, ← Fin.sum_univ_fun_getElem]
    rfl
  have both := Finset.add_le_sum (f := fun k : Fin (streamWorkers trace cuts).length =>
    (streamWorkers trace cuts)[k].events.length) (fun _ _ => Nat.zero_le _)
    (Finset.mem_univ ⟨i, hi⟩) (Finset.mem_univ ⟨j, hj⟩)
    (fun same => apart (congrArg Fin.val same))
  rw [sum]
  exact (Nat.add_le_add oneI oneJ).trans both

/-! ## When the count is exact -/

namespace TraceFolder
variable {folder : TraceFolder} {library : TraceLibrary}

/-- The balanced mode counts every trace in these files, as far as it fits the counter. -/
def CountsAll (folder : TraceFolder) (library : TraceLibrary) : Prop :=
  ∀ other whole, folder.SameFiles library other → folder.Interleaved other whole →
    whole.events.length < 2 ^ 31 →
    Counts whole (folder.DoExecuteParallelBalancedByLoops other countAnalysis)

/-- One event of a stream is counted once. -/
theorem CountsAll.solo (all : folder.CountsAll library) {stream : Stream}
    (among : stream ∈ folder.streams) (t : Timestamp) :
    Counts (soloTrace t) (folder.DoExecuteParallelBalancedByLoops
      (soloLibrary library (streamDirPath stream.fileName) t) countAnalysis) :=
  all _ _ (sameFiles_solo _ t) (interleaved_solo among t) (by rw [length_soloTrace]; decide)

/-- An event of a stream whose name has a dot is not counted. -/
theorem CountsAll.plain (all : folder.CountsAll library) :
    ∀ stream ∈ folder.streams, '.' ∉ stream.fileName.toList := by
  intro stream among dot
  obtain ⟨⟨data, run⟩, exact_⟩ := all.solo among 0
  have one := exact_ data run
  obtain ⟨fileList, indexFiles, parsed, listed, parses, rfl⟩ := count_run run
  have distinct : fileList.Nodup := listed.nodup_iff.mpr (folder.nodup_fileNames.filter _)
  have nothing : processed parsed.workers = 0 := by
    apply processed_eq_zero
    intro worker member
    have found := parseIndices_traceSet (ownDirectories_registerTraces distinct) parses member
    obtain ⟨file, _, same⟩ := found.resolve_left List.not_mem_nil
    have apart : baseName file.indexName ≠ stream.fileName :=
      fun same => dot_notMem_baseName file.indexName (same ▸ dot)
    have other : (Stream.own (soloLibrary library (streamDirPath stream.fileName) 0)
        ⟨baseName file.indexName, []⟩).trace.events = [] := events_solo_ne apart
    rw [same]
    exact other
  rw [nothing, length_soloTrace] at one
  exact absurd one (by decide)

theorem CountsAll.counted (all : folder.CountsAll library) : folder.Counted library := by
  intro file shown
  have among := List.mem_of_mem_filter shown
  have ends := (folder.ends_iff _ countAnalysis).mp (all.solo among 0).1
  exact ((sameFiles_solo _ 0).counted all.plain).mp ends.2 file shown

theorem CountsAll.readable (all : folder.CountsAll library) : folder.Readable := by
  intro stream among
  exact ((folder.ends_iff _ countAnalysis).mp (all.solo among 0).1).1 stream among

/-- The event of a stream is counted as often as its workers hold it. -/
theorem sum_solo {stream : Stream} (among : stream ∈ folder.streams) (t : Timestamp) :
    let solo := soloLibrary library (streamDirPath stream.fileName) t
    (folder.streams.map (fun stream =>
      processed (streamWorkers (stream.own solo).trace (stream.own solo).cuts))).sum =
        processed (streamWorkers (stream.own solo).trace (stream.own library).cuts) := by
  intro solo
  obtain ⟨left, right, split, apart⟩ := exists_split among
  have none_else : ∀ streams : List Stream, (∀ other ∈ streams, other.fileName ≠ stream.fileName) →
      (streams.map (fun stream =>
        processed (streamWorkers (stream.own solo).trace (stream.own solo).cuts))).sum = 0 := by
    intro streams others
    rw [List.sum_eq_zero_iff]
    intro n member
    obtain ⟨other, inside, rfl⟩ := List.mem_map.mp member
    apply processed_eq_zero
    intro worker own
    rw [streamWorkers_traceSet own]
    exact events_solo_ne (others other inside)
  have same : folder.SameFiles library solo := sameFiles_solo _ t
  rw [split, List.map_append, List.map_cons, List.sum_append, List.sum_cons,
    none_else left (fun other inside => apart other (List.mem_append_left _ inside)),
    none_else right (fun other inside => apart other (List.mem_append_right _ inside)),
    same.cuts among, Nat.zero_add, Nat.add_zero]

theorem CountsAll.cutting (all : folder.CountsAll library) {stream : Stream}
    (among : stream ∈ folder.streams) : Cutting (stream.own library).cuts := by
  apply cutting_of_unique
  intro t
  refine ⟨(stream.own (soloLibrary library (streamDirPath stream.fileName) t)).trace, ?_⟩
  intro i j first second
  by_contra apart
  obtain ⟨⟨data, run⟩, exact_⟩ := all.solo among t
  have one := exact_ data run
  rw [count_run_plain all.plain run, sum_solo among, toInt_ofNat_eq_iff] at one
  have few := processed_streamWorkers_le
    (stream.own (soloLibrary library (streamDirPath stream.fileName) t)).trace
    (stream.own library).cuts
  have single : (stream.own (soloLibrary library (streamDirPath stream.fileName) t)).trace.events =
      [{ timestamp := t }] := events_solo_self stream t
  have inside : ({ timestamp := t } : EventValue) ∈
      (stream.own (soloLibrary library (streamDirPath stream.fileName) t)).trace.events := by
    rw [single]
    exact List.mem_cons_self
  have twice := two_le_processed inside apart first second
  have shown : stream ∈ entryInfoList Stream.indexName folder.streams := by
    rw [folder.listed_of_plain all.plain]
    exact among
  have past := (all.counted stream shown).2
  have under := cuts_le_cutsUnder library shown
  rw [Stream.cuts, packets_of_plain library (all.plain stream among), ← StreamFile.cuts] at under
  rw [single, List.length_singleton, Nat.mul_one] at few
  rw [length_soloTrace, Nat.ModEq] at one
  omega

end TraceFolder

/-- A trace that is counted right from files in order: its events fit an `int`, the stack has room
for the positions, and the trace does not begin at 2^64-1, unless what is counted too often is a
multiple of 2^32. -/
structure Fits (stack threads : Nat) (whole : TraceSet) : Prop where
  events : whole.events.length < 2 ^ 31
  positions : threads ≤ stack
  begins : whole.getBegin ≠ maxTimestamp ∨ 2 ^ 32 ∣ whole.events.length * (threads - 1)

/-- Files as a tracer writes them are in order, where the counters of the loops suffice. -/
theorem TraceFolder.Recorded.orderly {folder : TraceFolder} {library : TraceLibrary}
    {whole : TraceSet} (recorded : folder.Recorded library whole)
    (counted : folder.Counted library) : folder.Orderly library where
  plain := recorded.plain
  readable := recorded.readable
  counted := counted
  cutting _ among := (recorded.wellFormed among).cutting

/-- A balanced run over a folder counts the events of the whole trace as a serial run does. -/
theorem TraceFolder.Recorded.count_run {folder : TraceFolder} {library : TraceLibrary}
    {whole : TraceSet} (recorded : folder.Recorded library whole) {data : Int32}
    (run : folder.DoExecuteParallelBalancedByLoops library countAnalysis data) :
    data = CountAnalysis.doExecuteSerial whole := by
  have cutting : ∀ stream ∈ folder.streams, Cutting (stream.own library).cuts :=
    fun stream among => (recorded.wellFormed among).cutting
  rw [TraceFolder.count_run_plain recorded.plain run, CountAnalysis.doExecuteSerial_eq,
    TraceFolder.processed_streams cutting recorded.interleaved]

/-! ## Traces of equal events -/

end LttngParallelAnalyses
