import LttngParallelAnalyses.Common.ChunkingSafety
import LttngParallelAnalyses.Common.CountedRuns
import LttngParallelAnalyses.Common.MergeOrder
import LttngParallelAnalyses.Lib.Interleaving

/-! Balanced runs over a trace folder, from the names and the bytes in it. A run comes to an end
exactly where each index file finds a trace set and holds a whole record, and the counters of the
loops suffice. What a tracer writes is cut in time order. -/

namespace LttngParallelAnalyses
open Lib Tables Lib.UnstableSort Lib.Interleaving

/-! ## Runs that come to an end -/

theorem indices_ne_nil_iff (heap : Nat → Nat → UInt8) (clock : ClockInfos) (file : List UInt8) :
    (PacketIndex.new heap clock file).indices ≠ [] ↔
      Accepted file ∧ recordLength file ≤ file.length - headerSize := by
  rw [← buffers_ne_nil_iff, ← List.length_pos_iff, ← List.length_pos_iff, PacketIndex.length_new]

theorem exists_balancedPositions_iff (indices : List PacketHeader) :
    (∃ positions, balancedPositions indices = some positions) ↔ indices ≠ [] := by
  constructor
  · intro found
    obtain ⟨positions, computed⟩ := found
    intro empty
    simp [balancedPositions, empty] at computed
  · exact balancedPositions_isSome

/-- An index file that the loop gets over: its trace set is there, and it has a packet. -/
def Passes (traceSets : TraceSets) (file : Stream) : Prop :=
  (∃ directories, traceSets.lookup (baseName file.indexName) = some directories) ∧
    Accepted file.index ∧ recordLength file.index ≤ file.index.length - headerSize

theorem exists_parseIndex_iff (library : TraceLibrary) (traceSets : TraceSets) (parsed : Parsed)
    (file : Stream) :
    (∃ next, parseIndex library traceSets parsed file = some next) ↔ Passes traceSets file := by
  unfold Passes
  cases found : traceSets.lookup (baseName file.indexName) with
  | none => simp [parseIndex, found]
  | some directories =>
    have packets := indices_ne_nil_iff (library.heap file.indexName)
      (library.clockInfos (library.traceSet directories)) file.index
    rw [← exists_balancedPositions_iff] at packets
    rw [← packets, and_iff_right ⟨directories, rfl⟩, parseIndex, found, Option.bind_eq_bind,
      Option.bind_some]
    constructor
    · intro computed
      obtain ⟨next, made⟩ := computed
      obtain ⟨cuts, positions, _⟩ := Option.bind_eq_some_iff.mp made
      exact ⟨cuts, positions⟩
    · intro computed
      obtain ⟨cuts, positions⟩ := computed
      exact ⟨_, Option.bind_eq_some_iff.mpr ⟨cuts, positions, rfl⟩⟩

theorem exists_parseIndices_iff (library : TraceLibrary) (traceSets : TraceSets) (parsed : Parsed)
    (files : List Stream) :
    (∃ last, parseIndices library traceSets parsed files = some last) ↔
      ∀ file ∈ files, Passes traceSets file := by
  induction files generalizing parsed with
  | nil => simp [parseIndices]
  | cons file rest ih =>
    rw [List.forall_mem_cons, ← exists_parseIndex_iff library traceSets parsed file]
    simp only [parseIndices, Option.bind_eq_some_iff]
    constructor
    · intro computed
      obtain ⟨last, next, here, later⟩ := computed
      exact ⟨⟨next, here⟩, (ih next).mp ⟨last, later⟩⟩
    · intro both
      obtain ⟨⟨next, here⟩, later⟩ := both
      obtain ⟨last, there⟩ := (ih next).mpr later
      exact ⟨last, next, here, there⟩

theorem exists_mappedReduced {W R : Type} (workers : List W) (map : W → R) (reduce : R → R → R)
    (initial : R) (options : ReduceOptions) :
    ∃ result, MappedReduced workers map reduce initial options result := by
  cases options with
  | orderedReduce => exact ⟨_, rfl⟩
  | unorderedReduce => exact ⟨_, workers, List.Perm.rfl, rfl⟩

theorem exists_sortedByBegin (workers : List TraceWorker) :
    ∃ order, SortedByBegin workers order :=
  ⟨_, sortedBy_mergeSort beginsBefore_asymm beginsBefore_trans (List.Perm.refl workers)⟩

theorem dot_notMem_baseName (fileName : String) : '.' ∉ (baseName fileName).toList := by
  intro dot
  rw [baseName, String.toList_ofList] at dot
  simpa using List.mem_takeWhile_imp dot

namespace TraceFolder
variable (folder : TraceFolder) (library : TraceLibrary)

/-- Every index file that is not hidden has the name of a stream before its first dot, an accepted
header and a whole record. -/
def Readable : Prop :=
  ∀ stream ∈ folder.streams, stream.indexName.toList.head? ≠ some '.' →
    (∃ other ∈ folder.streams, other.fileName = baseName stream.indexName) ∧
    Accepted stream.index ∧
    recordLength stream.index ≤ stream.index.length - headerSize

/-- The names that are looked up have no dot, so they are registered where they are those of
streams. -/
theorem exists_lookup_iff {fileList : List String}
    (listed : fileList.Perm (entryInfoList id folder.fileNames)) {name : String}
    (plain : '.' ∉ name.toList) :
    (∃ directories, (registerTraces fileList).lookup name = some directories) ↔
      ∃ stream ∈ folder.streams, stream.fileName = name := by
  have distinct : fileList.Nodup := listed.nodup_iff.mpr (folder.nodup_fileNames.filter _)
  simp only [lookup_registerTraces distinct, Option.ite_none_right_eq_some, listed.mem_iff,
    entryInfoList, List.mem_filter, decide_eq_true_eq, id, fileNames, List.mem_cons, List.mem_map]
  constructor
  · intro found
    obtain ⟨_, ⟨⟨own, _⟩, proper⟩, _⟩ := found
    exact own.resolve_left proper
  · intro found
    obtain ⟨stream, among, rfl⟩ := found
    exact ⟨_, ⟨⟨Or.inr ⟨stream, among, rfl⟩, head_ne_dot plain⟩, folder.notMetadata stream among⟩,
      rfl⟩

theorem passes_iff {fileList : List String} {indexFiles : List Stream}
    (listed : fileList.Perm (entryInfoList id folder.fileNames))
    (shown : indexFiles.Perm (entryInfoList Stream.indexName folder.streams)) :
    (∀ file ∈ indexFiles, Passes (registerTraces fileList) file) ↔ folder.Readable := by
  simp only [Readable, shown.mem_iff, entryInfoList, List.mem_filter, decide_eq_true_eq, and_imp,
    Passes, folder.exists_lookup_iff listed (dot_notMem_baseName _)]

/-- On the lists a balanced run comes to an end exactly where the index files are readable. -/
theorem completes_iff {R : Type} (analysis : TraceAnalysis R) :
    (∃ data, folder.DoExecuteParallelBalancedByTasks library analysis data) ↔
      folder.Readable := by
  constructor
  · intro completes
    obtain ⟨data, run⟩ := completes
    obtain ⟨registered, indexFiles, parsed, order, reduced, listed, shown, parses, _⟩ :=
      (folder.byTasks_iff library analysis data).mp run
    exact (folder.passes_iff listed shown).mp
      ((exists_parseIndices_iff library _ _ _).mp ⟨parsed, parses⟩)
  · intro readable
    have passes := (folder.passes_iff List.Perm.rfl List.Perm.rfl).mpr readable
    obtain ⟨parsed, parses⟩ := (exists_parseIndices_iff library _ {} _).mpr passes
    obtain ⟨order, sorted⟩ := exists_sortedByBegin parsed.workers
    obtain ⟨reduced, mapped⟩ := exists_mappedReduced order analysis.doMap analysis.doReduce
      analysis.initial analysis.reduceOptions
    refine ⟨analysis.doEnd reduced, (folder.byTasks_iff library analysis _).mpr ?_⟩
    exact ⟨_, _, parsed, order, reduced, List.Perm.rfl, List.Perm.rfl, parses, sorted, mapped, rfl⟩

/-- A balanced run comes to an end exactly where, besides, its counters suffice. -/
theorem ends_iff {R : Type} (analysis : TraceAnalysis R) :
    (∃ data, folder.DoExecuteParallelBalancedByLoops library analysis data) ↔
      folder.Readable ∧ folder.Counted library := by
  simp only [folder.byLoops_iff, exists_and_right, folder.completes_iff]

/-- The packets of a stream whose name has no dot. -/
theorem packets_of_plain {stream : Stream} (plain : '.' ∉ stream.fileName.toList) :
    stream.packets library = (stream.own library).indices := by
  rw [Stream.packets, (baseName_indexName_iff stream).mpr plain]
  rfl

end TraceFolder

/-! ## What a tracer writes -/

/-- An index file as it is written for a stream: a record for each packet, in the order in which the
packets end. -/
structure WrittenIndex where
  minor : UInt32
  packetIndexLen : UInt32
  records : List (CtfPacketIndex × List UInt8)
  fragment : List UInt8
  wide : recordSize ≤ packetIndexLen.toNat
  padded : ∀ record ∈ records, record.2.length = packetIndexLen.toNat - recordSize
  short : fragment.length < packetIndexLen.toNat
  nonempty : records ≠ []
  ordered : records.Pairwise (fun a b => a.1.timestampEnd ≤ b.1.timestampEnd)

def WrittenIndex.bytes (index : WrittenIndex) : List UInt8 :=
  encodeFile index.minor index.packetIndexLen index.records index.fragment

/-- A stream with the index file that is written for it. Its clock counts nanoseconds, and the
packets end within the bounds of the stream. -/
structure Stream.Traced (library : TraceLibrary) (stream : Stream) (index : WrittenIndex) : Prop where
  written : stream.index = index.bytes
  unscaled : (library.clockInfos (stream.own library).trace).freq = 1000000000
  after : ∀ record ∈ index.records, (stream.own library).trace.getBegin.toNat ≤
    record.1.timestampEnd.toNat +
      (clockOffsetNs (library.clockInfos (stream.own library).trace)).toNat
  until_ : ∀ record ∈ index.records, record.1.timestampEnd.toNat +
      (clockOffsetNs (library.clockInfos (stream.own library).trace)).toNat ≤
    (stream.own library).trace.getEnd.toNat

section Traced
variable {library : TraceLibrary} {stream : Stream} {index : WrittenIndex}

theorem Stream.Traced.indices (traced : stream.Traced library index) :
    (stream.own library).indices = index.records.map (fun record =>
      PacketHeader.ofIndex (library.clockInfos (stream.own library).trace) record.1) := by
  change (PacketIndex.new _ _ stream.index).indices = _
  rw [traced.written, WrittenIndex.bytes, PacketIndex.new_eq,
    buffers_encodeFile index.wide index.padded index.short, foldl_decode_encodeRecord]
  rfl

/-- The end of a packet in real time, computed without wrapping around. -/
theorem Stream.Traced.timestampEnd (traced : stream.Traced library index)
    {record : CtfPacketIndex × List UInt8} (member : record ∈ index.records) :
    (PacketHeader.ofIndex (library.clockInfos (stream.own library).trace)
        record.1).tsReal.timestampEnd.toNat =
      record.1.timestampEnd.toNat +
        (clockOffsetNs (library.clockInfos (stream.own library).trace)).toNat := by
  have room := traced.until_ record member
  have upper := (stream.own library).trace.getEnd.toNat_lt
  have real : (PacketHeader.ofIndex (library.clockInfos (stream.own library).trace)
      record.1).tsReal.timestampEnd = record.1.timestampEnd +
        clockOffsetNs (library.clockInfos (stream.own library).trace) := by
    change ctfGetRealTimestamp _ _ = _
    rw [ctfGetRealTimestamp, clockCyclesToNs, if_pos traced.unscaled]
  rw [real, UInt64.toNat_add]
  exact Nat.mod_eq_of_lt (room.trans_lt upper)

theorem Stream.Traced.within (traced : stream.Traced library index) :
    ∀ header ∈ (stream.own library).indices,
      (stream.own library).trace.getBegin ≤ header.tsReal.timestampEnd ∧
        header.tsReal.timestampEnd ≤ (stream.own library).trace.getEnd := by
  rw [traced.indices, List.forall_mem_map]
  intro record member
  have real := traced.timestampEnd member
  constructor
  · change UInt64.toNat _ ≤ UInt64.toNat _
    rw [real]
    exact traced.after record member
  · change UInt64.toNat _ ≤ UInt64.toNat _
    rw [real]
    exact traced.until_ record member

theorem Stream.Traced.wellFormed (traced : stream.Traced library index)
    (below : (stream.own library).trace.getEnd < maxTimestamp) :
    (stream.own library).WellFormed where
  ordered := by
    rw [traced.indices, List.pairwise_map]
    apply index.ordered.imp_of_mem
    intro a b first second le
    change UInt64.toNat _ ≤ UInt64.toNat _
    rw [traced.timestampEnd first, traced.timestampEnd second]
    exact Nat.add_le_add_right le _
  below header member := (traced.within header member).2.trans_lt below

theorem Stream.Traced.indices_ne_nil (traced : stream.Traced library index) :
    (stream.own library).indices ≠ [] := by
  rw [traced.indices]
  simpa using index.nonempty

end Traced

/-- A trace folder as a tracer writes it for a whole trace: the streams interleave to the trace, and
its bounds are the least begin and the greatest end of theirs. -/
structure TraceFolder.Recorded (folder : TraceFolder) (library : TraceLibrary) (whole : TraceSet) :
    Prop where
  plain : ∀ stream ∈ folder.streams, '.' ∉ stream.fileName.toList
  traced : ∀ stream ∈ folder.streams, ∃ index, stream.Traced library index
  infos : ∀ stream ∈ folder.streams, (stream.own library).trace.tracesInfos = whole.tracesInfos
  interleaved : Interleaves
    (folder.streams.map (fun stream => (stream.own library).trace.events)) whole.events
  begin_ : IsLeast {t | t ∈ folder.streams.map (fun stream => (stream.own library).trace.getBegin)}
    whole.getBegin
  end_ : IsGreatest {t | t ∈ folder.streams.map (fun stream => (stream.own library).trace.getEnd)}
    whole.getEnd
  below : whole.getEnd < maxTimestamp

namespace TraceFolder.Recorded
variable {folder : TraceFolder} {library : TraceLibrary} {whole : TraceSet} {stream : Stream}

theorem getEnd_le (recorded : folder.Recorded library whole) (among : stream ∈ folder.streams) :
    (stream.own library).trace.getEnd ≤ whole.getEnd :=
  recorded.end_.2 (List.mem_map.mpr ⟨stream, among, rfl⟩)

theorem wellFormed (recorded : folder.Recorded library whole) (among : stream ∈ folder.streams) :
    (stream.own library).WellFormed := by
  obtain ⟨index, traced⟩ := recorded.traced stream among
  exact traced.wellFormed ((recorded.getEnd_le among).trans_lt recorded.below)

theorem readable (recorded : folder.Recorded library whole) : folder.Readable := by
  intro stream among _
  have own := (baseName_indexName_iff stream).mpr (recorded.plain stream among)
  obtain ⟨index, traced⟩ := recorded.traced stream among
  exact ⟨⟨stream, among, own.symm⟩, (indices_ne_nil_iff _ _ _).mp traced.indices_ne_nil⟩

end TraceFolder.Recorded

end LttngParallelAnalyses
