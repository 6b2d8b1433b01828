import LttngParallelAnalyses.Common.TraceAnalysis
import LttngParallelAnalyses.Lib.Tables

/-! The streams of the balanced mode. A trace set is registered for each stream under the whole
name of its file, and looked up by the base name of its index file, which ends at the first dot.
The cut positions are kept by the same key. -/

namespace LttngParallelAnalyses
open Lib Tables

/-! ## Names -/

/-- `QFileInfo::baseName()`: the name of a file up to its first dot. -/
def baseName (fileName : String) : String :=
  String.ofList (fileName.toList.takeWhile (fun c => c ≠ '.'))

/-- `entryInfoList(QStringList(), QDir::Files)` leaves out hidden files. -/
def entryInfoList {F : Type} (fileName : F → String) (files : List F) : List F :=
  files.filter (fun file => (fileName file).toList.head? ≠ some '.')

def streamDirPath (fileName : String) : String := fileName ++ ".d"

/-- A stream file with the bytes of its index file. -/
structure Stream where
  fileName : String
  index : List UInt8
  deriving DecidableEq, Repr

def Stream.indexName (stream : Stream) : String := stream.fileName ++ ".idx"

/-- The trace folder. The names in it are distinct, and one of them is that of the metadata. -/
structure TraceFolder where
  streams : List Stream
  distinct : (streams.map (·.fileName)).Nodup
  nonempty : ∀ stream ∈ streams, stream.fileName ≠ ""
  noSlash : ∀ stream ∈ streams, '/' ∉ stream.fileName.toList
  notMetadata : ∀ stream ∈ streams, stream.fileName ≠ "metadata"

def TraceFolder.fileNames (folder : TraceFolder) : List String :=
  "metadata" :: folder.streams.map (·.fileName)

/-- What the trace library makes of the directories that are added to a trace set, the clock of
a trace set, and the heap behind the records of an index file. -/
structure TraceLibrary where
  traceSet : List String → TraceSet
  clockInfos : TraceSet → ClockInfos
  heap : String → Nat → Nat → UInt8

/-! ## Registration -/

/-- The trace sets by name, each as the directories that were added to it. -/
abbrev TraceSets := Hash String (List String)

/-- `emplace` gives the set of the name, a new one if there is none, to which a directory is
added. -/
def addTrace (traceSets : TraceSets) (fileName : String) : TraceSets :=
  if fileName = "metadata" then traceSets
  else Hash.modify traceSets fileName (· ++ [streamDirPath fileName])

/-- The files are registered concurrently, that is in any order. -/
def registerTraces (fileList : List String) : TraceSets := fileList.foldl addTrace ∅

/-! ## Index files -/

structure Parsed where
  workers : List TraceWorker := []
  positionsPerTrace : Hash String (List Timestamp) := ∅

/-- The body of the loop over the index files. `at` throws where the name is not registered;
`positionsPerTrace` may hold the positions of a file before. -/
def parseIndex (library : TraceLibrary) (traceSets : TraceSets) (parsed : Parsed) (file : Stream) :
    Option Parsed := do
  let name := baseName file.indexName
  let trace := library.traceSet (← traceSets.lookup name)
  let index :=
    PacketIndex.new (library.heap file.indexName) (library.clockInfos trace) file.index
  let cuts ← balancedPositions index.indices
  let positionsPerTrace := Hash.modify parsed.positionsPerTrace name (· ++ cuts)
  let positions := (positionsPerTrace.lookup name).getD []
  some { workers := parsed.workers ++ streamWorkers trace positions, positionsPerTrace }

def parseIndices (library : TraceLibrary) (traceSets : TraceSets) (parsed : Parsed) :
    List Stream → Option Parsed
  | [] => some parsed
  | file :: rest => (parseIndex library traceSets parsed file).bind fun next =>
    parseIndices library traceSets next rest

/-- A stream as its own trace set and index file give it. -/
def Stream.own (library : TraceLibrary) (stream : Stream) : StreamFile :=
  let trace := library.traceSet [streamDirPath stream.fileName]
  let index :=
    PacketIndex.new (library.heap stream.indexName) (library.clockInfos trace) stream.index
  { trace, indices := index.indices }

/-- Each index file is read against the set of its own stream. No two streams share a key, and
every order of the index files makes the workers of each stream's own packets. -/
structure TraceFolder.ReadsOwn (folder : TraceFolder) (library : TraceLibrary)
    (traceSets : TraceSets) : Prop where
  found : ∀ stream ∈ folder.streams,
    traceSets.lookup (baseName stream.indexName) = some [streamDirPath stream.fileName]
  apart : ∀ stream ∈ folder.streams, ∀ other ∈ folder.streams,
    baseName stream.indexName = baseName other.indexName → stream = other
  workers : ∀ fileList, fileList.Perm (entryInfoList Stream.indexName folder.streams) →
    fileList.Perm folder.streams ∧
    (parseIndices library traceSets {} fileList).map (·.workers) =
      balancedWorkers (fileList.map (Stream.own library))

/-! ## Lookup -/

theorem baseName_indexName_iff (stream : Stream) :
    baseName stream.indexName = stream.fileName ↔ '.' ∉ stream.fileName.toList := by
  have chars : (baseName stream.indexName).toList =
      (stream.fileName.toList ++ ".idx".toList).takeWhile (fun c => c ≠ '.') := by
    rw [baseName, String.toList_ofList, Stream.indexName, String.toList_append]
  constructor
  · intro same dotted
    rw [same] at chars
    rw [chars] at dotted
    simpa using List.mem_takeWhile_imp dotted
  · intro plain
    apply String.toList_injective
    rw [chars, List.takeWhile_append_of_pos]
    · exact List.append_nil _
    · intro c member
      simp only [ne_eq, decide_eq_true_eq]
      exact fun dot => plain (dot ▸ member)

/-- Under each registered name there is the directory of its own stream. -/
theorem lookup_registerTraces {fileList : List String} (distinct : fileList.Nodup) (name : String) :
    (registerTraces fileList).lookup name =
      if name ∈ fileList ∧ name ≠ "metadata" then some [streamDirPath name] else none := by
  induction fileList using List.reverseRecOn with
  | nil => rw [if_neg (fun among => absurd among.1 List.not_mem_nil)]; rfl
  | append_singleton before last ih =>
    have fresh : last ∉ before := by
      have apart := (List.nodup_append.mp distinct).2.2
      exact fun member => apart last member last List.mem_cons_self rfl
    have ih := ih (List.nodup_append.mp distinct).1
    rw [registerTraces, List.foldl_concat, ← registerTraces, addTrace]
    by_cases metadata : last = "metadata"
    · have same : name ∈ before ++ [last] ∧ name ≠ "metadata" ↔
          name ∈ before ∧ name ≠ "metadata" := by
        rw [metadata, List.mem_append, List.mem_singleton]
        tauto
      simp only [if_pos metadata, ih, same]
    · rw [if_neg metadata, Hash.lookup_modify]
      by_cases own : last = name
      · subst own
        have none_yet : (registerTraces before).lookup last = none := by
          rw [ih, if_neg (fun among => fresh among.1)]
        rw [if_pos rfl, none_yet, if_pos ⟨List.mem_concat_self, metadata⟩]
        rfl
      · have same : name ∈ before ++ [last] ↔ name ∈ before := by
          rw [List.mem_append, List.mem_singleton, or_iff_left (Ne.symm own)]
        simp only [if_neg own, ih, same]

namespace TraceFolder
variable (folder : TraceFolder) (library : TraceLibrary)

theorem nodup_fileNames : folder.fileNames.Nodup := by
  refine List.nodup_cons.mpr ⟨?_, folder.distinct⟩
  intro member
  obtain ⟨stream, among, same⟩ := List.mem_map.mp member
  exact folder.notMetadata stream among same

theorem eq_of_fileName {stream other : Stream} (among : stream ∈ folder.streams)
    (among' : other ∈ folder.streams) (same : stream.fileName = other.fileName) :
    stream = other :=
  List.inj_on_of_nodup_map folder.distinct among among' same

/-- In whatever order the files are registered, only the name of a stream gives its directory. -/
theorem lookup_eq_iff {fileList : List String}
    (listed : fileList.Perm (entryInfoList id folder.fileNames)) {stream : Stream}
    (among : stream ∈ folder.streams) (name : String) :
    (registerTraces fileList).lookup name = some [streamDirPath stream.fileName] ↔
      name = stream.fileName ∧ name.toList.head? ≠ some '.' := by
  have distinct : fileList.Nodup := listed.nodup_iff.mpr (folder.nodup_fileNames.filter _)
  have proper := folder.notMetadata stream among
  have known : stream.fileName ∈ folder.fileNames :=
    List.mem_cons_of_mem _ (List.mem_map_of_mem among)
  rw [lookup_registerTraces distinct, Option.ite_none_right_eq_some, listed.mem_iff, entryInfoList,
    List.mem_filter, decide_eq_true_eq, id, Option.some.injEq, List.singleton_inj, streamDirPath,
    streamDirPath, String.append_left_inj]
  constructor
  · intro found
    exact ⟨found.2, found.1.1.2⟩
  · intro own
    obtain ⟨rfl, shown⟩ := own
    exact ⟨⟨⟨known, shown⟩, proper⟩, rfl⟩

theorem head_ne_dot {name : String} (plain : '.' ∉ name.toList) : name.toList.head? ≠ some '.' :=
  fun head => plain (List.mem_of_head? head)

/-- Without dots in the names no index file is hidden. -/
theorem listed_of_plain (plain : ∀ stream ∈ folder.streams, '.' ∉ stream.fileName.toList) :
    entryInfoList Stream.indexName folder.streams = folder.streams := by
  rw [entryInfoList, List.filter_eq_self]
  intro stream among
  rw [decide_eq_true_eq, Stream.indexName, String.toList_append, List.head?_append]
  intro hidden
  cases head : stream.fileName.toList.head? with
  | none =>
    have empty : stream.fileName = "" :=
      String.toList_injective (List.head?_eq_none_iff.mp head)
    exact folder.nonempty stream among empty
  | some c =>
    rw [head, Option.some_or] at hidden
    exact head_ne_dot (plain stream among) (head.trans hidden)

end TraceFolder

/-! ## Workers -/

/-- An index file whose key is its stream's own name, with no positions under it yet. -/
theorem parseIndex_own {library : TraceLibrary} {traceSets : TraceSets} {parsed : Parsed}
    {stream : Stream} (own : baseName stream.indexName = stream.fileName)
    (found : traceSets.lookup stream.fileName = some [streamDirPath stream.fileName])
    (fresh : parsed.positionsPerTrace.lookup stream.fileName = none) :
    parseIndex library traceSets parsed stream =
      (balancedPositions (stream.own library).indices).map fun cuts =>
        { workers := parsed.workers ++ streamWorkers (stream.own library).trace cuts
          positionsPerTrace := Hash.modify parsed.positionsPerTrace stream.fileName (· ++ cuts) } := by
  rw [parseIndex, own, found, Option.bind_eq_bind, Option.bind_some]
  change (balancedPositions (stream.own library).indices).bind _ = _
  cases balancedPositions (stream.own library).indices with
  | none => rfl
  | some cuts =>
    simp only [Option.bind_some, Option.map_some, Hash.lookup_modify, if_pos, fresh]
    rfl

theorem balancedWorkers_cons (file : StreamFile) (files : List StreamFile) :
    balancedWorkers (file :: files) =
      (fileWorkers file).bind fun first => (balancedWorkers files).map (first ++ ·) := by
  rw [balancedWorkers, balancedWorkers, List.mapM_cons]
  cases fileWorkers file with
  | none => rfl
  | some first =>
    cases files.mapM fileWorkers with
    | none => rfl
    | some rest => rfl

/-- Where every index file is read against its own stream, the loop makes the workers of each. -/
theorem workers_parseIndices {library : TraceLibrary} {traceSets : TraceSets}
    {fileList : List Stream} (distinct : (fileList.map (·.fileName)).Nodup)
    (own : ∀ stream ∈ fileList, baseName stream.indexName = stream.fileName)
    (found : ∀ stream ∈ fileList,
      traceSets.lookup stream.fileName = some [streamDirPath stream.fileName])
    (parsed : Parsed)
    (fresh : ∀ stream ∈ fileList, parsed.positionsPerTrace.lookup stream.fileName = none) :
    (parseIndices library traceSets parsed fileList).map (·.workers) =
      (balancedWorkers (fileList.map (Stream.own library))).map (parsed.workers ++ ·) := by
  induction fileList generalizing parsed with
  | nil =>
    rw [parseIndices, Option.map_some, List.map_nil]
    change _ = some (parsed.workers ++ [])
    rw [List.append_nil]
  | cons stream rest ih =>
    rw [List.map_cons, List.nodup_cons] at distinct
    rw [List.forall_mem_cons] at own found fresh
    rw [parseIndices, parseIndex_own own.1 found.1 fresh.1, List.map_cons, balancedWorkers_cons,
      fileWorkers]
    cases balancedPositions (stream.own library).indices with
    | none => rfl
    | some cuts =>
      have later : ∀ other ∈ rest,
          (Hash.modify parsed.positionsPerTrace stream.fileName (· ++ cuts)).lookup
            other.fileName = none := by
        intro other member
        have apart : stream.fileName ≠ other.fileName :=
          fun same => distinct.1 (List.mem_map.mpr ⟨other, member, same.symm⟩)
        rw [Hash.lookup_modify, if_neg apart]
        exact fresh.2 other member
      rw [Option.map_some, Option.bind_some, Option.map_some, Option.bind_some,
        ih distinct.2 own.2 found.2 _ later, Option.map_map]
      congr 1
      funext workers
      exact List.append_assoc _ _ _

/-! ## Own index files -/

namespace TraceFolder
variable (folder : TraceFolder) (library : TraceLibrary)

theorem readsOwn_of_plain (plain : ∀ stream ∈ folder.streams, '.' ∉ stream.fileName.toList)
    {fileList : List String} (listed : fileList.Perm (entryInfoList id folder.fileNames)) :
    folder.ReadsOwn library (registerTraces fileList) := by
  have own : ∀ stream ∈ folder.streams, baseName stream.indexName = stream.fileName :=
    fun stream among => (baseName_indexName_iff stream).mpr (plain stream among)
  have found : ∀ stream ∈ folder.streams,
      (registerTraces fileList).lookup stream.fileName = some [streamDirPath stream.fileName] :=
    fun stream among => (folder.lookup_eq_iff listed among stream.fileName).mpr
      ⟨rfl, head_ne_dot (plain stream among)⟩
  refine ⟨?_, ?_, ?_⟩
  · intro stream among
    rw [own stream among]
    exact found stream among
  · intro stream among other among' same
    rw [own stream among, own other among'] at same
    exact folder.eq_of_fileName among among' same
  · intro order shown
    rw [folder.listed_of_plain plain] at shown
    refine ⟨shown, ?_⟩
    rw [workers_parseIndices ((shown.map _).nodup_iff.mpr folder.distinct)
      (fun stream member => own stream (shown.mem_iff.mp member))
      (fun stream member => found stream (shown.mem_iff.mp member)) {} (fun _ _ => rfl)]
    exact Option.map_id_apply

/-- The data that a balanced parallel run over a trace folder may print. -/
def DoExecuteParallelBalanced {R : Type} (analysis : TraceAnalysis R) (data : R) : Prop :=
  ∃ (registered : List String) (indexFiles : List Stream) (parsed : Parsed)
    (order : List TraceWorker) (reduced : R),
    registered.Perm (entryInfoList id folder.fileNames) ∧
    indexFiles.Perm (entryInfoList Stream.indexName folder.streams) ∧
    parseIndices library (registerTraces registered) {} indexFiles = some parsed ∧
    SortedByBegin parsed.workers order ∧
    MappedReduced order analysis.doMap analysis.doReduce analysis.initial analysis.reduceOptions
      reduced ∧
    data = analysis.doEnd reduced

/-- Without dots in the names, a run over the folder is one over the stream files. -/
theorem doExecuteParallelBalanced_iff
    (plain : ∀ stream ∈ folder.streams, '.' ∉ stream.fileName.toList) {R : Type}
    (analysis : TraceAnalysis R) (data : R) :
    folder.DoExecuteParallelBalanced library analysis data ↔
      ∃ indexFiles : List Stream, indexFiles.Perm folder.streams ∧
        LttngParallelAnalyses.DoExecuteParallelBalanced analysis
          (indexFiles.map (Stream.own library)) data := by
  constructor
  · intro ran
    obtain ⟨registered, indexFiles, parsed, order, reduced, listed, shown, parses, sorted, rest⟩ :=
      ran
    obtain ⟨perm, workers⟩ := (folder.readsOwn_of_plain library plain listed).workers _ shown
    rw [parses, Option.map_some] at workers
    exact ⟨indexFiles, perm, parsed.workers, workers.symm, order, sorted, reduced, rest⟩
  · intro ran
    obtain ⟨indexFiles, perm, workers, computed, order, sorted, reduced, rest⟩ := ran
    have shown : indexFiles.Perm (entryInfoList Stream.indexName folder.streams) := by
      rw [folder.listed_of_plain plain]
      exact perm
    have made := ((folder.readsOwn_of_plain library plain List.Perm.rfl).workers _ shown).2
    rw [computed] at made
    obtain ⟨parsed, parses, rfl⟩ := Option.map_eq_some_iff.mp made
    exact ⟨_, indexFiles, parsed, order, reduced, List.Perm.rfl, shown, parses, sorted, rest⟩

/-- In whatever order the streams are registered, each index file is read against its own stream
exactly where no name of a stream has a dot. -/
theorem readsOwn_iff :
    (∀ fileList, fileList.Perm (entryInfoList id folder.fileNames) →
        folder.ReadsOwn library (registerTraces fileList)) ↔
      ∀ stream ∈ folder.streams, '.' ∉ stream.fileName.toList := by
  constructor
  · intro every stream among
    have found := (every _ List.Perm.rfl).found stream among
    rw [folder.lookup_eq_iff List.Perm.rfl among] at found
    exact (baseName_indexName_iff stream).mp found.1
  · intro plain fileList listed
    exact folder.readsOwn_of_plain library plain listed

/-- A stream of a channel with a dot in its name; the index has one packet, all zero. -/
def dottedStream : Stream where
  fileName := "my.chan_0"
  index := [0xC1, 0xF1, 0xDC, 0xC1, 0, 0, 0, 1, 0, 0, 0, 0, 0, 0, 0, 56] ++ List.replicate 56 0

def dotted : TraceFolder where
  streams := [dottedStream]
  distinct := List.nodup_singleton _
  nonempty := by decide
  noSlash := by decide
  notMetadata := by decide

/-- The stream is registered as "my.chan_0", and its index file looks for "my". -/
theorem dotted_not_found :
    let library : TraceLibrary := {
      traceSet := fun _ => TraceSet.ofEvents [] [] 0 0 .nil (by simp) (by simp)
      clockInfos := fun _ => ⟨1000000000, 0, 0⟩
      heap := fun _ _ _ => 0 }
    ¬ ∀ fileList, fileList.Perm (entryInfoList id dotted.fileNames) →
      dotted.ReadsOwn library (registerTraces fileList) := by
  intro library every
  have found := (every _ List.Perm.rfl).found dottedStream List.mem_cons_self
  exact absurd found (by decide)

end TraceFolder

end LttngParallelAnalyses
