import LttngParallelAnalyses.Common.Loops
import LttngParallelAnalyses.Common.Registration

/-! Balanced runs over a folder with the loops as they count. The positions of index files under one
base name add up, so a run ends with what the lists give where no index file has too many packets and
no base name too many positions for an `unsigned int`. -/

namespace LttngParallelAnalyses
open Lib Tables CountedLoop

/-- The body of the loop over the index files, where the loops in it have a number of turns. -/
def countedIndex (library : TraceLibrary) (traceSets : TraceSets) (parsed : Parsed) (file : Stream)
    (turns : Nat) : Option Parsed := do
  let name := baseName file.indexName
  let trace := library.traceSet (← traceSets.lookup name)
  let index :=
    PacketIndex.new (library.heap file.indexName) (library.clockInfos trace) file.index
  let before := (parsed.positionsPerTrace.lookup name).getD []
  let positions ← countedPositions index.indices before turns
  let workers ← workerLoop trace positions parsed.workers turns
  some { workers, positionsPerTrace := AList.insert name positions parsed.positionsPerTrace }

def countedIndices (library : TraceLibrary) (traceSets : TraceSets) (parsed : Parsed) :
    List Stream → Nat → Option Parsed
  | [], _ => some parsed
  | file :: rest, turns => (countedIndex library traceSets parsed file turns).bind fun next =>
    countedIndices library traceSets next rest turns

/-- The data that a balanced parallel run may print, by tasks and by loops that count. -/
def TraceFolder.DoExecuteParallelBalancedByLoops (folder : TraceFolder) (library : TraceLibrary)
    {R : Type} (analysis : TraceAnalysis R) (data : R) : Prop :=
  ∃ (fileList : List String) (schedule : List (Fin fileList.length))
    (state : Registration fileList.length) (indexFiles : List Stream) (parsed : Parsed)
    (order : List TraceWorker) (reduced : R),
    fileList.Perm (entryInfoList id folder.fileNames) ∧
    Registration.run fileList.get {} schedule = some state ∧ state.Finished ∧
    indexFiles.Perm (entryInfoList Stream.indexName folder.streams) ∧
    Gives (countedIndices library state.traceSets {} indexFiles) parsed ∧
    SortedByBegin parsed.workers order ∧
    MappedReduced order analysis.doMap analysis.doReduce analysis.initial analysis.reduceOptions
      reduced ∧
    data = analysis.doEnd reduced

/-! ## One index file -/

/-- The packets of an index file, by the clock of the stream that its base name names. -/
def Stream.packets (library : TraceLibrary) (stream : Stream) : List PacketHeader :=
  (PacketIndex.new (library.heap stream.indexName)
    (library.clockInfos (library.traceSet [streamDirPath (baseName stream.indexName)]))
    stream.index).indices

/-- The positions that an index file adds to those of its base name. -/
def Stream.cuts (library : TraceLibrary) (stream : Stream) : List Timestamp :=
  (balancedPositions (stream.packets library)).getD []

def Parsed.positions (parsed : Parsed) (name : String) : List Timestamp :=
  (parsed.positionsPerTrace.lookup name).getD []

/-- Under each name that is registered there is the directory of the stream of this name. -/
def OwnDirectories (traceSets : TraceSets) : Prop :=
  ∀ name directories, traceSets.lookup name = some directories → directories = [streamDirPath name]

theorem ownDirectories_registerTraces {fileList : List String} (distinct : fileList.Nodup) :
    OwnDirectories (registerTraces fileList) := by
  intro name directories found
  rw [lookup_registerTraces distinct, Option.ite_none_right_eq_some, Option.some.injEq] at found
  exact found.2.symm

section Index
variable {library : TraceLibrary} {traceSets : TraceSets} {parsed next : Parsed} {file : Stream}

theorem parseIndex_eq (own : OwnDirectories traceSets) :
    parseIndex library traceSets parsed file =
      (traceSets.lookup (baseName file.indexName)).bind fun _ =>
        (balancedPositions (file.packets library)).map fun cuts =>
          { workers := parsed.workers ++
              streamWorkers (library.traceSet [streamDirPath (baseName file.indexName)])
                (parsed.positions (baseName file.indexName) ++ cuts)
            positionsPerTrace := AList.insert (baseName file.indexName)
              (parsed.positions (baseName file.indexName) ++ cuts) parsed.positionsPerTrace } := by
  rw [parseIndex]
  cases found : traceSets.lookup (baseName file.indexName) with
  | none => rfl
  | some directories =>
    obtain rfl := own _ _ found
    simp only [Option.bind_eq_bind, Option.bind_some, Hash.lookup_modify, if_pos, Option.getD_some]
    rw [← Stream.packets]
    cases balancedPositions (file.packets library) with
    | none => rfl
    | some cuts => rfl

theorem countedIndex_eq (own : OwnDirectories traceSets) (turns : Nat) :
    countedIndex library traceSets parsed file turns =
      (traceSets.lookup (baseName file.indexName)).bind fun _ =>
        (countedPositions (file.packets library) (parsed.positions (baseName file.indexName))
          turns).bind fun positions =>
            (workerLoop (library.traceSet [streamDirPath (baseName file.indexName)]) positions
              parsed.workers turns).bind fun workers =>
                some { workers
                       positionsPerTrace := AList.insert (baseName file.indexName) positions
                         parsed.positionsPerTrace } := by
  rw [countedIndex]
  cases found : traceSets.lookup (baseName file.indexName) with
  | none => rfl
  | some directories =>
    obtain rfl := own _ _ found
    rfl

/-- Every worker reads a trace set that a base name names. -/
theorem parseIndices_traceSet {last : Parsed} {files : List Stream}
    (own : OwnDirectories traceSets)
    (made : parseIndices library traceSets parsed files = some last) {worker : TraceWorker}
    (member : worker ∈ last.workers) :
    worker ∈ parsed.workers ∨ ∃ file ∈ files,
      worker.traceSet = library.traceSet [streamDirPath (baseName file.indexName)] := by
  induction files generalizing parsed with
  | nil =>
    obtain rfl := Option.some.inj made
    exact Or.inl member
  | cons file rest ih =>
    obtain ⟨next, here, later⟩ := Option.bind_eq_some_iff.mp made
    rcases ih later with before | ⟨found, among, same⟩
    · rw [parseIndex_eq own] at here
      obtain ⟨_, _, computed⟩ := Option.bind_eq_some_iff.mp here
      obtain ⟨cuts, _, rfl⟩ := Option.map_eq_some_iff.mp computed
      rcases List.mem_append.mp before with old | new
      · exact Or.inl old
      · exact Or.inr ⟨file, List.mem_cons_self, streamWorkers_traceSet new⟩
    · exact Or.inr ⟨found, List.mem_cons_of_mem file among, same⟩

theorem positions_parseIndex (own : OwnDirectories traceSets)
    (made : parseIndex library traceSets parsed file = some next) (name : String) :
    next.positions name = parsed.positions name ++
      if baseName file.indexName = name then file.cuts library else [] := by
  rw [parseIndex_eq own] at made
  obtain ⟨_, _, computed⟩ := Option.bind_eq_some_iff.mp made
  obtain ⟨cuts, positions, rfl⟩ := Option.map_eq_some_iff.mp computed
  have here : file.cuts library = cuts := by rw [Stream.cuts, positions, Option.getD_some]
  rw [Parsed.positions, Hash.lookup_insert_if, here]
  by_cases same : baseName file.indexName = name
  · rw [if_pos same, if_pos same, Option.getD_some, same]
  · rw [if_neg same, if_neg same, List.append_nil]
    rfl

theorem steady_countedIndex (own : OwnDirectories traceSets) :
    Steady (countedIndex library traceSets parsed file) := by
  rw [funext (countedIndex_eq own)]
  apply (steady_const _).bind
  intro _
  apply (steady_countedPositions _ _).bind
  intro positions
  exact (steady_workerLoop _ positions _).bind (fun _ => steady_const _)

/-- The loops of an index file end where it is parsed and their counters suffice. -/
theorem gives_countedIndex (own : OwnDirectories traceSets) :
    Gives (countedIndex library traceSets parsed file) next ↔
      parseIndex library traceSets parsed file = some next ∧
        (file.packets library).length ≤ 2 ^ 32 ∧
        (parsed.positions (baseName file.indexName)).length + (file.cuts library).length + 1 <
          2 ^ 32 := by
  rw [funext (countedIndex_eq own), parseIndex_eq own, Stream.cuts]
  cases traceSets.lookup (baseName file.indexName) with
  | none => simp [Gives]
  | some directories =>
    simp only [Option.bind_some]
    rw [gives_bind (steady_countedPositions _ _)
      (fun positions => (steady_workerLoop _ positions _).bind (fun _ => steady_const _))]
    simp only [gives_countedPositions, Option.map_eq_some_iff]
    constructor
    · intro ends
      obtain ⟨_, ⟨counted, cuts, computed, rfl⟩, turns, found⟩ := ends
      obtain ⟨workers, looped, made⟩ := Option.bind_eq_some_iff.mp found
      obtain ⟨past, rfl⟩ := (gives_workerLoop _ _ _ _).mp ⟨turns, looped⟩
      rw [List.length_append] at past
      rw [computed, Option.getD_some]
      exact ⟨⟨cuts, rfl, Option.some.inj made⟩, counted, past⟩
    · intro ends
      obtain ⟨⟨cuts, computed, rfl⟩, counted, past⟩ := ends
      rw [computed, Option.getD_some, ← List.length_append] at past
      obtain ⟨turns, looped⟩ := (gives_workerLoop _ _ _ _).mpr ⟨past, rfl⟩
      exact ⟨_, ⟨counted, cuts, computed, rfl⟩, turns,
        Option.bind_eq_some_iff.mpr ⟨_, looped, rfl⟩⟩

end Index

/-! ## All index files -/

/-- The number of positions that some index files add under a base name. -/
def cutsUnder (library : TraceLibrary) (files : List Stream) (name : String) : Nat :=
  ((files.filter (fun file => baseName file.indexName = name)).map
    (fun file => (file.cuts library).length)).sum

theorem cutsUnder_cons (library : TraceLibrary) (file : Stream) (rest : List Stream)
    (name : String) :
    cutsUnder library (file :: rest) name =
      (if baseName file.indexName = name then (file.cuts library).length else 0) +
        cutsUnder library rest name := by
  by_cases same : baseName file.indexName = name <;> simp [cutsUnder, same]

theorem cutsUnder_eq_zero {library : TraceLibrary} {files : List Stream} {name : String}
    (apart : ∀ file ∈ files, baseName file.indexName ≠ name) : cutsUnder library files name = 0 := by
  have none_under : files.filter (fun file => baseName file.indexName = name) = [] := by
    rw [List.filter_eq_nil_iff]
    intro file member
    simpa using apart file member
  rw [cutsUnder, none_under]
  rfl

theorem cutsUnder_perm {library : TraceLibrary} {files files' : List Stream}
    (perm : files.Perm files') (name : String) :
    cutsUnder library files name = cutsUnder library files' name :=
  ((perm.filter _).map _).sum_eq

theorem cuts_le_cutsUnder (library : TraceLibrary) {files : List Stream} {file : Stream}
    (member : file ∈ files) :
    (file.cuts library).length ≤ cutsUnder library files (baseName file.indexName) := by
  apply List.single_le_sum (fun _ _ => Nat.zero_le _)
  exact List.mem_map.mpr ⟨file, List.mem_filter.mpr ⟨member, by simp⟩, rfl⟩

/-- The counters of the loops suffice for some index files, after positions that are there. -/
def CountersSuffice (library : TraceLibrary) (parsed : Parsed) (files : List Stream) : Prop :=
  ∀ file ∈ files, (file.packets library).length ≤ 2 ^ 32 ∧
    (parsed.positions (baseName file.indexName)).length +
      cutsUnder library files (baseName file.indexName) + 1 < 2 ^ 32

section Indices
variable {library : TraceLibrary} {traceSets : TraceSets}

theorem steady_countedIndices (own : OwnDirectories traceSets) (files : List Stream)
    (parsed : Parsed) : Steady (countedIndices library traceSets parsed files) := by
  induction files generalizing parsed with
  | nil => exact steady_const _
  | cons file rest ih => exact (steady_countedIndex own).bind (fun next => ih next)

/-- What is left for the files after the first one. -/
theorem countersSuffice_cons {parsed next : Parsed} {file : Stream} {rest : List Stream}
    (grown : ∀ name, next.positions name = parsed.positions name ++
      if baseName file.indexName = name then file.cuts library else []) :
    CountersSuffice library parsed (file :: rest) ↔
      ((file.packets library).length ≤ 2 ^ 32 ∧
        (parsed.positions (baseName file.indexName)).length + (file.cuts library).length + 1 <
          2 ^ 32) ∧ CountersSuffice library next rest := by
  have total : ∀ name, (next.positions name).length + cutsUnder library rest name =
      (parsed.positions name).length + cutsUnder library (file :: rest) name := by
    intro name
    rw [grown, cutsUnder_cons, List.length_append, ← Nat.add_assoc]
    split <;> rfl
  unfold CountersSuffice
  simp only [total, List.forall_mem_cons]
  refine and_congr_left fun later => and_congr_right fun _ => ?_
  have first := cutsUnder_cons library file rest (baseName file.indexName)
  rw [if_pos rfl] at first
  by_cases again : ∃ other ∈ rest, baseName other.indexName = baseName file.indexName
  · obtain ⟨other, member, same⟩ := again
    have bound := (later other member).2
    rw [same] at bound
    omega
  · have none_later : cutsUnder library rest (baseName file.indexName) = 0 :=
      cutsUnder_eq_zero (fun other member same => again ⟨other, member, same⟩)
    omega

theorem gives_countedIndices (own : OwnDirectories traceSets) (files : List Stream)
    (parsed last : Parsed) :
    Gives (countedIndices library traceSets parsed files) last ↔
      parseIndices library traceSets parsed files = some last ∧
        CountersSuffice library parsed files := by
  induction files generalizing parsed with
  | nil => simp [Gives, countedIndices, parseIndices, CountersSuffice]
  | cons file rest ih =>
    have steady : Steady (countedIndex library traceSets parsed file) := steady_countedIndex own
    have each : ∀ next, Steady (countedIndices library traceSets next rest) :=
      steady_countedIndices own rest
    refine (gives_bind steady each last).trans ?_
    rw [parseIndices, Option.bind_eq_some_iff]
    simp only [ih, gives_countedIndex own]
    constructor
    · intro ends
      obtain ⟨next, ⟨here, first⟩, there, later⟩ := ends
      exact ⟨⟨next, here, there⟩,
        (countersSuffice_cons (positions_parseIndex own here)).mpr ⟨first, later⟩⟩
    · intro ends
      obtain ⟨⟨next, here, there⟩, all⟩ := ends
      obtain ⟨first, later⟩ := (countersSuffice_cons (positions_parseIndex own here)).mp all
      exact ⟨next, ⟨here, first⟩, there, later⟩

end Indices

/-! ## Runs -/

/-- The counters of the loops suffice for the index files of a folder that are not hidden: for the
packets of each, and for the positions of those under each base name. -/
def TraceFolder.Counted (folder : TraceFolder) (library : TraceLibrary) : Prop :=
  CountersSuffice library {} (entryInfoList Stream.indexName folder.streams)

theorem CountersSuffice.perm {library : TraceLibrary} {parsed : Parsed} {files files' : List Stream}
    (perm : files.Perm files') :
    CountersSuffice library parsed files ↔ CountersSuffice library parsed files' := by
  unfold CountersSuffice
  simp only [cutsUnder_perm perm, perm.mem_iff]

/-- What the counters need depends on the packets only. -/
theorem CountersSuffice.congr {library other : TraceLibrary} {parsed : Parsed} {files : List Stream}
    (same : ∀ file ∈ files, file.packets other = file.packets library) :
    CountersSuffice other parsed files ↔ CountersSuffice library parsed files := by
  have under : ∀ name, cutsUnder other files name = cutsUnder library files name := by
    intro name
    unfold cutsUnder
    congr 1
    apply List.map_congr_left
    intro file member
    rw [Stream.cuts, Stream.cuts, same file (List.mem_of_mem_filter member)]
  unfold CountersSuffice
  simp only [under]
  exact forall₂_congr (fun file member => by rw [same file member])

/-- A run by loops is one by lists where the counters suffice. -/
theorem TraceFolder.byLoops_iff (folder : TraceFolder) (library : TraceLibrary) {R : Type}
    (analysis : TraceAnalysis R) (data : R) :
    folder.DoExecuteParallelBalancedByLoops library analysis data ↔
      folder.DoExecuteParallelBalancedByTasks library analysis data ∧ folder.Counted library := by
  have own : ∀ (fileList : List String) (schedule : List (Fin fileList.length)) state,
      fileList.Perm (entryInfoList id folder.fileNames) →
      Registration.run fileList.get {} schedule = some state → state.Finished →
      OwnDirectories state.traceSets := by
    intro fileList schedule state listed registers finished name directories found
    have nodup : fileList.Nodup := listed.nodup_iff.mpr (folder.nodup_fileNames.filter _)
    have distinct := List.nodup_iff_injective_get.mp nodup
    have invariant := (Registration.invariant_start fileList.get).run distinct registers
    rw [invariant.lookup_of_finished distinct finished, List.ofFn_get] at found
    exact ownDirectories_registerTraces nodup name directories found
  constructor
  · intro ran
    obtain ⟨fileList, schedule, state, indexFiles, parsed, order, reduced, listed, registers,
      finished, shown, parses, rest⟩ := ran
    obtain ⟨computed, suffice_⟩ :=
      (gives_countedIndices (own _ _ _ listed registers finished) _ _ _).mp parses
    exact ⟨⟨fileList, schedule, state, indexFiles, parsed, order, reduced, listed, registers,
      finished, shown, computed, rest⟩, (CountersSuffice.perm shown).mp suffice_⟩
  · intro both
    obtain ⟨⟨fileList, schedule, state, indexFiles, parsed, order, reduced, listed, registers,
      finished, shown, computed, rest⟩, counted⟩ := both
    have parses := (gives_countedIndices (own _ _ _ listed registers finished) _ _ _).mpr
      ⟨computed, (CountersSuffice.perm shown).mpr counted⟩
    exact ⟨fileList, schedule, state, indexFiles, parsed, order, reduced, listed, registers,
      finished, shown, parses, rest⟩

end LttngParallelAnalyses
