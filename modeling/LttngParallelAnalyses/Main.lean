import LttngParallelAnalyses.Count.Folder
import LttngParallelAnalyses.Cpu.Folder
import LttngParallelAnalyses.Io.Report

/-! The program: the command line, the choice of an analysis and of a mode, and what is printed.
A command line that is accepted prints with and without the serial option the same numbers. -/

namespace LttngParallelAnalyses
open Lib

/-! ## Command line -/

/-- What the command line parser tells once the options are declared: whether the arguments parse,
which options are set, and the values that are given. -/
structure QCommandLineParser where
  parse : Bool
  errorText : String
  helpText : String
  help : Bool
  version : Bool
  verbose : Bool
  benchmark : Bool
  balanced : Bool
  serial : Bool
  thread : Option String
  analysis : Option String
  positionalArguments : List String

/-- An option without a value has its default. -/
def QCommandLineParser.threadValue (parser : QCommandLineParser) : String :=
  parser.thread.getD "4"

def QCommandLineParser.analysisValue (parser : QCommandLineParser) : String :=
  parser.analysis.getD "count"

structure Options where
  analysisName : String := ""
  threads : Int32 := 1
  verbose : Bool := false
  benchmark : Bool := false
  balanced : Bool := false
  parallel : Bool := true
  tracePath : String := ""
  deriving DecidableEq, Repr

/-- The options are read after `ok` only, the error message after `error` only. -/
inductive CommandLineParseResult where
  | ok (opts : Options)
  | error (errorMessage : String)
  | versionRequested
  | helpRequested
  deriving DecidableEq, Repr

def analysisList : List String := ["count", "cpu", "io"]

/-- `toInt` is that of `QString`: 0 for what is no number. -/
def parseCommandLine (toInt : String → Int32) (parser : QCommandLineParser) :
    CommandLineParseResult :=
  if !parser.parse then .error parser.errorText
  else if parser.help then .helpRequested
  else if parser.version then .versionRequested
  else
    let threads := toInt parser.threadValue
    if threads ≤ 0 then .error "Number of threads must be 1 or more."
    else if parser.analysisValue ∉ analysisList then .error "Invalid analysis name."
    else
      match parser.positionalArguments with
      | [] => .error "Argument '<path/to/trace>' missing."
      | [tracePath] =>
        .ok {
          analysisName := parser.analysisValue
          threads
          verbose := parser.verbose
          benchmark := parser.benchmark
          balanced := parser.balanced
          parallel := !parser.serial
          tracePath }
      | _ :: _ :: _ => .error "Several '<path/to/trace>' arguments provided."

inductive AnalysisKind where
  | count
  | cpu
  | io
  deriving DecidableEq, Repr

def getAnalysisFromName (analysisName : String) : Option AnalysisKind :=
  if analysisName = "count" then some .count
  else if analysisName = "cpu" then some .cpu
  else if analysisName = "io" then some .io
  else none

/-- How the program goes on: it exits with a code and what it has written, or it executes an
analysis, with what it has written before. -/
inductive Outcome where
  | exits (code : Nat) (cout : List String) (cerr : List String)
  | executes (opts : Options) (analysis : AnalysisKind) (cout : List String)
  deriving DecidableEq, Repr

/-- `main` up to the execution of the analysis. -/
def start (toInt : String → Int32) (parser : QCommandLineParser) : Outcome :=
  match parseCommandLine toInt parser with
  | .error errorMessage => .exits 1 [] [errorMessage, parser.helpText]
  | .versionRequested => .exits 0 ["lttng-parallel-analysis 0.1"] []
  | .helpRequested => .exits 0 [parser.helpText] []
  | .ok opts =>
    let cout :=
      if opts.verbose then
        ["Opts : ", "--thread : " ++ toString opts.threads, "--analysis : " ++ opts.analysisName,
          "<path/to/trace> : " ++ opts.tracePath]
      else []
    match getAnalysisFromName opts.analysisName with
    | none => .exits 1 cout ["This analysis has not yet been implemented.", parser.helpText]
    | some analysis => .executes opts analysis cout

/-! ## Execution -/

/-- What the trace library makes of the path of a trace. -/
structure Storage where
  set : String → TraceSet
  folder : String → TraceFolder
  library : TraceLibrary

/-- What the machine decides: the formats of floating point numbers, and for how many positions the
stack has room. -/
structure Platform where
  percentage : UInt64 → UInt64 → String
  convertSize : UInt64 → String
  stack : Nat

inductive Printed where
  | count (count : Int32)
  | cpu (report : CpuReport)
  | io (report : IoReport)
  | error (message : String)
  deriving DecidableEq, Repr

/-- The template of an analysis chooses between the two parallel modes. -/
def DoExecuteParallel (platform : Platform) (storage : Storage) (opts : Options) {R : Type}
    (analysis : TraceAnalysis R) (data : R) : Prop :=
  if opts.balanced then
    (storage.folder opts.tracePath).DoExecuteParallelBalancedByLoops storage.library analysis data
  else
    DoExecuteParallelUnbalancedWithin platform.stack analysis (storage.set opts.tracePath)
      opts.threads.toNatClampNeg data

def CountAnalysis.Executes (platform : Platform) (storage : Storage) (opts : Options)
    (printed : Printed) : Prop :=
  ∃ data, printed = .count data ∧
    if opts.parallel then DoExecuteParallel platform storage opts countAnalysis data
    else data = CountAnalysis.doExecuteSerial (storage.set opts.tracePath)

def CpuAnalysis.Executes (platform : Platform) (storage : Storage) (opts : Options)
    (printed : Printed) : Prop :=
  if opts.parallel then
    ∃ data report, DoExecuteParallel platform storage opts cpuAnalysis data ∧
      CpuAnalysis.Prints platform.percentage data report ∧ printed = .cpu report
  else
    match CpuAnalysis.doExecuteSerial (storage.set opts.tracePath) with
    | none => printed = .error "The trace is missing sched_switch events."
    | some data =>
      ∃ report, CpuAnalysis.Prints platform.percentage data report ∧ printed = .cpu report

/-- The I/O analysis overrides the balanced mode. -/
def IoAnalysis.Executes (platform : Platform) (storage : Storage) (opts : Options)
    (printed : Printed) : Prop :=
  if opts.parallel then
    if opts.balanced then printed = .error "Balanced analysis not yet supported."
    else ∃ data report, DoExecuteParallel platform storage opts ioAnalysis data ∧
      IoAnalysis.Prints platform.convertSize data report ∧ printed = .io report
  else
    ∃ report, IoAnalysis.Prints platform.convertSize
      (IoAnalysis.doExecuteSerial (storage.set opts.tracePath)) report ∧ printed = .io report

/-- What an analysis may print. -/
def Executes (platform : Platform) (storage : Storage) (opts : Options) :
    AnalysisKind → Printed → Prop
  | .count => CountAnalysis.Executes platform storage opts
  | .cpu => CpuAnalysis.Executes platform storage opts
  | .io => IoAnalysis.Executes platform storage opts

/-! ## Accepted command lines -/

/-- The options of a command line with this trace. -/
def QCommandLineParser.options (parser : QCommandLineParser) (threads : Int32)
    (tracePath : String) : Options where
  analysisName := parser.analysisValue
  threads
  verbose := parser.verbose
  benchmark := parser.benchmark
  balanced := parser.balanced
  parallel := !parser.serial
  tracePath

/-- A command line that passes every check. -/
structure QCommandLineParser.Accepted (parser : QCommandLineParser) (threads : Int32)
    (tracePath : String) : Prop where
  parse : parser.parse = true
  help : parser.help = false
  version : parser.version = false
  threads : 0 < threads
  analysis : parser.analysisValue ∈ analysisList
  trace : parser.positionalArguments = [tracePath]

theorem parseCommandLine_ok_iff {toInt : String → Int32} {parser : QCommandLineParser}
    {opts : Options} :
    parseCommandLine toInt parser = .ok opts ↔
      ∃ tracePath, parser.Accepted (toInt parser.threadValue) tracePath ∧
        opts = parser.options (toInt parser.threadValue) tracePath := by
  constructor
  · intro accepted
    unfold parseCommandLine at accepted
    split at accepted
    · cases accepted
    split at accepted
    · cases accepted
    split at accepted
    · cases accepted
    rename_i parses helps versions
    dsimp only at accepted
    split at accepted
    · cases accepted
    split at accepted
    · cases accepted
    rename_i threads analysis
    cases positional : parser.positionalArguments with
    | nil => simp [positional] at accepted
    | cons tracePath rest =>
      cases rest with
      | cons other others => simp [positional] at accepted
      | nil =>
        simp only [positional, CommandLineParseResult.ok.injEq] at accepted
        refine ⟨tracePath, ⟨?_, ?_, ?_, ?_, ?_, positional⟩, accepted.symm⟩
        · simpa using parses
        · simpa using helps
        · simpa using versions
        · exact Int32.not_le.mp threads
        · exact not_not.mp analysis
  · intro accepted
    obtain ⟨tracePath, checks, rfl⟩ := accepted
    unfold parseCommandLine
    have some_thread : ¬ toInt parser.threadValue ≤ 0 := Int32.not_le.mpr checks.threads
    simp only [checks.parse, checks.help, checks.version, some_thread, checks.analysis,
      checks.trace, not_true_eq_false, if_false, Bool.not_true, Bool.false_eq_true]
    rfl

theorem start_executes_iff {toInt : String → Int32} {parser : QCommandLineParser} {opts : Options}
    {analysis : AnalysisKind} :
    (∃ cout, start toInt parser = .executes opts analysis cout) ↔
      parseCommandLine toInt parser = .ok opts ∧
        getAnalysisFromName opts.analysisName = some analysis := by
  unfold start
  constructor
  · intro starts
    obtain ⟨cout, starts⟩ := starts
    cases parsed : parseCommandLine toInt parser with
    | ok found =>
      simp only [parsed] at starts
      cases known : getAnalysisFromName found.analysisName with
      | none => simp [known] at starts
      | some kind =>
        simp only [known, Outcome.executes.injEq] at starts
        obtain ⟨rfl, rfl, _⟩ := starts
        exact ⟨rfl, known⟩
    | error errorMessage => simp [parsed] at starts
    | versionRequested => simp [parsed] at starts
    | helpRequested => simp [parsed] at starts
  · intro both
    rw [both.1]
    simp only [both.2]
    exact ⟨_, rfl⟩

/-- The serial option only turns the parallel modes off. -/
theorem parseCommandLine_serial {toInt : String → Int32} {parser : QCommandLineParser}
    {opts : Options} (accepted : parseCommandLine toInt parser = .ok opts) :
    parseCommandLine toInt { parser with serial := true } = .ok { opts with parallel := false } := by
  obtain ⟨tracePath, checks, rfl⟩ := parseCommandLine_ok_iff.mp accepted
  apply parseCommandLine_ok_iff.mpr
  exact ⟨tracePath, ⟨checks.parse, checks.help, checks.version, checks.threads, checks.analysis,
    checks.trace⟩, rfl⟩

/-! ## Runs that come to an end -/

variable {platform : Platform} {storage : Storage} {opts : Options} {printed printed' : Printed}

/-- What a parallel run prints has been through `doEnd`. -/
theorem DoExecuteParallel.ended {R : Type} {analysis : TraceAnalysis R} {data : R}
    (run : DoExecuteParallel platform storage opts analysis data) :
    ∃ reduced, data = analysis.doEnd reduced := by
  unfold DoExecuteParallel at run
  split at run
  · obtain ⟨_, _, _, _, _, _, reduced, _, _, _, _, _, _, _, ended⟩ := run
    exact ⟨reduced, ended⟩
  · obtain ⟨_, reduced, _, ended⟩ := run
    exact ⟨reduced, ended⟩

/-- What each analysis takes from a trace to be cut. -/
def Regular (set : TraceSet) : AnalysisKind → Prop
  | .count => set.getBegin ≠ maxTimestamp
  | .cpu => set.getBegin ≠ 0 ∧ set.getBegin ≤ set.getEnd ∧ set.getEnd < maxTimestamp ∧
      ¬ getEventId set "sched_switch" < 0 ∧ Chained (schedSwitches set set.events)
  | .io => set.getBegin ≤ set.getEnd ∧ set.getEnd < maxTimestamp ∧
      (∀ tracked ∈ set.events.filterMap (track set), ¬ tracked.IsEntry →
        IoProcess.FitsInt tracked.event.ret) ∧
      IoContext.Alternating (set.events.filterMap (track set))

/-- The same numbers in the same lines. -/
def Agrees : Printed → Printed → Prop
  | .count count, .count count' => count = count'
  | .cpu report, .cpu report' => report.cpus.map Prod.snd = report'.cpus.map Prod.snd ∧
      report.cpus.Perm report'.cpus ∧
      report.processes.map Prod.snd = report'.processes.map Prod.snd
  | .io report, .io report' => report.reads.map Prod.snd = report'.reads.map Prod.snd ∧
      report.writes.map Prod.snd = report'.writes.map Prod.snd
  | _, _ => False

theorem threads_fit (some_thread : 0 < opts.threads) :
    0 < opts.threads.toNatClampNeg ∧ opts.threads.toNatClampNeg < 2 ^ 64 :=
  ⟨(Int32.toNatClampNeg_pos_iff opts.threads).mpr some_thread,
    opts.threads.toNatClampNeg_lt.trans (by decide)⟩

theorem count_agrees (unbalanced : opts.balanced = false) (some_thread : 0 < opts.threads)
    (regular : Regular (storage.set opts.tracePath) .count)
    (run : CountAnalysis.Executes platform storage opts printed)
    (run' : CountAnalysis.Executes platform storage { opts with parallel := false } printed') :
    Agrees printed printed' := by
  obtain ⟨data, rfl, made⟩ := run
  obtain ⟨data', rfl, made'⟩ := run'
  have serial : data' = CountAnalysis.doExecuteSerial (storage.set opts.tracePath) := made'
  rw [Agrees, serial]
  cases parallel : opts.parallel with
  | false => simpa [parallel] using made
  | true =>
    simp only [parallel, if_true, DoExecuteParallel, unbalanced, Bool.false_eq_true,
      if_false] at made
    obtain ⟨threads, fits⟩ := threads_fit some_thread
    rw [unbalanced_count.mp made.2, CountAnalysis.doExecuteSerial_eq,
      processed_unbalanced threads fits (Or.inr regular)]

theorem cpu_agrees (unbalanced : opts.balanced = false) (some_thread : 0 < opts.threads)
    (regular : Regular (storage.set opts.tracePath) .cpu)
    (run : CpuAnalysis.Executes platform storage opts printed)
    (run' : CpuAnalysis.Executes platform storage { opts with parallel := false } printed') :
    Agrees printed printed' := by
  obtain ⟨nonzero, le, below, present, chained⟩ := regular
  have serialRun := CpuAnalysis.doExecuteSerial_eq (storage.set opts.tracePath) present
  simp only [CpuAnalysis.Executes, serialRun, Bool.false_eq_true, if_false] at run run'
  obtain ⟨report', prints', rfl⟩ := run'
  cases parallel : opts.parallel with
  | false =>
    simp only [parallel, Bool.false_eq_true, if_false] at run
    obtain ⟨report, prints, rfl⟩ := run
    exact CpuAnalysis.columns_agree ⟨List.Perm.rfl, fun _ => Iff.rfl, fun _ => rfl⟩ rfl prints
      prints'
  | true =>
    simp only [parallel, if_true, DoExecuteParallel, unbalanced, Bool.false_eq_true,
      if_false] at run
    obtain ⟨data, report, made, prints, rfl⟩ := run
    obtain ⟨threads, fits⟩ := threads_fit some_thread
    obtain ⟨serial, printed, same⟩ :=
      unbalanced_agrees_serial present chained le below threads fits made.2
    obtain rfl := Option.some.inj (printed.symm.trans serialRun)
    have total := (unbalanced_total_iff le threads fits serialRun made.2).mpr
      (Or.inr ⟨nonzero, (le.trans_lt below).ne⟩)
    exact CpuAnalysis.columns_agree (CpuAnalysis.sameTimes_of_sameResults same) total prints prints'

theorem io_agrees (unbalanced : opts.balanced = false) (some_thread : 0 < opts.threads)
    (regular : Regular (storage.set opts.tracePath) .io)
    (run : IoAnalysis.Executes platform storage opts printed)
    (run' : IoAnalysis.Executes platform storage { opts with parallel := false } printed') :
    Agrees printed printed' := by
  obtain ⟨le, below, small, alternating⟩ := regular
  simp only [IoAnalysis.Executes, Bool.false_eq_true, if_false] at run run'
  obtain ⟨report', prints', rfl⟩ := run'
  cases parallel : opts.parallel with
  | false =>
    simp only [parallel, Bool.false_eq_true, if_false] at run
    obtain ⟨report, prints, rfl⟩ := run
    have same := IoAnalysis.reports_agree (fun _ => rfl) prints prints'
    exact ⟨same.1, same.2.1⟩
  | true =>
    simp only [parallel, if_true, DoExecuteParallel, unbalanced, Bool.false_eq_true,
      if_false] at run
    obtain ⟨data, report, made, prints, rfl⟩ := run
    obtain ⟨threads, fits⟩ := threads_fit some_thread
    have same := io_unbalanced_agrees_serial small alternating le below threads fits made.2
    have agree := IoAnalysis.reports_agree same prints prints'
    exact ⟨agree.1, agree.2.1⟩

/-- A command line that is accepted and asks for no balanced mode is accepted with the serial option
too, and prints the same numbers: whatever the analysis, the number of threads and the orders that the
library leaves open. -/
theorem serial_option_agrees {toInt : String → Int32} {parser : QCommandLineParser}
    {analysis : AnalysisKind} {cout : List String}
    (starts : start toInt parser = .executes opts analysis cout)
    (unbalanced : parser.balanced = false) (platform : Platform) (storage : Storage)
    (regular : Regular (storage.set opts.tracePath) analysis) :
    (∃ cout', start toInt { parser with serial := true } =
      .executes { opts with parallel := false } analysis cout') ∧
    ∀ printed printed', Executes platform storage opts analysis printed →
      Executes platform storage { opts with parallel := false } analysis printed' →
      Agrees printed printed' := by
  obtain ⟨accepted, known⟩ := start_executes_iff.mp ⟨cout, starts⟩
  refine ⟨start_executes_iff.mpr ⟨parseCommandLine_serial accepted, known⟩, ?_⟩
  obtain ⟨tracePath, checks, rfl⟩ := parseCommandLine_ok_iff.mp accepted
  intro printed printed' run run'
  cases analysis with
  | count => exact count_agrees unbalanced checks.threads regular run run'
  | cpu => exact cpu_agrees unbalanced checks.threads regular run run'
  | io => exact io_agrees unbalanced checks.threads regular run run'

/-- `-a cpu -t 2 trace` -/
def cpuCommand : QCommandLineParser where
  parse := true
  errorText := ""
  helpText := ""
  help := false
  version := false
  verbose := false
  benchmark := false
  balanced := false
  serial := false
  thread := some "2"
  analysis := some "cpu"
  positionalArguments := ["trace"]

/-- A storage with one trace, whose folder is empty. -/
def switchStorage : Storage where
  set := fun _ => switchTrace
  folder := fun _ => ⟨[], List.nodup_nil, by simp, by simp, by simp⟩
  library := ⟨fun _ => switchTrace, fun _ => ⟨1000000000, 0, 0⟩, fun _ _ _ => 0⟩

theorem serial_option_agrees_cpuCommand :
    let share := fun part total : UInt64 => toString part ++ "/" ++ toString total
    let run := (unbalancedWorkers switchTrace 2).map cpuAnalysis.doMap
    let parallel := (run.foldl cpuAnalysis.doReduce cpuAnalysis.initial).handleEnd
    let serial := (CpuContext.ofEvents switchTrace.events 10 20).handleEnd
    Agrees (.cpu (CpuAnalysis.printResults share parallel))
      (.cpu (CpuAnalysis.printResults share serial)) := by
  intro share run parallel serial
  let toInt : String → Int32 := fun text => if text = "2" then 2 else 0
  have starts : start toInt cpuCommand = .executes (cpuCommand.options 2 "trace") .cpu [] := rfl
  have regular : Regular (switchStorage.set "trace") .cpu :=
    ⟨by decide, by decide, by decide, by decide, by decide⟩
  apply (serial_option_agrees starts rfl ⟨share, toString, 1000000⟩ switchStorage regular).2
  · exact ⟨parallel, _, ⟨by decide, _, rfl, rfl⟩, CpuAnalysis.prints_handleEnd share _, rfl⟩
  · exact ⟨_, CpuAnalysis.prints_handleEnd share _, rfl⟩

/-! ## Balanced and serial runs -/

/-- What each analysis takes from the folder of a trace. The I/O analysis does not read it. -/
def RegularFolder (storage : Storage) (tracePath : String) : AnalysisKind → Prop
  | .count =>
    (storage.folder tracePath).Recorded storage.library (storage.set tracePath) ∧
      (storage.folder tracePath).Counted storage.library
  | .cpu =>
    (storage.folder tracePath).Recorded storage.library (storage.set tracePath) ∧
      (storage.folder tracePath).Counted storage.library ∧
      (storage.folder tracePath).Separate storage.library ∧
      (storage.set tracePath).getBegin ≠ 0 ∧
      ¬ getEventId (storage.set tracePath) "sched_switch" < 0 ∧
      Chained (schedSwitches (storage.set tracePath) (storage.set tracePath).events)
  | .io => True

theorem RegularFolder.ends {tracePath : String} {analysis : AnalysisKind}
    (regular : RegularFolder storage tracePath analysis) (reads : analysis ≠ .io) :
    (storage.folder tracePath).Readable ∧
      (storage.folder tracePath).Counted storage.library := by
  cases analysis with
  | count => exact ⟨regular.1.readable, regular.2⟩
  | cpu => exact ⟨regular.1.readable, regular.2.1⟩
  | io => exact absurd rfl reads

end LttngParallelAnalyses
