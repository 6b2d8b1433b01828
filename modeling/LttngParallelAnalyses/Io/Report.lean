import LttngParallelAnalyses.Cpu.Report
import LttngParallelAnalyses.Io.Analysis

/-! The printed tables of the I/O analysis. The list is sorted by bytes read for the first table, and
then again, by a stable sort, by bytes written for the second one: processes that wrote as much come
in the order of what they read. So the order in which the hash gives its values shows only among
processes that read and wrote as much. -/

namespace LttngParallelAnalyses
open Lib Lib.Tables Lib.Ranking

namespace IoContext
open IoProcess

/-- `std::list::sort` is stable. -/
def getTidsByRead (ctx : IoContext) : IoContext :=
  { ctx with sortedTids := rank IoProcess.readBytes ctx.sortedTids }

def getTidsByWrite (ctx : IoContext) : IoContext :=
  { ctx with sortedTids := rank IoProcess.writeBytes ctx.sortedTids }

end IoContext

/-- The lines of the two tables: a name and a size. -/
structure IoReport where
  reads : List (String × String)
  writes : List (String × String)
  deriving DecidableEq, Repr

namespace IoAnalysis
open IoProcess

/-- The line of a process, with the size of what it read or wrote. -/
def line (convertSize : UInt64 → String) (bytes : IoProcess → UInt64) (process : IoProcess) :
    String × String :=
  (CpuAnalysis.processName process.toProcess, convertSize (bytes process))

/-- The second table is printed from the list that the first one has left sorted. -/
def printResults (convertSize : UInt64 → String) (data : IoContext) : IoReport :=
  let byRead := data.getTidsByRead
  let byWrite := byRead.getTidsByWrite
  { reads := (byRead.sortedTids.take 10).map (line convertSize IoProcess.readBytes)
    writes := (byWrite.sortedTids.take 10).map (line convertSize IoProcess.writeBytes) }

/-- The reports that the data may be printed as: the hash gives its values in any order. -/
def Prints (convertSize : UInt64 → String) (data : IoContext) (report : IoReport) : Prop :=
  ∃ values, values.Perm (data.tids.entries.map (·.2)) ∧
    report = printResults convertSize { data with sortedTids := values }

theorem prints_handleEnd (convertSize : UInt64 → String) (ctx : IoContext) :
    Prints convertSize ctx.handleEnd (printResults convertSize ctx.handleEnd) :=
  ⟨_, List.Perm.rfl, rfl⟩

/-- A report shows nothing of the saved exits. -/
theorem printResults_visible (convertSize : UInt64 → String) (data : IoContext) :
    printResults convertSize { data with sortedTids := data.sortedTids.map visible } =
      printResults convertSize data := by
  unfold printResults IoContext.getTidsByRead IoContext.getTidsByWrite
  simp only [rank_map, ← List.map_take, List.map_map]
  rfl

/-- The score by which the second table is ranked, ties included. -/
def written (process : IoProcess) : UInt64 ×ₗ UInt64 :=
  paired IoProcess.readBytes IoProcess.writeBytes process

/-- Reports of the same records in another order. -/
theorem printResults_perm (convertSize : UInt64 → String) (data serial : IoContext)
    (perm : data.sortedTids.Perm serial.sortedTids) :
    let report := printResults convertSize data
    let report' := printResults convertSize serial
    report.reads.map Prod.snd = report'.reads.map Prod.snd ∧
    report.writes.map Prod.snd = report'.writes.map Prod.snd ∧
    ∀ p ∈ serial.sortedTids,
      (standing IoProcess.readBytes p.readBytes serial.sortedTids ≤ 10 →
        line convertSize IoProcess.readBytes p ∈ report.reads) ∧
      (standing written (written p) serial.sortedTids ≤ 10 →
        line convertSize IoProcess.writeBytes p ∈ report.writes) := by
  intro report report'
  have reads : (rank IoProcess.readBytes data.sortedTids).Perm
      (rank IoProcess.readBytes serial.sortedTids) :=
    ((rank_perm _ _).trans perm).trans (rank_perm _ _).symm
  have writes : (rank IoProcess.writeBytes (rank IoProcess.readBytes data.sortedTids)).Perm
      (rank IoProcess.writeBytes (rank IoProcess.readBytes serial.sortedTids)) :=
    ((rank_perm _ _).trans reads).trans (rank_perm _ _).symm
  have ranked := ranked_rank IoProcess.readBytes data.sortedTids
  have ranked' := ranked_rank IoProcess.readBytes serial.sortedTids
  have lex := ranked_rank_rank IoProcess.readBytes IoProcess.writeBytes data.sortedTids
  refine ⟨?_, ?_, ?_⟩
  · have column := congrArg (List.map convertSize)
      (ranked.take_map_eq ranked' (reads.map _) 10)
    rw [List.map_map, List.map_map] at column
    change List.map Prod.snd (List.map _ _) = List.map Prod.snd (List.map _ _)
    rw [List.map_map, List.map_map]
    exact column
  · have column := congrArg (List.map convertSize)
      ((ranked_rank IoProcess.writeBytes _).take_map_eq (ranked_rank IoProcess.writeBytes _)
        (writes.map _) 10)
    rw [List.map_map, List.map_map] at column
    change List.map Prod.snd (List.map _ _) = List.map Prod.snd (List.map _ _)
    rw [List.map_map, List.map_map]
    exact column
  · intro p member
    have among := perm.mem_iff.mpr member
    constructor
    · intro high
      have whole := ((rank_perm IoProcess.readBytes data.sortedTids).trans perm).symm
      rw [standing_perm whole] at high
      exact List.mem_map_of_mem (ranked.mem_take ((rank_perm _ _).mem_iff.mpr among) high)
    · intro high
      have whole := ((rank_perm IoProcess.writeBytes _).trans
        ((rank_perm IoProcess.readBytes data.sortedTids).trans perm)).symm
      rw [standing_perm whole] at high
      exact List.mem_map_of_mem (lex.mem_take (whole.mem_iff.mp member) high)

/-- Two runs that show the same records print the same sizes in the same lines, and both every
process that is among the ten first when all ties are lost. -/
theorem reports_agree {convertSize : UInt64 → String} {data serial : IoContext} {report report' : IoReport}
    (same : ∀ t, (data.tids.lookup t).map visible = (serial.tids.lookup t).map visible)
    (prints : Prints convertSize data report) (prints' : Prints convertSize serial report') :
    report.reads.map Prod.snd = report'.reads.map Prod.snd ∧
    report.writes.map Prod.snd = report'.writes.map Prod.snd ∧
    ∀ t p, serial.tids.lookup t = some p →
      (standing IoProcess.readBytes p.readBytes (serial.tids.entries.map (·.2)) ≤ 10 →
        line convertSize IoProcess.readBytes p ∈ report.reads ∧
          line convertSize IoProcess.readBytes p ∈ report'.reads) ∧
      (standing written (written p) (serial.tids.entries.map (·.2)) ≤ 10 →
        line convertSize IoProcess.writeBytes p ∈ report.writes ∧
          line convertSize IoProcess.writeBytes p ∈ report'.writes) := by
  obtain ⟨values, perm, rfl⟩ := prints
  obtain ⟨values', perm', rfl⟩ := prints'
  have shown : (values.map visible).Perm (values'.map visible) := by
    have tables := Hash.values_perm visible same
    have left := perm.map visible
    have right := perm'.map visible
    rw [List.map_map] at left right
    exact (left.trans tables).trans right.symm
  have first := printResults_perm convertSize { data with sortedTids := values.map visible }
    { serial with sortedTids := values'.map visible } shown
  have second := printResults_perm convertSize { serial with sortedTids := values'.map visible } _
    List.Perm.rfl
  rw [← printResults_visible convertSize { data with sortedTids := values },
    ← printResults_visible convertSize { serial with sortedTids := values' }]
  refine ⟨first.1, first.2.1, ?_⟩
  intro t p found
  have member : visible p ∈ values'.map visible := by
    apply List.mem_map_of_mem
    rw [perm'.mem_iff]
    exact List.mem_map.mpr ⟨⟨t, p⟩, AList.mem_lookup_iff.mp found, rfl⟩
  obtain ⟨read, write⟩ := first.2.2 (visible p) member
  obtain ⟨read', write'⟩ := second.2.2 (visible p) member
  rw [standing_map] at read write read' write'
  rw [← standing_perm perm', ← standing_perm perm']
  exact ⟨fun high => ⟨read high, read' high⟩, fun high => ⟨write high, write' high⟩⟩

end IoAnalysis

/-- What an unbalanced parallel run prints agrees with what a serial run prints, for any number of
threads: the sizes in both tables, and every process above the ties of their last lines. -/
theorem io_unbalanced_report_agrees {convertSize : UInt64 → String} {set : TraceSet}
    {threads : Nat} {data : IoContext} {report report' : IoReport}
    (fits : ∀ tracked ∈ set.events.filterMap (track set), ¬ tracked.IsEntry →
      IoProcess.FitsInt tracked.event.ret)
    (alternating : IoContext.Alternating (set.events.filterMap (track set)))
    (le : set.getBegin ≤ set.getEnd) (below : set.getEnd < maxTimestamp)
    (some_thread : 0 < threads) (small : threads < 2 ^ 64)
    (run : DoExecuteParallelUnbalanced ioAnalysis set threads data)
    (prints : IoAnalysis.Prints convertSize data report)
    (prints' : IoAnalysis.Prints convertSize (IoAnalysis.doExecuteSerial set) report') :
    report.reads.map Prod.snd = report'.reads.map Prod.snd ∧
    report.writes.map Prod.snd = report'.writes.map Prod.snd ∧
    ∀ t p, (IoAnalysis.doExecuteSerial set).tids.lookup t = some p →
      (standing IoProcess.readBytes p.readBytes
          ((IoAnalysis.doExecuteSerial set).tids.entries.map (·.2)) ≤ 10 →
        IoAnalysis.line convertSize IoProcess.readBytes p ∈ report.reads ∧
          IoAnalysis.line convertSize IoProcess.readBytes p ∈ report'.reads) ∧
      (standing IoAnalysis.written (IoAnalysis.written p)
          ((IoAnalysis.doExecuteSerial set).tids.entries.map (·.2)) ≤ 10 →
        IoAnalysis.line convertSize IoProcess.writeBytes p ∈ report.writes ∧
          IoAnalysis.line convertSize IoProcess.writeBytes p ∈ report'.writes) :=
  IoAnalysis.reports_agree
    (io_unbalanced_agrees_serial fits alternating le below some_thread small run) prints prints'

/-- A read and a write, both of which end after the cut between two threads. -/
def copyTrace : TraceSet :=
  TraceSet.ofEvents [⟨"lttng-kernel", [("sys_read", 1), ("sys_write", 2), ("exit_syscall", 3)]⟩]
    [{ id := 1, timestamp := 12, tid := some 7, procname := some "cat", name := "sys_read" },
      { id := 2, timestamp := 13, tid := some 8, procname := some "tee", name := "sys_write" },
      { id := 3, timestamp := 18, tid := some 7, ret := 4096 },
      { id := 3, timestamp := 19, tid := some 8, ret := 512 }] 10 20
    (by decide) (by decide) (by decide)

theorem io_unbalanced_report_agrees_copyTrace :
    let size := fun bytes : UInt64 => toString bytes
    let run := (unbalancedWorkers copyTrace 2).map ioAnalysis.doMap
    let parallel := (run.foldl ioAnalysis.doReduce ioAnalysis.initial).handleEnd
    let serial := IoAnalysis.doExecuteSerial copyTrace
    (IoAnalysis.printResults size parallel).reads.map Prod.snd =
        (IoAnalysis.printResults size serial).reads.map Prod.snd ∧
      (IoAnalysis.printResults size parallel).writes.map Prod.snd =
        (IoAnalysis.printResults size serial).writes.map Prod.snd := by
  intro size run parallel serial
  have tids : ∀ tracked ∈ copyTrace.events.filterMap (track copyTrace),
      tracked.event.tid = some 7 ∨ tracked.event.tid = some 8 := by decide
  have alternating : IoContext.Alternating (copyTrace.events.filterMap (track copyTrace)) := by
    intro t
    by_cases reader : t = 7
    · subst reader
      decide
    by_cases writer : t = 8
    · subst writer
      decide
    have absent : Tracked.ofTid t (copyTrace.events.filterMap (track copyTrace)) = [] := by
      rw [Tracked.ofTid, List.filter_eq_nil_iff]
      intro tracked member
      rcases tids tracked member with own | own <;> simp [own, Ne.symm reader, Ne.symm writer]
    rw [absent]
    exact List.isChain_nil
  have agree := io_unbalanced_report_agrees (by decide) alternating (by decide) (by decide)
    (by decide : 0 < 2) (by decide) ⟨_, rfl, rfl⟩ (IoAnalysis.prints_handleEnd size _)
    (IoAnalysis.prints_handleEnd size _)
  exact ⟨agree.1, agree.2.1⟩

end LttngParallelAnalyses
