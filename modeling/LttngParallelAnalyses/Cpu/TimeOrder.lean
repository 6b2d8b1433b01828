import LttngParallelAnalyses.Cpu.Balanced
import LttngParallelAnalyses.Cpu.Straddles

/-! The order of merging in balanced mode, where a CPU may have events in several files. The
comparator puts the first chunk of every file before all other chunks, whatever the time at
which that file begins, so the first chunk of a later file must leave the CPUs of earlier ones
alone. -/

namespace LttngParallelAnalyses
open Lib Lib.UnstableSort CpuContext

/-- Of two workers with events of one CPU, the one with the earlier events is merged first. -/
def InTimeOrder (order : List TraceWorker) : Prop :=
  order.Pairwise (fun first second =>
    OrderedOnCpus (CpuWorker.chunk first).events (CpuWorker.chunk second).events)

/-- No subtraction of the merges is negative. -/
def NoneNegative (order : List TraceWorker) : Prop :=
  ∀ s ∈ reduceStraddles {} (order.map cpuAnalysis.doMap), s.current.start ≤ s.unknown.end_

/-- Where the first worker has an earlier event on a CPU of the second, it begins before it. -/
def BeginsInOrder (first second : TraceWorker) : Prop :=
  ∀ cpu, ∀ event ∈ workerOn cpu first, ∀ event' ∈ workerOn cpu second,
    event.timestamp < event'.timestamp → beginsBefore first second = true

/-- The begins of two workers tell the order of their events. -/
def Told (first second : TraceWorker) : Prop :=
  BeginsInOrder first second ∧ BeginsInOrder second first

instance : Std.Symm Told := ⟨fun _ _ => And.symm⟩

theorem noneNegative_of_inTimeOrder {order : List TraceWorker} (timed : InTimeOrder order) :
    NoneNegative order := by
  have maps : order.map cpuAnalysis.doMap = (order.map CpuWorker.chunk).map ofChunk := by
    rw [List.map_map]
    exact List.map_congr_left (fun worker _ => CpuWorker.doMap_eq worker)
  unfold NoneNegative
  rw [maps]
  apply reduceStraddles_ordered _ openedBy_nil
  · intro chunk _ cpu event member
    cases member
  · exact List.pairwise_map.mpr timed

theorem inTimeOrder_of_told {workers order : List TraceWorker} (told : workers.Pairwise Told)
    (sorted : SortedByBegin workers order) : InTimeOrder order := by
  have told_order : order.Pairwise Told := told.perm sorted.1.symm (fun {_ _} => And.symm)
  have both := told_order.and sorted.2
  apply both.imp
  intro first second pair cpu event member event' member'
  obtain ⟨known, unswapped⟩ := pair
  by_contra later
  have swapped := known.2 cpu event' member' event member (not_le.mp later)
  rw [unswapped] at swapped
  cases swapped

theorem beginsInOrder_of_timed {workers : List TraceWorker}
    (timed : ∀ order, SortedByBegin workers order → InTimeOrder order) {first second : TraceWorker}
    (both : [second, first].Sublist workers ∨ [first, second].Sublist workers) :
    BeginsInOrder first second := by
  intro cpu event member event' member' earlier
  by_contra untold
  -- some sorted order merges the later events first
  obtain ⟨order, sorted, inside⟩ := exists_sortedBy beginsBefore_asymm beginsBefore_trans
    (Bool.not_eq_true _ ▸ untold) both
  have swapped := (timed order (sortedByBegin_iff.mpr sorted)).forall_sublist inside
  exact not_le.mpr earlier (swapped cpu event' member' event member)

theorem told_iff (workers : List TraceWorker) :
    (∀ order, SortedByBegin workers order → InTimeOrder order ∧ NoneNegative order) ↔
      workers.Pairwise Told := by
  constructor
  · intro claimed
    have timed : ∀ order, SortedByBegin workers order → InTimeOrder order :=
      fun order sorted => (claimed order sorted).1
    rw [List.pairwise_iff_forall_sublist]
    intro first second inside
    exact ⟨beginsInOrder_of_timed timed (Or.inr inside),
      beginsInOrder_of_timed timed (Or.inl inside)⟩
  · intro told order sorted
    have timed := inTimeOrder_of_told told sorted
    exact ⟨timed, noneNegative_of_inTimeOrder timed⟩

/-- The workers of one stream always tell the order of their events. -/
theorem told_streamWorkers (trace : TraceSet) {cuts : List Timestamp} (cutting : Cutting cuts) :
    (streamWorkers trace cuts).Pairwise Told := by
  apply (streamWorkers_pairwise trace cutting).imp
  intro first second apart
  constructor
  · intro cpu event member event' member' _
    exact (apart _ _ (mem_workerOn.mp member).2 (mem_workerOn.mp member').2).1
  · intro cpu event' member' event member earlier
    have later := (apart _ _ (mem_workerOn.mp member).2 (mem_workerOn.mp member').2).2
    exact absurd earlier (lt_asymm later)

/-! ## Switches and cuts of two files -/

def StreamFile.switches (file : StreamFile) : List EventValue :=
  schedSwitches file.trace file.trace.events

/-- Below a switch that follows one of the first file on its CPU, the second file has a cut that
lies above the cuts of the first file below the earlier switch. -/
def CutApart (first second : StreamFile) : Prop :=
  ∀ event ∈ first.switches, ∀ event' ∈ second.switches, event.cpuId = event'.cpuId →
    event.timestamp < event'.timestamp →
      ∃ cut ∈ second.cuts, cut < event'.timestamp ∧
        ∀ start ∈ first.cuts, start < event.timestamp → start < cut

/-- A switch that follows one of the first file on its CPU lies behind the first cut of the second
file, so it is not in the first chunk of its file. -/
def BehindFirstCut (first second : StreamFile) : Prop :=
  ∀ event ∈ first.switches, ∀ event' ∈ second.switches, event.cpuId = event'.cpuId →
    event.timestamp < event'.timestamp → ∃ cut ∈ second.cuts.head?, cut < event'.timestamp

instance (first second : StreamFile) : Decidable (BehindFirstCut first second) :=
  inferInstanceAs (Decidable (∀ event ∈ first.switches, ∀ event' ∈ second.switches,
    event.cpuId = event'.cpuId → event.timestamp < event'.timestamp →
      ∃ cut ∈ second.cuts.head?, cut < event'.timestamp))

/-- Files that both have switches of one CPU cover time ranges that follow one another. -/
def InTurn (first second : StreamFile) : Prop :=
  (∃ event ∈ first.switches, ∃ event' ∈ second.switches, event.cpuId = event'.cpuId) →
    first.trace.getEnd ≤ second.trace.getBegin ∨ second.trace.getEnd ≤ first.trace.getBegin

theorem InTurn.symm {first second : StreamFile} (inTurn : InTurn first second) :
    InTurn second first := by
  intro shared
  obtain ⟨event, member, event', member', same⟩ := shared
  exact (inTurn ⟨event', member', event, member, same.symm⟩).symm

/-- A CPU may have its switches in one file, or in several files of successive time ranges. No
packet of a file ends before the range of the file begins. -/
structure Successive (files : List StreamFile) : Prop where
  after : ∀ file ∈ files, ∀ header ∈ file.indices,
    file.trace.getBegin ≤ header.tsReal.timestampEnd
  inTurn : files.Pairwise InTurn

section Pairs
variable {first second : StreamFile}

/-- A switch of a file lies in one of its workers. -/
theorem exists_workerOn {event : EventValue} (member : event ∈ first.switches) :
    ∃ worker ∈ streamWorkers first.trace first.cuts, event ∈ workerOn event.cpuId worker := by
  have among : event ∈ first.trace.events := (schedSwitches_sublist _ _).subset member
  obtain ⟨worker, own, inside⟩ := exists_worker first.trace first.cuts among
  refine ⟨worker, own, mem_workerOn.mpr ⟨?_, (TraceWorker.mem_events.mp inside).2⟩⟩
  rw [streamWorkers_traceSet own]
  exact mem_onCpu.mpr ⟨member, rfl⟩

/-- The switches of a worker are switches of its file between two of its cuts. -/
theorem exists_span_of_workerOn (cutting : Cutting first.cuts) {worker : TraceWorker}
    (own : worker ∈ streamWorkers first.trace first.cuts) :
    ∃ span ∈ Cuts.spans none first.cuts, worker.beginPos = span.lo.map (· + 1) ∧
      ∀ cpu, ∀ event ∈ workerOn cpu worker, event ∈ first.switches ∧ event.cpuId = cpu ∧
        span.Contains event.timestamp := by
  obtain ⟨span, member, begins, ends⟩ := exists_span own
  refine ⟨span, member, begins, ?_⟩
  intro cpu event inside
  obtain ⟨among, within⟩ := mem_workerOn.mp inside
  rw [streamWorkers_traceSet own] at among
  rw [begins, ends, within_iff span (spans_below cutting member)] at within
  exact ⟨(mem_onCpu.mp among).1, (mem_onCpu.mp among).2, within⟩

/-- The begins tell the order of the switches of two files exactly where the cuts do. -/
theorem beginsInOrder_iff (cutting : Cutting first.cuts) (cutting' : Cutting second.cuts) :
    (∀ a ∈ streamWorkers first.trace first.cuts, ∀ b ∈ streamWorkers second.trace second.cuts,
      BeginsInOrder a b) ↔ CutApart first second := by
  constructor
  · intro told event member event' member' same earlier
    obtain ⟨a, own, inside⟩ := exists_workerOn member
    obtain ⟨b, own', inside'⟩ := exists_workerOn member'
    rw [← same] at inside'
    have before := told a own b own' event.cpuId event inside event' inside' earlier
    obtain ⟨span, spans, begins, among⟩ := exists_span_of_workerOn cutting own
    obtain ⟨span', spans', begins', among'⟩ := exists_span_of_workerOn cutting' own'
    rw [beginsBefore_iff, beginKey_lt_iff begins begins' (spans_below cutting spans)
      (spans_below cutting' spans')] at before
    obtain ⟨cut, start, above⟩ := before
    have cuts := (Cuts.mem_of_mem_spans spans' start).resolve_left (by simp)
    refine ⟨cut, cuts, (among' _ _ inside').2.2.1 cut start, ?_⟩
    intro other own_ below
    obtain ⟨low, start_, le⟩ :=
      Cuts.le_lo_of_contains cutting.ordered spans (among _ _ inside).2.2 other own_ below
    exact le.trans_lt (above low start_)
  · intro apart a own b own' cpu event inside event' inside' earlier
    obtain ⟨span, spans, begins, among⟩ := exists_span_of_workerOn cutting own
    obtain ⟨span', spans', begins', among'⟩ := exists_span_of_workerOn cutting' own'
    obtain ⟨member, same, contains⟩ := among cpu event inside
    obtain ⟨member', same', contains'⟩ := among' cpu event' inside'
    obtain ⟨cut, cuts, below, above⟩ :=
      apart event member event' member' (same.trans same'.symm) earlier
    rw [beginsBefore_iff, beginKey_lt_iff begins begins' (spans_below cutting spans)
      (spans_below cutting' spans')]
    obtain ⟨high, start, le⟩ :=
      Cuts.le_lo_of_contains cutting'.ordered spans' contains' cut cuts below
    refine ⟨high, start, ?_⟩
    intro low start_
    have own_ := (Cuts.mem_of_mem_spans spans start_).resolve_left (by simp)
    exact (above low own_ (contains.1 low start_)).trans_le le

/-- Where the time ranges follow one another, any cut below the later switch is above those of the
first file. -/
theorem cutApart_iff (cutting : Cutting second.cuts)
    (after : ∀ cut ∈ second.cuts, second.trace.getBegin ≤ cut) (inTurn : InTurn first second) :
    CutApart first second ↔ BehindFirstCut first second := by
  constructor
  · intro apart event member event' member' same earlier
    obtain ⟨cut, cuts, below, _⟩ := apart event member event' member' same earlier
    obtain ⟨head, rest, split⟩ := List.exists_cons_of_ne_nil (List.ne_nil_of_mem cuts)
    have ordered := cutting.ordered
    rw [split] at ordered cuts ⊢
    refine ⟨head, rfl, ?_⟩
    rcases List.mem_cons.mp cuts with rfl | later
    · exact below
    · exact (List.rel_of_pairwise_cons ordered later).trans_lt below
  · intro behind event member event' member' same earlier
    obtain ⟨head, is_head, below⟩ := behind event member event' member' same earlier
    have cuts := List.mem_of_mem_head? is_head
    refine ⟨head, cuts, below, ?_⟩
    intro start _ start_below
    have bound := first.trace.le_end event ((schedSwitches_sublist _ _).subset member)
    -- the range of the second file is the later one
    have turn : first.trace.getEnd ≤ second.trace.getBegin := by
      rcases inTurn ⟨event, member, event', member', same⟩ with right | wrong
      · exact right
      · have low := first.trace.begin_le event ((schedSwitches_sublist _ _).subset member)
        have high := second.trace.le_end event' ((schedSwitches_sublist _ _).subset member')
        exact absurd earlier (not_lt.mpr ((high.trans wrong).trans low))
    exact start_below.trans_le ((bound.trans turn).trans (after head cuts))

end Pairs

theorem told_files_iff {files : List StreamFile}
    (cutting : ∀ file ∈ files, Cutting file.cuts) :
    (files.flatMap (fun file => streamWorkers file.trace file.cuts)).Pairwise Told ↔
      files.Pairwise (fun first second => CutApart first second ∧ CutApart second first) := by
  have inside : ∀ file ∈ files, (streamWorkers file.trace file.cuts).Pairwise Told :=
    fun file member => told_streamWorkers file.trace (cutting file member)
  rw [List.pairwise_flatMap, and_iff_right inside]
  apply List.Pairwise.iff_of_mem
  intro first second member member'
  rw [← beginsInOrder_iff (cutting first member) (cutting second member'),
    ← beginsInOrder_iff (cutting second member') (cutting first member)]
  constructor
  · intro told
    exact ⟨fun a own b own' => (told a own b own').1, fun b own' a own => (told a own b own').2⟩
  · intro told a own b own'
    exact ⟨told.1 a own b own', told.2 b own' a own⟩

theorem cutApart_files_iff {files : List StreamFile}
    (cutting : ∀ file ∈ files, Cutting file.cuts) (successive : Successive files) :
    files.Pairwise (fun first second => CutApart first second ∧ CutApart second first) ↔
      files.Pairwise (fun first second =>
        BehindFirstCut first second ∧ BehindFirstCut second first) := by
  have after : ∀ file ∈ files, ∀ cut ∈ file.cuts, file.trace.getBegin ≤ cut := by
    intro file member cut inside
    obtain ⟨header, among, rfl⟩ := StreamFile.mem_cuts inside
    exact successive.after file member header among
  have each : ∀ first ∈ files, ∀ second ∈ files, InTurn first second →
      (CutApart first second ∧ CutApart second first ↔
        BehindFirstCut first second ∧ BehindFirstCut second first) := by
    intro first member second member' inTurn
    rw [cutApart_iff (cutting second member') (after second member') inTurn,
      cutApart_iff (cutting first member) (after first member) inTurn.symm]
  constructor
  · intro apart
    apply (successive.inTurn.and apart).imp_of_mem
    intro first second member member' both
    exact (each first member second member' both.1).mp both.2
  · intro behind
    apply (successive.inTurn.and behind).imp_of_mem
    intro first second member member' both
    exact (each first member second member' both.1).mpr both.2

/-- Every order sorted by begin merges the workers in time order exactly where the cuts of two files
keep the switches of a CPU apart. For files of successive time ranges this says that no switch in
the first chunk of a file follows one of another file on its CPU. -/
theorem merged_in_time_order_iff (files : List StreamFile) (workers : List TraceWorker)
    (computed : balancedWorkers files = some workers)
    (cutting : ∀ file ∈ files, Cutting file.cuts) :
    ((∀ order, SortedByBegin workers order → InTimeOrder order ∧ NoneNegative order) ↔
      files.Pairwise (fun first second => CutApart first second ∧ CutApart second first)) ∧
    (Successive files →
      ((∀ order, SortedByBegin workers order → InTimeOrder order ∧ NoneNegative order) ↔
        files.Pairwise (fun first second =>
          BehindFirstCut first second ∧ BehindFirstCut second first))) := by
  have apart : (∀ order, SortedByBegin workers order → InTimeOrder order ∧ NoneNegative order) ↔
      files.Pairwise (fun first second => CutApart first second ∧ CutApart second first) := by
    rw [told_iff, balancedWorkers_eq_some computed, told_files_iff cutting]
  refine ⟨apart, ?_⟩
  intro successive
  rw [apart, cutApart_files_iff cutting successive]

/-! ## A CPU whose events lie in two files -/

def packetUntil (end_ : Timestamp) : PacketHeader := ⟨0, 0, 0, 1, 0, 0, ⟨0, 0⟩, ⟨0, end_⟩⟩

def firstFile : StreamFile where
  trace := TraceSet.ofEvents kernelInfos
    [{ id := 3, timestamp := 10, nextTid := 5 },
      { id := 3, timestamp := 20, prevTid := 5, nextTid := 6 }]
    10 25 (by decide) (by decide) (by decide)
  indices := [packetUntil 15, packetUntil 25]

def secondFile : StreamFile where
  trace := TraceSet.ofEvents kernelInfos [{ id := 3, timestamp := 30, prevTid := 6, nextTid := 7 }]
    30 35 (by decide) (by decide) (by decide)
  indices := [packetUntil 35]

/-- The later file has a switch of CPU 1 in its first chunk, and that of CPU 0 behind it. -/
def laterFile : StreamFile where
  trace := TraceSet.ofEvents kernelInfos
    [{ id := 3, timestamp := 31, cpuId := 1, nextTid := 8 },
      { id := 3, timestamp := 40, prevTid := 6, nextTid := 7 }]
    30 45 (by decide) (by decide) (by decide)
  indices := [packetUntil 32, packetUntil 45]

theorem merged_in_time_order_laterFile :
    let workers := [TraceWorker.new 0 firstFile.trace none (some 15),
      TraceWorker.new 1 firstFile.trace (some 15) none,
      TraceWorker.new 0 laterFile.trace none (some 32),
      TraceWorker.new 1 laterFile.trace (some 32) none]
    balancedWorkers [firstFile, laterFile] = some workers ∧
      ∀ order, SortedByBegin workers order → InTimeOrder order ∧ NoneNegative order := by
  refine ⟨rfl, ?_⟩
  have cutting : ∀ file ∈ [firstFile, laterFile], Cutting file.cuts := by
    intro file member
    apply StreamFile.WellFormed.cutting
    rcases List.mem_cons.mp member with rfl | last
    · exact ⟨by decide, by decide⟩
    · rw [List.mem_singleton.mp last]
      exact ⟨by decide, by decide⟩
  have inTurn : InTurn firstFile laterFile := fun _ => Or.inl (by decide)
  have successive : Successive [firstFile, laterFile] :=
    ⟨by decide, List.pairwise_pair.mpr inTurn⟩
  obtain ⟨_, timed⟩ := merged_in_time_order_iff [firstFile, laterFile] _ rfl cutting
  exact (timed successive).mpr (List.pairwise_pair.mpr ⟨by decide, by decide⟩)

/-- The second file, which has no begin, is merged before the second chunk of the first. -/
theorem not_merged_in_time_order :
    ¬ ∀ (files : List StreamFile) (workers : List TraceWorker),
      balancedWorkers files = some workers → (∀ file ∈ files, file.WellFormed) →
      Successive files →
      ∀ order, SortedByBegin workers order → InTimeOrder order ∧ NoneNegative order := by
  intro claimed
  have wellFormed : ∀ file ∈ [firstFile, secondFile], file.WellFormed := by
    intro file member
    rcases List.mem_cons.mp member with rfl | last
    · exact ⟨by decide, by decide⟩
    · rw [List.mem_singleton.mp last]
      exact ⟨by decide, by decide⟩
  have inTurn : InTurn firstFile secondFile := fun _ => Or.inl (by decide)
  have successive : Successive [firstFile, secondFile] :=
    ⟨by decide, List.pairwise_pair.mpr inTurn⟩
  have sorted : SortedByBegin
      [TraceWorker.new 0 firstFile.trace none (some 15),
        TraceWorker.new 1 firstFile.trace (some 15) none,
        TraceWorker.new 0 secondFile.trace none none]
      [TraceWorker.new 0 firstFile.trace none (some 15),
        TraceWorker.new 0 secondFile.trace none none,
        TraceWorker.new 1 firstFile.trace (some 15) none] :=
    ⟨List.Perm.cons _ (List.Perm.swap _ _ _), by decide⟩
  have timed := (claimed [firstFile, secondFile] _ rfl wellFormed successive _ sorted).1
  -- the event at 30 is merged before the one at 20
  have wrong := List.rel_of_pairwise_cons timed.of_cons (List.mem_singleton_self _) 0
    { id := 3, timestamp := 30, prevTid := 6, nextTid := 7 } (by decide)
    { id := 3, timestamp := 20, prevTid := 5, nextTid := 6 } (by decide)
  exact absurd wrong (by decide)

end LttngParallelAnalyses
