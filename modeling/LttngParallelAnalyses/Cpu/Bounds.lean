import LttngParallelAnalyses.Cpu.Parallel
import LttngParallelAnalyses.Lib.RunningLeast

/-! The bounds of a merged context, of which the percentages are computed. `merge` takes a start
of 0 for one that was never set, so a chunk that starts at 0 is forgotten by the next one. -/

namespace LttngParallelAnalyses
open Lib RunningLeast

namespace CpuContext

/-- The total time of a run as `printResults` computes it. -/
def total (ctx : CpuContext) : UInt64 := ctx.end_ - ctx.start

/-- The merged bounds are the least start and the greatest end of the contexts. -/
structure ExactBounds (contexts : List CpuContext) : Prop where
  start : IsLeast {t | t ∈ contexts.map (·.start)} (contexts.foldl merge {}).start
  end_ : IsGreatest {t | t ∈ contexts.map (·.end_)} (contexts.foldl merge {}).end_

theorem zero_le_time (t : Timestamp) : 0 ≤ t := Nat.zero_le t.toNat

theorem mergeCpus_start (ctx : CpuContext) (others : List Cpu) :
    (ctx.mergeCpus others).start = ctx.start := by
  unfold mergeCpus
  induction others generalizing ctx with
  | nil => rfl
  | cons otherCpu rest ih => exact ih _

theorem fix_start (others : List Cpu) (state : CpuContext × List Straddle) :
    (others.foldl fixStep state).1.start = state.1.start := by
  induction others generalizing state with
  | nil => rfl
  | cons otherCpu rest ih => exact ih _

theorem merge_start (ctx other : CpuContext) :
    (ctx.merge other).start = keep 0 ctx.start other.start := by
  rw [merge, mergeRun_eq, fix_start]
  exact mergeCpus_start (mergeBounds ctx other) other.cpus

theorem foldl_merge_start (contexts : List CpuContext) :
    (contexts.foldl merge {}).start = least 0 (contexts.map (·.start)) := by
  induction contexts using List.reverseRecOn with
  | nil => rfl
  | append_singleton contexts ctx ih =>
    rw [List.foldl_concat, merge_start, ih, List.map_append, List.map_singleton, least_concat]

theorem foldl_merge_end (contexts : List CpuContext) :
    (contexts.foldl merge {}).end_ = latest (contexts.map (·.end_)) := by
  induction contexts using List.reverseRecOn with
  | nil => rfl
  | append_singleton contexts ctx ih =>
    rw [List.foldl_concat, merge_end, ih, List.map_append, List.map_singleton, latest_concat]

theorem isGreatest_latest {times : List Timestamp} (nonempty : times ≠ []) :
    IsGreatest {t | t ∈ times} (latest times) := by
  refine ⟨?_, fun t member => latest_le_iff.mp le_rfl t member⟩
  induction times using List.reverseRecOn with
  | nil => exact absurd rfl nonempty
  | append_singleton times t ih =>
    rw [latest_concat]
    rcases max_choice (latest times) t with older | newer
    · by_cases first : times = []
      · have only : max (latest times) t = t := by
          rw [first]
          exact max_eq_right (zero_le_time t)
        rw [only]
        simp
      · rw [older]
        exact List.mem_append_left _ (ih first)
    · rw [newer]
      simp

/-- The greatest end is exact in every order, the least start where no start is taken for one
that was never set. -/
theorem exactBounds_perm_iff {contexts : List CpuContext} (some_chunk : contexts ≠ []) :
    (∀ order : List CpuContext, order.Perm contexts → ExactBounds order) ↔
      (∀ ctx ∈ contexts, ctx.start ≠ 0) ∨ ∀ ctx ∈ contexts, ctx.start = 0 := by
  rw [← isLeast_perm_iff (fun ctx : CpuContext => ctx.start) zero_le_time some_chunk]
  constructor
  · intro every order perm
    rw [← foldl_merge_start]
    exact (every order perm).start
  · intro every order perm
    have nonempty : order ≠ [] := fun empty => some_chunk (List.nil_perm.mp (empty ▸ perm))
    constructor
    · rw [foldl_merge_start]
      exact every order perm
    · rw [foldl_merge_end]
      exact isGreatest_latest (by simpa using nonempty)

/-! ## The total time -/

theorem handle_start (ctx : CpuContext) (events : List EventValue) :
    (ctx.handle events).start = ctx.start := by
  unfold handle
  induction events generalizing ctx with
  | nil => rfl
  | cons event rest ih => exact ih (ctx.handleSchedSwitch event)

theorem ofEvents_start (events : List EventValue) (start end_ : Timestamp) :
    (ofEvents events start end_).start = start := handle_start { start, end_ } events

theorem reduce_start (chunks : List Chunk) :
    (reduce chunks).start = least 0 (chunks.map Chunk.start) := by
  rw [reduce, foldl_merge_start, List.map_map]
  congr 1
  apply List.map_congr_left
  intro chunk _
  exact ofEvents_start chunk.events chunk.start chunk.end_

theorem spans_starts (lo : Option Timestamp) (traceBegin : Timestamp) (cuts : List Timestamp) :
    (Cuts.spans lo cuts).map (fun span => (span.lo.map (· + 1)).getD traceBegin) =
      (lo.map (· + 1)).getD traceBegin :: cuts.map (· + 1) := by
  induction cuts generalizing lo with
  | nil => rfl
  | cons cut rest ih => rw [Cuts.spans, List.map_cons, ih]; rfl

private theorem map_chunks {β : Type} (trace : TraceSet) (cuts : List Timestamp) (f : Chunk → β)
    (g : Cuts.Span Timestamp → β)
    (same : ∀ i span, f (CpuWorker.chunk (TraceWorker.new i trace span.lo span.hi)) = g span) :
    ((streamWorkers trace cuts).map CpuWorker.chunk).map f = (Cuts.spans none cuts).map g := by
  rw [streamWorkers_eq]
  apply List.ext_getElem
  · simp
  · intro i _ _
    simp [same]

theorem starts_streamWorkers (trace : TraceSet) (cuts : List Timestamp) :
    ((streamWorkers trace cuts).map CpuWorker.chunk).map Chunk.start =
      trace.getBegin :: cuts.map (· + 1) :=
  (map_chunks trace cuts Chunk.start _ (fun _ _ => rfl)).trans
    (spans_starts none trace.getBegin cuts)

theorem ends_streamWorkers (trace : TraceSet) (cuts : List Timestamp) :
    ((streamWorkers trace cuts).map CpuWorker.chunk).map Chunk.end_ = cuts ++ [trace.getEnd] :=
  (map_chunks trace cuts Chunk.end_ _ (fun _ _ => rfl)).trans (spans_ends none trace.getEnd cuts)

theorem add_one_eq_zero_iff {t : Timestamp} : t + 1 = 0 ↔ t = maxTimestamp := by
  unfold maxTimestamp
  grind

/-- Where the trace begins neither at 0 nor at 2^64-1 the merged start is that of the first chunk. -/
theorem least_starts {traceBegin : Timestamp} {cuts : List Timestamp} (nonzero : traceBegin ≠ 0)
    (inside : ∀ cut ∈ cuts, traceBegin ≤ cut) (below : ∀ cut ∈ cuts, cut < maxTimestamp) :
    least 0 (traceBegin :: cuts.map (· + 1)) = traceBegin := by
  apply least_cons_of_set
  · intro t member
    rcases List.mem_cons.mp member with rfl | shifted
    · exact nonzero
    · obtain ⟨cut, own, rfl⟩ := List.mem_map.mp shifted
      exact fun zero => (below cut own).ne (add_one_eq_zero_iff.mp zero)
  · intro t shifted
    obtain ⟨cut, own, rfl⟩ := List.mem_map.mp shifted
    exact ((inside cut own).trans_lt ((add_one_le_iff (below cut own)).mp le_rfl)).le

/-- The merged start of chunks is that of the first exactly where there is only one, or where
neither the first start nor a later one is 0. -/
theorem least_starts_iff {traceBegin : Timestamp} {cuts : List Timestamp}
    (inside : ∀ cut ∈ cuts, traceBegin ≤ cut)
    (below : traceBegin < maxTimestamp → ∀ cut ∈ cuts, cut < maxTimestamp) :
    least 0 (traceBegin :: cuts.map (· + 1)) = traceBegin ↔
      cuts = [] ∨ traceBegin ≠ 0 ∧ traceBegin ≠ maxTimestamp := by
  rcases List.eq_nil_or_concat' cuts with rfl | ⟨before, last, rfl⟩
  · simp [least, keep]
  · have ends_unset := least_eq_unset_iff zero_le_time
      (List.cons_ne_nil traceBegin ((before ++ [last]).map (· + 1)))
    have final : (traceBegin :: (before ++ [last]).map (· + 1)).getLast? = some (last + 1) := by
      rw [List.map_append, List.map_singleton, ← List.cons_append, List.getLast?_concat]
    rw [final, Option.some.injEq, add_one_eq_zero_iff] at ends_unset
    constructor
    · intro same
      right
      constructor
      · intro zero
        have capped := ends_unset.mp (by rw [same, zero])
        have room : traceBegin < maxTimestamp := by
          rw [zero]
          decide
        exact (below room last (by simp)).ne capped
      · intro full
        have capped : last = maxTimestamp :=
          le_antisymm (le_maxTimestamp last) (full ▸ inside last (by simp))
        have reset := ends_unset.mpr capped
        rw [same, full] at reset
        exact absurd reset (by decide)
    · intro either
      rcases either with empty | within
      · simp at empty
      · have room : traceBegin < maxTimestamp :=
          lt_of_le_of_ne (le_maxTimestamp traceBegin) within.2
        exact least_starts within.1 inside (below room)

end CpuContext

open CpuContext

/-- An unbalanced run computes the percentages of the total that a serial run takes exactly where
it has one thread, or where the trace begins neither at 0 nor at 2^64-1. -/
theorem unbalanced_total_iff {set : TraceSet} {threads : Nat} {data serial : CpuContext}
    (le : set.getBegin ≤ set.getEnd) (some_thread : 0 < threads) (fits : threads < 2 ^ 64)
    (printed : CpuAnalysis.doExecuteSerial set = some serial)
    (run : DoExecuteParallelUnbalanced cpuAnalysis set threads data) :
    data.total = serial.total ↔
      threads = 1 ∨ set.getBegin ≠ 0 ∧ set.getBegin ≠ maxTimestamp := by
  have whole : serial.total = set.getEnd - set.getBegin := by
    rw [CpuAnalysis.eq_of_doExecuteSerial printed]
    show (ofEvents _ _ _).end_ - (ofEvents _ _ _).start = _
    rw [ofEvents_end, ofEvents_start]
  obtain ⟨reduced, mapped, rfl⟩ := run
  rw [mappedReduced_cpu, unbalancedWorkers_eq set some_thread] at mapped
  have inside := unbalanced_within le fits
  have one : (unbalancedPositions set.getBegin set.getEnd threads).tail = [] ↔ threads = 1 := by
    rw [← List.length_eq_zero_iff, List.length_tail, length_unbalancedPositions]
    omega
  have parallel : reduced.handleEnd.total = set.getEnd - least 0
      (set.getBegin :: (unbalancedPositions set.getBegin set.getEnd threads).tail.map (· + 1)) := by
    show reduced.end_ - reduced.start = _
    rw [mapped, reduce_end, reduce_start, starts_streamWorkers, ends_streamWorkers, latest_concat,
      max_eq_right (latest_le_iff.mpr (fun cut member => (inside cut member).2))]
  rw [← one, ← least_starts_iff (fun cut member => (inside cut member).1)
    (fun room => (unbalanced_cutting le room fits).below)]
  show reduced.handleEnd.total = serial.total ↔ _
  rw [parallel, whole, sub_right_inj]

/-- The bounds of merged chunks are exact in every order exactly where no chunk starts at 0 or all
of them do, and the total of an unbalanced run is the serial one exactly where it has one thread
or the trace begins neither at 0 nor at 2^64-1. -/
theorem merged_bounds_exact_iff (contexts : List CpuContext) (some_chunk : contexts ≠ [])
    {set : TraceSet} {threads : Nat} {data serial : CpuContext} (le : set.getBegin ≤ set.getEnd)
    (some_thread : 0 < threads) (fits : threads < 2 ^ 64)
    (printed : CpuAnalysis.doExecuteSerial set = some serial)
    (run : DoExecuteParallelUnbalanced cpuAnalysis set threads data) :
    ((∀ order : List CpuContext, order.Perm contexts → ExactBounds order) ↔
      (∀ ctx ∈ contexts, ctx.start ≠ 0) ∨ ∀ ctx ∈ contexts, ctx.start = 0) ∧
    (data.total = serial.total ↔
      threads = 1 ∨ set.getBegin ≠ 0 ∧ set.getBegin ≠ maxTimestamp) :=
  ⟨exactBounds_perm_iff some_chunk, unbalanced_total_iff le some_thread fits printed run⟩

/-- A kernel trace with these bounds and no events. -/
def quietTrace (getBegin getEnd : Timestamp) : TraceSet :=
  TraceSet.ofEvents [⟨"lttng-kernel", [("sched_switch", 0)]⟩] [] getBegin getEnd .nil
    (by simp) (by simp)

theorem merged_bounds_exact_iff_quiet :
    let chunks : List CpuContext := [{ start := 6, end_ := 10 }, { start := 1, end_ := 5 }]
    let run := (unbalancedWorkers (quietTrace 1 10) 2).map cpuAnalysis.doMap
    ExactBounds chunks ∧
      (run.foldl cpuAnalysis.doReduce cpuAnalysis.initial).handleEnd.total =
        (CpuContext.handleEnd { start := 1, end_ := 10 }).total := by
  intro chunks run
  have serial : CpuAnalysis.doExecuteSerial (quietTrace 1 10) =
      some (CpuContext.handleEnd { start := 1, end_ := 10 }) := rfl
  have both := merged_bounds_exact_iff chunks (by simp [chunks]) (by decide) (by decide : 0 < 2)
    (by decide) serial ⟨_, rfl, rfl⟩
  exact ⟨both.1.mpr (Or.inl (by simp [chunks])) chunks (List.Perm.refl _),
    both.2.mpr (by decide)⟩

/-- A trace that begins at 0: the merged start is that of the second chunk, and the total is too
short. -/
theorem merged_bounds_forget_zero :
    ¬ (∀ contexts : List CpuContext, contexts ≠ [] →
        ∀ order : List CpuContext, order.Perm contexts → ExactBounds order) ∧
      ∃ data, DoExecuteParallelUnbalanced cpuAnalysis (quietTrace 0 10) 2 data ∧
        ∃ serial, CpuAnalysis.doExecuteSerial (quietTrace 0 10) = some serial ∧
          data.total = 4 ∧ serial.total = 10 := by
  constructor
  · intro every
    have exact_ := every [{ start := 0, end_ := 5 }, { start := 6, end_ := 10 }] (by simp) _
      (List.Perm.refl _)
    exact absurd (exact_.start.2 (show (0 : Timestamp) ∈ _ by simp)) (by decide)
  · exact ⟨_, ⟨_, rfl, rfl⟩, _, rfl, by decide, by decide⟩

end LttngParallelAnalyses
