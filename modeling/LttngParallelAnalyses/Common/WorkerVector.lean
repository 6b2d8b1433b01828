import LttngParallelAnalyses.Common.WorkerMoves
import LttngParallelAnalyses.Lib.Buffers

/-! The vector of workers of the parallel modes, in memory. Any `emplace_back` may reallocate its
buffer, and the `std::sort` of the balanced mode moves the workers between their places and
temporaries of its own. What the workers read when the map starts is what the modes make of the
trace and of the packets. -/

namespace LttngParallelAnalyses
open Lib Moves Buffers

variable {A : Type}

namespace Memory

/-- The comparator of the sort reads the begin times through the pointers. -/
def beginsBefore (mem : Memory A) (a b : A) : Option Bool := do
  let first ← mem a
  let second ← mem b
  match second.getBeginPos, first.getBeginPos with
  | none, _ => some false
  | some _, none => some true
  | some secondPos, some firstPos =>
    let firstTime ← mem.deref firstPos
    let secondTime ← mem.deref secondPos
    some (firstTime < secondTime)

theorem readPos_of_read {mem : Memory A} {place : A} {view : WorkerView}
    (reads : mem.read place = some view) :
    ∃ cell, mem place = some cell ∧ mem.readPos cell.getBeginPos = some view.beginPos := by
  obtain ⟨cell, held, reads⟩ := Option.bind_eq_some_iff.mp reads
  obtain ⟨beginPos, begins, reads⟩ := Option.bind_eq_some_iff.mp reads
  obtain ⟨endPos, -, reads⟩ := Option.bind_eq_some_iff.mp reads
  obtain rfl := Option.some.inj reads
  exact ⟨cell, held, begins⟩

/-- Workers that can be read compare as what they read. -/
theorem beginsBefore_of_read {mem : Memory A} {a b : A} {first second : WorkerView}
    (reads : mem.read a = some first) (reads' : mem.read b = some second) :
    mem.beginsBefore a b =
      some (LttngParallelAnalyses.beginsBefore first.toTraceWorker second.toTraceWorker) := by
  obtain ⟨cell, held, pos⟩ := readPos_of_read reads
  obtain ⟨cell', held', pos'⟩ := readPos_of_read reads'
  unfold beginsBefore LttngParallelAnalyses.beginsBefore
  rw [held, held', Option.bind_eq_bind, Option.bind_some, Option.bind_eq_bind, Option.bind_some]
  cases named' : cell'.getBeginPos with
  | none =>
    rw [named', readPos, Option.some.injEq] at pos'
    rw [← pos']
  | some pointer' =>
    rw [named', readPos, Option.map_eq_some_iff] at pos'
    obtain ⟨time', value', pos'⟩ := pos'
    cases named : cell.getBeginPos with
    | none =>
      rw [named, readPos, Option.some.injEq] at pos
      rw [← pos, ← pos']
    | some pointer =>
      rw [named, readPos, Option.map_eq_some_iff] at pos
      obtain ⟨time, value, pos⟩ := pos
      rw [← pos, ← pos']
      simp only [value, value', Option.bind_some]

end Memory

/-- The vector: its memory and the places of its workers. -/
structure WorkerVector (A : Type) where
  mem : Memory A
  places : List A

/-! ## Arguments of the workers -/

/-- What the loop over the threads emplaces. -/
def unbalancedArguments (verbose : Bool) (set : TraceSet) (threads : Nat) : List Arguments :=
  let positions := unbalancedPositions set.getBegin set.getEnd threads
  (List.range threads).map (fun i =>
    let begin_ := if i = 0 then none else some (positions.getD i 0)
    let end_ := if i = threads - 1 then none else some (positions.getD (i + 1) 0)
    { id := i, set, begin_, end_, verbose })

/-- What the loop over the positions of a file emplaces. -/
def streamArguments (verbose : Bool) (trace : TraceSet) (positions : List Timestamp) :
    List Arguments :=
  (List.range (positions.length + 1)).map (fun i =>
    let begin_ := if i = 0 then none else some (positions.getD (i - 1) 0)
    let end_ := if i = positions.length then none else some (positions.getD i 0)
    { id := i, set := trace, begin_, end_, verbose })

def fileArguments (verbose : Bool) (file : StreamFile) : Option (List Arguments) :=
  (balancedPositions file.indices).map (streamArguments verbose file.trace)

def balancedArguments (verbose : Bool) (files : List StreamFile) : Option (List Arguments) :=
  (files.mapM (fileArguments verbose)).map List.flatten

/-- The worker that is constructed from its arguments. -/
def Arguments.worker (arguments : Arguments) : TraceWorker := arguments.view.toTraceWorker

theorem unbalancedArguments_workers (verbose : Bool) (set : TraceSet) (threads : Nat) :
    (unbalancedArguments verbose set threads).map Arguments.worker =
      unbalancedWorkers set threads := List.map_map

theorem fileArguments_workers (verbose : Bool) (file : StreamFile) :
    (fileArguments verbose file).map (List.map Arguments.worker) = fileWorkers file := by
  unfold fileArguments fileWorkers
  rw [Option.map_map]
  congr 1
  funext positions
  exact List.map_map

theorem balancedArguments_workers (verbose : Bool) (files : List StreamFile) :
    (balancedArguments verbose files).map (List.map Arguments.worker) = balancedWorkers files := by
  unfold balancedArguments balancedWorkers
  induction files with
  | nil => rfl
  | cons file rest ih =>
    rw [List.mapM_cons, List.mapM_cons, ← fileArguments_workers verbose file]
    cases fileArguments verbose file with
    | none => rfl
    | some first =>
      cases arguments : rest.mapM (fileArguments verbose) with
      | none =>
        rw [arguments] at ih
        cases workers : rest.mapM fileWorkers with
        | none => rfl
        | some lists => simp [workers] at ih
      | some lists =>
        rw [arguments] at ih
        cases workers : rest.mapM fileWorkers with
        | none => simp [workers] at ih
        | some lists' =>
          rw [workers] at ih
          have flat : lists.flatten.map Arguments.worker = lists'.flatten := Option.some.inj ih
          simp [← flat]

namespace WorkerVector
variable [DecidableEq A]

def empty : WorkerVector A where
  mem := Memory.empty
  places := []

def emplaceBack (vector : WorkerVector A) (growth : Growth A) (arguments : Arguments) :
    Option (WorkerVector A) :=
  (vector.mem.run (growth.ops vector.places arguments)).map
    (fun mem => { mem, places := growth.places vector.places })

def emplaceAll (vector : WorkerVector A) : List (Growth A × Arguments) → Option (WorkerVector A)
  | [] => some vector
  | (growth, arguments) :: rest =>
    (vector.emplaceBack growth arguments).bind (fun next => next.emplaceAll rest)

/-- The allocator gives places that are free, for every buffer. -/
def Allocated (places : List A) : List (Growth A) → Prop
  | [] => True
  | growth :: rest => growth.Fresh places ∧ Allocated (growth.places places) rest

/-- What `std::sort` does: moves after which the places hold the workers that were there and the
temporaries are gone, without an inversion of the comparator. -/
structure Sorts (vector : WorkerVector A) (moves : List (Op A Arguments)) (final : Memory A) :
    Prop where
  ran : vector.mem.run moves = some final
  filled : ∀ place ∈ vector.places, ∃ from_ ∈ vector.places, origin moves place = some from_
  cleared : ∀ place ∉ vector.places, final place = none
  sorted : vector.places.Pairwise (fun a b => final.beginsBefore b a = some false)

/-- The vector holds workers that read these values, and there is no other worker. -/
structure Holds (vector : WorkerVector A) (views : List WorkerView) : Prop where
  owned : vector.mem.Owned
  fills : Fills vector.mem.read vector.places views

omit [DecidableEq A] in
theorem holds_empty : (empty : WorkerVector A).Holds [] where
  owned := Memory.owned_empty
  fills := fills_nil

theorem Holds.run {vector : WorkerVector A} {views : List WorkerView} (holds : vector.Holds views)
    {ops : List (Op A Arguments)} {store : A → Option WorkerView}
    (ran : Moves.run WorkerView.cleared vector.mem.read (ops.map (Op.map Arguments.view)) =
      some store) : ∃ mem, vector.mem.run ops = some mem ∧ mem.Owned ∧ mem.read = store := by
  have related := Memory.run_refines holds.owned ops
  rw [ran] at related
  generalize vector.mem.run ops = result at related ⊢
  cases related with
  | some refines => exact ⟨_, rfl, refines⟩

theorem Holds.emplaceBack {vector : WorkerVector A} {views : List WorkerView}
    (holds : vector.Holds views) {growth : Growth A} (fresh : growth.Fresh vector.places)
    (arguments : Arguments) : ∃ next, vector.emplaceBack growth arguments = some next ∧
      next.places = growth.places vector.places ∧ next.Holds (views ++ [arguments.view]) := by
  obtain ⟨store, ran, fills⟩ := holds.fills.push WorkerView.cleared arguments.view fresh
  rw [← Growth.ops_map] at ran
  obtain ⟨mem, done, owned, rfl⟩ := holds.run ran
  refine ⟨{ mem, places := growth.places vector.places }, ?_, rfl, owned, fills⟩
  rw [WorkerVector.emplaceBack, done]
  rfl

/-- However the buffer grows, the vector holds what was emplaced. -/
theorem Holds.emplaceAll {vector : WorkerVector A} {views : List WorkerView}
    (holds : vector.Holds views) {growths : List (Growth A)} {arguments : List Arguments}
    (count : growths.length = arguments.length) (allocated : Allocated vector.places growths) :
    ∃ next, vector.emplaceAll (growths.zip arguments) = some next ∧
      next.Holds (views ++ arguments.map Arguments.view) := by
  induction growths generalizing vector views arguments with
  | nil =>
    obtain rfl := List.length_eq_zero_iff.mp count.symm
    exact ⟨vector, rfl, by simpa using holds⟩
  | cons growth growths ih =>
    cases arguments with
    | nil => cases count
    | cons first arguments =>
      obtain ⟨next, emplaced, places, holds⟩ := holds.emplaceBack allocated.1 first
      obtain ⟨last, rest, holds⟩ := ih holds (Nat.succ.inj count) (by rw [places]; exact allocated.2)
      refine ⟨last, ?_, ?_⟩
      · rw [List.zip_cons_cons, WorkerVector.emplaceAll, emplaced, Option.bind_some, rest]
      · rw [List.map_cons, List.append_cons]
        exact holds

/-- A sorted vector holds the same workers, in an order without inversions. -/
theorem Holds.sort {vector : WorkerVector A} {views : List WorkerView} (holds : vector.Holds views)
    {moves : List (Op A Arguments)} {final : Memory A} (sorts : vector.Sorts moves final) :
    ∃ order : List WorkerView,
      ({ vector with mem := final } : WorkerVector A).Holds order ∧
      SortedByBegin (views.map WorkerView.toTraceWorker)
        (order.map WorkerView.toTraceWorker) := by
  have owned : final.Owned := (Memory.run_eq_some holds.owned sorts.ran).1
  have perm := Memory.read_perm holds.owned sorts.ran holds.fills.distinct rfl sorts.filled
  obtain ⟨order, reads⟩ : ∃ order : List WorkerView,
      vector.places.map final.read = order.map some := by
    have each : vector.places.map final.read ∈ Set.range (List.map (some : WorkerView → _)) := by
      rw [Set.range_list_map]
      intro read member
      rw [perm.mem_iff, holds.fills.held] at member
      obtain ⟨view, -, same⟩ := List.mem_map.mp member
      exact ⟨view, same⟩
    obtain ⟨order, same⟩ := each
    exact ⟨order, same.symm⟩
  refine ⟨order, ⟨owned, holds.fills.distinct, reads, ?_⟩, ?_⟩
  · intro place outside
    change final.read place = none
    rw [owned.read_eq, sorts.cleared place outside]
    rfl
  · apply Memory.sortedByBegin_of_moves holds.owned sorts.ran holds.fills.distinct sorts.filled
      holds.fills.held reads
    -- the comparator has the same answers on the places and on what is read there
    have ordered : (vector.places.map final.read).Pairwise (fun x y => ∀ a ∈ x, ∀ b ∈ y,
        beginsBefore b.toTraceWorker a.toTraceWorker = false) := by
      rw [List.pairwise_map]
      refine sorts.sorted.imp fun {p q} before a read b read' => ?_
      rw [Memory.beginsBefore_of_read read' read, Option.some.injEq] at before
      exact before
    rw [reads, List.pairwise_map] at ordered
    exact ordered.imp fun {a b} before => before a rfl b rfl

/-- The destructor of the vector destroys every worker. -/
theorem Holds.destroy {vector : WorkerVector A} {views : List WorkerView}
    (holds : vector.Holds views) :
    vector.mem.run (vector.places.map .destroy) = some Memory.empty := by
  have ran := holds.fills.destroy WorkerView.cleared
  have same : (vector.places.map .destroy : List (Op A Arguments)).map (Op.map Arguments.view) =
      vector.places.map .destroy := by
    rw [List.map_map]
    rfl
  rw [← same] at ran
  obtain ⟨mem, done, owned, gone⟩ := holds.run ran
  rw [done]
  congr 1
  funext place
  have none := congrFun gone place
  rw [owned.read_eq, Option.map_eq_none_iff] at none
  exact none

end WorkerVector

/-- The workers in memory do what they do on lists. The vector is built whatever buffers its growth
takes. The workers can be read, after any sort too, and reducing what they read gives a result of
the mode that emplaced them. No worker is left once the vector is destroyed. -/
theorem worker_vector_refines [DecidableEq A] {growths : List (Growth A)}
    {arguments : List Arguments} (count : growths.length = arguments.length)
    (allocated : WorkerVector.Allocated [] growths) :
    ∃ vector, WorkerVector.empty.emplaceAll (growths.zip arguments) = some vector ∧
      (∃ views : List WorkerView, vector.places.map vector.mem.read = views.map some ∧
        ∀ verbose set threads, arguments = unbalancedArguments verbose set threads →
        ∀ (R : Type) (analysis : TraceAnalysis R) (reduced : R),
          MappedReduced (views.map WorkerView.toTraceWorker) analysis.doMap analysis.doReduce
            analysis.initial analysis.reduceOptions reduced →
          DoExecuteParallelUnbalanced analysis set threads (analysis.doEnd reduced)) ∧
      vector.mem.run (vector.places.map .destroy) = some Memory.empty ∧
      ∀ moves final, vector.Sorts moves final →
        (∃ views : List WorkerView, vector.places.map final.read = views.map some ∧
          ∀ verbose files, balancedArguments verbose files = some arguments →
          ∀ (R : Type) (analysis : TraceAnalysis R) (reduced : R),
            MappedReduced (views.map WorkerView.toTraceWorker) analysis.doMap analysis.doReduce
              analysis.initial analysis.reduceOptions reduced →
            DoExecuteParallelBalanced analysis files (analysis.doEnd reduced)) ∧
        final.run (vector.places.map .destroy) = some Memory.empty := by
  obtain ⟨vector, emplaced, holds⟩ := WorkerVector.holds_empty.emplaceAll count allocated
  rw [List.nil_append] at holds
  refine ⟨vector, emplaced, ⟨_, holds.fills.held, ?_⟩, holds.destroy, fun moves final sorts => ?_⟩
  · intro verbose set threads listed R analysis reduced mapped
    have workers := unbalancedArguments_workers verbose set threads
    rw [← listed] at workers
    rw [List.map_map] at mapped
    exact ⟨reduced, workers ▸ mapped, rfl⟩
  · obtain ⟨order, sorted, perm⟩ := holds.sort sorts
    refine ⟨⟨order, sorted.fills.held, ?_⟩, sorted.destroy⟩
    intro verbose files listed R analysis reduced mapped
    have workers := balancedArguments_workers verbose files
    rw [listed, Option.map_some] at workers
    rw [List.map_map] at perm
    exact ⟨_, workers.symm, _, perm, reduced, mapped, rfl⟩

/-- A stream of two packets, which is cut between them. -/
def twoPackets : StreamFile where
  trace := TraceSet.ofEvents [] [{ timestamp := 12 }, { timestamp := 18 }] 10 20 (by decide)
    (by decide) (by decide)
  indices := [15, 20].map (fun timestampEnd =>
    { offset := 0, dataOffset := 0, packetSize := 8, contentSize := 8, eventsDiscarded := 0,
      eventsDiscardedLen := 0, tsCycles := ⟨0, 0⟩, tsReal := ⟨10, timestampEnd⟩ })

def twoArguments : List Arguments :=
  [{ id := 0, set := twoPackets.trace, begin_ := none, end_ := some 15 },
    { id := 1, set := twoPackets.trace, begin_ := some 15, end_ := none }]

/-- The second worker has the buffer reallocated. -/
def twoGrowths : List (Growth (Fin 4)) := [.inPlace 0, .reallocate [1] 2]

/-- A sort that takes the second worker out and puts it back. -/
def sortTwo : List (Op (Fin 4) Arguments) := [.moveConstruct 3 2, .moveAssign 2 3, .destroy 3]

theorem worker_vector_refines_twoPackets :
    ∃ vector final, WorkerVector.empty.emplaceAll (twoGrowths.zip twoArguments) = some vector ∧
      vector.mem.run sortTwo = some final ∧
      (∃ views : List WorkerView, vector.places.map final.read = views.map some ∧
        ∀ (R : Type) (analysis : TraceAnalysis R) (reduced : R),
          MappedReduced (views.map WorkerView.toTraceWorker) analysis.doMap analysis.doReduce
            analysis.initial analysis.reduceOptions reduced →
          DoExecuteParallelBalanced analysis [twoPackets] (analysis.doEnd reduced)) ∧
      final.run (vector.places.map .destroy) = some Memory.empty := by
  have allocated : WorkerVector.Allocated [] twoGrowths := by
    refine ⟨⟨by decide, ?_⟩, ⟨by decide, ?_⟩, trivial⟩
    · rintro moved place ⟨⟩
    · rintro moved place ⟨⟩
      decide
  have count : twoGrowths.length = twoArguments.length := rfl
  obtain ⟨vector, emplaced, -, -, after⟩ := worker_vector_refines count allocated
  have built := (rfl : WorkerVector.empty.emplaceAll (twoGrowths.zip twoArguments) = some _)
  obtain rfl := Option.some.inj (emplaced.symm.trans built)
  have sorted := after sortTwo _ ⟨rfl, by decide, ?_, ?_⟩
  · obtain ⟨⟨views, reads, balanced⟩, destroyed⟩ := sorted
    exact ⟨_, _, built, rfl, ⟨views, reads, balanced false [twoPackets] rfl⟩, destroyed⟩
  · intro place outside
    fin_cases place
    · rfl
    · exact absurd (by decide) outside
    · exact absurd (by decide) outside
    · rfl
  · exact List.pairwise_pair.mpr rfl

end LttngParallelAnalyses
