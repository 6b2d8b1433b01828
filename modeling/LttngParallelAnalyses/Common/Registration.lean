import LttngParallelAnalyses.Common.StreamLookup

/-! The concurrent registration of the streams. Every file of the trace folder is a task of its own:
it enters a trace set into the shared table under a mutex, and adds its directory to the set through
the reference that it keeps, after it has given up the mutex. -/

namespace LttngParallelAnalyses
open Lib Tables Function

/-- Where a task stands. The directories are those that `addTrace` has found in the set. -/
inductive Phase where
  | waiting
  | locked
  | emplaced
  | referring
  | adding (directories : List String)
  | finished
  deriving DecidableEq, Repr

/-- A task that holds the mutex. -/
def Phase.Critical : Phase → Prop
  | .locked => True
  | .emplaced => True
  | _ => False

/-- The state that the tasks share, with the phase of each. -/
structure Registration (n : Nat) where
  traceSets : TraceSets := ∅
  mutex : Option (Fin n) := none
  phase : Fin n → Phase := fun _ => .waiting

namespace Registration

/-- `emplace` leaves a set that is already there. -/
def emplace (traceSets : TraceSets) (fileName : String) : TraceSets :=
  if fileName ∈ traceSets then traceSets else AList.insert fileName [] traceSets

variable {n : Nat}

def goto (state : Registration n) (task : Fin n) (phase : Phase) : Registration n :=
  { state with phase := update state.phase task phase }

/-- A step of one task; there is none for a task that has finished or waits for the mutex. The
reference stays that of the set of its own name, whatever is emplaced meanwhile. -/
def step (fileName : Fin n → String) (state : Registration n) (task : Fin n) :
    Option (Registration n) :=
  match state.phase task with
  | .waiting =>
    if fileName task = "metadata" then some (state.goto task .finished)
    else if state.mutex = none then some { state.goto task .locked with mutex := some task }
    else none
  | .locked =>
    some { state.goto task .emplaced with
      traceSets := emplace state.traceSets (fileName task) }
  | .emplaced => some { state.goto task .referring with mutex := none }
  | .referring =>
    some (state.goto task (.adding ((state.traceSets.lookup (fileName task)).getD [])))
  | .adding directories =>
    some { state.goto task .finished with
      traceSets := AList.insert (fileName task)
        (directories ++ [streamDirPath (fileName task)]) state.traceSets }
  | .finished => none

/-- A run of the tasks in the order of a schedule. -/
def run (fileName : Fin n → String) (state : Registration n) :
    List (Fin n) → Option (Registration n)
  | [] => some state
  | task :: rest => (step fileName state task).bind fun next => run fileName next rest

def Finished (state : Registration n) : Prop := ∀ task, state.phase task = .finished

/-! ## The invariant -/

/-- What the table holds for a file whose task stands at a phase. -/
def expected (fileName : String) : Phase → Option (List String)
  | .waiting => none
  | .locked => none
  | .emplaced => some []
  | .referring => some []
  | .adding _ => some []
  | .finished => if fileName = "metadata" then none else some [streamDirPath fileName]

/-- A phase that the metadata never reaches, with nothing found in the set. -/
def Proper (fileName : String) : Phase → Prop
  | .waiting => True
  | .finished => True
  | .adding directories => fileName ≠ "metadata" ∧ directories = []
  | _ => fileName ≠ "metadata"

structure Invariant (fileName : Fin n → String) (state : Registration n) : Prop where
  sets : ∀ task, state.traceSets.lookup (fileName task) = expected (fileName task) (state.phase task)
  proper : ∀ task, Proper (fileName task) (state.phase task)
  others : ∀ name, (∀ task, fileName task ≠ name) → state.traceSets.lookup name = none
  mutex : ∀ task, state.mutex = some task ↔ (state.phase task).Critical

variable {fileName : Fin n → String} {state next : Registration n} {task : Fin n}

theorem invariant_start (fileName : Fin n → String) : Invariant fileName {} where
  sets _ := rfl
  proper _ := trivial
  others _ _ := rfl
  mutex task := by
    constructor
    · intro held
      cases held
    · intro critical
      cases critical

/-- A task that moves on touches no set but its own. -/
theorem Invariant.move (distinct : Injective fileName) (invariant : Invariant fileName state)
    (phase : Phase) {traceSets : TraceSets} {mutex : Option (Fin n)}
    (own : traceSets.lookup (fileName task) = expected (fileName task) phase)
    (apart : ∀ name, name ≠ fileName task → traceSets.lookup name = state.traceSets.lookup name)
    (proper : Proper (fileName task) phase) (held : mutex = some task ↔ phase.Critical)
    (free : ∀ other, other ≠ task → (mutex = some other ↔ state.mutex = some other)) :
    Invariant fileName { traceSets, mutex, phase := update state.phase task phase } where
  sets other := by
    change traceSets.lookup (fileName other) =
      expected (fileName other) (update state.phase task phase other)
    by_cases same : other = task
    · rw [same, update_self]
      exact own
    · rw [update_of_ne same]
      exact (apart _ (fun eq => same (distinct eq))).trans (invariant.sets other)
  proper other := by
    change Proper (fileName other) (update state.phase task phase other)
    by_cases same : other = task
    · rw [same, update_self]
      exact proper
    · rw [update_of_ne same]
      exact invariant.proper other
  others name absent :=
    (apart name (fun eq => absent task eq.symm)).trans (invariant.others name absent)
  mutex other := by
    change mutex = some other ↔ (update state.phase task phase other).Critical
    by_cases same : other = task
    · rw [same, update_self]
      exact held
    · rw [update_of_ne same]
      exact (free other same).trans (invariant.mutex other)

theorem lookup_emplace_of_ne (traceSets : TraceSets) {fileName name : String}
    (apart : name ≠ fileName) : (emplace traceSets fileName).lookup name = traceSets.lookup name := by
  unfold emplace
  split
  · rfl
  · rw [Hash.lookup_insert_if, if_neg (Ne.symm apart)]

theorem lookup_emplace {traceSets : TraceSets} {fileName : String}
    (absent : traceSets.lookup fileName = none) :
    (emplace traceSets fileName).lookup fileName = some [] := by
  have fresh : fileName ∉ traceSets := AList.lookup_eq_none.mp absent
  rw [emplace, if_neg fresh, AList.lookup_insert]

theorem Invariant.step (distinct : Injective fileName) (invariant : Invariant fileName state)
    (moved : step fileName state task = some next) : Invariant fileName next := by
  have set := invariant.sets task
  have proper := invariant.proper task
  have mine := invariant.mutex task
  unfold Registration.step at moved
  cases phase : state.phase task with
  | waiting =>
    rw [phase] at set mine
    simp only [phase] at moved
    by_cases metadata : fileName task = "metadata"
    · rw [if_pos metadata, Option.some.injEq] at moved
      rw [← moved]
      have none_added : expected (fileName task) .finished = none := if_pos metadata
      exact invariant.move distinct .finished (set.trans none_added.symm) (fun _ _ => rfl) trivial mine
        (fun _ _ => Iff.rfl)
    · rw [if_neg metadata, Option.ite_none_right_eq_some] at moved
      obtain ⟨unheld, same⟩ := moved
      rw [← Option.some.inj same]
      apply invariant.move distinct .locked set (fun _ _ => rfl) metadata (iff_of_true rfl trivial)
      intro other apart
      rw [unheld, Option.some.injEq]
      exact iff_of_false (Ne.symm apart) (Option.some_ne_none other).symm
  | locked =>
    rw [phase] at set proper mine
    simp only [phase, Option.some.injEq] at moved
    rw [← moved]
    exact invariant.move distinct .emplaced (lookup_emplace set)
      (fun _ apart => lookup_emplace_of_ne _ apart) proper mine (fun _ _ => Iff.rfl)
  | emplaced =>
    rw [phase] at set proper mine
    simp only [phase, Option.some.injEq] at moved
    rw [← moved]
    apply invariant.move distinct .referring set (fun _ _ => rfl) proper
      (iff_of_false (Option.some_ne_none task).symm id)
    intro other apart
    rw [mine.mpr trivial, Option.some.injEq]
    exact iff_of_false (Option.some_ne_none other).symm (Ne.symm apart)
  | referring =>
    rw [phase] at set proper mine
    simp only [phase, Option.some.injEq] at moved
    rw [← moved, set]
    exact invariant.move distinct (.adding []) set (fun _ _ => rfl) ⟨proper, rfl⟩ mine
      (fun _ _ => Iff.rfl)
  | adding directories =>
    rw [phase] at set proper mine
    simp only [phase, Option.some.injEq] at moved
    obtain ⟨stream, empty⟩ := proper
    rw [← moved, empty]
    apply invariant.move distinct .finished _ _ trivial mine (fun _ _ => Iff.rfl)
    · rw [AList.lookup_insert, expected, if_neg stream]
      rfl
    · intro name apart
      rw [Hash.lookup_insert_if, if_neg (Ne.symm apart)]
  | finished =>
    simp only [phase] at moved
    cases moved

theorem Invariant.run (distinct : Injective fileName) {schedule : List (Fin n)}
    (invariant : Invariant fileName state)
    (ran : run fileName state schedule = some next) : Invariant fileName next := by
  induction schedule generalizing state with
  | nil =>
    rw [Registration.run, Option.some.injEq] at ran
    rwa [← ran]
  | cons task rest ih =>
    obtain ⟨middle, moved, later⟩ := Option.bind_eq_some_iff.mp ran
    exact ih (invariant.step distinct moved) later

/-! ## Progress -/

/-- The steps that a task has before it, from a phase on. -/
def left : Phase → Nat
  | .waiting => 5
  | .locked => 4
  | .emplaced => 3
  | .referring => 2
  | .adding _ => 1
  | .finished => 0

def remaining (state : Registration n) : Nat := ∑ task, left (state.phase task)

theorem step_phase (moved : step fileName state task = some next) :
    ∃ phase, next.phase = update state.phase task phase ∧ left phase < left (state.phase task) := by
  unfold Registration.step at moved
  cases phase : state.phase task with
  | waiting =>
    simp only [phase] at moved
    split at moved
    · exact ⟨.finished, by rw [← Option.some.inj moved]; rfl, by decide⟩
    · rw [Option.ite_none_right_eq_some] at moved
      exact ⟨.locked, by rw [← Option.some.inj moved.2]; rfl, by decide⟩
  | locked =>
    simp only [phase] at moved
    exact ⟨.emplaced, by rw [← Option.some.inj moved]; rfl, by decide⟩
  | emplaced =>
    simp only [phase] at moved
    exact ⟨.referring, by rw [← Option.some.inj moved]; rfl, by decide⟩
  | referring =>
    simp only [phase] at moved
    exact ⟨.adding _, by rw [← Option.some.inj moved]; rfl, Nat.lt_succ_self 1⟩
  | adding directories =>
    simp only [phase] at moved
    exact ⟨.finished, by rw [← Option.some.inj moved]; rfl, Nat.zero_lt_one⟩
  | finished =>
    simp only [phase] at moved
    cases moved

theorem remaining_step (moved : step fileName state task = some next) :
    remaining next < remaining state := by
  obtain ⟨phase, moves, less⟩ := step_phase moved
  unfold remaining
  rw [moves]
  apply Finset.sum_lt_sum
  · intro other _
    by_cases same : other = task
    · rw [same, update_self]
      exact less.le
    · rw [update_of_ne same]
  · exact ⟨task, Finset.mem_univ task, by rwa [update_self]⟩

theorem remaining_run {schedule : List (Fin n)} (ran : run fileName state schedule = some next) :
    schedule.length + remaining next ≤ remaining state := by
  induction schedule generalizing state with
  | nil =>
    rw [Registration.run, Option.some.injEq] at ran
    rw [ran, List.length_nil, Nat.zero_add]
  | cons task rest ih =>
    obtain ⟨middle, moved, later⟩ := Option.bind_eq_some_iff.mp ran
    have less := remaining_step moved
    have after := ih later
    rw [List.length_cons]
    omega

theorem remaining_start : remaining ({} : Registration n) = 5 * n := by
  have start : remaining ({} : Registration n) = ∑ _task : Fin n, 5 := rfl
  rw [start, Finset.sum_const, Finset.card_univ, Fintype.card_fin, smul_eq_mul, Nat.mul_comm]

/-- A task that has not finished can go on, unless it waits for the mutex. -/
theorem exists_next (unfinished : state.phase task ≠ .finished)
    (free : state.phase task = .waiting → state.mutex = none) :
    ∃ next, step fileName state task = some next := by
  unfold Registration.step
  cases phase : state.phase task with
  | waiting =>
    simp only [free phase, if_true]
    split <;> exact ⟨_, rfl⟩
  | locked => exact ⟨_, rfl⟩
  | emplaced => exact ⟨_, rfl⟩
  | referring => exact ⟨_, rfl⟩
  | adding directories => exact ⟨_, rfl⟩
  | finished => exact absurd phase unfinished

/-- While a task is unfinished some task can go on: the one that holds the mutex, if any. -/
theorem Invariant.exists_step (invariant : Invariant fileName state)
    (unfinished : ¬ state.Finished) :
    ∃ task next, Registration.step fileName state task = some next := by
  cases held : state.mutex with
  | none =>
    obtain ⟨task, late⟩ := not_forall.mp unfinished
    exact ⟨task, exists_next late (fun _ => held)⟩
  | some holder =>
    have critical := (invariant.mutex holder).mp held
    refine ⟨holder, exists_next ?_ ?_⟩
    · intro finished
      rw [finished] at critical
      exact critical
    · intro waiting
      rw [waiting] at critical
      exact critical.elim

/-- Every run can be carried on until all tasks have finished. -/
theorem Invariant.exists_finished (distinct : Injective fileName)
    (invariant : Invariant fileName state) :
    ∃ schedule final, Registration.run fileName state schedule = some final ∧
      Finished final := by
  generalize measure : remaining state = size
  induction size using Nat.strong_induction_on generalizing state with
  | _ size ih =>
    by_cases finished : state.Finished
    · exact ⟨[], state, rfl, finished⟩
    · obtain ⟨task, next, moved⟩ := invariant.exists_step finished
      have less : remaining next < size := measure ▸ remaining_step moved
      obtain ⟨schedule, final, ran, done⟩ := ih _ less (invariant.step distinct moved) rfl
      exact ⟨task :: schedule, final, by rw [Registration.run, moved]; exact ran, done⟩

/-! ## What is registered -/

theorem Invariant.lookup_of_finished (distinct : Injective fileName)
    (invariant : Invariant fileName state) (finished : state.Finished) (name : String) :
    state.traceSets.lookup name = (registerTraces (List.ofFn fileName)).lookup name := by
  rw [lookup_registerTraces (List.nodup_ofFn.mpr distinct)]
  by_cases listed : name ∈ List.ofFn fileName
  · obtain ⟨task, rfl⟩ := List.mem_ofFn.mp listed
    rw [invariant.sets task, finished task, expected]
    by_cases metadata : fileName task = "metadata"
    · rw [if_pos metadata, if_neg (fun both => both.2 metadata)]
    · rw [if_neg metadata, if_pos ⟨listed, metadata⟩]
  · rw [if_neg (fun both => listed both.1)]
    exact invariant.others name (fun task own => listed (List.mem_ofFn.mpr ⟨task, own⟩))

/-- In every run of the tasks at most one holds the mutex, and none is stuck: while a task is
unfinished some task can go on, and no run has more than five steps for each file. When all have
finished, the table is the one that registering file after file gives. -/
theorem registration_safe (distinct : Injective fileName) {schedule : List (Fin n)}
    (ran : run fileName {} schedule = some state) :
    (∀ task task', (state.phase task).Critical → (state.phase task').Critical → task = task') ∧
    schedule.length ≤ 5 * n ∧
    (state.Finished ∨ ∃ task next, step fileName state task = some next) ∧
    (state.Finished → ∀ name,
      state.traceSets.lookup name = (registerTraces (List.ofFn fileName)).lookup name) := by
  have invariant := (invariant_start fileName).run distinct ran
  refine ⟨?_, ?_, ?_, ?_⟩
  · intro task task' critical critical'
    have held := (invariant.mutex task).mpr critical
    have held' := (invariant.mutex task').mpr critical'
    exact Option.some.inj (held.symm.trans held')
  · have bound := remaining_run ran
    rw [remaining_start] at bound
    omega
  · by_cases finished : state.Finished
    · exact Or.inl finished
    · exact Or.inr (invariant.exists_step finished)
  · exact fun finished => invariant.lookup_of_finished distinct finished

/-- Two streams, of which one adds its directory while the other one is emplaced. -/
def twoStreams : Fin 2 → String := !["channel0_0", "channel0_1"]

def twoStreams.schedule : List (Fin 2) := [0, 0, 0, 1, 0, 1, 1, 0, 1, 1]

theorem registration_safe_twoStreams : ∃ state, run twoStreams {} twoStreams.schedule = some state ∧
    ∀ name, state.traceSets.lookup name = (registerTraces (List.ofFn twoStreams)).lookup name := by
  have distinct : Injective twoStreams := by decide
  have finishes : ∀ task, (run twoStreams {} twoStreams.schedule).map (·.phase task) =
      some .finished := by decide
  cases ran : run twoStreams {} twoStreams.schedule with
  | none =>
    rw [ran] at finishes
    cases finishes 0
  | some state =>
    rw [ran] at finishes
    exact ⟨state, rfl, (registration_safe distinct ran).2.2.2
      (fun task => Option.some.inj (finishes task))⟩

end Registration

/-! ## Runs over a folder -/

theorem parseIndices_congr (library : TraceLibrary) {traceSets traceSets' : TraceSets}
    (same : ∀ name, traceSets.lookup name = traceSets'.lookup name) (files : List Stream)
    (parsed : Parsed) :
    parseIndices library traceSets parsed files = parseIndices library traceSets' parsed files := by
  induction files generalizing parsed with
  | nil => rfl
  | cons file rest ih =>
    have head : parseIndex library traceSets parsed file =
        parseIndex library traceSets' parsed file := by
      rw [parseIndex, same, ← parseIndex]
    rw [parseIndices, parseIndices, head]
    exact congrArg _ (funext ih)

/-- The data that a balanced parallel run may print whose streams are registered by tasks. -/
def TraceFolder.DoExecuteParallelBalancedByTasks (folder : TraceFolder) (library : TraceLibrary)
    {R : Type} (analysis : TraceAnalysis R) (data : R) : Prop :=
  ∃ (fileList : List String) (schedule : List (Fin fileList.length))
    (state : Registration fileList.length) (indexFiles : List Stream) (parsed : Parsed)
    (order : List TraceWorker) (reduced : R),
    fileList.Perm (entryInfoList id folder.fileNames) ∧
    Registration.run fileList.get {} schedule = some state ∧ state.Finished ∧
    indexFiles.Perm (entryInfoList Stream.indexName folder.streams) ∧
    parseIndices library state.traceSets {} indexFiles = some parsed ∧
    SortedByBegin parsed.workers order ∧
    MappedReduced order analysis.doMap analysis.doReduce analysis.initial analysis.reduceOptions
      reduced ∧
    data = analysis.doEnd reduced

/-- The tasks may be taken to register the files one after another: what a run may print does not
depend on how they interleave. -/
theorem TraceFolder.byTasks_iff (folder : TraceFolder) (library : TraceLibrary) {R : Type}
    (analysis : TraceAnalysis R) (data : R) :
    folder.DoExecuteParallelBalancedByTasks library analysis data ↔
      folder.DoExecuteParallelBalanced library analysis data := by
  have nodup : ∀ fileList : List String, fileList.Perm (entryInfoList id folder.fileNames) →
      Function.Injective fileList.get := fun fileList listed =>
    List.nodup_iff_injective_get.mp (listed.nodup_iff.mpr (folder.nodup_fileNames.filter _))
  constructor
  · intro ran
    obtain ⟨fileList, schedule, state, indexFiles, parsed, order, reduced, listed, registers,
      finished, shown, parses, rest⟩ := ran
    have distinct := nodup fileList listed
    have invariant := (Registration.invariant_start fileList.get).run distinct registers
    have same := invariant.lookup_of_finished distinct finished
    rw [List.ofFn_get] at same
    rw [parseIndices_congr library same] at parses
    exact ⟨fileList, indexFiles, parsed, order, reduced, listed, shown, parses, rest⟩
  · intro ran
    obtain ⟨fileList, indexFiles, parsed, order, reduced, listed, shown, parses, rest⟩ := ran
    have distinct := nodup fileList listed
    have start := Registration.invariant_start fileList.get
    obtain ⟨schedule, state, registers, finished⟩ := start.exists_finished distinct
    have invariant := start.run distinct registers
    have same := invariant.lookup_of_finished distinct finished
    rw [List.ofFn_get] at same
    rw [← parseIndices_congr library same] at parses
    exact ⟨fileList, schedule, state, indexFiles, parsed, order, reduced, listed, registers,
      finished, shown, parses, rest⟩

end LttngParallelAnalyses
