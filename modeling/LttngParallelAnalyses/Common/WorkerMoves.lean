import LttngParallelAnalyses.Common.TraceAnalysis
import LttngParallelAnalyses.Lib.Moves

/-! The workers as objects in memory. A worker points to its own copies of its bounds, so a move
copies the bounds and points the destination to its own copies. Whatever the moves, a worker
reads its own slots, and the destination of a move reads what the source did. -/

namespace LttngParallelAnalyses
open Lib Moves Function

inductive Side where
  | begin_
  | end_
  deriving DecidableEq, Repr

/-- What a bound pointer names: a value slot of the worker at a place. -/
structure Slot (A : Type) where
  place : A
  side : Side
  deriving DecidableEq, Repr

/-- `beginPosVal` and `beginPos`, or `endPosVal` and `endPos`. The value is absent until it is
written, the pointer when it is null. -/
structure Bound (A : Type) where
  posVal : Option Timestamp
  pos : Option (Slot A)

structure Cell (A : Type) where
  id : Nat
  traceSet : TraceSet
  bound : Side → Bound A
  verbose : Bool

abbrev Memory (A : Type) := A → Option (Cell A)

/-- What a worker gives through its accessors. -/
structure WorkerView extends TraceWorker where
  verbose : Bool

structure Arguments where
  id : Nat
  set : TraceSet
  begin_ : Option Timestamp
  end_ : Option Timestamp
  verbose : Bool := false

variable {A : Type}

namespace Cell

def getTraceSet (cell : Cell A) : TraceSet := cell.traceSet

def getBeginPos (cell : Cell A) : Option (Slot A) := (cell.bound .begin_).pos

def getEndPos (cell : Cell A) : Option (Slot A) := (cell.bound .end_).pos

def getVerbose (cell : Cell A) : Bool := cell.verbose

def getId (cell : Cell A) : Nat := cell.id

end Cell

/-- The value is copied, and the pointer names the copy. -/
def Bound.new (self : A) (side : Side) : Option Timestamp → Bound A
  | some value => { posVal := some value, pos := some ⟨self, side⟩ }
  | none => { posVal := none, pos := none }

/-- The constructor, for the worker at `self`. -/
def Cell.new (self : A) (arguments : Arguments) : Cell A where
  id := arguments.id
  traceSet := arguments.set
  bound
    | .begin_ => Bound.new self .begin_ (arguments.begin_.map (· + 1))
    | .end_ => Bound.new self .end_ arguments.end_
  verbose := arguments.verbose

/-- The pointers become null; the values stay. -/
def Cell.release (cell : Cell A) : Cell A :=
  { cell with bound := fun side => { (cell.bound side) with pos := none } }

namespace Memory

/-- The value that a pointer names, if its worker exists and the slot was written. -/
def deref (mem : Memory A) (pointer : Slot A) : Option Timestamp :=
  (mem pointer.place).bind fun cell => (cell.bound pointer.side).posVal

/-- A null pointer is no bound. -/
def readPos (mem : Memory A) : Option (Slot A) → Option (Option Timestamp)
  | none => some none
  | some pointer => (mem.deref pointer).map some

def read (mem : Memory A) (place : A) : Option WorkerView := do
  let cell ← mem place
  let beginPos ← mem.readPos cell.getBeginPos
  let endPos ← mem.readPos cell.getEndPos
  some {
    id := cell.getId
    traceSet := cell.getTraceSet
    beginPos
    endPos
    verbose := cell.getVerbose }

variable [DecidableEq A]

def setBound (mem : Memory A) (self : A) (cell : Cell A) (side : Side) (bound : Bound A) :
    Memory A :=
  update mem self (some { cell with bound := update cell.bound side bound })

/-- One of the two conditionals of a move: the value behind the other's pointer is copied and
the copy pointed to, or the own pointer becomes null. -/
def takeBound (mem : Memory A) (self other : A) (side : Side) : Option (Memory A) := do
  let otherCell ← mem other
  let cell ← mem self
  match (otherCell.bound side).pos with
  | some pointer =>
    let value ← mem.deref pointer
    some (mem.setBound self cell side { posVal := some value, pos := some ⟨self, side⟩ })
  | none => some (mem.setBound self cell side { (cell.bound side) with pos := none })

def takeBounds (mem : Memory A) (self other : A) : Option (Memory A) := do
  let mem ← mem.takeBound self other .begin_
  let mem ← mem.takeBound self other .end_
  let otherCell ← mem other
  some (update mem other (some otherCell.release))

/-- The values of the new worker are not initialised before its pointers are copied. -/
def moveConstruct (mem : Memory A) (self other : A) : Option (Memory A) :=
  -- no object is constructed from itself
  if self = other then none
  else do
    let otherCell ← mem other
    let cell := { otherCell with
      bound := fun side => { (otherCell.bound side) with posVal := none } }
    takeBounds (update mem self (some cell)) self other

def moveAssign (mem : Memory A) (self other : A) : Option (Memory A) := do
  let cell ← mem self
  let otherCell ← mem other
  if self = other then some mem
  else
    let cell := { cell with
      id := otherCell.id, traceSet := otherCell.traceSet, verbose := otherCell.verbose }
    takeBounds (update mem self (some cell)) self other

def step (mem : Memory A) : Op A Arguments → Option (Memory A)
  | .construct place arguments => some (update mem place (some (Cell.new place arguments)))
  | .moveConstruct dst src => mem.moveConstruct dst src
  | .moveAssign dst src => mem.moveAssign dst src
  | .destroy place => (mem place).map fun _ => update mem place none

def run (mem : Memory A) : List (Op A Arguments) → Option (Memory A)
  | [] => some mem
  | op :: ops => (mem.step op).bind fun next => run next ops

end Memory

/-- No worker exists. -/
def Memory.empty : Memory A := fun _ => none

/-! ## Own slots -/

/-- The non-null pointers of the cell at a place name its own slots, which are written. -/
def Cell.Owns (place : A) (cell : Cell A) : Prop :=
  ∀ side pointer, (cell.bound side).pos = some pointer →
    pointer = ⟨place, side⟩ ∧ (cell.bound side).posVal.isSome

def Memory.Owned (mem : Memory A) : Prop :=
  ∀ place cell, mem place = some cell → cell.Owns place

/-- The bound of a cell that owns its slots. -/
def Bound.value (bound : Bound A) : Option Timestamp := bound.pos.bind fun _ => bound.posVal

def Cell.view (cell : Cell A) : WorkerView where
  id := cell.id
  traceSet := cell.traceSet
  beginPos := (cell.bound .begin_).value
  endPos := (cell.bound .end_).value
  verbose := cell.verbose

/-- What is left of a worker that was moved from: it has no bounds. -/
def WorkerView.cleared (view : WorkerView) : WorkerView :=
  { view with beginPos := none, endPos := none }

/-- What a new worker reads. -/
def Arguments.view (arguments : Arguments) : WorkerView :=
  { TraceWorker.new arguments.id arguments.set arguments.begin_ arguments.end_ with
    verbose := arguments.verbose }

namespace Cell

theorem owns_new (place : A) (arguments : Arguments) : (Cell.new place arguments).Owns place := by
  have own : ∀ side value pointer, (Bound.new place side value).pos = some pointer →
      pointer = ⟨place, side⟩ ∧ (Bound.new place side value).posVal.isSome := by
    intro side value pointer named
    cases value with
    | none => cases named
    | some value => exact ⟨(Option.some.inj named).symm, rfl⟩
  intro side pointer named
  cases side with
  | begin_ => exact own .begin_ _ pointer named
  | end_ => exact own .end_ _ pointer named

theorem view_new (place : A) (arguments : Arguments) :
    (Cell.new place arguments).view = arguments.view := by
  have value : ∀ (side : Side) value, (Bound.new place side value).value = value := by
    intro side value
    cases value with
    | none => rfl
    | some value => rfl
  simp only [view, new, value, Arguments.view, TraceWorker.new]

theorem owns_release (place : A) (cell : Cell A) : cell.release.Owns place := by
  intro side pointer named
  cases named

end Cell

namespace Memory

theorem owned_empty : (Memory.empty (A := A)).Owned := by
  intro place cell held
  cases held

theorem deref_own {mem : Memory A} {place : A} {cell : Cell A} (held : mem place = some cell)
    (side : Side) : mem.deref ⟨place, side⟩ = (cell.bound side).posVal := by
  rw [deref, held]
  rfl

theorem readPos_own {mem : Memory A} {place : A} {cell : Cell A} (held : mem place = some cell)
    (owns : cell.Owns place) (side : Side) :
    mem.readPos (cell.bound side).pos = some (cell.bound side).value := by
  cases named : (cell.bound side).pos with
  | none => rw [Bound.value, named]; rfl
  | some pointer =>
    obtain ⟨rfl, written⟩ := owns side pointer named
    obtain ⟨value, valued⟩ := Option.isSome_iff_exists.mp written
    rw [readPos, deref_own held, Bound.value, named, valued]
    rfl

/-- With own slots, what a worker reads is in its own cell. -/
theorem Owned.read_eq {mem : Memory A} (owned : mem.Owned) (place : A) :
    mem.read place = (mem place).map Cell.view := by
  cases held : mem place with
  | none => rw [read, held]; rfl
  | some cell =>
    have begins := readPos_own held (owned place cell held) .begin_
    have ends := readPos_own held (owned place cell held) .end_
    rw [read, held]
    simp only [Option.bind_eq_bind, Option.bind_some, Cell.getBeginPos, Cell.getEndPos, begins, ends]
    rfl

variable [DecidableEq A]

/-- Every worker has its own slots, and the workers read so. -/
def Refines (mem : Memory A) (views : A → Option WorkerView) : Prop :=
  Owned mem ∧ read mem = views

/-- A place gets a cell that owns its slots, or none. -/
theorem refines_update {mem : Memory A} {views : A → Option WorkerView} (refines : Refines mem views)
    {place : A} {cell? : Option (Cell A)} (owns : ∀ cell ∈ cell?, cell.Owns place) :
    Refines (update mem place cell?) (update views place (cell?.map Cell.view)) := by
  have owned : Owned (update mem place cell?) := by
    intro other found held
    by_cases same : other = place
    · subst same
      rw [update_self] at held
      exact owns found held
    · rw [update_of_ne same] at held
      exact refines.1 other found held
  refine ⟨owned, ?_⟩
  funext other
  rw [owned.read_eq, ← refines.2]
  by_cases same : other = place
  · rw [same, update_self, update_self]
  · rw [update_of_ne same, update_of_ne same, refines.1.read_eq]

theorem refines_update_some {mem : Memory A} {views : A → Option WorkerView}
    (refines : Refines mem views) {place : A} {cell : Cell A} (owns : cell.Owns place) :
    Refines (update mem place (some cell)) (update views place (some cell.view)) :=
  refines_update refines (fun _ same => Option.some.inj same ▸ owns)

end Memory

/-! ## Moves -/

/-- A bound of the destination after a move from a cell that owns its slots. -/
def Bound.adopt (self : A) (side : Side) (own other : Bound A) : Bound A :=
  match other.pos with
  | some _ => { posVal := other.posVal, pos := some ⟨self, side⟩ }
  | none => { own with pos := none }

def Cell.adoptBound (self : A) (cell other : Cell A) (side : Side) : Cell A :=
  let bound := Bound.adopt self side (cell.bound side) (other.bound side)
  { cell with bound := update cell.bound side bound }

def Cell.adopt (self : A) (cell other : Cell A) : Cell A :=
  { cell with bound := fun side => Bound.adopt self side (cell.bound side) (other.bound side) }

theorem Cell.adoptBound_twice (self : A) (cell other : Cell A) :
    (cell.adoptBound self other .begin_).adoptBound self other .end_ = cell.adopt self other := by
  rw [adopt, adoptBound]
  congr 1
  funext side
  cases side with
  | begin_ => rfl
  | end_ => rfl

theorem Bound.value_adopt (self : A) (side : Side) (own other : Bound A) :
    (Bound.adopt self side own other).value = other.value := by
  cases named : other.pos with
  | none => rw [adopt, Bound.value, Bound.value, named]; rfl
  | some pointer => rw [adopt, Bound.value, Bound.value, named]; rfl

theorem Cell.owns_adopt {self place : A} {cell other : Cell A} (owns : other.Owns place) :
    (Cell.adopt self cell other).Owns self := by
  intro side pointer named
  cases source : (other.bound side).pos with
  | none =>
    simp only [adopt, Bound.adopt, source] at named
    cases named
  | some slot =>
    simp only [adopt, Bound.adopt, source] at named ⊢
    exact ⟨(Option.some.inj named).symm, (owns side slot source).2⟩

theorem Cell.view_adopt (self : A) (cell other : Cell A) :
    (Cell.adopt self cell other).view =
      { other.view with
        id := cell.id, traceSet := cell.traceSet, verbose := cell.verbose } := by
  simp only [adopt, view, Bound.value_adopt]

namespace Memory
variable [DecidableEq A]

theorem takeBound_eq {mem : Memory A} {self other : A} (apart : self ≠ other)
    {otherCell : Cell A} (held : mem other = some otherCell) (owns : otherCell.Owns other)
    (cell : Cell A) (side : Side) :
    takeBound (update mem self (some cell)) self other side =
      some (update mem self (some (cell.adoptBound self otherCell side))) := by
  have source : update mem self (some cell) other = some otherCell := by
    rw [update_of_ne apart.symm, held]
  cases named : (otherCell.bound side).pos with
  | none =>
    rw [takeBound, source, update_self]
    simp only [Option.bind_eq_bind, Option.bind_some, named, setBound, update_idem]
    rw [Cell.adoptBound, Bound.adopt, named]
  | some pointer =>
    obtain ⟨rfl, written⟩ := owns side pointer named
    obtain ⟨value, valued⟩ := Option.isSome_iff_exists.mp written
    rw [takeBound, source, update_self]
    simp only [Option.bind_eq_bind, Option.bind_some, named, deref_own source, valued, setBound,
      update_idem]
    rw [Cell.adoptBound, Bound.adopt, named, valued]

/-- Both bounds are read from the source's own slots, which the destination does not write. -/
theorem takeBounds_eq {mem : Memory A} {self other : A} (apart : self ≠ other)
    {otherCell : Cell A} (held : mem other = some otherCell) (owns : otherCell.Owns other)
    (cell : Cell A) :
    takeBounds (update mem self (some cell)) self other =
      some (update (update mem self (some (cell.adopt self otherCell))) other
        (some otherCell.release)) := by
  rw [takeBounds, takeBound_eq apart held owns, Option.bind_eq_bind, Option.bind_some,
    takeBound_eq apart held owns, Option.bind_eq_bind, Option.bind_some, Cell.adoptBound_twice,
    update_of_ne apart.symm, held]
  rfl

/-- A move from a cell that owns its slots, once the rest of the destination is a copy. -/
theorem takeBounds_spec {mem : Memory A} (owned : Owned mem) {self other : A}
    (apart : self ≠ other) {otherCell cell : Cell A} (held : mem other = some otherCell)
    (sameId : cell.id = otherCell.id) (sameSet : cell.traceSet = otherCell.traceSet)
    (sameVerbose : cell.verbose = otherCell.verbose) :
    ∃ next, takeBounds (update mem self (some cell)) self other = some next ∧
      Refines next (transfer WorkerView.cleared (read mem) self other otherCell.view) := by
  have owns := owned other otherCell held
  have adopted : (cell.adopt self otherCell).view = otherCell.view := by
    rw [Cell.view_adopt, sameId, sameSet, sameVerbose]
    rfl
  have kept : (cell.adopt self otherCell).Owns self := Cell.owns_adopt owns
  have target := refines_update_some ⟨owned, rfl⟩ kept
  rw [adopted] at target
  refine ⟨_, takeBounds_eq apart held owns cell, ?_⟩
  exact refines_update_some target (Cell.owns_release other otherCell)

theorem moveConstruct_spec {mem : Memory A} (owned : Owned mem) {self other : A}
    (apart : self ≠ other) {otherCell : Cell A} (held : mem other = some otherCell) :
    ∃ next, mem.moveConstruct self other = some next ∧
      Refines next (transfer WorkerView.cleared (read mem) self other otherCell.view) := by
  rw [moveConstruct, if_neg apart, held, Option.bind_eq_bind, Option.bind_some]
  exact takeBounds_spec owned apart held rfl rfl rfl

theorem moveAssign_spec {mem : Memory A} (owned : Owned mem) {self other : A}
    (apart : self ≠ other) {cell otherCell : Cell A} (target : mem self = some cell)
    (held : mem other = some otherCell) :
    ∃ next, mem.moveAssign self other = some next ∧
      Refines next (transfer WorkerView.cleared (read mem) self other otherCell.view) := by
  rw [moveAssign, target, held, Option.bind_eq_bind, Option.bind_some, Option.bind_some,
    if_neg apart]
  exact takeBounds_spec owned apart held rfl rfl rfl

theorem moveAssign_self {mem : Memory A} {place : A} {cell : Cell A}
    (held : mem place = some cell) : mem.moveAssign place place = some mem := by
  rw [moveAssign, held, Option.bind_eq_bind, Option.bind_some, Option.bind_some, if_pos rfl]

/-! ## Runs -/

/-- An operation succeeds in memory where it does on the views, and has the same effect there. -/
theorem step_refines {mem : Memory A} (owned : Owned mem) (op : Op A Arguments) :
    Option.Rel Refines (mem.step op)
      (Moves.step WorkerView.cleared (read mem) (op.map Arguments.view)) := by
  cases op with
  | construct place arguments =>
    have built := refines_update_some ⟨owned, rfl⟩ (Cell.owns_new place arguments)
    rw [Cell.view_new] at built
    exact .some built
  | moveConstruct dst src =>
    rw [Op.map, step]
    by_cases same : dst = src
    · rw [Moves.step, if_pos same, moveConstruct, if_pos same]
      exact .none
    cases held : mem src with
    | none =>
      rw [Moves.step, if_neg same, moveConstruct, if_neg same, owned.read_eq, held]
      exact .none
    | some cell =>
      obtain ⟨next, moved, refines⟩ := moveConstruct_spec owned same held
      rw [moved, step_moveConstruct same (by rw [owned.read_eq, held]; rfl)]
      exact .some refines
  | moveAssign dst src =>
    rw [Op.map, step]
    cases target : mem dst with
    | none =>
      rw [Moves.step, moveAssign, owned.read_eq, target]
      exact .none
    | some old =>
      cases held : mem src with
      | none =>
        rw [Moves.step, moveAssign, owned.read_eq, owned.read_eq, target, held]
        exact .none
      | some cell =>
        rw [step_moveAssign (by rw [owned.read_eq, target]; rfl) (by rw [owned.read_eq, held]; rfl)]
        by_cases same : dst = src
        · subst same
          rw [if_pos rfl, moveAssign_self held]
          exact .some ⟨owned, rfl⟩
        · obtain ⟨next, moved, refines⟩ := moveAssign_spec owned same target held
          rw [moved, if_neg same]
          exact .some refines
  | destroy place =>
    rw [Op.map, step, Moves.step, owned.read_eq]
    cases held : mem place with
    | none => exact .none
    | some cell =>
      refine .some (refines_update ⟨owned, rfl⟩ ?_)
      intro left none
      cases none

theorem run_refines {mem : Memory A} (owned : Owned mem) (ops : List (Op A Arguments)) :
    Option.Rel Refines (mem.run ops)
      (Moves.run WorkerView.cleared (read mem) (ops.map (Op.map Arguments.view))) := by
  induction ops generalizing mem with
  | nil => exact .some ⟨owned, rfl⟩
  | cons op ops ih =>
    rw [List.map_cons, run, Moves.run]
    have related := step_refines owned op
    generalize mem.step op = stepped at related ⊢
    generalize Moves.step WorkerView.cleared (read mem) (op.map Arguments.view) = views at related ⊢
    cases related with
    | none => exact .none
    | some refines =>
      obtain ⟨kept, rfl⟩ := refines
      exact ih kept

theorem run_eq_some {mem final : Memory A} (owned : Owned mem) {ops : List (Op A Arguments)}
    (ran : mem.run ops = some final) : Owned final ∧
      Moves.run WorkerView.cleared (read mem) (ops.map (Op.map Arguments.view)) =
        some (read final) := by
  have related := run_refines owned ops
  rw [ran] at related
  generalize Moves.run WorkerView.cleared (read mem) _ = views at related ⊢
  cases related with
  | some refines =>
    obtain ⟨kept, rfl⟩ := refines
    exact ⟨kept, rfl⟩

theorem read_moved {next : Memory A} {mem : Memory A} {dst src : A} {cell : Cell A}
    (owned : Owned mem) (apart : dst ≠ src) (held : mem src = some cell)
    (refines : Refines next (transfer WorkerView.cleared (read mem) dst src cell.view)) :
    read next dst = read mem src := by
  rw [refines.2, transfer_dst apart, owned.read_eq, held]
  rfl

/-- Moves that fill some places from others keep what is read there, up to order. -/
theorem read_perm {mem final : Memory A} (owned : Owned mem) {moves : List (Op A Arguments)}
    (moved : mem.run moves = some final) {before after : List A} (distinct : after.Nodup)
    (count : after.length = before.length)
    (filled : ∀ place ∈ after, ∃ from_ ∈ before, origin moves place = some from_) :
    (after.map final.read).Perm (before.map mem.read) := by
  refine perm_of_origins (run_eq_some owned moved).2 distinct count ?_
  rw [origin_map]
  exact filled

/-- A sort of an array that moves its workers sorts what they read. -/
theorem sortedByBegin_of_moves {mem final : Memory A} (owned : Owned mem)
    {moves : List (Op A Arguments)} (moved : mem.run moves = some final) {array : List A}
    (distinct : array.Nodup)
    (filled : ∀ place ∈ array, ∃ from_ ∈ array, origin moves place = some from_)
    {workers order : List WorkerView} (before : array.map mem.read = workers.map some)
    (after : array.map final.read = order.map some)
    (sorted : order.Pairwise (fun a b => beginsBefore b.toTraceWorker a.toTraceWorker = false)) :
    SortedByBegin (workers.map (·.toTraceWorker)) (order.map (·.toTraceWorker)) := by
  have perm := read_perm owned moved distinct rfl filled
  rw [before, after, List.map_perm_map_iff (Option.some_injective _)] at perm
  exact ⟨perm.map _, List.pairwise_map.mpr sorted⟩

end Memory

/-- The bounds of the workers survive every sequence of constructions and moves. A non-null
pointer names the worker's own slot. The destination of a move, be it the source itself, reads what
the source did. Moves that fill some places from others keep what is read there, up to order. -/
theorem bounds_survive_moves [DecidableEq A] (ops : List (Op A Arguments)) (mem : Memory A)
    (ran : Memory.empty.run ops = some mem) :
    (∀ place cell, mem place = some cell →
      (∀ pointer, cell.getBeginPos = some pointer → pointer = ⟨place, .begin_⟩) ∧
      (∀ pointer, cell.getEndPos = some pointer → pointer = ⟨place, .end_⟩)) ∧
    (∀ place, (mem place).isSome → (mem.read place).isSome) ∧
    (∀ dst src, (mem src).isSome → dst ≠ src → ∃ next,
      mem.step (.moveConstruct dst src) = some next ∧ next.read dst = mem.read src) ∧
    (∀ dst src, (mem dst).isSome → (mem src).isSome → ∃ next,
      mem.step (.moveAssign dst src) = some next ∧ next.read dst = mem.read src) ∧
    ∀ moves final, mem.run moves = some final → ∀ before after : List A, after.Nodup →
      after.length = before.length →
      (∀ place ∈ after, ∃ from_ ∈ before, origin moves place = some from_) →
      (after.map final.read).Perm (before.map mem.read) := by
  have owned : mem.Owned := (Memory.run_eq_some Memory.owned_empty ran).1
  refine ⟨?_, ?_, ?_, ?_, ?_⟩
  · intro place cell held
    exact ⟨fun pointer named => (owned place cell held .begin_ pointer named).1,
      fun pointer named => (owned place cell held .end_ pointer named).1⟩
  · intro place exists_
    rw [owned.read_eq, Option.isSome_map]
    exact exists_
  · intro dst src exists_ apart
    obtain ⟨cell, held⟩ := Option.isSome_iff_exists.mp exists_
    obtain ⟨next, moved, refines⟩ := Memory.moveConstruct_spec owned apart held
    exact ⟨next, moved, Memory.read_moved owned apart held refines⟩
  · intro dst src target exists_
    obtain ⟨old, target⟩ := Option.isSome_iff_exists.mp target
    obtain ⟨cell, held⟩ := Option.isSome_iff_exists.mp exists_
    by_cases same : dst = src
    · subst same
      exact ⟨mem, Memory.moveAssign_self held, rfl⟩
    · obtain ⟨next, moved, refines⟩ := Memory.moveAssign_spec owned same target held
      exact ⟨next, moved, Memory.read_moved owned same held refines⟩
  · intro moves final moved before after distinct count filled
    exact Memory.read_perm owned moved distinct count filled

/-- The two workers of a trace that is cut at 15. -/
def cutWorkers (set : TraceSet) : List (Op Nat Arguments) :=
  [.construct 0 { id := 0, set, begin_ := none, end_ := some 15 },
    .construct 1 { id := 1, set, begin_ := some 15, end_ := none }]

/-- A swap through a third place. -/
def swapWorkers : List (Op Nat Arguments) :=
  [.moveConstruct 2 0, .moveAssign 0 1, .moveAssign 1 2, .moveAssign 1 1, .destroy 2]

theorem bounds_survive_swap :
    let set := TraceSet.ofEvents [] [] 10 20 .nil (by simp) (by simp)
    ∃ mem final, Memory.empty.run (cutWorkers set) = some mem ∧ mem.run swapWorkers = some final ∧
      ([0, 1].map final.read).Perm ([0, 1].map mem.read) ∧ final.read 0 = mem.read 1 := by
  intro set
  refine ⟨_, _, rfl, rfl, ?_, rfl⟩
  have survive := bounds_survive_moves (cutWorkers set) _ rfl
  exact survive.2.2.2.2 swapWorkers _ rfl [0, 1] [0, 1] (by decide) rfl (by decide)

end LttngParallelAnalyses
