import Mathlib

/-! Objects that live at places and are moved between them. A move gives the destination the
value of the source and leaves the source with what is left of it. Whatever the order of the
moves, a value is at one place at most, so the places that are filled from some others hold a
permutation of their values. -/

namespace LttngParallelAnalyses.Lib.Moves
open Function

variable {P V W : Type*}

/-- What can be done with places. A construction takes the value `v`. -/
inductive Op (P V : Type*) where
  | construct (place : P) (v : V)
  | moveConstruct (dst src : P)
  | moveAssign (dst src : P)
  | destroy (place : P)
  deriving DecidableEq, Repr

def Op.map (f : V → W) : Op P V → Op P W
  | .construct place v => .construct place (f v)
  | .moveConstruct dst src => .moveConstruct dst src
  | .moveAssign dst src => .moveAssign dst src
  | .destroy place => .destroy place

variable [DecidableEq P]

/-- The source and the destination of a move between different places. -/
def transfer (clear : V → V) (store : P → Option V) (dst src : P) (v : V) : P → Option V :=
  update (update store dst (some v)) src (some (clear v))

/-- One operation. There is none from or into a place without an object, and no object is
constructed from itself; an object that is assigned to itself stays as it is. -/
def step (clear : V → V) (store : P → Option V) : Op P V → Option (P → Option V)
  | .construct place v => some (update store place (some v))
  | .moveConstruct dst src =>
    if dst = src then none else (store src).map (transfer clear store dst src)
  | .moveAssign dst src =>
    (store dst).bind fun _ => (store src).map fun v =>
      if dst = src then store else transfer clear store dst src v
  | .destroy place => (store place).map fun _ => update store place none

def run (clear : V → V) (store : P → Option V) : List (Op P V) → Option (P → Option V)
  | [] => some store
  | op :: ops => (step clear store op).bind fun next => run clear next ops

section Transfer
variable {clear : V → V} {store : P → Option V} {dst src : P} {v : V}

theorem transfer_dst (apart : dst ≠ src) : transfer clear store dst src v dst = some v := by
  rw [transfer, update_of_ne apart, update_self]

theorem step_moveConstruct (apart : dst ≠ src) (held : store src = some v) :
    step clear store (.moveConstruct dst src) = some (transfer clear store dst src v) := by
  rw [step, if_neg apart, held]
  rfl

theorem step_moveAssign {old : V} (target : store dst = some old) (held : store src = some v) :
    step clear store (.moveAssign dst src) =
      some (if dst = src then store else transfer clear store dst src v) := by
  rw [step, target, held]
  rfl

end Transfer

/-! ## Where a value comes from -/

/-- The origins after one more operation. What is constructed or left of a move has none. -/
def trace (origins : P → Option P) : Op P V → P → Option P
  | .construct place _ => update origins place none
  | .moveConstruct dst src => update (update origins dst (origins src)) src none
  | .moveAssign dst src =>
    if dst = src then origins else update (update origins dst (origins src)) src none
  | .destroy place => update origins place none

/-- The place that held, before the operations, what a place holds after them. -/
def origin (ops : List (Op P V)) : P → Option P := ops.foldl trace some

/-- The origins do not depend on what is constructed. -/
theorem origin_map (f : V → W) (ops : List (Op P V)) : origin (ops.map (Op.map f)) = origin ops := by
  have mapped : ∀ origins, ∀ op : Op P V, trace origins (op.map f) = trace origins op := by
    intro origins op
    cases op with
    | construct place v => rfl
    | moveConstruct dst src => rfl
    | moveAssign dst src => rfl
    | destroy place => rfl
  rw [origin, origin, List.foldl_map]
  simp only [mapped]

/-- Each place holds what its origin held, and no two places have one origin. -/
structure Tracked (initial store : P → Option V) (origins : P → Option P) : Prop where
  holds : ∀ place from_, origins place = some from_ → store place = initial from_
  once : ∀ place place' from_, origins place = some from_ → origins place' = some from_ →
    place = place'

omit [DecidableEq P] in
theorem Tracked.start (initial : P → Option V) : Tracked initial initial some where
  holds place from_ known := by rw [Option.some.inj known]
  once place place' from_ known known' := Option.some.inj (known.trans known'.symm)

namespace Tracked
variable {initial store : P → Option V} {origins : P → Option P}

/-- What is written to a place without an origin is of no account. -/
theorem erase (tracked : Tracked initial store origins) (place : P) (value : Option V) :
    Tracked initial (update store place value) (update origins place none) where
  holds other from_ known := by
    by_cases same : other = place
    · rw [same, update_self] at known
      cases known
    · rw [update_of_ne same] at known ⊢
      exact tracked.holds other from_ known
  once one two from_ known known' := by
    by_cases first : one = place
    · rw [first, update_self] at known
      cases known
    by_cases second : two = place
    · rw [second, update_self] at known'
      cases known'
    rw [update_of_ne first] at known
    rw [update_of_ne second] at known'
    exact tracked.once one two from_ known known'

/-- A move takes the origin along. -/
theorem move (tracked : Tracked initial store origins) (dst src : P) (left : Option V) :
    Tracked initial (update (update store dst (store src)) src left)
      (update (update origins dst (origins src)) src none) where
  holds place from_ known := by
    by_cases source : place = src
    · rw [source, update_self] at known
      cases known
    rw [update_of_ne source] at known ⊢
    by_cases target : place = dst
    · rw [target, update_self] at known ⊢
      exact tracked.holds src from_ known
    · rw [update_of_ne target] at known ⊢
      exact tracked.holds place from_ known
  once one two from_ known known' := by
    -- a place other than the source had its origin before, or took it from the source
    have earlier : ∀ place, update (update origins dst (origins src)) src none place = some from_ →
        place ≠ src ∧ origins (if place = dst then src else place) = some from_ := by
      intro place found
      by_cases source : place = src
      · rw [source, update_self] at found
        cases found
      rw [update_of_ne source] at found
      refine ⟨source, ?_⟩
      by_cases target : place = dst
      · rw [if_pos target]
        rwa [target, update_self] at found
      · rw [if_neg target]
        rwa [update_of_ne target] at found
    obtain ⟨first, known⟩ := earlier one known
    obtain ⟨second, known'⟩ := earlier two known'
    have same := tracked.once _ _ from_ known known'
    by_cases target : one = dst
    · by_cases target' : two = dst
      · rw [target, target']
      · rw [if_pos target, if_neg target'] at same
        exact absurd same.symm second
    · by_cases target' : two = dst
      · rw [if_neg target, if_pos target'] at same
        exact absurd same first
      · rwa [if_neg target, if_neg target'] at same

theorem step {clear : V → V} {next : P → Option V} (tracked : Tracked initial store origins)
    {op : Op P V} (stepped : Moves.step clear store op = some next) :
    Tracked initial next (trace origins op) := by
  cases op with
  | construct place v =>
    obtain rfl := Option.some.inj stepped
    exact tracked.erase place (some v)
  | moveConstruct dst src =>
    rw [Moves.step] at stepped
    split_ifs at stepped with same
    obtain ⟨v, held, rfl⟩ := Option.map_eq_some_iff.mp stepped
    rw [transfer, ← held]
    exact tracked.move dst src _
  | moveAssign dst src =>
    obtain ⟨old, target, rest⟩ := Option.bind_eq_some_iff.mp stepped
    obtain ⟨v, held, rfl⟩ := Option.map_eq_some_iff.mp rest
    rw [trace]
    split_ifs with same
    · exact tracked
    · rw [transfer, ← held]
      exact tracked.move dst src _
  | destroy place =>
    obtain ⟨v, held, rfl⟩ := Option.map_eq_some_iff.mp stepped
    exact tracked.erase place none

theorem run {clear : V → V} {final : P → Option V} (tracked : Tracked initial store origins)
    {ops : List (Op P V)} (ran : Moves.run clear store ops = some final) :
    Tracked initial final (ops.foldl trace origins) := by
  induction ops generalizing store origins with
  | nil =>
    obtain rfl := Option.some.inj ran
    exact tracked
  | cons op ops ih =>
    obtain ⟨next, stepped, rest⟩ := Option.bind_eq_some_iff.mp ran
    exact ih (tracked.step stepped) rest

end Tracked

/-- Places that are filled from some others hold a permutation of what those held. -/
theorem perm_of_origins {clear : V → V} {initial final : P → Option V} {ops : List (Op P V)}
    (ran : run clear initial ops = some final) {before after : List P} (distinct : after.Nodup)
    (count : after.length = before.length)
    (filled : ∀ place ∈ after, ∃ from_ ∈ before, origin ops place = some from_) :
    (after.map final).Perm (before.map initial) := by
  have tracked : Tracked initial final (origin ops) := (Tracked.start initial).run ran
  let source : P → P := fun place => (origin ops place).getD place
  have known : ∀ place ∈ after, origin ops place = some (source place) := by
    intro place member
    obtain ⟨from_, -, known⟩ := filled place member
    simp only [source, known, Option.getD_some]
  have inside : after.map source ⊆ before := by
    intro from_ mapped
    obtain ⟨place, member, rfl⟩ := List.mem_map.mp mapped
    obtain ⟨from_, inside, from_eq⟩ := filled place member
    rwa [Option.some.inj ((known place member).symm.trans from_eq)]
  have sources : (after.map source).Nodup := by
    refine distinct.map_on ?_
    intro one member two member' same
    exact tracked.once one two (source one) (known one member) (same ▸ known two member')
  have perm : (after.map source).Perm before :=
    (List.subperm_of_subset sources inside).perm_of_length_le (by rw [List.length_map, count])
  have held : after.map final = (after.map source).map initial := by
    rw [List.map_map]
    exact List.map_congr_left (fun place member => tracked.holds _ _ (known place member))
  rw [held]
  exact perm.map initial

end LttngParallelAnalyses.Lib.Moves
