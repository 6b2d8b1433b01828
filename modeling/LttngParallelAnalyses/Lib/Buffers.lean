import LttngParallelAnalyses.Lib.Moves

/-! A buffer of objects that grows at its end. Where it has no room, its objects are moved to other
places and the old ones destroyed. However it grows, it holds what was pushed, in order, and there
is no object outside of it. -/

namespace LttngParallelAnalyses.Lib.Buffers
open Function Moves

variable {P V W : Type*}

/-- The objects are at these places, with these values, and at no other. -/
structure Fills (store : P → Option V) (places : List P) (values : List V) : Prop where
  distinct : places.Nodup
  held : places.map store = values.map some
  only : ∀ place ∉ places, store place = none

/-- How a buffer takes one more object: at the place after its last, or in another buffer. -/
inductive Growth (P : Type*) where
  | inPlace (place : P)
  | reallocate (moved : List P) (place : P)
  deriving Repr

namespace Growth

/-- The places of the buffer that has grown. -/
def places (old : List P) : Growth P → List P
  | inPlace place => old ++ [place]
  | reallocate moved place => moved ++ [place]

/-- The new object is constructed first, then the others are moved to it and then destroyed. -/
def ops (old : List P) (v : V) : Growth P → List (Op P V)
  | inPlace place => [.construct place v]
  | reallocate moved place =>
    .construct place v :: (List.zipWith .moveConstruct moved old ++ old.map .destroy)

/-- What the allocator promises: places that differ, at none of which there is an object. -/
structure Fresh (old : List P) (growth : Growth P) : Prop where
  distinct : (growth.places old).Nodup
  free : ∀ moved place, growth = reallocate moved place →
    moved.length = old.length ∧ ∀ p ∈ moved ++ [place], p ∉ old

theorem ops_map (f : V → W) (old : List P) (v : V) (growth : Growth P) :
    (growth.ops old v).map (Op.map f) = growth.ops old (f v) := by
  cases growth with
  | inPlace place => rfl
  | reallocate moved place =>
    simp only [ops, List.map_cons, List.map_append, List.map_zipWith, List.map_map]
    rfl

end Growth

theorem fills_nil : Fills (fun _ => none : P → Option V) [] [] :=
  ⟨List.nodup_nil, rfl, fun _ _ => rfl⟩

variable [DecidableEq P] {store : P → Option V}

theorem map_update_apart {old : List P} {place : P} (absent : place ∉ old) (value : Option V) :
    old.map (update store place value) = old.map store := by
  apply List.map_congr_left
  intro p member
  have differ : p ≠ place := fun same => absent (same ▸ member)
  exact update_of_ne differ value store

theorem run_append (clear : V → V) (store : P → Option V) (first second : List (Op P V)) :
    run clear store (first ++ second) =
      (run clear store first).bind (fun next => run clear next second) := by
  induction first generalizing store with
  | nil => rfl
  | cons op ops ih =>
    rw [List.cons_append, run, run, Option.bind_assoc]
    exact congrArg _ (funext ih)

/-- Objects that are moved to fresh places have their values there; nothing else changes, and
something is left of them. -/
theorem run_moves (clear : V → V) {moved old : List P} {values : List V}
    (count : moved.length = old.length) (distinct : moved.Nodup) (distinct' : old.Nodup)
    (apart : ∀ p ∈ moved, p ∉ old) (held : old.map store = values.map some) :
    ∃ next, run clear store (List.zipWith .moveConstruct moved old) = some next ∧
      moved.map next = values.map some ∧ (∀ p ∈ old, (next p).isSome) ∧
      ∀ p ∉ moved, p ∉ old → next p = store p := by
  induction moved generalizing old values store with
  | nil =>
    obtain rfl := List.length_eq_zero_iff.mp count.symm
    obtain rfl : values = [] := List.map_eq_nil_iff.mp held.symm
    exact ⟨store, rfl, rfl, by simp, fun _ _ _ => rfl⟩
  | cons dst moved ih =>
    cases old with
    | nil => cases count
    | cons src old =>
      cases values with
      | nil => cases held
      | cons v values =>
        rw [List.map_cons, List.map_cons, List.cons.injEq] at held
        rw [List.nodup_cons] at distinct distinct'
        have differ : dst ≠ src := fun same =>
          apart dst List.mem_cons_self (same ▸ List.mem_cons_self)
        have dst_apart : dst ∉ old := fun member =>
          apart dst List.mem_cons_self (List.mem_cons_of_mem src member)
        have src_apart : src ∉ moved := fun member =>
          apart src (List.mem_cons_of_mem dst member) List.mem_cons_self
        have kept : old.map (transfer clear store dst src v) = values.map some := by
          rw [transfer, map_update_apart distinct'.1, map_update_apart dst_apart, held.2]
        obtain ⟨next, ran, values_eq, left, others⟩ := ih (Nat.succ.inj count) distinct.2 distinct'.2
          (fun p member inside => apart p (List.mem_cons_of_mem dst member)
            (List.mem_cons_of_mem src inside)) kept
        refine ⟨next, ?_, ?_, ?_, ?_⟩
        · rw [List.zipWith_cons_cons, run, step_moveConstruct differ held.1, Option.bind_some, ran]
        · rw [List.map_cons, List.map_cons, values_eq, others dst distinct.1 dst_apart,
            transfer_dst differ]
        · intro p member
          rcases List.mem_cons.mp member with rfl | member
          · rw [others p src_apart distinct'.1, transfer, update_self]
            rfl
          · exact left p member
        · intro p outside outside'
          rw [List.mem_cons, not_or] at outside outside'
          rw [others p outside.2 outside'.2, transfer, update_of_ne outside'.1,
            update_of_ne outside.1]

/-- Objects that are destroyed are gone; nothing else changes. -/
theorem run_destroys (clear : V → V) {old : List P} (distinct : old.Nodup)
    (exist : ∀ p ∈ old, (store p).isSome) :
    ∃ next, run clear store (old.map .destroy) = some next ∧ (∀ p ∈ old, next p = none) ∧
      ∀ p ∉ old, next p = store p := by
  induction old generalizing store with
  | nil => exact ⟨store, rfl, by simp, fun _ _ => rfl⟩
  | cons place old ih =>
    rw [List.nodup_cons] at distinct
    obtain ⟨v, held⟩ := Option.isSome_iff_exists.mp (exist place List.mem_cons_self)
    have kept : ∀ p ∈ old, (update store place none p).isSome := by
      intro p member
      have differ : p ≠ place := fun same => distinct.1 (same ▸ member)
      rw [update_of_ne differ]
      exact exist p (List.mem_cons_of_mem place member)
    obtain ⟨next, ran, gone, others⟩ := ih distinct.2 kept
    refine ⟨next, ?_, ?_, ?_⟩
    · rw [List.map_cons, run, step, held, Option.map_some, Option.bind_some, ran]
    · intro p member
      rcases List.mem_cons.mp member with rfl | member
      · rw [others p distinct.1, update_self]
      · exact gone p member
    · intro p outside
      rw [List.mem_cons, not_or] at outside
      rw [others p outside.2, update_of_ne outside.1]

/-- A buffer that grows has one more value at its end. -/
theorem Fills.push {old : List P} {values : List V} (fills : Fills store old values)
    (clear : V → V) (v : V) {growth : Growth P} (fresh : growth.Fresh old) :
    ∃ next, run clear store (growth.ops old v) = some next ∧
      Fills next (growth.places old) (values ++ [v]) := by
  cases growth with
  | inPlace place =>
    have distinct := fresh.distinct
    refine ⟨update store place (some v), rfl, distinct, ?_, ?_⟩
    · have absent : place ∉ old := by
        rw [Growth.places, List.nodup_append] at distinct
        exact fun member => distinct.2.2 place member place (List.mem_singleton_self place) rfl
      rw [Growth.places, List.map_append, List.map_append, List.map_singleton, List.map_singleton,
        update_self, map_update_apart absent, fills.held]
    · intro p outside
      rw [Growth.places, List.mem_append, List.mem_singleton, not_or] at outside
      rw [update_of_ne outside.2, fills.only p outside.1]
  | reallocate moved place =>
    obtain ⟨count, free⟩ := fresh.free moved place rfl
    have distinct : (moved ++ [place]).Nodup := fresh.distinct
    have absent : place ∉ old := free place (by simp)
    have not_moved : place ∉ moved := by
      rw [List.nodup_append] at distinct
      exact fun member => distinct.2.2 place member place (List.mem_singleton_self place) rfl
    have held : old.map (update store place (some v)) = values.map some :=
      (map_update_apart absent _).trans fills.held
    obtain ⟨middle, moves, values_eq, left, others⟩ := run_moves clear count
      distinct.of_append_left fills.distinct (fun p member => free p (List.mem_append_left _ member))
      held
    obtain ⟨next, destroys, gone, kept⟩ := run_destroys clear fills.distinct left
    refine ⟨next, ?_, distinct, ?_, ?_⟩
    · rw [Growth.ops, run, step, Option.bind_some, run_append, moves, Option.bind_some, destroys]
    · rw [Growth.places, List.map_append, List.map_append, List.map_singleton, List.map_singleton,
        kept place absent, others place not_moved absent, update_self, ← values_eq]
      congr 1
      apply List.map_congr_left
      intro p member
      exact kept p (free p (List.mem_append_left _ member))
    · intro p outside
      rw [Growth.places, List.mem_append, List.mem_singleton, not_or] at outside
      by_cases inside : p ∈ old
      · exact gone p inside
      · rw [kept p inside, others p outside.1 inside, update_of_ne outside.2, fills.only p inside]

/-- A buffer that is destroyed leaves no object behind. -/
theorem Fills.destroy {old : List P} {values : List V} (fills : Fills store old values)
    (clear : V → V) : run clear store (old.map .destroy) = some (fun _ => none) := by
  have exist : ∀ p ∈ old, (store p).isSome := by
    intro p member
    have held : store p ∈ values.map some := by
      rw [← fills.held]
      exact List.mem_map_of_mem member
    obtain ⟨v, _, same⟩ := List.mem_map.mp held
    rw [← same]
    rfl
  obtain ⟨next, ran, gone, kept⟩ := run_destroys clear fills.distinct exist
  rw [ran]
  congr 1
  funext p
  by_cases inside : p ∈ old
  · exact gone p inside
  · rw [kept p inside, fills.only p inside]

end LttngParallelAnalyses.Lib.Buffers
