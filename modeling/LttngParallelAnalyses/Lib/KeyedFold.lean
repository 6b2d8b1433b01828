import Mathlib

/-! Folds whose state is a family of independent local states, one for each key.
An event moves the local state of its own key and no other, so a run is fixed at
every key by the events of that key, in their order. A ledger is a total that all
keys charge; the charges of a run are the sum of the charges of its keys. -/

namespace LttngParallelAnalyses.Lib.KeyedFold
open scoped BigOperators

variable {G E K S A : Type*} [DecidableEq K]

/-- A global step that acts as `act` at the event's key. An event without a key is skipped. -/
structure Keyed (G E K S : Type*) [DecidableEq K] where
  step : G → E → G
  key : E → Option K
  view : G → K → S
  act : S → E → S
  view_step : ∀ state event k, view (step state event) k =
    if key event = some k then act (view state k) event else view state k

namespace Keyed

/-- The events of one key, in order. -/
def only (m : Keyed G E K S) (k : K) (events : List E) : List E :=
  events.filter (fun event => m.key event = some k)

theorem only_cons_of_key (m : Keyed G E K S) {k : K} {event : E} (events : List E)
    (own : m.key event = some k) : m.only k (event :: events) = event :: m.only k events :=
  List.filter_cons_of_pos (by simpa using own)

theorem only_cons_of_ne (m : Keyed G E K S) {k : K} {event : E} (events : List E)
    (other : m.key event ≠ some k) : m.only k (event :: events) = m.only k events :=
  List.filter_cons_of_neg (by simpa using other)

def run (m : Keyed G E K S) (state : G) (events : List E) : G := events.foldl m.step state

/-- The local state after a run is the local run over the events of that key. -/
theorem view_run (m : Keyed G E K S) (state : G) (events : List E) (k : K) :
    m.view (m.run state events) k = (m.only k events).foldl m.act (m.view state k) := by
  induction events generalizing state with
  | nil => rfl
  | cons event rest ih =>
    rw [run, List.foldl_cons, ← run, ih, m.view_step]
    by_cases own : m.key event = some k
    · rw [if_pos own, m.only_cons_of_key rest own, List.foldl_cons]
    · rw [if_neg own, m.only_cons_of_ne rest own]

end Keyed

/-- With distinct keys, the elements of one key are the first one found, if any. -/
theorem filter_key_eq_find {α : Type*} (key : α → K) (items : List α) (k : K)
    (distinct : (items.map key).Nodup) :
    items.filter (fun item => key item = k) =
      (items.find? (fun item => key item = k)).toList := by
  induction items with
  | nil => rfl
  | cons item rest ih =>
    rw [List.map_cons, List.nodup_cons] at distinct
    by_cases own : key item = k
    · have absent : rest.filter (fun other => key other = k) = [] := by
        rw [List.filter_eq_nil_iff]
        intro other member same
        have shared : key other = k := by simpa using same
        exact distinct.1 (List.mem_map.mpr ⟨other, member, shared.trans own.symm⟩)
      simp [own, absent]
    · rw [List.filter_cons_of_neg (by simpa using own), List.find?_cons_of_neg (by simpa using own)]
      exact ih distinct.2

/-- One step for each of several items with distinct keys: at every key, the item of that
key acts once or nothing happens. -/
theorem Keyed.view_run_distinct (m : Keyed G E K S) (key : E → K)
    (keyed : ∀ item, m.key item = some (key item)) (state : G) (items : List E)
    (distinct : (items.map key).Nodup) (k : K) :
    m.view (m.run state items) k =
      (items.find? (fun item => key item = k)).elim (m.view state k) (m.act (m.view state k)) := by
  have own : m.only k items = items.filter (fun item => key item = k) := by
    simp only [Keyed.only, keyed, Option.some.injEq]
  rw [Keyed.view_run, own, filter_key_eq_find key items k distinct]
  cases items.find? (fun item => key item = k) <;> rfl

/-- What a loop reads of the local states of its items, each before the step of the item. -/
def Keyed.readings {L : Type*} (m : Keyed G E K S) (key : E → K) (read : S → E → Option L) :
    G → List E → List L
  | _, [] => []
  | state, item :: rest =>
    (read (m.view state (key item)) item).toList ++ m.readings key read (m.step state item) rest

/-- Over items with distinct keys, a loop reads the local states that it starts from. -/
theorem Keyed.readings_distinct {L : Type*} (m : Keyed G E K S) (key : E → K)
    (keyed : ∀ item, m.key item = some (key item)) (read : S → E → Option L) (state : G)
    (items : List E) (distinct : (items.map key).Nodup) :
    m.readings key read state items =
      items.filterMap (fun item => read (m.view state (key item)) item) := by
  induction items generalizing state with
  | nil => rfl
  | cons item rest ih =>
    rw [List.map_cons, List.nodup_cons] at distinct
    have untouched : ∀ later ∈ rest,
        m.view (m.step state item) (key later) = m.view state (key later) := by
      intro later member
      have other : key item ≠ key later :=
        fun same => distinct.1 (List.mem_map.mpr ⟨later, member, same.symm⟩)
      rw [m.view_step, if_neg (by rwa [keyed, Option.some.injEq])]
    have tail : rest.filterMap (fun later => read (m.view (m.step state item) (key later)) later) =
        rest.filterMap (fun later => read (m.view state (key later)) later) :=
      List.filterMap_congr (fun later member => by rw [untouched later member])
    rw [readings, ih _ distinct.2, tail, List.filterMap_cons]
    cases read (m.view state (key item)) item <;> rfl

/-- A total to which each step adds a charge fixed by the local state of its key. -/
structure Ledger (m : Keyed G E K S) (A : Type*) [AddCommMonoid A] where
  account : G → A
  charge : S → E → A
  account_step : ∀ state event k, m.key event = some k →
    account (m.step state event) = account state + charge (m.view state k) event
  account_skip : ∀ state event, m.key event = none →
    account (m.step state event) = account state

namespace Ledger
variable [AddCommMonoid A] {m : Keyed G E K S}

/-- What the events of one key charge, from a local state on. -/
def charges (l : Ledger m A) : S → List E → A
  | _, [] => 0
  | state, event :: rest => l.charge state event + l.charges (m.act state event) rest

theorem charges_append (l : Ledger m A) (state : S) (first second : List E) :
    l.charges state (first ++ second) =
      l.charges state first + l.charges (first.foldl m.act state) second := by
  induction first generalizing state with
  | nil => simp [charges]
  | cons event rest ih =>
    rw [List.cons_append, charges, charges, ih, List.foldl_cons, add_assoc]

private theorem charges_after (l : Ledger m A) (state : G) (event : E) (rest : List E) (k : K) :
    l.charges (m.view state k) (m.only k (event :: rest)) =
      (if m.key event = some k then l.charge (m.view state k) event else 0) +
        l.charges (m.view (m.step state event) k) (m.only k rest) := by
  rw [m.view_step]
  by_cases own : m.key event = some k
  · rw [m.only_cons_of_key rest own, if_pos own, if_pos own, charges]
  · rw [m.only_cons_of_ne rest own, if_neg own, if_neg own, zero_add]

/-- The ledger after a run holds what every key charged by itself. -/
theorem account_run (l : Ledger m A) (keys : Finset K) (state : G) (events : List E)
    (known : ∀ event ∈ events, ∀ k, m.key event = some k → k ∈ keys) :
    l.account (m.run state events) = l.account state +
      ∑ k ∈ keys, l.charges (m.view state k) (m.only k events) := by
  induction events generalizing state with
  | nil => simp [Keyed.run, Keyed.only, charges]
  | cons event rest ih =>
    have later := ih (m.step state event)
      (fun other member => known other (List.mem_cons_of_mem _ member))
    rw [Keyed.run, List.foldl_cons, ← Keyed.run, later]
    simp only [charges_after, Finset.sum_add_distrib]
    rw [← add_assoc]
    congr 1
    cases own : m.key event with
    | none => simp [l.account_skip state event own]
    | some k =>
      have member : k ∈ keys := known event (by simp) k own
      simp [l.account_step state event k own, Finset.sum_ite_eq, member]

end Ledger

end LttngParallelAnalyses.Lib.KeyedFold
