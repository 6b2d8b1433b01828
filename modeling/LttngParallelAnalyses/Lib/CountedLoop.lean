import Mathlib

/-! Loops that count in a machine integer. A computation that is given a number of turns keeps its
result when it is given more. A loop whose counter wraps around comes to an end only if its bound is
below the range of the counter, and then its body goes over the numbers below the bound. -/

namespace LttngParallelAnalyses.Lib.CountedLoop

variable {C σ α β : Type*}

/-! ## Turns -/

/-- More turns give no other result. -/
def Steady (compute : Nat → Option α) : Prop :=
  ∀ turns turns' result, turns ≤ turns' → compute turns = some result →
    compute turns' = some result

/-- The result of a computation that is given turns enough. -/
def Gives (compute : Nat → Option α) (result : α) : Prop := ∃ turns, compute turns = some result

theorem steady_const (result : Option α) : Steady (fun _ => result) := fun _ _ _ _ found => found

theorem Steady.bind {compute : Nat → Option α} {next : α → Nat → Option β}
    (steady : Steady compute) (each : ∀ a, Steady (next a)) :
    Steady (fun turns => (compute turns).bind (fun a => next a turns)) := by
  intro turns turns' result le found
  obtain ⟨a, here, later⟩ := Option.bind_eq_some_iff.mp found
  exact Option.bind_eq_some_iff.mpr
    ⟨a, steady turns turns' a le here, each a turns turns' result le later⟩

/-- Two computations one after the other, each with the turns that it needs. -/
theorem gives_bind {compute : Nat → Option α} {next : α → Nat → Option β}
    (steady : Steady compute) (each : ∀ a, Steady (next a)) (result : β) :
    Gives (fun turns => (compute turns).bind (fun a => next a turns)) result ↔
      ∃ a, Gives compute a ∧ Gives (next a) result := by
  constructor
  · intro given
    obtain ⟨turns, found⟩ := given
    obtain ⟨a, here, later⟩ := Option.bind_eq_some_iff.mp found
    exact ⟨a, ⟨turns, here⟩, ⟨turns, later⟩⟩
  · intro given
    obtain ⟨a, ⟨turns, here⟩, ⟨turns', later⟩⟩ := given
    refine ⟨max turns turns', Option.bind_eq_some_iff.mpr ⟨a, ?_, ?_⟩⟩
    · exact steady turns _ a (le_max_left turns turns') here
    · exact each a turns' _ result (le_max_right turns turns') later

/-! ## Counters -/

/-- An unsigned integer that counts up from 0 and wraps around. -/
structure Counter (C : Type*) where
  zero : C
  next : C → C
  toNat : C → Nat
  size : Nat
  toNat_zero : toNat zero = 0
  toNat_lt : ∀ i, toNat i < size
  toNat_next : ∀ i, toNat (next i) = (toNat i + 1) % size

/-- `for (; i < bound; i++)`. There is no result where the turns do not suffice, or where the body
has none. -/
def loop (counter : Counter C) (bound : Nat) (body : Nat → σ → Option σ) : C → σ → Nat → Option σ
  | _, _, 0 => none
  | i, state, turns + 1 =>
    if counter.toNat i < bound then
      (body (counter.toNat i) state).bind
        (fun next => loop counter bound body (counter.next i) next turns)
    else some state

section Loop
variable {counter : Counter C} {bound : Nat} {body : Nat → σ → Option σ}

theorem steady_loop (i : C) (state : σ) : Steady (loop counter bound body i state) := by
  intro turns turns' last le found
  induction turns generalizing i state turns' with
  | zero => cases found
  | succ turns ih =>
    obtain ⟨turns', rfl⟩ := Nat.exists_eq_add_of_lt le
    rw [loop] at found ⊢
    by_cases inside : counter.toNat i < bound
    · rw [if_pos inside] at found ⊢
      obtain ⟨next, here, later⟩ := Option.bind_eq_some_iff.mp found
      exact Option.bind_eq_some_iff.mpr ⟨next, here, ih _ _ _ (Nat.le_add_right _ _) later⟩
    · rwa [if_neg inside] at found ⊢

/-- A bound that the counter never reaches. -/
theorem loop_wide (wide : counter.size ≤ bound) (i : C) (state : σ) (turns : Nat) :
    loop counter bound body i state turns = none := by
  induction turns generalizing i state with
  | zero => rfl
  | succ turns ih =>
    rw [loop, if_pos ((counter.toNat_lt i).trans_le wide)]
    exact Option.bind_eq_none_iff.mpr (fun next _ => ih _ next)

/-- Below its range the counter goes up to the bound. -/
theorem loop_narrow (narrow : bound < counter.size) {i : C} {left turns : Nat}
    (reaches : counter.toNat i + left = bound) (enough : left < turns) (state : σ) :
    loop counter bound body i state turns =
      (List.range' (counter.toNat i) left).foldlM (fun state i => body i state) state := by
  induction left generalizing i state turns with
  | zero =>
    obtain ⟨turns, rfl⟩ := Nat.exists_eq_add_of_lt enough
    rw [loop, if_neg (by omega)]
    rfl
  | succ left ih =>
    obtain ⟨turns, rfl⟩ := Nat.exists_eq_add_of_lt enough
    have step : counter.toNat (counter.next i) = counter.toNat i + 1 := by
      rw [counter.toNat_next, Nat.mod_eq_of_lt (by omega)]
    rw [loop, if_pos (by omega), List.range'_succ, List.foldlM_cons, ← step]
    exact congrArg _ (funext fun next => ih (by omega) (by omega) next)

/-- A loop ends exactly where the counter gets to its bound and the body goes over all numbers
below. -/
theorem gives_loop_iff (state last : σ) :
    Gives (loop counter bound body counter.zero state) last ↔
      bound < counter.size ∧
        (List.range bound).foldlM (fun state i => body i state) state = some last := by
  have whole : ∀ turns, bound < counter.size → bound < turns →
      loop counter bound body counter.zero state turns =
        (List.range bound).foldlM (fun state i => body i state) state := by
    intro turns narrow enough
    have zero := counter.toNat_zero
    rw [loop_narrow narrow (by omega) enough, zero, List.range_eq_range']
  constructor
  · intro given
    obtain ⟨turns, found⟩ := given
    have narrow : bound < counter.size := by
      by_contra wide
      rw [loop_wide (not_lt.mp wide)] at found
      cases found
    refine ⟨narrow, ?_⟩
    rw [← whole (turns + bound + 1) narrow (by omega)]
    exact steady_loop _ _ turns _ last (by omega) found
  · intro walked
    exact ⟨bound + 1, (whole _ walked.1 (Nat.lt_succ_self bound)).trans walked.2⟩

end Loop

/-! ## Bodies -/

/-- A body that reads a list by index goes over the list. -/
theorem foldlM_getElem? (f : σ → α → σ) (items : List α) {n : Nat} (inside : n ≤ items.length)
    (state : σ) :
    (List.range n).foldlM (fun state i => items[i]?.map (f state)) state =
      some ((items.take n).foldl f state) := by
  induction n with
  | zero => rfl
  | succ n ih =>
    rw [List.range_succ, List.foldlM_append, ih (by omega), List.take_succ_eq_append_getElem inside,
      List.foldl_concat, Option.bind_eq_bind, Option.bind_some, List.foldlM_cons,
      List.getElem?_eq_getElem inside]
    rfl

/-- A body that appends makes a list. -/
theorem foldlM_append_map (f : Nat → α) (n : Nat) (items : List α) :
    (List.range n).foldlM (fun items i => some (items ++ [f i])) items =
      some (items ++ (List.range n).map f) := by
  induction n with
  | zero => simp
  | succ n ih =>
    rw [List.range_succ, List.foldlM_append, ih, List.map_append, List.map_singleton,
      ← List.append_assoc]
    rfl

end LttngParallelAnalyses.Lib.CountedLoop
