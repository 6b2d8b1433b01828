import Mathlib

/-! Sums over the adjacent pairs of a list. Cutting a list in two loses exactly one
pair, the one that joins the last element before the cut to the first one after it. -/

namespace LttngParallelAnalyses.Lib.Adjacent

variable {α A : Type*}

/-- Each element with the one that follows it. -/
def pairs (items : List α) : List (α × α) := items.zip items.tail

@[simp] theorem pairs_nil : pairs ([] : List α) = [] := rfl

@[simp] theorem pairs_singleton (a : α) : pairs [a] = [] := rfl

@[simp] theorem pairs_cons_cons (a b : α) (rest : List α) :
    pairs (a :: b :: rest) = (a, b) :: pairs (b :: rest) := rfl

/-- The pair that a cut between two lists breaks. -/
def joint (before after : List α) : List (α × α) :=
  match before.getLast?, after.head? with
  | some a, some b => [(a, b)]
  | _, _ => []

@[simp] theorem joint_nil_left (after : List α) : joint [] after = [] := rfl

@[simp] theorem joint_nil_right (before : List α) : joint before [] = [] := by
  cases last : before.getLast? <;> simp [joint]

theorem joint_cons_right (before : List α) (b : α) (rest : List α) :
    joint before (b :: rest) = (before.getLast?.map (fun a => (a, b))).toList := by
  cases last : before.getLast? <;> simp [joint, last]

theorem pairs_append (before after : List α) :
    pairs (before ++ after) = pairs before ++ joint before after ++ pairs after := by
  induction before with
  | nil => simp
  | cons a rest ih =>
    cases rest with
    | nil => cases after <;> simp [joint]
    | cons b rest =>
      simp only [List.cons_append, pairs_cons_cons] at ih ⊢
      rw [ih]
      simp [joint, List.getLast?_cons_cons]

theorem pairs_concat (items : List α) (a : α) :
    pairs (items ++ [a]) = pairs items ++ (items.getLast?.map (fun last => (last, a))).toList := by
  rw [pairs_append, joint_cons_right, pairs_singleton, List.append_nil]

section Weight
variable [AddCommMonoid A]

/-- The sum of `w` over the adjacent pairs. -/
def weight (w : α → α → A) (items : List α) : A :=
  ((pairs items).map (fun pair => w pair.1 pair.2)).sum

/-- The weight of the pair that a cut breaks. -/
def jointWeight (w : α → α → A) (before after : List α) : A :=
  ((joint before after).map (fun pair => w pair.1 pair.2)).sum

@[simp] theorem weight_nil (w : α → α → A) : weight w [] = 0 := rfl

@[simp] theorem weight_singleton (w : α → α → A) (a : α) : weight w [a] = 0 := rfl

theorem weight_cons_cons (w : α → α → A) (a b : α) (rest : List α) :
    weight w (a :: b :: rest) = w a b + weight w (b :: rest) := by
  simp [weight]

@[simp] theorem jointWeight_nil_right (w : α → α → A) (before : List α) :
    jointWeight w before [] = 0 := by
  simp [jointWeight]

theorem jointWeight_cons (w : α → α → A) (before : List α) (b : α) (rest : List α) :
    jointWeight w before (b :: rest) = before.getLast?.elim 0 (fun a => w a b) := by
  rw [jointWeight, joint_cons_right]
  cases before.getLast? <;> simp

theorem weight_append (w : α → α → A) (before after : List α) :
    weight w (before ++ after) = weight w before + jointWeight w before after + weight w after := by
  simp only [weight, jointWeight, pairs_append, List.map_append, List.sum_append]

theorem weight_concat (w : α → α → A) (items : List α) (a : α) :
    weight w (items ++ [a]) = weight w items + items.getLast?.elim 0 (fun last => w last a) := by
  rw [weight_append, jointWeight_cons, weight_singleton, add_zero]

end Weight

end LttngParallelAnalyses.Lib.Adjacent
