import Mathlib

/-! Reductions that are bracketed in any way. Where what is seen of a combination is an associative
product of what is seen of its parts, every bracketing of some items shows what their left fold
shows. -/

namespace LttngParallelAnalyses.Lib

/-- A bracketing of some items, in their order. -/
inductive Bracketing (α : Type*) where
  | leaf (a : α)
  | node (left right : Bracketing α)
  deriving DecidableEq, Repr

namespace Bracketing

variable {α C R : Type*}

def leaves : Bracketing α → List α
  | .leaf a => [a]
  | .node left right => left.leaves ++ right.leaves

/-- The leftmost item. -/
def first : Bracketing α → α
  | .leaf a => a
  | .node left _ => left.first

def eval (op : C → C → C) (f : α → C) : Bracketing α → C
  | .leaf a => f a
  | .node left right => op (left.eval op f) (right.eval op f)

theorem leaves_eq_cons (tree : Bracketing α) : ∃ rest, tree.leaves = tree.first :: rest := by
  induction tree with
  | leaf a => exact ⟨[], rfl⟩
  | node left right ih _ =>
    obtain ⟨rest, same⟩ := ih
    refine ⟨rest ++ right.leaves, ?_⟩
    rw [leaves, same, List.cons_append]
    rfl

section Eval
variable {op : C → C → C} {f : α → C} {Good : C → Prop}

/-- What holds of the items and is kept by the operation holds of every bracketing. -/
theorem good_eval (good : ∀ a, Good (f a)) (keeps : ∀ a b, Good a → Good b → Good (op a b))
    (tree : Bracketing α) : Good (tree.eval op f) := by
  induction tree with
  | leaf a => exact good a
  | node left right ih ih' => exact keeps _ _ ih ih'

variable {view : C → R} {mul : R → R → R} {one : R}

theorem view_foldl (hom : ∀ a b, Good b → view (op a b) = mul (view a) (view b)) (items : List C)
    (good : ∀ a ∈ items, Good a) (start : C) :
    view (items.foldl op start) = (items.map view).foldl mul (view start) := by
  induction items generalizing start with
  | nil => rfl
  | cons a rest ih =>
    rw [List.forall_mem_cons] at good
    rw [List.foldl_cons, ih good.2, hom start a good.1]
    rfl

variable [assoc : Std.Associative mul] [unit : Std.LawfulIdentity mul one]

theorem foldl_mul (values : List R) (a b : R) :
    values.foldl mul (mul a b) = mul a (values.foldl mul b) := by
  induction values generalizing b with
  | nil => rfl
  | cons c rest ih => rw [List.foldl_cons, List.foldl_cons, assoc.assoc, ih]

theorem view_eval (good : ∀ a, Good (f a)) (keeps : ∀ a b, Good a → Good b → Good (op a b))
    (hom : ∀ a b, Good b → view (op a b) = mul (view a) (view b)) (tree : Bracketing α) :
    view (tree.eval op f) = (tree.leaves.map (fun a => view (f a))).foldl mul one := by
  induction tree with
  | leaf a => exact (unit.left_id (view (f a))).symm
  | node left right ih ih' =>
    rw [eval, hom _ _ (good_eval good keeps right), ih, ih', leaves, List.map_append,
      List.foldl_append]
    refine (foldl_mul (right.leaves.map (fun a => view (f a))) _ one).symm.trans ?_
    rw [unit.right_id]

/-- Every bracketing of the items shows what their left fold from a neutral start shows. -/
theorem view_eval_eq_foldl (good : ∀ a, Good (f a))
    (keeps : ∀ a b, Good a → Good b → Good (op a b))
    (hom : ∀ a b, Good b → view (op a b) = mul (view a) (view b)) {start : C}
    (neutral : view start = one) (tree : Bracketing α) :
    view (tree.eval op f) = view ((tree.leaves.map f).foldl op start) := by
  have items : ∀ a ∈ tree.leaves.map f, Good a := by
    intro c member
    obtain ⟨a, _, rfl⟩ := List.mem_map.mp member
    exact good a
  rw [view_eval good keeps hom, view_foldl hom _ items, neutral, List.map_map]
  rfl

end Eval

end Bracketing

end LttngParallelAnalyses.Lib
