import Mathlib

/-! Interleavings of several lists: one element at a time is taken from the head of some
list. What a predicate selects from an interleaving interleaves what it selects from the
lists, so where one list holds all of it, that list's order is kept. -/

namespace LttngParallelAnalyses.Lib.Interleaving

variable {α : Type*}

inductive Interleaves : List (List α) → List α → Prop where
  | done (lists : List (List α)) (empty : ∀ l ∈ lists, l = []) : Interleaves lists []
  | take (before after : List (List α)) (a : α) (rest merged : List α)
      (later : Interleaves (before ++ rest :: after) merged) :
      Interleaves (before ++ (a :: rest) :: after) (a :: merged)

theorem Interleaves.filter {lists : List (List α)} {merged : List α} (p : α → Bool)
    (h : Interleaves lists merged) :
    Interleaves (lists.map (List.filter p)) (merged.filter p) := by
  induction h with
  | done lists empty =>
    apply Interleaves.done
    intro l member
    obtain ⟨original, present, rfl⟩ := List.mem_map.mp member
    rw [empty original present, List.filter_nil]
  | take before after a rest merged _ ih =>
    rw [List.map_append, List.map_cons] at ih ⊢
    by_cases own : p a = true
    · rw [List.filter_cons_of_pos own, List.filter_cons_of_pos own]
      exact Interleaves.take _ _ _ _ _ ih
    · rw [List.filter_cons_of_neg own, List.filter_cons_of_neg own]
      exact ih

theorem Interleaves.length {lists : List (List α)} {merged : List α}
    (h : Interleaves lists merged) : merged.length = (lists.map List.length).sum := by
  induction h with
  | done lists empty =>
    rw [List.length_nil, eq_comm, List.sum_eq_zero_iff]
    intro n member
    obtain ⟨l, present, rfl⟩ := List.mem_map.mp member
    rw [empty l present, List.length_nil]
  | take before after a rest merged _ ih =>
    simp only [List.map_append, List.map_cons, List.sum_append, List.sum_cons,
      List.length_cons] at ih ⊢
    omega

theorem Interleaves.mem_iff {lists : List (List α)} {merged : List α}
    (h : Interleaves lists merged) (x : α) : x ∈ merged ↔ ∃ l ∈ lists, x ∈ l := by
  induction h with
  | done lists empty =>
    constructor
    · intro member
      cases member
    · intro found
      obtain ⟨l, present, member⟩ := found
      rw [empty l present] at member
      exact member
  | take before after a rest merged _ ih =>
    rw [List.mem_cons, ih]
    simp only [List.mem_append, List.mem_cons]
    constructor
    · intro found
      rcases found with rfl | ⟨l, before_l | rfl | after_l, member⟩
      · exact ⟨x :: rest, Or.inr (Or.inl rfl), List.mem_cons_self⟩
      · exact ⟨l, Or.inl before_l, member⟩
      · exact ⟨a :: l, Or.inr (Or.inl rfl), List.mem_cons_of_mem _ member⟩
      · exact ⟨l, Or.inr (Or.inr after_l), member⟩
    · intro found
      rcases found with ⟨l, before_l | rfl | after_l, member⟩
      · exact Or.inr ⟨l, Or.inl before_l, member⟩
      · rcases List.mem_cons.mp member with rfl | later
        · exact Or.inl rfl
        · exact Or.inr ⟨rest, Or.inr (Or.inl rfl), later⟩
      · exact Or.inr ⟨l, Or.inr (Or.inr after_l), member⟩

/-- In which order the lists are named does not matter. -/
theorem Interleaves.perm {lists lists' : List (List α)} {merged : List α}
    (h : Interleaves lists merged) (perm : lists.Perm lists') : Interleaves lists' merged := by
  induction h generalizing lists' with
  | done lists empty => exact Interleaves.done _ (fun l member => empty l (perm.mem_iff.mpr member))
  | take before after a rest merged _ ih =>
    have member : a :: rest ∈ lists' := perm.mem_iff.mp (by simp)
    obtain ⟨left, right, rfl⟩ := List.append_of_mem member
    have others : (before ++ after).Perm (left ++ right) :=
      ((List.perm_middle.symm.trans perm).trans List.perm_middle).cons_inv
    apply Interleaves.take left right a rest merged
    apply ih
    exact (List.perm_middle.trans (others.cons rest)).trans List.perm_middle.symm

private theorem single {lists : List (List α)} {merged : List α} (h : Interleaves lists merged) :
    ∀ before l after, lists = before ++ l :: after → (∀ other ∈ before, other = []) →
      (∀ other ∈ after, other = []) → merged = l := by
  induction h with
  | done lists empty =>
    intro before l after same _ _
    subst same
    exact (empty l (by simp)).symm
  | take before after a rest merged _ ih =>
    intro left l right same leftEmpty rightEmpty
    -- the list that gives its head is the one list that has any
    rcases List.append_eq_append_iff.mp same with ⟨mid, rfl, eq⟩ | ⟨mid, rfl, eq⟩
    · cases mid with
      | nil =>
        rw [List.nil_append, List.cons.injEq] at eq
        obtain ⟨rfl, rfl⟩ := eq
        rw [List.append_nil] at leftEmpty
        rw [ih before rest after rfl leftEmpty rightEmpty]
      | cons head tail =>
        rw [List.cons_append, List.cons.injEq] at eq
        have wrong := leftEmpty head (by simp)
        rw [← eq.1] at wrong
        cases wrong
    · cases mid with
      | nil =>
        rw [List.nil_append, List.cons.injEq] at eq
        obtain ⟨rfl, rfl⟩ := eq
        rw [ih left rest right (by simp) leftEmpty rightEmpty]
      | cons head tail =>
        rw [List.cons_append, List.cons.injEq] at eq
        have wrong := rightEmpty (a :: rest) (by rw [eq.2]; simp)
        cases wrong

/-- Where one list holds all that a predicate selects, the interleaving keeps its order. -/
theorem Interleaves.filter_eq {before after : List (List α)} {l merged : List α} (p : α → Bool)
    (h : Interleaves (before ++ l :: after) merged)
    (left : ∀ other ∈ before, ∀ x ∈ other, p x = false)
    (right : ∀ other ∈ after, ∀ x ∈ other, p x = false) :
    merged.filter p = l.filter p := by
  have empty : ∀ lists : List (List α), (∀ other ∈ lists, ∀ x ∈ other, p x = false) →
      ∀ other ∈ lists.map (List.filter p), other = [] := by
    intro lists none_selected other member
    obtain ⟨original, present, rfl⟩ := List.mem_map.mp member
    rw [List.filter_eq_nil_iff]
    intro x inside
    simp [none_selected original present x inside]
  apply single (h.filter p) (before.map (List.filter p)) (l.filter p) (after.map (List.filter p))
  · simp
  · exact empty before left
  · exact empty after right

end LttngParallelAnalyses.Lib.Interleaving
