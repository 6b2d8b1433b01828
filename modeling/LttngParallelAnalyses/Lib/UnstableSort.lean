import Mathlib

/-! The results of an unstable sort: the permutations without an inversion. Elements that
are strictly ordered keep their order in every result; two that are not may come in either
order in some result. -/

namespace LttngParallelAnalyses.Lib.UnstableSort

variable {α : Type*} {before : α → α → Bool}

def SortedBy (before : α → α → Bool) (items order : List α) : Prop :=
  order.Perm items ∧ order.Pairwise (fun a b => before b a = false)

/-- Where the selected elements are strictly ordered, every sort keeps them as they are. -/
theorem SortedBy.filter_eq (asymm : ∀ a b, before a b = true → before b a = false)
    {items order : List α} (sorted : SortedBy before items order) (p : α → Bool)
    (strict : (items.filter p).Pairwise (fun a b => before a b = true)) :
    order.filter p = items.filter p := by
  have kept : (items.filter p).Pairwise (fun a b => before b a = false) :=
    strict.imp (fun {a b} => asymm a b)
  refine List.Perm.eq_of_pairwise ?_ (sorted.2.filter p) kept (sorted.1.filter p)
  intro a b inside inside' le ge
  rw [(sorted.1.filter p).mem_iff] at inside
  by_contra distinct
  have symm : Std.Symm (fun a b : α => before a b = true ∨ before b a = true) :=
    ⟨fun _ _ => Or.symm⟩
  have related : (items.filter p).Pairwise (fun a b => before a b = true ∨ before b a = true) :=
    strict.imp Or.inl
  rcases related.forall inside inside' distinct with lt | gt
  · rw [ge] at lt
    cases lt
  · rw [le] at gt
    cases gt

section Exists
variable (asymm : ∀ a b, before a b = true → before b a = false)
  (trans : ∀ a b c, before b a = false → before c b = false → before c a = false)

/-- The comparator of a stable sort. -/
def notAfter (before : α → α → Bool) (a b : α) : Bool := !before b a

include trans in
private theorem notAfter_trans (a b c : α) (le : notAfter before a b = true)
    (le' : notAfter before b c = true) : notAfter before a c = true := by
  simp only [notAfter, Bool.not_eq_true'] at le le' ⊢
  exact trans a b c le le'

include asymm in
private theorem notAfter_total (a b : α) : (notAfter before a b || notAfter before b a) = true := by
  cases first : before a b with
  | false => simp [notAfter, first]
  | true => simp [notAfter, asymm a b first]

include asymm trans

/-- A stable sort of any permutation is one of the results. -/
theorem sortedBy_mergeSort {items start : List α} (perm : start.Perm items) :
    SortedBy before items (start.mergeSort (notAfter before)) := by
  refine ⟨(List.mergeSort_perm start _).trans perm, ?_⟩
  have sorted := List.pairwise_mergeSort (notAfter_trans trans) (notAfter_total asymm) start
  simpa only [notAfter, Bool.not_eq_true'] using sorted

/-- Two elements, in either of their orders in the list, that need not be swapped come in
this order in some sort. -/
theorem exists_sortedBy {items : List α} {a b : α} (le : before b a = false)
    (both : [a, b].Sublist items ∨ [b, a].Sublist items) :
    ∃ order, SortedBy before items order ∧ [a, b].Sublist order := by
  have pair : ∃ start : List α, start.Perm items ∧ [a, b].Sublist start := by
    rcases both with here | swapped
    · exact ⟨items, List.Perm.refl items, here⟩
    · exact ⟨items.reverse, List.reverse_perm items, by simpa using swapped.reverse⟩
  obtain ⟨start, perm, inside⟩ := pair
  refine ⟨_, sortedBy_mergeSort asymm trans perm, ?_⟩
  exact List.pair_sublist_mergeSort (notAfter_trans trans) (notAfter_total asymm)
    (by simpa [notAfter] using le) inside

/-- A sort around an element, from sorts of those that need not and of those that must come
after it. -/
theorem SortedBy.around {left right low high : List α} {w : α}
    (lowSorted : SortedBy before ((left ++ right).filter (fun x => !before w x)) low)
    (highSorted : SortedBy before ((left ++ right).filter (before w)) high) :
    SortedBy before (left ++ w :: right) (low ++ w :: high) := by
  have below : ∀ x ∈ low, before w x = false := by
    intro x inside
    simpa using (List.mem_filter.mp (lowSorted.1.mem_iff.mp inside)).2
  have above : ∀ y ∈ high, before y w = false := by
    intro y inside
    exact asymm w y (List.mem_filter.mp (highSorted.1.mem_iff.mp inside)).2
  constructor
  · have halves : (low ++ high).Perm (left ++ right) :=
      ((lowSorted.1.append highSorted.1).trans List.perm_append_comm).trans
        (List.filter_append_perm _ _)
    exact List.perm_middle.trans ((halves.cons w).trans List.perm_middle.symm)
  · rw [List.pairwise_append, List.pairwise_cons]
    refine ⟨lowSorted.2, ⟨above, highSorted.2⟩, ?_⟩
    intro x inside y later
    rcases List.mem_cons.mp later with rfl | after
    · exact below x inside
    · exact trans x w y (below x inside) (above y after)

/-- An element that is after no other selected one comes as the last of them in some sort. -/
theorem exists_sortedBy_last {items : List α} (p : α → Bool) {w : α} (member : w ∈ items)
    (own : p w = true) (greatest : ∀ other ∈ items, p other = true → before w other = false) :
    ∃ order, SortedBy before items order ∧ (order.filter p).getLast? = some w := by
  obtain ⟨left, right, rfl⟩ := List.append_of_mem member
  have lowSorted := sortedBy_mergeSort asymm trans
    (List.Perm.refl ((left ++ right).filter (fun x => !before w x)))
  have highSorted := sortedBy_mergeSort asymm trans
    (List.Perm.refl ((left ++ right).filter (before w)))
  refine ⟨_, lowSorted.around asymm trans highSorted, ?_⟩
  have none_above : (((left ++ right).filter (before w)).mergeSort (notAfter before)).filter p =
      [] := by
    rw [List.filter_eq_nil_iff]
    intro y inside selected
    have high := List.mem_filter.mp (highSorted.1.mem_iff.mp inside)
    have among : y ∈ left ++ w :: right := by
      have present := high.1
      rw [List.mem_append] at present ⊢
      exact present.imp_right (List.mem_cons_of_mem w)
    have kept := greatest y among selected
    rw [high.2] at kept
    cases kept
  rw [List.filter_append, List.filter_cons_of_pos own, none_above, List.getLast?_concat]

end Exists

/-- The last of the selected elements of a sort is after no other selected one. -/
theorem SortedBy.last_greatest (asymm : ∀ a b, before a b = true → before b a = false)
    {items order : List α} (sorted : SortedBy before items order) (p : α → Bool) {w : α}
    (last : (order.filter p).getLast? = some w) :
    w ∈ items ∧ p w = true ∧ ∀ other ∈ items, p other = true → before w other = false := by
  have member := List.mem_of_mem_getLast? last
  have irrefl : before w w = false := by
    by_contra reflexive
    rw [Bool.not_eq_false] at reflexive
    have contrary := asymm w w reflexive
    rw [reflexive] at contrary
    cases contrary
  obtain ⟨inside, own⟩ := List.mem_filter.mp member
  refine ⟨sorted.1.mem_iff.mp inside, own, fun other among selected => ?_⟩
  obtain ⟨others, split⟩ := List.getLast?_eq_some_iff.mp last
  have present : other ∈ order.filter p := List.mem_filter.mpr ⟨sorted.1.mem_iff.mpr among, selected⟩
  have kept := sorted.2.filter p
  rw [split] at present kept
  rcases List.mem_append.mp present with earlier | same
  · exact (List.pairwise_append.mp kept).2.2 other earlier w (by simp)
  · rw [List.mem_singleton.mp same]
    exact irrefl

end LttngParallelAnalyses.Lib.UnstableSort
