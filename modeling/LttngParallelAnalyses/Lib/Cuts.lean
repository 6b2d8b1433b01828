import Mathlib

/-! A line cut at a nondecreasing list of points. The spans between the cuts are open
below and closed above, the first has no lower end and the last no upper one. Every
point lies in exactly one span, later points lie in later spans, and a sorted list is
the concatenation of its parts in the spans. -/

namespace LttngParallelAnalyses.Lib.Cuts

variable {T α : Type*}

/-- The points above `lo` and up to `hi`; `none` is no bound. -/
structure Span (T : Type*) where
  lo : Option T
  hi : Option T

/-- The spans that the cuts leave above `lo`. -/
def spans (lo : Option T) : List T → List (Span T)
  | [] => [⟨lo, none⟩]
  | cut :: rest => ⟨lo, some cut⟩ :: spans (some cut) rest

@[simp] theorem length_spans (lo : Option T) (cuts : List T) :
    (spans lo cuts).length = cuts.length + 1 := by
  induction cuts generalizing lo with
  | nil => rfl
  | cons cut rest ih => simp [spans, ih]

/-- The span at an index lies between the cut before it and the cut at it. -/
theorem getElem_spans (lo : Option T) (cuts : List T) (i : Nat)
    (h : i < (spans lo cuts).length) :
    (spans lo cuts)[i] = ⟨if i = 0 then lo else cuts[i - 1]?, cuts[i]?⟩ := by
  induction cuts generalizing lo i with
  | nil =>
    obtain rfl : i = 0 := by simpa using h
    rfl
  | cons cut rest ih =>
    cases i with
    | zero => rfl
    | succ i =>
      have later := ih (some cut) i (by simpa using h)
      simp only [spans, List.getElem_cons_succ, later]
      cases i <;> simp

theorem mem_of_mem_spans {lo : Option T} {cuts : List T} {span : Span T}
    (member : span ∈ spans lo cuts) {a : T} (own : a ∈ span.lo) : a ∈ lo ∨ a ∈ cuts := by
  induction cuts generalizing lo with
  | nil =>
    rw [spans, List.mem_singleton] at member
    subst member
    exact Or.inl own
  | cons cut rest ih =>
    rcases List.mem_cons.mp member with rfl | later
    · exact Or.inl own
    · rcases ih later with here | there
      · obtain rfl : cut = a := by simpa using here
        exact Or.inr List.mem_cons_self
      · exact Or.inr (List.mem_cons_of_mem cut there)

variable [LinearOrder T]

def Span.Contains (span : Span T) (t : T) : Prop :=
  (∀ a ∈ span.lo, a < t) ∧ (∀ b ∈ span.hi, t ≤ b)

instance (span : Span T) (t : T) : Decidable (span.Contains t) :=
  inferInstanceAs (Decidable ((∀ a ∈ span.lo, a < t) ∧ (∀ b ∈ span.hi, t ≤ b)))

/-- Above `lo` the spans leave no gap, whatever the order of the cuts. -/
theorem exists_contains {lo : Option T} (cuts : List T) {t : T} (start : ∀ a ∈ lo, a < t) :
    ∃ span ∈ spans lo cuts, span.Contains t := by
  induction cuts generalizing lo with
  | nil => exact ⟨⟨lo, none⟩, List.mem_singleton_self _, start, by simp⟩
  | cons cut rest ih =>
    by_cases le : t ≤ cut
    · exact ⟨⟨lo, some cut⟩, List.mem_cons_self, start, by simpa using le⟩
    · have above : ∀ a ∈ some cut, a < t := by simpa using le
      obtain ⟨span, later, contains⟩ := ih above
      exact ⟨span, List.mem_cons_of_mem _ later, contains⟩

/-- The number of cuts below a point: the index of its span. -/
def spanOf (cuts : List T) (t : T) : Nat := cuts.countP (fun cut => cut < t)

theorem spanOf_mono (cuts : List T) {t u : T} (le : t ≤ u) : spanOf cuts t ≤ spanOf cuts u :=
  List.countP_mono_left (fun _ _ below => by
    simp only [decide_eq_true_eq] at below ⊢
    exact below.trans_le le)

theorem spanOf_le_length (cuts : List T) (t : T) : spanOf cuts t ≤ cuts.length :=
  List.countP_le_length

private theorem spanOf_eq_zero {cuts : List T} {t : T} (above : ∀ cut ∈ cuts, t ≤ cut) :
    spanOf cuts t = 0 := by
  rw [spanOf, List.countP_eq_zero]
  intro cut member
  simpa using above cut member

private theorem not_contains_of_le {lo t : T} {cuts : List T} (le : t ≤ lo)
    (above : ∀ cut ∈ cuts, lo ≤ cut) (sorted : cuts.Pairwise (· ≤ ·)) :
    ∀ span ∈ spans (some lo) cuts, ¬ span.Contains t := by
  induction cuts generalizing lo with
  | nil =>
    intro span member contains
    rw [spans, List.mem_singleton] at member
    subst member
    exact not_lt.mpr le (contains.1 lo rfl)
  | cons cut rest ih =>
    intro span member
    rcases List.mem_cons.mp member with rfl | later
    · exact fun contains => not_lt.mpr le (contains.1 lo rfl)
    · exact ih (le.trans (above cut (by simp))) (fun _ => List.rel_of_pairwise_cons sorted)
        sorted.of_cons span later

/-- A point above `lo` lies in the span of its index and in no other. -/
theorem contains_iff {cuts : List T} (lo : Option T) (t : T) (start : ∀ a ∈ lo, a < t)
    (sorted : cuts.Pairwise (· ≤ ·)) (i : Nat) (h : i < (spans lo cuts).length) :
    (spans lo cuts)[i].Contains t ↔ i = spanOf cuts t := by
  induction cuts generalizing lo i with
  | nil =>
    have zero : i = 0 := by simpa using h
    subst zero
    simpa [spans, spanOf, Span.Contains] using start
  | cons cut rest ih =>
    have above : ∀ later ∈ rest, cut ≤ later := fun _ => List.rel_of_pairwise_cons sorted
    by_cases below : cut < t
    · have index : spanOf (cut :: rest) t = spanOf rest t + 1 := by simp [spanOf, below]
      rw [index]
      cases i with
      | zero => simp [spans, Span.Contains, below]
      | succ i =>
        have step := ih (some cut) (by simpa using below) sorted.of_cons i (by simpa using h)
        simpa [spans] using step
    · have le : t ≤ cut := not_lt.mp below
      have index : spanOf (cut :: rest) t = 0 := by
        apply spanOf_eq_zero
        intro other member
        rcases List.mem_cons.mp member with rfl | later
        · exact le
        · exact le.trans (above other later)
      rw [index]
      cases i with
      | zero => simpa [spans, Span.Contains, le] using start
      | succ i =>
        have outside := not_contains_of_le le above sorted.of_cons
          _ (List.getElem_mem (by simpa using h : i < (spans (some cut) rest).length))
        simpa [spans] using outside

private theorem lo_of_mem_spans {lo : T} {cuts : List T} (above : ∀ cut ∈ cuts, lo ≤ cut)
    (sorted : cuts.Pairwise (· ≤ ·)) {span : Span T} (member : span ∈ spans (some lo) cuts) :
    ∃ a ∈ span.lo, lo ≤ a := by
  induction cuts generalizing lo with
  | nil =>
    rw [spans, List.mem_singleton] at member
    exact ⟨lo, by rw [member]; rfl, le_rfl⟩
  | cons cut rest ih =>
    rcases List.mem_cons.mp member with rfl | later
    · exact ⟨lo, rfl, le_rfl⟩
    · obtain ⟨a, own, le⟩ := ih (fun _ => List.rel_of_pairwise_cons sorted) sorted.of_cons later
      exact ⟨a, own, (above cut (by simp)).trans le⟩

/-- No cut below a point lies above the lower end of its span. -/
theorem le_lo_of_contains {lo : Option T} {cuts : List T} (sorted : cuts.Pairwise (· ≤ ·))
    {span : Span T} (member : span ∈ spans lo cuts) {t : T} (contains : span.Contains t) :
    ∀ cut ∈ cuts, cut < t → ∃ a ∈ span.lo, cut ≤ a := by
  induction cuts generalizing lo with
  | nil => simp
  | cons first rest ih =>
    have above : ∀ later ∈ rest, first ≤ later := fun _ => List.rel_of_pairwise_cons sorted
    intro cut among below
    rcases List.mem_cons.mp member with rfl | later
    · have le : t ≤ first := contains.2 first rfl
      rcases List.mem_cons.mp among with rfl | rest_
      · exact absurd below (not_lt.mpr le)
      · exact absurd below (not_lt.mpr (le.trans (above cut rest_)))
    · rcases List.mem_cons.mp among with rfl | rest_
      · exact lo_of_mem_spans above sorted.of_cons later
      · exact ih sorted.of_cons later cut rest_ below

/-- What lies in a span is not above the lower end of any later span. -/
theorem pairwise_spans (lo : Option T) {cuts : List T} (sorted : cuts.Pairwise (· ≤ ·)) :
    (spans lo cuts).Pairwise (fun a b => ∀ t, a.Contains t → ∃ cut ∈ b.lo, t ≤ cut) := by
  induction cuts generalizing lo with
  | nil => exact List.pairwise_singleton _ _
  | cons cut rest ih =>
    rw [spans, List.pairwise_cons]
    refine ⟨?_, ih (some cut) sorted.of_cons⟩
    intro later member t contains
    obtain ⟨a, own, le⟩ := lo_of_mem_spans (fun _ => List.rel_of_pairwise_cons sorted)
      sorted.of_cons member
    exact ⟨a, own, (contains.2 cut rfl).trans le⟩

/-- Every point lies in exactly one span. -/
theorem existsUnique_contains {cuts : List T} (sorted : cuts.Pairwise (· ≤ ·)) (t : T) :
    ∃! i, ∃ h : i < (spans none cuts).length, (spans none cuts)[i].Contains t := by
  have bound : spanOf cuts t < (spans none cuts).length := by
    rw [length_spans]
    exact Nat.lt_succ_of_le (spanOf_le_length cuts t)
  refine ⟨spanOf cuts t, ⟨bound, ?_⟩, ?_⟩
  · exact (contains_iff none t (by simp) sorted _ bound).mpr rfl
  · intro i held
    obtain ⟨h, contains⟩ := held
    exact (contains_iff none t (by simp) sorted i h).mp contains

private theorem filter_split (key : α → T) (cut : T) (items : List α)
    (sorted : items.Pairwise (fun x y => key x ≤ key y)) :
    items.filter (fun x => key x ≤ cut) ++ items.filter (fun x => cut < key x) = items := by
  induction items with
  | nil => rfl
  | cons x rest ih =>
    by_cases le : key x ≤ cut
    · rw [List.filter_cons_of_pos (by simpa using le),
        List.filter_cons_of_neg (by simpa using le), List.cons_append, ih sorted.of_cons]
    · have above : ∀ y ∈ x :: rest, cut < key y := by
        intro y member
        rcases List.mem_cons.mp member with rfl | later
        · exact not_le.mp le
        · exact (not_le.mp le).trans_le (List.rel_of_pairwise_cons sorted later)
      have none_below : (x :: rest).filter (fun y => key y ≤ cut) = [] := by
        rw [List.filter_eq_nil_iff]
        intro y member
        simpa using above y member
      have all_above : (x :: rest).filter (fun y => cut < key y) = x :: rest := by
        rw [List.filter_eq_self]
        intro y member
        simpa using above y member
      rw [none_below, all_above, List.nil_append]

/-- The part of a list that lies in a span. -/
def part (key : α → T) (items : List α) (span : Span T) : List α :=
  items.filter (fun x => span.Contains (key x))

/-- The parts of a sorted list, span after span, are the list above `lo`. -/
theorem flatMap_parts (key : α → T) (items : List α) (lo : Option T) (cuts : List T)
    (sorted : items.Pairwise (fun x y => key x ≤ key y)) (start : ∀ a ∈ lo, ∀ cut ∈ cuts, a ≤ cut)
    (ordered : cuts.Pairwise (· ≤ ·)) :
    (spans lo cuts).flatMap (part key items) = items.filter (fun x => ∀ a ∈ lo, a < key x) := by
  induction cuts generalizing lo with
  | nil => simp [spans, part, Span.Contains]
  | cons cut rest ih =>
    have above : ∀ later ∈ rest, cut ≤ later := fun _ => List.rel_of_pairwise_cons ordered
    rw [spans, List.flatMap_cons, ih (some cut) (by simpa using above) ordered.of_cons]
    rw [← filter_split key cut (items.filter (fun x => ∀ a ∈ lo, a < key x)) (sorted.filter _)]
    rw [List.filter_filter, List.filter_filter]
    congr 1
    · apply List.filter_congr
      intro x _
      simp [Span.Contains, and_comm]
    · apply List.filter_congr
      intro x _
      -- the cut lies above `lo`, so what is above the cut is above `lo`
      have chained : cut < key x → ∀ a ∈ lo, a < key x :=
        fun below a member => (start a member cut (by simp)).trans_lt below
      by_cases below : cut < key x
      · simpa [below] using chained below
      · simp [below]

/-- Cutting a sorted list at sorted cuts loses nothing, repeats nothing and keeps the order. -/
theorem flatMap_parts_all (key : α → T) (items : List α) (cuts : List T)
    (sorted : items.Pairwise (fun x y => key x ≤ key y)) (ordered : cuts.Pairwise (· ≤ ·)) :
    (spans none cuts).flatMap (part key items) = items := by
  rw [flatMap_parts key items none cuts sorted (by simp) ordered, List.filter_eq_self]
  simp

end LttngParallelAnalyses.Lib.Cuts
