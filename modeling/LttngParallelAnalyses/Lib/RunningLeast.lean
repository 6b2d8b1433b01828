import Mathlib

/-! A running minimum that starts from a value which also means that nothing has been seen.
The value is below all others, so the run is exact unless that value is among the items. -/

namespace LttngParallelAnalyses.Lib.RunningLeast

variable {T : Type*} [LinearOrder T] {unset : T}

def keep (unset least t : T) : T := if t < least ∨ least = unset then t else least

def least (unset : T) (items : List T) : T := items.foldl (keep unset) unset

theorem least_concat (items : List T) (t : T) :
    least unset (items ++ [t]) = keep unset (least unset items) t := List.foldl_concat ..

theorem keep_unset (bottom : ∀ t, unset ≤ t) (l : T) : keep unset l unset = unset := by
  by_cases fresh : l = unset
  · simp [keep, fresh]
  · have above : unset < l := lt_of_le_of_ne (bottom l) (Ne.symm fresh)
    simp [keep, above]

theorem keep_of_set {l : T} (seen : l ≠ unset) (t : T) : keep unset l t = min l t := by
  by_cases below : t < l
  · simp [keep, below, below.le]
  · simp [keep, below, seen, not_lt.mp below]

/-- The run ends unset exactly where its last item is the value that means unset. -/
theorem least_eq_unset_iff (bottom : ∀ t, unset ≤ t) {items : List T} (nonempty : items ≠ []) :
    least unset items = unset ↔ items.getLast? = some unset := by
  obtain ⟨before, last, rfl⟩ := (List.eq_nil_or_concat' items).resolve_left nonempty
  rw [least_concat, List.getLast?_concat, Option.some.injEq]
  constructor
  · intro result
    unfold keep at result
    split at result
    · exact result
    · rename_i kept
      exact absurd (Or.inr result) kept
  · intro same
    rw [same, keep_unset bottom]

theorem isLeast_of_set {items : List T} (nonempty : items ≠ []) (seen : ∀ t ∈ items, t ≠ unset) :
    IsLeast {t | t ∈ items} (least unset items) := by
  induction items using List.reverseRecOn with
  | nil => exact absurd rfl nonempty
  | append_singleton before last ih =>
    rw [least_concat]
    by_cases first : before = []
    · subst first
      simp [least, keep, IsLeast]
    · have earlier := ih first (fun t member => seen t (List.mem_append_left _ member))
      rw [keep_of_set (seen _ (List.mem_append_left _ earlier.1))]
      have joined : {t | t ∈ before ++ [last]} = insert last {t | t ∈ before} := by
        ext t
        simp [or_comm]
      rw [joined, min_comm]
      exact earlier.insert last

/-- The run stays at a first item that is below the others. -/
theorem least_cons_of_set {first : T} {rest : List T} (seen : ∀ t ∈ first :: rest, t ≠ unset)
    (lowest : ∀ t ∈ rest, first ≤ t) : least unset (first :: rest) = first := by
  apply (isLeast_of_set (List.cons_ne_nil first rest) seen).unique
  refine ⟨List.mem_cons_self, ?_⟩
  intro t member
  rcases List.mem_cons.mp member with rfl | later
  · exact le_rfl
  · exact lowest t later

/-- The run is exact where the value that means unset is not among the items, or comes last. -/
theorem isLeast_iff (bottom : ∀ t, unset ≤ t) {items : List T} (nonempty : items ≠ []) :
    IsLeast {t | t ∈ items} (least unset items) ↔
      (∀ t ∈ items, t ≠ unset) ∨ items.getLast? = some unset := by
  constructor
  · intro exact_
    by_cases present : unset ∈ items
    · have result : least unset items = unset := le_antisymm (exact_.2 present) (bottom _)
      exact Or.inr ((least_eq_unset_iff bottom nonempty).mp result)
    · exact Or.inl (fun t member same => present (same ▸ member))
  · intro either
    rcases either with seen | last
    · exact isLeast_of_set nonempty seen
    · rw [(least_eq_unset_iff bottom nonempty).mpr last]
      exact ⟨List.mem_of_mem_getLast? last, fun t _ => bottom t⟩

/-- In every order of the items the run over their keys is exact, where the keys have all been
set or none of them. -/
theorem isLeast_perm_iff {α : Type*} (key : α → T) (bottom : ∀ t, unset ≤ t) {items : List α}
    (nonempty : items ≠ []) :
    (∀ order : List α, order.Perm items →
        IsLeast {t | t ∈ order.map key} (least unset (order.map key))) ↔
      (∀ a ∈ items, key a ≠ unset) ∨ ∀ a ∈ items, key a = unset := by
  have some_key : ∀ order : List α, order.Perm items → order.map key ≠ [] := by
    intro order perm empty
    obtain rfl := List.map_eq_nil_iff.mp empty
    exact nonempty (List.nil_perm.mp perm)
  constructor
  · intro every
    by_cases mixed : ∃ a ∈ items, key a = unset
    · right
      intro last member
      -- an order in which this item comes last
      obtain ⟨before, after, rfl⟩ := List.append_of_mem member
      have perm : (before ++ after ++ [last]).Perm (before ++ last :: after) := by
        rw [List.append_assoc]
        exact (List.perm_append_singleton last after).append_left before
      have run := every _ perm
      rw [isLeast_iff bottom (some_key _ perm)] at run
      rcases run with seen | own
      · obtain ⟨a, inside, same⟩ := mixed
        exact absurd same (seen _ (List.mem_map_of_mem (perm.mem_iff.mpr inside)))
      · simpa using own
    · exact Or.inl (fun a member same => mixed ⟨a, member, same⟩)
  · intro either order perm
    rw [isLeast_iff bottom (some_key order perm)]
    rcases either with seen | unset_
    · left
      rw [List.forall_mem_map]
      exact fun a member => seen a (perm.mem_iff.mp member)
    · obtain ⟨last, own, same⟩ := List.mem_map.mp (List.getLast_mem (some_key order perm))
      rw [List.getLast?_eq_some_getLast (some_key order perm), ← same,
        unset_ last (perm.mem_iff.mp own)]
      exact Or.inr rfl

end LttngParallelAnalyses.Lib.RunningLeast
