import Mathlib

/-! Splitting a list by weight. Items are added to an open chunk, which is closed by the item with
which it reaches a threshold, and begins anew; the last item closes what is still open. Every
chunk but the last reaches the threshold, and none goes beyond it by more than one item. -/

namespace LttngParallelAnalyses.Lib.Greedy

variable {α M : Type*} [AddCommMonoid M]

def total (size : α → M) (items : List α) : M := (items.map size).sum

section Total
variable (size : α → M)

@[simp] theorem total_append (first second : List α) :
    total size (first ++ second) = total size first + total size second := by
  simp [total]

@[simp] theorem total_singleton (a : α) : total size [a] = size a := by
  simp [total]

theorem total_flatten (chunks : List (List α)) :
    total size chunks.flatten = (chunks.map (total size)).sum := by
  induction chunks with
  | nil => rfl
  | cons chunk rest ih => rw [List.flatten_cons, total_append, ih, List.map_cons, List.sum_cons]

end Total

variable [LinearOrder M]

/-- The chunks that are closed, and the items that stay open. -/
def close (size : α → M) (threshold : M) : List α → List α → List (List α) × List α
  | opened, [] => ([], opened)
  | opened, a :: rest =>
    if threshold ≤ total size (opened ++ [a]) then
      let later := close size threshold [] rest
      ((opened ++ [a]) :: later.1, later.2)
    else close size threshold (opened ++ [a]) rest

/-- The split of some items and a last one. -/
def split (size : α → M) (threshold : M) (items : List α) (last : α) : List (List α) :=
  let closed := close size threshold [] items
  closed.1 ++ [closed.2 ++ [last]]

/-- A chunk that reaches the threshold with its last item, if at all. -/
def Tight (size : α → M) (threshold : M) (chunk : List α) : Prop :=
  chunk.length = 1 ∨ total size chunk.dropLast < threshold

variable {size : α → M} {threshold : M}

/-- What stays open has not reached the threshold. -/
def Below (size : α → M) (threshold : M) (opened : List α) : Prop :=
  opened = [] ∨ total size opened < threshold

theorem Below.tight {opened : List α} (below : Below size threshold opened) (a : α) :
    Tight size threshold (opened ++ [a]) := by
  rcases below with rfl | small
  · exact Or.inl rfl
  · exact Or.inr (by rwa [List.dropLast_concat])

theorem close_flatten (opened items : List α) :
    (close size threshold opened items).1.flatten ++ (close size threshold opened items).2 =
      opened ++ items := by
  induction items generalizing opened with
  | nil => simp [close]
  | cons a rest ih =>
    unfold close
    split_ifs
    · rw [List.flatten_cons, List.append_assoc, ih, List.nil_append, List.append_assoc,
        List.singleton_append]
    · rw [ih, List.append_assoc, List.singleton_append]

theorem close_below {opened : List α} (below : Below size threshold opened) (items : List α) :
    Below size threshold (close size threshold opened items).2 := by
  induction items generalizing opened with
  | nil => exact below
  | cons a rest ih =>
    unfold close
    split_ifs with full
    · exact ih (Or.inl rfl)
    · exact ih (Or.inr (not_le.mp full))

theorem close_chunks {opened : List α} (below : Below size threshold opened) (items : List α) :
    ∀ chunk ∈ (close size threshold opened items).1,
      chunk ≠ [] ∧ threshold ≤ total size chunk ∧ Tight size threshold chunk := by
  induction items generalizing opened with
  | nil => simp [close]
  | cons a rest ih =>
    unfold close
    split_ifs with full
    · intro chunk member
      rcases List.mem_cons.mp member with rfl | later
      · exact ⟨by simp, full, below.tight a⟩
      · exact ih (Or.inl rfl) chunk later
    · exact ih (Or.inr (not_le.mp full))

/-- A split into chunks that are balanced around a threshold. -/
structure Balanced (size : α → M) (threshold : M) (items : List α) (chunks : List (List α)) :
    Prop where
  flatten : chunks.flatten = items
  nonempty : ∀ chunk ∈ chunks, chunk ≠ []
  reached : ∀ chunk ∈ chunks.dropLast, threshold ≤ total size chunk
  tight : ∀ chunk ∈ chunks, Tight size threshold chunk

theorem balanced_split (size : α → M) (threshold : M) (items : List α) (last : α) :
    Balanced size threshold (items ++ [last]) (split size threshold items last) := by
  have closed := close_chunks (Or.inl rfl : Below size threshold []) items
  have opened := close_below (Or.inl rfl : Below size threshold []) items
  constructor
  · have whole : (close size threshold [] items).1.flatten ++ (close size threshold [] items).2 =
        items := close_flatten [] items
    rw [split, List.flatten_append, List.flatten_singleton, ← List.append_assoc, whole]
  · intro chunk member
    rcases List.mem_append.mp member with early | final
    · exact (closed chunk early).1
    · rw [List.mem_singleton.mp final]
      simp
  · rw [split, List.dropLast_concat]
    exact fun chunk member => (closed chunk member).2.1
  · intro chunk member
    rcases List.mem_append.mp member with early | final
    · exact (closed chunk early).2.2
    · rw [List.mem_singleton.mp final]
      exact opened.tight last

namespace Balanced
variable {items : List α} {chunks : List (List α)}

theorem length_le (balanced : Balanced size threshold items chunks) :
    chunks.length ≤ items.length := by
  have each : ∀ chunks : List (List α), (∀ chunk ∈ chunks, chunk ≠ []) →
      chunks.length ≤ chunks.flatten.length := by
    intro chunks nonempty
    induction chunks with
    | nil => simp
    | cons chunk rest ih =>
      have later := ih (fun other member => nonempty other (List.mem_cons_of_mem _ member))
      have here := List.length_pos_iff.mpr (nonempty chunk List.mem_cons_self)
      rw [List.length_cons, List.flatten_cons, List.length_append]
      omega
  rw [← balanced.flatten]
  exact each chunks balanced.nonempty

variable [IsOrderedAddMonoid M] [CanonicallyOrderedAdd M]

/-- A chunk exceeds the threshold by at most its last item. -/
theorem total_le (balanced : Balanced size threshold items chunks) :
    ∀ chunk ∈ chunks, ∃ a ∈ items, total size chunk ≤ threshold + size a := by
  intro chunk member
  obtain ⟨before, last, rfl⟩ :=
    (List.eq_nil_or_concat' chunk).resolve_left (balanced.nonempty chunk member)
  refine ⟨last, ?_, ?_⟩
  · rw [← balanced.flatten]
    exact List.mem_flatten.mpr ⟨_, member, by simp⟩
  · rw [total_append, total_singleton]
    apply add_le_add_left
    rcases balanced.tight _ member with single | small
    · obtain rfl : before = [] := by simpa using single
      exact zero_le
    · rw [List.dropLast_concat] at small
      exact small.le

/-- The chunks before the last reach the threshold together. -/
theorem nsmul_le (balanced : Balanced size threshold items chunks) :
    (chunks.length - 1) • threshold ≤ total size items := by
  have each := List.card_nsmul_le_sum (chunks.dropLast.map (total size)) threshold (by
    intro sum member
    obtain ⟨chunk, inside, rfl⟩ := List.mem_map.mp member
    exact balanced.reached chunk inside)
  rw [List.length_map, List.length_dropLast] at each
  refine each.trans ?_
  rw [← balanced.flatten, total_flatten]
  rcases List.eq_nil_or_concat' chunks with rfl | ⟨before, last, rfl⟩
  · simp
  · simp

end Balanced

end LttngParallelAnalyses.Lib.Greedy
