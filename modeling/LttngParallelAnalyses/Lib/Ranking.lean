import Mathlib

/-! Lists ranked by decreasing scores, and what does not depend on the order of equal scores: the
scores in each place, and who is among the first ones whatever the ties. A stable ranking by a second
score keeps the first one as its tie-break. -/

namespace LttngParallelAnalyses.Lib.Ranking

variable {α β K : Type*} [LinearOrder K]

def Ranked (score : α → K) (l : List α) : Prop := l.Pairwise (fun a b => score b ≤ score a)

/-- The stable ranking of a list. -/
def rank (score : α → K) (l : List α) : List α := l.insertionSort (fun a b => score b ≤ score a)

section Ranked
variable {score : α → K} {l l' : List α}

theorem rank_perm (score : α → K) (l : List α) : (rank score l).Perm l :=
  List.perm_insertionSort _ l

theorem ranked_rank (score : α → K) (l : List α) : Ranked score (rank score l) := by
  have total : Std.Total (fun a b : α => score b ≤ score a) :=
    ⟨fun a b => le_total (score b) (score a)⟩
  have trans : IsTrans α (fun a b => score b ≤ score a) := ⟨fun _ _ _ le le' => le'.trans le⟩
  exact List.pairwise_insertionSort _ l

theorem rank_map (score : β → K) (f : α → β) (l : List α) :
    rank score (l.map f) = (rank (fun a => score (f a)) l).map f :=
  (List.map_insertionSort _ _ f l (fun _ _ _ _ => Iff.rfl)).symm

/-- Two rankings of the same scores have the same scores in every place. -/
theorem Ranked.map_eq {score' : β → K} {m : List β} (ranked : Ranked score l)
    (ranked' : Ranked score' m) (same : (l.map score).Perm (m.map score')) :
    l.map score = m.map score' := by
  have column : (l.map score).Pairwise (fun a b => b ≤ a) := List.pairwise_map.mpr ranked
  have column' : (m.map score').Pairwise (fun a b => b ≤ a) := List.pairwise_map.mpr ranked'
  refine List.Perm.eq_of_pairwise ?_ column column' same
  intro a b _ _ le ge
  exact le_antisymm ge le

theorem Ranked.take_map_eq {score' : β → K} {m : List β} (ranked : Ranked score l)
    (ranked' : Ranked score' m) (same : (l.map score).Perm (m.map score')) (n : ℕ) :
    (l.take n).map score = (m.take n).map score' := by
  rw [List.map_take, List.map_take, ranked.map_eq ranked' same]

/-- The number of those whose score is at least the one given. -/
def standing (score : α → K) (k : K) (l : List α) : ℕ := l.countP (fun b => k ≤ score b)

theorem standing_perm (perm : l.Perm l') (k : K) : standing score k l = standing score k l' :=
  perm.countP_eq _

theorem standing_map (score : β → K) (f : α → β) (k : K) (l : List α) :
    standing score k (l.map f) = standing (fun a => score (f a)) k l := List.countP_map

/-- Who is among the first `n` when all ties are lost is among them in every ranking. -/
theorem Ranked.mem_take (ranked : Ranked score l) {a : α} (member : a ∈ l) {n : ℕ}
    (high : standing score (score a) l ≤ n) : a ∈ l.take n := by
  by_contra outside
  have split := List.take_append_drop n l
  have later : a ∈ l.drop n := by
    rw [← split, List.mem_append] at member
    exact member.resolve_left outside
  have full : (l.take n).length = n := by
    rw [List.length_take, min_eq_left]
    by_contra short
    rw [List.drop_eq_nil_of_le (by omega)] at later
    cases later
  have above : ∀ b ∈ l.take n, score a ≤ score b := by
    rw [← split] at ranked
    exact fun b early => (List.pairwise_append.mp ranked).2.2 b early a later
  have all_early : (l.take n).countP (fun b => score a ≤ score b) = n :=
    (List.countP_eq_length.mpr (fun b early => decide_eq_true (above b early))).trans full
  have one_later : 0 < (l.drop n).countP (fun b => score a ≤ score b) :=
    List.countP_pos_iff.mpr ⟨a, later, decide_eq_true le_rfl⟩
  have sum : standing score (score a) l = n + (l.drop n).countP (fun b => score a ≤ score b) := by
    rw [standing, ← split, List.countP_append, split, all_early]
  omega

end Ranked

/-! ## Ties -/

section Ties
variable (first second : α → K)

/-- Both scores, the second one counting first. -/
def paired (a : α) : K ×ₗ K := toLex (second a, first a)

theorem orderedInsert_congr {r s : α → α → Prop} [DecidableRel r] [DecidableRel s] {a : α}
    {l : List α} (same : ∀ b ∈ l, r a b ↔ s a b) :
    l.orderedInsert r a = l.orderedInsert s a := by
  induction l with
  | nil => rfl
  | cons b rest ih =>
    rw [List.forall_mem_cons] at same
    rw [List.orderedInsert_cons, List.orderedInsert_cons, ih same.2]
    by_cases before : r a b
    · rw [if_pos before, if_pos (same.1.mp before)]
    · rw [if_neg before, if_neg (fun s => before (same.1.mpr s))]

theorem paired_le_iff {a b : α} (le : first b ≤ first a) :
    second b ≤ second a ↔ paired first second b ≤ paired first second a := by
  rw [paired, paired, Prod.Lex.toLex_le_toLex]
  constructor
  · intro below
    exact below.lt_or_eq.imp_right (fun same => ⟨same, le⟩)
  · intro lex
    exact lex.elim le_of_lt (fun both => both.1.le)

/-- Ranking by a second score what is ranked by a first one is ranking by both. -/
theorem rank_rank {l : List α} (ranked : Ranked first l) :
    rank second l = rank (paired first second) l := by
  induction l with
  | nil => rfl
  | cons a rest ih =>
    obtain ⟨below, later⟩ := List.pairwise_cons.mp ranked
    rw [rank, rank, List.insertionSort_cons, List.insertionSort_cons, ← rank, ← rank, ih later]
    apply orderedInsert_congr
    intro b member
    exact paired_le_iff first second (below b ((rank_perm _ rest).mem_iff.mp member))

theorem ranked_rank_rank (l : List α) :
    Ranked (paired first second) (rank second (rank first l)) := by
  rw [rank_rank first second (ranked_rank first l)]
  exact ranked_rank _ _

end Ties

end LttngParallelAnalyses.Lib.Ranking
