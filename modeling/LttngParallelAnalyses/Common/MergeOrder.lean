import LttngParallelAnalyses.Common.Coverage
import LttngParallelAnalyses.Lib.UnstableSort

/-! The order in which workers are merged in balanced mode. Of two workers of one stream that
both hold something, the one with the earlier events has the smaller begin, so every order
sorted by begin keeps the workers of a stream in time order. -/

namespace LttngParallelAnalyses
open Lib Lib.UnstableSort

/-- The begin of a worker; a worker without one comes before all others. -/
def beginKey (worker : TraceWorker) : WithBot Timestamp := worker.beginPos.elim ⊥ (↑)

@[simp] theorem beginKey_new_some (id : Nat) (set : TraceSet) (cut : Timestamp)
    (end_ : Option Timestamp) :
    beginKey (TraceWorker.new id set (some cut) end_) = ((cut + 1 : Timestamp) : WithBot Timestamp) :=
  rfl

theorem beginsBefore_iff {a b : TraceWorker} : beginsBefore a b = true ↔ beginKey a < beginKey b := by
  unfold beginsBefore beginKey
  cases b.beginPos with
  | none => simp
  | some second => cases a.beginPos <;> simp

theorem beginsBefore_eq_false {a b : TraceWorker} :
    beginsBefore a b = false ↔ beginKey b ≤ beginKey a := by
  rw [← Bool.not_eq_true, beginsBefore_iff, not_lt]

theorem beginsBefore_asymm (a b : TraceWorker) (lt : beginsBefore a b = true) :
    beginsBefore b a = false :=
  beginsBefore_eq_false.mpr (beginsBefore_iff.mp lt).le

theorem beginsBefore_trans (a b c : TraceWorker) (le : beginsBefore b a = false)
    (le' : beginsBefore c b = false) : beginsBefore c a = false := by
  rw [beginsBefore_eq_false] at le le' ⊢
  exact le.trans le'

theorem sortedByBegin_iff {workers order : List TraceWorker} :
    SortedByBegin workers order ↔ SortedBy beginsBefore workers order := Iff.rfl

theorem beginKey_lt_iff {a b : TraceWorker} {lo lo' : Option Timestamp}
    (begins : a.beginPos = lo.map (· + 1)) (begins' : b.beginPos = lo'.map (· + 1))
    (below : ∀ cut ∈ lo, cut < maxTimestamp) (below' : ∀ cut ∈ lo', cut < maxTimestamp) :
    beginKey a < beginKey b ↔ ∃ cut ∈ lo', ∀ start ∈ lo, start < cut := by
  unfold beginKey
  rw [begins, begins']
  cases lo' with
  | none => simp
  | some cut =>
    cases lo with
    | none => simp
    | some start =>
      have next : start + 1 < cut + 1 ↔ start < cut := by
        rw [← not_le, add_one_le_iff (below' cut rfl), not_lt, add_one_le_iff (below start rfl)]
      calc ((start + 1 : Timestamp) : WithBot Timestamp) < ((cut + 1 : Timestamp) :)
          ↔ start + 1 < cut + 1 := WithBot.coe_lt_coe
        _ ↔ start < cut := next
        _ ↔ _ := by simp

/-- A worker of a stream processes what lies between two cuts. -/
theorem exists_span {trace : TraceSet} {cuts : List Timestamp} {worker : TraceWorker}
    (member : worker ∈ streamWorkers trace cuts) :
    ∃ span ∈ Cuts.spans none cuts,
      worker.beginPos = span.lo.map (· + 1) ∧ worker.endPos = span.hi := by
  rw [streamWorkers_eq] at member
  obtain ⟨i, inside, rfl⟩ := List.mem_mapIdx.mp member
  exact ⟨_, List.getElem_mem inside, rfl, rfl⟩

/-- Two workers of one stream that hold a timestamp each: the earlier has the smaller begin. -/
theorem streamWorkers_pairwise (trace : TraceSet) {cuts : List Timestamp}
    (cutting : Cutting cuts) :
    (streamWorkers trace cuts).Pairwise (fun a b => ∀ t t',
      Within a.beginPos a.endPos t → Within b.beginPos b.endPos t' →
        beginsBefore a b = true ∧ t < t') := by
  have spans := Cuts.pairwise_spans none cutting.ordered
  rw [List.pairwise_iff_getElem] at spans ⊢
  rw [streamWorkers_eq]
  intro i j hi hj later t t' within within'
  rw [List.length_mapIdx] at hi hj
  rw [List.getElem_mapIdx] at within within' ⊢
  rw [List.getElem_mapIdx]
  have small := spans_below cutting (List.getElem_mem hi)
  have small' := spans_below cutting (List.getElem_mem hj)
  have inside : (Cuts.spans none cuts)[i].Contains t := (within_iff _ small t).mp within
  have inside' : (Cuts.spans none cuts)[j].Contains t' := (within_iff _ small' t').mp within'
  obtain ⟨cut, own, le⟩ := spans i j hi hj later t inside
  refine ⟨?_, le.trans_lt (inside'.1 cut own)⟩
  have second : (Cuts.spans none cuts)[j].lo = some cut := own
  rw [beginsBefore_iff, second, beginKey_new_some]
  cases first : (Cuts.spans none cuts)[i].lo with
  | none => exact WithBot.bot_lt_coe _
  | some start =>
    have before : start < cut := (inside.1 start first).trans_le le
    have next : start + 1 ≤ cut := (add_one_le_iff (small start first)).mpr before
    have after : cut < cut + 1 := (add_one_le_iff (small' cut own)).mp le_rfl
    exact WithBot.coe_lt_coe.mpr (next.trans_lt after)

end LttngParallelAnalyses
