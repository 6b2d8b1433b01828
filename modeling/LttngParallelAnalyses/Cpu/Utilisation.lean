import LttngParallelAnalyses.Cpu.Chunked

/-! The utilisation of a CPU. A chunk that says how the task left open before it ended is
accounted for like a part of a serial pass, and then no CPU is busy for longer than the trace.
Where the first switch of the chunk is from idle, or a later one brings up a task that no
switch started, `merge` keeps the old task open or closes it too late. -/

namespace LttngParallelAnalyses
open Lib Lib.Tables Lib.Adjacent
open CpuContext

theorem busyTime_le {events : List EventValue} {begin_ end_ : Timestamp}
    (sorted : TimeSorted events) (begun : ∀ event ∈ events, begin_ ≤ event.timestamp)
    (ended : ∀ event ∈ events, event.timestamp ≤ end_) :
    (busyTime end_ events).toNat ≤ end_.toNat - begin_.toNat := by
  rw [busyTime_toNat sorted ended]
  cases events with
  | nil => exact Nat.zero_le _
  | cons first rest =>
    have fits := busyNs_le first rest sorted ended
    have start : begin_.toNat ≤ first.timestamp.toNat := begun first (by simp)
    omega

theorem AccountsCpus.cpuNs_le {ctx : CpuContext} {events : List EventValue} {begin_ : Timestamp}
    (accounts : ctx.AccountsCpus events) (sorted : TimeSorted events)
    (begun : ∀ event ∈ events, begin_ ≤ event.timestamp)
    (ended : ∀ event ∈ events, event.timestamp ≤ ctx.end_) :
    ∀ c ∈ ctx.handleEnd.cpus, c.cpuNs.toNat ≤ ctx.end_.toNat - begin_.toNat := by
  intro c member
  have found : ctx.handleEnd.find c.id = some c :=
    find_of_mem (distinct_handleEnd accounts.distinct) member
  have reported := accounts.handleEnd_cpuNs c.id
  rw [found, Option.map_some] at reported
  by_cases absent : onCpu c.id events = []
  · simp [absent] at reported
  · rw [if_neg absent, Option.some.injEq] at reported
    rw [reported]
    apply busyTime_le (onCpu_sorted sorted c.id) _ (onCpu_ended ended c.id)
    exact fun event inside => begun event (mem_onCpu.mp inside).1

theorem le_mergedEnd (traceEnd : Timestamp) (cuts : List Timestamp) :
    traceEnd ≤ mergedEnd traceEnd cuts := le_max_right _ _

/-- Where every chunk closes the tasks left open before it, no CPU is busy for longer than
the trace lasts. -/
theorem utilisation_le_duration (events : List EventValue) (cuts : List Timestamp)
    (begin_ end_ : Timestamp) (sorted : TimeSorted events)
    (begun : ∀ event ∈ events, begin_ ≤ event.timestamp)
    (ended : ∀ event ∈ events, event.timestamp ≤ end_) (ordered : cuts.Pairwise (· ≤ ·))
    (handed : HandedOver ((cutInto events begin_ end_ cuts).map Chunk.events)) :
    (∀ c ∈ (reduce (cutInto events begin_ end_ cuts)).handleEnd.cpus,
      c.cpuNs.toNat ≤ (mergedEnd end_ cuts).toNat - begin_.toNat) ∧
    ((∀ cut ∈ cuts, cut ≤ end_) →
      ∀ c ∈ (reduce (cutInto events begin_ end_ cuts)).handleEnd.cpus,
        c.cpuNs.toNat ≤ end_.toNat - begin_.toNat) := by
  have accounts := reduce_accountsCpus (cutInto events begin_ end_ cuts) handed
  rw [cutInto_events begin_ end_ sorted ordered] at accounts
  have closed := reduce_cutInto_end events begin_ end_ cuts
  have bounded := AccountsCpus.cpuNs_le accounts sorted begun (by
    rw [closed]
    exact fun event member => (ended event member).trans (le_mergedEnd end_ cuts))
  rw [closed] at bounded
  refine ⟨bounded, fun inside => ?_⟩
  rwa [mergedEnd_eq inside] at bounded

/-- In a chained trace every chunk closes the tasks left open before it. -/
theorem handedOver_of_chained {chunks : List (List EventValue)} (chained : Chained chunks.flatten) :
    HandedOver chunks := by
  intro before chunk after same cpu
  subst same
  apply handover_of_chained
  intro other
  have chain := chained other
  rw [List.flatten_append, List.flatten_cons, ← List.append_assoc, onCpu_append] at chain
  exact chain.left_of_append

theorem handedOver_longTask : HandedOver ((cutInto longTask 0 100 [20, 50]).map Chunk.events) := by
  apply handedOver_of_chained
  rw [← List.flatMap_def, cutInto_events 0 100 (by decide) (by decide)]
  decide

theorem utilisation_le_duration_longTask :
    HandedOver ((cutInto longTask 0 100 [20, 50]).map Chunk.events) ∧
      ∀ c ∈ (reduce (cutInto longTask 0 100 [20, 50])).handleEnd.cpus,
        c.cpuNs.toNat ≤ (100 : Timestamp).toNat - (0 : Timestamp).toNat :=
  ⟨handedOver_longTask, (utilisation_le_duration longTask [20, 50] 0 100 (by decide) (by decide)
    (by decide) (by decide) handedOver_longTask).2 (by simp)⟩

/-- The event that ended task 5 was lost. -/
def lostSwitchOut : List EventValue :=
  [{ timestamp := 10, nextTid := 5 }, { timestamp := 20, nextTid := 6 },
    { timestamp := 90, prevTid := 6 }]

/-- With a cut at 15, the CPU is busy for 160 ns out of 100. -/
theorem utilisation_exceeds_duration :
    ¬ ∀ (events : List EventValue) (cuts : List Timestamp) (begin_ end_ : Timestamp),
      TimeSorted events → (∀ event ∈ events, begin_ ≤ event.timestamp) →
      (∀ event ∈ events, event.timestamp ≤ end_) → cuts.Pairwise (· ≤ ·) →
      (∀ cut ∈ cuts, begin_ ≤ cut ∧ cut ≤ end_) →
      ∀ c ∈ (reduce (cutInto events begin_ end_ cuts)).handleEnd.cpus,
        c.cpuNs.toNat ≤ end_.toNat - begin_.toNat := by
  intro claimed
  have wrong := claimed lostSwitchOut [15] 0 100 (by decide) (by decide) (by decide) (by decide)
    (by simp)
  revert wrong
  decide

end LttngParallelAnalyses
