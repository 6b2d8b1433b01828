import LttngParallelAnalyses.Cpu.Accounts

/-! The times in a straddle. The start of an open task is the time of an event handled before
on that CPU, and the end of an unknown task that of an event of the chunk, chained or not. So
where the chunks of every CPU are merged in time order, no subtraction of `merge` wraps. -/

namespace LttngParallelAnalyses
open Lib Lib.Tables Lib.KeyedFold

/-- On every CPU, no event of the first list is later than one of the second. -/
def OrderedOnCpus (first second : List EventValue) : Prop :=
  ∀ cpu, ∀ event ∈ onCpu cpu first, ∀ event' ∈ onCpu cpu second,
    event.timestamp ≤ event'.timestamp

namespace CpuContext

/-- Every open task was started by one of the events. -/
def OpenedBy (ctx : CpuContext) (events : List EventValue) : Prop :=
  ∀ cpu task, (ctx.find cpu).bind (·.currentTask) = some task →
    ∃ event ∈ onCpu cpu events, task.start = event.timestamp

theorem lastTask_start {events : List EventValue} {task : Task}
    (running : lastTask events = some task) : ∃ event ∈ events, task.start = event.timestamp := by
  obtain ⟨last, inside, started⟩ := Option.bind_eq_some_iff.mp running
  refine ⟨last, List.mem_of_mem_getLast? inside, ?_⟩
  unfold taskAfter at started
  by_cases idle : last.nextTid = 0
  · simp [idle] at started
  · rw [if_pos idle, Option.some.injEq] at started
    rw [← started]

theorem record_unknown_end {events : List EventValue} {task : Task}
    (unknown : (record events).bind (·.unknownTask) = some task) :
    ∃ event ∈ events, task.end_ = event.timestamp := by
  induction events using List.reverseRecOn with
  | nil => cases unknown
  | append_singleton events event ih =>
    rw [record_unknownTask_concat] at unknown
    split at unknown
    · rw [Option.some.injEq] at unknown
      exact ⟨event, by simp, by rw [← unknown]⟩
    · obtain ⟨earlier, member, same⟩ := ih unknown
      exact ⟨earlier, List.mem_append_left _ member, same⟩

variable {ctx : CpuContext} {events chunk : List EventValue} {start end_ : Timestamp}

theorem OpenedBy.merge (opened : ctx.OpenedBy events) :
    (ctx.merge (ofEvents chunk start end_)).OpenedBy (events ++ chunk) := by
  intro cpu task running
  rw [find_merge ctx _ (distinct_ofEvents chunk start end_), find_ofEvents] at running
  rw [onCpu_append]
  have kept : (ctx.find cpu).bind (·.currentTask) = some task →
      ∃ event ∈ onCpu cpu events ++ onCpu cpu chunk, task.start = event.timestamp := by
    intro own
    obtain ⟨event, member, same⟩ := opened cpu task own
    exact ⟨event, List.mem_append_left _ member, same⟩
  cases here : record (onCpu cpu chunk) with
  | none =>
    rw [here, Option.elim_none] at running
    exact kept running
  | some otherCpu =>
    rw [here, Option.elim_some, Option.bind_some, fixCpu_currentTask, addTime_currentTask]
      at running
    split at running
    · exact kept running
    · have last := record_currentTask (onCpu cpu chunk)
      rw [here, Option.bind_some, running] at last
      obtain ⟨event, member, same⟩ := lastTask_start last.symm
      exact ⟨event, List.mem_append_right _ member, same⟩

/-- Of the straddles that a merge handles none ends before it starts. -/
theorem straddles_ordered (opened : ctx.OpenedBy events) (ordered : OrderedOnCpus events chunk) :
    ∀ s ∈ straddles ctx (ofEvents chunk start end_), s.current.start ≤ s.unknown.end_ := by
  intro s logged
  rw [mem_straddles (distinct_ofEvents chunk start end_), find_ofEvents] at logged
  obtain ⟨running, told⟩ := logged
  obtain ⟨event, inside, began⟩ := opened s.cpu s.current running
  obtain ⟨event', inside', closed⟩ := record_unknown_end told
  rw [began, closed]
  exact ordered s.cpu event inside event' inside'

/-- Over a whole reduction of chunks in time order, no straddle ends before it starts. -/
theorem reduceStraddles_ordered (chunks : List Chunk) (opened : ctx.OpenedBy events)
    (before : ∀ chunk ∈ chunks, OrderedOnCpus events chunk.events)
    (ordered : chunks.Pairwise (fun first second => OrderedOnCpus first.events second.events)) :
    ∀ s ∈ reduceStraddles ctx (chunks.map ofChunk), s.current.start ≤ s.unknown.end_ := by
  induction chunks generalizing ctx events with
  | nil => simp [reduceStraddles]
  | cons chunk rest ih =>
    intro s logged
    rw [List.map_cons, reduceStraddles, List.mem_append] at logged
    rcases logged with here | later
    · exact straddles_ordered opened (before chunk (by simp)) s here
    · refine ih opened.merge ?_ ordered.of_cons s later
      intro other member cpu event inside event' inside'
      rw [onCpu_append, List.mem_append] at inside
      rcases inside with old | new
      · exact before other (List.mem_cons_of_mem _ member) cpu event old event' inside'
      · exact List.rel_of_pairwise_cons ordered member cpu event new event' inside'

theorem openedBy_nil : ({} : CpuContext).OpenedBy [] := by
  intro cpu task running
  cases running

end CpuContext

end LttngParallelAnalyses
