import LttngParallelAnalyses.Cpu.Accounts

/-! The task that a chunk finds running. `handleSchedSwitch` stores it at every switch that finds
no current task, so it is the one of the first switch only where no later switch from idle names
a task. `merge` closes an open task at the time that is stored. -/

namespace LttngParallelAnalyses
open Lib Lib.Tables Lib.Adjacent

/-- On one CPU: no switch after one to idle names a task, unless it repeats the first switch. -/
def NoLateTask (events : List EventValue) : Prop :=
  ∀ pair ∈ pairs events, pair.1.nextTid = 0 → pair.2.prevTid ≠ 0 →
    ∀ first ∈ events.head?, pair.2.timestamp = first.timestamp ∧ pair.2.prevTid = first.prevTid

instance (events : List EventValue) : Decidable (NoLateTask events) :=
  inferInstanceAs (Decidable (∀ pair ∈ pairs events, pair.1.nextTid = 0 → pair.2.prevTid ≠ 0 →
    ∀ first ∈ events.head?, pair.2.timestamp = first.timestamp ∧ pair.2.prevTid = first.prevTid))

theorem unknownBefore_eq_iff {event first : EventValue} (named : event.prevTid ≠ 0) :
    some { end_ := event.timestamp, tid := event.prevTid } = unknownBefore first ↔
      event.timestamp = first.timestamp ∧ event.prevTid = first.prevTid := by
  by_cases idle : first.prevTid = 0
  · simp [unknownBefore, idle, named]
  · simp [unknownBefore, idle]

theorem noLateTask_concat_iff {events : List EventValue} {first last : EventValue}
    (head : events.head? = some first) (final : events.getLast? = some last) (event : EventValue) :
    NoLateTask (events ++ [event]) ↔ NoLateTask events ∧ (last.nextTid = 0 → event.prevTid ≠ 0 →
      event.timestamp = first.timestamp ∧ event.prevTid = first.prevTid) := by
  have kept : (events ++ [event]).head? = some first := by
    rw [List.head?_append, head, Option.some_or]
  unfold NoLateTask
  rw [pairs_concat, kept, head, final]
  simp only [Option.map_some, Option.toList_some, List.forall_mem_append, List.forall_mem_singleton,
    Option.mem_some_iff, forall_eq']

namespace CpuContext

/-- On one CPU: after every initial part of the events the first switch tells the unknown task,
exactly where no late switch does. -/
theorem tellsFirst_iff (events : List EventValue) :
    (∀ part, part <+: events →
        (record part).bind (·.unknownTask) = part.head?.bind unknownBefore) ↔
      NoLateTask events := by
  induction events using List.reverseRecOn with
  | nil => simp [record, NoLateTask, pairs]
  | append_singleton events event ih =>
    have split : (∀ part, part <+: events ++ [event] →
          (record part).bind (·.unknownTask) = part.head?.bind unknownBefore) ↔
        (record (events ++ [event])).bind (·.unknownTask) =
            (events ++ [event]).head?.bind unknownBefore ∧
          NoLateTask events := by
      rw [← ih]
      simp only [List.prefix_concat_iff, forall_eq_or_imp]
    rw [split, record_unknownTask_concat]
    cases head : events.head? with
    | none =>
      obtain rfl : events = [] := List.head?_eq_none_iff.mp head
      by_cases idle : event.prevTid = 0 <;>
        simp [lastTask, unknownBefore, record, NoLateTask, pairs, idle]
    | some first =>
      have nonempty : events ≠ [] := by
        intro same
        rw [same] at head
        cases head
      have final := List.getLast?_eq_some_getLast nonempty
      have idle : lastTask events = none ↔ (events.getLast nonempty).nextTid = 0 := by
        rw [lastTask, final, Option.bind_some, taskAfter_eq_none]
      rw [noLateTask_concat_iff head final, ← idle, List.head?_append, head, Option.some_or,
        Option.bind_some, and_comm]
      apply and_congr_right
      intro settled
      have before := ih.mpr settled events List.prefix_rfl
      rw [head, Option.bind_some] at before
      by_cases late : lastTask events = none ∧ event.prevTid ≠ 0
      · rw [if_pos late, unknownBefore_eq_iff late.2]
        simp [late.1, late.2]
      · rw [if_neg late, before]
        simp only [true_iff]
        intro empty named
        exact absurd ⟨empty, named⟩ late

/-- Every CPU's unknown task is the one that its first switch names, and `merge` closes the task
that was open on the CPU at that switch, or not at all. -/
structure TellsFirst (ctx : CpuContext) (events : List EventValue) : Prop where
  slot : ∀ cpu, ∀ first ∈ (onCpu cpu events).head?,
    (ctx.find cpu).bind (·.unknownTask) = unknownBefore first
  closed : ∀ (before : CpuContext) (s : Straddle), s ∈ straddles before ctx ↔
    (before.find s.cpu).bind (·.currentTask) = some s.current ∧
      ∃ first ∈ (onCpu s.cpu events).head?, unknownBefore first = some s.unknown

theorem tellsFirst_of_slot {events : List EventValue} {start end_ : Timestamp}
    (slot : ∀ cpu, (record (onCpu cpu events)).bind (·.unknownTask) =
      (onCpu cpu events).head?.bind unknownBefore) :
    (ofEvents events start end_).TellsFirst events where
  slot cpu first head := by
    rw [find_ofEvents, slot, Option.mem_def.mp head, Option.bind_some]
  closed before s := by
    rw [mem_straddles (distinct_ofEvents events start end_), find_ofEvents, slot]
    exact and_congr_right (fun _ => Option.bind_eq_some_iff)

/-- In every state of a chunk each CPU's unknown task is the one that its first switch names,
and merging closes open tasks there, exactly where no later switch from idle names a task. -/
theorem unknownTask_first_iff (events : List EventValue) (start end_ : Timestamp) :
    (∀ part, part <+: events → (ofEvents part start end_).TellsFirst part) ↔
      ∀ cpu, NoLateTask (onCpu cpu events) := by
  constructor
  · intro every cpu
    rw [← tellsFirst_iff]
    intro part initial
    obtain ⟨whole, inside, rfl⟩ := List.prefix_filter_iff.mp initial
    cases head : (onCpu cpu whole).head? with
    | none =>
      have absent : onCpu cpu whole = [] := List.head?_eq_none_iff.mp head
      show (record (onCpu cpu whole)).bind _ = (onCpu cpu whole).head?.bind _
      rw [absent]
      rfl
    | some first =>
      have told := (every whole inside).slot cpu first head
      rw [find_ofEvents] at told
      show (record (onCpu cpu whole)).bind _ = (onCpu cpu whole).head?.bind _
      rw [told, head, Option.bind_some]
  · intro settled part initial
    apply tellsFirst_of_slot
    intro cpu
    exact (tellsFirst_iff _).mpr (settled cpu) _ (initial.filter _)

/-- A task is switched out, the switch to the next one is lost, and that one is switched out. -/
def lostSwitchIn : List EventValue :=
  [{ timestamp := 10, prevTid := 3 }, { timestamp := 20, prevTid := 5 }]

/-- The second switch overwrites the unknown task, and `merge` closes the open task 3 at it: the
time from 10 to 20 is charged to the CPU, though it was idle or ran another task. -/
theorem unknownTask_overwritten :
    ¬ (∀ (events : List EventValue) (start end_ : Timestamp) (part : List EventValue),
        part <+: events → (ofEvents part start end_).TellsFirst part) ∧
      ((ofEvents lostSwitchIn 6 30).find 0).bind (·.unknownTask) = some { end_ := 20, tid := 5 } ∧
      straddles (ofEvents [{ timestamp := 2, nextTid := 3 }] 0 5) (ofEvents lostSwitchIn 6 30) =
        [⟨0, { start := 2, tid := 3 }, { end_ := 20, tid := 5 }⟩] := by
  refine ⟨?_, by decide, by decide⟩
  intro every
  have told := (every lostSwitchIn 6 30 lostSwitchIn List.prefix_rfl).slot 0
    { timestamp := 10, prevTid := 3 } (by decide)
  revert told
  decide

end CpuContext

end LttngParallelAnalyses
