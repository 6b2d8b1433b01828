import LttngParallelAnalyses.Io.Split

/-! The exit that a chunk saves for a tid. It is the first one that finds no open syscall, so where
the tid enters a syscall first, an exit that follows another exit is saved, and `merge` takes it
for the end of a syscall that was open before the chunk. -/

namespace LttngParallelAnalyses
open Lib Lib.Tables Tracked

namespace IoProcess

theorem fitsInt_of_kept {ret : Int64} (kept : ret.toInt32.toInt64 = ret) : FitsInt ret := by
  have low := ret.toInt32.le_toInt
  have high := ret.toInt32.toInt_lt
  rw [← Int32.toInt_toInt64, kept] at low high
  exact ⟨low, high⟩

end IoProcess

/-- On one tid: where the first event is an exit, an `int` holds what it returns; where it is an
entry, no exit directly follows another one. -/
structure OnlyFirstSaved (events : List Tracked) : Prop where
  narrow : ∀ first ∈ events.head?, ¬ first.IsEntry → IoProcess.FitsInt first.event.ret
  entered : ∀ first ∈ events.head?, first.IsEntry →
    events.IsChain (fun before after => before.IsEntry ∨ after.IsEntry)

theorem OnlyFirstSaved.of_part {part events : List Tracked} (initial : part <+: events)
    (only : OnlyFirstSaved events) : OnlyFirstSaved part := by
  obtain ⟨rest, rfl⟩ := initial
  have head : ∀ first ∈ part.head?, first ∈ (part ++ rest).head? := by
    intro first own
    rw [Option.mem_def, List.head?_append, Option.mem_def.mp own, Option.some_or]
  constructor
  · intro first own
    exact only.narrow first (head first own)
  · intro first own entry
    exact (only.entered first (head first own) entry).left_of_append

namespace IoContext
open IoProcess

/-! ## The slot -/

theorem opened_eq_none_iff {tracked : Tracked} : opened tracked = none ↔ ¬ tracked.IsEntry := by
  constructor
  · intro closed entry
    exact entry (entryType_eq_none.mp (opened_eq_none closed))
  · exact opened_exit

/-- The saved exit of a tid after one more of its events. -/
theorem record_unknownSyscall_concat (t : Int32) (events : List Tracked) (tracked : Tracked) :
    (record t (events ++ [tracked])).bind (·.unknownSyscall) =
      if ¬ tracked.IsEntry ∧ (∀ last ∈ events.getLast?, ¬ last.IsEntry) ∧
          (record t events).bind (·.unknownSyscall) = none then
        some (savedExit tracked)
      else (record t events).bind (·.unknownSyscall) := by
  have current := record_currentSyscall t events
  have idle : (record t events).bind (·.currentSyscall) = none ↔
      ∀ last ∈ events.getLast?, ¬ last.IsEntry := by
    rw [current]
    cases events.getLast? with
    | none => simp
    | some last => simp [opened_eq_none_iff]
  rw [record_concat, step, Option.bind_some, act_unknownSyscall_eq]
  simp only [← idle]
  cases record t events <;> rfl

/-- A tid that leaves a syscall first has that exit saved for good. -/
theorem record_saves_first (t : Int32) {first : Tracked} (exits : ¬ first.IsEntry)
    (rest : List Tracked) :
    (record t (first :: rest)).bind (·.unknownSyscall) = some (savedExit first) := by
  have start : acts (first.fresh t) (first :: rest) =
      acts { first.fresh t with unknownSyscall := some (savedExit first) } rest := by
    rw [acts, List.foldl_cons, act_fresh_exit (not_not.mp exits), ← acts]
  rw [record_cons, Option.bind_some, start]
  exact acts_unknownSyscall rfl rest

/-- A tid that enters a syscall first has an exit saved where one directly follows another. -/
theorem record_saves_none_iff (t : Int32) {events : List Tracked} {first : Tracked}
    (head : events.head? = some first) (entry : first.IsEntry) :
    (record t events).bind (·.unknownSyscall) = none ↔
      events.IsChain (fun before after => before.IsEntry ∨ after.IsEntry) := by
  induction events using List.reverseRecOn with
  | nil => cases head
  | append_singleton events tracked ih =>
    rw [record_unknownSyscall_concat, List.isChain_append]
    cases events with
    | nil =>
      obtain rfl : tracked = first := Option.some.inj head
      simp [entry, record]
    | cons other rest =>
      rw [← ih head, List.getLast?_eq_some_getLast (List.cons_ne_nil other rest)]
      by_cases saved : (record t (other :: rest)).bind (·.unknownSyscall) = none
      · by_cases enters : tracked.IsEntry <;>
          by_cases before : ((other :: rest).getLast (List.cons_ne_nil other rest)).IsEntry <;>
          simp [saved, enters, before]
      · rw [if_neg (fun all => saved all.2.2)]
        simp [saved]

/-- What an exit saves where it is the first event of its tid. -/
def firstSaved (first : Tracked) : Option Syscall :=
  if first.IsEntry then none else some (savedExit first)

theorem record_unknownSyscall_eq {events : List Tracked} (only : OnlyFirstSaved events) (t : Int32) :
    (record t events).bind (·.unknownSyscall) = events.head?.bind firstSaved := by
  cases events with
  | nil => rfl
  | cons first rest =>
    rw [List.head?_cons, Option.bind_some, firstSaved]
    by_cases entry : first.IsEntry
    · rw [if_pos entry, record_saves_none_iff t rfl entry]
      exact only.entered first rfl entry
    · rw [if_neg entry, record_saves_first t entry]

/-! ## What merge does with it -/

theorem mergeProcess_unsaved {q : IoProcess} (unsaved : q.unknownSyscall = none) (p : IoProcess) :
    mergeProcess (some p) q = joined p q := by
  cases open_ : p.currentSyscall with
  | none => exact mergeProcess_idle open_ q
  | some call =>
    simp only [mergeProcess, open_, unsaved]
    rfl

/-- Every saved exit is the first event of its tid, with its time and what it returns; and `merge`
ends an open syscall with that event, or where it is an entry, with none. -/
structure SavesFirst (ctx : IoContext) (events : List Tracked) : Prop where
  slot : ∀ t call, (ctx.tids.lookup t).bind (·.unknownSyscall) = some call →
    ∃ first ∈ (ofTid t events).head?, ¬ first.IsEntry ∧
      call.end_ = first.event.timestamp ∧ call.ret.toInt64 = first.event.ret
  closed : ∀ (before : IoContext) (t : Int32) (p q : IoProcess) (call : Syscall),
    before.tids.lookup t = some p → p.currentSyscall = some call → ctx.tids.lookup t = some q →
    ∃ first ∈ (ofTid t events).head?,
      ((before.merge ctx).tids.lookup t).map bothTotals = some (bothTotals p + bothTotals q +
        if first.IsEntry then 0
        else bothTotals (usage call first.event.timestamp first.event.ret))

theorem savesFirst_of_only {events : List Tracked}
    (only : ∀ t, OnlyFirstSaved (ofTid t events)) : (ofTracked events).SavesFirst events := by
  constructor
  · intro t call saved
    rw [lookup_ofTracked, record_unknownSyscall_eq (only t)] at saved
    obtain ⟨first, head, here⟩ := Option.bind_eq_some_iff.mp saved
    refine ⟨first, head, ?_⟩
    by_cases entry : first.IsEntry
    · rw [firstSaved, if_pos entry] at here
      cases here
    · rw [firstSaved, if_neg entry] at here
      obtain rfl := Option.some.inj here
      exact ⟨entry, rfl, toInt64_toInt32 ((only t).narrow first head entry)⟩
  · intro before t p q call found open_ here
    rw [lookup_ofTracked] at here
    rw [lookup_merge_ofTracked, here, found, Option.elim_some, Option.map_some]
    have saved := record_unknownSyscall_eq (only t) t
    rw [here, Option.bind_some] at saved
    cases head : (ofTid t events).head? with
    | none =>
      rw [List.head?_eq_none_iff.mp head] at here
      cases here
    | some first =>
      refine ⟨first, rfl, ?_⟩
      rw [head, Option.bind_some, firstSaved] at saved
      by_cases entry : first.IsEntry
      · rw [if_pos entry] at saved
        rw [mergeProcess_unsaved saved, bothTotals_joined, if_pos entry, add_zero]
      · rw [if_neg entry] at saved
        rw [mergeProcess_open open_ saved, bothTotals_joined, finishSyscall_eq_addTotals,
          bothTotals_addTotals, if_neg entry, add_right_comm]
        have kept := toInt64_toInt32 ((only t).narrow first head entry)
        rw [savedExit, kept]

/-- In every state of a chunk a saved exit is the first event of its tid, and merging ends open
syscalls with it, exactly where on every tid the first event is an exit whose return value an
`int` holds, or an entry and no exit directly follows another. -/
theorem unknownSyscall_first_iff (events : List Tracked) :
    (∀ part, part <+: events → (ofTracked part).SavesFirst part) ↔
      ∀ t, OnlyFirstSaved (ofTid t events) := by
  constructor
  · intro every t
    have slot := (every events List.prefix_rfl).slot t
    rw [lookup_ofTracked] at slot
    constructor
    · intro first head exits
      obtain ⟨rest, own⟩ := List.head?_eq_some_iff.mp (Option.mem_def.mp head)
      rw [own] at slot
      obtain ⟨other, same, _, _, ret⟩ := slot _ (record_saves_first t exits rest)
      obtain rfl : first = other := Option.some.inj same
      exact fitsInt_of_kept ret
    · intro first head entry
      rw [← record_saves_none_iff t head entry]
      by_contra saved
      obtain ⟨call, present⟩ := Option.ne_none_iff_exists'.mp saved
      obtain ⟨other, own, exits, _⟩ := slot call present
      obtain rfl : first = other := Option.some.inj (head.symm.trans own)
      exact exits entry
  · intro only part initial
    apply savesFirst_of_only
    intro t
    exact (only t).of_part (initial.filter _)

/-- A read is entered and left, and then a syscall is left whose entry is not tracked. -/
def lateExit : List Tracked :=
  [⟨.sysRead, { timestamp := 10, tid := some 7 }⟩,
    ⟨.exitSyscall, { timestamp := 20, tid := some 7, ret := 5 }⟩,
    ⟨.exitSyscall, { timestamp := 30, tid := some 7, ret := 3 }⟩]

/-- The second exit is saved, and ends a write that was open before the chunk, though the read was
entered in between. -/
theorem unknownSyscall_late :
    ¬ (∀ events part : List Tracked, part <+: events → (ofTracked part).SavesFirst part) ∧
      ((ofTracked lateExit).tids.lookup 7).bind (·.unknownSyscall) =
        some { end_ := 30, ret := 3 } ∧
      (((ofTracked [⟨.sysWrite, { timestamp := 2, tid := some 7 }⟩]).merge
          (ofTracked lateExit)).tids.lookup 7).map (·.writeTotals) = some ⟨3, 1, 28⟩ := by
  refine ⟨?_, by decide, by decide⟩
  intro every
  obtain ⟨first, head, exits, _⟩ :=
    (every lateExit lateExit List.prefix_rfl).slot 7 { end_ := 30, ret := 3 } (by decide)
  obtain rfl := Option.some.inj head
  exact exits (by decide)

end IoContext

end LttngParallelAnalyses
