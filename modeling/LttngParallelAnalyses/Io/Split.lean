import LttngParallelAnalyses.Io.Reference

/-! A syscall that a cut splits. In one context an exit accounts with its 64-bit return value;
across a cut the value goes through the `int` of a saved exit. The two agree where the `int`
keeps the value, or at least the error. -/

namespace LttngParallelAnalyses
open Lib Lib.Tables Tracked

namespace IoProcess

/-- The `int` of a saved exit keeps the value, or the sign of an error: bit 31 is set. -/
def KeptByInt (ret : Int64) : Prop :=
  (0 ≤ ret.toInt ∧ ret.toInt < 2 ^ 31) ∨ (ret.toInt < 0 ∧ 2 ^ 31 ≤ ret.toInt % 2 ^ 32)

instance (ret : Int64) : Decidable (KeptByInt ret) := inferInstanceAs (Decidable (_ ∨ _))

theorem toInt_saved (ret : Int64) : ret.toInt32.toInt64.toInt = ret.toInt.bmod (2 ^ 32) := by
  rw [Int32.toInt_toInt64, Int64.toInt_toInt32]

theorem nonneg_iff (ret : Int64) : ret ≥ 0 ↔ 0 ≤ ret.toInt := Int64.le_iff_toInt_le

theorem keptByInt_iff (ret : Int64) :
    KeptByInt ret ↔ (ret ≥ 0 ∧ ret.toInt32.toInt64 = ret) ∨
      (¬ ret ≥ 0 ∧ ¬ ret.toInt32.toInt64 ≥ 0) := by
  rw [nonneg_iff, nonneg_iff, ← Int64.toInt_inj, toInt_saved, KeptByInt, Int.bmod]
  split <;> omega

end IoProcess

namespace IoContext
open IoProcess

/-- The totals of both directions. -/
def bothTotals (p : IoProcess) : Totals × Totals := (p.readTotals, p.writeTotals)

theorem bothTotals_joined (p q : IoProcess) :
    bothTotals (joined p q) = bothTotals p + bothTotals q := rfl

theorem bothTotals_addTotals (p q : IoProcess) :
    bothTotals (addTotals p q) = bothTotals p + bothTotals q := rfl

theorem bothTotals_usage (call : Syscall) (timestamp : Timestamp) (ret : Int64) :
    bothTotals (usage call timestamp ret) =
      (if call.type.reads ∧ ret ≥ 0 then ⟨ret.toUInt64, 1, timestamp - call.start⟩ else 0,
        if call.type.writes ∧ ret ≥ 0 then ⟨ret.toUInt64, 1, timestamp - call.start⟩ else 0) := by
  rw [bothTotals, accounted_readTotals.ended, accounted_writeTotals.ended]

theorem one_call_ne_zero (bytes latency : UInt64) : (⟨bytes, 1, latency⟩ : Totals) ≠ 0 := by
  intro same
  exact absurd (congrArg Totals.count same) (by decide : (1 : UInt64) ≠ 0)

theorem usage_saved_iff (call : Syscall) (timestamp : Timestamp) (ret : Int64) :
    bothTotals (usage call timestamp ret.toInt32.toInt64) = bothTotals (usage call timestamp ret) ↔
      call.type = .unknown ∨ KeptByInt ret := by
  rw [keptByInt_iff, bothTotals_usage, bothTotals_usage]
  generalize ret.toInt32.toInt64 = saved
  by_cases same : saved = ret
  · subst same
    by_cases done : saved ≥ 0 <;> simp [done]
  · have bits : saved.toUInt64 ≠ ret.toUInt64 := by
      intro bits
      apply same
      rw [← saved.toInt64_toUInt64, bits, ret.toInt64_toUInt64]
    by_cases kept : saved ≥ 0 <;> by_cases done : ret ≥ 0 <;> cases type : call.type <;>
      simp [kept, done, IoType.reads, IoType.writes, one_call_ne_zero, (one_call_ne_zero _ _).symm,
        same, bits]

theorem lookup_handleAll_of (ctx : IoContext) (events : List Tracked) (t : Int32) :
    (handleAll ctx events).tids.lookup t = (ofTid t events).foldl (step t) (ctx.tids.lookup t) :=
  (handling.view_run ctx events t).trans (foldl_act t events _)

/-- A syscall whose exit is the first event of its tid in the next chunk adds the same totals
as in one context exactly where the `int` keeps the return value or its error. -/
theorem split_syscall_iff (ctx : IoContext) (chunk : List Tracked) (t : Int32) (p : IoProcess)
    (call : Syscall) (exit : Tracked) (rest : List Tracked)
    (found : ctx.tids.lookup t = some p) (open_ : p.currentSyscall = some call)
    (first : ofTid t chunk = exit :: rest) (exits : ¬ exit.IsEntry) :
    ((ctx.merge (ofTracked chunk)).tids.lookup t).map bothTotals =
        ((handleAll ctx chunk).tids.lookup t).map bothTotals ↔
      call.type = .unknown ∨ KeptByInt exit.event.ret := by
  have exitHandler : exit.handler = .exitSyscall := not_not.mp exits
  -- the record of the chunk: the exit is saved, and the rest adds its own totals
  let saved : IoProcess := { exit.fresh t with unknownSyscall := some (savedExit exit) }
  have chunkRecord : record t (exit :: rest) = some (acts saved rest) := by
    rw [record_cons]
    exact congrArg (fun q => some (acts q rest)) (act_fresh_exit exitHandler t)
  have kept : (acts saved rest).unknownSyscall = some (savedExit exit) :=
    acts_unknownSyscall rfl rest
  have split : ((ctx.merge (ofTracked chunk)).tids.lookup t).map bothTotals =
      some (bothTotals p + bothTotals (usage call exit.event.timestamp exit.event.ret.toInt32.toInt64)
        + bothTotals (acts saved rest)) := by
    rw [lookup_merge_ofTracked, first, chunkRecord, found, Option.elim_some, Option.map_some,
      mergeProcess_open open_ kept, bothTotals_joined, finishSyscall_eq_addTotals,
      bothTotals_addTotals]
    rfl
  have whole : ((handleAll ctx chunk).tids.lookup t).map bothTotals =
      some (bothTotals p + bothTotals (usage call exit.event.timestamp exit.event.ret)
        + bothTotals (acts saved rest)) := by
    have shown : ∀ q : IoProcess, bothTotals q.visible = bothTotals q := fun _ => rfl
    -- the rest moves the record after the exit as it moves the fresh one
    have restart : joined (exit.act p) saved = exit.act p := by
      rw [act_exit exits, exitSyscall_open open_, joined, addTotals_fresh]
      rfl
    have later := acts_joined (exit.act p) saved rest
    rw [restart] at later
    rw [lookup_handleAll_of, first, found, foldl_step, Option.map_some, acts, List.foldl_cons,
      ← acts, ← shown, later, shown, bothTotals_joined, act_exit exits, exitSyscall_open open_]
    rfl
  rw [split, whole, Option.some.injEq, add_left_inj, add_right_inj, usage_saved_iff]

def readEntered : IoContext := handleAll {} [⟨.sysRead, { timestamp := 10, tid := some 7 }⟩]

def readCall : Syscall := { type := .read, start := 10, fd := 0 }

/-- The record after the entry. -/
def readingProcess : IoProcess := { tid := 7, currentSyscall := some readCall }

def readReturns (ret : Int64) : Tracked := ⟨.exitSyscall, { timestamp := 25, tid := some 7, ret }⟩

theorem split_syscall_iff_small :
    ((readEntered.merge (ofTracked [readReturns 100])).tids.lookup 7).map bothTotals =
      ((handleAll readEntered [readReturns 100]).tids.lookup 7).map bothTotals :=
  (split_syscall_iff readEntered [readReturns 100] 7 readingProcess
    readCall (readReturns 100) [] (by decide) rfl (by decide)
    (by decide)).mpr (Or.inr (by decide))

/-- A read of 2^31 bytes counts in one context, and not across a cut. -/
theorem split_syscall_differs :
    ¬ ∀ (ctx : IoContext) (chunk : List Tracked) (t : Int32) (p : IoProcess) (call : Syscall)
      (exit : Tracked) (rest : List Tracked), ctx.tids.lookup t = some p →
      p.currentSyscall = some call → ofTid t chunk = exit :: rest → ¬ exit.IsEntry →
      ((ctx.merge (ofTracked chunk)).tids.lookup t).map bothTotals =
        ((handleAll ctx chunk).tids.lookup t).map bothTotals := by
  intro claimed
  have wrong := claimed readEntered [readReturns 2147483648] 7 readingProcess
    readCall (readReturns 2147483648) [] (by decide) rfl (by decide)
    (by decide)
  revert wrong
  decide

end IoContext

end LttngParallelAnalyses
