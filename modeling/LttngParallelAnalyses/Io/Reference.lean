import LttngParallelAnalyses.Io.Chunked
import LttngParallelAnalyses.Lib.Adjacent

/-! The reference accounting of a serial I/O pass. A syscall is an entry that is directly
followed, among the events of its tid, by an exit; the totals of a process are the sums over
its syscalls that succeed. -/

namespace LttngParallelAnalyses
open Lib Lib.Adjacent Tracked

namespace IoType

def reads (type : IoType) : Bool := type = .read || type = .readWrite

def writes (type : IoType) : Bool := type = .write || type = .readWrite

end IoType

namespace Tracked

/-- The type of the syscall that an entry begins. -/
def entryType (tracked : Tracked) : Option IoType :=
  match tracked.handler with
  | .sysRead => some .read
  | .sysWrite => some .write
  | .sysReadWrite => some .readWrite
  | .exitSyscall => none

theorem entryType_eq_none {tracked : Tracked} :
    tracked.entryType = none ↔ tracked.handler = .exitSyscall := by
  unfold entryType
  cases tracked.handler <;> simp

/-- An entry of a type that counts, and an exit without an error. -/
def Completes (counts : IoType → Bool) (pair : Tracked × Tracked) : Prop :=
  (∃ type ∈ pair.1.entryType, counts type) ∧ ¬ pair.2.IsEntry ∧ pair.2.event.ret ≥ 0

instance (counts : IoType → Bool) (pair : Tracked × Tracked) : Decidable (Completes counts pair) :=
  inferInstanceAs (Decidable (_ ∧ _))

end Tracked

/-- The syscalls of one tid that count, from its events. -/
def completed (counts : IoType → Bool) (events : List Tracked) : List (Tracked × Tracked) :=
  (pairs events).filter (Completes counts)

/-- The sum of what the syscalls returned. -/
def returned (calls : List (Tracked × Tracked)) : ℤ :=
  (calls.map (fun call => call.2.event.ret.toInt)).sum

/-- The sum of what the syscalls lasted. -/
def lasted (calls : List (Tracked × Tracked)) : ℤ :=
  (calls.map (fun call =>
    (call.2.event.timestamp.toNat : ℤ) - call.1.event.timestamp.toNat)).sum

theorem ofInt_toNat (x : UInt64) : UInt64.ofInt x.toNat = x := by
  have small := x.toNat_lt
  apply UInt64.toNat_inj.mp
  simp only [UInt64.ofInt, UInt64.toNat_ofNat']
  omega

theorem ofInt_sub_toNat (x y : UInt64) : UInt64.ofInt ((x.toNat : ℤ) - y.toNat) = x - y := by
  rw [sub_eq_add_neg, UInt64.ofInt_add, UInt64.ofInt_neg, ofInt_toNat, ofInt_toNat, sub_eq_add_neg]

theorem ofInt_toInt (x : Int64) : UInt64.ofInt x.toInt = x.toUInt64 := by
  have small := x.toBitVec.isLt
  apply UInt64.toNat_inj.mp
  simp only [UInt64.ofInt, UInt64.toNat_ofNat']
  rw [← Int64.toNat_toBitVec, ← Int64.toInt_toBitVec, BitVec.toInt_eq_toNat_cond]
  split <;> omega

/-- The totals of one direction, modulo 2^64. -/
@[ext] structure Totals where
  bytes : UInt64
  count : UInt64
  latency : UInt64
  deriving DecidableEq, Repr

namespace Totals

instance : Zero Totals := ⟨⟨0, 0, 0⟩⟩

instance : Add Totals :=
  ⟨fun a b => ⟨a.bytes + b.bytes, a.count + b.count, a.latency + b.latency⟩⟩

instance : Neg Totals := ⟨fun a => ⟨-a.bytes, -a.count, -a.latency⟩⟩

instance : AddCommGroup Totals where
  add_assoc _ _ _ := Totals.ext (add_assoc _ _ _) (add_assoc _ _ _) (add_assoc _ _ _)
  zero_add _ := Totals.ext (zero_add _) (zero_add _) (zero_add _)
  add_zero _ := Totals.ext (add_zero _) (add_zero _) (add_zero _)
  add_comm _ _ := Totals.ext (add_comm _ _) (add_comm _ _) (add_comm _ _)
  neg_add_cancel _ :=
    Totals.ext (neg_add_cancel _) (neg_add_cancel _) (neg_add_cancel _)
  nsmul := nsmulRec
  zsmul := zsmulRec

/-- The totals of some syscalls, from their exact sums. -/
def ofCalls (calls : List (Tracked × Tracked)) : Totals where
  bytes := UInt64.ofInt (returned calls)
  count := UInt64.ofNat calls.length
  latency := UInt64.ofInt (lasted calls)

theorem ofCalls_cons (call : Tracked × Tracked) (calls : List (Tracked × Tracked)) :
    ofCalls (call :: calls) = ofCalls [call] + ofCalls calls := by
  have count : (call :: calls).length = [call].length + calls.length := Nat.add_comm _ _
  have bytes : returned (call :: calls) = returned [call] + returned calls := by simp [returned]
  have latency : lasted (call :: calls) = lasted [call] + lasted calls := by simp [lasted]
  unfold ofCalls
  rw [bytes, latency, count, UInt64.ofInt_add, UInt64.ofInt_add, UInt64.ofNat_add]
  rfl

/-- The totals of what two adjacent events complete are summed over the adjacent pairs. -/
theorem weight_eq (counts : IoType → Bool) (events : List Tracked) :
    weight (fun first second =>
      if Completes counts (first, second) then ofCalls [(first, second)] else 0) events =
      ofCalls (completed counts events) := by
  unfold weight completed
  induction pairs events with
  | nil => rfl
  | cons call calls ih =>
    rw [List.map_cons, List.sum_cons, ih]
    by_cases own : Completes counts call
    · rw [List.filter_cons_of_pos (by simpa using own), ofCalls_cons]
      exact congrArg (· + _) (if_pos own)
    · rw [List.filter_cons_of_neg (by simpa using own)]
      exact (congrArg (· + _) (if_neg own)).trans (zero_add _)

end Totals

namespace IoProcess

def readTotals (p : IoProcess) : Totals := ⟨p.readBytes, p.readCount, p.totalReadLatency⟩

def writeTotals (p : IoProcess) : Totals := ⟨p.writeBytes, p.writeCount, p.totalWriteLatency⟩

end IoProcess

namespace IoContext
open IoProcess

/-- The syscall that is open after an event. -/
def opened (tracked : Tracked) : Option Syscall := (tracked.act {}).currentSyscall

theorem act_entry {tracked : Tracked} (entry : tracked.IsEntry) (p : IoProcess) :
    tracked.act p = { p with currentSyscall := opened tracked } := by
  unfold opened act
  cases handler : tracked.handler with
  | exitSyscall => exact absurd handler entry
  | _ => rfl

theorem act_exit {tracked : Tracked} (exits : ¬ tracked.IsEntry) (p : IoProcess) :
    tracked.act p = p.exitSyscall tracked.event.timestamp tracked.event.ret := by
  rw [act, not_not.mp exits]

theorem opened_exit {tracked : Tracked} (exits : ¬ tracked.IsEntry) : opened tracked = none := by
  rw [opened, act_exit exits, exitSyscall_currentSyscall]

theorem act_currentSyscall (tracked : Tracked) (p : IoProcess) :
    (tracked.act p).currentSyscall = opened tracked := by
  by_cases entry : tracked.IsEntry
  · rw [act_entry entry]
  · rw [act_exit entry, exitSyscall_currentSyscall, opened_exit entry]

theorem opened_eq_some {tracked : Tracked} {call : Syscall} (open_ : opened tracked = some call) :
    tracked.entryType = some call.type ∧ call.start = tracked.event.timestamp := by
  unfold opened act at open_
  unfold entryType
  cases handler : tracked.handler with
  | exitSyscall =>
    rw [handler] at open_
    cases (exitSyscall_currentSyscall _ _ _).symm.trans open_
  | _ =>
    simp only [handler, enterSyscall, Option.some.injEq] at open_
    simp [← open_]

theorem opened_eq_none {tracked : Tracked} (closed : opened tracked = none) :
    tracked.entryType = none := by
  unfold opened act at closed
  unfold entryType
  cases handler : tracked.handler <;> simp_all [enterSyscall]

theorem record_currentSyscall (t : Int32) (events : List Tracked) :
    (record t events).bind (·.currentSyscall) = events.getLast?.bind opened := by
  induction events using List.reverseRecOn with
  | nil => rfl
  | append_singleton events tracked _ =>
    rw [record_concat, step, Option.bind_some, act_currentSyscall, List.getLast?_concat,
      Option.bind_some]

/-! ## Totals -/

/-- Totals that only the accounting changes, for the syscalls of the types that count. -/
structure Accounted (counts : IoType → Bool) (totals : IoProcess → Totals) : Prop where
  fresh : ∀ (tracked : Tracked) (t : Int32), totals (tracked.fresh t) = 0
  adds : ∀ p q, totals (addTotals p q) = totals p + totals q
  current : ∀ (p : IoProcess) call, totals { p with currentSyscall := call } = totals p
  unknown : ∀ (p : IoProcess) call, totals { p with unknownSyscall := call } = totals p
  ended : ∀ call timestamp ret, totals (usage call timestamp ret) =
    if counts call.type ∧ ret ≥ 0 then ⟨ret.toUInt64, 1, timestamp - call.start⟩ else 0

theorem accounted_readTotals : Accounted IoType.reads readTotals where
  fresh _ _ := rfl
  adds _ _ := rfl
  current _ _ := rfl
  unknown _ _ := rfl
  ended call timestamp ret := by
    unfold usage IoProcess.exitSyscall
    cases type : call.type <;> by_cases done : ret ≥ 0 <;>
      simp [type, done, IoType.reads, readTotals, countRead, countWrite] <;> rfl

theorem accounted_writeTotals : Accounted IoType.writes writeTotals where
  fresh _ _ := rfl
  adds _ _ := rfl
  current _ _ := rfl
  unknown _ _ := rfl
  ended call timestamp ret := by
    unfold usage IoProcess.exitSyscall
    cases type : call.type <;> by_cases done : ret ≥ 0 <;>
      simp [type, done, IoType.writes, writeTotals, countRead, countWrite] <;> rfl

/-- What two adjacent events add to the totals. -/
def added (totals : IoProcess → Totals) (first second : Tracked) : Totals :=
  if second.IsEntry then 0
  else (opened first).elim 0
    (fun call => totals (usage call second.event.timestamp second.event.ret))

section Accounted
variable {counts : IoType → Bool} {totals : IoProcess → Totals} (accounted : Accounted counts totals)
include accounted

theorem Accounted.entry {tracked : Tracked} (entry : tracked.IsEntry) (p : IoProcess) :
    totals (tracked.act p) = totals p := by
  rw [act_entry entry, accounted.current]

theorem Accounted.exit {tracked : Tracked} (exits : ¬ tracked.IsEntry) (p : IoProcess) :
    totals (tracked.act p) = totals p + p.currentSyscall.elim 0
      (fun call => totals (usage call tracked.event.timestamp tracked.event.ret)) := by
  rw [act_exit exits]
  cases current : p.currentSyscall with
  | none =>
    have shown : ∀ q : IoProcess, totals q.visible = totals q := fun q => accounted.unknown q none
    rw [← shown, exitSyscall_idle current, shown, Option.elim_none, add_zero]
  | some call =>
    rw [exitSyscall_open current, accounted.current, accounted.adds]
    rfl

/-- The totals of the record of a process, summed over the adjacent events of its tid. -/
theorem Accounted.total (t : Int32) (events : List Tracked) :
    (record t events).elim 0 totals = weight (added totals) events := by
  induction events using List.reverseRecOn with
  | nil => rfl
  | append_singleton events tracked ih =>
    have current := record_currentSyscall t events
    have before : totals ((record t events).getD (tracked.fresh t)) =
        weight (added totals) events := by
      rw [← ih]
      cases record t events with
      | none => exact accounted.fresh tracked t
      | some p => rfl
    have running : ((record t events).getD (tracked.fresh t)).currentSyscall =
        events.getLast?.bind opened := by
      rw [← current]
      cases record t events <;> rfl
    rw [record_concat, step, Option.elim_some, weight_concat, ← before]
    by_cases entry : tracked.IsEntry
    · rw [accounted.entry entry]
      cases events.getLast? <;> simp [added, entry]
    · rw [accounted.exit entry, running]
      cases events.getLast? <;> simp [added, entry]

theorem Accounted.added_eq (first second : Tracked) :
    added totals first second =
      if Completes counts (first, second) then Totals.ofCalls [(first, second)] else 0 := by
  unfold added Completes
  by_cases entry : second.IsEntry
  · simp [entry]
  cases open_ : opened first with
  | none => simp [opened_eq_none open_]
  | some call =>
    obtain ⟨type, start⟩ := opened_eq_some open_
    have one : Totals.ofCalls [(first, second)] =
        ⟨second.event.ret.toUInt64, 1, second.event.timestamp - call.start⟩ := by
      unfold Totals.ofCalls returned lasted
      rw [List.map_singleton, List.sum_singleton, List.map_singleton, List.sum_singleton,
        ofInt_toInt, ofInt_sub_toNat, start]
      rfl
    rw [if_neg entry, Option.elim_some, accounted.ended, one]
    simp [type, entry]

/-- The totals of a process are those of its syscalls that complete. -/
theorem Accounted.eq_ofCalls (t : Int32) (events : List Tracked) :
    (record t events).elim 0 totals = Totals.ofCalls (completed counts events) := by
  have each : added totals = fun first second =>
      if Completes counts (first, second) then Totals.ofCalls [(first, second)] else 0 := by
    funext first second
    exact accounted.added_eq first second
  rw [accounted.total, each, Totals.weight_eq]

end Accounted

/-! ## Names -/

theorem act_comm (tracked : Tracked) (p : IoProcess) : (tracked.act p).comm = p.comm := by
  by_cases entry : tracked.IsEntry
  · rw [act_entry entry]
  · rw [act_exit entry]
    cases current : p.currentSyscall with
    | none =>
      have shown := congrArg (·.comm)
        (exitSyscall_idle current tracked.event.timestamp tracked.event.ret)
      exact shown
    | some call =>
      rw [exitSyscall_open current]
      rfl

/-- A process keeps the name that its first event gives. -/
theorem record_comm (t : Int32) (events : List Tracked) :
    (record t events).map (·.comm) = events.head?.map (·.event.procname.getD "") := by
  induction events using List.reverseRecOn with
  | nil => rfl
  | append_singleton events tracked ih =>
    rw [record_concat, step, Option.map_some, act_comm]
    cases before : record t events with
    | none =>
      obtain rfl := record_eq_none.mp before
      rfl
    | some p =>
      have nonempty : events ≠ [] := by
        rw [Ne, ← record_eq_none, before]
        exact Option.some_ne_none p
      rw [before, Option.map_some] at ih
      rw [List.head?_append_of_ne_nil _ nonempty, ← ih]
      rfl

/-- The record of a process after a serial pass, from the events of its tid alone. -/
theorem io_serial_accounting (events : List Tracked) (t : Int32) :
    ((ofTracked events).tids.lookup t).map
        (fun p => (p.comm, p.readTotals, p.writeTotals)) =
      (ofTid t events).head?.map (fun first => (first.event.procname.getD "",
        Totals.ofCalls (completed IoType.reads (ofTid t events)),
        Totals.ofCalls (completed IoType.writes (ofTid t events)))) ∧
    ∀ others, ofTid t others = ofTid t events →
      (ofTracked others).tids.lookup t = (ofTracked events).tids.lookup t := by
  constructor
  · have reads := accounted_readTotals.eq_ofCalls t (ofTid t events)
    have writes := accounted_writeTotals.eq_ofCalls t (ofTid t events)
    have comm := record_comm t (ofTid t events)
    rw [lookup_ofTracked, ← reads, ← writes]
    cases found : record t (ofTid t events) with
    | none =>
      rw [record_eq_none.mp found]
      rfl
    | some p =>
      rw [found, Option.map_some] at comm
      obtain ⟨first, head, name⟩ := Option.map_eq_some_iff.mp comm.symm
      rw [head, Option.map_some, Option.map_some, Option.elim_some, Option.elim_some, name]
  · intro others same
    rw [lookup_ofTracked, lookup_ofTracked, same]

/-- A copy of one process that a read of another process overlaps. -/
def overlapping : List Tracked :=
  [⟨.sysReadWrite, { timestamp := 10, tid := some 7, procname := some "cp" }⟩,
    ⟨.sysRead, { timestamp := 12, tid := some 8, procname := some "cat" }⟩,
    ⟨.exitSyscall, { timestamp := 25, tid := some 7, ret := 100 }⟩]

theorem io_serial_accounting_overlapping :
    ((ofTracked overlapping).tids.lookup 7).map
        (fun p => (p.comm, p.readTotals, p.writeTotals)) =
      some ("cp", ⟨100, 1, 15⟩, ⟨100, 1, 15⟩) :=
  (io_serial_accounting overlapping 7).1.trans (by decide)

end IoContext

end LttngParallelAnalyses
