import LttngParallelAnalyses.Io.Reference
import LttngParallelAnalyses.Io.Trees

/-! The I/O contexts that any run of the operations reaches. Nothing is counted twice: what a
record counts in one direction is covered by entries in that direction and by exits of its tid, each
of which is counted once at most, however the events were cut and the contexts merged. -/

namespace LttngParallelAnalyses
open Lib Lib.Tables Lib.KeyedFold Tracked

/-! ## Directions -/

/-- The two sides of the accounting, of which a read-write syscall is on both. -/
inductive Direction where
  | read
  | write
  deriving DecidableEq, Repr

namespace Direction

def covers : Direction → IoType → Bool
  | .read => IoType.reads
  | .write => IoType.writes

def count : Direction → IoProcess → UInt64
  | .read, p => p.readCount
  | .write, p => p.writeCount

def bytes : Direction → IoProcess → UInt64
  | .read, p => p.readBytes
  | .write, p => p.writeBytes

end Direction

/-- The entries of some events in one direction. -/
def Tracked.entries (direction : Direction) (events : List Tracked) : List Tracked :=
  events.filter (fun tracked => tracked.entryType.any direction.covers)

def Tracked.exits (events : List Tracked) : List Tracked :=
  events.filter (fun tracked => tracked.handler = .exitSyscall)

namespace IoContext
open IoProcess

theorem count_usage (direction : Direction) (call : Syscall) (timestamp : Timestamp)
    (ret : Int64) : direction.count (usage call timestamp ret) =
      if ret ≥ 0 ∧ direction.covers call.type then 1 else 0 := by
  obtain ⟨type, _, _, _, _, _⟩ := call
  unfold usage IoProcess.exitSyscall IoProcess.countRead IoProcess.countWrite
  by_cases done : ret ≥ 0 <;> cases direction <;> cases type <;>
    simp [Direction.count, Direction.covers, IoType.reads, IoType.writes, done]

theorem bytes_usage (direction : Direction) (call : Syscall) (timestamp : Timestamp)
    (ret : Int64) : direction.bytes (usage call timestamp ret) =
      if ret ≥ 0 ∧ direction.covers call.type then ret.toUInt64 else 0 := by
  obtain ⟨type, _, _, _, _, _⟩ := call
  unfold usage IoProcess.exitSyscall IoProcess.countRead IoProcess.countWrite
  by_cases done : ret ≥ 0 <;> cases direction <;> cases type <;>
    simp [Direction.bytes, Direction.covers, IoType.reads, IoType.writes, done]

theorem act_eq (tracked : Tracked) (p : IoProcess) :
    tracked.act p = tracked.entryType.elim
      (p.exitSyscall tracked.event.timestamp tracked.event.ret) (p.enterSyscall tracked.event) := by
  unfold act entryType
  cases tracked.handler <;> rfl

theorem enterSyscall_currentSyscall (event : EventValue) (type : IoType) (p : IoProcess) :
    (p.enterSyscall event type).currentSyscall.map (·.type) = some type := by
  unfold enterSyscall
  by_cases plain : type = .read ∨ type = .write <;> simp [plain]

theorem exitSyscall_saves {p : IoProcess} (idle : p.currentSyscall = none)
    (unsaved : p.unknownSyscall = none) (timestamp : Timestamp) (ret : Int64) :
    p.exitSyscall timestamp ret =
      { p with unknownSyscall := some { end_ := timestamp, ret := ret.toInt32 } } := by
  simp [exitSyscall, idle, unsaved]

theorem exitSyscall_keeps {p : IoProcess} {call : Syscall} (idle : p.currentSyscall = none)
    (saved : p.unknownSyscall = some call) (timestamp : Timestamp) (ret : Int64) :
    p.exitSyscall timestamp ret = p := by
  simp [exitSyscall, idle, saved]

/-! ## Measures -/

/-- A total of the accounting, bounded by what each exit may add to it: `weight` is what an exit may
add where it is handled, and `charge` what it may add from where it is saved. -/
structure Measure where
  total : IoProcess → UInt64
  weight : EventValue → Nat
  charge : Syscall → Nat
  total_addTotals : ∀ p q, total (addTotals p q) = total p + total q
  total_default : total {} = 0
  total_only : ∀ p process current unknown, total { p with
    toProcess := process
    currentSyscall := current
    unknownSyscall := unknown } = total p
  usage_le : ∀ call event, (total (usage call event.timestamp event.ret)).toNat ≤ weight event
  saved_le : ∀ call unknown : Syscall,
    (total (usage call unknown.end_ unknown.ret.toInt64)).toNat ≤ charge unknown
  charge_le : ∀ tracked : Tracked, charge (savedExit tracked) ≤ weight tracked.event

namespace Measure
variable (measure : Measure)

/-- What the exits of some events may add. -/
def bound (events : List Tracked) : Nat :=
  ((exits events).map (fun tracked => measure.weight tracked.event)).sum

/-- What a saved exit may still add. -/
def held (p : IoProcess) : Nat := p.unknownSyscall.elim 0 measure.charge

/-- A record stays within the exits of its events, a saved exit held back. -/
def Within (events : List Tracked) (p : IoProcess) : Prop :=
  (measure.total p).toNat + measure.held p ≤ measure.bound events

theorem bound_append (first second : List Tracked) :
    measure.bound (first ++ second) = measure.bound first + measure.bound second := by
  simp [bound, exits]

theorem bound_entry {tracked : Tracked} {type : IoType}
    (enters : tracked.entryType = some type) : measure.bound [tracked] = 0 := by
  have entry : tracked.handler ≠ .exitSyscall := by
    rw [ne_eq, ← entryType_eq_none, enters]
    exact Option.some_ne_none type
  simp [bound, exits, entry]

theorem bound_exit {tracked : Tracked} (enters : tracked.entryType = none) :
    measure.bound [tracked] = measure.weight tracked.event := by
  have leaves : tracked.handler = .exitSyscall := entryType_eq_none.mp enters
  simp [bound, exits, leaves]

theorem toNat_add_le (a b : UInt64) : (a + b).toNat ≤ a.toNat + b.toNat := by
  rw [UInt64.toNat_add]
  exact Nat.mod_le _ _

theorem total_withCurrent (p : IoProcess) (current : Option Syscall) :
    measure.total { p with currentSyscall := current } = measure.total p :=
  measure.total_only p p.toProcess current p.unknownSyscall

theorem within_act {events : List Tracked} {p : IoProcess} (within : measure.Within events p)
    (tracked : Tracked) : measure.Within (events ++ [tracked]) (tracked.act p) := by
  unfold Within at within ⊢
  rw [bound_append, act_eq]
  cases enters : tracked.entryType with
  | some type =>
    have total : measure.total (p.enterSyscall tracked.event type) = measure.total p :=
      measure.total_withCurrent p _
    have held : measure.held (p.enterSyscall tracked.event type) = measure.held p := rfl
    rw [Option.elim_some, total, held, measure.bound_entry enters]
    exact within
  | none =>
    rw [Option.elim_none, measure.bound_exit enters]
    cases current : p.currentSyscall with
    | none =>
      cases saved : p.unknownSyscall with
      | none =>
        have charge := measure.charge_le tracked
        rw [exitSyscall_saves current saved]
        have total : measure.total { p with unknownSyscall := some (savedExit tracked) } =
            measure.total p := measure.total_only p p.toProcess p.currentSyscall _
        change (measure.total { p with unknownSyscall := some (savedExit tracked) }).toNat +
          measure.charge (savedExit tracked) ≤ _
        rw [total]
        omega
      | some call =>
        rw [exitSyscall_keeps current saved]
        omega
    | some call =>
      have adds := measure.usage_le call tracked.event
      rw [exitSyscall_open current, total_withCurrent, measure.total_addTotals]
      have sum := toNat_add_le (measure.total p)
        (measure.total (usage call tracked.event.timestamp tracked.event.ret))
      have held : measure.held { addTotals p (usage call tracked.event.timestamp
          tracked.event.ret) with currentSyscall := none } = measure.held p := rfl
      omega

theorem within_fresh (events : List Tracked) (tracked : Tracked) (t : Int32) :
    measure.Within events (tracked.fresh t) := by
  have total : measure.total (tracked.fresh t) = 0 :=
    (measure.total_only {} _ none none).trans measure.total_default
  have held : measure.held (tracked.fresh t) = 0 := rfl
  rw [Within, total, held]
  exact Nat.zero_le _

theorem settled_le (current unknown : Option Syscall) :
    (measure.total (settled current unknown)).toNat ≤ unknown.elim 0 measure.charge := by
  cases unknown with
  | none =>
    cases current <;> exact Nat.le_of_eq (congrArg UInt64.toNat measure.total_default)
  | some unknown =>
    cases current with
    | none =>
      have nothing : (measure.total (settled none (some unknown))).toNat = 0 :=
        congrArg UInt64.toNat measure.total_default
      omega
    | some call => exact measure.saved_le call unknown

/-- A merge settles the left's open syscall from what the right has held back. -/
theorem within_mergeProcess {first second : List Tracked} {p q : IoProcess}
    (within : measure.Within first p) (within' : measure.Within second q) :
    measure.Within (first ++ second) (mergeProcess (some p) q) := by
  unfold Within at within within' ⊢
  have adds : (measure.total (settled p.currentSyscall q.unknownSyscall)).toNat ≤
      measure.held q := measure.settled_le _ _
  have held : measure.held (mergeProcess (some p) q) = measure.held p := by
    rw [held, mergeProcess_unknownSyscall, ← held]
  rw [bound_append, held, mergeProcess_some, total_withCurrent, measure.total_addTotals,
    measure.total_addTotals]
  have sum := toNat_add_le (measure.total p + measure.total q)
    (measure.total (settled p.currentSyscall q.unknownSyscall))
  have sum' := toNat_add_le (measure.total p) (measure.total q)
  omega

theorem within_append_left {first : List Tracked} {p : IoProcess}
    (within : measure.Within first p) (second : List Tracked) :
    measure.Within (first ++ second) p := by
  unfold Within at within ⊢
  rw [bound_append]
  omega

theorem within_append_right {second : List Tracked} {p : IoProcess}
    (within : measure.Within second p) (first : List Tracked) :
    measure.Within (first ++ second) p := by
  unfold Within at within ⊢
  rw [bound_append]
  omega

end Measure

/-! ## Runs -/

/-- A run of the operations; the context merged in comes from a run of its own. -/
inductive Run where
  | fresh
  | handle (run : Run) (tracked : Tracked)
  | merge (run other : Run)
  | handleEnd (run : Run)

namespace Run

def context : Run → IoContext
  | fresh => {}
  | handle run tracked => run.context.handle tracked
  | merge run other => run.context.merge other.context
  | handleEnd run => run.context.handleEnd

/-- The events that a run handles, those of a context that is merged in after those before. -/
def events : Run → List Tracked
  | fresh => []
  | handle run tracked => run.events ++ [tracked]
  | merge run other => run.events ++ other.events
  | handleEnd run => run.events

end Run

/-- What holds of the record of every tid and its events, in every run: it holds of a new record,
every event of the tid keeps it, and so does a merge. -/
structure Invariant (holds : Int32 → List Tracked → IoProcess → Prop) : Prop where
  fresh : ∀ t events (tracked : Tracked), holds t events (tracked.fresh t)
  act : ∀ t events p (tracked : Tracked), holds t events p → holds t (events ++ [tracked]) (tracked.act p)
  left : ∀ t first second p, holds t first p → holds t (first ++ second) p
  right : ∀ t first second p, holds t second p → holds t (first ++ second) p
  merge : ∀ t first second p q, holds t first p → holds t second q →
    holds t (first ++ second) (mergeProcess (some p) q)

theorem OwnTids.handle {ctx : IoContext} (own : ctx.OwnTids) (tracked : Tracked) :
    (ctx.handle tracked).OwnTids := by
  intro t p found
  rw [handle_eq, lookup_update] at found
  by_cases mine : tracked.event.tid = some t
  · rw [if_pos mine, Option.some.injEq] at found
    rw [← found, act_tid]
    cases before : ctx.tids.lookup t with
    | none => rfl
    | some q => exact own t q before
  · rw [if_neg mine] at found
    exact own t p found

theorem Run.ownTids (run : Run) : run.context.OwnTids := by
  induction run with
  | fresh =>
    intro t p found
    cases found
  | handle run tracked ih => exact ih.handle tracked
  | merge run other ih ih' => exact ih.merge ih'
  | handleEnd run ih => exact ih

theorem ofTid_singleton (t : Int32) (tracked : Tracked) :
    ofTid t [tracked] = if tracked.event.tid = some t then [tracked] else [] := by
  by_cases own : tracked.event.tid = some t <;> simp [ofTid, own]

theorem Invariant.holds_run {holds : Int32 → List Tracked → IoProcess → Prop}
    (invariant : Invariant holds) (run : Run) {t : Int32} {p : IoProcess}
    (found : run.context.tids.lookup t = some p) : holds t (ofTid t run.events) p := by
  induction run generalizing p with
  | fresh => cases found
  | handle run tracked ih =>
    rw [Run.context, handle_eq, lookup_update] at found
    rw [Run.events, ofTid_append, ofTid_singleton]
    by_cases own : tracked.event.tid = some t
    · rw [if_pos own, Option.some.injEq] at found
      rw [if_pos own, ← found]
      apply invariant.act
      cases before : run.context.tids.lookup t with
      | none => exact invariant.fresh t _ tracked
      | some q => exact ih before
    · rw [if_neg own] at found
      rw [if_neg own, List.append_nil]
      exact ih found
  | merge run other ih ih' =>
    rw [Run.context, lookup_merge_eq _ other.ownTids] at found
    rw [Run.events, ofTid_append]
    cases right : other.context.tids.lookup t with
    | none =>
      rw [right] at found
      exact invariant.left t _ _ p (ih found)
    | some q =>
      rw [right, mergeRecord, Option.elim_some, Option.some.injEq] at found
      rw [← found]
      cases left : run.context.tids.lookup t with
      | none => exact invariant.right t _ _ q (ih' right)
      | some r => exact invariant.merge t _ _ r q (ih left) (ih' right)
  | handleEnd run ih => exact ih found

theorem Measure.invariant (measure : Measure) :
    Invariant (fun _ events p => measure.Within events p) where
  fresh t events tracked := measure.within_fresh events tracked t
  act _ _ _ tracked within := measure.within_act within tracked
  left _ _ second _ within := measure.within_append_left within second
  right _ first _ _ within := measure.within_append_right within first
  merge _ _ _ _ _ within within' := measure.within_mergeProcess within within'

/-! ## Accounting -/

def countMeasure (direction : Direction) : Measure where
  total := direction.count
  weight _ := 1
  charge _ := 1
  total_addTotals _ _ := by cases direction <;> rfl
  total_default := by cases direction <;> rfl
  total_only _ _ _ _ := by cases direction <;> rfl
  usage_le call event := by
    rw [count_usage]
    split <;> decide
  saved_le call unknown := by
    rw [count_usage]
    split <;> decide
  charge_le _ := Nat.le_refl 1

/-- The return value of an exit, as it is counted where it is handled or where it is saved. -/
def returnedBytes (ret : Int64) : Nat := max ret.toNatClampNeg ret.toInt32.toNatClampNeg

theorem returnedBytes_of_fits {ret : Int64} (fits : FitsInt ret) :
    returnedBytes ret = ret.toNatClampNeg := by
  have saved : ret.toInt32.toNatClampNeg = ret.toNatClampNeg := by
    rw [← Int32.toNatClampNeg_toInt64, toInt64_toInt32 fits]
  rw [returnedBytes, saved, Nat.max_self]

def bytesMeasure (direction : Direction) : Measure where
  total := direction.bytes
  weight event := returnedBytes event.ret
  charge unknown := unknown.ret.toNatClampNeg
  total_addTotals _ _ := by cases direction <;> rfl
  total_default := by cases direction <;> rfl
  total_only _ _ _ _ := by cases direction <;> rfl
  usage_le call event := by
    rw [bytes_usage]
    split
    · rename_i counted
      rw [Int64.toNat_toUInt64_of_le counted.1]
      exact Nat.le_max_left _ _
    · exact Nat.zero_le _
  saved_le call unknown := by
    rw [bytes_usage]
    split
    · rename_i counted
      rw [Int64.toNat_toUInt64_of_le counted.1, Int32.toNatClampNeg_toInt64]
    · exact Nat.zero_le _
  charge_le tracked := Nat.le_max_right _ _

/-- The open syscall, where it is of the direction. -/
def pending (direction : Direction) (p : IoProcess) : Nat :=
  if p.currentSyscall.any (fun call => direction.covers call.type) then 1 else 0

theorem count_usage_le (direction : Direction) {p : IoProcess} {call : Syscall}
    (open_ : p.currentSyscall = some call) (timestamp : Timestamp) (ret : Int64) :
    (direction.count (usage call timestamp ret)).toNat ≤ pending direction p := by
  rw [count_usage, pending, open_, Option.any_some]
  by_cases covered : direction.covers call.type = true
  · rw [if_pos covered]
    split <;> decide
  · rw [if_neg covered, if_neg (fun both => covered both.2)]
    exact Nat.le_refl 0

theorem count_addTotals (direction : Direction) (p q : IoProcess) :
    direction.count (addTotals p q) = direction.count p + direction.count q := by
  cases direction <;> rfl

theorem count_withCurrent (direction : Direction) (p : IoProcess) (current : Option Syscall) :
    direction.count { p with currentSyscall := current } = direction.count p := by
  cases direction <;> rfl

theorem count_settled_le (direction : Direction) (p : IoProcess) (unknown : Option Syscall) :
    (direction.count (settled p.currentSyscall unknown)).toNat ≤ pending direction p := by
  cases current : p.currentSyscall with
  | none => cases direction <;> exact Nat.zero_le _
  | some call =>
    cases unknown with
    | none => cases direction <;> exact Nat.zero_le _
    | some unknown => exact count_usage_le direction current unknown.end_ unknown.ret.toInt64

theorem length_entries_singleton (direction : Direction) (tracked : Tracked) :
    (entries direction [tracked]).length =
      if tracked.entryType.any direction.covers then 1 else 0 := by
  by_cases own : tracked.entryType.any direction.covers = true <;> simp [entries, own]

theorem pending_act (direction : Direction) (p : IoProcess) (tracked : Tracked) :
    (direction.count (tracked.act p)).toNat + pending direction (tracked.act p) ≤
      (direction.count p).toNat + pending direction p +
        (entries direction [tracked]).length := by
  rw [act_eq, length_entries_singleton]
  cases enters : tracked.entryType with
  | some type =>
    have count : direction.count (p.enterSyscall tracked.event type) = direction.count p :=
      count_withCurrent direction p _
    have now : pending direction (p.enterSyscall tracked.event type) =
        if direction.covers type then 1 else 0 := by
      have entered := enterSyscall_currentSyscall tracked.event type p
      obtain ⟨call, current, rfl⟩ := Option.map_eq_some_iff.mp entered
      rw [pending, current, Option.any_some]
    rw [Option.elim_some, Option.any_some, count, now]
    omega
  | none =>
    rw [Option.elim_none, Option.any_none]
    cases current : p.currentSyscall with
    | none =>
      cases saved : p.unknownSyscall with
      | none =>
        rw [exitSyscall_saves current saved]
        have count : direction.count { p with unknownSyscall := some (savedExit tracked) } =
            direction.count p := by cases direction <;> rfl
        change (direction.count { p with unknownSyscall := some (savedExit tracked) }).toNat +
          pending direction p ≤ _
        rw [count]
        omega
      | some call =>
        rw [exitSyscall_keeps current saved]
        omega
    | some call =>
      have adds := count_usage_le direction current tracked.event.timestamp tracked.event.ret
      rw [exitSyscall_open current, count_withCurrent, count_addTotals]
      have sum := Measure.toNat_add_le (direction.count p)
        (direction.count (usage call tracked.event.timestamp tracked.event.ret))
      change _ + 0 ≤ _
      omega

/-- Each entry is counted once at most, and not while its syscall is open. -/
theorem entries_invariant (direction : Direction) : Invariant (fun _ events p =>
    (direction.count p).toNat + pending direction p ≤ (entries direction events).length) where
  fresh t events tracked := by
    have nothing : (direction.count (tracked.fresh t)).toNat = 0 := by cases direction <;> rfl
    rw [nothing]
    exact Nat.zero_le _
  act t events p tracked within := by
    have step := pending_act direction p tracked
    rw [entries, List.filter_append, List.length_append, ← entries, ← entries]
    omega
  left t first second p within := by
    rw [entries, List.filter_append, List.length_append]
    exact Nat.le_add_right_of_le within
  right t first second p within := by
    rw [entries, List.filter_append, List.length_append]
    exact Nat.le_add_left_of_le within
  merge t first second p q within within' := by
    have settles := count_settled_le direction p q.unknownSyscall
    have current : pending direction (mergeProcess (some p) q) = pending direction q := by
      rw [pending, mergeProcess_currentSyscall, ← pending]
    rw [current, mergeProcess_some, count_withCurrent, count_addTotals, count_addTotals, entries,
      List.filter_append, List.length_append, ← entries, ← entries]
    have sum := Measure.toNat_add_le (direction.count p + direction.count q)
      (direction.count (settled p.currentSyscall q.unknownSyscall))
    have sum' := Measure.toNat_add_le (direction.count p) (direction.count q)
    omega

theorem bound_countMeasure (direction : Direction) (events : List Tracked) :
    (countMeasure direction).bound events = (exits events).length := by
  simp [Measure.bound, countMeasure]

theorem bound_bytesMeasure (direction : Direction) {events : List Tracked}
    (fits : ∀ tracked ∈ exits events, FitsInt tracked.event.ret) :
    (bytesMeasure direction).bound events =
      ((exits events).map (fun tracked => tracked.event.ret.toNatClampNeg)).sum := by
  unfold Measure.bound
  congr 1
  apply List.map_congr_left
  intro tracked member
  exact returnedBytes_of_fits (fits tracked member)

/-- In every run a record is stored under its own tid, and counts each of its entries and each of
its exits once at most: an open syscall and a saved exit are not counted yet. Where the return
values fit an `int`, its bytes are within what its exits return. -/
theorem Run.counted_once (run : Run) (direction : Direction) {t : Int32} {p : IoProcess}
    (found : run.context.tids.lookup t = some p) :
    p.tid = t ∧
    (direction.count p).toNat + (if p.currentSyscall.any (direction.covers ·.type) then 1 else 0) ≤
      (entries direction (ofTid t run.events)).length ∧
    (direction.count p).toNat + (if p.unknownSyscall.isSome then 1 else 0) ≤
      (exits (ofTid t run.events)).length ∧
    ((∀ tracked ∈ exits (ofTid t run.events), FitsInt tracked.event.ret) →
      (direction.bytes p).toNat ≤
        ((exits (ofTid t run.events)).map (fun tracked => tracked.event.ret.toNatClampNeg)).sum) := by
  refine ⟨run.ownTids t p found, (entries_invariant direction).holds_run run found, ?_, ?_⟩
  · have within := (countMeasure direction).invariant.holds_run run found
    rw [Measure.Within, bound_countMeasure] at within
    cases saved : p.unknownSyscall with
    | none =>
      have held : (countMeasure direction).held p = 0 := by rw [Measure.held, saved]; rfl
      rw [held] at within
      exact within
    | some call =>
      have held : (countMeasure direction).held p = 1 := by rw [Measure.held, saved]; rfl
      rw [held] at within
      exact within
  · intro fits
    have within := (bytesMeasure direction).invariant.holds_run run found
    rw [Measure.Within, bound_bytesMeasure direction fits] at within
    exact Nat.le_of_add_right_le within

/-- A read that ends in the chunk after. -/
def straddlingRead : Run :=
  .merge
    (.handle .fresh ⟨.sysRead, { timestamp := 10, tid := some 7, procname := some "cat" }⟩)
    (.handle (.handle .fresh ⟨.exitSyscall, { timestamp := 25, tid := some 7, ret := 100 }⟩)
      ⟨.exitSyscall, { timestamp := 30, tid := some 7, ret := 5 }⟩)

/-- The record that the merge gives to the process. -/
def straddlingReader : IoProcess where
  tid := 7
  comm := "cat"
  totalReadLatency := 15
  readCount := 1
  readBytes := 100

theorem Run.counted_once_straddlingRead :
    straddlingReader.tid = 7 ∧ 1 + 0 ≤ 1 ∧ 1 + 0 ≤ 2 ∧ 100 ≤ 100 + (5 + 0) := by
  have once := Run.counted_once straddlingRead .read (t := 7) (p := straddlingReader) (by decide)
  exact ⟨once.1, once.2.1, once.2.2.1, once.2.2.2 (by decide)⟩

end IoContext

end LttngParallelAnalyses
