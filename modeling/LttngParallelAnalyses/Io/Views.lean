import LttngParallelAnalyses.Io.Context
import LttngParallelAnalyses.Lib.KeyedFold

/-! How an I/O context is read: the record of a tid. A tracked event is a local step of its
tid, so a run is described tid by tid; the merge of two contexts joins the two records. -/

namespace LttngParallelAnalyses
open Lib Lib.Tables Lib.KeyedFold

namespace Tracked

/-- What an event does to the record of its process. -/
def act (tracked : Tracked) (p : IoProcess) : IoProcess :=
  match tracked.handler with
  | .sysRead => p.enterSyscall tracked.event .read
  | .sysWrite => p.enterSyscall tracked.event .write
  | .sysReadWrite => p.enterSyscall tracked.event .readWrite
  | .exitSyscall => p.exitSyscall tracked.event.timestamp tracked.event.ret

/-- The record that an event creates for a process that has none. -/
def fresh (tracked : Tracked) (tid : Int32) : IoProcess :=
  { tid, comm := tracked.event.procname.getD "" }

def IsEntry (tracked : Tracked) : Prop := tracked.handler ≠ .exitSyscall

instance (tracked : Tracked) : Decidable tracked.IsEntry :=
  inferInstanceAs (Decidable (tracked.handler ≠ .exitSyscall))

/-- The events of one tid. An event without a tid belongs to none. -/
def ofTid (t : Int32) (events : List Tracked) : List Tracked :=
  events.filter (fun tracked => tracked.event.tid = some t)

theorem ofTid_append (t : Int32) (first second : List Tracked) :
    ofTid t (first ++ second) = ofTid t first ++ ofTid t second := List.filter_append ..

end Tracked

open Tracked

namespace IoContext

theorem handle_eq (ctx : IoContext) (tracked : Tracked) :
    ctx.handle tracked = ctx.update tracked.event tracked.act := by
  unfold handle act
  cases tracked.handler <;> rfl

theorem lookup_update (ctx : IoContext) (event : EventValue) (f : IoProcess → IoProcess)
    (t : Int32) :
    (ctx.update event f).tids.lookup t =
      if event.tid = some t then
        some (f ((ctx.tids.lookup t).getD { tid := t, comm := event.procname.getD "" }))
      else ctx.tids.lookup t := by
  unfold update
  cases own : event.tid with
  | none => simp
  | some tid =>
    simp only [Hash.lookup_insert_if, Option.some.injEq]
    by_cases same : tid = t
    · rw [if_pos same, if_pos same, same]
    · rw [if_neg same, if_neg same]

/-- The record of a process after one of its events. -/
def step (t : Int32) (found : Option IoProcess) (tracked : Tracked) : Option IoProcess :=
  some (tracked.act (found.getD (tracked.fresh t)))

/-- Tracked events as local steps of their tids. -/
def handling : Keyed IoContext Tracked Int32 (Option IoProcess) where
  step := handle
  key tracked := tracked.event.tid
  view ctx t := ctx.tids.lookup t
  act found tracked := tracked.event.tid.elim found (fun t => step t found tracked)
  view_step ctx tracked t := by
    rw [handle_eq, lookup_update]
    by_cases own : tracked.event.tid = some t
    · rw [if_pos own, if_pos own, own]
      rfl
    · rw [if_neg own, if_neg own]

/-- A run of the handlers. -/
def handleAll (ctx : IoContext) (events : List Tracked) : IoContext := events.foldl handle ctx

/-- The record of a process after its events, from no record. -/
def record (t : Int32) (events : List Tracked) : Option IoProcess := events.foldl (step t) none

theorem foldl_act (t : Int32) (events : List Tracked) (found : Option IoProcess) :
    (ofTid t events).foldl handling.act found = (ofTid t events).foldl (step t) found := by
  induction events generalizing found with
  | nil => rfl
  | cons tracked rest ih =>
    by_cases own : tracked.event.tid = some t
    · have head : ofTid t (tracked :: rest) = tracked :: ofTid t rest :=
        List.filter_cons_of_pos (by simpa using own)
      rw [head, List.foldl_cons, List.foldl_cons, ih]
      simp [handling, own]
    · have head : ofTid t (tracked :: rest) = ofTid t rest :=
        List.filter_cons_of_neg (by simpa using own)
      rw [head, ih]

theorem lookup_handleAll (events : List Tracked) (t : Int32) :
    (handleAll {} events).tids.lookup t = record t (ofTid t events) :=
  (handling.view_run {} events t).trans (foldl_act t events none)

theorem record_concat (t : Int32) (events : List Tracked) (tracked : Tracked) :
    record t (events ++ [tracked]) = step t (record t events) tracked := List.foldl_concat ..

theorem record_eq_none {t : Int32} {events : List Tracked} : record t events = none ↔ events = [] := by
  induction events using List.reverseRecOn with
  | nil => simp [record]
  | append_singleton events tracked _ => simp [record_concat, step]

/-- What a list of events does to a record. -/
def acts (p : IoProcess) (events : List Tracked) : IoProcess :=
  events.foldl (fun p tracked => tracked.act p) p

theorem foldl_step (t : Int32) (p : IoProcess) (events : List Tracked) :
    events.foldl (step t) (some p) = some (acts p events) := by
  induction events generalizing p with
  | nil => rfl
  | cons tracked rest ih => exact ih (tracked.act p)

theorem record_cons (t : Int32) (tracked : Tracked) (rest : List Tracked) :
    record t (tracked :: rest) = some (acts (tracked.fresh t) (tracked :: rest)) :=
  foldl_step t _ rest

theorem record_append {t : Int32} {first : List Tracked} {p : IoProcess}
    (found : record t first = some p) (second : List Tracked) :
    record t (first ++ second) = some (acts p second) := by
  rw [record, List.foldl_append, ← record, found, foldl_step]

/-! ## Accounting -/

/-- What the end of a syscall adds to the totals of its process. -/
def usage (call : Syscall) (timestamp : Timestamp) (ret : Int64) : IoProcess :=
  IoProcess.exitSyscall timestamp ret { currentSyscall := some call }

/-- An exit of an open syscall adds its usage. -/
theorem exitSyscall_open {p : IoProcess} {call : Syscall} (open_ : p.currentSyscall = some call)
    (timestamp : Timestamp) (ret : Int64) :
    p.exitSyscall timestamp ret =
      { addTotals p (usage call timestamp ret) with currentSyscall := none } := by
  unfold usage IoProcess.exitSyscall IoProcess.countRead IoProcess.countWrite
  simp only [open_]
  by_cases done : ret ≥ 0 <;>
    by_cases reads : call.type = .read ∨ call.type = .readWrite <;>
    by_cases writes : call.type = .write ∨ call.type = .readWrite <;>
    simp [done, reads, writes, addTotals]

/-- The accounting of `merge` adds the usage that the saved exit tells. -/
theorem finishSyscall_eq_addTotals (call unknown : Syscall) (p : IoProcess) :
    finishSyscall call unknown p =
      addTotals p (usage call unknown.end_ unknown.ret.toInt64) := by
  unfold usage finishSyscall IoProcess.exitSyscall IoProcess.countRead IoProcess.countWrite
  by_cases done : unknown.ret.toInt64 ≥ 0 <;>
    by_cases reads : call.type = .read ∨ call.type = .readWrite <;>
    by_cases writes : call.type = .write ∨ call.type = .readWrite <;>
    simp [done, reads, writes, addTotals]

/-! ## Names -/

theorem act_tid (tracked : Tracked) (p : IoProcess) : (tracked.act p).tid = p.tid := by
  unfold act
  cases tracked.handler <;> try rfl
  cases current : p.currentSyscall with
  | none =>
    unfold IoProcess.exitSyscall
    by_cases known : p.unknownSyscall.isNone <;> simp [current, known]
  | some call =>
    rw [exitSyscall_open current]
    rfl

theorem record_tid {t : Int32} {events : List Tracked} {p : IoProcess}
    (found : record t events = some p) : p.tid = t := by
  induction events using List.reverseRecOn generalizing p with
  | nil => cases found
  | append_singleton events tracked ih =>
    rw [record_concat, step, Option.some.injEq] at found
    rw [← found, act_tid]
    cases before : record t events with
    | none => rfl
    | some q => exact ih before

/-! ## Merging -/

/-- Every process is stored under its own tid. -/
def OwnTids (ctx : IoContext) : Prop := ∀ t p, ctx.tids.lookup t = some p → p.tid = t

theorem merge_tids (ctx : IoContext) {other : IoContext} (own : other.OwnTids) :
    (ctx.merge other).tids = Hash.absorb mergeProcess ctx.tids other.tids := by
  have named : ∀ entry ∈ other.tids.entries, entry.2.tid = entry.1 := by
    intro entry member
    exact own entry.1 entry.2 (AList.mem_lookup_iff.mpr member)
  unfold merge Hash.absorb
  rw [List.foldl_map]
  apply List.foldl_ext
  intro tids entry member
  rw [named entry member]

/-- A record of the result, from the two records of its tid. -/
theorem lookup_merge (ctx : IoContext) {other : IoContext} (own : other.OwnTids) (t : Int32) :
    (ctx.merge other).tids.lookup t = (other.tids.lookup t).elim (ctx.tids.lookup t)
      (fun q => some (mergeProcess (ctx.tids.lookup t) q)) := by
  rw [merge_tids ctx own, Hash.lookup_absorb]

end IoContext

end LttngParallelAnalyses
