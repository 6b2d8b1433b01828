import LttngParallelAnalyses.Io.Views

/-! The I/O analysis over consecutive chunks. The record that a chunk adds to is moved by the
chunk's events as a fresh record is, except for its totals, and except for the first exit: where
a syscall is open before the chunk, `merge` accounts for it from the exit that the chunk saved. -/

namespace LttngParallelAnalyses
open Lib Lib.Tables Lib.KeyedFold Tracked

namespace IoProcess

/-- A record but for the saved exit, which no result shows. -/
def visible (p : IoProcess) : IoProcess := { p with unknownSyscall := none }

/-- A return value that the `int` of a saved exit holds. -/
def FitsInt (ret : Int64) : Prop := -2 ^ 31 ≤ ret.toInt ∧ ret.toInt < 2 ^ 31

instance (ret : Int64) : Decidable (FitsInt ret) :=
  inferInstanceAs (Decidable (-2 ^ 31 ≤ ret.toInt ∧ ret.toInt < 2 ^ 31))

theorem toInt64_toInt32 {ret : Int64} (fits : FitsInt ret) : ret.toInt32.toInt64 = ret := by
  unfold FitsInt at fits
  apply Int64.toInt_inj.mp
  rw [Int32.toInt_toInt64, Int64.toInt_toInt32]
  apply Int.bmod_eq_of_le <;> omega

end IoProcess

namespace IoContext
open IoProcess

/-- The totals of both records; everything else but the open syscall is that of the first. -/
def joined (p q : IoProcess) : IoProcess :=
  { addTotals p q with currentSyscall := q.currentSyscall }

/-- The accounting of `merge` is that of an exit in the same context. -/
theorem finishSyscall_eq {p : IoProcess} {call : Syscall} (open_ : p.currentSyscall = some call)
    (timestamp : Timestamp) {ret : Int64} (fits : FitsInt ret) :
    p.exitSyscall timestamp ret =
      { finishSyscall call { end_ := timestamp, ret := ret.toInt32 } p with
        currentSyscall := none } := by
  rw [exitSyscall_open open_, finishSyscall_eq_addTotals, toInt64_toInt32 fits]

theorem exitSyscall_idle {p : IoProcess} (idle : p.currentSyscall = none) (timestamp : Timestamp)
    (ret : Int64) : (p.exitSyscall timestamp ret).visible = p.visible := by
  unfold exitSyscall
  rw [idle]
  by_cases first : p.unknownSyscall.isNone
  · simp [first, visible, idle]
  · simp [first]

/-- Events do to what shows of a record what they do to the record. -/
theorem visible_act (tracked : Tracked) (p : IoProcess) :
    (tracked.act p).visible = (tracked.act p.visible).visible := by
  unfold act
  cases tracked.handler <;> try rfl
  cases current : p.currentSyscall with
  | none =>
    have idle : p.visible.currentSyscall = none := current
    rw [exitSyscall_idle current, exitSyscall_idle idle]
    rfl
  | some call =>
    have shown : p.visible.currentSyscall = some call := current
    rw [exitSyscall_open current, exitSyscall_open shown]
    rfl

theorem visible_act_congr {p q : IoProcess} (same : p.visible = q.visible) (tracked : Tracked) :
    (tracked.act p).visible = (tracked.act q).visible := by
  rw [visible_act, same, ← visible_act]

/-- What an event adds does not depend on the totals. -/
theorem act_joined (p q : IoProcess) (tracked : Tracked) :
    (tracked.act (joined p q)).visible = (joined p (tracked.act q)).visible := by
  unfold act
  cases tracked.handler <;> try rfl
  have shared : (joined p q).currentSyscall = q.currentSyscall := rfl
  cases current : q.currentSyscall with
  | none =>
    rw [current] at shared
    rw [exitSyscall_idle shared]
    unfold exitSyscall
    by_cases first : q.unknownSyscall.isNone <;>
      simp [current, first, joined, addTotals, visible]
  | some call =>
    rw [current] at shared
    rw [exitSyscall_open shared, exitSyscall_open current]
    simp [joined, addTotals, visible, add_assoc]

theorem acts_joined (p q : IoProcess) (events : List Tracked) :
    (acts (joined p q) events).visible = (joined p (acts q events)).visible := by
  unfold acts
  induction events using List.reverseRecOn with
  | nil => rfl
  | append_singleton events tracked ih =>
    rw [List.foldl_concat, List.foldl_concat, visible_act_congr ih, act_joined]

theorem visible_joined_congr {p q : IoProcess} (same : p.visible = q.visible) (other : IoProcess) :
    (joined p other).visible = (joined q other).visible := by
  have inside : ∀ p : IoProcess, (joined p other).visible = joined p.visible other := fun _ => rfl
  rw [inside, same, ← inside]

/-! ## Saved exits -/

/-- An exit as a chunk saves it. -/
def savedExit (tracked : Tracked) : Syscall where
  end_ := tracked.event.timestamp
  ret := tracked.event.ret.toInt32

/-- The first exit that finds no open syscall is saved, wherever it comes. -/
theorem act_unknownSyscall_eq (tracked : Tracked) (p : IoProcess) :
    (tracked.act p).unknownSyscall =
      if ¬ tracked.IsEntry ∧ p.currentSyscall = none ∧ p.unknownSyscall = none then
        some (savedExit tracked)
      else p.unknownSyscall := by
  by_cases exits : tracked.handler = .exitSyscall
  · have leaves : ¬ tracked.IsEntry := fun entry => entry exits
    have exit_ : tracked.act p = p.exitSyscall tracked.event.timestamp tracked.event.ret := by
      rw [act, exits]
    rw [exit_]
    cases current : p.currentSyscall with
    | none => cases saved : p.unknownSyscall <;> simp [exitSyscall, current, saved, leaves, savedExit]
    | some open_ =>
      rw [exitSyscall_open current, if_neg (by simp)]
      rfl
  · rw [if_neg (fun both => both.1 exits)]
    unfold act
    cases handler : tracked.handler with
    | exitSyscall => exact absurd handler exits
    | _ => rfl

theorem act_unknownSyscall {p : IoProcess} {call : Syscall} (saved : p.unknownSyscall = some call)
    (tracked : Tracked) : (tracked.act p).unknownSyscall = some call := by
  rw [act_unknownSyscall_eq, if_neg (by simp [saved]), saved]

theorem acts_unknownSyscall {p : IoProcess} {call : Syscall} (saved : p.unknownSyscall = some call)
    (events : List Tracked) : (acts p events).unknownSyscall = some call := by
  unfold acts
  induction events using List.reverseRecOn with
  | nil => exact saved
  | append_singleton events tracked ih =>
    rw [List.foldl_concat]
    exact act_unknownSyscall ih tracked

theorem joined_finish (call unknown : Syscall) (p q : IoProcess) :
    { finishSyscall call unknown (addTotals p q) with currentSyscall := q.currentSyscall } =
      joined (finishSyscall call unknown p) q := by
  rw [finishSyscall_eq_addTotals, finishSyscall_eq_addTotals]
  simp [joined, addTotals, add_right_comm]

/-- A record without totals and without an open syscall joins to the record it is joined to. -/
theorem joined_fresh {p q : IoProcess} (idle : p.currentSyscall = q.currentSyscall)
    (fresh : addTotals p q = p) : joined p q = p := by
  rw [joined, fresh, ← idle]

/-! ## One chunk -/

theorem mergeProcess_currentSyscall (found : Option IoProcess) (q : IoProcess) :
    (mergeProcess found q).currentSyscall = q.currentSyscall := by
  cases found <;> rfl

theorem mergeProcess_idle {r : IoProcess} (idle : r.currentSyscall = none) (q : IoProcess) :
    mergeProcess (some r) q = joined r q := by
  simp only [mergeProcess, idle]
  rfl

theorem mergeProcess_open {r q : IoProcess} {call unknown : Syscall}
    (open_ : r.currentSyscall = some call) (saved : q.unknownSyscall = some unknown) :
    mergeProcess (some r) q = joined (finishSyscall call unknown r) q := by
  simp only [mergeProcess, open_, saved]
  exact joined_finish call unknown r q

theorem visible_finishSyscall (call unknown : Syscall) (p : IoProcess) :
    (finishSyscall call unknown p).visible = finishSyscall call unknown p.visible := by
  rw [finishSyscall_eq_addTotals, finishSyscall_eq_addTotals]
  rfl

/-- The record of a process whose first event is an exit. -/
theorem act_fresh_exit {tracked : Tracked} (exits : tracked.handler = .exitSyscall) (t : Int32) :
    tracked.act (tracked.fresh t) =
      { tracked.fresh t with unknownSyscall := some (savedExit tracked) } := by
  rw [act, exits]
  rfl

/-- An exit of an open syscall, as `merge` accounts for it from the saved exit. -/
theorem act_open_exit {tracked : Tracked} (exits : tracked.handler = .exitSyscall)
    (fits : FitsInt tracked.event.ret) {p : IoProcess} {call : Syscall}
    (open_ : p.currentSyscall = some call) :
    tracked.act p =
      { finishSyscall call (savedExit tracked) p with currentSyscall := none } := by
  rw [act, exits]
  exact finishSyscall_eq open_ tracked.event.timestamp fits

theorem addTotals_fresh (p : IoProcess) (tracked : Tracked) (t : Int32) (unknown : Option Syscall) :
    addTotals p { tracked.fresh t with unknownSyscall := unknown } = p := by
  simp [addTotals, fresh]

/-- Merging a chunk's record does to a record what the chunk's events do, where an open syscall
meets an exit first. -/
theorem visible_mergeProcess {r p q : IoProcess} (same : r.visible = p.visible) {t : Int32}
    {chunk : List Tracked} (found : record t chunk = some q)
    (fits : ∀ tracked ∈ chunk, ¬ tracked.IsEntry → FitsInt tracked.event.ret)
    (closes : p.currentSyscall ≠ none → ∀ first ∈ chunk.head?, ¬ first.IsEntry) :
    (mergeProcess (some r) q).visible = (acts p chunk).visible := by
  cases chunk with
  | nil => cases found
  | cons first rest =>
    rw [record_cons, Option.some.injEq] at found
    have current : r.currentSyscall = p.currentSyscall := congrArg (·.currentSyscall) same
    cases open_ : p.currentSyscall with
    | none =>
      have start : joined p (first.fresh t) = p :=
        joined_fresh open_ (addTotals_fresh p first t none)
      rw [mergeProcess_idle (current.trans open_), visible_joined_congr same, ← found,
        ← acts_joined, start]
    | some call =>
      have exits : first.handler = .exitSyscall := by
        by_contra entry
        exact closes (by simp [open_]) first rfl entry
      have small := fits first List.mem_cons_self (fun entry => entry exits)
      have closed := act_open_exit exits small open_
      -- the chunk saves its first exit, and the merge accounts for it in the record
      change acts (first.act (first.fresh t)) rest = q at found
      rw [act_fresh_exit exits] at found
      have saved : q.unknownSyscall = some (savedExit first) := by
        rw [← found]
        exact acts_unknownSyscall rfl rest
      have agree : (finishSyscall call (savedExit first) r).visible =
          (finishSyscall call (savedExit first) p).visible := by
        rw [visible_finishSyscall, visible_finishSyscall, same]
      have restart : joined (finishSyscall call (savedExit first) p)
          { first.fresh t with unknownSyscall := some (savedExit first) } = first.act p := by
        rw [closed, joined, addTotals_fresh]
        rfl
      rw [mergeProcess_open (current.trans open_) saved, visible_joined_congr agree, ← found,
        ← acts_joined, restart]
      rfl

/-! ## Runs -/

/-- The context of a worker with these tracked events. -/
def ofTracked (events : List Tracked) : IoContext := (handleAll {} events).handleEnd

/-- The left fold of the chunk contexts, from a default context. -/
def reduce (chunks : List (List Tracked)) : IoContext := (chunks.map ofTracked).foldl merge {}

theorem lookup_ofTracked (events : List Tracked) (t : Int32) :
    (ofTracked events).tids.lookup t = record t (ofTid t events) := lookup_handleAll events t

/-- A worker stores every process under its own tid. -/
theorem ownTids_ofTracked (events : List Tracked) : (ofTracked events).OwnTids := by
  intro t p found
  rw [lookup_ofTracked] at found
  exact record_tid found

/-- A record after a merge, from the events of the worker that is merged. -/
theorem lookup_merge_ofTracked (ctx : IoContext) (chunk : List Tracked) (t : Int32) :
    (ctx.merge (ofTracked chunk)).tids.lookup t =
      (record t (ofTid t chunk)).elim (ctx.tids.lookup t)
        (fun q => some (mergeProcess (ctx.tids.lookup t) q)) := by
  rw [lookup_merge ctx (ownTids_ofTracked chunk), lookup_ofTracked]

theorem reduce_concat (chunks : List (List Tracked)) (chunk : List Tracked) :
    reduce (chunks ++ [chunk]) = (reduce chunks).merge (ofTracked chunk) := by
  simp [reduce]

/-- In every process, no entry directly follows another. -/
def Alternating (events : List Tracked) : Prop :=
  ∀ t, (ofTid t events).IsChain (fun first second => first.IsEntry → ¬ second.IsEntry)

theorem exitSyscall_currentSyscall (p : IoProcess) (timestamp : Timestamp) (ret : Int64) :
    (p.exitSyscall timestamp ret).currentSyscall = none := by
  cases current : p.currentSyscall with
  | none =>
    unfold exitSyscall
    by_cases first : p.unknownSyscall.isNone <;> simp [first, current]
  | some call => rw [exitSyscall_open current]

/-- A syscall is open only right after its entry. -/
theorem record_open {t : Int32} {events : List Tracked} {p : IoProcess}
    (found : record t events = some p) (open_ : p.currentSyscall ≠ none) :
    ∃ last ∈ events.getLast?, last.IsEntry := by
  induction events using List.reverseRecOn with
  | nil => cases found
  | append_singleton events tracked _ =>
    refine ⟨tracked, by simp, fun exits => open_ ?_⟩
    rw [record_concat, step, Option.some.injEq] at found
    rw [← found, act, exits]
    exact exitSyscall_currentSyscall _ _ _

theorem lookup_reduce (chunks : List (List Tracked))
    (fits : ∀ tracked ∈ chunks.flatten, ¬ tracked.IsEntry → FitsInt tracked.event.ret)
    (alternating : Alternating chunks.flatten) (t : Int32) :
    ((reduce chunks).tids.lookup t).map visible =
      (record t (ofTid t chunks.flatten)).map visible := by
  induction chunks using List.reverseRecOn with
  | nil => rfl
  | append_singleton chunks chunk ih =>
    rw [List.flatten_concat] at fits alternating ⊢
    have chain := alternating t
    rw [ofTid_append, List.isChain_append] at chain
    have earlier := ih (fun tracked member => fits tracked (List.mem_append_left _ member))
      (fun t => by
        have chain := alternating t
        rw [ofTid_append] at chain
        exact chain.left_of_append)
    rw [reduce_concat, lookup_merge_ofTracked, ofTid_append]
    cases here : record t (ofTid t chunk) with
    | none => rw [record_eq_none.mp here, List.append_nil, Option.elim_none, earlier]
    | some q =>
      rw [Option.elim_some, Option.map_some]
      cases before : record t (ofTid t chunks.flatten) with
      | none =>
        rw [before, Option.map_none, Option.map_eq_none_iff] at earlier
        rw [earlier, record_eq_none.mp before, List.nil_append, here]
        rfl
      | some p =>
        rw [before, Option.map_some, Option.map_eq_some_iff] at earlier
        obtain ⟨r, found, same⟩ := earlier
        have closes : p.currentSyscall ≠ none → ∀ first ∈ (ofTid t chunk).head?,
            ¬ first.IsEntry := by
          intro open_ first head
          obtain ⟨last, inside, entry⟩ := record_open before open_
          exact chain.2.2 last inside first head entry
        have small : ∀ tracked ∈ ofTid t chunk, ¬ tracked.IsEntry → FitsInt tracked.event.ret :=
          fun tracked member =>
            fits tracked (List.mem_append_right _ (List.mem_of_mem_filter member))
        rw [found, record_append before, Option.map_some,
          visible_mergeProcess same here small closes]

/-- The merged chunks give every process the record that a serial pass gives it, but for the
saved exit: the same tid, name, open syscall and totals. -/
theorem io_chunked_agrees_serial (chunks : List (List Tracked))
    (fits : ∀ tracked ∈ chunks.flatten, ¬ tracked.IsEntry → FitsInt tracked.event.ret)
    (alternating : Alternating chunks.flatten) (t : Int32) :
    ((reduce chunks).handleEnd.tids.lookup t).map visible =
      ((ofTracked chunks.flatten).tids.lookup t).map visible := by
  rw [lookup_ofTracked]
  exact lookup_reduce chunks fits alternating t

/-- A read that is open across an empty chunk. -/
def openRead : List (List Tracked) :=
  [[⟨.sysRead, { timestamp := 10, tid := some 7, procname := some "cat", name := "sys_read" }⟩], [],
    [⟨.exitSyscall, { timestamp := 25, tid := some 7, ret := 100 }⟩,
      ⟨.exitSyscall, { timestamp := 30, tid := some 7, ret := 3 }⟩]]

theorem io_chunked_agrees_serial_openRead :
    ((reduce openRead).handleEnd.tids.lookup 7).map visible =
      ((ofTracked openRead.flatten).tids.lookup 7).map visible :=
  io_chunked_agrees_serial openRead (by decide) (by
    intro t
    by_cases own : t = 7
    · subst own
      decide
    · have absent : ofTid t openRead.flatten = [] := by
        simp [ofTid, openRead, Ne.symm own]
      rw [absent]
      exact List.isChain_nil) 7

end IoContext

end LttngParallelAnalyses
