import LttngParallelAnalyses.Io.Chunked
import LttngParallelAnalyses.Lib.Bracketing

/-! The merge of I/O contexts is associative in what every tid holds: totals add up, the saved exit
is the one of the left, the open syscall is the one of the right, and what settles an open syscall
lies in two neighbours. -/

namespace LttngParallelAnalyses
open Lib Lib.Tables Lib.KeyedFold Tracked

namespace IoContext
open IoProcess

/-- What a saved exit adds to the totals of a process with an open syscall. -/
def settled (current unknown : Option Syscall) : IoProcess :=
  match current, unknown with
  | some call, some unknown => usage call unknown.end_ unknown.ret.toInt64
  | _, _ => {}

/-- The merge of two records adds up three totals. -/
theorem mergeProcess_some (p q : IoProcess) :
    mergeProcess (some p) q =
      { addTotals (addTotals p q) (settled p.currentSyscall q.unknownSyscall) with
        currentSyscall := q.currentSyscall } := by
  cases current : p.currentSyscall with
  | none =>
    simp only [mergeProcess, current, settled]
    simp [addTotals]
  | some call =>
    cases saved : q.unknownSyscall with
    | none =>
      simp only [mergeProcess, current, saved, settled]
      simp [addTotals]
    | some unknown =>
      simp only [mergeProcess, current, saved, settled]
      rw [finishSyscall_eq_addTotals]

theorem mergeProcess_unknownSyscall (p q : IoProcess) :
    (mergeProcess (some p) q).unknownSyscall = p.unknownSyscall := by
  rw [mergeProcess_some]
  rfl

theorem mergeProcess_assoc (p : Option IoProcess) (q r : IoProcess) :
    mergeProcess (some (mergeProcess p q)) r = mergeProcess p (mergeProcess (some q) r) := by
  cases p with
  | none => rfl
  | some p =>
    rw [mergeProcess_some, mergeProcess_currentSyscall, mergeProcess_some p,
      mergeProcess_some p, mergeProcess_unknownSyscall, mergeProcess_currentSyscall,
      mergeProcess_some q]
    -- the same five totals, added up in two orders
    simp [addTotals, add_assoc, add_left_comm, add_comm]

theorem mergeProcess_tid (p q : IoProcess) : (mergeProcess (some p) q).tid = p.tid := by
  rw [mergeProcess_some]
  rfl

/-! ## Tables -/

/-- The record of a tid in a merge, from its records in the two contexts. -/
def mergeRecord (p q : Option IoProcess) : Option IoProcess :=
  q.elim p (fun q => some (mergeProcess p q))

instance : Std.Associative mergeRecord where
  assoc p q r := by
    cases r with
    | none => rfl
    | some r =>
      cases q with
      | none => rfl
      | some q => exact congrArg some (mergeProcess_assoc p q r)

instance : Std.LawfulIdentity mergeRecord none where
  left_id q := by cases q <;> rfl
  right_id _ := rfl

theorem lookup_merge_eq (ctx : IoContext) {other : IoContext} (own : other.OwnTids) (t : Int32) :
    (ctx.merge other).tids.lookup t = mergeRecord (ctx.tids.lookup t) (other.tids.lookup t) :=
  lookup_merge ctx own t

theorem OwnTids.merge {ctx other : IoContext} (own : ctx.OwnTids) (own' : other.OwnTids) :
    (ctx.merge other).OwnTids := by
  intro t p found
  rw [lookup_merge_eq ctx own'] at found
  cases right : other.tids.lookup t with
  | none =>
    rw [right] at found
    exact own t p found
  | some q =>
    rw [right, mergeRecord, Option.elim_some, Option.some.injEq] at found
    rw [← found]
    cases left : ctx.tids.lookup t with
    | none => exact own' t q right
    | some r =>
      rw [mergeProcess_tid]
      exact own t r left

/-- However the contexts of consecutive chunks are bracketed, every tid gets the record that their
left fold gives it. -/
theorem merge_bracketing (tree : Bracketing (List Tracked)) (t : Int32) :
    (tree.eval merge ofTracked).tids.lookup t = (reduce tree.leaves).tids.lookup t := by
  let view := fun ctx : IoContext => ctx.tids.lookup t
  have good : ∀ chunk, (ofTracked chunk).OwnTids := ownTids_ofTracked
  have keeps : ∀ a b : IoContext, a.OwnTids → b.OwnTids → (a.merge b).OwnTids :=
    fun _ _ => OwnTids.merge
  have hom : ∀ a b : IoContext, b.OwnTids → view (a.merge b) = mergeRecord (view a) (view b) :=
    fun a _ own => lookup_merge_eq a own t
  have neutral : view {} = none := rfl
  exact Bracketing.view_eval_eq_foldl good keeps hom neutral tree

end IoContext

end LttngParallelAnalyses
