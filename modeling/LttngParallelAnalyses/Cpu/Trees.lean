import LttngParallelAnalyses.Cpu.Chunked
import LttngParallelAnalyses.Cpu.Reachable
import LttngParallelAnalyses.Lib.Bracketing

/-! Merges of CPU contexts that are bracketed in any way. A merge keeps what its left context found
running, and nothing of what its right one did on a CPU that the left has no record of. So the
merges agree with the left fold where the leftmost chunk of each right operand has events on the
CPUs on which a task is handed to that operand. -/

namespace LttngParallelAnalyses
open Lib Lib.Tables Lib.KeyedFold Lib.Adjacent

namespace CpuContext

/-- The events of the chunks of a bracketing. -/
def treeEvents (tree : Bracketing Chunk) : List EventValue := tree.leaves.flatMap Chunk.events

/-- Where a task is handed to a merged context, its leftmost chunk closes it. -/
def Heard : Bracketing Chunk → Prop
  | .leaf _ => True
  | .node left right => Heard left ∧ Heard right ∧
      ∀ cpu, lastTask (onCpu cpu (treeEvents left)) ≠ none → onCpu cpu (treeEvents right) ≠ [] →
        onCpu cpu right.first.events ≠ []

theorem treeEvents_node (left right : Bracketing Chunk) :
    treeEvents (.node left right) = treeEvents left ++ treeEvents right := by
  rw [treeEvents, Bracketing.leaves, List.flatMap_append, ← treeEvents, ← treeEvents]

theorem unknownTask_merge (ctx : CpuContext) {other : CpuContext} (distinct : other.Distinct)
    (cpu : UInt32) :
    ((ctx.merge other).find cpu).bind (·.unknownTask) = (ctx.find cpu).bind (·.unknownTask) := by
  rw [find_merge ctx other distinct]
  cases other.find cpu with
  | none => rfl
  | some otherCpu =>
    rw [Option.elim_some, Option.bind_some, fixCpu_unknownTask, addTime_unknownTask]

theorem distinct_eval (tree : Bracketing Chunk) : (tree.eval merge ofChunk).Distinct := by
  have fresh : ∀ chunk : Chunk, (ofChunk chunk).Distinct :=
    fun chunk => distinct_ofEvents chunk.events chunk.start chunk.end_
  exact Bracketing.good_eval fresh (fun _ other distinct _ => distinct_merge distinct other) tree

/-- Of all chunks only the first one says what was running when the trace began. -/
theorem unknownTask_eval (tree : Bracketing Chunk) (cpu : UInt32) :
    ((tree.eval merge ofChunk).find cpu).bind (·.unknownTask) =
      (record (onCpu cpu tree.first.events)).bind (·.unknownTask) := by
  induction tree with
  | leaf chunk =>
    rw [Bracketing.first, ← find_ofEvents chunk.events chunk.start chunk.end_]
    rfl
  | node left right ih _ =>
    rw [Bracketing.eval, unknownTask_merge _ (distinct_eval right), ih]
    rfl

theorem head_treeEvents (tree : Bracketing Chunk) {cpu : UInt32}
    (heard : onCpu cpu tree.first.events ≠ []) :
    (onCpu cpu (treeEvents tree)).head? = (onCpu cpu tree.first.events).head? := by
  obtain ⟨rest, same⟩ := tree.leaves_eq_cons
  rw [treeEvents, same, List.flatMap_cons, onCpu_append, List.head?_append_of_ne_nil _ heard]

theorem settled_first (tree : Bracketing Chunk) {cpu : UInt32}
    (settled : Settled (onCpu cpu (treeEvents tree))) :
    Settled (onCpu cpu tree.first.events) := by
  obtain ⟨rest, same⟩ := tree.leaves_eq_cons
  rw [treeEvents, same, List.flatMap_cons, onCpu_append] at settled
  exact settled.left_of_append

/-- A heard context tells the tasks that are handed to it. -/
theorem tells_eval {events : List EventValue} (tree : Bracketing Chunk)
    (chained : Chained (events ++ treeEvents tree))
    (heard : ∀ cpu, lastTask (onCpu cpu events) ≠ none → onCpu cpu (treeEvents tree) ≠ [] →
      onCpu cpu tree.first.events ≠ []) :
    (tree.eval merge ofChunk).Tells events (treeEvents tree) := by
  intro cpu carried
  rw [unknownTask_eval]
  obtain ⟨settled, runs⟩ := handover_of_chained chained cpu carried
  rw [record_unknownTask (settled_first tree settled)]
  by_cases absent : onCpu cpu (treeEvents tree) = []
  · obtain ⟨rest, same⟩ := tree.leaves_eq_cons
    have none_first : onCpu cpu tree.first.events = [] := by
      rw [treeEvents, same, List.flatMap_cons, onCpu_append, List.append_eq_nil_iff] at absent
      exact absent.1
    rw [absent, none_first]
    rfl
  · have head := head_treeEvents tree (heard cpu carried absent)
    rw [head] at runs ⊢
    cases first : (onCpu cpu tree.first.events).head? with
    | none => rfl
    | some event => simp [unknownBefore, runs event first]

theorem chained_append {events chunk : List EventValue} (chained : Chained (events ++ chunk)) :
    Chained events ∧ Chained chunk := by
  constructor
  · intro cpu
    have chain := chained cpu
    rw [onCpu_append] at chain
    exact chain.left_of_append
  · intro cpu
    have chain := chained cpu
    rw [onCpu_append] at chain
    exact chain.right_of_append

theorem accounts_eval (tree : Bracketing Chunk) (chained : Chained (treeEvents tree))
    (heard : Heard tree) : (tree.eval merge ofChunk).Accounts (treeEvents tree) := by
  induction tree with
  | leaf chunk =>
    rw [treeEvents, Bracketing.leaves, List.flatMap_singleton]
    exact accounts_ofEvents chunk.events chunk.start chunk.end_
  | node left right ih ih' =>
    rw [treeEvents_node] at chained ⊢
    obtain ⟨chainedLeft, chainedRight⟩ := chained_append chained
    exact (ih chainedLeft heard.1).join (ih' chainedRight heard.2.1)
      (tells_eval right chained heard.2.2) chained

theorem end_eval (tree : Bracketing Chunk) :
    (tree.eval merge ofChunk).end_ = (reduce tree.leaves).end_ := by
  have unit : Std.LawfulIdentity (max : Timestamp → Timestamp → Timestamp) 0 :=
    { left_id := fun _ => max_eq_right UInt64.zero_le
      right_id := fun _ => max_eq_left UInt64.zero_le }
  have hom : ∀ a b : CpuContext, True → (a.merge b).end_ = max a.end_ b.end_ :=
    fun a b _ => merge_end a b
  have neutral : ({} : CpuContext).end_ = 0 := rfl
  exact Bracketing.view_eval_eq_foldl (fun _ => trivial) (fun _ _ _ _ => trivial) hom neutral tree

/-- Merges that are bracketed in any way report what the left fold reports, where every right
operand closes in its leftmost chunk the tasks that are handed to it. -/
theorem bracketing_agrees_reduce (tree : Bracketing Chunk) (chained : Chained (treeEvents tree))
    (heard : Heard tree) :
    SameResults (tree.eval merge ofChunk).handleEnd (reduce tree.leaves).handleEnd :=
  (accounts_eval tree chained heard).sameResults (reduce_accounts tree.leaves chained)
    (end_eval tree)

/-- A task that crosses the whole of the first chunk of a right operand, on whose CPU another task
is switched out there. -/
def pairedChunks : Bracketing Chunk :=
  .node (.leaf ⟨[{ timestamp := 10, nextTid := 5 }], 0, 20⟩)
    (.node (.leaf ⟨[{ timestamp := 30, prevTid := 5, nextTid := 6 }], 21, 40⟩)
      (.leaf ⟨[{ timestamp := 50, prevTid := 6, nextTid := 0 }], 41, 60⟩))

theorem bracketing_agrees_reduce_pairedChunks :
    SameResults (pairedChunks.eval merge ofChunk).handleEnd
      (reduce pairedChunks.leaves).handleEnd := by
  apply bracketing_agrees_reduce pairedChunks (by decide)
  refine ⟨trivial, ⟨trivial, trivial, ?_⟩, ?_⟩ <;>
  · intro cpu carried _
    by_cases own : cpu = 0
    · subst own
      decide
    · exact absurd (by simp [treeEvents, Bracketing.leaves, onCpu, Ne.symm own, lastTask]) carried

/-- A right operand whose leftmost chunk is silent on a CPU does not close the task that is handed
to it there: the task stays open, and what that operand left open is lost. -/
theorem unheard_keeps_task (left right : Bracketing Chunk) {cpu : UInt32}
    (carried : ((left.eval merge ofChunk).find cpu).bind (·.currentTask) ≠ none)
    (silent : onCpu cpu right.first.events = []) :
    (((Bracketing.node left right).eval merge ofChunk).find cpu).bind (·.currentTask) =
      ((left.eval merge ofChunk).find cpu).bind (·.currentTask) := by
  have told := unknownTask_eval right cpu
  rw [silent, record_eq_none.mpr rfl, Option.bind_none] at told
  rw [Bracketing.eval, find_merge _ _ (distinct_eval right)]
  cases found : (right.eval merge ofChunk).find cpu with
  | none => rfl
  | some otherCpu =>
    rw [found, Option.bind_some] at told
    rw [Option.elim_some, Option.bind_some, fixCpu_currentTask, addTime_currentTask,
      if_pos ⟨carried, told⟩]

end CpuContext

end LttngParallelAnalyses
