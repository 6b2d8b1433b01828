import LttngParallelAnalyses.Lib.Cuts
import LttngParallelAnalyses.Cpu.Reference

/-! A trace cut into consecutive chunks. The reduction of the chunk contexts accounts for the
whole trace: always in a chained trace, and otherwise, for the CPU records, where every chunk
closes the tasks that were left open before it. -/

namespace LttngParallelAnalyses
open Lib Lib.Tables Lib.Adjacent CpuContext
open scoped BigOperators

/-- The chunks that cuts leave of a trace, with the bounds that `doMap` sets. -/
def cutInto (events : List EventValue) (traceBegin traceEnd : Timestamp) (cuts : List Timestamp) :
    List Chunk :=
  (Cuts.spans none cuts).map (fun span =>
    { events := Cuts.part (·.timestamp) events span
      start := (span.lo.map (· + 1)).getD traceBegin
      end_ := span.hi.getD traceEnd })

/-- The last cut or the trace end, whichever is later. -/
def mergedEnd (traceEnd : Timestamp) (cuts : List Timestamp) : Timestamp :=
  max (latest cuts) traceEnd

theorem cutInto_events {events : List EventValue} {cuts : List Timestamp}
    (traceBegin traceEnd : Timestamp) (sorted : TimeSorted events)
    (ordered : cuts.Pairwise (· ≤ ·)) :
    (cutInto events traceBegin traceEnd cuts).flatMap Chunk.events = events := by
  rw [cutInto, List.flatMap_map]
  exact Cuts.flatMap_parts_all (·.timestamp) events cuts sorted ordered

theorem spans_ends (lo : Option Timestamp) (traceEnd : Timestamp) (cuts : List Timestamp) :
    (Cuts.spans lo cuts).map (fun span => span.hi.getD traceEnd) = cuts ++ [traceEnd] := by
  induction cuts generalizing lo with
  | nil => rfl
  | cons cut rest ih => rw [Cuts.spans, List.map_cons, ih]; rfl

theorem cutInto_ends (events : List EventValue) (traceBegin traceEnd : Timestamp)
    (cuts : List Timestamp) :
    (cutInto events traceBegin traceEnd cuts).map Chunk.end_ = cuts ++ [traceEnd] := by
  rw [cutInto, List.map_map]
  exact spans_ends none traceEnd cuts

theorem reduce_cutInto_end (events : List EventValue) (traceBegin traceEnd : Timestamp)
    (cuts : List Timestamp) :
    (reduce (cutInto events traceBegin traceEnd cuts)).end_ = mergedEnd traceEnd cuts := by
  rw [reduce_end, cutInto_ends, latest_concat, mergedEnd]

theorem mergedEnd_eq {traceEnd : Timestamp} {cuts : List Timestamp}
    (inside : ∀ cut ∈ cuts, cut ≤ traceEnd) : mergedEnd traceEnd cuts = traceEnd :=
  max_eq_right (latest_le_iff.mpr inside)

theorem reduce_cutInto_accounts {events : List EventValue} {cuts : List Timestamp}
    (traceBegin traceEnd : Timestamp) (sorted : TimeSorted events) (chained : Chained events)
    (ordered : cuts.Pairwise (· ≤ ·)) :
    (reduce (cutInto events traceBegin traceEnd cuts)).Accounts events := by
  have whole := cutInto_events traceBegin traceEnd sorted ordered
  have accounts := reduce_accounts (cutInto events traceBegin traceEnd cuts)
  rw [whole] at accounts
  exact accounts chained

/-- The merged chunks of a chained trace give what a serial pass gives. The serial pass ends
where the chunks end: at the trace end, unless a cut lies beyond it. -/
theorem chunked_agrees_serial (events : List EventValue) (cuts : List Timestamp)
    (traceBegin traceEnd : Timestamp) (sorted : TimeSorted events) (chained : Chained events)
    (ordered : cuts.Pairwise (· ≤ ·)) :
    SameResults (reduce (cutInto events traceBegin traceEnd cuts)).handleEnd
      (ofEvents events traceBegin (mergedEnd traceEnd cuts)).handleEnd ∧
    ((∀ cut ∈ cuts, cut ≤ traceEnd) →
      SameResults (reduce (cutInto events traceBegin traceEnd cuts)).handleEnd
        (ofEvents events traceBegin traceEnd).handleEnd) := by
  have accounts := reduce_cutInto_accounts traceBegin traceEnd sorted chained ordered
  have closed := reduce_cutInto_end events traceBegin traceEnd cuts
  constructor
  · apply accounts.sameResults (accounts_ofEvents events _ _)
    rw [closed, ofEvents_end]
  · intro inside
    apply accounts.sameResults (accounts_ofEvents events _ _)
    rw [closed, ofEvents_end, mergedEnd_eq inside]

/-- A task that runs across a cut and a chunk without events. -/
def longTask : List EventValue :=
  [{ timestamp := 10, nextTid := 5 }, { timestamp := 90, prevTid := 5, nextTid := 6 }]

theorem chunked_agrees_serial_longTask :
    SameResults (reduce (cutInto longTask 0 100 [20, 50])).handleEnd
      (ofEvents longTask 0 100).handleEnd :=
  (chunked_agrees_serial longTask [20, 50] 0 100 (by decide) (by decide) (by decide)).2
    (by simp)

end LttngParallelAnalyses
