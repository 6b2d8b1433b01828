import Mathlib

/-! What the analyses read of a trace: events, event ids, and the trace sets that
iterate over them. -/

namespace LttngParallelAnalyses

abbrev Timestamp := UInt64

/-- Timestamps are compared as unsigned numbers. -/
instance Timestamp.linearOrder : LinearOrder UInt64 where
  le_refl := UInt64.le_refl
  le_trans _ _ _ := UInt64.le_trans
  le_antisymm _ _ := UInt64.le_antisymm
  le_total := UInt64.le_total
  lt_iff_le_not_ge := Std.LawfulOrderLT.lt_iff
  toDecidableLE := inferInstance
  toDecidableLT := inferInstance
  toDecidableEq := inferInstance
  min_def _ _ := rfl
  max_def _ _ := rfl
  compare_eq_compareOfLessAndEq _ _ := rfl

/-- 2^64-1. A worker that begins after a cut here would begin at 0. -/
def maxTimestamp : Timestamp := 0xFFFFFFFFFFFFFFFF

/-- An event as the handlers read it. `tid` and `procname` are context fields that a trace
may lack; of the payload fields a handler reads only those of its own kind of event. -/
structure EventValue where
  id : Int := 0
  name : String := ""
  timestamp : Timestamp
  cpuId : UInt32 := 0
  tid : Option Int32 := none
  procname : Option String := none
  prevTid : Int32 := 0
  nextTid : Int32 := 0
  prevComm : String := ""
  fd : Int32 := 0
  ret : Int64 := 0
  deriving DecidableEq, Repr

/-- Events in the order a trace set iterates over them. -/
abbrev TimeSorted (events : List EventValue) : Prop :=
  events.Pairwise (fun first second => first.timestamp ≤ second.timestamp)

structure TraceInfos where
  traceType : String
  eventMap : List (String × Int)

/-- `between(begin, end)` has both ends inclusive; a null pointer is no bound. -/
def Within {T : Type} [LE T] (begin_ end_ : Option T) (t : T) : Prop :=
  (∀ b ∈ begin_, b ≤ t) ∧ (∀ e ∈ end_, t ≤ e)

-- for any type, so that deciding looks at the two bounds and not at all 64-bit numbers
instance {T : Type} [LE T] [DecidableLE T] (begin_ end_ : Option T) (t : T) :
    Decidable (Within begin_ end_ t) :=
  inferInstanceAs (Decidable ((∀ b ∈ begin_, b ≤ t) ∧ (∀ e ∈ end_, t ≤ e)))

/-- A trace set is outside this repository. The fields after `between` are what the
analyses rely on: iteration in time order, bounds that hold every event, and `between`
restricting the iteration to an interval. -/
structure TraceSet where
  tracesInfos : List TraceInfos
  events : List EventValue
  getBegin : Timestamp
  getEnd : Timestamp
  between : Option Timestamp → Option Timestamp → List EventValue
  sorted : TimeSorted events
  begin_le : ∀ event ∈ events, getBegin ≤ event.timestamp
  le_end : ∀ event ∈ events, event.timestamp ≤ getEnd
  between_eq : ∀ begin_ end_,
    between begin_ end_ = events.filter (fun event => Within begin_ end_ event.timestamp)

/-- The trace set of some events, with `between` as documented. -/
def TraceSet.ofEvents (tracesInfos : List TraceInfos) (events : List EventValue)
    (getBegin getEnd : Timestamp) (sorted : TimeSorted events)
    (begin_le : ∀ event ∈ events, getBegin ≤ event.timestamp)
    (le_end : ∀ event ∈ events, event.timestamp ≤ getEnd) : TraceSet where
  tracesInfos
  events
  getBegin
  getEnd
  between begin_ end_ := events.filter (fun event => Within begin_ end_ event.timestamp)
  sorted
  begin_le
  le_end
  between_eq _ _ := rfl

/-- The id of an event name in the kernel traces of the set, or -1. -/
def getEventId (set : TraceSet) (eventName : String) : Int :=
  let kernel := set.tracesInfos.filter (fun traceInfos => traceInfos.traceType = "lttng-kernel")
  match (kernel.flatMap (·.eventMap)).find? (fun pair => pair.1 = eventName) with
  | some pair => pair.2
  | none => -1

/-- The part of a `TraceWorker` that decides what it processes. -/
structure TraceWorker where
  id : Nat
  traceSet : TraceSet
  beginPos : Option Timestamp
  endPos : Option Timestamp

/-- The constructor. The 1 added to the begin position fixes the overlap with the
chunk before, whose end is inclusive. -/
def TraceWorker.new (id : Nat) (set : TraceSet) (begin_ end_ : Option Timestamp) : TraceWorker where
  id
  traceSet := set
  beginPos := begin_.map (· + 1)
  endPos := end_

/-- The events that a worker iterates over. -/
def TraceWorker.events (worker : TraceWorker) : List EventValue :=
  worker.traceSet.between worker.beginPos worker.endPos

theorem TraceWorker.mem_events {worker : TraceWorker} {event : EventValue} :
    event ∈ worker.events ↔ event ∈ worker.traceSet.events ∧
      Within worker.beginPos worker.endPos event.timestamp := by
  rw [TraceWorker.events, worker.traceSet.between_eq]
  simp

end LttngParallelAnalyses
