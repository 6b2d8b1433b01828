import LttngParallelAnalyses.Common.PacketIndex

/-! The analysis template: how a trace is cut into workers in the two parallel modes, the
order of the workers, and the map-reduce over them. -/

namespace LttngParallelAnalyses

/-- What a concrete analysis supplies. `initial` is the default-constructed result. -/
structure TraceAnalysis (R : Type) where
  doMap : TraceWorker → R
  doReduce : R → R → R
  initial : R
  isOrderedReduce : Bool
  doEnd : R → R

inductive ReduceOptions where
  | orderedReduce
  | unorderedReduce

/-- The results that `QtConcurrent::mappedReduced` may give: the reduction goes over the
mapped workers in their order, or in any order. -/
def MappedReduced {W R : Type} (workers : List W) (map : W → R) (reduce : R → R → R)
    (initial : R) (options : ReduceOptions) (result : R) : Prop :=
  match options with
  | .orderedReduce => result = (workers.map map).foldl reduce initial
  | .unorderedReduce => ∃ order : List W, order.Perm workers ∧
      result = (order.map map).foldl reduce initial

def TraceAnalysis.reduceOptions {R : Type} (analysis : TraceAnalysis R) : ReduceOptions :=
  if analysis.isOrderedReduce then .orderedReduce else .unorderedReduce

/-! ## Unbalanced mode -/

def unbalancedPositions (begin_ end_ : Timestamp) (threads : Nat) : List Timestamp :=
  let step := (end_ - begin_) / UInt64.ofNat threads
  (List.range threads).map (fun i => begin_ + UInt64.ofNat i * step)

/-- Chunk `i` goes from `positions[i]` to `positions[i+1]`. -/
def unbalancedWorkers (set : TraceSet) (threads : Nat) : List TraceWorker :=
  let positions := unbalancedPositions set.getBegin set.getEnd threads
  (List.range threads).map (fun i =>
    let begin_ := if i = 0 then none else some (positions.getD i 0)
    let end_ := if i = threads - 1 then none else some (positions.getD (i + 1) 0)
    TraceWorker.new i set begin_ end_)

/-- The data that an unbalanced parallel run may print. -/
def DoExecuteParallelUnbalanced {R : Type} (analysis : TraceAnalysis R) (set : TraceSet)
    (threads : Nat) (data : R) : Prop :=
  ∃ reduced, MappedReduced (unbalancedWorkers set threads) analysis.doMap analysis.doReduce
    analysis.initial analysis.reduceOptions reduced ∧ data = analysis.doEnd reduced

/-- The same run, where the array `positions[threads]` lies on a stack that has room for so many
positions. -/
def DoExecuteParallelUnbalancedWithin {R : Type} (stack : Nat) (analysis : TraceAnalysis R)
    (set : TraceSet) (threads : Nat) (data : R) : Prop :=
  threads ≤ stack ∧ DoExecuteParallelUnbalanced analysis set threads data

/-! ## Balanced mode -/

/-- A stream file: its own trace set, and the packets of its index file. -/
structure StreamFile where
  trace : TraceSet
  indices : List PacketHeader

/-- The loop over the packets: a chunk is closed by the packet with which it is big enough. -/
def packetLoop (maxPacketSize : UInt64) : UInt64 → List PacketHeader → List Timestamp
  | _, [] => []
  | acc, header :: rest =>
    let acc := acc + header.contentSize
    if acc ≥ maxPacketSize then
      header.tsReal.timestampEnd :: packetLoop maxPacketSize 0 rest
    else packetLoop maxPacketSize acc rest

/-- The cut positions of a stream. The last packet is disregarded: the last chunk has no end.
There are none for an empty index, where the division by the number of packets traps. -/
def balancedPositions (indices : List PacketHeader) : Option (List Timestamp) :=
  let size := indices.foldl (fun size header => size + header.contentSize) 0
  if indices.length = 0 then none
  else
    let maxPacketSize := size / UInt64.ofNat indices.length
    some (packetLoop maxPacketSize 0 indices.dropLast)

/-- The positions that the loop gives a file, if it has any packet. -/
def StreamFile.cuts (file : StreamFile) : List Timestamp :=
  (balancedPositions file.indices).getD []

/-- Chunk `i` goes from `positions[i-1]` to `positions[i]`. -/
def streamWorkers (trace : TraceSet) (positions : List Timestamp) : List TraceWorker :=
  (List.range (positions.length + 1)).map (fun i =>
    let begin_ := if i = 0 then none else some (positions.getD (i - 1) 0)
    let end_ := if i = positions.length then none else some (positions.getD i 0)
    TraceWorker.new i trace begin_ end_)

theorem streamWorkers_traceSet {trace : TraceSet} {cuts : List Timestamp} {worker : TraceWorker}
    (member : worker ∈ streamWorkers trace cuts) : worker.traceSet = trace := by
  obtain ⟨i, _, rfl⟩ := List.mem_map.mp member
  rfl

/-- The workers of one file. -/
def fileWorkers (file : StreamFile) : Option (List TraceWorker) :=
  (balancedPositions file.indices).map (streamWorkers file.trace)

def balancedWorkers (files : List StreamFile) : Option (List TraceWorker) :=
  (files.mapM fileWorkers).map List.flatten

/-- The comparator that sorts the workers of all streams by begin time. -/
def beginsBefore (a b : TraceWorker) : Bool :=
  match b.beginPos, a.beginPos with
  | none, _ => false
  | some _, none => true
  | some second, some first => first < second

/-- `std::sort` gives any permutation without an inversion: it is not stable. -/
def SortedByBegin (workers order : List TraceWorker) : Prop :=
  order.Perm workers ∧ order.Pairwise (fun a b => beginsBefore b a = false)

/-- The data that a balanced parallel run may print. -/
def DoExecuteParallelBalanced {R : Type} (analysis : TraceAnalysis R) (files : List StreamFile)
    (data : R) : Prop :=
  ∃ workers, balancedWorkers files = some workers ∧ ∃ order, SortedByBegin workers order ∧
    ∃ reduced, MappedReduced order analysis.doMap analysis.doReduce analysis.initial
      analysis.reduceOptions reduced ∧ data = analysis.doEnd reduced

end LttngParallelAnalyses
