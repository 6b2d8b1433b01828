import LttngParallelAnalyses.Common.TraceAnalysis
import LttngParallelAnalyses.Lib.CountedLoop

/-! The loops over the packets and over the positions of a stream, as they count. Their counters are
`unsigned int`, and their bounds are of the type `size_t`, which is wider: a loop whose bound is out of
reach goes round for ever. Where they end, they compute the lists of the balanced mode. -/

namespace LttngParallelAnalyses
open Lib CountedLoop

def unsignedInt : Counter UInt32 where
  zero := 0
  next i := i + 1
  toNat := UInt32.toNat
  size := 2 ^ 32
  toNat_zero := rfl
  toNat_lt i := i.toNat_lt
  toNat_next i := UInt32.toNat_add i 1

/-! ## Packets -/

/-- `size/indices.size()` -/
def averageSize (indices : List PacketHeader) : UInt64 :=
  indices.foldl (fun size header => size + header.contentSize) 0 / UInt64.ofNat indices.length

/-- `indices.size() - 1`, where the size is a `size_t`. -/
def loopBound (size : Nat) : Nat := if size = 0 then 2 ^ 64 - 1 else size - 1

/-- What the loop over the packets changes. -/
structure Accumulator where
  acc : UInt64
  positions : List Timestamp

/-- The body of the loop, with the packet that is read. -/
def Accumulator.add (maxPacketSize : UInt64) (accumulator : Accumulator) (header : PacketHeader) :
    Accumulator :=
  let acc := accumulator.acc + header.contentSize
  if acc ≥ maxPacketSize then
    { acc := 0, positions := accumulator.positions ++ [header.tsReal.timestampEnd] }
  else { accumulator with acc }

/-- The loop over the packets, for a number of turns. It appends to the positions that are there,
and has no result where it reads a packet that does not exist. -/
def indexLoop (indices : List PacketHeader) (maxPacketSize : UInt64) (positions : List Timestamp)
    (turns : Nat) : Option (List Timestamp) :=
  let body (i : Nat) (accumulator : Accumulator) :=
    indices[i]?.map (accumulator.add maxPacketSize)
  (loop unsignedInt (loopBound indices.length) body 0 ⟨0, positions⟩ turns).map (·.positions)

/-- The positions of a stream, if the division by the number of its packets does not trap. -/
def countedPositions (indices : List PacketHeader) (positions : List Timestamp) (turns : Nat) :
    Option (List Timestamp) :=
  if indices.length = 0 then none else indexLoop indices (averageSize indices) positions turns

/-! ## Workers -/

/-- The worker that the loop over the positions adds at an index. -/
def streamWorker (trace : TraceSet) (positions : List Timestamp) (i : Nat) : TraceWorker :=
  let begin_ := if i = 0 then none else some (positions.getD (i - 1) 0)
  let end_ := if i = positions.length then none else some (positions.getD i 0)
  TraceWorker.new i trace begin_ end_

/-- The loop over the positions, for a number of turns: it goes on while `i <= positions.size()`. -/
def workerLoop (trace : TraceSet) (positions : List Timestamp) (workers : List TraceWorker)
    (turns : Nat) : Option (List TraceWorker) :=
  loop unsignedInt (positions.length + 1)
    (fun i workers => some (workers ++ [streamWorker trace positions i])) 0 workers turns

/-- The workers of one file, by both loops. -/
def countedWorkers (file : StreamFile) (turns : Nat) : Option (List TraceWorker) :=
  (countedPositions file.indices [] turns).bind fun positions =>
    workerLoop file.trace positions [] turns

/-! ## The lists that they compute -/

theorem Accumulator.foldl_add (maxPacketSize : UInt64) (indices : List PacketHeader)
    (accumulator : Accumulator) :
    (indices.foldl (Accumulator.add maxPacketSize) accumulator).positions =
      accumulator.positions ++ packetLoop maxPacketSize accumulator.acc indices := by
  induction indices generalizing accumulator with
  | nil => exact (List.append_nil _).symm
  | cons header rest ih =>
    rw [List.foldl_cons, ih, packetLoop, Accumulator.add]
    by_cases full : accumulator.acc + header.contentSize ≥ maxPacketSize
    · simp only [if_pos full, List.append_assoc, List.singleton_append]
    · simp only [if_neg full]

theorem steady_indexLoop (indices : List PacketHeader) (maxPacketSize : UInt64)
    (positions : List Timestamp) : Steady (indexLoop indices maxPacketSize positions) := by
  intro turns turns' after le found
  obtain ⟨accumulator, here, rfl⟩ := Option.map_eq_some_iff.mp found
  exact Option.map_eq_some_iff.mpr ⟨accumulator, steady_loop _ _ turns turns' _ le here, rfl⟩

/-- The loop over the packets ends where there are packets, and not more than the counter can
number. -/
theorem gives_indexLoop (indices : List PacketHeader) (maxPacketSize : UInt64)
    (positions after : List Timestamp) :
    Gives (indexLoop indices maxPacketSize positions) after ↔
      indices ≠ [] ∧ indices.length ≤ 2 ^ 32 ∧
        after = positions ++ packetLoop maxPacketSize 0 indices.dropLast := by
  have ends : Gives (indexLoop indices maxPacketSize positions) after ↔
      ∃ accumulator : Accumulator, loopBound indices.length < 2 ^ 32 ∧
        (List.range (loopBound indices.length)).foldlM
          (fun state i => indices[i]?.map (Accumulator.add maxPacketSize state)) ⟨0, positions⟩ =
            some accumulator ∧ accumulator.positions = after := by
    simp only [Gives, indexLoop, Option.map_eq_some_iff]
    rw [exists_comm]
    apply exists_congr
    intro accumulator
    rw [exists_and_right, ← and_assoc]
    exact and_congr_left' (gives_loop_iff _ _)
  rw [ends]
  by_cases empty : indices = []
  · have wide : ¬ loopBound indices.length < 2 ^ 32 := by
      rw [empty]
      decide
    refine iff_of_false ?_ (fun both => both.1 empty)
    intro found
    obtain ⟨_, narrow, _⟩ := found
    exact wide narrow
  · have counted : indices.length ≠ 0 := by simpa using empty
    have bound : loopBound indices.length = indices.length - 1 := if_neg counted
    have walked := foldlM_getElem? (Accumulator.add maxPacketSize) indices
      (Nat.sub_le indices.length 1) ⟨0, positions⟩
    rw [bound, walked, ← List.dropLast_eq_take, and_iff_right empty]
    simp only [Option.some.injEq, exists_and_left, ↓existsAndEq, true_and,
      Accumulator.foldl_add]
    constructor
    · intro both
      exact ⟨by omega, both.2.symm⟩
    · intro both
      exact ⟨by omega, both.2.symm⟩

theorem steady_countedPositions (indices : List PacketHeader) (positions : List Timestamp) :
    Steady (countedPositions indices positions) := by
  unfold countedPositions
  split
  · exact steady_const none
  · exact steady_indexLoop indices _ positions

theorem gives_countedPositions (indices : List PacketHeader) (positions after : List Timestamp) :
    Gives (countedPositions indices positions) after ↔
      indices.length ≤ 2 ^ 32 ∧
        ∃ cuts, balancedPositions indices = some cuts ∧ after = positions ++ cuts := by
  unfold countedPositions balancedPositions
  by_cases empty : indices.length = 0
  · simp [empty, Gives]
  · have nonempty : indices ≠ [] := by simpa using empty
    simp only [if_neg empty, Option.some.injEq, ↓existsAndEq, true_and]
    rw [gives_indexLoop, and_iff_right nonempty]
    rfl

theorem steady_workerLoop (trace : TraceSet) (positions : List Timestamp)
    (workers : List TraceWorker) : Steady (workerLoop trace positions workers) :=
  steady_loop _ _

/-- The loop over the positions ends where the counter gets past the number of positions. -/
theorem gives_workerLoop (trace : TraceSet) (positions : List Timestamp)
    (workers after : List TraceWorker) :
    Gives (workerLoop trace positions workers) after ↔
      positions.length + 1 < 2 ^ 32 ∧ after = workers ++ streamWorkers trace positions := by
  have ends : Gives (workerLoop trace positions workers) after ↔ _ :=
    gives_loop_iff workers after
  rw [foldlM_append_map, Option.some.injEq] at ends
  exact ends.trans (and_congr_right' eq_comm)

/-! ## Streams whose loops end -/

/-- The loops of a stream end: the counter numbers its packets, and it gets past the number of its
positions. There are 2^32-1 of these where 2^32 packets close a chunk each, but for the last one. -/
def LoopsEnd (indices : List PacketHeader) : Prop :=
  indices.length ≤ 2 ^ 32 ∧
    (indices.length = 2 ^ 32 →
      ∃ header ∈ indices.dropLast, header.contentSize < averageSize indices)

theorem length_packetLoop_le (maxPacketSize acc : UInt64) (indices : List PacketHeader) :
    (packetLoop maxPacketSize acc indices).length ≤ indices.length := by
  induction indices generalizing acc with
  | nil => exact le_rfl
  | cons header rest ih =>
    rw [packetLoop]
    split
    · exact Nat.succ_le_succ (ih 0)
    · exact (ih _).trans (Nat.le_succ _)

/-- Not every packet closes a chunk where one alone is too small for it. -/
theorem length_packetLoop_lt_iff (maxPacketSize : UInt64) (indices : List PacketHeader) :
    (packetLoop maxPacketSize 0 indices).length < indices.length ↔
      ∃ header ∈ indices, header.contentSize < maxPacketSize := by
  induction indices with
  | nil => simp [packetLoop]
  | cons header rest ih =>
    rw [packetLoop, UInt64.zero_add, List.exists_mem_cons_iff, ← ih]
    by_cases full : header.contentSize ≥ maxPacketSize
    · simp only [if_pos full, List.length_cons, Nat.succ_lt_succ_iff,
        or_iff_right (not_lt.mpr full)]
    · simp only [if_neg full, List.length_cons, not_le.mp full, true_or, iff_true]
      exact Nat.lt_succ_of_le (length_packetLoop_le _ _ rest)

theorem loopsEnd_iff (indices : List PacketHeader) :
    LoopsEnd indices ↔ indices.length ≤ 2 ^ 32 ∧
      ((balancedPositions indices).getD []).length + 1 < 2 ^ 32 := by
  by_cases empty : indices.length = 0
  · simp [LoopsEnd, balancedPositions, empty]
  · have cuts : (balancedPositions indices).getD [] =
        packetLoop (averageSize indices) 0 indices.dropLast := by
      simp only [balancedPositions, if_neg empty, Option.getD_some]
      rfl
    have fewer := length_packetLoop_le (averageSize indices) 0 indices.dropLast
    have less := length_packetLoop_lt_iff (averageSize indices) indices.dropLast
    rw [← cuts, List.length_dropLast] at fewer less
    rw [LoopsEnd, ← less]
    omega

/-- Both loops of a file end exactly where their counters suffice, and give the workers of the
file. -/
theorem gives_countedWorkers (file : StreamFile) (workers : List TraceWorker) :
    Gives (countedWorkers file) workers ↔
      LoopsEnd file.indices ∧ fileWorkers file = some workers := by
  unfold countedWorkers
  rw [gives_bind (steady_countedPositions _ _) (fun positions => steady_workerLoop _ positions _)]
  simp only [gives_countedPositions, gives_workerLoop, List.nil_append, fileWorkers,
    Option.map_eq_some_iff]
  constructor
  · intro ends
    obtain ⟨_, ⟨counted, cuts, computed, rfl⟩, past, rfl⟩ := ends
    refine ⟨(loopsEnd_iff _).mpr ⟨counted, ?_⟩, _, computed, rfl⟩
    rwa [computed, Option.getD_some]
  · intro ends
    obtain ⟨both, cuts, computed, rfl⟩ := ends
    obtain ⟨counted, past⟩ := (loopsEnd_iff _).mp both
    rw [computed, Option.getD_some] at past
    exact ⟨cuts, ⟨counted, cuts, computed, rfl⟩, past, rfl⟩

end LttngParallelAnalyses
