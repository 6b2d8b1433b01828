import LttngParallelAnalyses.Common.Balance
import LttngParallelAnalyses.Common.IndexCodec

/-! What the chunk computation needs of an index file. The number of packets is a divisor, and one
less than it is the bound of the loop over the packets. Both go wrong for an empty list, which is
what every file leaves that is rejected or holds no whole record, and the loop does not end for a list
that is too long for its counter. -/

namespace LttngParallelAnalyses
open Lib CountedLoop

/-! ## Safety -/

/-- The chunk computation of a stream goes through: it divides by a count that is not zero, the
bound of its loop does not wrap, every packet that the loop reads exists, and whatever the events
of the stream are, the loops end with workers that process all of them. -/
structure SafeChunking (indices : List PacketHeader) : Prop where
  divisor : indices.length ≠ 0
  bound : loopBound indices.length + 1 = indices.length
  reads : ∀ i : UInt32, i.toNat < loopBound indices.length → i.toNat < indices.length
  worked : ∀ trace : TraceSet, ∃ workers, Gives (countedWorkers ⟨trace, indices⟩) workers ∧
    workers ≠ [] ∧ ∀ event ∈ trace.events, ∃ worker ∈ workers, event ∈ worker.events

theorem safeChunking_of_loopsEnd {indices : List PacketHeader} (nonempty : indices ≠ [])
    (ends : LoopsEnd indices) : SafeChunking indices := by
  have counted : indices.length ≠ 0 := by simpa using nonempty
  have bound : loopBound indices.length = indices.length - 1 := if_neg counted
  constructor
  · exact counted
  · omega
  · intro i below
    omega
  · intro trace
    obtain ⟨cuts, computed⟩ := balancedPositions_isSome nonempty
    have workers : fileWorkers ⟨trace, indices⟩ = some (streamWorkers trace cuts) :=
      congrArg _ computed
    refine ⟨_, (gives_countedWorkers _ _).mpr ⟨ends, workers⟩, ?_,
      fun event member => exists_worker trace cuts member⟩
    simp [streamWorkers]

theorem SafeChunking.loopsEnd {indices : List PacketHeader} (safe : SafeChunking indices) :
    LoopsEnd indices := by
  let trace := TraceSet.ofEvents [] [] 0 0 List.Pairwise.nil (by simp) (by simp)
  obtain ⟨workers, ends, _⟩ := safe.worked trace
  exact ((gives_countedWorkers _ _).mp ends).1

theorem safeChunking_iff (indices : List PacketHeader) :
    SafeChunking indices ↔ indices ≠ [] ∧ LoopsEnd indices := by
  constructor
  · intro safe
    refine ⟨?_, safe.loopsEnd⟩
    intro empty
    exact safe.divisor (by rw [empty]; rfl)
  · exact fun both => safeChunking_of_loopsEnd both.1 both.2

/-- Chunking is safe exactly where the header of the index file is accepted, a whole record
follows it, and the records are not too many for the counters of the loops. -/
theorem chunking_safe_iff (heap : Nat → Nat → UInt8) (clock : ClockInfos) (file : List UInt8) :
    SafeChunking (PacketIndex.new heap clock file).indices ↔
      Accepted file ∧ recordLength file ≤ file.length - headerSize ∧
        LoopsEnd (PacketIndex.new heap clock file).indices := by
  rw [safeChunking_iff, ← and_assoc, ← buffers_ne_nil_iff, ← List.length_pos_iff,
    ← List.length_pos_iff, PacketIndex.length_new]

/-- A file with a header and no record. -/
def headerOnlyFile : List UInt8 := encodeHeader 0 56

/-- The header is accepted, and the list is empty: the count is zero, the bound of the loop wraps
around, its first read fails, and there are no workers. -/
theorem chunking_header_only :
    let indices := (PacketIndex.new (fun _ _ => 0) ⟨1000000000, 0, 0⟩ headerOnlyFile).indices
    Accepted headerOnlyFile ∧ indices.length = 0 ∧ loopBound indices.length = 2 ^ 64 - 1 ∧
      indices[0]? = none ∧ (∀ trace, fileWorkers ⟨trace, indices⟩ = none) ∧
      ¬ SafeChunking indices := by
  intro indices
  have accepted : Accepted headerOnlyFile := by
    have header := load_encodeHeader 0 56 []
    rw [List.append_nil, ← headerOnlyFile] at header
    constructor
    · decide
    · rw [header]
    · rw [header]
    · rw [header]
      decide
  have nothing : buffers headerOnlyFile = [] := by
    rw [buffers_accepted accepted, BigEndian.blocks_eq_nil_iff (recordLength_ne_zero accepted)]
    exact Nat.pos_of_ne_zero (recordLength_ne_zero accepted)
  have empty : indices = [] := by
    rw [← List.length_eq_zero_iff, PacketIndex.length_new, nothing]
    rfl
  rw [empty]
  exact ⟨accepted, rfl, rfl, rfl, fun _ => rfl, fun safe => safe.divisor rfl⟩

end LttngParallelAnalyses
