import LttngParallelAnalyses.Common.Coverage
import LttngParallelAnalyses.Lib.Greedy

/-! The chunks that the packet loop makes. Where the sizes of the packets add up without wrapping,
the loop closes the chunks of a greedy split by the average size, and the last chunk takes what
is open together with the last packet. This is so as long as the counters of the loops suffice. -/

namespace LttngParallelAnalyses
open Lib Greedy CountedLoop

/-- The size of a packet as it is added up. -/
def packetSize (header : PacketHeader) : Nat := header.contentSize.toNat

/-- The end of the last packet of a chunk, where the next chunk begins. -/
def chunkEnd (chunk : List PacketHeader) : Option Timestamp :=
  chunk.getLast?.map (fun header => header.tsReal.timestampEnd)

theorem balancedPositions_eq {indices : List PacketHeader} (nonempty : indices ≠ []) :
    balancedPositions indices =
      some (packetLoop (averageSize indices) 0 indices.dropLast) := by
  unfold balancedPositions
  rw [if_neg (by simpa using nonempty)]
  rfl

theorem averageSize_toNat {indices : List PacketHeader} (counted : indices.length < 2 ^ 64)
    (fits : total packetSize indices < 2 ^ 64) :
    (averageSize indices).toNat = total packetSize indices / indices.length := by
  have sum : ∀ packets : List PacketHeader, total packetSize packets < 2 ^ 64 →
      (packets.foldl (fun (size : UInt64) header => size + header.contentSize) 0).toNat =
        total packetSize packets := by
    intro packets
    induction packets using List.reverseRecOn with
    | nil => exact fun _ => rfl
    | append_singleton packets header ih =>
      intro small
      rw [total_append, total_singleton] at small ⊢
      rw [List.foldl_concat, UInt64.toNat_add, ih (by omega)]
      exact Nat.mod_eq_of_lt small
  rw [averageSize, UInt64.toNat_div, sum indices fits, UInt64.toNat_ofNat_of_lt' counted]

/-- The loop cuts at the ends of the chunks that are closed. -/
theorem packetLoop_eq (maxPacketSize acc : UInt64) (opened indices : List PacketHeader)
    (same : acc.toNat = total packetSize opened)
    (fits : total packetSize (opened ++ indices) < 2 ^ 64) :
    (packetLoop maxPacketSize acc indices).map some =
      (close packetSize maxPacketSize.toNat opened indices).1.map chunkEnd := by
  induction indices generalizing acc opened with
  | nil => rfl
  | cons header rest ih =>
    have join : opened ++ header :: rest = opened ++ [header] ++ rest := by simp
    rw [join] at fits
    have room : total packetSize (opened ++ [header]) < 2 ^ 64 := by
      rw [total_append] at fits
      omega
    have added : (acc + header.contentSize).toNat = total packetSize (opened ++ [header]) := by
      rw [total_append, total_singleton] at room ⊢
      rw [UInt64.toNat_add, same]
      exact Nat.mod_eq_of_lt room
    have full : acc + header.contentSize ≥ maxPacketSize ↔
        maxPacketSize.toNat ≤ total packetSize (opened ++ [header]) := by
      rw [← added]
      exact UInt64.le_iff_toNat_le
    unfold packetLoop close
    by_cases big : acc + header.contentSize ≥ maxPacketSize
    · have later := ih 0 [] rfl (by
        rw [total_append] at fits
        rw [List.nil_append]
        omega)
      simp only [big, full.mp big, if_true, List.map_cons, later]
      simp [chunkEnd]
    · have small : ¬ maxPacketSize.toNat ≤ total packetSize (opened ++ [header]) := full.not.mp big
      simp only [big, small, if_false]
      exact ih _ _ added fits

/-- The split of a stream into chunks: the packets, each once and in order; every chunk but the
last is at least as big as the threshold, and only its last packet takes a chunk beyond it. -/
structure BalancedSplit (threshold : Nat) (indices : List PacketHeader) (positions : List Timestamp)
    (chunks : List (List PacketHeader)) : Prop
    extends Balanced packetSize threshold indices chunks where
  count : chunks.length = positions.length + 1
  ends : positions.map some = chunks.dropLast.map chunkEnd

theorem balancedPositions_split {indices : List PacketHeader} (nonempty : indices ≠ [])
    (counted : indices.length < 2 ^ 64) (fits : total packetSize indices < 2 ^ 64) :
    ∃ positions chunks, balancedPositions indices = some positions ∧
      BalancedSplit (total packetSize indices / indices.length) indices positions chunks := by
  have average := averageSize_toNat counted fits
  obtain ⟨before, last, rfl⟩ := (List.eq_nil_or_concat' indices).resolve_left nonempty
  have cuts := packetLoop_eq (averageSize (before ++ [last])) 0 [] before rfl (by
    rw [total_append] at fits
    rw [List.nil_append]
    omega)
  rw [average] at cuts
  refine ⟨packetLoop (averageSize (before ++ [last])) 0 before, split packetSize _ before last,
    ?_, ⟨balanced_split packetSize _ before last, ?_, ?_⟩⟩
  · rw [balancedPositions_eq nonempty, List.dropLast_concat]
  · have lengths := congrArg List.length cuts
    rw [List.length_map, List.length_map] at lengths
    rw [split, List.length_append, lengths]
    rfl
  · rw [cuts, split, List.dropLast_concat]

theorem BalancedSplit.workers_le {threshold : Nat} {indices : List PacketHeader}
    {positions : List Timestamp} {chunks : List (List PacketHeader)}
    (balanced : BalancedSplit threshold indices positions chunks) (trace : TraceSet) :
    (streamWorkers trace positions).length ≤ indices.length := by
  rw [streamWorkers, List.length_map, List.length_range, ← balanced.count]
  exact balanced.length_le

/-- The packet loop balances: it ends with a split of the packets around their average size, no chunk
of which exceeds the average by more than one packet, and there are workers of each such stream, not
more of them than packets. -/
def LoopsBalance (indices : List PacketHeader) : Prop :=
  let average := total packetSize indices / indices.length
  ∃ positions chunks, Gives (countedPositions indices []) positions ∧
    BalancedSplit average indices positions chunks ∧
    (∀ chunk ∈ chunks, ∃ header ∈ indices,
      total packetSize chunk ≤ average + packetSize header) ∧
    positions.length * average ≤ total packetSize indices ∧
    ∀ file : StreamFile, file.indices = indices → ∃ workers, Gives (countedWorkers file) workers ∧
      workers.length ≤ indices.length

/-- The loops of any stream with these packets end where they balance. -/
theorem LoopsBalance.loopsEnd {indices : List PacketHeader} (balance : LoopsBalance indices) :
    LoopsEnd indices := by
  obtain ⟨_, _, _, _, _, _, worked⟩ := balance
  let trace := TraceSet.ofEvents [] [] 0 0 List.Pairwise.nil (by simp) (by simp)
  obtain ⟨workers, ends, _⟩ := worked ⟨trace, indices⟩ rfl
  exact ((gives_countedWorkers _ _).mp ends).1

/-- The packet loop balances exactly where the counters of the loops suffice. -/
theorem packets_balanced_iff (indices : List PacketHeader) (nonempty : indices ≠ [])
    (counted : indices.length < 2 ^ 64) (fits : total packetSize indices < 2 ^ 64) :
    LoopsBalance indices ↔ LoopsEnd indices := by
  refine ⟨LoopsBalance.loopsEnd, ?_⟩
  intro ends
  obtain ⟨positions, chunks, computed, balanced⟩ := balancedPositions_split nonempty counted fits
  have given : Gives (countedPositions indices []) positions :=
    (gives_countedPositions _ _ _).mpr ⟨ends.1, positions, computed, rfl⟩
  refine ⟨positions, chunks, given, balanced, balanced.total_le, ?_, ?_⟩
  · have reached := balanced.nsmul_le
    rw [balanced.count, Nat.add_sub_cancel, smul_eq_mul] at reached
    exact reached
  · intro file same
    have workers : fileWorkers file = some (streamWorkers file.trace positions) := by
      rw [fileWorkers, same, computed]
      rfl
    exact ⟨_, (gives_countedWorkers file _).mpr ⟨same ▸ ends, workers⟩,
      balanced.workers_le file.trace⟩

/-- A packet of this size that ends at this time. -/
def packetOf (contentSize : UInt64) (timestampEnd : Timestamp) : PacketHeader :=
  ⟨0, 0, 0, contentSize, 0, 0, ⟨0, 0⟩, ⟨0, timestampEnd⟩⟩

theorem packets_balanced_five :
    LoopsBalance [packetOf 0 1, packetOf 7 2, packetOf 3 3, packetOf 9 4, packetOf 1 5] := by
  rw [packets_balanced_iff _ (by simp) (by decide) (by decide)]
  exact ⟨by decide, by decide⟩

/-- One packet more than the counter can number: the loop over the packets goes round for ever. -/
theorem packets_not_balanced :
    let indices := List.replicate (2 ^ 32 + 1) (packetOf 1 1)
    indices ≠ [] ∧ indices.length < 2 ^ 64 ∧ total packetSize indices < 2 ^ 64 ∧
      (∀ positions, ¬ Gives (countedPositions indices []) positions) ∧ ¬ LoopsBalance indices := by
  intro indices
  have length : indices.length = 2 ^ 32 + 1 := List.length_replicate
  have size : total packetSize indices = 2 ^ 32 + 1 := by
    rw [total, List.map_replicate, List.sum_replicate, smul_eq_mul]
    rfl
  have endless : ¬ indices.length ≤ 2 ^ 32 := by omega
  refine ⟨?_, by omega, by omega, ?_, ?_⟩
  · rw [← List.length_pos_iff]
    omega
  · exact fun positions given => endless ((gives_countedPositions _ _ _).mp given).1
  · exact fun balance => endless balance.loopsEnd.1

end LttngParallelAnalyses
