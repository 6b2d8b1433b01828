import LttngParallelAnalyses.Cpu.Agreement
import LttngParallelAnalyses.Io.Chunked

/-! Both analyses depend only on the order of the events of each CPU, or of each tid, and not
on how the events of different ones interleave. -/

namespace LttngParallelAnalyses
open Tracked

/-- Sequences with the same events on every CPU give the same times, chained or not; sequences
with the same tracked events of every tid give the same records. -/
theorem interleaving_irrelevant (events events' : List EventValue) (start end_ : Timestamp)
    (tracked tracked' : List Tracked) :
    ((∀ cpu, onCpu cpu events = onCpu cpu events') →
      CpuContext.SameTimes (CpuContext.ofEvents events start end_).handleEnd
        (CpuContext.ofEvents events' start end_).handleEnd) ∧
    ((∀ t, ofTid t tracked = ofTid t tracked') →
      ∀ t, (IoContext.ofTracked tracked).tids.lookup t =
        (IoContext.ofTracked tracked').tids.lookup t) := by
  constructor
  · intro same
    have accounts := CpuContext.accounts_ofEvents events start end_
    apply accounts.sameTimes (CpuContext.accounts_ofEvents events' start end_) same
    rw [CpuContext.ofEvents_end, CpuContext.ofEvents_end]
  · intro same t
    rw [IoContext.lookup_ofTracked, IoContext.lookup_ofTracked, same t]

def switchOn (cpu : UInt32) : EventValue := { timestamp := 10, cpuId := cpu, nextTid := 5 }

def exitOf (t : Int32) : Tracked := ⟨.exitSyscall, { timestamp := 10, tid := some t }⟩

/-- Two simultaneous events of different CPUs, and of different tids, may be swapped. -/
theorem interleaving_irrelevant_swap :
    CpuContext.SameTimes (CpuContext.ofEvents [switchOn 0, switchOn 1] 0 20).handleEnd
        (CpuContext.ofEvents [switchOn 1, switchOn 0] 0 20).handleEnd ∧
      ∀ t, (IoContext.ofTracked [exitOf 1, exitOf 2]).tids.lookup t =
        (IoContext.ofTracked [exitOf 2, exitOf 1]).tids.lookup t := by
  have swap := interleaving_irrelevant [switchOn 0, switchOn 1] [switchOn 1, switchOn 0] 0 20
    [exitOf 1, exitOf 2] [exitOf 2, exitOf 1]
  refine ⟨swap.1 fun cpu => ?_, swap.2 fun t => ?_⟩
  · by_cases first : (0 : UInt32) = cpu <;> by_cases second : (1 : UInt32) = cpu
    · rw [← first] at second
      exact absurd second (by decide)
    all_goals simp [onCpu, switchOn, first, second]
  · by_cases first : (1 : Int32) = t <;> by_cases second : (2 : Int32) = t
    · rw [← first] at second
      exact absurd second (by decide)
    all_goals simp [ofTid, exitOf, first, second]

end LttngParallelAnalyses
