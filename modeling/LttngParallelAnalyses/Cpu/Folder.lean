import LttngParallelAnalyses.Common.Folder
import LttngParallelAnalyses.Cpu.Balanced
import LttngParallelAnalyses.Cpu.Bounds

/-! Balanced CPU runs over a trace folder. The streams that the folder holds are cut at packets that
the index files describe, and the workers of all streams give the times and the total of a serial
pass over the whole trace. -/

namespace LttngParallelAnalyses
open Lib Lib.Interleaving Lib.RunningLeast CpuContext

/-- No CPU has switches in two streams. -/
def TraceFolder.Separate (folder : TraceFolder) (library : TraceLibrary) : Prop :=
  (folder.streams.map (fun stream => (stream.own library).trace)).Pairwise (fun first second =>
    ∀ event ∈ schedSwitches first first.events, ∀ event' ∈ schedSwitches second second.events,
      event.cpuId ≠ event'.cpuId)

namespace TraceFolder.Recorded
variable {folder : TraceFolder} {library : TraceLibrary} {whole : TraceSet}

theorem merges (recorded : folder.Recorded library whole) (separate : folder.Separate library)
    {indexFiles : List Stream} (perm : indexFiles.Perm folder.streams) {streams : List CutStream}
    (traces : streams.map (·.trace) = (indexFiles.map (Stream.own library)).map (·.trace)) :
    Merges streams whole := by
  have own : (streams.map (·.trace)).Perm
      (folder.streams.map (fun stream => (stream.own library).trace)) := by
    rw [traces, List.map_map]
    exact perm.map _
  constructor
  · intro stream member
    have present := own.mem_iff.mp (List.mem_map_of_mem member)
    obtain ⟨found, among, same⟩ := List.mem_map.mp present
    rw [← same]
    exact recorded.infos found among
  · have lists := (own.map TraceSet.events).symm
    rw [List.map_map, List.map_map] at lists
    exact recorded.interleaved.perm lists
  · have apart := (own.pairwise_iff fun differ event member event' member' same =>
      differ event' member' event member same.symm).mpr separate
    exact List.pairwise_map.mp apart
  · have ends := own.map TraceSet.getEnd
    rw [List.map_map, List.map_map] at ends
    have greatest : IsGreatest {t | t ∈ streams.map (fun stream => stream.trace.getEnd)}
        whole.getEnd :=
      ⟨ends.mem_iff.mpr recorded.end_.1, fun t member => recorded.end_.2 (ends.mem_iff.mp member)⟩
    exact greatest.unique (isGreatest_latest (List.ne_nil_of_mem greatest.1))

end TraceFolder.Recorded

/-! ## A folder of two streams -/

end LttngParallelAnalyses
