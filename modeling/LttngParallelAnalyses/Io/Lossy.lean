import LttngParallelAnalyses.Io.Analysis
import LttngParallelAnalyses.Io.Trees
import LttngParallelAnalyses.Io.UnknownSyscall

/-! Traces with lost events. Where the exit of a syscall is lost, its process enters another syscall
while the first is open, and a serial pass gives the first up. A parallel run may end it all the
same, with a later exit that the next worker has saved. The two runs differ by these syscalls, and
by nothing else. -/

namespace LttngParallelAnalyses
open Lib Lib.Adjacent Tracked

namespace IoContext
open IoProcess

/-- What a record shows but for its totals. -/
def untotalled (p : IoProcess) : Process × Option Syscall := (p.toProcess, p.currentSyscall)

/-- The syscall of a tid that is open before a chunk, with the exit that `merge` ends it with
although the chunk enters another one first. -/
def overtaken (t : Int32) (before chunk : List Tracked) : List (Syscall × Syscall) :=
  if ∀ first ∈ chunk.head?, first.IsEntry then
    match before.getLast?.bind opened, (record t chunk).bind (·.unknownSyscall) with
    | some call, some exit => [(call, exit)]
    | _, _ => []
  else []

/-- The overtaken syscalls of consecutive chunks, all of one tid. -/
def overtakenIn (t : Int32) (before : List Tracked) : List (List Tracked) → List (Syscall × Syscall)
  | [] => []
  | chunk :: rest => overtaken t before chunk ++ overtakenIn t (before ++ chunk) rest

/-- What `merge` counts for a syscall that it ends. -/
def tally {α : Type} (totals : IoProcess → α) (pair : Syscall × Syscall) : α :=
  totals (usage pair.1 pair.2.end_ pair.2.ret.toInt64)

theorem overtaken_of_exit {first : Tracked} (exits : ¬ first.IsEntry) (t : Int32)
    (before rest : List Tracked) : overtaken t before (first :: rest) = [] := by
  rw [overtaken, if_neg (fun entries => exits (entries first rfl))]

theorem overtakenIn_concat (t : Int32) (before : List Tracked) (chunks : List (List Tracked))
    (chunk : List Tracked) : overtakenIn t before (chunks ++ [chunk]) =
      overtakenIn t before chunks ++ overtaken t (before ++ chunks.flatten) chunk := by
  induction chunks generalizing before with
  | nil => simp [overtakenIn]
  | cons first rest ih => simp [overtakenIn, ih]

theorem length_overtaken (t : Int32) (before chunk : List Tracked) :
    (overtaken t before chunk).length ≤ 1 := by
  unfold overtaken
  repeat' split
  all_goals simp

theorem length_overtakenIn (t : Int32) (before : List Tracked) (chunks : List (List Tracked)) :
    (overtakenIn t before chunks).length ≤ chunks.length := by
  induction chunks generalizing before with
  | nil => exact le_rfl
  | cons chunk rest ih =>
    have one := length_overtaken t before chunk
    have rest := ih (before ++ chunk)
    rw [overtakenIn, List.length_append, List.length_cons]
    omega

/-- An overtaken syscall was entered by an event. -/
theorem opened_of_overtaken {t : Int32} {before chunk : List Tracked} {pair : Syscall × Syscall}
    (member : pair ∈ overtaken t before chunk) : ∃ tracked, opened tracked = some pair.1 := by
  unfold overtaken at member
  split at member
  · cases open_ : before.getLast?.bind opened with
    | none => simp [open_] at member
    | some call =>
      cases saved : (record t chunk).bind (·.unknownSyscall) with
      | none => simp [open_, saved] at member
      | some exit =>
        obtain ⟨last, _, enters⟩ := Option.bind_eq_some_iff.mp open_
        simp only [open_, saved, List.mem_singleton] at member
        exact ⟨last, by rw [member]; exact enters⟩
  · cases member

theorem opened_of_overtakenIn {t : Int32} {before : List Tracked} {chunks : List (List Tracked)}
    {pair : Syscall × Syscall} (member : pair ∈ overtakenIn t before chunks) :
    ∃ tracked, opened tracked = some pair.1 := by
  induction chunks generalizing before with
  | nil => cases member
  | cons chunk rest ih =>
    rcases List.mem_append.mp member with here | later
    · exact opened_of_overtaken here
    · exact ih later

/-- What an entry opens reads or writes. -/
theorem reads_or_writes {tracked : Tracked} {call : Syscall} (enters : opened tracked = some call) :
    call.type.reads ∨ call.type.writes := by
  have type := (opened_eq_some enters).1
  have known : tracked.entryType ≠ some .unknown := by
    unfold entryType
    cases tracked.handler <;> decide
  cases kind : call.type with
  | unknown => exact absurd (type.trans (congrArg some kind)) known
  | _ => simp [IoType.reads, IoType.writes]

/-! ## One chunk -/

section Accounted
variable {counts : IoType → Bool} {totals : IoProcess → Totals} (accounted : Accounted counts totals)
include accounted

theorem Accounted.default : totals {} = 0 := by
  have twice : totals {} = totals {} + totals {} := accounted.adds {} {}
  exact left_eq_add.mp twice

/-- The totals of a merge, from those of the two records and of the syscall that it ends. -/
theorem Accounted.mergeRecord_totals (found found' : Option IoProcess) :
    (mergeRecord found found').elim 0 totals = found.elim 0 totals + found'.elim 0 totals +
      totals (settled (found.bind (·.currentSyscall)) (found'.bind (·.unknownSyscall))) := by
  cases found' with
  | none => cases found <;> simp [mergeRecord, settled, accounted.default]
  | some q =>
    cases found with
    | none => simp [mergeRecord, mergeProcess, settled, accounted.default]
    | some p =>
      change totals (mergeProcess (some p) q) = totals p + totals q + totals (settled _ _)
      rw [mergeProcess_some, accounted.current, accounted.adds, accounted.adds]
      rfl

/-- What `merge` counts across a cut is what a serial pass counts there and the overtaken syscall. -/
theorem Accounted.settled_totals (t : Int32) (before chunk : List Tracked)
    (fits : ∀ first ∈ chunk.head?, ¬ first.IsEntry → FitsInt first.event.ret) :
    totals (settled (before.getLast?.bind opened) ((record t chunk).bind (·.unknownSyscall))) =
      jointWeight (added totals) before chunk +
        ((overtaken t before chunk).map (tally totals)).sum := by
  cases chunk with
  | nil =>
    cases open_ : before.getLast?.bind opened <;>
      simp [settled, overtaken, record, accounted.default, open_]
  | cons first rest =>
    rw [jointWeight_cons]
    by_cases entry : first.IsEntry
    · have entries : ∀ head ∈ (first :: rest).head?, head.IsEntry := by simpa using entry
      have joint : (before.getLast?.elim 0 fun last => added totals last first) = 0 := by
        cases before.getLast? <;> simp [added, entry]
      rw [joint, zero_add, overtaken, if_pos entries]
      cases before.getLast?.bind opened <;>
        cases (record t (first :: rest)).bind (·.unknownSyscall) <;>
        simp [settled, tally, accounted.default]
    · have small := fits first rfl entry
      rw [overtaken_of_exit entry, List.map_nil, List.sum_nil, add_zero,
        record_saves_first t entry]
      cases before.getLast? with
      | none => simp [settled, accounted.default]
      | some last =>
        cases open_ : opened last with
        | none => simp [settled, accounted.default, added, open_]
        | some call => simp [settled, added, open_, entry, savedExit, toInt64_toInt32 small]

end Accounted

/-! ## Runs -/

/-- A record that is merged from the events of a tid shows what a serial pass shows, but for these
totals. -/
structure Exceeds (totals : IoProcess → Totals) (t : Int32) (found : Option IoProcess)
    (events : List Tracked) (excess : Totals) : Prop where
  same : found.map untotalled = (record t events).map untotalled
  total : found.elim 0 totals = (record t events).elim 0 totals + excess

theorem act_toProcess (tracked : Tracked) (p : IoProcess) :
    (tracked.act p).toProcess = p.toProcess := by
  by_cases entry : tracked.IsEntry
  · rw [act_entry entry]
  · rw [act_exit entry]
    cases current : p.currentSyscall with
    | none =>
      exact congrArg (·.toProcess)
        (exitSyscall_idle current tracked.event.timestamp tracked.event.ret)
    | some call =>
      rw [exitSyscall_open current]
      rfl

theorem acts_toProcess (p : IoProcess) (events : List Tracked) :
    (acts p events).toProcess = p.toProcess := by
  unfold acts
  induction events using List.reverseRecOn with
  | nil => rfl
  | append_singleton events tracked ih => rw [List.foldl_concat, act_toProcess, ih]

/-- A merge keeps the process and takes over the open syscall, as the events of the chunk do. -/
theorem mergeRecord_untotalled {t : Int32} {found : Option IoProcess} {events : List Tracked}
    (same : found.map untotalled = (record t events).map untotalled) (chunk : List Tracked) :
    (mergeRecord found (record t chunk)).map untotalled =
      (record t (events ++ chunk)).map untotalled := by
  cases here : record t chunk with
  | none =>
    rw [record_eq_none.mp here, List.append_nil]
    exact same
  | some q =>
    cases found with
    | none =>
      rw [Option.map_none, eq_comm, Option.map_eq_none_iff] at same
      rw [record_eq_none.mp same, List.nil_append, here]
      rfl
    | some p =>
      obtain ⟨r, before, shown⟩ := Option.map_eq_some_iff.mp same.symm
      have process : r.toProcess = p.toProcess := congrArg Prod.fst shown
      have nonempty : chunk ≠ [] := by
        rw [Ne, ← record_eq_none, here]
        exact Option.some_ne_none q
      -- both open what the last event of the chunk opens
      have opens := record_currentSyscall t (events ++ chunk)
      rw [List.getLast?_append_of_ne_nil _ nonempty, ← record_currentSyscall t chunk, here,
        record_append before] at opens
      rw [record_append before]
      change some (untotalled (mergeProcess (some p) q)) = some (untotalled (acts r chunk))
      rw [mergeProcess_some, untotalled, untotalled, acts_toProcess, process]
      exact congrArg (fun current => some (p.toProcess, current)) opens.symm

section Runs
variable {counts : IoType → Bool} {totals : IoProcess → Totals} (accounted : Accounted counts totals)
include accounted

theorem Exceeds.merge {t : Int32} {found : Option IoProcess} {events chunk : List Tracked}
    {excess : Totals} (exceeds : Exceeds totals t found events excess)
    (fits : ∀ first ∈ chunk.head?, ¬ first.IsEntry → FitsInt first.event.ret) :
    Exceeds totals t (mergeRecord found (record t chunk)) (events ++ chunk)
      (excess + ((overtaken t events chunk).map (tally totals)).sum) where
  same := mergeRecord_untotalled exceeds.same chunk
  total := by
    have current : found.bind (·.currentSyscall) = events.getLast?.bind opened := by
      have shown := congrArg (Option.bind · Prod.snd) exceeds.same
      rw [← record_currentSyscall t]
      simpa [Option.bind_map, Function.comp_def, untotalled] using shown
    rw [accounted.mergeRecord_totals, exceeds.total, current,
      accounted.settled_totals t events chunk fits, accounted.total, accounted.total,
      accounted.total, weight_append]
    abel

/-- The merged chunks exceed a serial pass by the overtaken syscalls. -/
theorem exceeds_reduce (chunks : List (List Tracked))
    (fits : ∀ tracked ∈ chunks.flatten, ¬ tracked.IsEntry → FitsInt tracked.event.ret) (t : Int32) :
    Exceeds totals t ((reduce chunks).tids.lookup t) (ofTid t chunks.flatten)
      ((overtakenIn t [] (chunks.map (ofTid t))).map (tally totals)).sum := by
  induction chunks using List.reverseRecOn with
  | nil => exact ⟨rfl, rfl⟩
  | append_singleton chunks chunk ih =>
    rw [List.flatten_concat] at fits
    have earlier := ih (fun tracked member => fits tracked (List.mem_append_left _ member))
    have flat : (chunks.map (ofTid t)).flatten = ofTid t chunks.flatten :=
      List.filter_flatten.symm
    have small : ∀ first ∈ (ofTid t chunk).head?, ¬ first.IsEntry → FitsInt first.event.ret := by
      intro first head
      have member := List.mem_of_mem_head? head
      exact fits first (List.mem_append_right _ (List.mem_of_mem_filter member))
    rw [reduce_concat, lookup_merge_ofTracked, List.flatten_concat, ofTid_append, List.map_append,
      List.map_singleton, overtakenIn_concat, List.nil_append, flat, List.map_append,
      List.sum_append]
    exact earlier.merge accounted small

/-- Syscalls that count are seen in the count, which they are too few to wrap. -/
theorem Accounted.sum_tally_eq_zero_iff {calls : List (Syscall × Syscall)}
    (few : calls.length < 2 ^ 64) :
    (calls.map (tally totals)).sum = 0 ↔
      ∀ pair ∈ calls, ¬ (counts pair.1.type ∧ pair.2.ret.toInt64 ≥ 0) := by
  have each : ∀ pair : Syscall × Syscall, tally totals pair =
      if counts pair.1.type ∧ pair.2.ret.toInt64 ≥ 0 then
        ⟨pair.2.ret.toInt64.toUInt64, 1, pair.2.end_ - pair.1.start⟩ else 0 :=
    fun pair => accounted.ended pair.1 pair.2.end_ pair.2.ret.toInt64
  have counted : (calls.map (tally totals)).sum.count = UInt64.ofNat
      (calls.countP (fun pair => counts pair.1.type ∧ pair.2.ret.toInt64 ≥ 0)) := by
    induction calls with
    | nil => rfl
    | cons pair rest ih =>
      have rest := ih (by rw [List.length_cons] at few; omega)
      rw [List.map_cons, List.sum_cons, List.countP_cons, UInt64.ofNat_add, ← rest, add_comm, each]
      by_cases own : counts pair.1.type ∧ pair.2.ret.toInt64 ≥ 0
      · rw [if_pos own, if_pos (by simpa using own)]
        rfl
      · rw [if_neg own, if_neg (by simpa using own)]
        rfl
  constructor
  · intro zero
    have none := congrArg UInt64.toNat (counted.symm.trans (congrArg Totals.count zero))
    have bound : calls.countP (fun pair => counts pair.1.type ∧ pair.2.ret.toInt64 ≥ 0) ≤
        calls.length := List.countP_le_length
    rw [UInt64.toNat_ofNat_of_lt' (bound.trans_lt few)] at none
    simpa using List.countP_eq_zero.mp none
  · intro none
    apply List.sum_eq_zero
    intro total member
    obtain ⟨pair, inside, rfl⟩ := List.mem_map.mp member
    rw [each, if_neg (none pair inside)]

end Runs

theorem visible_eq_iff (p q : IoProcess) : p.visible = q.visible ↔
    untotalled p = untotalled q ∧ p.readTotals = q.readTotals ∧ p.writeTotals = q.writeTotals := by
  obtain ⟨_, _, _, _, _, _, _, _, _⟩ := p
  obtain ⟨_, _, _, _, _, _, _, _, _⟩ := q
  simp only [visible, untotalled, readTotals, writeTotals, IoProcess.mk.injEq, Prod.mk.injEq,
    Totals.mk.injEq]
  tauto

/-- The record shows what a serial pass shows exactly where it exceeds it by nothing. -/
theorem Exceeds.visible_iff {t : Int32} {found : Option IoProcess} {events : List Tracked}
    {read write : Totals} (reads : Exceeds readTotals t found events read)
    (writes : Exceeds writeTotals t found events write) :
    found.map visible = (record t events).map visible ↔ read = 0 ∧ write = 0 := by
  have same := reads.same
  have readTotal := reads.total
  have writeTotal := writes.total
  cases serial : record t events with
  | none =>
    rw [serial, Option.map_none, Option.map_eq_none_iff] at same
    rw [same, serial, Option.elim_none, zero_add] at readTotal writeTotal
    rw [same]
    exact iff_of_true rfl ⟨readTotal.symm, writeTotal.symm⟩
  | some p =>
    rw [serial] at same readTotal writeTotal
    obtain ⟨q, rfl, shown⟩ := Option.map_eq_some_iff.mp same
    rw [Option.elim_some, Option.elim_some] at readTotal writeTotal
    rw [Option.map_some, Option.map_some, Option.some.injEq, visible_eq_iff, readTotal, writeTotal]
    simp [shown]

theorem sum_bothTotals (calls : List (Syscall × Syscall)) :
    (calls.map (tally bothTotals)).sum =
      ((calls.map (tally readTotals)).sum, (calls.map (tally writeTotals)).sum) := by
  induction calls with
  | nil => rfl
  | cons pair rest ih =>
    simp only [List.map_cons, List.sum_cons, ih]
    rfl

theorem toInt64_nonneg_iff (ret : Int32) : ret.toInt64 ≥ 0 ↔ ¬ ret < 0 := by
  rw [nonneg_iff, Int32.toInt_toInt64, Int32.lt_iff_toInt_lt, Int32.toInt_zero, not_lt]

/-- The merged chunks against a serial pass, whatever events were lost. -/
theorem lossy_chunks (chunks : List (List Tracked)) (few : chunks.length < 2 ^ 64)
    (fits : ∀ tracked ∈ chunks.flatten, ¬ tracked.IsEntry → FitsInt tracked.event.ret) (t : Int32) :
    let merged := (reduce chunks).tids.lookup t
    let serial := record t (ofTid t chunks.flatten)
    let calls := overtakenIn t [] (chunks.map (ofTid t))
    merged.map untotalled = serial.map untotalled ∧
    merged.elim 0 bothTotals = serial.elim 0 bothTotals + (calls.map (tally bothTotals)).sum ∧
    (merged.map visible = serial.map visible ↔ ∀ pair ∈ calls, pair.2.ret < 0) := by
  intro merged serial calls
  have reads : Exceeds readTotals t merged (ofTid t chunks.flatten) _ :=
    exceeds_reduce accounted_readTotals chunks fits t
  have writes : Exceeds writeTotals t merged (ofTid t chunks.flatten) _ :=
    exceeds_reduce accounted_writeTotals chunks fits t
  have both : ∀ found : Option IoProcess,
      found.elim 0 bothTotals = (found.elim 0 readTotals, found.elim 0 writeTotals) := by
    intro found
    cases found <;> rfl
  have few_calls : calls.length < 2 ^ 64 := by
    have most := length_overtakenIn t [] (chunks.map (ofTid t))
    rw [List.length_map] at most
    exact most.trans_lt few
  refine ⟨reads.same, ?_, ?_⟩
  · rw [both, both, sum_bothTotals, reads.total, writes.total]
    rfl
  · rw [reads.visible_iff writes, accounted_readTotals.sum_tally_eq_zero_iff few_calls,
      accounted_writeTotals.sum_tally_eq_zero_iff few_calls]
    simp only [toInt64_nonneg_iff]
    constructor
    · intro none pair member
      by_contra counts
      obtain ⟨tracked, enters⟩ := opened_of_overtakenIn member
      rcases reads_or_writes enters with reading | writing
      · exact none.1 pair member ⟨reading, counts⟩
      · exact none.2 pair member ⟨writing, counts⟩
    · intro failed
      exact ⟨fun pair member both => both.2 (failed pair member),
        fun pair member both => both.2 (failed pair member)⟩

end IoContext

open IoContext

/-- Whatever events were lost, an unbalanced run shows every process as a serial run does but for
the totals, which exceed the serial ones by the syscalls that were overtaken; the two agree in a
process exactly where each of its overtaken syscalls is ended with an error. -/
theorem io_lossy_run_agrees {set : TraceSet} {threads : Nat} {data : IoContext}
    (fits : ∀ tracked ∈ set.events.filterMap (track set), ¬ tracked.IsEntry →
      IoProcess.FitsInt tracked.event.ret)
    (le : set.getBegin ≤ set.getEnd) (below : set.getEnd < maxTimestamp)
    (some_thread : 0 < threads) (small : threads < 2 ^ 64)
    (run : DoExecuteParallelUnbalanced ioAnalysis set threads data) (t : Int32) :
    let parallel := data.tids.lookup t
    let serial := (IoAnalysis.doExecuteSerial set).tids.lookup t
    let calls := overtakenIn t []
      ((unbalancedWorkers set threads).map (fun worker => ofTid t (IoWorker.tracked worker)))
    parallel.map untotalled = serial.map untotalled ∧
    parallel.elim 0 bothTotals = serial.elim 0 bothTotals + (calls.map (tally bothTotals)).sum ∧
    (parallel.map IoProcess.visible = serial.map IoProcess.visible ↔
      ∀ pair ∈ calls, pair.2.ret < 0) := by
  intro parallel serial calls
  obtain ⟨reduced, mapped, rfl⟩ := run
  have whole := flatten_tracked le below some_thread small
  have few : ((unbalancedWorkers set threads).map IoWorker.tracked).length < 2 ^ 64 := by
    rw [List.length_map, unbalancedWorkers, List.length_map, List.length_range]
    exact small
  have agree := lossy_chunks _ few (by rw [whole]; exact fits) t
  have serially : serial = record t (ofTid t (set.events.filterMap (track set))) := by
    rw [← lookup_ofTracked, ← IoAnalysis.doExecuteSerial_eq]
  rw [List.map_map, whole, ← serially, ← mappedReduced_io.mp mapped] at agree
  exact agree

/-- The exit of a read and the entry of the call after it were lost: the cut is between the two. -/
def lostExitTrace : TraceSet :=
  TraceSet.ofEvents [⟨"lttng-kernel", [("sys_read", 1), ("sys_write", 2), ("exit_syscall", 3)]⟩]
    [{ id := 1, timestamp := 12, tid := some 7, procname := some "cat", name := "sys_read" },
      { id := 2, timestamp := 16, tid := some 7, procname := some "cat", name := "sys_write" },
      { id := 3, timestamp := 17, tid := some 7, ret := 512 },
      { id := 3, timestamp := 19, tid := some 7, ret := 4096 }] 10 20
    (by decide) (by decide) (by decide)

/-- The parallel run counts a read of 4096 bytes in 7 ns, and the serial run none. -/
theorem io_lossy_run_agrees_lostExitTrace :
    let run := (unbalancedWorkers lostExitTrace 2).map ioAnalysis.doMap
    let parallel := (run.foldl ioAnalysis.doReduce ioAnalysis.initial).handleEnd.tids.lookup 7
    let serial := (IoAnalysis.doExecuteSerial lostExitTrace).tids.lookup 7
    parallel.map untotalled = serial.map untotalled ∧
      parallel.elim 0 bothTotals = serial.elim 0 bothTotals + (⟨4096, 1, 7⟩, 0) := by
  intro run parallel serial
  have done : DoExecuteParallelUnbalanced ioAnalysis lostExitTrace 2
      (run.foldl ioAnalysis.doReduce ioAnalysis.initial).handleEnd := ⟨_, rfl, rfl⟩
  have agree := io_lossy_run_agrees (by decide) (by decide) (by decide) (by decide) (by decide)
    done 7
  exact ⟨agree.1, agree.2.1⟩

end LttngParallelAnalyses
