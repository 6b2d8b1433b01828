import LttngParallelAnalyses.Cpu.Agreement

/-! The reference accounting of a serial pass, in exact arithmetic. The busy time of a CPU
is the sum of its gaps; the gaps of one CPU do not overlap, so that sum is exact. The gaps of
a process may lie on several CPUs at once, so its 64-bit sum may wrap. -/

namespace LttngParallelAnalyses
open Lib Lib.Tables Lib.Adjacent
open scoped BigOperators

/-- A stretch of busy time on one CPU: from a switch to a task to the next switch, if any. -/
structure Gap where
  opening : EventValue
  closing : Option EventValue

namespace Gap

def stop (end_ : Timestamp) (gap : Gap) : Timestamp := gap.closing.elim end_ (·.timestamp)

def ns (end_ : Timestamp) (gap : Gap) : ℕ :=
  (gap.stop end_).toNat - gap.opening.timestamp.toNat

/-- The process that is charged: the one switched out, or the one still running at the end. -/
def charged (gap : Gap) : Int32 := gap.closing.elim gap.opening.nextTid (·.prevTid)

end Gap

/-- The gaps of one CPU, from its events. -/
def gaps : List EventValue → List Gap
  | [] => []
  | event :: rest =>
    if event.nextTid ≠ 0 then ⟨event, rest.head?⟩ :: gaps rest else gaps rest

def busyNs (end_ : Timestamp) (events : List EventValue) : ℕ :=
  ((gaps events).map (Gap.ns end_)).sum

/-- The gaps on one CPU that satisfy `own`. -/
def ownedNs (own : Gap → Bool) (end_ : Timestamp) (events : List EventValue) : ℕ :=
  (((gaps events).filter own).map (Gap.ns end_)).sum

/-- Counters wrap: this is the counter that counts to `n`. -/
def counter : ℕ →+ UInt64 where
  toFun := UInt64.ofNat
  map_zero' := rfl
  map_add' := UInt64.ofNat_add

theorem counter_toNat (n : ℕ) : (counter n).toNat = n % 2 ^ 64 := UInt64.toNat_ofNat'

theorem counter_sub {a b : UInt64} (le : a ≤ b) : counter (b.toNat - a.toNat) = b - a := by
  rw [← UInt64.toNat_sub_of_le b a le]
  exact UInt64.ofNat_toNat

theorem ownedNs_true (end_ : Timestamp) (events : List EventValue) :
    ownedNs (fun _ => true) end_ events = busyNs end_ events := by
  rw [ownedNs, busyNs, List.filter_true]

/-! ## One CPU -/

section Cpu
variable {end_ : Timestamp}

/-- The gaps of a CPU fit between its first event and the end. -/
theorem busyNs_le (first : EventValue) (rest : List EventValue)
    (sorted : TimeSorted (first :: rest))
    (ended : ∀ event ∈ first :: rest, event.timestamp ≤ end_) :
    first.timestamp.toNat + busyNs end_ (first :: rest) ≤ end_.toNat := by
  induction rest generalizing first with
  | nil =>
    have le : first.timestamp.toNat ≤ end_.toNat := ended first (by simp)
    by_cases idle : first.nextTid = 0
    · simpa [busyNs, gaps, idle] using le
    · simp only [busyNs, gaps, idle, ne_eq, not_false_eq_true, if_true, List.map_cons,
        List.map_nil, List.sum_cons, List.sum_nil, Gap.ns, Gap.stop, List.head?_nil,
        Option.elim_none]
      omega
  | cons next rest ih =>
    have le : first.timestamp.toNat ≤ next.timestamp.toNat :=
      List.rel_of_pairwise_cons sorted (by simp)
    have later := ih next sorted.of_cons (fun event member => ended event (by simp [member]))
    by_cases idle : first.nextTid = 0
    · have same : busyNs end_ (first :: next :: rest) = busyNs end_ (next :: rest) := by
        simp only [busyNs, gaps.eq_2 first, idle, ne_eq, not_true_eq_false, if_false]
      omega
    · have split : busyNs end_ (first :: next :: rest) =
          (next.timestamp.toNat - first.timestamp.toNat) + busyNs end_ (next :: rest) := by
        simp only [busyNs, gaps.eq_2 first, idle, ne_eq, not_false_eq_true, if_true,
          List.map_cons, List.sum_cons, Gap.ns, Gap.stop, List.head?_cons, Option.elim_some]
      omega

theorem counter_ownedNs_cons (own : Gap → Bool) (event : EventValue) (rest : List EventValue)
    (sorted : TimeSorted (event :: rest))
    (ended : ∀ other ∈ event :: rest, other.timestamp ≤ end_) :
    counter (ownedNs own end_ (event :: rest)) =
      (if own ⟨event, rest.head?⟩ then
        elapsed (taskAfter event) (Gap.stop end_ ⟨event, rest.head?⟩) else 0) +
        counter (ownedNs own end_ rest) := by
  have le : event.timestamp ≤ Gap.stop end_ ⟨event, rest.head?⟩ := by
    cases rest with
    | nil => exact ended event (by simp)
    | cons next rest => exact List.rel_of_pairwise_cons sorted List.mem_cons_self
  by_cases idle : event.nextTid = 0
  · simp [ownedNs, gaps, idle, taskAfter, elapsed]
  · by_cases mine : own ⟨event, rest.head?⟩ = true
    · have split : ownedNs own end_ (event :: rest) =
          Gap.ns end_ ⟨event, rest.head?⟩ + ownedNs own end_ rest := by
        simp [ownedNs, gaps, idle, mine]
      rw [split, map_add, Gap.ns, counter_sub le]
      simp [mine, taskAfter, idle, elapsed]
    · simp [ownedNs, gaps, idle, mine]

theorem busyTime_eq (events : List EventValue) (sorted : TimeSorted events)
    (ended : ∀ event ∈ events, event.timestamp ≤ end_) :
    busyTime end_ events = counter (busyNs end_ events) := by
  rw [← ownedNs_true]
  induction events with
  | nil => rfl
  | cons event rest ih =>
    have later := ih sorted.of_cons (fun other member => ended other (by simp [member]))
    rw [counter_ownedNs_cons _ event rest sorted ended, ← later]
    cases rest with
    | nil =>
      simp only [busyTime, weight_singleton, weight_nil, zero_add, if_true]
      exact (add_zero _).symm
    | cons next rest => simp [busyTime, weight_cons_cons, gap, lastTask, Gap.stop, add_assoc]

theorem chargedTime_eq (t : Int32) (events : List EventValue) (sorted : TimeSorted events)
    (ended : ∀ event ∈ events, event.timestamp ≤ end_) :
    chargedTime end_ t events = counter (ownedNs (fun gap => gap.charged = t) end_ events) := by
  induction events with
  | nil => simp [chargedTime, lastTask, ownedNs, gaps]
  | cons event rest ih =>
    have later := ih sorted.of_cons (fun other member => ended other (by simp [member]))
    have split := counter_ownedNs_cons (fun gap => gap.charged = t) event rest sorted ended
    simp only [decide_eq_true_eq] at split
    rw [split, ← later]
    cases rest with
    | nil =>
      simp only [chargedTime, weight_singleton, weight_nil, zero_add, lastTask,
        List.getLast?_singleton, List.getLast?_nil, Option.bind_some, Option.bind_none,
        openTime_none, add_zero, Gap.charged, Gap.stop, List.head?_nil, Option.elim_none]
      by_cases idle : event.nextTid = 0
      · simp [taskAfter, idle, elapsed]
      · simp [taskAfter, idle, elapsed, openTime]
    | cons next rest =>
      have last : lastTask (event :: next :: rest) = lastTask (next :: rest) := by
        rw [lastTask, lastTask, List.getLast?_cons_cons]
      rw [chargedTime, weight_cons_cons, last, add_assoc]
      rfl

/-- On a chained CPU a gap is charged to the process that it was opened for. -/
theorem charged_of_chain {events : List EventValue}
    (chain : events.IsChain (fun first second => second.prevTid = first.nextTid)) :
    ∀ gap ∈ gaps events, gap.charged = gap.opening.nextTid := by
  induction events with
  | nil => simp [gaps]
  | cons event rest ih =>
    intro gap member
    have here : Gap.charged ⟨event, rest.head?⟩ = event.nextTid := by
      cases rest with
      | nil => rfl
      | cons next rest => exact (List.isChain_cons_cons.mp chain).1
    have later : gap ∈ gaps rest → gap.charged = gap.opening.nextTid := ih chain.tail gap
    unfold gaps at member
    split at member
    · rcases List.mem_cons.mp member with rfl | inside
      · exact here
      · exact later inside
    · exact later member

end Cpu

/-! ## The serial pass -/

section Serial
open CpuContext

theorem onCpu_sorted {events : List EventValue} (sorted : TimeSorted events) (cpu : UInt32) :
    TimeSorted (onCpu cpu events) := List.Pairwise.filter _ sorted

theorem onCpu_ended {events : List EventValue} {end_ : Timestamp}
    (ended : ∀ event ∈ events, event.timestamp ≤ end_) (cpu : UInt32) :
    ∀ event ∈ onCpu cpu events, event.timestamp ≤ end_ :=
  fun event member => ended event (mem_onCpu.mp member).1

theorem busyNs_lt {events : List EventValue} {end_ : Timestamp} (sorted : TimeSorted events)
    (ended : ∀ event ∈ events, event.timestamp ≤ end_) : busyNs end_ events < 2 ^ 64 := by
  cases events with
  | nil => exact Nat.two_pow_pos 64
  | cons first rest =>
    have fits := busyNs_le first rest sorted ended
    have bound := end_.toNat_lt
    omega

theorem busyTime_toNat {events : List EventValue} {end_ : Timestamp} (sorted : TimeSorted events)
    (ended : ∀ event ∈ events, event.timestamp ≤ end_) :
    (busyTime end_ events).toNat = busyNs end_ events := by
  rw [busyTime_eq events sorted ended, counter_toNat]
  exact Nat.mod_eq_of_lt (busyNs_lt sorted ended)

/-- The busy times are the sums of the gaps, exactly. The times of the processes are sums of
gaps modulo 2^64, and in a chained trace of the gaps that a switch to the process opens. -/
theorem serial_accounting (events : List EventValue) (begin_ end_ : Timestamp)
    (sorted : TimeSorted events) (ended : ∀ event ∈ events, event.timestamp ≤ end_) :
    (∀ cpu, ((ofEvents events begin_ end_).handleEnd.find cpu).map (fun c => c.cpuNs.toNat) =
      if onCpu cpu events = [] then none else some (busyNs end_ (onCpu cpu events))) ∧
    (∀ t, ((ofEvents events begin_ end_).handleEnd.time t).toNat =
      (∑ cpu ∈ cpuIds events,
        ownedNs (fun gap => gap.charged = t) end_ (onCpu cpu events)) % 2 ^ 64) ∧
    (Chained events → ∀ t,
      ∑ cpu ∈ cpuIds events, ownedNs (fun gap => gap.charged = t) end_ (onCpu cpu events) =
      ∑ cpu ∈ cpuIds events,
        ownedNs (fun gap => gap.opening.nextTid = t) end_ (onCpu cpu events)) := by
  have accounts := accounts_ofEvents events begin_ end_
  refine ⟨fun cpu => ?_, fun t => ?_, fun chained t => ?_⟩
  · have reported := accounts.handleEnd_cpuNs cpu
    rw [ofEvents_end] at reported
    have exact_ := busyTime_toNat (onCpu_sorted sorted cpu) (onCpu_ended ended cpu)
    rw [← exact_, ← Function.comp_def, ← Option.map_map, reported]
    by_cases absent : onCpu cpu events = [] <;> simp [absent]
  · rw [accounts.handleEnd_time t (cpuIds events) subset_rfl, ofEvents_end, ← counter_toNat,
      map_sum]
    congr 1
    apply Finset.sum_congr rfl
    intro cpu _
    exact chargedTime_eq t _ (onCpu_sorted sorted cpu) (onCpu_ended ended cpu)
  · apply Finset.sum_congr rfl
    intro cpu _
    unfold ownedNs
    congr 2
    apply List.filter_congr
    intro gap member
    rw [charged_of_chain (chained cpu) gap member]

/-- One process runs for 2^63 ns on each of two CPUs. -/
def twoHalves : List EventValue :=
  [{ timestamp := 0, cpuId := 0, nextTid := 1 }, { timestamp := 0, cpuId := 1, nextTid := 1 },
    { timestamp := 0x8000000000000000, cpuId := 0, prevTid := 1 },
    { timestamp := 0x8000000000000000, cpuId := 1, prevTid := 1 }]

theorem serial_accounting_twoHalves :
    ((ofEvents twoHalves 0 0x8000000000000000).handleEnd.find 1).map (fun c => c.cpuNs.toNat) =
      if onCpu 1 twoHalves = [] then none
      else some (busyNs 0x8000000000000000 (onCpu 1 twoHalves)) :=
  (serial_accounting twoHalves 0 0x8000000000000000 (by decide) (by decide)).1 1

/-- Without the modulus the sum is 2^64 here, and the counter holds 0. -/
theorem exact_accounting_fails :
    ¬ ∀ (events : List EventValue) (begin_ end_ : Timestamp), TimeSorted events →
      (∀ event ∈ events, event.timestamp ≤ end_) →
      ∀ t, ((ofEvents events begin_ end_).handleEnd.time t).toNat =
        ∑ cpu ∈ cpuIds events, ownedNs (fun gap => gap.charged = t) end_ (onCpu cpu events) := by
  intro claimed
  have wrong := claimed twoHalves 0 0x8000000000000000 (by decide) (by decide) 1
  revert wrong
  decide

end Serial

end LttngParallelAnalyses
