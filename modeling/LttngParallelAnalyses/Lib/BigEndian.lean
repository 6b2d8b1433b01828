import Mathlib

/-! Numbers as bytes, the most significant byte first, and files of records: the whole blocks of
one length that a file holds, and fields of one width inside a block. -/

namespace LttngParallelAnalyses.Lib.BigEndian

/-- The number that the bytes give. -/
def value (bytes : List UInt8) : Nat := Nat.ofDigits 256 (bytes.reverse.map UInt8.toNat)

/-- The last base-256 digits of a number. -/
def encode : Nat → Nat → List UInt8
  | 0, _ => []
  | count + 1, n => encode count (n / 256) ++ [UInt8.ofNat n]

@[simp] theorem length_encode (count n : Nat) : (encode count n).length = count := by
  induction count generalizing n with
  | zero => rfl
  | succ count ih => rw [encode, List.length_append, ih, List.length_singleton]

theorem value_concat (bytes : List UInt8) (b : UInt8) :
    value (bytes ++ [b]) = b.toNat + 256 * value bytes := by
  rw [value, List.reverse_append, List.reverse_singleton, List.singleton_append, List.map_cons,
    Nat.ofDigits_cons]
  rfl

theorem value_encode (count n : Nat) : value (encode count n) = n % 256 ^ count := by
  induction count generalizing n with
  | zero => rw [pow_zero, Nat.mod_one]; rfl
  | succ count ih =>
    have digit : (UInt8.ofNat n).toNat = n % 256 := UInt8.toNat_ofNat'
    rw [encode, value_concat, ih, digit, pow_succ, Nat.mul_comm (256 ^ count), Nat.mod_mul]

section Blocks
variable {α β : Type*}

/-- The whole blocks, as many as there are. A block of no items is never read. -/
def blocks (len : Nat) (items : List α) : List (List α) :=
  if len = 0 ∨ items.length < len then []
  else items.take len :: blocks len (items.drop len)
termination_by items.length
decreasing_by
  rw [List.length_drop]
  omega

theorem blocks_eq_nil_iff {len : Nat} (some_length : len ≠ 0) (items : List α) :
    blocks len items = [] ↔ items.length < len := by
  rw [blocks]
  by_cases short : items.length < len
  · simp [short]
  · simp [short, some_length]

theorem length_of_mem_blocks {len : Nat} {items block : List α} (member : block ∈ blocks len items) :
    block.length = len := by
  induction items using blocks.induct len with
  | case1 items stop =>
    rw [blocks, if_pos stop] at member
    cases member
  | case2 items more ih =>
    rw [blocks, if_neg more] at member
    rcases List.mem_cons.mp member with rfl | later
    · rw [List.length_take]
      omega
    · exact ih later

/-- Blocks written one after the other are read back, and a fragment behind them is not. -/
theorem blocks_flatten_append {len : Nat} (some_length : len ≠ 0) {parts : List (List α)}
    (each : ∀ part ∈ parts, part.length = len) {tail : List α} (short : tail.length < len) :
    blocks len (parts.flatten ++ tail) = parts := by
  induction parts with
  | nil => exact (blocks_eq_nil_iff some_length tail).mpr short
  | cons part rest ih =>
    have here := each part List.mem_cons_self
    have more : ¬ (len = 0 ∨ (part ++ (rest.flatten ++ tail)).length < len) := by
      rw [List.length_append]
      omega
    rw [List.flatten_cons, List.append_assoc, blocks, if_neg more, List.take_left' here,
      List.drop_left' here, ih (fun other member => each other (List.mem_cons_of_mem _ member))]

/-- A field of a block of fields. -/
theorem field_flatMap (f : β → List α) {width : Nat} (fixed : ∀ b, (f b).length = width)
    (fields : List β) (tail : List α) (i : Nat) (inside : i < fields.length) :
    ((fields.flatMap f ++ tail).drop (width * i)).take width = f fields[i] := by
  induction fields generalizing i with
  | nil => simp at inside
  | cons b rest ih =>
    rw [List.flatMap_cons, List.append_assoc]
    cases i with
    | zero => rw [Nat.mul_zero, List.drop_zero, List.take_left' (fixed b)]; rfl
    | succ i =>
      rw [Nat.mul_succ, Nat.add_comm, ← List.drop_drop, List.drop_left' (fixed b),
        ih i (by simpa using inside)]
      rfl

end Blocks

end LttngParallelAnalyses.Lib.BigEndian
