import LttngParallelAnalyses.Common.PacketIndex

/-! Index files as they are written and as they are read. A file that is written with records
of at least the size of the struct is read back record by record. A file may announce shorter
records: their fields are then read from behind the buffer. -/

namespace LttngParallelAnalyses
open Lib

/-! ## Headers -/

/-- A header that passes the checks. -/
structure Accepted (file : List UInt8) : Prop where
  present : headerSize ≤ file.length
  magic : (CtfPacketIndexFileHeader.load file).magic = ctfIndexMagic
  major : (CtfPacketIndexFileHeader.load file).indexMajor = ctfIndexMajor
  some_length : (CtfPacketIndexFileHeader.load file).packetIndexLen ≠ 0

/-- The length of the records that a file announces. -/
def recordLength (file : List UInt8) : Nat :=
  (CtfPacketIndexFileHeader.load file).packetIndexLen.toNat

theorem readHeader_ok {file : List UInt8} (accepted : Accepted file) :
    readHeader file = .ok (CtfPacketIndexFileHeader.load file).packetIndexLen := by
  unfold readHeader
  simp [not_lt.mpr accepted.present, accepted.magic, accepted.major, accepted.some_length]

theorem readHeader_error {file : List UInt8} (rejected : ¬ Accepted file) :
    ∃ message, readHeader file = .error message := by
  unfold readHeader
  by_cases short : file.length < headerSize
  · exact ⟨_, if_pos short⟩
  by_cases magic : (CtfPacketIndexFileHeader.load file).magic = ctfIndexMagic
  · by_cases major : (CtfPacketIndexFileHeader.load file).indexMajor = ctfIndexMajor
    · have zero : (CtfPacketIndexFileHeader.load file).packetIndexLen = 0 := by
        by_contra some_length
        exact rejected ⟨not_lt.mp short, magic, major, some_length⟩
      exact ⟨"Error: packet index lenght cannot be 0", by simp [short, magic, major, zero]⟩
    · exact ⟨"Error: incompatible index file", by simp [short, magic, major]⟩
  · exact ⟨"Error: wrong index magic", by simp [short, magic]⟩

theorem recordLength_ne_zero {file : List UInt8} (accepted : Accepted file) :
    recordLength file ≠ 0 := by
  intro zero
  exact accepted.some_length (UInt32.toNat_inj.mp zero)

/-! ## The record buffer -/

/-- What the record buffer holds, read after read. -/
def buffers (file : List UInt8) : List (List UInt8) :=
  match readHeader file with
  | .error _ => []
  | .ok packetIndexLen => BigEndian.blocks packetIndexLen.toNat (file.drop headerSize)

theorem buffers_accepted {file : List UInt8} (accepted : Accepted file) :
    buffers file = BigEndian.blocks (recordLength file) (file.drop headerSize) := by
  rw [buffers, readHeader_ok accepted]
  rfl

theorem buffers_rejected {file : List UInt8} (rejected : ¬ Accepted file) : buffers file = [] := by
  obtain ⟨message, failed⟩ := readHeader_error rejected
  rw [buffers, failed]

/-- A record is read where the header is accepted and a whole record follows it. -/
theorem buffers_ne_nil_iff (file : List UInt8) :
    buffers file ≠ [] ↔ Accepted file ∧ recordLength file ≤ file.length - headerSize := by
  by_cases accepted : Accepted file
  · rw [buffers_accepted accepted, Ne,
      BigEndian.blocks_eq_nil_iff (recordLength_ne_zero accepted), List.length_drop, not_lt]
    simp [accepted]
  · simp [accepted, buffers_rejected accepted]

namespace PacketIndex

theorem readRecords_eq (heap : Nat → Nat → UInt8) (clock : ClockInfos) (len : Nat)
    (index : PacketIndex) (file : List UInt8) :
    readRecords heap clock len index file =
      (BigEndian.blocks len file).foldl (decode heap clock) index := by
  induction file using BigEndian.blocks.induct len generalizing index with
  | case1 file stop => rw [readRecords, BigEndian.blocks, if_pos stop, if_pos stop]; rfl
  | case2 file more ih =>
    rw [readRecords, BigEndian.blocks, if_neg more, if_neg more, List.foldl_cons, ih]

theorem new_eq (heap : Nat → Nat → UInt8) (clock : ClockInfos) (file : List UInt8) :
    new heap clock file = (buffers file).foldl (decode heap clock) {} := by
  by_cases accepted : Accepted file
  · rw [new, readHeader_ok accepted, buffers_accepted accepted]
    exact readRecords_eq heap clock _ _ _
  · obtain ⟨message, failed⟩ := readHeader_error accepted
    rw [new, failed, buffers_rejected accepted]
    rfl

theorem length_foldl_decode (heap : Nat → Nat → UInt8) (clock : ClockInfos) (index : PacketIndex)
    (parts : List (List UInt8)) :
    (parts.foldl (decode heap clock) index).indices.length =
      index.indices.length + parts.length := by
  induction parts generalizing index with
  | nil => rfl
  | cons part rest ih =>
    rw [List.foldl_cons, ih, decode, List.length_append, List.length_singleton, List.length_cons]
    omega

theorem length_new (heap : Nat → Nat → UInt8) (clock : ClockInfos) (file : List UInt8) :
    (new heap clock file).indices.length = (buffers file).length := by
  rw [new_eq, length_foldl_decode]
  exact Nat.zero_add _

end PacketIndex

/-! ## Fields -/

theorem readBytes_inside (heap : Nat → UInt8) {buffer : List UInt8} {offset : Nat}
    (inside : offset + 8 ≤ buffer.length) :
    readBytes heap buffer offset = (buffer.drop offset).take 8 := by
  unfold readBytes
  apply List.ext_getElem
  · rw [List.length_map, List.length_range, List.length_take, List.length_drop]
    omega
  · intro i own _
    rw [List.length_map, List.length_range] at own
    rw [List.getElem_map, List.getElem_range, List.getElem_take, List.getElem_drop,
      List.getElem?_eq_getElem (by omega), Option.getD_some]

/-- Where the fields of the struct begin. -/
def fieldOffsets : List Nat := [0, 8, 16, 24, 32, 40, 48]

/-- `sizeof(CtfPacketIndex)` -/
def recordSize : Nat := 56

theorem fieldOffsets_inside_iff (length : Nat) :
    (∀ offset ∈ fieldOffsets, offset + 8 ≤ length) ↔ recordSize ≤ length := by
  unfold recordSize
  constructor
  · intro inside
    exact inside 48 (by decide)
  · intro wide offset member
    have bound : ∀ offset ∈ fieldOffsets, offset ≤ 48 := by decide
    have below := bound offset member
    omega

/-- A record that fills the struct is decoded from the file alone. -/
theorem load_inside (heap heap' : Nat → UInt8) {buffer : List UInt8}
    (wide : recordSize ≤ buffer.length) :
    CtfPacketIndex.load heap buffer = CtfPacketIndex.load heap' buffer := by
  have inside := (fieldOffsets_inside_iff buffer.length).mpr wide
  have same : ∀ offset ∈ fieldOffsets,
      readBytes heap buffer offset = readBytes heap' buffer offset := by
    intro offset member
    rw [readBytes_inside heap (inside offset member), readBytes_inside heap' (inside offset member)]
  unfold CtfPacketIndex.load
  rw [same 0 (by decide), same 8 (by decide), same 16 (by decide), same 24 (by decide),
    same 32 (by decide), same 40 (by decide), same 48 (by decide)]

/-! ## Writing -/

def CtfPacketIndex.fields (record : CtfPacketIndex) : List UInt64 :=
  [record.offset, record.packetSize, record.contentSize, record.timestampBegin,
    record.timestampEnd, record.eventsDiscarded, record.streamId]

def htobe64 (field : UInt64) : List UInt8 := BigEndian.encode 8 field.toNat

def htobe32 (field : UInt32) : List UInt8 := BigEndian.encode 4 field.toNat

theorem be64toh_htobe64 (field : UInt64) : be64toh (htobe64 field) = field := by
  have small : field.toNat < 256 ^ 8 := field.toNat_lt
  rw [be64toh, htobe64, BigEndian.value_encode, Nat.mod_eq_of_lt small]
  exact UInt64.ofNat_toNat

theorem be32toh_htobe32 (field : UInt32) : be32toh (htobe32 field) = field := by
  have small : field.toNat < 256 ^ 4 := field.toNat_lt
  rw [be32toh, htobe32, BigEndian.value_encode, Nat.mod_eq_of_lt small]
  exact UInt32.ofNat_toNat

/-- The bytes of a record, and the padding up to the announced length. -/
def encodeRecord (record : CtfPacketIndex × List UInt8) : List UInt8 :=
  record.1.fields.flatMap htobe64 ++ record.2

def encodeHeader (minor packetIndexLen : UInt32) : List UInt8 :=
  [ctfIndexMagic, ctfIndexMajor, minor, packetIndexLen].flatMap htobe32

def encodeFile (minor packetIndexLen : UInt32) (records : List (CtfPacketIndex × List UInt8))
    (fragment : List UInt8) : List UInt8 :=
  encodeHeader minor packetIndexLen ++ ((records.map encodeRecord).flatten ++ fragment)

theorem length_encodeRecord (record : CtfPacketIndex × List UInt8) :
    (encodeRecord record).length = recordSize + record.2.length := by
  simp only [encodeRecord, CtfPacketIndex.fields, htobe64, recordSize, List.length_append,
    List.length_flatMap, BigEndian.length_encode, List.map_cons, List.map_nil, List.sum_cons,
    List.sum_nil]
  omega

theorem length_encodeHeader (minor packetIndexLen : UInt32) :
    (encodeHeader minor packetIndexLen).length = headerSize := by
  simp [encodeHeader, htobe32, headerSize]

/-- Every field of a written record is read back. -/
theorem load_encodeRecord (heap : Nat → UInt8) (record : CtfPacketIndex × List UInt8) :
    CtfPacketIndex.load heap (encodeRecord record) = record.1 := by
  have field : ∀ (i : Nat) (inside : i < record.1.fields.length),
      be64toh (readBytes heap (encodeRecord record) (8 * i)) = record.1.fields[i] := by
    intro i inside
    have fits : 8 * i + 8 ≤ (encodeRecord record).length := by
      have seven : i < 7 := inside
      rw [length_encodeRecord, recordSize]
      omega
    rw [readBytes_inside heap fits, encodeRecord,
      BigEndian.field_flatMap htobe64 (fun _ => BigEndian.length_encode _ _) _ _ i inside,
      be64toh_htobe64]
  refine CtfPacketIndex.ext (field 0 ?_) (field 1 ?_) (field 2 ?_) (field 3 ?_) (field 4 ?_)
    (field 5 ?_) (field 6 ?_)
  all_goals simp [CtfPacketIndex.fields]

theorem load_encodeHeader (minor packetIndexLen : UInt32) (rest : List UInt8) :
    CtfPacketIndexFileHeader.load (encodeHeader minor packetIndexLen ++ rest) =
      ⟨ctfIndexMagic, ctfIndexMajor, minor, packetIndexLen⟩ := by
  have field : ∀ (i : Nat)
      (inside : i < [ctfIndexMagic, ctfIndexMajor, minor, packetIndexLen].length),
      be32toh (((encodeHeader minor packetIndexLen ++ rest).drop (4 * i)).take 4) =
        [ctfIndexMagic, ctfIndexMajor, minor, packetIndexLen][i] := by
    intro i inside
    rw [encodeHeader, BigEndian.field_flatMap htobe32 (fun _ => BigEndian.length_encode _ _) _ _ i
      inside, be32toh_htobe32]
  have magic := field 0 (by simp)
  have major := field 1 (by simp)
  have minor_ := field 2 (by simp)
  have length := field 3 (by simp)
  rw [Nat.mul_zero, List.drop_zero] at magic
  unfold CtfPacketIndexFileHeader.load
  rw [magic, major, minor_, length]
  rfl

/-! ## Reading what was written -/

section RoundTrip
variable {minor packetIndexLen : UInt32} {records : List (CtfPacketIndex × List UInt8)}
  {fragment : List UInt8}

theorem accepted_encodeFile (wide : recordSize ≤ packetIndexLen.toNat) :
    Accepted (encodeFile minor packetIndexLen records fragment) := by
  have header := load_encodeHeader minor packetIndexLen
    ((records.map encodeRecord).flatten ++ fragment)
  rw [← encodeFile] at header
  constructor
  · rw [encodeFile, List.length_append, length_encodeHeader]
    exact Nat.le_add_right _ _
  · rw [header]
  · rw [header]
  · rw [header]
    intro zero
    have none : packetIndexLen = 0 := zero
    rw [none] at wide
    exact absurd wide (by decide)

/-- The buffer holds the records that were written, one after the other. -/
theorem buffers_encodeFile (wide : recordSize ≤ packetIndexLen.toNat)
    (padded : ∀ record ∈ records, record.2.length = packetIndexLen.toNat - recordSize)
    (short : fragment.length < packetIndexLen.toNat) :
    buffers (encodeFile minor packetIndexLen records fragment) = records.map encodeRecord := by
  have some_length : packetIndexLen.toNat ≠ 0 := by
    unfold recordSize at wide
    omega
  have each : ∀ part ∈ records.map encodeRecord, part.length = packetIndexLen.toNat := by
    intro part member
    obtain ⟨record, inside, rfl⟩ := List.mem_map.mp member
    rw [length_encodeRecord, padded record inside]
    omega
  rw [buffers_accepted (accepted_encodeFile wide), recordLength, encodeFile, load_encodeHeader,
    List.drop_left' (length_encodeHeader minor packetIndexLen)]
  exact BigEndian.blocks_flatten_append some_length each short

theorem foldl_decode_encodeRecord (heap : Nat → Nat → UInt8) (clock : ClockInfos)
    (index : PacketIndex) (records : List (CtfPacketIndex × List UInt8)) :
    ((records.map encodeRecord).foldl (PacketIndex.decode heap clock) index).indices =
      index.indices ++ records.map (fun record => PacketHeader.ofIndex clock record.1) := by
  induction records generalizing index with
  | nil => exact (List.append_nil _).symm
  | cons record rest ih =>
    rw [List.map_cons, List.foldl_cons, ih, PacketIndex.decode, load_encodeRecord, List.map_cons,
      List.append_assoc, List.singleton_append]

end RoundTrip

/-- The header that a record of a file describes. -/
structure Describes (clock : ClockInfos) (record : CtfPacketIndex) (header : PacketHeader) : Prop
    where
  offset : header.offset.toUInt64 = record.offset
  packetSize : header.packetSize = record.packetSize
  contentSize : header.contentSize = record.contentSize
  tsCycles : header.tsCycles = ⟨record.timestampBegin, record.timestampEnd⟩
  eventsDiscarded : header.eventsDiscarded = record.eventsDiscarded
  tsReal : clock.freq = 1000000000 → header.tsReal =
    ⟨record.timestampBegin + (clock.offsetS * 1000000000 + clock.offset),
      record.timestampEnd + (clock.offsetS * 1000000000 + clock.offset)⟩

theorem describes_ofIndex (clock : ClockInfos) (record : CtfPacketIndex) :
    Describes clock record (PacketHeader.ofIndex clock record) where
  offset := rfl
  packetSize := rfl
  contentSize := rfl
  tsCycles := rfl
  eventsDiscarded := rfl
  tsReal unscaled := by
    unfold PacketHeader.ofIndex ctfGetRealTimestamp clockOffsetNs clockCyclesToNs
    rw [if_pos unscaled, if_pos unscaled, if_pos unscaled]

/-- Decoding undoes encoding: one header for each record, in order, and nothing for a fragment at
the end. A file that is rejected has no headers. -/
theorem index_round_trip (heap : Nat → Nat → UInt8) (clock : ClockInfos)
    (minor packetIndexLen : UInt32) (records : List (CtfPacketIndex × List UInt8))
    (fragment : List UInt8) (wide : recordSize ≤ packetIndexLen.toNat)
    (padded : ∀ record ∈ records, record.2.length = packetIndexLen.toNat - recordSize)
    (short : fragment.length < packetIndexLen.toNat) :
    List.Forall₂ (Describes clock) (records.map Prod.fst)
      (PacketIndex.new heap clock (encodeFile minor packetIndexLen records fragment)).indices ∧
    ∀ file : List UInt8,
      (file.length < headerSize ∨
        (CtfPacketIndexFileHeader.load file).magic ≠ ctfIndexMagic ∨
        (CtfPacketIndexFileHeader.load file).indexMajor ≠ ctfIndexMajor ∨
        (CtfPacketIndexFileHeader.load file).packetIndexLen = 0) →
      (PacketIndex.new heap clock file).indices = [] := by
  constructor
  · rw [PacketIndex.new_eq, buffers_encodeFile wide padded short, foldl_decode_encodeRecord,
      List.nil_append, List.forall₂_map_left_iff, List.forall₂_map_right_iff, List.forall₂_same]
    exact fun record _ => describes_ofIndex clock record.1
  · intro file wrong
    have rejected : ¬ Accepted file := by
      intro accepted
      rcases wrong with missing | magic | major | zero
      · exact not_lt.mpr accepted.present missing
      · exact magic accepted.magic
      · exact major accepted.major
      · exact accepted.some_length zero
    rw [PacketIndex.new_eq, buffers_rejected rejected]
    rfl

/-- Two records with two bytes of padding each, and a fragment. -/
theorem index_round_trip_padded :
    let clock : ClockInfos := { freq := 1000000000, offsetS := 2, offset := 5 }
    let records : List (CtfPacketIndex × List UInt8) :=
      [(⟨0, 4096, 800, 10, 20, 0, 1⟩, [0xAA, 0xBB]), (⟨512, 4096, 700, 21, 30, 3, 1⟩, [0xCC, 0xDD])]
    List.Forall₂ (Describes clock) (records.map Prod.fst)
      (PacketIndex.new (fun _ _ => 0) clock (encodeFile 0 58 records [1, 2, 3])).indices := by
  intro clock records
  exact (index_round_trip (fun _ _ => 0) clock 0 58 records [1, 2, 3] (by decide)
    (by simp [records, recordSize]) (by decide)).1

/-! ## Short records -/

/-- In every iteration every field that is read lies in the buffer. -/
def ReadsInside (file : List UInt8) : Prop :=
  ∀ buffer ∈ buffers file, ∀ offset ∈ fieldOffsets, offset + 8 ≤ buffer.length

/-- The file is rejected, or its records fill the struct, or it holds no whole record. -/
def FillsStruct (file : List UInt8) : Prop :=
  ¬ Accepted file ∨ recordSize ≤ recordLength file ∨ file.length - headerSize < recordLength file

theorem fillsStruct_iff (file : List UInt8) :
    FillsStruct file ↔ buffers file = [] ∨ recordSize ≤ recordLength file := by
  have empty := not_congr (buffers_ne_nil_iff file)
  rw [not_not, not_and, not_le] at empty
  rw [FillsStruct, empty]
  by_cases accepted : Accepted file
  · simp [accepted, or_comm]
  · simp [accepted]

theorem length_buffer {file buffer : List UInt8} (member : buffer ∈ buffers file) :
    buffer.length = recordLength file := by
  by_cases accepted : Accepted file
  · rw [buffers_accepted accepted] at member
    exact BigEndian.length_of_mem_blocks member
  · rw [buffers_rejected accepted] at member
    cases member

theorem readsInside_iff (file : List UInt8) : ReadsInside file ↔ FillsStruct file := by
  rw [fillsStruct_iff]
  constructor
  · intro inside
    by_cases empty : buffers file = []
    · exact Or.inl empty
    · obtain ⟨buffer, member⟩ := List.exists_mem_of_ne_nil _ empty
      have fields := (fieldOffsets_inside_iff buffer.length).mp (inside buffer member)
      exact Or.inr (length_buffer member ▸ fields)
  · intro either buffer member
    rw [fieldOffsets_inside_iff, length_buffer member]
    rcases either with empty | wide
    · rw [empty] at member
      cases member
    · exact wide

theorem foldl_decode_congr {heap heap' : Nat → Nat → UInt8} (clock : ClockInfos)
    {parts : List (List UInt8)} (wide : ∀ part ∈ parts, recordSize ≤ part.length)
    (index : PacketIndex) :
    parts.foldl (PacketIndex.decode heap clock) index =
      parts.foldl (PacketIndex.decode heap' clock) index := by
  apply List.foldl_ext
  intro index part member
  rw [PacketIndex.decode, PacketIndex.decode,
    load_inside (heap index.indices.length) (heap' index.indices.length) (wide part member)]

/-- The last byte of the stream id comes from the heap where the record does not fill the struct. -/
theorem streamId_mod (heap : Nat → UInt8) {buffer : List UInt8}
    (narrow : buffer.length < recordSize) :
    (CtfPacketIndex.load heap buffer).streamId.toUInt32.toInt32.toUInt32.toNat % 256 =
      (heap 55).toNat := by
  have behind : buffer[48 + 7]? = none := List.getElem?_eq_none (by unfold recordSize at narrow; omega)
  have bytes : readBytes heap buffer 48 =
      (List.range 7).map (fun i => (buffer[48 + i]?).getD (heap (48 + i))) ++ [heap 55] := by
    rw [readBytes, show 8 = 7 + 1 from rfl, List.range_succ, List.map_append, List.map_singleton,
      behind]
    rfl
  have small := (heap 55).toNat_lt
  show (be64toh (readBytes heap buffer 48)).toUInt32.toNat % 256 = _
  rw [be64toh, bytes, BigEndian.value_concat, UInt64.toNat_toUInt32, UInt64.toNat_ofNat']
  omega

theorem heap_read {file : List UInt8} (clock : ClockInfos)
    (same : ∀ heap heap', PacketIndex.new heap clock file = PacketIndex.new heap' clock file) :
    FillsStruct file := by
  rw [fillsStruct_iff]
  by_contra neither
  obtain ⟨some_record, narrow⟩ := not_or.mp neither
  obtain ⟨before, last, split⟩ := (List.eq_nil_or_concat' (buffers file)).resolve_left some_record
  have member : last ∈ buffers file := by
    rw [split]
    exact List.mem_concat_self
  have short : last.length < recordSize := by
    rw [length_buffer member]
    exact not_le.mp narrow
  have id : ∀ byte : UInt8, (PacketIndex.new (fun _ _ => byte) clock file).streamId.map
      (fun streamId => streamId.toUInt32.toNat % 256) = some byte.toNat := by
    intro byte
    rw [PacketIndex.new_eq, split, List.foldl_concat, PacketIndex.decode, Option.map_some,
      streamId_mod _ short]
  have zero := id 0
  rw [same (fun _ _ => 0) (fun _ _ => 1), id 1] at zero
  exact absurd zero (by decide)

/-- The fields lie in the buffer, and the file alone determines what is decoded, exactly where the
file is rejected, its records fill the struct, or it holds no whole record. -/
theorem index_reads_inside_iff (file : List UInt8) (clock : ClockInfos) :
    (ReadsInside file ↔ FillsStruct file) ∧
    ((∀ heap heap', PacketIndex.new heap clock file = PacketIndex.new heap' clock file) ↔
      FillsStruct file) := by
  refine ⟨readsInside_iff file, heap_read clock, fun fills heap heap' => ?_⟩
  rw [PacketIndex.new_eq, PacketIndex.new_eq]
  apply foldl_decode_congr
  intro part member
  rcases (fillsStruct_iff file).mp fills with empty | wide
  · rw [empty] at member
    cases member
  · rwa [length_buffer member]

/-- A file that announces records of eight bytes, and holds one. -/
def narrowFile : List UInt8 := encodeHeader 0 8 ++ List.replicate 8 0

/-- The header is accepted, and all fields but the first are read from behind the buffer. -/
theorem index_reads_outside :
    Accepted narrowFile ∧ ∃ buffer ∈ buffers narrowFile,
      ∃ offset ∈ fieldOffsets, ¬ offset + 8 ≤ buffer.length := by
  have header := load_encodeHeader 0 8 (List.replicate 8 0)
  rw [← narrowFile] at header
  have accepted : Accepted narrowFile := by
    constructor
    · decide
    · rw [header]
    · rw [header]
    · rw [header]
      decide
  have narrow : recordLength narrowFile = 8 := by
    rw [recordLength, header]
    rfl
  have some_record : buffers narrowFile ≠ [] := by
    rw [buffers_ne_nil_iff, narrow]
    exact ⟨accepted, by decide⟩
  obtain ⟨buffer, member⟩ := List.exists_mem_of_ne_nil _ some_record
  refine ⟨accepted, buffer, member, 8, by decide, ?_⟩
  rw [length_buffer member, narrow]
  decide

end LttngParallelAnalyses
