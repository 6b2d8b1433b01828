import LttngParallelAnalyses.Common.Trace
import LttngParallelAnalyses.Lib.BigEndian

/-! The packet headers that a stream's index file describes, and how `PacketIndex` reads them. All
integers of the file are big-endian. -/

namespace LttngParallelAnalyses
open Lib

structure PacketIndexTime where
  timestampBegin : UInt64
  timestampEnd : UInt64
  deriving DecidableEq, Repr

structure PacketHeader where
  offset : Int64
  dataOffset : Int64
  packetSize : UInt64
  contentSize : UInt64
  eventsDiscarded : UInt64
  eventsDiscardedLen : UInt64
  tsCycles : PacketIndexTime
  tsReal : PacketIndexTime
  deriving DecidableEq, Repr

/-! ## Clocks -/

/-- The clock of a trace, which the trace library gives. -/
structure ClockInfos where
  freq : UInt64
  offsetS : UInt64
  offset : UInt64
  deriving DecidableEq, Repr

def clockCyclesToNs (clock : ClockInfos) (cycles : UInt64) : UInt64 :=
  if clock.freq = 1000000000 then
    -- 1GHZ freq, no need to scale cycles value
    cycles
  else (cycles.toFloat * 1000000000.0 / clock.freq.toFloat).toUInt64

def clockOffsetNs (clock : ClockInfos) : UInt64 :=
  clock.offsetS * 1000000000 + clockCyclesToNs clock clock.offset

def ctfGetRealTimestamp (clock : ClockInfos) (timestamp : UInt64) : UInt64 :=
  clockCyclesToNs clock timestamp + clockOffsetNs clock

/-! ## Index files -/

def be32toh (bytes : List UInt8) : UInt32 := UInt32.ofNat (BigEndian.value bytes)

def be64toh (bytes : List UInt8) : UInt64 := UInt64.ofNat (BigEndian.value bytes)

def ctfIndexMagic : UInt32 := 0xC1F1DCC1

def ctfIndexMajor : UInt32 := 1

/-- The header of an index file, in host order. -/
structure CtfPacketIndexFileHeader where
  magic : UInt32
  indexMajor : UInt32
  indexMinor : UInt32
  packetIndexLen : UInt32
  deriving DecidableEq, Repr

/-- `sizeof(CtfPacketIndexFileHeader)` -/
def headerSize : Nat := 16

def CtfPacketIndexFileHeader.load (file : List UInt8) : CtfPacketIndexFileHeader where
  magic := be32toh (file.take 4)
  indexMajor := be32toh ((file.drop 4).take 4)
  indexMinor := be32toh ((file.drop 8).take 4)
  packetIndexLen := be32toh ((file.drop 12).take 4)

/-- The length of the records that follow, or the message of the check that rejects the file. -/
def readHeader (file : List UInt8) : Except String UInt32 :=
  if file.length < headerSize then .error "Error: read index file header"
  else
    let header := CtfPacketIndexFileHeader.load file
    if header.magic ≠ ctfIndexMagic then .error "Error: wrong index magic"
    else if header.indexMajor ≠ ctfIndexMajor then .error "Error: incompatible index file"
    else if header.packetIndexLen = 0 then .error "Error: packet index lenght cannot be 0"
    else .ok header.packetIndexLen

/-- A record of an index file, in host order. -/
@[ext] structure CtfPacketIndex where
  offset : UInt64
  packetSize : UInt64
  contentSize : UInt64
  timestampBegin : UInt64
  timestampEnd : UInt64
  eventsDiscarded : UInt64
  streamId : UInt64
  deriving DecidableEq, Repr

/-- The eight bytes at an offset of the record buffer. Behind its end lies whatever the heap
holds. -/
def readBytes (heap : Nat → UInt8) (buffer : List UInt8) (offset : Nat) : List UInt8 :=
  (List.range 8).map (fun i => (buffer[offset + i]?).getD (heap (offset + i)))

/-- The fields of the packed struct that the record buffer is taken for. -/
def CtfPacketIndex.load (heap : Nat → UInt8) (buffer : List UInt8) : CtfPacketIndex where
  offset := be64toh (readBytes heap buffer 0)
  packetSize := be64toh (readBytes heap buffer 8)
  contentSize := be64toh (readBytes heap buffer 16)
  timestampBegin := be64toh (readBytes heap buffer 24)
  timestampEnd := be64toh (readBytes heap buffer 32)
  eventsDiscarded := be64toh (readBytes heap buffer 40)
  streamId := be64toh (readBytes heap buffer 48)

def PacketHeader.ofIndex (clock : ClockInfos) (ctfIndex : CtfPacketIndex) : PacketHeader where
  offset := ctfIndex.offset.toInt64
  dataOffset := -1
  packetSize := ctfIndex.packetSize
  contentSize := ctfIndex.contentSize
  eventsDiscarded := ctfIndex.eventsDiscarded
  eventsDiscardedLen := 64
  tsCycles :=
    { timestampBegin := ctfIndex.timestampBegin, timestampEnd := ctfIndex.timestampEnd }
  tsReal :=
    { timestampBegin := ctfGetRealTimestamp clock ctfIndex.timestampBegin
      timestampEnd := ctfGetRealTimestamp clock ctfIndex.timestampEnd }

/-- No stream id is set before a record is read. -/
structure PacketIndex where
  streamId : Option Int32 := none
  indices : List PacketHeader := []
  deriving DecidableEq, Repr

namespace PacketIndex

/-- The body of the loop. The heap may have changed since the record before. -/
def decode (heap : Nat → Nat → UInt8) (clock : ClockInfos) (index : PacketIndex)
    (buffer : List UInt8) : PacketIndex :=
  let ctfIndex := CtfPacketIndex.load (heap index.indices.length) buffer
  { streamId := some ctfIndex.streamId.toUInt32.toInt32
    indices := index.indices ++ [PacketHeader.ofIndex clock ctfIndex] }

/-- `fread` fills the buffer with a whole record, or the loop ends. -/
def readRecords (heap : Nat → Nat → UInt8) (clock : ClockInfos) (packetIndexLen : Nat)
    (index : PacketIndex) (file : List UInt8) : PacketIndex :=
  if packetIndexLen = 0 ∨ file.length < packetIndexLen then index
  else
    readRecords heap clock packetIndexLen (decode heap clock index (file.take packetIndexLen))
      (file.drop packetIndexLen)
termination_by file.length
decreasing_by
  rw [List.length_drop]
  omega

/-- The constructor, on the bytes of the file. A rejected file leaves the list empty. -/
def new (heap : Nat → Nat → UInt8) (clock : ClockInfos) (file : List UInt8) : PacketIndex :=
  match readHeader file with
  | .error _ => {}
  | .ok packetIndexLen =>
    readRecords heap clock packetIndexLen.toNat {} (file.drop headerSize)

end PacketIndex

end LttngParallelAnalyses
