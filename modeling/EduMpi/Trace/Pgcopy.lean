import EduMpi.Lib.Bytes
import EduMpi.Trace.Entry

/-! The field writers of the binary COPY format, and the row they make of an entry. -/

namespace EduMpi

open Bytes

/-! The writers store into a buffer at an offset and return the buffer and the next offset. -/

/-- Start of a row: the number of its columns. -/
def newRow (columnCount : Int32) (buffer : Memory) (offset : Nat) : Memory × Nat :=
  let buffer := buffer.assign offset 0
  let buffer := buffer.assign (offset + 1) columnCount.toUInt32.toUInt8
  (buffer, offset + 2)

/-- A four-byte integer field. -/
def intToBinary (integer : Int32) (buffer : Memory) (offset : Nat) : Memory × Nat :=
  let off := offset
  let buffer := buffer.assign off 0
  let buffer := buffer.assign (off + 1) 0
  let buffer := buffer.assign (off + 2) 0
  let buffer := buffer.assign (off + 3) 4
  let off := off + 4
  let buffer := buffer.assign off ((integer >>> 24) &&& 0xff).toUInt32.toUInt8
  let buffer := buffer.assign (off + 1) ((integer >>> 16) &&& 0xff).toUInt32.toUInt8
  let buffer := buffer.assign (off + 2) ((integer >>> 8) &&& 0xff).toUInt32.toUInt8
  let buffer := buffer.assign (off + 3) (integer &&& 0xff).toUInt32.toUInt8
  (buffer, offset + 8)

/-- An eight-byte integer field. -/
def int64ToBinary (integer : Int64) (buffer : Memory) (offset : Nat) : Memory × Nat :=
  let off := offset
  let u := integer.toUInt64
  let buffer := buffer.assign (off + 0) 0
  let buffer := buffer.assign (off + 1) 0
  let buffer := buffer.assign (off + 2) 0
  let buffer := buffer.assign (off + 3) 8
  let off := off + 4
  let buffer := buffer.assign (off + 0) (u >>> 56).toUInt8
  let buffer := buffer.assign (off + 1) (u >>> 48).toUInt8
  let buffer := buffer.assign (off + 2) (u >>> 40).toUInt8
  let buffer := buffer.assign (off + 3) (u >>> 32).toUInt8
  let buffer := buffer.assign (off + 4) (u >>> 24).toUInt8
  let buffer := buffer.assign (off + 5) (u >>> 16).toUInt8
  let buffer := buffer.assign (off + 6) (u >>> 8).toUInt8
  let buffer := buffer.assign (off + 7) (u >>> 0).toUInt8
  (buffer, offset + 12)

/-- A double field: the eight bytes of its bit pattern. -/
def doubleToBinary (value : Float) (buffer : Memory) (offset : Nat) : Memory × Nat :=
  let off := offset
  let buffer := buffer.assign off 0
  let buffer := buffer.assign (off + 1) 0
  let buffer := buffer.assign (off + 2) 0
  let buffer := buffer.assign (off + 3) 8
  let off := off + 4
  let integerValue := value.toBits
  let buffer := buffer.assign off ((integerValue >>> 56) &&& 0xff).toUInt8
  let buffer := buffer.assign (off + 1) ((integerValue >>> 48) &&& 0xff).toUInt8
  let buffer := buffer.assign (off + 2) ((integerValue >>> 40) &&& 0xff).toUInt8
  let buffer := buffer.assign (off + 3) ((integerValue >>> 32) &&& 0xff).toUInt8
  let buffer := buffer.assign (off + 4) ((integerValue >>> 24) &&& 0xff).toUInt8
  let buffer := buffer.assign (off + 5) ((integerValue >>> 16) &&& 0xff).toUInt8
  let buffer := buffer.assign (off + 6) ((integerValue >>> 8) &&& 0xff).toUInt8
  let buffer := buffer.assign (off + 7) (integerValue &&& 0xff).toUInt8
  (buffer, offset + 12)

/-- A text field; only the low byte of the length is written. -/
def stringToBinary {n : Nat} (field : Vector UInt8 n) (buffer : Memory) (offset : Nat) :
    Memory × Nat :=
  let off := offset
  let len := (textOf field).length
  let buffer := buffer.assign off 0
  let buffer := buffer.assign (off + 1) 0
  let buffer := buffer.assign (off + 2) 0
  let buffer := buffer.assign (off + 3) (UInt8.ofNat len)
  let off := off + 4
  let buffer := buffer.store off (textOf field)
  (buffer, offset + (len + 4))

/-- The loop that stores a timestamp from its last byte to its first. -/
def timestampLoop (offset : Nat) : Nat → Int64 → Memory → Memory
  | 0, _, buffer => buffer
  | i + 1, timestampUs, buffer =>
    timestampLoop offset i (timestampUs >>> 8)
      (buffer.assign (offset + i) (timestampUs &&& 0xff).toUInt64.toUInt8)

/-- The microseconds since the start of the year 2000 that a timestamp field holds. -/
def timestampUs (time : Timespec) (roundSeconds : Bool) : Int64 :=
  let seconds := time.tvSec - 946684800
  if !roundSeconds then
    let microseconds := time.tvNsec / 1000
    seconds * 1000000 + microseconds
  else seconds * 1000000

/-- A timestamp field, either to the microsecond or to the whole second. -/
def timestampToBinary (time : Timespec) (roundSeconds : Bool) (buffer : Memory) (offset : Nat) :
    Memory × Nat :=
  let buffer := buffer.assign offset 0
  let buffer := buffer.assign (offset + 1) 0
  let buffer := buffer.assign (offset + 2) 0
  let buffer := buffer.assign (offset + 3) 8
  let offset := offset + 4
  (timestampLoop offset 8 (timestampUs time roundSeconds) buffer, offset + 8)

/-- A byte-array field; a bitmap without a set bit, or of a point-to-point call, is left empty. -/
def byteaToBinary (array : List UInt8) (length : Int) (p2p : Bool) (buffer : Memory)
    (offset : Nat) : Memory × Nat :=
  if length ≤ 0 then (buffer, offset)
  else
    let byteSize := (length / 8).toNat
    let off := offset
    let isEmpty := p2p || (array.take byteSize).all (· = 0)
    let buffer := buffer.assign off 0
    let buffer := buffer.assign (off + 1) 0
    let buffer := buffer.assign (off + 2) 0
    if isEmpty then (buffer.assign (off + 3) 0, offset + 4)
    else
      let buffer := buffer.assign (off + 3) (UInt8.ofNat byteSize)
      let off := off + 4
      (buffer.store off (array.take byteSize), offset + 4 + byteSize)

/-- The seconds between two time stamps. -/
def timespecDiff (start stop : Timespec) : Float :=
  let elapsedSec := stop.tvSec - start.tvSec
  let elapsedNs := stop.tvNsec - start.tvNsec
  if elapsedNs < 0 then
    (elapsedSec - 1).toFloat + (elapsedNs + 1000000000).toFloat / 1e9
  else elapsedSec.toFloat + elapsedNs.toFloat / 1e9

/--
One row made of an entry.

The job number is what the C library reads from the text of the job id.
-/
def qentryToBinary (job : Int32) (item : QEntry) (buffer : Memory) (off : Nat) : Memory × Nat :=
  let (buffer, offset) := newRow 16 buffer off
  let (buffer, offset) := intToBinary job buffer offset
  let (buffer, offset) := stringToBinary item.function buffer offset
  let (buffer, offset) := stringToBinary item.communicationType buffer offset
  let (buffer, offset) := int64ToBinary item.sendDatasize buffer offset
  let (buffer, offset) := int64ToBinary item.recvDatasize buffer offset
  let (buffer, offset) := stringToBinary item.communicationArea buffer offset
  let (buffer, offset) := stringToBinary item.processorname buffer offset
  let (buffer, offset) := intToBinary item.processrank buffer offset
  let (buffer, offset) := intToBinary item.partnerrank buffer offset
  let (buffer, offset) := stringToBinary item.usedAlgorithm buffer offset
  let (buffer, offset) := timestampToBinary item.startTime true buffer offset
  let (buffer, offset) := timestampToBinary item.endTime false buffer offset
  let (buffer, offset) := doubleToBinary item.lateSenderTime buffer offset
  let (buffer, offset) := doubleToBinary item.lateReceiverTime buffer offset
  let timeDiff := timespecDiff item.startTime item.endTime
  let (buffer, offset) := doubleToBinary timeDiff buffer offset
  byteaToBinary item.collPartnerranks.toList 400
    (textOf item.communicationType ≠ cText "collective") buffer offset

end EduMpi
