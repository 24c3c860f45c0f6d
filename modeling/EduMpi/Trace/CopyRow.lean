import EduMpi.Trace.Pgcopy
import Mathlib.Tactic.Linarith

/-! The binary COPY tuple grammar, and the round trip of the rows made of entries. -/

namespace EduMpi

open Bytes
open UInt8 (ofInt)

/-! The bytes each field writer appends. -/

/-- A byte string written at an offset, with the offset behind it. -/
def appendTo (bytes : List UInt8) (buffer : Memory) (offset : Nat) : Memory × Nat :=
  (buffer.store offset bytes, offset + bytes.length)

/-- A field of a tuple: the length of its data and the data. -/
def fieldOf (data : List UInt8) : List UInt8 :=
  bigEndian 4 data.length ++ data

variable {buffer : Memory} {offset : Nat}

/-- Writing one string behind another writes their concatenation. -/
theorem appendTo_appendTo (front back : List UInt8) :
    appendTo back (appendTo front buffer offset).1 (appendTo front buffer offset).2
      = appendTo (front ++ back) buffer offset := by
  simp only [appendTo, Memory.store_store, List.length_append, Nat.add_assoc]

private theorem ofInt_congr {v w : Int} (same : v % 256 = w % 256) : ofInt v = ofInt w := by
  change UInt8.ofNat (v % 256).toNat = UInt8.ofNat (w % 256).toNat
  rw [same]

private theorem toUInt8_uint64 (u : UInt64) : u.toUInt8 = ofInt u.toNat := by
  apply UInt8.toNat_inj.mp
  rw [UInt64.toNat_toUInt8]
  simp only [ofInt, UInt8.toNat_ofNat']
  omega

private theorem masked_uint64 (u : UInt64) : (u &&& 0xff).toUInt8 = u.toUInt8 := by
  -- The mask keeps what the conversion to a byte keeps.
  rw [toUInt8_uint64, toUInt8_uint64, UInt64.toNat_and]
  apply ofInt_congr
  rw [show (0xff : UInt64).toNat = 2 ^ 8 - 1 from rfl, Nat.and_two_pow_sub_one_eq_mod]
  omega

private theorem masked_int64 (x : Int64) : (x &&& 0xff).toUInt64.toUInt8 = ofInt x.toInt := by
  rw [Int64.toUInt64_and, show (0xff : Int64).toUInt64 = 0xff from rfl, masked_uint64,
    toUInt8_uint64]
  -- The signed and the unsigned reading agree modulo the word, and so modulo a byte.
  have agree : x.toInt % 2 ^ 64 = x.toUInt64.toNat := by
    rw [← Int64.toInt_toBitVec, BitVec.toInt_eq_toNat_bmod]
    have word := Int.bmod_emod (x := (x.toBitVec.toNat : Int)) (m := 2 ^ 64)
    change (x.toBitVec.toNat : Int).bmod (2 ^ 64) % 2 ^ 64 = x.toBitVec.toNat
    omega
  apply ofInt_congr
  omega

private theorem masked_int32 (x : Int32) : (x &&& 0xff).toUInt32.toUInt8 = ofInt x.toInt := by
  have agree : x.toInt % 2 ^ 32 = x.toUInt32.toNat := by
    rw [← Int32.toInt_toBitVec, BitVec.toInt_eq_toNat_bmod]
    have word := Int.bmod_emod (x := (x.toBitVec.toNat : Int)) (m := 2 ^ 32)
    change (x.toBitVec.toNat : Int).bmod (2 ^ 32) % 2 ^ 32 = x.toBitVec.toNat
    omega
  apply UInt8.toNat_inj.mp
  rw [UInt32.toNat_toUInt8, Int32.toUInt32_and, UInt32.toNat_and,
    show (0xff : Int32).toUInt32.toNat = 2 ^ 8 - 1 from rfl, Nat.and_two_pow_sub_one_eq_mod]
  simp only [ofInt, UInt8.toNat_ofNat']
  omega

private theorem toInt_shiftRight_int32 (x : Int32) :
    (x >>> 8).toInt = x.toInt / 256 ∧ (x >>> 16).toInt = x.toInt / 65536
      ∧ (x >>> 24).toInt = x.toInt / 16777216 := by
  refine ⟨?_, ?_, ?_⟩
  all_goals
    rw [← Int32.toInt_toBitVec]
    simp [BitVec.toInt_sshiftRight, Int.shiftRight_eq_div_pow]

private theorem toInt_shiftRight_int64 (x : Int64) : (x >>> 8).toInt = x.toInt / 256 := by
  rw [← Int64.toInt_toBitVec]
  simp [BitVec.toInt_sshiftRight, Int.shiftRight_eq_div_pow]

private theorem bigEndian_small {n : Nat} (small : n < 256) :
    bigEndian 4 (n : Int) = [0, 0, 0, UInt8.ofNat n] := by
  have high : (n : Int) / 256 = 0 := by omega
  have low : ofInt (n : Int) = UInt8.ofNat n := by
    apply UInt8.toNat_inj.mp
    simp only [ofInt, UInt8.toNat_ofNat']
    omega
  simp only [bigEndian, high, low]
  rfl

theorem newRow_eq : newRow 16 buffer offset = appendTo (bigEndian 2 16) buffer offset := by
  -- Two bytes are stored one after the other.
  change _ = (buffer.store offset [0, 16], offset + 2)
  simp only [Memory.store_cons, Memory.store_nil]
  rfl

theorem intToBinary_eq (integer : Int32) :
    intToBinary integer buffer offset
      = appendTo (fieldOf (bigEndian 4 integer.toInt)) buffer offset := by
  -- The four shifts are the four divisions the byte string is spelt with.
  obtain ⟨shift8, shift16, shift24⟩ := toInt_shiftRight_int32 integer
  have bytes : bigEndian 4 integer.toInt
      = [ofInt (integer.toInt / 16777216), ofInt (integer.toInt / 65536),
         ofInt (integer.toInt / 256), ofInt integer.toInt] := by
    rw [bigEndian_eq_map]
    simp [List.range_succ]
  rw [appendTo, fieldOf, bigEndian_length, bigEndian_small (by decide), bytes]
  simp only [intToBinary, masked_int32, shift8, shift16, shift24, List.cons_append,
    List.nil_append, Memory.store_cons, Memory.store_nil]
  rfl

/-- The eight bytes of an unsigned word, by shifts. -/
private theorem bigEndian_uint64 (u : UInt64) :
    bigEndian 8 (u.toNat : Int)
      = [(u >>> 56).toUInt8, (u >>> 48).toUInt8, (u >>> 40).toUInt8, (u >>> 32).toUInt8,
         (u >>> 24).toUInt8, (u >>> 16).toUInt8, (u >>> 8).toUInt8, u.toUInt8] := by
  have shifted : ∀ k : UInt64, k.toNat < 64 →
      (u >>> k).toUInt8 = ofInt ((u.toNat : Int) / (2 ^ k.toNat : Nat)) := by
    intro k small
    rw [toUInt8_uint64, UInt64.toNat_shiftRight, Nat.mod_eq_of_lt small,
      Nat.shiftRight_eq_div_pow, Int.natCast_ediv]
  rw [shifted 56 (by decide), shifted 48 (by decide), shifted 40 (by decide),
    shifted 32 (by decide), shifted 24 (by decide), shifted 16 (by decide), shifted 8 (by decide),
    toUInt8_uint64, bigEndian_eq_map]
  simp [List.range_succ]

theorem int64ToBinary_eq (integer : Int64) :
    int64ToBinary integer buffer offset
      = appendTo (fieldOf (bigEndian 8 integer.toUInt64.toNat)) buffer offset := by
  -- The length word and the eight shifts are stored one byte after the other.
  rw [appendTo, fieldOf, bigEndian_length, bigEndian_small (by decide), bigEndian_uint64]
  simp only [List.cons_append, List.nil_append, Memory.store_cons, Memory.store_nil, Nat.add_assoc]
  rfl

theorem doubleToBinary_eq (value : Float) :
    doubleToBinary value buffer offset
      = appendTo (fieldOf (bigEndian 8 value.toBits.toNat)) buffer offset := by
  -- The masks change nothing, so this is the field of an unsigned word.
  rw [appendTo, fieldOf, bigEndian_length, bigEndian_small (by decide), bigEndian_uint64]
  simp only [doubleToBinary, masked_uint64, List.cons_append, List.nil_append,
    Memory.store_cons, Memory.store_nil]
  rfl

/-- A text that fits its array is shorter than the array. -/
theorem textOf_length_lt {n : Nat} {field : Vector UInt8 n} (terminated : 0 ∈ field.toList) :
    (textOf field).length < n := by
  -- The text would otherwise be the whole array, which holds a zero.
  have front : textOf field <+: field.toList := List.takeWhile_prefix _
  rcases Nat.lt_or_eq_of_le front.length_le with shorter | same
  · simpa using shorter
  · have zero : (0 : UInt8) ∈ textOf field := front.eq_of_length same ▸ terminated
    have nonzero := List.all_takeWhile (p := (· ≠ (0 : UInt8))) (l := field.toList)
    simpa using List.all_eq_true.mp nonzero 0 zero

theorem stringToBinary_eq {n : Nat} {field : Vector UInt8 n} (terminated : 0 ∈ field.toList)
    (small : n ≤ 256) :
    stringToBinary field buffer offset = appendTo (fieldOf (textOf field)) buffer offset := by
  -- The length fits one byte, so the length word is the one the writer spells.
  have length : (textOf field).length < 256 := by
    have := textOf_length_lt terminated
    omega
  rw [appendTo, fieldOf, bigEndian_small length]
  simp only [stringToBinary, List.cons_append, List.nil_append, Memory.store_cons, List.length_cons]

open List

/-- The loop stores the byte string of its timestamp, whatever its sign. -/
theorem timestampLoop_eq (offset count : Nat) (timestamp : Int64) (buffer : Memory) :
    timestampLoop offset count timestamp buffer
      = buffer.store offset (bigEndian count timestamp.toInt) := by
  induction count generalizing timestamp buffer with
  | zero => simp [timestampLoop, bigEndian]
  | succ i ih =>
    -- The last byte is stored first; the rest is the shifted timestamp in front of it.
    rw [timestampLoop, ih, toInt_shiftRight_int64, masked_int64, bigEndian, ← Memory.store_store,
      Memory.store_cons, Memory.store_nil]
    funext address
    simp only [Memory.store, Memory.assign, Function.update_apply]
    by_cases last : address = offset + i
    · subst last
      simp
    · simp [last]

theorem timestampToBinary_eq (time : Timespec) (round : Bool) :
    timestampToBinary time round buffer offset
      = appendTo (fieldOf (bigEndian 8 (timestampUs time round).toInt)) buffer offset := by
  rw [appendTo, fieldOf, bigEndian_length, bigEndian_small (by decide)]
  simp only [timestampToBinary, timestampLoop_eq, cons_append, Memory.store_cons, length_cons,
    Nat.add_assoc]
  rfl

/-- The bitmap column: empty when no bit is set or the call is not a collective. -/
def bitmapOf (item : QEntry) : List UInt8 :=
  if textOf item.communicationType ≠ cText "collective" ∨ item.collPartnerranks.toList.all (· = 0)
  then [] else item.collPartnerranks.toList

theorem byteaToBinary_eq (item : QEntry) :
    byteaToBinary item.collPartnerranks.toList 400
        (textOf item.communicationType ≠ cText "collective") buffer offset
      = appendTo (fieldOf (bitmapOf item)) buffer offset := by
  -- The array is as long as the number of bytes written.
  have taken : item.collPartnerranks.toList.take 50 = item.collPartnerranks.toList :=
    take_of_length_le (by simp)
  have fifty : item.collPartnerranks.toList.length = 50 := by simp
  rw [byteaToBinary, if_neg (by decide), show ((400 : Int) / 8).toNat = 50 from rfl]
  dsimp only
  rw [taken]
  by_cases empty : textOf item.communicationType ≠ cText "collective"
      ∨ item.collPartnerranks.toList.all (· = 0)
  · rw [appendTo, fieldOf, bitmapOf, if_pos empty, if_pos (by simpa using empty)]
    rw [append_nil, bigEndian_small (by decide)]
    simp only [Memory.store_cons, Memory.store_nil]
    rfl
  · rw [appendTo, fieldOf, bitmapOf, if_neg empty, if_neg (by simpa using empty), fifty,
      bigEndian_small (by decide)]
    simp only [cons_append, nil_append, Memory.store_cons, length_cons, fifty]

/-- The text fields of an entry that go into a row end inside their arrays. -/
structure QEntry.Terminated (item : QEntry) : Prop where
  function : 0 ∈ item.function.toList
  communicationType : 0 ∈ item.communicationType.toList
  communicationArea : 0 ∈ item.communicationArea.toList
  processorname : 0 ∈ item.processorname.toList
  usedAlgorithm : 0 ∈ item.usedAlgorithm.toList

/-- The data of the sixteen columns, in column order. -/
def rowData (job : Int32) (item : QEntry) : List (List UInt8) :=
  [bigEndian 4 job.toInt, textOf item.function, textOf item.communicationType,
   bigEndian 8 item.sendDatasize.toUInt64.toNat, bigEndian 8 item.recvDatasize.toUInt64.toNat,
   textOf item.communicationArea, textOf item.processorname, bigEndian 4 item.processrank.toInt,
   bigEndian 4 item.partnerrank.toInt, textOf item.usedAlgorithm,
   bigEndian 8 (timestampUs item.startTime true).toInt,
   bigEndian 8 (timestampUs item.endTime false).toInt,
   bigEndian 8 item.lateSenderTime.toBits.toNat, bigEndian 8 item.lateReceiverTime.toBits.toNat,
   bigEndian 8 (timespecDiff item.startTime item.endTime).toBits.toNat, bitmapOf item]

/-- The bytes of one tuple: the number of its fields and the fields. -/
def tupleOf (fields : List (List UInt8)) : List UInt8 :=
  bigEndian 2 fields.length ++ fields.flatMap fieldOf

/-- The row writer appends one tuple of the sixteen columns and touches nothing else. -/
theorem qentryToBinary_eq (job : Int32) {item : QEntry} (terminated : item.Terminated) :
    qentryToBinary job item buffer offset = appendTo (tupleOf (rowData job item)) buffer offset := by
  -- Every writer appends its field, so the whole row is one concatenation.
  simp only [qentryToBinary, newRow_eq, intToBinary_eq, int64ToBinary_eq, doubleToBinary_eq,
    timestampToBinary_eq, byteaToBinary_eq,
    stringToBinary_eq terminated.function (by decide),
    stringToBinary_eq terminated.communicationType (by decide),
    stringToBinary_eq terminated.communicationArea (by decide),
    stringToBinary_eq terminated.processorname (by decide),
    stringToBinary_eq terminated.usedAlgorithm (by decide), appendTo_appendTo]
  simp only [tupleOf, rowData, flatMap_cons, flatMap_nil, append_nil, append_assoc]
  rfl

/-! The tuple grammar of the binary COPY format. -/

/-- A number of bytes cut from the front of the input. -/
def cut (count : Nat) (input : List UInt8) : Option (List UInt8 × List UInt8) :=
  if count ≤ input.length then some (input.take count, input.drop count) else none

/-- The data behind a length word: a null when it is minus one, and else that many bytes. -/
def parseData (length : Int) (input : List UInt8) : Option (Option (List UInt8) × List UInt8) :=
  if length = -1 then some (none, input)
  else if length < 0 then none
  else (cut length.toNat input).map fun (data, rest) => (some data, rest)

/-- One field: a signed length and its data. -/
def parseField (input : List UInt8) : Option (Option (List UInt8) × List UInt8) :=
  (cut 4 input).bind fun parts => parseData (ofBigEndianSigned parts.1) parts.2

/-- A number of fields, one after the other. -/
def parseFields : Nat → List UInt8 → Option (List (Option (List UInt8)) × List UInt8)
  | 0, input => some ([], input)
  | count + 1, input => do
    let (field, rest) ← parseField input
    let (fields, rest) ← parseFields count rest
    some (field :: fields, rest)

/-- One tuple: the number of its fields and the fields. -/
def parseTuple (input : List UInt8) : Option (List (Option (List UInt8)) × List UInt8) :=
  (cut 2 input).bind fun parts =>
    if ofBigEndianSigned parts.1 < 0 then none
    else parseFields (ofBigEndianSigned parts.1).toNat parts.2

/-- Tuples to the end of the input; each takes at least two bytes. -/
def parseTuples : Nat → List UInt8 → Option (List (List (Option (List UInt8))))
  | 0, input => if input = [] then some [] else none
  | fuel + 1, input =>
    if input = [] then some []
    else do
      let (tuple, rest) ← parseTuple input
      let tuples ← parseTuples fuel rest
      some (tuple :: tuples)

/-- A whole data area. -/
def parseStream (input : List UInt8) : Option (List (List (Option (List UInt8)))) :=
  parseTuples input.length input

private theorem cut_append (front rest : List UInt8) :
    cut front.length (front ++ rest) = some (front, rest) := by
  rw [cut, if_pos (by simp), take_left, drop_left]

private theorem signed_of_mem {width : Nat} {value : Int} (low : -256 ^ width ≤ 2 * value)
    (high : 2 * value < 256 ^ width) : ofBigEndianSigned (bigEndian width value) = value := by
  rw [ofBigEndianSigned_bigEndian]
  exact Int.bmod_eq_of_le (by push_cast; omega) (by push_cast; omega)

/-- A field whose length fits its length word is read back, and the rest is left. -/
theorem parseField_fieldOf {data : List UInt8} (short : data.length < 2 ^ 31)
    (rest : List UInt8) : parseField (fieldOf data ++ rest) = some (some data, rest) := by
  -- The length word reads back as the length, which is neither null nor negative.
  have length : ofBigEndianSigned (bigEndian 4 data.length) = data.length :=
    signed_of_mem (by omega) (by omega)
  have word := cut_append (bigEndian 4 data.length) (data ++ rest)
  rw [bigEndian_length] at word
  have front := cut_append data rest
  rw [parseField, fieldOf, append_assoc, word, Option.bind_some, length, parseData,
    if_neg (by omega), if_neg (by omega), Int.toNat_natCast, front, Option.map_some]

theorem parseFields_flatMap {fields : List (List UInt8)}
    (short : ∀ data ∈ fields, data.length < 2 ^ 31) (rest : List UInt8) :
    parseFields fields.length (fields.flatMap fieldOf ++ rest) = some (fields.map some, rest) := by
  induction fields with
  | nil => rfl
  | cons data fields ih =>
    have first := parseField_fieldOf (short data (by simp)) (fields.flatMap fieldOf ++ rest)
    have later := ih fun d inRest => short d (by simp [inRest])
    simp only [length_cons, flatMap_cons, append_assoc, parseFields, first, later,
      Option.bind_eq_bind, Option.bind_some, map_cons]

/-- A tuple whose counts fit their words is read back, and the rest is left. -/
theorem parseTuple_tupleOf {fields : List (List UInt8)} (few : fields.length < 2 ^ 15)
    (short : ∀ data ∈ fields, data.length < 2 ^ 31) (rest : List UInt8) :
    parseTuple (tupleOf fields ++ rest) = some (fields.map some, rest) := by
  have count : ofBigEndianSigned (bigEndian 2 fields.length) = fields.length :=
    signed_of_mem (by omega) (by omega)
  have word := cut_append (bigEndian 2 fields.length) (fields.flatMap fieldOf ++ rest)
  rw [bigEndian_length] at word
  rw [parseTuple, tupleOf, append_assoc, word, Option.bind_some, count, if_neg (by omega),
    Int.toNat_natCast, parseFields_flatMap short]

section Tuples

variable {tuples : List (List (List UInt8))} (few : ∀ fields ∈ tuples, fields.length < 2 ^ 15)
  (short : ∀ fields ∈ tuples, ∀ data ∈ fields, data.length < 2 ^ 31)

include few short

/-- Tuples written one after the other are read back one after the other. -/
theorem parseTuples_flatMap {fuel : Nat} (enough : tuples.length ≤ fuel) :
    parseTuples fuel (tuples.flatMap tupleOf) = some (tuples.map (·.map some)) := by
  induction tuples generalizing fuel with
  | nil => cases fuel <;> rfl
  | cons fields tuples ih =>
    cases fuel with
    | zero => simp at enough
    | succ fuel =>
      have first := parseTuple_tupleOf (few fields (by simp)) (short fields (by simp))
        (tuples.flatMap tupleOf)
      have later := ih (fun f inRest => few f (by simp [inRest]))
        (fun f inRest => short f (by simp [inRest])) (Nat.le_of_succ_le_succ enough)
      -- A tuple starts with its two count bytes, so the input is not at its end.
      have more : tupleOf fields ++ tuples.flatMap tupleOf ≠ [] := by
        simp [tupleOf, bigEndian]
      simp only [flatMap_cons, parseTuples, if_neg more, first, later, Option.bind_eq_bind,
        Option.bind_some, map_cons]

theorem parseStream_flatMap :
    parseStream (tuples.flatMap tupleOf) = some (tuples.map (·.map some)) := by
  apply parseTuples_flatMap few short
  -- Each tuple has at least one byte.
  clear few short
  induction tuples with
  | nil => simp
  | cons fields tuples ih =>
    simp only [flatMap_cons, length_append, length_cons, tupleOf, bigEndian_length]
    omega

end Tuples

/-! What a row says. -/

/-- The values of the sixteen columns of a row. -/
structure Row where
  job : Int
  function : List UInt8
  communicationType : List UInt8
  sendDatasize : Int
  recvDatasize : Int
  communicationArea : List UInt8
  processorname : List UInt8
  processrank : Int
  partnerrank : Int
  usedAlgorithm : List UInt8
  startUs : Int
  endUs : Int
  lateSenderBits : Nat
  lateReceiverBits : Nat
  timeDiffBits : Nat
  partners : List UInt8
deriving DecidableEq

/-- The columns of a tuple decoded by their types; a wrong count, width or null is refused. -/
def decodeRow : List (Option (List UInt8)) → Option Row
  | [some job, some function, some communicationType, some sendDatasize, some recvDatasize,
     some communicationArea, some processorname, some processrank, some partnerrank,
     some usedAlgorithm, some start, some stop, some lateSender, some lateReceiver, some timeDiff,
     some partners] =>
    if job.length = 4 ∧ processrank.length = 4 ∧ partnerrank.length = 4
      ∧ (∀ word ∈ [sendDatasize, recvDatasize, start, stop, lateSender, lateReceiver, timeDiff],
        word.length = 8) then
      some {
        job := ofBigEndianSigned job
        function, communicationType
        sendDatasize := ofBigEndianSigned sendDatasize
        recvDatasize := ofBigEndianSigned recvDatasize
        communicationArea, processorname
        processrank := ofBigEndianSigned processrank
        partnerrank := ofBigEndianSigned partnerrank
        usedAlgorithm
        startUs := ofBigEndianSigned start
        endUs := ofBigEndianSigned stop
        lateSenderBits := ofBigEndian lateSender
        lateReceiverBits := ofBigEndian lateReceiver
        timeDiffBits := ofBigEndian timeDiff
        partners }
    else none
  | _ => none

/-- The microseconds from the start of the year 2000 to a time, or to its whole second. -/
def usSince2000 (time : Timespec) (round : Bool) : Int :=
  (time.tvSec.toInt - 946684800) * 1000000 + if round then 0 else time.tvNsec.toInt.tdiv 1000

/-- The row an entry should become, with its two times left open. -/
def rowWith (job : Int32) (item : QEntry) (startUs endUs : Int) : Row where
  job := job.toInt
  function := textOf item.function
  communicationType := textOf item.communicationType
  sendDatasize := item.sendDatasize.toInt
  recvDatasize := item.recvDatasize.toInt
  communicationArea := textOf item.communicationArea
  processorname := textOf item.processorname
  processrank := item.processrank.toInt
  partnerrank := item.partnerrank.toInt
  usedAlgorithm := textOf item.usedAlgorithm
  startUs
  endUs
  lateSenderBits := item.lateSenderTime.toBits.toNat
  lateReceiverBits := item.lateReceiverTime.toBits.toNat
  timeDiffBits := (timespecDiff item.startTime item.endTime).toBits.toNat
  partners := bitmapOf item

/-- The row an entry should become. -/
def rowOf (job : Int32) (item : QEntry) : Row :=
  rowWith job item (usSince2000 item.startTime true) (usSince2000 item.endTime false)

/-- The value of a signed machine word of eight bytes. -/
def InInt64 (value : Int) : Prop :=
  -2 ^ 63 ≤ value ∧ value < 2 ^ 63

/-- The microsecond counts of a time, whole second and exact, fit a signed machine word. -/
def Timespec.Fits (time : Timespec) : Prop :=
  InInt64 (usSince2000 time true) ∧ InInt64 (usSince2000 time false)

instance (value : Int) : Decidable (InInt64 value) :=
  inferInstanceAs (Decidable (_ ∧ _))

instance (time : Timespec) : Decidable time.Fits :=
  inferInstanceAs (Decidable (_ ∧ _))

private theorem signed_int32 (x : Int32) : ofBigEndianSigned (bigEndian 4 x.toInt) = x.toInt :=
  signed_of_mem (by have := x.le_toInt; omega) (by have := x.toInt_lt; omega)

private theorem signed_int64 (x : Int64) : ofBigEndianSigned (bigEndian 8 x.toInt) = x.toInt :=
  signed_of_mem (by have := x.le_toInt; omega) (by have := x.toInt_lt; omega)

private theorem signed_uint64 (x : Int64) :
    ofBigEndianSigned (bigEndian 8 x.toUInt64.toNat) = x.toInt := by
  -- Reading the unsigned word as signed undoes the conversion.
  rw [ofBigEndianSigned_bigEndian, ← Int64.toInt_toBitVec, BitVec.toInt_eq_toNat_bmod]
  rfl

private theorem unsigned_uint64 (u : UInt64) : ofBigEndian (bigEndian 8 u.toNat) = u.toNat :=
  ofBigEndian_bigEndian_of_lt (by have := u.toNat_lt; norm_num; omega)

/-- What is read back from an entry's columns, whatever its times are. -/
theorem decodeRow_rowData (job : Int32) (item : QEntry) :
    decodeRow ((rowData job item).map some)
      = some (rowWith job item (timestampUs item.startTime true).toInt
          (timestampUs item.endTime false).toInt) := by
  simp only [rowData, map_cons, map_nil, decodeRow, rowWith, signed_int32, signed_int64,
    signed_uint64, unsigned_uint64]
  rw [if_pos (by simp)]

/-- The timestamp field is the exact count of microseconds, wrapped to the machine word. -/
theorem timestampUs_toInt (time : Timespec) (round : Bool) :
    (timestampUs time round).toInt = Int.bmod (usSince2000 time round) (2 ^ 64) := by
  cases round
  · simp [timestampUs, usSince2000, Int64.toInt_mul, Int64.toInt_sub, Int64.toInt_div]
  · simp [timestampUs, usSince2000, Int64.toInt_sub]

/-- A count that fits the machine word is what the timestamp field holds. -/
theorem timestampUs_toInt_of_fits {time : Timespec} (fits : time.Fits) (round : Bool) :
    (timestampUs time round).toInt = usSince2000 time round := by
  rw [timestampUs_toInt]
  have inRange : InInt64 (usSince2000 time round) := by
    cases round
    · exact fits.2
    · exact fits.1
  obtain ⟨low, high⟩ := inRange
  exact Int.bmod_eq_of_le (by norm_num at low ⊢; omega) (by norm_num at high ⊢; omega)

/-- The bytes the row writer appends behind an offset of a buffer. -/
def appendedRow (job : Int32) (buffer : Memory) (offset : Nat) (item : QEntry) : List UInt8 :=
  let written := qentryToBinary job item buffer offset
  written.1.read offset (written.2 - offset)

private theorem bitmapOf_length_le (item : QEntry) : (bitmapOf item).length ≤ 50 := by
  rw [bitmapOf]
  split <;> simp

private theorem flatMap_fieldOf_length_le {fields : List (List UInt8)} {bound : Nat}
    (short : ∀ data ∈ fields, data.length ≤ bound) :
    (fields.flatMap fieldOf).length ≤ fields.length * (bound + 4) := by
  induction fields with
  | nil => simp
  | cons data fields ih =>
    have first := short data (by simp)
    have later := ih fun d inRest => short d (by simp [inRest])
    simp only [flatMap_cons, length_append, fieldOf, bigEndian_length, length_cons, Nat.add_mul]
    omega

section Terminated

variable (job : Int32) {item : QEntry} (terminated : item.Terminated)

include terminated

theorem appendedRow_eq (buffer : Memory) (offset : Nat) :
    appendedRow job buffer offset item = tupleOf (rowData job item) := by
  rw [appendedRow, qentryToBinary_eq job terminated, appendTo]
  rw [Nat.add_sub_cancel_left, Memory.read_store]

/-- No column is longer than the widest text array. -/
private theorem rowData_short : ∀ data ∈ rowData job item, data.length ≤ 64 := by
  have function := textOf_length_lt terminated.function
  have type := textOf_length_lt terminated.communicationType
  have area := textOf_length_lt terminated.communicationArea
  have name := textOf_length_lt terminated.processorname
  have algorithm := textOf_length_lt terminated.usedAlgorithm
  have bitmap := bitmapOf_length_le item
  simp only [rowData, forall_mem_cons, bigEndian_length, not_mem_nil,
    false_implies, implies_true, and_true]
  omega

private theorem rowData_fits : ∀ data ∈ rowData job item, data.length < 2 ^ 31 :=
  fun data inRow => (rowData_short job terminated data inRow).trans_lt (by decide)

/-- A row stays far below the size of the buffer it is written into. -/
theorem tupleOf_rowData_length_le : (tupleOf (rowData job item)).length ≤ 2048 := by
  have fields := flatMap_fieldOf_length_le (rowData_short job terminated)
  have sixteen : (rowData job item).length = 16 := rfl
  rw [tupleOf, length_append, bigEndian_length]
  omega

/-- One row parses alone into its sixteen columns. -/
theorem parseTuple_appendedRow (buffer : Memory) (offset : Nat) :
    parseTuple (appendedRow job buffer offset item) = some ((rowData job item).map some, []) := by
  have few : (rowData job item).length < 2 ^ 15 := by simp [rowData]
  have parsed := parseTuple_tupleOf few (rowData_fits job terminated) []
  rwa [append_nil, ← appendedRow_eq job terminated buffer offset] at parsed

end Terminated

private theorem mapM_map_eq_some {α β γ : Type} {entries : List α} {f : β → Option γ} {g : α → β}
    {h : α → γ} (each : ∀ item ∈ entries, f (g item) = some (h item)) :
    (entries.map g).mapM f = some (entries.map h) := by
  induction entries with
  | nil => rfl
  | cons item entries ih =>
    rw [map_cons, mapM_cons, each item (by simp),
      ih fun other inRest => each other (by simp [inRest])]
    rfl

/--
Rows written by the monitor read back as the entries they were made of.

Every row has sixteen fields and no byte left over, fits the buffer, and decodes to its entry; the concatenation of any number of rows decodes to the list of entries.
The times must be ones whose count of microseconds since the start of the year 2000 fits the eight bytes of its field.
-/
theorem copyRows_roundTrip (job : Int32) (buffer : Memory) (offset : Nat) (entries : List QEntry)
    (terminated : ∀ item ∈ entries, item.Terminated)
    (fits : ∀ item ∈ entries, item.startTime.Fits ∧ item.endTime.Fits) :
    (∀ item ∈ entries, (appendedRow job buffer offset item).length ≤ 2048
      ∧ ∃ fields, parseTuple (appendedRow job buffer offset item) = some (fields, [])
        ∧ fields.length = 16 ∧ decodeRow fields = some (rowOf job item))
    ∧ (parseStream (entries.flatMap (appendedRow job buffer offset))).bind (·.mapM decodeRow)
        = some (entries.map (rowOf job)) := by
  have decoded : ∀ item ∈ entries,
      decodeRow ((rowData job item).map some) = some (rowOf job item) := by
    intro item inList
    rw [decodeRow_rowData, timestampUs_toInt_of_fits (fits item inList).1,
      timestampUs_toInt_of_fits (fits item inList).2, rowOf]
  constructor
  · intro item inList
    refine ⟨?_, _, parseTuple_appendedRow job (terminated item inList) buffer offset, by rfl,
      decoded item inList⟩
    rw [appendedRow_eq job (terminated item inList) buffer offset]
    exact tupleOf_rowData_length_le job (terminated item inList)
  · -- The concatenated rows are the concatenated tuples of the columns.
    have rows : entries.flatMap (appendedRow job buffer offset)
        = (entries.map (rowData job)).flatMap tupleOf := by
      rw [flatMap_def, flatMap_def, map_map]
      exact congrArg List.flatten <| map_congr_left fun item inList =>
        appendedRow_eq job (terminated item inList) buffer offset
    have few : ∀ fields ∈ entries.map (rowData job), fields.length < 2 ^ 15 := by simp [rowData]
    have short : ∀ fields ∈ entries.map (rowData job), ∀ data ∈ fields, data.length < 2 ^ 31 := by
      intro fields inRows data inFields
      obtain ⟨item, inList, rfl⟩ := mem_map.mp inRows
      exact rowData_fits job (terminated item inList) data inFields
    have stream := parseStream_flatMap few short
    rw [rows, stream, map_map]
    exact mapM_map_eq_some decoded

/-- An entry of the year 2024 read back, and one of the year 1990, before the format's epoch. -/
theorem copyRows_roundTrip_example :
    ∃ entries : List QEntry, entries.length = 2
      ∧ (parseStream (entries.flatMap (appendedRow 7 (fun _ => 0) 0))).bind (·.mapM decodeRow)
          = some (entries.map (rowOf 7)) := by
  refine ⟨[{ QEntry.zero with startTime := ⟨1704067200, 5⟩, endTime := ⟨1704067201, 999999999⟩ },
    { QEntry.zero with startTime := ⟨631152000, 0⟩, endTime := ⟨631152000, 1500⟩ }], rfl, ?_⟩
  refine (copyRows_roundTrip 7 (fun _ => 0) 0 _ ?_ ?_).2
  · rw [forall_mem_cons, forall_mem_singleton]
    constructor
    all_goals exact ⟨by decide, by decide, by decide, by decide, by decide⟩
  · rw [forall_mem_cons, forall_mem_singleton]
    decide

/-- A time whose microseconds do not fit the field reads back as another time. -/
theorem copyRow_time_wraps :
    ∃ item : QEntry, item.Terminated ∧ ∃ fields row,
      parseTuple (appendedRow 0 (fun _ => 0) 0 item) = some (fields, [])
        ∧ decodeRow fields = some row ∧ row.endUs ≠ usSince2000 item.endTime false := by
  refine ⟨{ QEntry.zero with endTime := ⟨4611686018427387904, 0⟩ },
    ⟨by decide, by decide, by decide, by decide, by decide⟩, _, _,
    parseTuple_appendedRow 0 ⟨by decide, by decide, by decide, by decide, by decide⟩ _ 0,
    decodeRow_rowData 0 _, ?_⟩
  decide

end EduMpi
