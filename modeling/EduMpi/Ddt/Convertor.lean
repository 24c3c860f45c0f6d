import EduMpi.Ddt.Walk

/-! Convertors: a type, a count, a buffer, and how far the data has been moved. -/

namespace EduMpi.Ddt

open Strided

/-- `opal_convertor_t`. The stack has its top first; its last frame counts the copies. -/
structure Convertor where
  type : Datatype
  count : Nat
  base : Offset
  send : Bool
  localSize : Nat
  completed : Bool
  noOp : Bool
  converted : Nat
  partialLength : Nat
  stack : List Frame
  deriving DecidableEq, Repr

/-- One entry of an iovec: where a buffer is and how long it is. -/
structure Iov where
  addr : Offset
  len : Nat
  deriving DecidableEq, Repr

namespace Convertor

/-- `opal_convertor_create_stack_at_begining`. -/
def createStackAtBegining (c : Convertor) : Convertor :=
  let first := entryAt c.type.optDesc 0
  { c with
    partialLength := 0
    converted := 0
    stack := [⟨some 0, first.type, freshCount first, 0⟩, ⟨none, none, c.count, 0⟩] }

/-- `opal_convertor_prepare_for_send` and `opal_convertor_prepare_for_recv` with a peer of the same
architecture. -/
def prepare (send : Bool) (t : Datatype) (count : Nat) (base : Offset) : Convertor :=
  let c : Convertor :=
    ⟨t, count, base, send, count * t.size % 2 ^ 64, false, false, 0, 0, []⟩
  if count = 0 ∨ t.size = 0 then { c with completed := true, localSize := 0 }
  else if t.flags.noGaps ∨ (t.flags.contiguous ∧ count = 1) then
    -- The stack is not needed to move one block.
    { c with noOp := true }
  else c.createStackAtBegining

end Convertor

/-- The bytes of so many copies of a type, in the order in which they are packed. -/
def stream (arch : Arch) (t : Datatype) (count : Nat) : List Byte :=
  copies count (t.extent : Offset) (bytesOf arch (t.typeMap arch))

end EduMpi.Ddt
