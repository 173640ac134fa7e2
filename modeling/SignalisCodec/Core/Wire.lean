import SignalisCodec.Core.Reader

/-! Wire types and the field key that precedes every field. -/
namespace SignalisCodec

inductive WireType where
  | varint
  | fixed64
  | lengthDelimited
  | fixed32
  deriving DecidableEq, Repr

/-- Map the low 3 bits of a field key to a wire type. -/
def WireType.fromBits (bits : UInt8) (position : ℕ) : Except DecodeError WireType :=
  match bits with
  | 0 => .ok .varint
  | 1 => .ok .fixed64
  | 2 => .ok .lengthDelimited
  | 5 => .ok .fixed32
  | 3 => .error (.groupsUnsupported position)
  | 4 => .error (.groupsUnsupported position)
  | other => .error (.invalidWireType other position)

def WireType.toBits : WireType → UInt8
  | .varint => 0
  | .fixed64 => 1
  | .lengthDelimited => 2
  | .fixed32 => 5

@[ext] structure FieldKey where
  fieldNumber : UInt32
  wireType : WireType
  deriving DecidableEq, Repr

/-- Decode a field key from its varint form. -/
def FieldKey.fromVarint (key : UInt64) (position : ℕ) : Except DecodeError FieldKey := do
  let wireType ← WireType.fromBits (key &&& 0x07).toUInt8 position
  let fieldNumber := (key >>> 3).toUInt32
  if fieldNumber = 0 then
    throw (.invalidFieldNumber position)
  return ⟨fieldNumber,wireType⟩

def FieldKey.toVarint (key : FieldKey) : UInt64 :=
  (key.fieldNumber.toUInt64 <<< 3) ||| key.wireType.toBits.toUInt64

/-- The `?` operator on a result that leaves the reader alone. -/
def lift {α : Type} : Except DecodeError α → ReadM α
  | .ok a => return a
  | .error e => throw (.err e)

/-- `usize::try_from(len).map_err(|_| DecodeError::LengthOverflow { position })` -/
def lengthFromVarint (len : UInt64) (position : ℕ) : Except DecodeError ℕ :=
  if len.toNat ≤ USIZE_MAX then .ok len.toNat else .error (.lengthOverflow position)

end SignalisCodec
