import SignalisCodec.Typed.Helpers

/-! The packed payloads of each logical type: the helpers over the packing engine. -/
namespace SignalisCodec.Js

section engine
variable (getU64 : BigInt → Bool × UInt64 × Bool) (getU32 : Number → UInt32)

/-- The key (tag) of a field number and a wire type. -/
def fieldKey (fieldNumber : Number) (wireType : Number) : Number :=
  numOr (numShl fieldNumber 3) wireType

def packVarints (values : List BigInt) : Except Exception Slice :=
  callNative (packVarintsJs getU64 values)

def unpackVarints (buf : Slice) : Except Exception (List BigInt) := callNative (unpackVarintsJs buf)

def packFixed32 (values : List Number) : Except Exception Slice :=
  callNative (packFixed32Js getU32 values)

def unpackFixed32 (buf : Slice) : Except Exception (List Number) := callNative (unpackFixed32Js buf)

def packFixed64 (values : List BigInt) : Except Exception Slice :=
  callNative (packFixed64Js getU64 values)

def unpackFixed64 (buf : Slice) : Except Exception (List BigInt) := callNative (unpackFixed64Js buf)

end engine

section packed
variable {α : Type}

/-- `pack(values.map(write))` -/
def encodePacked (pack : List ℤ → Except Exception Slice) (write : α → Except Exception ℤ)
    (values : JsArray α) : Except Exception Slice := do
  pack (← values.elems.mapM write)

/-- `unpack(buf).map(read)` -/
def decodePacked (unpack : Slice → Except Exception (List ℤ)) (read : ℤ → α) (buf : Slice) :
    Except Exception (List α) := do
  return (← unpack buf).map read

end packed

section varints
variable (getU64 : BigInt → Bool × UInt64 × Bool)

def encodePackedInt32 : JsArray Number → Except Exception Slice :=
  encodePacked (packVarints getU64) fromInt32
def decodePackedInt32 : Slice → Except Exception (List Number) :=
  decodePacked unpackVarints asInt32

def encodePackedInt64 : JsArray BigInt → Except Exception Slice :=
  encodePacked (packVarints getU64) fromInt64
def decodePackedInt64 : Slice → Except Exception (List BigInt) :=
  decodePacked unpackVarints asInt64

def encodePackedUint32 : JsArray Number → Except Exception Slice :=
  encodePacked (packVarints getU64) fromUint32
def decodePackedUint32 : Slice → Except Exception (List Number) :=
  decodePacked unpackVarints asUint32

def encodePackedUint64 : JsArray BigInt → Except Exception Slice :=
  encodePacked (packVarints getU64) fromUint64
def decodePackedUint64 : Slice → Except Exception (List BigInt) :=
  decodePacked unpackVarints asUint64

def encodePackedSint32 : JsArray Number → Except Exception Slice :=
  encodePacked (packVarints getU64) fromSint32
def decodePackedSint32 : Slice → Except Exception (List Number) :=
  decodePacked unpackVarints asSint32

def encodePackedSint64 : JsArray BigInt → Except Exception Slice :=
  encodePacked (packVarints getU64) fromSint64
def decodePackedSint64 : Slice → Except Exception (List BigInt) :=
  decodePacked unpackVarints asSint64

def encodePackedBool : JsArray Bool → Except Exception Slice :=
  encodePacked (packVarints getU64) fun value => .ok (fromBool value)
def decodePackedBool : Slice → Except Exception (List Bool) :=
  decodePacked unpackVarints asBool

def encodePackedEnum : JsArray Number → Except Exception Slice :=
  encodePacked (packVarints getU64) fromEnum
def decodePackedEnum : Slice → Except Exception (List Number) :=
  decodePacked unpackVarints asEnum

end varints

section fixed
variable (getU64 : BigInt → Bool × UInt64 × Bool) (getU32 : Number → UInt32)

def encodePackedFixed32 : JsArray Number → Except Exception Slice :=
  encodePacked (packFixed32 getU32) fromFixed32
def decodePackedFixed32 : Slice → Except Exception (List Number) :=
  decodePacked unpackFixed32 asFixed32

def encodePackedSfixed32 : JsArray Number → Except Exception Slice :=
  encodePacked (packFixed32 getU32) fromSfixed32
def decodePackedSfixed32 : Slice → Except Exception (List Number) :=
  decodePacked unpackFixed32 asSfixed32

def encodePackedFixed64 : JsArray BigInt → Except Exception Slice :=
  encodePacked (packFixed64 getU64) fromFixed64
def decodePackedFixed64 : Slice → Except Exception (List BigInt) :=
  decodePacked unpackFixed64 asFixed64

def encodePackedSfixed64 : JsArray BigInt → Except Exception Slice :=
  encodePacked (packFixed64 getU64) fromSfixed64
def decodePackedSfixed64 : Slice → Except Exception (List BigInt) :=
  decodePacked unpackFixed64 asSfixed64

end fixed
end SignalisCodec.Js
