import SignalisCodec.Typed.Host

/-! The logical types of the wire values: `as*` interprets a raw value, `from*` checks the range of
a logical one and gives its raw value. -/
namespace SignalisCodec.Js

def U64_MASK : BigInt := bigShl 1 64 - 1
def U32_MASK : BigInt := 0xffffffff

def I32_MIN : BigInt := -0x80000000
def I32_MAX : BigInt := 0x7fffffff
def U32_MAX : BigInt := 0xffffffff
def I64_MIN : BigInt := -bigShl 1 63
def I64_MAX : BigInt := bigShl 1 63 - 1
def U64_MAX : BigInt := U64_MASK

/-- `new RangeError(...)` -/
def outOfRange (value min max : BigInt) (type : String) : Exception :=
  .rangeError s!"value {value} is out of {type} range [{min}, {max}]"

def checkRange (value min max : BigInt) (type : String) : Except Exception Unit :=
  if value < min ∨ value > max then .error (outOfRange value min max type) else .ok ()

section reading

/-- The masked bits, less the modulus from the sign bit on. -/
def asSigned (mask sign modulus raw : BigInt) : BigInt :=
  let low := Int.land raw mask
  if low ≥ sign then low - modulus else low

/-- The masked bits as a ZigZag word. -/
def asZigZag (mask raw : BigInt) : BigInt :=
  let v := Int.land raw mask
  Int.xor (bigShr v 1) (-Int.land v 1)

/-- Handles the 10-byte negative encoding. -/
def asInt32 (raw : BigInt) : Number := toNumber (asSigned U32_MASK 0x80000000 0x100000000 raw)

def asInt64 (raw : BigInt) : BigInt := asSigned U64_MASK (bigShl 1 63) (bigShl 1 64) raw

def asUint32 (raw : BigInt) : Number := toNumber (Int.land raw U32_MASK)

def asUint64 (raw : BigInt) : BigInt := Int.land raw U64_MASK

def asSint32 (raw : BigInt) : Number := toNumber (asZigZag U32_MASK raw)

def asSint64 (raw : BigInt) : BigInt := asZigZag U64_MASK raw

def asBool (raw : BigInt) : Bool := raw ≠ 0

def asEnum (raw : BigInt) : Number := asInt32 raw

def asFixed32 (raw : Number) : Number := numUshr raw 0

def asSfixed32 (raw : Number) : Number := numOr raw 0

def asFixed64 (raw : BigInt) : BigInt := Int.land raw U64_MASK

def asSfixed64 (raw : BigInt) : BigInt := asSigned U64_MASK (bigShl 1 63) (bigShl 1 64) raw

end reading

section writing

/-- A value in range, as a 64-bit word. -/
def fromSigned (min max : BigInt) (type : String) (value : BigInt) : Except Exception BigInt := do
  checkRange value min max type
  return Int.land value U64_MASK

/-- A value in range, as it is. -/
def fromUnsigned (max : BigInt) (type : String) (value : BigInt) : Except Exception BigInt := do
  checkRange value 0 max type
  return value

/-- A value in range, as a ZigZag word; `n` bits lie below its sign. -/
def fromZigZag (min max : BigInt) (type : String) (n : ℕ) (mask value : BigInt) :
    Except Exception BigInt := do
  checkRange value min max type
  return Int.land (Int.xor (bigShl value 1) (bigShr value n)) mask

/-- Negatives use the 64-bit form. -/
def fromInt32 (value : Number) : Except Exception BigInt :=
  fromSigned I32_MIN I32_MAX "int32" (toBigInt value)

def fromInt64 (value : BigInt) : Except Exception BigInt :=
  fromSigned I64_MIN I64_MAX "int64" value

def fromUint32 (value : Number) : Except Exception BigInt :=
  fromUnsigned U32_MAX "uint32" (toBigInt value)

def fromUint64 (value : BigInt) : Except Exception BigInt := fromUnsigned U64_MAX "uint64" value

def fromSint32 (value : Number) : Except Exception BigInt :=
  fromZigZag I32_MIN I32_MAX "sint32" 31 U32_MASK (toBigInt value)

def fromSint64 (value : BigInt) : Except Exception BigInt :=
  fromZigZag I64_MIN I64_MAX "sint64" 63 U64_MASK value

def fromBool (value : Bool) : BigInt := if value then 1 else 0

def fromEnum (value : Number) : Except Exception BigInt := fromInt32 value

def fromFixed32 (value : Number) : Except Exception Number := do
  let v := toBigInt value
  checkRange v 0 U32_MAX "fixed32"
  return toNumber v

def fromSfixed32 (value : Number) : Except Exception Number := do
  let v := toBigInt value
  checkRange v I32_MIN I32_MAX "sfixed32"
  return toNumber (Int.land v U32_MASK)

def fromFixed64 (value : BigInt) : Except Exception BigInt := fromUnsigned U64_MAX "fixed64" value

def fromSfixed64 (value : BigInt) : Except Exception BigInt :=
  fromSigned I64_MIN I64_MAX "sfixed64" value

end writing
end SignalisCodec.Js
