import SignalisCodec.Core.Wire

/-! The wire encoder, which appends typed fields to a growable byte buffer. -/
namespace SignalisCodec

structure Encoder where
  buf : List UInt8
  deriving DecidableEq, Repr

/-- `u32::to_le_bytes` -/
def u32ToLeBytes (value : UInt32) : List UInt8 := LittleEndian.bytes 4 value.toNat

/-- `u64::to_le_bytes` -/
def u64ToLeBytes (value : UInt64) : List UInt8 := LittleEndian.bytes 8 value.toNat

lemma shiftRight_seven_toNat (value : UInt64) : (value >>> 7).toNat = value.toNat / 128 := by
  simp [UInt64.toNat_shiftRight,Nat.shiftRight_eq_div_pow]

lemma shiftRight_seven_eq_zero_iff (value : UInt64) : value >>> 7 = 0 ↔ value.toNat < 128 := by
  rw [← UInt64.toNat_inj,shiftRight_seven_toNat]
  simp only [UInt64.toNat_zero]
  omega

namespace Encoder

def new : Encoder := ⟨[]⟩

def push (e : Encoder) (byte : UInt8) : Encoder := ⟨e.buf ++ [byte]⟩

def extendFromSlice (e : Encoder) (data : List UInt8) : Encoder := ⟨e.buf ++ data⟩

def finish (e : Encoder) : List UInt8 := e.buf

def len (e : Encoder) : ℕ := e.buf.length

def isEmpty (e : Encoder) : Bool := e.buf.isEmpty

/-- Append a base-128 varint. -/
def writeVarint (e : Encoder) (value : UInt64) : Encoder :=
  let byte := (value &&& 0x7f).toUInt8
  let rest := value >>> 7
  let byte := if rest ≠ 0 then byte ||| 0x80 else byte
  if rest = 0 then e.push byte else writeVarint (e.push byte) rest
termination_by value.toNat
decreasing_by
  have := shiftRight_seven_eq_zero_iff value
  have := shiftRight_seven_toNat value
  simp_all only [rest]
  omega

/-- Append the field key for `fieldNumber` + `wireType`. -/
def writeKey (e : Encoder) (fieldNumber : UInt32) (wireType : WireType) : Encoder :=
  e.writeVarint (FieldKey.toVarint ⟨fieldNumber,wireType⟩)

def writeVarintField (e : Encoder) (fieldNumber : UInt32) (value : UInt64) : Encoder :=
  (e.writeKey fieldNumber .varint).writeVarint value

def writeFixed64Field (e : Encoder) (fieldNumber : UInt32) (value : UInt64) : Encoder :=
  (e.writeKey fieldNumber .fixed64).extendFromSlice (u64ToLeBytes value)

def writeFixed32Field (e : Encoder) (fieldNumber : UInt32) (value : UInt32) : Encoder :=
  (e.writeKey fieldNumber .fixed32).extendFromSlice (u32ToLeBytes value)

/-- Write a length-delimited field: string, bytes or submessage. -/
def writeBytesField (e : Encoder) (fieldNumber : UInt32) (data : List UInt8) : Encoder :=
  ((e.writeKey fieldNumber .lengthDelimited).writeVarint (UInt64.ofNat data.length)).extendFromSlice
    data

end Encoder
end SignalisCodec
