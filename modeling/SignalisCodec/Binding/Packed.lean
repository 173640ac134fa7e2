import SignalisCodec.Binding.Native
import SignalisCodec.Core.Packed

/-! The bindings of the packing engine. -/
namespace SignalisCodec

/-- A JavaScript number that is an integer. -/
abbrev Number := ℤ

section pack
variable (getU64 : BigInt → Bool × UInt64 × Bool) (getU32 : Number → UInt32)

/-- `values.into_iter().map(bigint_to_u64).collect::<Result<_>>()?`, then the packing. -/
def packBigInts (pack : List UInt64 → List UInt8) (values : List BigInt) :
    Except Thrown Slice := do
  let raw ← values.mapM (bigintToU64 getU64)
  toBuffer (pack raw)

/-- Pack raw varint values into a contiguous payload. -/
def packVarintsJs (values : List BigInt) : Except Thrown Slice :=
  packBigInts getU64 packVarints values

/-- Pack raw fixed32 values. The host converts the numbers before the call. -/
def packFixed32Js (values : List Number) : Except Thrown Slice :=
  toBuffer (packFixed32 (values.map getU32))

/-- Pack raw fixed64 values. -/
def packFixed64Js (values : List BigInt) : Except Thrown Slice :=
  packBigInts getU64 packFixed64 values

end pack

def numberFromU32 (v : UInt32) : Number := v.toNat

def unpackVarintsJs (buf : Slice) : Except Thrown (List BigInt) := do
  let values ← mapErr toNapiErr (unpackVarints buf)
  return values.map bigintFromU64

def unpackFixed32Js (buf : Slice) : Except Thrown (List Number) := do
  let values ← mapErr toNapiErr (unpackFixed32 buf)
  return values.map numberFromU32

def unpackFixed64Js (buf : Slice) : Except Thrown (List BigInt) := do
  let values ← mapErr toNapiErr (unpackFixed64 buf)
  return values.map bigintFromU64

end SignalisCodec
