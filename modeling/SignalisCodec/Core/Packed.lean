import SignalisCodec.Core.Encoder

/-! Packed repeated payloads: element values one after the other, without a key for each. -/
namespace SignalisCodec
open Reader

/-- Pack a slice of raw varint values into a contiguous payload. -/
def packVarints (values : List UInt64) : List UInt8 :=
  (values.foldl Encoder.writeVarint Encoder.new).finish

/-- Unpack a varint payload into its raw values. -/
def unpackVarints (buf : Slice) : Outcome (List UInt64) := readAll readVarint buf

/-- `for &v in values { out.extend_from_slice(&v.to_le_bytes()) }` -/
def packFixed {α : Type} (toLeBytes : α → List UInt8) (values : List α) : List UInt8 :=
  values.foldl (fun out v => out ++ toLeBytes v) []

/-- The payload length must be a multiple of the element's width. -/
def unpackFixed {α : Type} (width : ℕ) (read : ReadM α) (buf : Slice) : Outcome (List α) :=
  if buf.len % width ≠ 0 then
    .error (.err (.unexpectedEof (width - buf.len % width) buf.len))
  else readAll read buf

def packFixed32 (values : List UInt32) : List UInt8 := packFixed u32ToLeBytes values

def unpackFixed32 (buf : Slice) : Outcome (List UInt32) := unpackFixed 4 readFixed32 buf

def packFixed64 (values : List UInt64) : List UInt8 := packFixed u64ToLeBytes values

def unpackFixed64 (buf : Slice) : Outcome (List UInt64) := unpackFixed 8 readFixed64 buf

end SignalisCodec
