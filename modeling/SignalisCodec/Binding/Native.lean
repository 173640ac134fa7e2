import SignalisCodec.Core.Decoder
import SignalisCodec.Core.Encoder
import SignalisCodec.Core.Indexer

/-! The bindings that expose the core to Node.js: the same calls on the host's values, with
errors turned into exceptions. -/
namespace SignalisCodec

/-- The status codes of exceptions the bindings throw. -/
inductive Status where
  | genericFailure
  | invalidArg
  deriving DecidableEq, Repr

structure NapiError where
  status : Status
  reason : String
  deriving DecidableEq, Repr

/-- `Error::from_reason` -/
def NapiError.fromReason (reason : String) : NapiError := ⟨.genericFailure,reason⟩

/-- How a call from JavaScript ends without a value. -/
inductive Thrown where
  | napi (e : NapiError)
  | outOfRange
  | panic
  | diverge
  deriving DecidableEq, Repr

/-- `map_err` on the result of a core function, followed by `?` -/
def mapErr {α : Type} (f : DecodeError → NapiError) : Outcome α → Except Thrown α
  | .ok a => .ok a
  | .error (.err e) => .error (.napi (f e))
  | .error .panic => .error .panic
  | .error .diverge => .error .diverge

def toNapiErr (e : DecodeError) : NapiError := .fromReason e.toText

def WIRE_VARINT : UInt32 := 0
def WIRE_FIXED64 : UInt32 := 1
def WIRE_BYTES : UInt32 := 2
def WIRE_FIXED32 : UInt32 := 5

/-- A JavaScript bigint. -/
abbrev BigInt := ℤ

def bigintFromU64 (v : UInt64) : BigInt := v.toNat

/-- A single decoded field handed back to JavaScript. -/
structure DecodedField where
  fieldNumber : UInt32
  wireType : UInt32
  varint : Option BigInt
  fixed32 : Option UInt32
  bytes : Option Slice
  deriving DecidableEq, Repr

/-- A field to encode, supplied by JavaScript. -/
structure FieldInput where
  fieldNumber : UInt32
  wireType : UInt32
  varint : Option BigInt
  fixed32 : Option UInt32
  bytes : Option Slice
  deriving DecidableEq, Repr

/-- The `match` of `decode_fields_js`. -/
def Field.toDecoded (f : Field) : DecodedField :=
  match f.value with
  | .varint v => ⟨f.fieldNumber,WIRE_VARINT,some (bigintFromU64 v),none,none⟩
  | .fixed64 v => ⟨f.fieldNumber,WIRE_FIXED64,some (bigintFromU64 v),none,none⟩
  | .fixed32 v => ⟨f.fieldNumber,WIRE_FIXED32,none,some v,none⟩
  | .bytes b => ⟨f.fieldNumber,WIRE_BYTES,none,none,some b⟩

def decodeFieldsJs (buf : Slice) : Except Thrown (List DecodedField) := do
  let fields ← mapErr toNapiErr (decodeFields buf)
  return fields.map Field.toDecoded

/-- The four numbers of an entry in the flat table. -/
def IndexEntry.row (e : IndexEntry) : List UInt32 :=
  [e.fieldNumber,e.wireType.toUInt32,e.offset,e.length]

/-- The flat table crosses the boundary as one typed array. -/
def indexFieldsJs (buf : Slice) : Except Thrown (List UInt32) := do
  let entries ← mapErr (fun e => ⟨.invalidArg,e.toText⟩) (indexFields buf)
  return entries.flatMap IndexEntry.row

section encode
variable (getU64 : BigInt → Bool × UInt64 × Bool)

/-- `get_u64` of the host's bigints gives the sign, the low word of the absolute value, and whether
that word is the bigint. -/
def bigintToU64 (b : BigInt) : Except Thrown UInt64 :=
  let (signed,value,lossless) := getU64 b
  if signed || !lossless then
    .error (.napi (.fromReason "value out of range for u64 (must be 0..=2^64-1)"))
  else .ok value

/-- `ok_or_else(|| Error::from_reason(reason))`, followed by `?` -/
def okOr {α : Type} (reason : String) : Option α → Except Thrown α
  | some a => .ok a
  | none => .error (.napi (.fromReason reason))

/-- One iteration of the loop of `encode_fields_js`. -/
def encodeFieldInput (enc : Encoder) (f : FieldInput) : Except Thrown Encoder :=
  if f.wireType = WIRE_VARINT then do
    let v ← okOr "varint field missing 'varint' value" f.varint
    return enc.writeVarintField f.fieldNumber (← bigintToU64 getU64 v)
  else if f.wireType = WIRE_FIXED64 then do
    let v ← okOr "fixed64 field missing 'varint' value" f.varint
    return enc.writeFixed64Field f.fieldNumber (← bigintToU64 getU64 v)
  else if f.wireType = WIRE_FIXED32 then do
    let v ← okOr "fixed32 field missing 'fixed32' value" f.fixed32
    return enc.writeFixed32Field f.fieldNumber v
  else if f.wireType = WIRE_BYTES then do
    let b ← okOr "bytes field missing 'bytes' value" f.bytes
    return enc.writeBytesField f.fieldNumber b.bytes
  else .error (.napi (.fromReason s!"unsupported wire type {f.wireType}"))

/-- A finished `Vec<u8>` as a buffer; growing it past `isize::MAX` bytes panics. -/
def toBuffer (bytes : List UInt8) : Except Thrown Slice :=
  if h : bytes.length ≤ ISIZE_MAX then .ok ⟨bytes,h⟩ else .error .panic

/-- Encode a list of fields into a protobuf buffer. -/
def encodeFieldsJs (fields : List FieldInput) : Except Thrown Slice := do
  let enc ← fields.foldlM (encodeFieldInput getU64) Encoder.new
  toBuffer enc.finish

end encode
end SignalisCodec
