import SignalisCodec.Core.Wire

/-! The single-pass field indexer: where the value of each top-level field lives. -/
namespace SignalisCodec
open Reader

structure IndexEntry where
  fieldNumber : UInt32
  wireType : UInt8
  offset : UInt32
  length : UInt32
  deriving DecidableEq, Repr

/-- `u32::MAX` -/
def U32_MAX : ℕ := 0xffffffff

/-- One iteration of the loop of `index_fields`. -/
def indexField : ReadM IndexEntry := do
  let keyPos ← position
  let key ← readVarint
  let fieldKey ← lift (FieldKey.fromVarint key keyPos)
  let (offset,length) ← match fieldKey.wireType with
    | .varint => do
      let start ← position
      let _ ← readVarint
      pure (start,← orPanic (checkedSub (← position) start))
    | .fixed64 => do
      let start ← position
      skip 8
      pure (start,8)
    | .fixed32 => do
      let start ← position
      skip 4
      pure (start,4)
    | .lengthDelimited => do
      let lenPos ← position
      let len ← readVarint
      let len ← lift (lengthFromVarint len lenPos)
      let start ← position
      skip len
      pure (start,len)
  return ⟨fieldKey.fieldNumber,fieldKey.wireType.toBits,UInt32.ofNat offset,UInt32.ofNat length⟩

/-- Scan `buf` once and return one entry per top-level field, in order. -/
def indexFields (buf : Slice) : Outcome (List IndexEntry) :=
  if buf.len > U32_MAX then .error (.err (.lengthOverflow 0)) else readAll indexField buf

end SignalisCodec
