import Mathlib.Data.Finset.Insert
import Mathlib.Data.Rat.Defs
import SignalisCodec.Theory.Strided
import SignalisCodec.Typed.Helpers

/-! The lazy message of the JavaScript side: the buffer and its flat offset table, read in place.
Table entries, offsets and the bigints read from varints are never negative here. -/
namespace SignalisCodec

namespace Slice

/-- `Buffer.subarray`, which clamps both ends to the buffer. -/
def subarray (s : Slice) (start stop : ℕ) : Slice := s.window start (stop - start)

/-- `Buffer.readUInt32LE` and `Buffer.readBigUInt64LE`, which throw past the end. -/
def readUIntLE (size : ℕ) (s : Slice) (offset : ℕ) : Except Thrown ℕ :=
  if offset + size ≤ s.len then .ok (LittleEndian.value ((s.bytes.drop offset).take size))
  else .error .outOfRange

def readUInt32LE : Slice → ℕ → Except Thrown ℕ := readUIntLE 4
def readBigUInt64LE : Slice → ℕ → Except Thrown ℕ := readUIntLE 8

end Slice

structure LazyMessage where
  buf : Slice
  index : List UInt32
  deriving DecidableEq, Repr

/-- Scan `buf` once and return a `LazyMessage`. -/
def lazyIndex (buf : Slice) : Except Thrown LazyMessage := do return ⟨buf,← indexFieldsJs buf⟩

namespace LazyMessage

def WIRE_VARINT : ℕ := 0
def WIRE_FIXED64 : ℕ := 1
def WIRE_BYTES : ℕ := 2
def WIRE_FIXED32 : ℕ := 5

/-- Number of slots per index entry: number, wire type, offset, length. -/
def STRIDE : ℕ := 4

variable (m : LazyMessage)

/-- `this.index[i]`, absent where that is `undefined`. -/
def indexAt (i : ℕ) : Option ℕ := m.index[i]?.map UInt32.toNat

/-- `this.index[i]!` as an offset, a length or a loop bound; there `undefined` acts as 0. -/
def boundAt (i : ℕ) : ℕ := (m.indexAt i).getD 0

/-- The values of `i` in `for (let i = 0; i < this.index.length; i += STRIDE)`. -/
def slots : List ℕ := Strided.startsFrom STRIDE m.index.length 0

def fieldCount : ℚ := m.index.length / STRIDE

/-- The base offset into the index for `fieldNumber`, or -1. -/
def slotOf (fieldNumber : ℕ) : ℤ :=
  match m.slots.find? fun i => m.indexAt i = some fieldNumber with
  | some i => i
  | none => -1

def has (fieldNumber : ℕ) : Bool := m.slotOf fieldNumber ≥ 0

/-- Decode a LEB128 varint from the buffer at `[offset, offset + length)`. -/
def readVarintAt (offset length : ℕ) : ℕ :=
  ((List.range length).foldl (fun (result,shift) i =>
    let byte := (m.buf.bytes[offset + i]?).getD 0
    (result ||| ((byte &&& 0x7f).toNat <<< shift),shift + 7)) (0,0)).1

/-- Read a varint field (first occurrence). -/
def getVarint (fieldNumber : ℕ) : Option ℕ :=
  let slot := m.slotOf fieldNumber
  if slot < 0 ∨ m.indexAt (slot.toNat + 1) ≠ some WIRE_VARINT then none
  else some (m.readVarintAt (m.boundAt (slot.toNat + 2)) (m.boundAt (slot.toNat + 3)))

/-- Read a varint field as a uint32. -/
def getUint32 (fieldNumber : ℕ) : Option Number :=
  (m.getVarint fieldNumber).map fun raw : ℕ => Js.asUint32 raw

/-- Read a varint field as a boolean. -/
def getBool (fieldNumber : ℕ) : Option Bool :=
  (m.getVarint fieldNumber).map fun raw : ℕ => Js.asBool raw

/-- Read a length-delimited field as raw bytes. -/
def getBytes (fieldNumber : ℕ) : Option Slice :=
  let slot := m.slotOf fieldNumber
  if slot < 0 ∨ m.indexAt (slot.toNat + 1) ≠ some WIRE_BYTES then none
  else
    let offset := m.boundAt (slot.toNat + 2)
    let length := m.boundAt (slot.toNat + 3)
    some (m.buf.subarray offset (offset + length))

/-- Read a fixed32 field as an unsigned 32-bit integer. -/
def getFixed32 (fieldNumber : ℕ) : Except Thrown (Option ℕ) :=
  let slot := m.slotOf fieldNumber
  if slot < 0 ∨ m.indexAt (slot.toNat + 1) ≠ some WIRE_FIXED32 then .ok none
  else some <$> m.buf.readUInt32LE (m.boundAt (slot.toNat + 2))

/-- Read a fixed64 field as an unsigned 64-bit bigint. -/
def getFixed64 (fieldNumber : ℕ) : Except Thrown (Option ℕ) :=
  let slot := m.slotOf fieldNumber
  if slot < 0 ∨ m.indexAt (slot.toNat + 1) ≠ some WIRE_FIXED64 then .ok none
  else some <$> m.buf.readBigUInt64LE (m.boundAt (slot.toNat + 2))

/-- Index a submessage field in place. -/
def getMessage (fieldNumber : ℕ) : Except Thrown (Option LazyMessage) :=
  match m.getBytes fieldNumber with
  | none => .ok none
  | some sub => some <$> lazyIndex sub

/-- Field numbers present, in first-seen order. -/
def fieldNumbers : List ℕ :=
  (m.slots.foldl (fun ((seen,out) : Finset ℕ × List ℕ) i =>
    let fn := m.boundAt i
    if fn ∈ seen then (seen,out) else (insert fn seen,out ++ [fn])) (∅,[])).2

/-- Number of occurrences of `fieldNumber`. -/
def count (fieldNumber : ℕ) : ℕ :=
  m.slots.foldl (fun n i => if m.indexAt i = some fieldNumber then n + 1 else n) 0

/-- All occurrences of a repeated varint field, in wire order. -/
def getAllVarints (fieldNumber : ℕ) : List ℕ :=
  m.slots.foldl (fun out i =>
    if m.indexAt i = some fieldNumber ∧ m.indexAt (i + 1) = some WIRE_VARINT then
      out ++ [m.readVarintAt (m.boundAt (i + 2)) (m.boundAt (i + 3))]
    else out) []

/-- All occurrences of a repeated varint field as uint32 numbers. -/
def getAllUint32 (fieldNumber : ℕ) : List Number :=
  (m.getAllVarints fieldNumber).map fun raw : ℕ => Js.asUint32 raw

/-- All occurrences of a repeated length-delimited field, as views. -/
def getAllBytes (fieldNumber : ℕ) : List Slice :=
  m.slots.foldl (fun out i =>
    if m.indexAt i = some fieldNumber ∧ m.indexAt (i + 1) = some WIRE_BYTES then
      let offset := m.boundAt (i + 2)
      let length := m.boundAt (i + 3)
      out ++ [m.buf.subarray offset (offset + length)]
    else out) []

/-- All occurrences of a repeated submessage field, each lazily indexed. -/
def getAllMessages (fieldNumber : ℕ) : Except Thrown (List LazyMessage) :=
  (m.getAllBytes fieldNumber).mapM lazyIndex

end LazyMessage

end SignalisCodec
