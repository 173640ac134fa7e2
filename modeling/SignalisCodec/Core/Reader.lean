import SignalisCodec.Core.Error
import SignalisCodec.Theory.Drain
import SignalisCodec.Theory.LittleEndian

/-! The bounds-checked cursor over a byte buffer. A method taking `&mut self` is a state
computation, so the cursor it leaves behind is part of its result even when it fails. -/
namespace SignalisCodec

/-- The maximum number of bytes a single varint may occupy. -/
def MAX_VARINT_BYTES : ℕ := 10

structure Reader where
  buf : Slice
  pos : ℕ
  deriving DecidableEq, Repr

abbrev ReadM := EStateM Failure Reader

/-- An operation that is not defined here panics. -/
def orPanic {α : Type} : Option α → ReadM α
  | some a => return a
  | none => throw .panic

/-- `usize::checked_add` -/
def checkedAdd (a b : ℕ) : Option ℕ := if a + b ≤ USIZE_MAX then some (a + b) else none

/-- `usize::checked_sub` -/
def checkedSub (a b : ℕ) : Option ℕ := if b ≤ a then some (a - b) else none

/-- `u64 << u32`, absent where the amount reaches the width and Rust panics. -/
def shiftLeft (value : UInt64) (amount : ℕ) : Option UInt64 :=
  if amount < 64 then some (value <<< UInt64.ofNat amount) else none

/-- `u32::from_le_bytes` -/
def u32FromLeBytes (bytes : List UInt8) : UInt32 := UInt32.ofNat (LittleEndian.value bytes)

/-- `u64::from_le_bytes` -/
def u64FromLeBytes (bytes : List UInt8) : UInt64 := UInt64.ofNat (LittleEndian.value bytes)

namespace Reader

def new (buf : Slice) : Reader := ⟨buf,0⟩

def position : ReadM ℕ := do return (← get).pos

def remaining : ReadM ℕ := do
  let r ← get
  orPanic (checkedSub r.buf.len r.pos)

def isEmpty (r : Reader) : Bool := r.pos ≥ r.buf.len

def readByte : ReadM UInt8 := do
  let r ← get
  if r.pos ≥ r.buf.len then
    throw (.err (.unexpectedEof 1 r.pos))
  let b ← orPanic r.buf.bytes[r.pos]?
  let pos ← orPanic (checkedAdd r.pos 1)
  set { r with pos }
  return b

/-- The `loop` of `read_varint`, from the values its three locals have before an iteration. -/
def readVarintLoop (result : UInt64) (shift count : ℕ) : ReadM UInt64 := do
  let byte ← readByte
  -- the tenth byte has room for the top bit of a `u64` only
  if count + 1 = MAX_VARINT_BYTES ∧ byte > 0x01 then
    throw (.err (.varintOverflow (← position)))
  let group ← orPanic (shiftLeft (byte &&& 0x7f).toUInt64 shift)
  let result := result ||| group
  if byte &&& 0x80 = 0 then
    return result
  if count + 1 ≥ MAX_VARINT_BYTES then
    throw (.err (.varintOverflow (← position)))
  else
    readVarintLoop result (shift + 7) (count + 1)
termination_by MAX_VARINT_BYTES - count

def readVarint : ReadM UInt64 := readVarintLoop 0 0 0

def readBytes (len : ℕ) : ReadM Slice := do
  let r ← get
  match checkedAdd r.pos len with
  | none => throw (.err (.lengthOverflow r.pos))
  | some stop =>
    if stop > r.buf.len then
      throw (.err (.unexpectedEof len r.pos))
    let slice ← orPanic (r.buf.range r.pos stop)
    set { r with pos := stop }
    return slice

/-- `[bytes[0], …, bytes[n - 1]]` -/
def elements (bytes : Slice) (n : ℕ) : ReadM (List UInt8) :=
  (List.range n).mapM fun i => orPanic bytes.bytes[i]?

def readFixed32 : ReadM UInt32 := do
  let bytes ← readBytes 4
  return u32FromLeBytes (← elements bytes 4)

def readFixed64 : ReadM UInt64 := do
  let bytes ← readBytes 8
  return u64FromLeBytes (← elements bytes 8)

def skip (len : ℕ) : ReadM Unit := do
  let _ ← readBytes len

/-- `while !reader.is_empty()`: an iteration that consumes nothing would be repeated for ever. -/
def loop : Drain.Loop Failure Reader where
  done := isEmpty
  size r := r.buf.len - r.pos
  stuck := .diverge

/-- The loop all decoders share: `while !reader.is_empty() { out.push(body?) }` -/
def readAll {α : Type} (body : ReadM α) (buf : Slice) : Outcome (List α) :=
  Drain.drain loop body (new buf) []

end Reader
end SignalisCodec
