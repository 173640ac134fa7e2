import Mathlib.Control.Monad.Basic
import Mathlib.Data.Nat.Notation
import Mathlib.Tactic.Lemma

/-! Decode errors, and the ways a call into the core can end without a value. -/
namespace SignalisCodec

/-- An error produced while decoding a protobuf wire stream. -/
inductive DecodeError where
  | unexpectedEof (needed position : ℕ)
  | varintOverflow (position : ℕ)
  | lengthOverflow (position : ℕ)
  | invalidWireType (wireType : UInt8) (position : ℕ)
  | invalidFieldNumber (position : ℕ)
  | depthLimitExceeded (limit : UInt32) (position : ℕ)
  | groupsUnsupported (position : ℕ)
  deriving DecidableEq, Repr

/-- The `Display` text, which the bindings hand to JavaScript. -/
def DecodeError.toText : DecodeError → String
  | .unexpectedEof needed position =>
    s!"unexpected end of buffer: needed {needed} more byte(s) at position {position}"
  | .varintOverflow position => s!"varint overflow (exceeds 64 bits) at position {position}"
  | .lengthOverflow position => s!"length-delimited size overflow at position {position}"
  | .invalidWireType wireType position => s!"invalid wire type {wireType} at position {position}"
  | .invalidFieldNumber position => s!"invalid field number 0 at position {position}"
  | .depthLimitExceeded limit position =>
    s!"nesting depth exceeded limit of {limit} at position {position}"
  | .groupsUnsupported position =>
    s!"group wire types (3/4) are not supported at position {position}"

/-- What a Rust call returning `Result<_, DecodeError>` can do instead of returning `Ok`: return
`Err`, panic (an index, a slice, an addition or a shift out of range), or loop for ever. -/
inductive Failure where
  | err (e : DecodeError)
  | panic
  | diverge
  deriving DecidableEq, Repr

/-- The depth limit was hit. -/
def Failure.IsDepthLimit : Failure → Prop
  | .err (.depthLimitExceeded _ _) => True
  | _ => False

/-- An error about the bytes themselves, as opposed to the depth limit. -/
def Failure.IsMalformed : Failure → Prop
  | .err (.depthLimitExceeded _ _) => False
  | .err _ => True
  | .panic => False
  | .diverge => False

lemma Failure.isDepthLimit_iff (f : Failure) :
    f.IsDepthLimit ↔ ∃ limit position, f = .err (.depthLimitExceeded limit position) := by
  rcases f with (_ | _ | _ | _ | _ | _ | _) | _ | _ <;> simp [IsDepthLimit]

lemma Failure.isMalformed_iff (f : Failure) :
    f.IsMalformed ↔ (∃ e, f = .err e) ∧ ¬ f.IsDepthLimit := by
  rcases f with (_ | _ | _ | _ | _ | _ | _) | _ | _ <;> simp [IsMalformed,IsDepthLimit]

/-- The result of such a call. -/
abbrev Outcome := Except Failure

/-- `usize::MAX` on the supported targets, all of them 64-bit. -/
def USIZE_MAX : ℕ := 0xffffffffffffffff

/-- `isize::MAX`, the most bytes a slice or a `Vec` can span. -/
def ISIZE_MAX : ℕ := 0x7fffffffffffffff

/-- A byte slice; no object of the host exceeds `isize::MAX` bytes. -/
@[ext] structure Slice where
  bytes : List UInt8
  fits : bytes.length ≤ ISIZE_MAX
  deriving DecidableEq, Repr

namespace Slice

def len (s : Slice) : ℕ := s.bytes.length

def isEmpty (s : Slice) : Bool := s.len == 0

def empty : Slice := ⟨[],Nat.zero_le _⟩

/-- At most `length` bytes from `start` on. -/
def window (s : Slice) (start length : ℕ) : Slice where
  bytes := (s.bytes.drop start).take length
  fits := by
    have := s.fits
    simp only [List.length_take,List.length_drop]
    omega

/-- `&s[start..stop]`, absent where Rust panics. -/
def range (s : Slice) (start stop : ℕ) : Option Slice :=
  if start ≤ stop ∧ stop ≤ s.len then some (s.window start (stop - start)) else none

end Slice
end SignalisCodec
