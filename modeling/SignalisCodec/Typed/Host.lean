import Mathlib.Data.Int.Bitwise
import SignalisCodec.Binding.Packed

/-! What the typed helpers use of JavaScript: arrays, exceptions, and the operators on bigints and
on numbers that are integers. -/
namespace SignalisCodec.Js

/-- How a call ends without a value: by a `RangeError` of the helpers or in the native addon. -/
inductive Exception where
  | rangeError (message : String)
  | native (t : Thrown)
  deriving DecidableEq, Repr

/-- An array; the language bounds its length. -/
structure JsArray (α : Type) where
  elems : List α
  length_le : elems.length ≤ 4294967295

/-- The exceptions of the addon pass through. -/
def callNative {α : Type} : Except Thrown α → Except Exception α
  | .ok a => .ok a
  | .error t => .error (.native t)

section bigints

/-- `a << n` on bigints -/
def bigShl (a : BigInt) (n : ℕ) : BigInt := a * 2 ^ n

/-- `a >> n` on bigints, which rounds down. -/
def bigShr (a : BigInt) (n : ℕ) : BigInt := a / 2 ^ n

/-- `BigInt(value)` -/
def toBigInt (value : Number) : BigInt := value

/-- `Number(value)`: the nearest number of 53 significant bits, ties to even. -/
def toNumber (value : BigInt) : Number :=
  let n := value.natAbs
  let unit := 2 ^ (n.log2 - 52)
  let quot := n / unit
  let up := decide (unit < 2 * (n % unit) ∨ unit = 2 * (n % unit) ∧ quot % 2 = 1)
  value.sign * ((if up then quot + 1 else quot) * unit : ℕ)

end bigints

section numbers

/-- The conversion of a number to a signed 32-bit integer. -/
def toInt32 (x : Number) : ℤ := Int.bmod x 4294967296

/-- The conversion to an unsigned one. -/
def toUint32 (x : Number) : ℤ := x % 4294967296

/-- `a | b` on numbers -/
def numOr (a b : Number) : Number := Int.lor (toInt32 a) (toInt32 b)

/-- `a << n` on numbers, for `n` below 32 -/
def numShl (a : Number) (n : ℕ) : Number := toInt32 (toInt32 a * 2 ^ n)

/-- `a >>> n` on numbers, for `n` below 32 -/
def numUshr (a : Number) (n : ℕ) : Number := toUint32 a / 2 ^ n

end numbers
end SignalisCodec.Js
