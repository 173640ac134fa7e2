import Mathlib.Tactic.Lemma

/-! The ZigZag maps between signed 64-bit integers and the words that stand for them on the wire. -/
namespace SignalisCodec

/-- ZigZag-encode a signed 64-bit integer. Neither shift amount reaches the width. -/
def zigzagEncode (value : Int64) : UInt64 := ((value <<< 1) ^^^ (value >>> 63)).toUInt64

/-- `-x` on `i64`, absent where Rust reports an overflow. -/
def checkedNeg (x : Int64) : Option Int64 := if x = Int64.minValue then none else some (-x)

/-- ZigZag-decode back to a signed 64-bit integer. -/
def zigzagDecode (value : UInt64) : Option Int64 := do
  let sign ← checkedNeg (value &&& 1).toInt64
  return (value >>> 1).toInt64 ^^^ sign

end SignalisCodec
