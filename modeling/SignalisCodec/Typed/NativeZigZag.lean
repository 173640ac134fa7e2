import SignalisCodec.Binding.EncoderChecks
import SignalisCodec.Typed.ZigZag

/-! The ZigZag bindings: the same map as the helpers' in their range, and an exception outside. -/
namespace SignalisCodec
open TwosComplement

/-- What the host documents of `get_i64`: whether the value fits 64 bits, and that value if it
does. -/
structure GetI64Exact (getI64 : BigInt → Int64 × Bool) : Prop where
  lossless : ∀ b : ℤ, (getI64 b).2 = true ↔ -2 ^ 63 ≤ b ∧ b < 2 ^ 63
  value : ∀ b : ℤ, -2 ^ 63 ≤ b → b < 2 ^ 63 → (getI64 b).1.toInt = b

namespace Native

section bindings
variable (getI64 : BigInt → Int64 × Bool) (getU64 : BigInt → Bool × UInt64 × Bool)

def bigintToI64 (b : BigInt) : Except Thrown Int64 :=
  let (value,lossless) := getI64 b
  if !lossless then
    .error (.napi (.fromReason "value out of range for i64 (must be -2^63..=2^63-1)"))
  else .ok value

/-- ZigZag-encode a signed 64-bit integer. -/
def zigzagEncode (value : BigInt) : Except Thrown BigInt := do
  let v ← bigintToI64 getI64 value
  return bigintFromU64 (SignalisCodec.zigzagEncode v)

/-- ZigZag-decode back to a signed 64-bit integer. -/
def zigzagDecode (value : BigInt) : Except Thrown BigInt := do
  let v ← bigintToU64 getU64 value
  match SignalisCodec.zigzagDecode v with
  | some w => return w.toInt
  | none => .error .panic

end bindings

section values
variable {getI64 : BigInt → Int64 × Bool} {getU64 : BigInt → Bool × UInt64 × Bool}

lemma zigzagEncode_ok (h : GetI64Exact getI64) {v : ℤ} (hlo : -2 ^ 63 ≤ v) (hhi : v < 2 ^ 63) :
    zigzagEncode getI64 v = .ok (zigzag v) := by
  have hloss := (h.lossless v).mpr ⟨hlo,hhi⟩
  have hvalue := h.value v hlo hhi
  have hword := zigzagEncode_toNat (getI64 v).1
  rw [hvalue] at hword
  rw [zigzagEncode,bigintToI64]
  simp only [hloss,Bool.not_true,Bool.false_eq_true,if_false]
  exact congrArg Except.ok hword

lemma zigzagEncode_error (h : GetI64Exact getI64) {v : ℤ} (hv : ¬ (-2 ^ 63 ≤ v ∧ v < 2 ^ 63)) :
    zigzagEncode getI64 v =
      .error (.napi (.fromReason "value out of range for i64 (must be -2^63..=2^63-1)")) := by
  have hloss : (getI64 v).2 = false := Bool.eq_false_iff.mpr ((h.lossless v).not.mpr hv)
  rw [zigzagEncode,bigintToI64]
  simp only [hloss]
  rfl

lemma bigintToU64_error (h : GetU64Exact getU64) {b : ℤ} (hb : ¬ (0 ≤ b ∧ b < 2 ^ 64)) :
    bigintToU64 getU64 b =
      .error (.napi (.fromReason "value out of range for u64 (must be 0..=2^64-1)")) := by
  have hsign := h.sign b
  have hloss := h.lossless b
  unfold bigintToU64
  generalize getU64 b = res at hsign hloss
  obtain ⟨signed,value,lossless⟩ := res
  simp only at hsign hloss
  have hbad : (signed || !lossless) = true := by
    by_cases hneg : b < 0
    · simp [hsign,hneg]
    · have hlossy : lossless = false := by
        rw [Bool.eq_false_iff]
        exact (hloss (Int.not_lt.mp hneg)).not.mpr (by omega)
      simp [hlossy]
  exact if_pos hbad

lemma zigzagDecode_ok (h : GetU64Exact getU64) (w : UInt64) :
    zigzagDecode getU64 (bigintFromU64 w) = .ok (unzigzag w.toNat) := by
  obtain ⟨v,hv,hvalue⟩ := zigzagDecode_toInt w
  rw [zigzagDecode,(bigintToU64_ok_iff h).mpr rfl]
  change (match SignalisCodec.zigzagDecode w with
    | some w => pure (w.toInt : BigInt)
    | none => .error .panic : Except Thrown BigInt) = _
  rw [hv]
  exact congrArg Except.ok hvalue

end values

/-- The bindings and the helpers compute one bijection between the signed and the unsigned 64-bit
integers. Outside of the signed range both encoders refuse; outside of the unsigned range the
binding refuses what the helper reduces modulo `2 ^ 64`. -/
theorem zigzag_bindings_agree {getI64 : BigInt → Int64 × Bool}
    {getU64 : BigInt → Bool × UInt64 × Bool} (hgetI64 : GetI64Exact getI64)
    (hgetU64 : GetU64Exact getU64) :
    (∀ v : ℤ, -2 ^ 63 ≤ v → v < 2 ^ 63 → ∃ w, 0 ≤ w ∧ w < 2 ^ 64 ∧
      zigzagEncode getI64 v = .ok w ∧ Js.fromSint64 v = .ok w ∧
      zigzagDecode getU64 w = .ok v ∧ Js.asSint64 w = v) ∧
    (∀ w : ℤ, 0 ≤ w → w < 2 ^ 64 → ∃ v, -2 ^ 63 ≤ v ∧ v < 2 ^ 63 ∧
      zigzagDecode getU64 w = .ok v ∧ Js.asSint64 w = v ∧
      zigzagEncode getI64 v = .ok w ∧ Js.fromSint64 v = .ok w) ∧
    (∀ v : ℤ, ¬ (-2 ^ 63 ≤ v ∧ v < 2 ^ 63) →
      zigzagEncode getI64 v =
        .error (.napi (.fromReason "value out of range for i64 (must be -2^63..=2^63-1)")) ∧
      ∃ message, Js.fromSint64 v = .error (.rangeError message)) ∧
    (∀ w : ℤ, ¬ (0 ≤ w ∧ w < 2 ^ 64) →
      zigzagDecode getU64 w =
        .error (.napi (.fromReason "value out of range for u64 (must be 0..=2^64-1)")) ∧
      zigzagDecode getU64 (w % 2 ^ 64) = .ok (Js.asSint64 w)) := by
  have hdecode : ∀ w : ℤ, 0 ≤ w → w < 2 ^ 64 → zigzagDecode getU64 w = .ok (unzigzag w) := by
    intro w hlo hhi
    obtain ⟨u,rfl⟩ := exists_bigintFromU64 hlo hhi
    exact zigzagDecode_ok hgetU64 u
  have hread : ∀ w : ℤ, 0 ≤ w → w < 2 ^ 64 → Js.asSint64 w = unzigzag w := by
    intro w hlo hhi
    have hword : w % 18446744073709551616 = w := Int.emod_eq_of_lt hlo hhi
    rw [Js.asSint64_eq,hword]
  have hwrite : ∀ v : ℤ, -2 ^ 63 ≤ v → v < 2 ^ 63 → Js.fromSint64 v = .ok (zigzag v) := by
    intro v hlo hhi
    exact Js.fromSint64_ok ⟨by omega,by omega⟩
  refine ⟨?_,?_,?_,?_⟩
  · intro v hlo hhi
    have hw := zigzag_nonneg v
    have hw' : zigzag v < 2 ^ 64 := zigzag_lt_iff (m := 2 ^ 63) |>.mpr ⟨hlo,hhi⟩
    refine ⟨zigzag v,hw,hw',zigzagEncode_ok hgetI64 hlo hhi,hwrite v hlo hhi,?_,?_⟩
    · rw [hdecode _ hw hw',unzigzag_zigzag]
    · rw [hread _ hw hw',unzigzag_zigzag]
  · intro w hlo hhi
    have hzigzag := zigzag_unzigzag hlo
    obtain ⟨hlo',hhi'⟩ := zigzag_lt_iff (m := 2 ^ 63) |>.mp (hzigzag.trans_lt hhi)
    refine ⟨unzigzag w,hlo',hhi',hdecode w hlo hhi,hread w hlo hhi,?_,?_⟩
    · rw [zigzagEncode_ok hgetI64 hlo' hhi',hzigzag]
    · rw [hwrite _ hlo' hhi',hzigzag]
  · intro v hv
    refine ⟨zigzagEncode_error hgetI64 hv,_,Js.fromZigZag_error ?_ 63 Js.U64_MASK⟩
    intro hrange
    exact hv ⟨hrange.1,Int.lt_of_le_sub_one hrange.2⟩
  · intro w hw
    have hlo := Int.emod_nonneg w (show (2 ^ 64 : ℤ) ≠ 0 by norm_num)
    have hhi := Int.emod_lt_of_pos w (show (0 : ℤ) < 2 ^ 64 by norm_num)
    constructor
    · rw [zigzagDecode,bigintToU64_error hgetU64 hw]
      rfl
    · rw [hdecode _ hlo hhi,Js.asSint64_eq]
      rfl

/-- The low word of a bigint, and whether it is all of it. -/
def signedLowWord (b : BigInt) : Int64 × Bool :=
  (Int64.ofInt b,decide (-2 ^ 63 ≤ b ∧ b < 2 ^ 63))

lemma signedLowWord_exact : GetI64Exact signedLowWord where
  lossless b := by simp [signedLowWord]
  value b hlo hhi := Int64.toInt_ofInt_of_le hlo hhi

theorem zigzag_bindings_agree_example :
    ∃ w, zigzagEncode signedLowWord (-3) = .ok w ∧ Js.fromSint64 (-3) = .ok w ∧
      zigzagDecode signedWord w = .ok (-3) := by
  obtain ⟨w,-,-,henc,hfrom,hdec,-⟩ :=
    (zigzag_bindings_agree signedLowWord_exact signedWord_exact).1 (-3) (by decide) (by decide)
  exact ⟨w,henc,hfrom,hdec⟩

end Native
end SignalisCodec
