import SignalisCodec.Core.ZigZag
import SignalisCodec.Typed.Conversions

/-! ZigZag on machine words and on bigints is one bijection between the signed and the unsigned
64-bit integers. -/
namespace SignalisCodec
open TwosComplement

section encode
variable (v : Int64)

lemma sign_word_toInt : (v >>> 63).toInt = v.toInt / 2 ^ 63 := by
  have hamount : (63 : Int64).toBitVec.smod 64 = 63#64 := by decide
  change (v >>> 63).toBitVec.toInt = _
  rw [Int64.toBitVec_shiftRight,hamount,BitVec.sshiftRight_eq',BitVec.toInt_sshiftRight,
    Int.shiftRight_eq_div_pow]
  rfl

/-- The arithmetic shift fills the word with its sign. -/
lemma sign_word : v >>> 63 = if 0 ≤ v.toInt then 0 else -1 := by
  apply Int64.toInt_inj.mp
  rw [sign_word_toInt,div_sign v.le_toInt v.toInt_lt]
  split <;> rfl

lemma doubled_toNat : (v <<< 1).toBitVec.toNat = 2 * v.toBitVec.toNat % 2 ^ 64 := by
  have hamount : (1 : Int64).toBitVec.smod 64 = 1#64 := by decide
  rw [Int64.toBitVec_shiftLeft,hamount]
  simp [BitVec.toNat_shiftLeft,Nat.shiftLeft_eq,Nat.mul_comm]

theorem zigzagEncode_toNat : ((zigzagEncode v).toNat : ℤ) = zigzag v.toInt := by
  have hword := doubled_toNat v
  have hsigned : v.toInt = if 2 * v.toBitVec.toNat < 2 ^ 64 then (v.toBitVec.toNat : ℤ)
      else v.toBitVec.toNat - 2 ^ 64 := BitVec.toInt_eq_toNat_cond _
  have hlt := v.toBitVec.isLt
  unfold zigzagEncode zigzag
  rw [sign_word]
  by_cases h : 0 ≤ v.toInt
  · rw [if_pos h,if_pos h,Int64.xor_zero]
    change ((v <<< 1).toBitVec.toNat : ℤ) = _
    rw [hword]
    omega
  · rw [if_neg h,if_neg h,Int64.xor_neg_one]
    change ((~~~(v <<< 1)).toBitVec.toNat : ℤ) = _
    rw [Int64.toBitVec_not,BitVec.toNat_not,hword]
    omega

end encode

section decode
variable (w : UInt64)

lemma low_bit : w &&& 1 = if (w.toNat : ℤ) % 2 = 0 then 0 else 1 := by
  apply UInt64.toNat_inj.mp
  rw [UInt64.toNat_and]
  change w.toNat &&& 1 = _
  rw [Nat.and_one_is_mod]
  split
  · change _ = 0
    omega
  · change _ = 1
    omega

lemma halved_toInt : (w >>> 1).toInt64.toInt = w.toNat / 2 := by
  have hlt := w.toNat_lt
  have hnat : (w >>> 1).toInt64.toBitVec.toNat = w.toNat / 2 := by
    change (w >>> 1).toNat = _
    simp [UInt64.toNat_shiftRight,Nat.shiftRight_eq_div_pow]
  change (w >>> 1).toInt64.toBitVec.toInt = _
  rw [BitVec.toInt_eq_toNat_cond,hnat,if_pos (by omega)]
  exact Int.natCast_ediv _ _

/-- The negation does not overflow: the low bit is 0 or 1. -/
theorem zigzagDecode_toInt : ∃ v, zigzagDecode w = some v ∧ v.toInt = unzigzag w.toNat := by
  have hlt := w.toNat_lt
  have hhalf := halved_toInt w
  unfold zigzagDecode unzigzag
  rw [low_bit]
  by_cases h : (w.toNat : ℤ) % 2 = 0
  · rw [if_pos h,if_pos h]
    refine ⟨(w >>> 1).toInt64 ^^^ 0,rfl,?_⟩
    rw [Int64.xor_zero]
    exact hhalf
  · rw [if_neg h,if_neg h]
    refine ⟨(w >>> 1).toInt64 ^^^ -1,rfl,?_⟩
    rw [Int64.xor_neg_one,Int64.toInt_not,hhalf]
    exact Int.bmod_eq_of_le (by omega) (by omega)

end decode

lemma zigzagDecode_zigzagEncode (v : Int64) : zigzagDecode (zigzagEncode v) = some v := by
  obtain ⟨u,hu,hvalue⟩ := zigzagDecode_toInt (zigzagEncode v)
  rw [zigzagEncode_toNat,unzigzag_zigzag] at hvalue
  rw [hu,Int64.toInt_inj.mp hvalue]

lemma zigzagEncode_zigzagDecode (w : UInt64) : (zigzagDecode w).map zigzagEncode = some w := by
  obtain ⟨v,hv,hvalue⟩ := zigzagDecode_toInt w
  have hword := zigzagEncode_toNat v
  rw [hvalue,zigzag_unzigzag (Int.natCast_nonneg _)] at hword
  rw [hv]
  exact congrArg some (UInt64.toNat_inj.mp (Int.ofNat.inj hword))

/-- The two languages agree on ZigZag, in both directions and at both widths, and it is a bijection;
`2 * v` stands for `v`, and `-2 * v - 1` for a negative `v`. -/
theorem zigzag_agrees :
    (∀ v : Int64, Js.fromSint64 v.toInt = .ok (zigzagEncode v).toNat ∧
      ((zigzagEncode v).toNat : ℤ) = (if 0 ≤ v.toInt then 2 * v.toInt else -2 * v.toInt - 1) ∧
      (zigzagEncode v).toNat ≤ 18446744073709551615) ∧
    (∀ w : UInt64, ∃ v, zigzagDecode w = some v ∧ v.toInt = Js.asSint64 w.toNat) ∧
    (∀ v : Int64, zigzagDecode (zigzagEncode v) = some v) ∧
    (∀ w : UInt64, (zigzagDecode w).map zigzagEncode = some w) ∧
    (∀ v : Int32, Js.fromSint32 v.toInt = .ok (zigzagEncode v.toInt64).toNat ∧
      Js.asSint32 (zigzagEncode v.toInt64).toNat = v.toInt) := by
  refine ⟨?_,?_,zigzagDecode_zigzagEncode,zigzagEncode_zigzagDecode,?_⟩
  · intro v
    refine ⟨?_,zigzagEncode_toNat v,Nat.le_of_lt_succ (zigzagEncode v).toNat_lt⟩
    rw [zigzagEncode_toNat]
    exact Js.fromSint64_ok ⟨v.le_toInt,Int.le_sub_one_of_lt v.toInt_lt⟩
  · intro w
    obtain ⟨v,hv,hvalue⟩ := zigzagDecode_toInt w
    have hmod : (w.toNat : ℤ) % 18446744073709551616 = w.toNat :=
      Int.emod_eq_of_lt (Int.natCast_nonneg _) (Int.ofNat_lt.mpr w.toNat_lt)
    refine ⟨v,hv,?_⟩
    rw [Js.asSint64_eq,hmod]
    exact hvalue
  · intro v
    have hrange : Js.Between (-2147483648) 2147483647 v.toInt :=
      ⟨v.le_toInt,Int.le_sub_one_of_lt v.toInt_lt⟩
    have hword : ((zigzagEncode v.toInt64).toNat : ℤ) = zigzag v.toInt := by
      rw [zigzagEncode_toNat,Int32.toInt_toInt64]
    rw [hword,Js.fromSint32_ok hrange,Js.asSint32_eq,
      Int.emod_eq_of_lt (zigzag_nonneg _) (Js.zigzag32_lt hrange),unzigzag_zigzag]
    exact ⟨rfl,rfl⟩

end SignalisCodec
