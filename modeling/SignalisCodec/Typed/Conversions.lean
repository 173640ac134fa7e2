import SignalisCodec.Theory.TwosComplement
import SignalisCodec.Typed.Helpers

/-! What the helpers compute: residues of the raw value, read as signed, unsigned or ZigZag. -/
namespace SignalisCodec.Js
open TwosComplement

section host

/-- Numbers below 2 ^ 53 are exact. -/
lemma toNumber_of_lt {v : ℤ} (h : v.natAbs < 9007199254740992) : toNumber v = v := by
  have hlog : v.natAbs.log2 - 52 = 0 := by
    by_cases h0 : v.natAbs = 0
    · rw [h0]
      decide
    · have := (Nat.log2_lt h0).mpr (show v.natAbs < 2 ^ 53 from h)
      omega
  unfold toNumber
  simp [hlog,Nat.mod_one,Int.sign_mul_abs]

example : toNumber 9007199254740993 = 9007199254740992 := by decide +kernel

end host

section range
variable {value min max : ℤ} {type : String}

lemma checkRange_ok (h : min ≤ value ∧ value ≤ max) : checkRange value min max type = .ok () :=
  if_neg (not_or.mpr ⟨not_lt.mpr h.1,not_lt.mpr h.2⟩)

lemma checkRange_error (h : ¬ (min ≤ value ∧ value ≤ max)) :
    checkRange value min max type = .error (outOfRange value min max type) :=
  if_pos ((not_and_or.mp h).imp not_le.mp not_le.mp)

end range

/-- The values of a type are the integers from `lo` to `hi`. -/
def Between (lo hi v : ℤ) : Prop := lo ≤ v ∧ v ≤ hi

section words

lemma bmod32_between (v : ℤ) : Between (-2147483648) 2147483647 (v.bmod 4294967296) :=
  ⟨Int.le_bmod (by decide),Int.le_sub_one_of_lt (Int.bmod_lt (by decide))⟩

lemma bmod32 {v : ℤ} (h : Between (-2147483648) 2147483647 v) : v.bmod 4294967296 = v := by
  obtain ⟨hlo,hhi⟩ := h
  exact Int.bmod_eq_of_le (by omega) (by omega)

lemma bmod64 {v : ℤ} (h : Between (-9223372036854775808) 9223372036854775807 v) :
    v.bmod 18446744073709551616 = v := by
  obtain ⟨hlo,hhi⟩ := h
  exact Int.bmod_eq_of_le (by omega) (by omega)

end words

section reading
variable (raw : ℤ)

lemma land_u64 : Int.land raw U64_MASK = raw % 18446744073709551616 := land_mask raw 64

lemma land_u32 : Int.land raw U32_MASK = raw % 4294967296 := land_mask raw 32

/-- Reading the sign bit is the balanced residue. -/
lemma asSigned_eq {mask : ℤ} {m : ℕ} (hmask : Int.land raw mask = raw % (2 * m)) :
    asSigned mask m (2 * m) raw = raw.bmod (2 * m) := by
  rw [asSigned,hmask,bmod_eq_ite]

lemma asZigZag_eq {mask modulus : ℤ} (hmask : Int.land raw mask = raw % modulus) :
    asZigZag mask raw = unzigzag (raw % modulus) := by
  rw [asZigZag,hmask,bigShr,pow_one]
  exact xor_parity_word _

lemma asInt64_eq : asInt64 raw = raw.bmod 18446744073709551616 :=
  asSigned_eq raw (m := 9223372036854775808) (land_u64 raw)

lemma asInt32_eq : asInt32 raw = raw.bmod 4294967296 := by
  have hsigned : asSigned U32_MASK 0x80000000 0x100000000 raw = raw.bmod 4294967296 :=
    asSigned_eq raw (m := 2147483648) (land_u32 raw)
  obtain ⟨hlo,hhi⟩ := bmod32_between raw
  rw [asInt32,hsigned]
  exact toNumber_of_lt (by omega)

lemma asUint64_eq : asUint64 raw = raw % 18446744073709551616 := land_u64 raw

lemma asUint32_eq : asUint32 raw = raw % 4294967296 := by
  rw [asUint32,land_u32]
  exact toNumber_of_lt (by omega)

lemma asSint64_eq : asSint64 raw = unzigzag (raw % 18446744073709551616) :=
  asZigZag_eq raw (land_u64 raw)

lemma asSint32_eq : asSint32 raw = unzigzag (raw % 4294967296) := by
  have hzigzag := asZigZag_eq raw (land_u32 raw)
  rw [asSint32,hzigzag]
  apply toNumber_of_lt
  unfold unzigzag
  split <;> omega

lemma asFixed32_eq : asFixed32 raw = raw % 4294967296 := by
  change raw % 4294967296 / 2 ^ 0 = _
  rw [pow_zero,Int.ediv_one]

lemma asSfixed32_eq : asSfixed32 raw = raw.bmod 4294967296 := lor_zero _

end reading

section writing
variable {value min max : ℤ} {type : String}

lemma fromSigned_ok (h : min ≤ value ∧ value ≤ max) :
    fromSigned min max type value = .ok (value % 18446744073709551616) := by
  rw [fromSigned,checkRange_ok h,land_u64]
  rfl

lemma fromUnsigned_ok (h : 0 ≤ value ∧ value ≤ max) :
    fromUnsigned max type value = .ok value := by
  rw [fromUnsigned,checkRange_ok h]
  rfl

/-- In range, the mask takes nothing off the ZigZag word. -/
lemma fromZigZag_ok {n : ℕ} {mask : ℤ}
    (hmask : ∀ v, Int.land v mask = v % (2 * 2 ^ n)) (h : -2 ^ n ≤ value ∧ value ≤ 2 ^ n - 1) :
    fromZigZag (-2 ^ n) (2 ^ n - 1) type n mask value = .ok (zigzag value) := by
  have hlt : value < 2 ^ n := by omega
  have hword : Int.xor (bigShl value 1) (bigShr value n) = zigzag value := by
    rw [bigShl,bigShr,pow_one]
    exact xor_sign_word h.1 hlt
  rw [fromZigZag,checkRange_ok h,hword,hmask,
    Int.emod_eq_of_lt (zigzag_nonneg value) (zigzag_lt_iff.mpr ⟨h.1,hlt⟩)]
  rfl

end writing

section refusing
variable {value min max : ℤ} {type : String} (h : ¬ (min ≤ value ∧ value ≤ max))
include h

/-- Each error names the value, the type and its range. -/
lemma fromSigned_error :
    fromSigned min max type value = .error (outOfRange value min max type) := by
  rw [fromSigned,checkRange_error h]
  rfl

lemma fromUnsigned_error (hmin : min = 0) :
    fromUnsigned max type value = .error (outOfRange value 0 max type) := by
  subst hmin
  rw [fromUnsigned,checkRange_error h]
  rfl

lemma fromZigZag_error (n : ℕ) (mask : ℤ) :
    fromZigZag min max type n mask value = .error (outOfRange value min max type) := by
  rw [fromZigZag,checkRange_error h]
  rfl

end refusing

/-- The writer takes the values of a type to raw values up to `bound`, which the reader takes back,
and refuses all others with a `RangeError`. -/
structure Converts {α : Type} (InRange : α → Prop) (bound : ℤ) (write : α → Except Exception ℤ)
    (read : ℤ → α) : Prop where
  accepts {v : α} (h : InRange v) :
    ∃ raw, write v = .ok raw ∧ 0 ≤ raw ∧ raw ≤ bound ∧ read raw = v
  refuses {v : α} (h : ¬ InRange v) : ∃ message, write v = .error (.rangeError message)

section converts

lemma converts_int32 :
    Converts (Between (-2147483648) 2147483647) 18446744073709551615 fromInt32 asInt32 where
  accepts {v} h := by
    obtain ⟨hlo,hhi⟩ := emod_bounds v (m := 18446744073709551616) (by decide)
    refine ⟨_,fromSigned_ok h,hlo,hhi,?_⟩
    rw [asInt32_eq]
    exact (bmod_emod v (m := 18446744073709551616) (by decide)).trans (bmod32 h)
  refuses h := ⟨_,fromSigned_error h⟩

lemma converts_signed64 (type : String) : Converts (Between (-9223372036854775808)
    9223372036854775807) 18446744073709551615 (fromSigned I64_MIN I64_MAX type) asInt64 where
  accepts {v} h := by
    obtain ⟨hlo,hhi⟩ := emod_bounds v (m := 18446744073709551616) (by decide)
    refine ⟨_,fromSigned_ok h,hlo,hhi,?_⟩
    rw [asInt64_eq]
    exact (bmod_emod v (m := 18446744073709551616) (by decide)).trans (bmod64 h)
  refuses h := ⟨_,fromSigned_error h⟩

lemma converts_int64 : Converts (Between (-9223372036854775808) 9223372036854775807)
    18446744073709551615 fromInt64 asInt64 :=
  converts_signed64 "int64"

lemma converts_sfixed64 : Converts (Between (-9223372036854775808) 9223372036854775807)
    18446744073709551615 fromSfixed64 asSfixed64 :=
  converts_signed64 "sfixed64"

lemma converts_uint32 :
    Converts (Between 0 4294967295) 18446744073709551615 fromUint32 asUint32 where
  accepts {v} h := by
    refine ⟨v,fromUnsigned_ok h,h.1,h.2.trans (by decide),?_⟩
    rw [asUint32_eq]
    exact Int.emod_eq_of_lt h.1 (Int.lt_of_le_sub_one h.2)
  refuses h := ⟨_,fromUnsigned_error h rfl⟩

lemma converts_unsigned64 (type : String) : Converts (Between 0 18446744073709551615)
    18446744073709551615 (fromUnsigned U64_MAX type) asUint64 where
  accepts {v} h := by
    refine ⟨v,fromUnsigned_ok h,h.1,h.2,?_⟩
    rw [asUint64_eq]
    exact Int.emod_eq_of_lt h.1 (Int.lt_of_le_sub_one h.2)
  refuses h := ⟨_,fromUnsigned_error h rfl⟩

lemma converts_uint64 :
    Converts (Between 0 18446744073709551615) 18446744073709551615 fromUint64 asUint64 :=
  converts_unsigned64 "uint64"

lemma converts_fixed64 :
    Converts (Between 0 18446744073709551615) 18446744073709551615 fromFixed64 asFixed64 :=
  converts_unsigned64 "fixed64"

lemma fromSint32_ok {v : ℤ} (h : Between (-2147483648) 2147483647 v) :
    fromSint32 v = .ok (zigzag v) :=
  fromZigZag_ok (n := 31) land_u32 h

lemma fromSint64_ok {v : ℤ} (h : Between (-9223372036854775808) 9223372036854775807 v) :
    fromSint64 v = .ok (zigzag v) :=
  fromZigZag_ok (n := 63) land_u64 h

lemma zigzag32_lt {v : ℤ} (h : Between (-2147483648) 2147483647 v) : zigzag v < 4294967296 :=
  zigzag_lt_iff (m := 2147483648).mpr ⟨h.1,Int.lt_of_le_sub_one h.2⟩

lemma zigzag64_lt {v : ℤ} (h : Between (-9223372036854775808) 9223372036854775807 v) :
    zigzag v < 18446744073709551616 :=
  zigzag_lt_iff (m := 9223372036854775808).mpr ⟨h.1,Int.lt_of_le_sub_one h.2⟩

lemma converts_sint32 :
    Converts (Between (-2147483648) 2147483647) 18446744073709551615 fromSint32 asSint32 where
  accepts {v} h := by
    have hlt := zigzag32_lt h
    refine ⟨_,fromSint32_ok h,zigzag_nonneg v,by linarith,?_⟩
    rw [asSint32_eq,Int.emod_eq_of_lt (zigzag_nonneg v) hlt,unzigzag_zigzag]
  refuses h := ⟨_,fromZigZag_error h 31 U32_MASK⟩

lemma converts_sint64 : Converts (Between (-9223372036854775808) 9223372036854775807)
    18446744073709551615 fromSint64 asSint64 where
  accepts {v} h := by
    have hlt := zigzag64_lt h
    refine ⟨_,fromSint64_ok h,zigzag_nonneg v,by linarith,?_⟩
    rw [asSint64_eq,Int.emod_eq_of_lt (zigzag_nonneg v) hlt,unzigzag_zigzag]
  refuses h := ⟨_,fromZigZag_error h 63 U64_MASK⟩

lemma converts_bool : Converts (fun _ => True) 18446744073709551615
    (fun value => .ok (fromBool value)) asBool where
  accepts {v} _ := by
    refine ⟨_,rfl,?_⟩
    cases v <;> decide
  refuses h := absurd trivial h

lemma converts_enum :
    Converts (Between (-2147483648) 2147483647) 18446744073709551615 fromEnum asEnum :=
  converts_int32

lemma converts_fixed32 :
    Converts (Between 0 4294967295) 4294967295 fromFixed32 asFixed32 where
  accepts {v} h := by
    obtain ⟨hlo,hhi⟩ := h
    refine ⟨v,?_,hlo,hhi,?_⟩
    · have hcheck : checkRange v 0 U32_MAX "fixed32" = .ok () := checkRange_ok ⟨hlo,hhi⟩
      have hexact : toNumber v = v := toNumber_of_lt (by omega)
      rw [fromFixed32,toBigInt,hcheck,hexact]
      rfl
    · rw [asFixed32_eq]
      exact Int.emod_eq_of_lt hlo (Int.lt_of_le_sub_one hhi)
  refuses {v} h := by
    have hcheck : checkRange v 0 U32_MAX "fixed32" = .error _ := checkRange_error h
    have herror : fromFixed32 v = .error (outOfRange v 0 U32_MAX "fixed32") := by
      rw [fromFixed32,toBigInt,hcheck]
      rfl
    exact ⟨_,herror⟩

lemma converts_sfixed32 :
    Converts (Between (-2147483648) 2147483647) 4294967295 fromSfixed32 asSfixed32 where
  accepts {v} h := by
    obtain ⟨hlo,hhi⟩ := emod_bounds v (m := 4294967296) (by decide)
    refine ⟨v % 4294967296,?_,hlo,hhi,?_⟩
    · have hcheck : checkRange v I32_MIN I32_MAX "sfixed32" = .ok () := checkRange_ok h
      have hexact : toNumber (v % 4294967296) = v % 4294967296 := toNumber_of_lt (by omega)
      rw [fromSfixed32,toBigInt,hcheck,land_u32,hexact]
      rfl
    · rw [asSfixed32_eq]
      exact (bmod_emod v (m := 4294967296) (by decide)).trans (bmod32 h)
  refuses {v} h := by
    have hcheck : checkRange v I32_MIN I32_MAX "sfixed32" = .error _ := checkRange_error h
    have herror : fromSfixed32 v = .error (outOfRange v I32_MIN I32_MAX "sfixed32") := by
      rw [fromSfixed32,toBigInt,hcheck]
      rfl
    exact ⟨_,herror⟩

end converts
end SignalisCodec.Js
