import SignalisCodec.Core.Wire

/-! Field keys as numbers: eight times the field number plus the three wire type bits. -/
namespace SignalisCodec

namespace WireType

lemma fromBits_toBits (wireType : WireType) (position : ℕ) :
    fromBits wireType.toBits position = .ok wireType := by
  cases wireType <;> rfl

lemma fromBits_ok_iff {bits : UInt8} {position : ℕ} {wireType : WireType} :
    fromBits bits position = .ok wireType ↔ bits = wireType.toBits := by
  constructor
  · intro h
    unfold fromBits at h
    split at h <;> cases h <;> rfl
  · rintro rfl
    exact fromBits_toBits wireType position

lemma toBits_lt (wireType : WireType) : wireType.toBits.toNat < 8 := by
  cases wireType <;> decide

lemma toBits_injective : Function.Injective toBits := by
  intro a b h
  cases a <;> cases b <;> first | rfl | cases h

end WireType

namespace FieldKey

lemma wireBits_toNat (key : UInt64) : (key &&& 0x07).toUInt8.toNat = key.toNat % 8 := by
  have hand : (key &&& 0x07).toNat = key.toNat % 8 := by
    rw [UInt64.toNat_and]
    exact Nat.and_two_pow_sub_one_eq_mod key.toNat 3
  rw [UInt64.toNat_toUInt8,hand]
  omega

lemma number_toNat (key : UInt64) : (key >>> 3).toUInt32.toNat = key.toNat / 8 % 2 ^ 32 := by
  rw [UInt64.toNat_toUInt32,UInt64.toNat_shiftRight,Nat.shiftRight_eq_div_pow]
  rfl

/-- The key as a number; eight field number values never collide in 35 bits. -/
lemma toVarint_toNat (k : FieldKey) :
    k.toVarint.toNat = 8 * k.fieldNumber.toNat + k.wireType.toBits.toNat := by
  have hn := k.fieldNumber.toNat_lt
  have hb := k.wireType.toBits_lt
  have hshift : (k.fieldNumber.toUInt64 <<< 3).toNat = 2 ^ 3 * k.fieldNumber.toNat := by
    rw [UInt64.toNat_shiftLeft,UInt32.toNat_toUInt64,Nat.shiftLeft_eq]
    simp only [UInt64.toNat_ofNat,Nat.reducePow,Nat.reduceMod]
    omega
  rw [toVarint,UInt64.toNat_or,hshift,UInt8.toNat_toUInt64,
    ← Nat.two_pow_add_eq_or_of_lt (i := 3) (by omega)]

lemma fromVarint_ok_iff {key : UInt64} {position : ℕ} {k : FieldKey} :
    fromVarint key position = .ok k ↔
      key.toNat % 8 = k.wireType.toBits.toNat ∧
      key.toNat / 8 % 2 ^ 32 = k.fieldNumber.toNat ∧ k.fieldNumber ≠ 0 := by
  rw [← wireBits_toNat,← number_toNat,UInt8.toNat_inj,UInt32.toNat_inj]
  unfold fromVarint
  constructor
  · intro h
    cases hbits : WireType.fromBits (key &&& 0x07).toUInt8 position with
    | error e =>
      rw [hbits] at h
      cases h
    | ok wireType =>
      rw [hbits] at h
      by_cases hzero : (key >>> 3).toUInt32 = 0
      · simp [hzero,bind,Except.bind,throw,throwThe,MonadExceptOf.throw] at h
      · simp only [bind,Except.bind,hzero,if_false,pure,Except.pure] at h
        cases h
        exact ⟨WireType.fromBits_ok_iff.mp hbits,rfl,hzero⟩
  · rintro ⟨hbits,hnumber,hzero⟩
    rw [hbits,WireType.fromBits_toBits,hnumber]
    simp [bind,Except.bind,hzero,pure,Except.pure]

lemma fromVarint_toVarint {k : FieldKey} (h : k.fieldNumber ≠ 0) (position : ℕ) :
    fromVarint k.toVarint position = .ok k := by
  have hn := k.fieldNumber.toNat_lt
  have hb := k.wireType.toBits_lt
  rw [fromVarint_ok_iff,toVarint_toNat]
  exact ⟨by omega,by omega,h⟩

/-- Whether a key is accepted does not depend on where it stands. -/
lemma fromVarint_position {key : UInt64} {p q : ℕ} {k : FieldKey}
    (h : fromVarint key p = .ok k) : fromVarint key q = .ok k :=
  fromVarint_ok_iff.mpr (fromVarint_ok_iff.mp h)

lemma fromVarint_le {key : UInt64} {p : ℕ} {k : FieldKey} (h : fromVarint key p = .ok k) :
    k.toVarint ≤ key := by
  obtain ⟨hbits,hnumber,-⟩ := fromVarint_ok_iff.mp h
  rw [UInt64.le_iff_toNat_le,toVarint_toNat,← hbits,← hnumber]
  have := Nat.mod_le (key.toNat / 8) (2 ^ 32)
  omega

section whole
variable {key : UInt64} {position : ℕ} {k : FieldKey}

lemma number_eq_shift_iff (h : fromVarint key position = .ok k) :
    k.fieldNumber.toUInt64 = key >>> 3 ↔ key.toNat < 2 ^ 35 := by
  obtain ⟨-,hnumber,-⟩ := fromVarint_ok_iff.mp h
  have hshift : (key >>> 3).toNat = key.toNat / 8 := by
    rw [UInt64.toNat_shiftRight,Nat.shiftRight_eq_div_pow]
    rfl
  rw [← UInt64.toNat_inj,UInt32.toNat_toUInt64,hshift,← hnumber]
  constructor
  · intro heq
    have := Nat.mod_lt (key.toNat / 8) (show 0 < 2 ^ 32 by decide)
    omega
  · intro hlt
    exact Nat.mod_eq_of_lt (by omega)

/-- An accepted key is the encoding of what it was decoded to if it has at most 35 bits. -/
lemma toVarint_eq_iff (h : fromVarint key position = .ok k) :
    k.toVarint = key ↔ key.toNat < 2 ^ 35 := by
  obtain ⟨hbits,hnumber,-⟩ := fromVarint_ok_iff.mp h
  rw [← UInt64.toNat_inj,toVarint_toNat,← hbits,← hnumber]
  have := Nat.mod_lt (key.toNat / 8) (show 0 < 2 ^ 32 by decide)
  constructor
  · intro heq
    omega
  · intro hlt
    rw [Nat.mod_eq_of_lt (show key.toNat / 8 < 2 ^ 32 by omega)]
    omega

end whole

lemma fromVarint_error {key : UInt64} {p : ℕ} {e : DecodeError}
    (h : fromVarint key p = .error e) : (Failure.err e).IsMalformed := by
  unfold fromVarint WireType.fromBits at h
  split at h <;> simp only [bind,Except.bind,pure,Except.pure,throw,throwThe,
    MonadExceptOf.throw] at h
  all_goals first
    | (cases h; trivial)
    | (split at h <;> cases h; trivial)

end FieldKey

lemma lengthFromVarint_eq (len : UInt64) (position : ℕ) :
    lengthFromVarint len position = .ok len.toNat := by
  have := len.toNat_lt
  exact if_pos (by unfold USIZE_MAX; omega)

end SignalisCodec
