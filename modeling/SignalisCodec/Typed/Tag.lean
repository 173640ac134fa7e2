import SignalisCodec.Typed.PackedExact

/-! The tag that JavaScript computes on signed 32-bit numbers, against the key of the encoder. They
part where the field number reaches the sign bit. -/
namespace SignalisCodec.Js
open TwosComplement

section value
variable {n w : ℤ}

/-- The shifted number keeps its three low bits free, also where it turns negative. -/
lemma exists_shifted (hlo : 0 ≤ n) (hhi : n ≤ 536870911) (hw : 0 ≤ w ∧ w < 8) :
    ∃ m : ℤ, (n * 2 ^ 3).bmod 4294967296 = m * 2 ^ 3 ∧
      m * 2 ^ 3 + w = (8 * n + w).bmod 4294967296 := by
  by_cases h : n ≤ 268435455
  · refine ⟨n,Int.bmod_eq_of_le (by omega) (by omega),?_⟩
    rw [Int.bmod_eq_of_le (by omega) (by omega)]
    ring
  · refine ⟨n - 536870912,?_,?_⟩
    · rw [Int.bmod_def]
      split <;> omega
    · rw [Int.bmod_def]
      split <;> omega

/-- Shift and or on 32-bit numbers: the tag is the balanced residue of the key. -/
theorem fieldKey_eq (hlo : 0 ≤ n) (hhi : n ≤ 536870911) (hw : 0 ≤ w ∧ w < 8) :
    fieldKey n w = (8 * n + w).bmod 4294967296 := by
  have hn : toInt32 n = n := Int.bmod_eq_of_le (by omega) (by omega)
  have hwt : toInt32 w = w := Int.bmod_eq_of_le (by omega) (by omega)
  obtain ⟨m,hm,hsum⟩ := exists_shifted hlo hhi hw
  have hshift : numShl n 3 = m * 2 ^ 3 := by
    rw [numShl,hn]
    exact hm
  have hstay : toInt32 (m * 2 ^ 3) = m * 2 ^ 3 := by
    rw [← hm]
    exact Int.bmod_bmod
  rw [fieldKey,numOr,hshift,hstay,hwt,lor_shifted m hw.1 hw.2]
  exact hsum

lemma fieldKey_nonneg_iff (hlo : 0 ≤ n) (hhi : n ≤ 536870911) (hw : 0 ≤ w ∧ w < 8) :
    0 ≤ fieldKey n w ↔ n ≤ 268435455 := by
  rw [fieldKey_eq hlo hhi hw]
  change (0 : ℤ) ≤ (8 * n + w).bmod 4294967296 ↔ n ≤ 268435455
  rw [Int.bmod_def]
  split <;> omega

lemma fieldKey_of_le (hlo : 0 ≤ n) (hhi : n ≤ 268435455) (hw : 0 ≤ w ∧ w < 8) :
    fieldKey n w = 8 * n + w := by
  rw [fieldKey_eq hlo (by omega) hw]
  exact Int.bmod_eq_of_le (by omega) (by omega)

end value

/-- The tag is the encoder's key: the same number, packed to the bytes that stand in front of such
a field, and read back as its number and wire type. -/
structure TagAgrees (getU64 : BigInt → Bool × UInt64 × Bool) (n : UInt32) (wt : WireType) :
    Prop where
  equal : fieldKey n.toNat wt.toBits.toNat = (FieldKey.toVarint ⟨n,wt⟩).toNat
  nonneg : 0 ≤ fieldKey n.toNat wt.toBits.toNat
  packed : ∃ key, packVarints getU64 [toBigInt (fieldKey n.toNat wt.toBits.toNat)] = .ok key ∧
    key.bytes = (Encoder.new.writeKey n wt).finish ∧
    ∀ (f : FieldInput) out, f.fieldNumber = n → f.wireType = wt.toBits.toUInt32 →
      encodeFieldsJs getU64 [f] = .ok out → key.bytes <+: out.bytes
  read : ∃ v, bigintToU64 getU64 (toBigInt (fieldKey n.toNat wt.toBits.toNat)) = .ok v ∧
    ∀ position, FieldKey.fromVarint v position = .ok ⟨n,wt⟩

section tag
variable {getU64 : BigInt → Bool × UInt64 × Bool} {n : UInt32} {wt : WireType}

lemma toDecoded_wireType (field : Field) :
    field.toDecoded.wireType = (Payload.canonical field.value).wireType.toBits.toUInt32 := by
  obtain ⟨number,value⟩ := field
  cases value <;> rfl

lemma toBits_toUInt32_injective : Function.Injective fun wt : WireType => wt.toBits.toUInt32 := by
  intro a b h
  cases a <;> cases b <;> first | rfl | cases h

/-- The output of the encoder starts with the key of its first field. -/
lemma key_prefix (h64 : GetU64Exact getU64) {f : FieldInput} {out : Slice}
    (hnumber : f.fieldNumber = n) (hwire : f.wireType = wt.toBits.toUInt32)
    (hout : encodeFieldsJs getU64 [f] = .ok out) :
    (Varint.shortest (FieldKey.toVarint ⟨n,wt⟩)).bytes <+: out.bytes := by
  obtain ⟨fields,hstands,hbytes⟩ := (encodeFieldsJs_ok_iff h64).mp hout
  cases hstands with
  | @cons _ field _ rest hhead hrest =>
    have hn : field.fieldNumber = n := by
      rw [← toDecoded_fieldNumber,← hhead.2]
      exact hnumber
    have hwt : (Payload.canonical field.value).wireType = wt := by
      apply toBits_toUInt32_injective
      have hsame := toDecoded_wireType field
      rw [← hhead.2] at hsame
      exact hsame.symm.trans hwire
    change out.bytes = (Encoder.new.writeFields (field :: rest)).buf at hbytes
    rw [Encoder.writeFields_wire,List.flatMap_cons,Field.wire,hn,hwt] at hbytes
    rw [hbytes]
    simp [Encoder.new]

lemma toBigInt_eq {x : Number} {v : UInt64} (h : x = v.toNat) : toBigInt x = bigintFromU64 v := h

/-- Below the sign bit the tag packs to the bytes of the key. -/
lemma tagAgrees_of_le (h64 : GetU64Exact getU64) (hlo : 1 ≤ n.toNat) (hhi : n.toNat ≤ 268435455) :
    TagAgrees getU64 n wt := by
  have hw := wt.toBits_lt
  have hequal : fieldKey n.toNat wt.toBits.toNat = (FieldKey.toVarint ⟨n,wt⟩).toNat := by
    rw [fieldKey_of_le (by omega) (by omega) ⟨by omega,by omega⟩,FieldKey.toVarint_toNat]
    push_cast
    rfl
  have hbigint : toBigInt (fieldKey n.toNat wt.toBits.toNat) =
      bigintFromU64 (FieldKey.toVarint ⟨n,wt⟩) := toBigInt_eq hequal
  have hkey := packVarints_eq [FieldKey.toVarint ⟨n,wt⟩]
  rw [List.flatMap_singleton] at hkey
  have hfits : (SignalisCodec.packVarints [FieldKey.toVarint ⟨n,wt⟩]).length ≤ ISIZE_MAX := by
    have hlen := packVarints_length_le [FieldKey.toVarint ⟨n,wt⟩]
    rw [List.length_singleton] at hlen
    exact hlen.trans (by decide)
  have hne : n ≠ 0 := by
    rintro rfl
    exact absurd hlo (by decide)
  refine ⟨hequal,?_,⟨⟨_,hfits⟩,?_,?_,?_⟩,FieldKey.toVarint ⟨n,wt⟩,?_,?_⟩
  · rw [hequal]
    exact Int.natCast_nonneg _
  · rw [hbigint,packVarints,packVarintsJs]
    have hpack := packBigInts_ok h64 hfits
    rw [List.map_singleton] at hpack
    rw [hpack]
    rfl
  · change SignalisCodec.packVarints _ = _
    rw [hkey,Encoder.finish,Encoder.writeKey_buf]
    rfl
  · intro f out hnumber hwire hout
    change SignalisCodec.packVarints _ <+: _
    rw [hkey]
    exact key_prefix h64 hnumber hwire hout
  · rw [hbigint]
    exact (bigintToU64_ok_iff h64).mpr rfl
  · exact FieldKey.fromVarint_toVarint hne

end tag

/-- Of the legal field numbers, exactly those below `2 ^ 28` have a tag that agrees. -/
theorem fieldKey_agrees_iff {getU64 : BigInt → Bool × UInt64 × Bool} (h64 : GetU64Exact getU64)
    (n : UInt32) (wt : WireType) (hlo : 1 ≤ n.toNat) (hhi : n.toNat ≤ 536870911) :
    TagAgrees getU64 n wt ↔ n.toNat ≤ 268435455 := by
  have hw := wt.toBits_lt
  constructor
  · intro h
    have := (fieldKey_nonneg_iff (by omega) (by omega) ⟨by omega,by omega⟩).mp h.nonneg
    omega
  · exact tagAgrees_of_le h64 hlo

theorem fieldKey_agrees_iff_example : TagAgrees signedWord 3 .lengthDelimited :=
  (fieldKey_agrees_iff signedWord_exact 3 .lengthDelimited (by decide) (by decide)).mpr (by decide)

/-- The tag of field number `2 ^ 28` is `-2 ^ 31`. -/
theorem fieldKey_negative :
    ¬ ∀ (n : UInt32) (wt : WireType), 1 ≤ n.toNat → n.toNat ≤ 536870911 →
      fieldKey n.toNat wt.toBits.toNat = (FieldKey.toVarint ⟨n,wt⟩).toNat := by
  intro h
  have hequal := h 268435456 .varint (by decide) (by decide)
  revert hequal
  decide +kernel

end SignalisCodec.Js
