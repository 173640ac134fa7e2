import Mathlib.Data.Set.List
import SignalisCodec.Binding.EncoderChecks
import SignalisCodec.Grammar.Packing
import SignalisCodec.Typed.Conversions
import SignalisCodec.Typed.Packed

/-! Typed packed payloads: every list in range comes back, and every other list is refused. -/
namespace SignalisCodec.Js

/-- What the host documents of the conversion of a number to `u32`: exact in range. -/
structure GetU32Exact (getU32 : Number → UInt32) : Prop where
  value : ∀ x : ℤ, 0 ≤ x → x ≤ 4294967295 → ((getU32 x).toNat : ℤ) = x

/-- Any array of raw values up to `bound` is packed, and unpacked again. -/
def RoundTrips (bound : ℤ) (pack : List ℤ → Except Exception Slice)
    (unpack : Slice → Except Exception (List ℤ)) : Prop :=
  ∀ raws : List ℤ, raws.length ≤ 4294967295 → (∀ raw ∈ raws, 0 ≤ raw ∧ raw ≤ bound) →
    ∃ payload, pack raws = .ok payload ∧ unpack payload = .ok raws

section engine
variable {getU64 : BigInt → Bool × UInt64 × Bool} {getU32 : Number → UInt32}

lemma exists_words {raws : List ℤ} (h : ∀ raw ∈ raws, 0 ≤ raw ∧ raw ≤ 18446744073709551615) :
    ∃ words : List UInt64, words.map bigintFromU64 = raws := by
  change raws ∈ Set.range (List.map bigintFromU64)
  rw [Set.range_list_map]
  intro raw hraw
  obtain ⟨hlo,hhi⟩ := h raw hraw
  obtain ⟨v,hv⟩ := exists_bigintFromU64 hlo (by omega)
  exact ⟨v,hv.symm⟩

/-- The range check of the addon lets every word through. -/
lemma mapM_bigintToU64 (h : GetU64Exact getU64) (words : List UInt64) :
    (words.map bigintFromU64).mapM (bigintToU64 getU64) = .ok words := by
  induction words with
  | nil => rfl
  | cons v words ih =>
    rw [List.map_cons,List.mapM_cons,(bigintToU64_ok_iff h).mpr rfl,ih]
    rfl

lemma packBigInts_ok (h : GetU64Exact getU64) {pack : List UInt64 → List UInt8}
    {words : List UInt64} (hfits : (pack words).length ≤ ISIZE_MAX) :
    packBigInts getU64 pack (words.map bigintFromU64) = .ok ⟨pack words,hfits⟩ := by
  rw [packBigInts,mapM_bigintToU64 h]
  exact dif_pos hfits

/-- A varint takes at most ten bytes. -/
lemma packVarints_length_le (words : List UInt64) :
    (SignalisCodec.packVarints words).length ≤ 10 * words.length := by
  rw [packVarints_eq]
  induction words with
  | nil => exact le_rfl
  | cons v words ih =>
    have hv := (Varint.shortest v).isVarint.length_le
    change _ ≤ 10 at hv
    rw [List.flatMap_cons,List.length_append,List.length_cons]
    omega

lemma packFixed_length {α : Type} {width : ℕ} {toLeBytes : α → List UInt8}
    {ofLeBytes : List UInt8 → α} (h : FixedWidth width toLeBytes ofLeBytes) (values : List α) :
    (packFixed toLeBytes values).length = values.length * width := by
  rw [packFixed_eq]
  exact Strided.length_flatMap_rows h.length_eq values

lemma fits_of_length_le {n k : ℕ} (hn : n ≤ 4294967295) (hk : k ≤ 10 * n) : k ≤ ISIZE_MAX := by
  simp only [ISIZE_MAX]
  omega

theorem packVarints_roundTrips (h : GetU64Exact getU64) :
    RoundTrips 18446744073709551615 (packVarints getU64) unpackVarints := by
  intro raws hlen hraws
  obtain ⟨words,rfl⟩ := exists_words hraws
  rw [List.length_map] at hlen
  have hfits := fits_of_length_le hlen (packVarints_length_le words)
  refine ⟨⟨_,hfits⟩,?_,?_⟩
  · rw [packVarints,packVarintsJs,packBigInts_ok h hfits]
    rfl
  · rw [unpackVarints,unpackVarintsJs,unpackVarints_packVarints rfl]
    rfl

theorem packFixed64_roundTrips (h : GetU64Exact getU64) :
    RoundTrips 18446744073709551615 (packFixed64 getU64) unpackFixed64 := by
  intro raws hlen hraws
  obtain ⟨words,rfl⟩ := exists_words hraws
  rw [List.length_map] at hlen
  have hsize := packFixed_length fixedWidth64 words
  have hfits : (SignalisCodec.packFixed64 words).length ≤ ISIZE_MAX := by
    apply fits_of_length_le hlen
    change (packFixed u64ToLeBytes words).length ≤ _
    omega
  refine ⟨⟨_,hfits⟩,?_,?_⟩
  · rw [packFixed64,packFixed64Js,packBigInts_ok h hfits]
    rfl
  · have hunpack : SignalisCodec.unpackFixed64 ⟨_,hfits⟩ = .ok words :=
      fixedWidth64.unpackFixed_ok_iff.mpr rfl
    rw [unpackFixed64,unpackFixed64Js,hunpack]
    rfl

theorem packFixed32_roundTrips (h : GetU32Exact getU32) :
    RoundTrips 4294967295 (packFixed32 getU32) unpackFixed32 := by
  intro raws hlen hraws
  have hsize := packFixed_length fixedWidth32 (raws.map getU32)
  rw [List.length_map] at hsize
  have hfits : (SignalisCodec.packFixed32 (raws.map getU32)).length ≤ ISIZE_MAX := by
    apply fits_of_length_le hlen
    change (packFixed u32ToLeBytes _).length ≤ _
    omega
  have hback : (raws.map getU32).map numberFromU32 = raws := by
    rw [List.map_map]
    refine (List.map_congr_left fun raw hraw => ?_).trans (List.map_id raws)
    exact h.value raw (hraws raw hraw).1 (hraws raw hraw).2
  refine ⟨⟨_,hfits⟩,?_,?_⟩
  · rw [packFixed32,packFixed32Js,toBuffer,dif_pos hfits]
    rfl
  · have hunpack : SignalisCodec.unpackFixed32 ⟨_,hfits⟩ = .ok (raws.map getU32) :=
      fixedWidth32.unpackFixed_ok_iff.mpr rfl
    rw [unpackFixed32,unpackFixed32Js,hunpack]
    exact congrArg Except.ok hback

end engine

section lists
variable {α : Type} {InRange : α → Prop} {bound : ℤ} {write : α → Except Exception ℤ}
  {read : ℤ → α}

/-- A list in range is written, and read back from its raw values. -/
lemma Converts.mapM_ok (h : Converts InRange bound write read) {vs : List α}
    (hvs : ∀ v ∈ vs, InRange v) :
    ∃ raws, vs.mapM write = .ok raws ∧ raws.map read = vs ∧
      ∀ raw ∈ raws, 0 ≤ raw ∧ raw ≤ bound := by
  induction vs with
  | nil => exact ⟨[],rfl,rfl,by simp⟩
  | cons v vs ih =>
    obtain ⟨raws,hwrite,hread,hraws⟩ := ih fun u hu => hvs u (by simp [hu])
    obtain ⟨raw,hraw,hlo,hhi,hback⟩ := h.accepts (hvs v (by simp))
    refine ⟨raw :: raws,?_,?_,?_⟩
    · rw [List.mapM_cons,hraw,hwrite]
      rfl
    · rw [List.map_cons,hback,hread]
    · simpa [hlo,hhi] using hraws

/-- The first element out of range stops the list. -/
lemma Converts.mapM_error (h : Converts InRange bound write read) {vs : List α}
    (hvs : ∃ v ∈ vs, ¬ InRange v) : ∃ message, vs.mapM write = .error (.rangeError message) := by
  induction vs with
  | nil => simp at hvs
  | cons v vs ih =>
    rw [List.mapM_cons]
    by_cases hv : InRange v
    · obtain ⟨raw,hraw,-⟩ := h.accepts hv
      obtain ⟨message,herror⟩ := ih (by simpa [hv] using hvs)
      rw [hraw,herror]
      exact ⟨message,rfl⟩
    · obtain ⟨message,herror⟩ := h.refuses hv
      rw [herror]
      exact ⟨message,rfl⟩

/-- A packed type is exact: lists in range come back, others are refused with a `RangeError`, and
what reaches the addon is in its range. -/
def PackedExact (InRange : α → Prop) (bound : ℤ) (write : α → Except Exception ℤ)
    (encode : JsArray α → Except Exception Slice)
    (decode : Slice → Except Exception (List α)) : Prop :=
  ∀ vs : JsArray α,
    ((∀ v ∈ vs.elems, InRange v) →
      ∃ payload, encode vs = .ok payload ∧ decode payload = .ok vs.elems) ∧
    ((∃ v ∈ vs.elems, ¬ InRange v) → ∃ message, encode vs = .error (.rangeError message)) ∧
    (∀ payload, encode vs = .ok payload →
      ∃ raws, vs.elems.mapM write = .ok raws ∧ ∀ raw ∈ raws, 0 ≤ raw ∧ raw ≤ bound)

theorem Converts.packedExact (h : Converts InRange bound write read)
    {pack : List ℤ → Except Exception Slice} {unpack : Slice → Except Exception (List ℤ)}
    (htrip : RoundTrips bound pack unpack) :
    PackedExact InRange bound write (encodePacked pack write) (decodePacked unpack read) := by
  intro vs
  refine ⟨?_,?_,?_⟩
  · intro hvs
    obtain ⟨raws,hwrite,hread,hraws⟩ := h.mapM_ok hvs
    have hlen : raws.length ≤ 4294967295 := by
      rw [← List.length_map read,hread]
      exact vs.length_le
    obtain ⟨payload,hpack,hunpack⟩ := htrip raws hlen hraws
    refine ⟨payload,?_,?_⟩
    · rw [encodePacked,hwrite]
      exact hpack
    · rw [decodePacked,hunpack]
      exact congrArg Except.ok hread
  · intro hvs
    obtain ⟨message,herror⟩ := h.mapM_error hvs
    refine ⟨message,?_⟩
    rw [encodePacked,herror]
    rfl
  · intro payload hok
    by_cases hvs : ∀ v ∈ vs.elems, InRange v
    · obtain ⟨raws,hwrite,-,hraws⟩ := h.mapM_ok hvs
      exact ⟨raws,hwrite,hraws⟩
    · push Not at hvs
      obtain ⟨message,herror⟩ := h.mapM_error hvs
      rw [encodePacked,herror] at hok
      cases hok

end lists

section types
variable {getU64 : BigInt → Bool × UInt64 × Bool} {getU32 : Number → UInt32}

/-- All integer types are exact. -/
theorem packed_types_exact (h64 : GetU64Exact getU64) (h32 : GetU32Exact getU32) :
    PackedExact (Between (-2147483648) 2147483647) 18446744073709551615
      fromInt32 (encodePackedInt32 getU64) decodePackedInt32 ∧
    PackedExact (Between (-9223372036854775808) 9223372036854775807) 18446744073709551615
      fromInt64 (encodePackedInt64 getU64) decodePackedInt64 ∧
    PackedExact (Between 0 4294967295) 18446744073709551615
      fromUint32 (encodePackedUint32 getU64) decodePackedUint32 ∧
    PackedExact (Between 0 18446744073709551615) 18446744073709551615
      fromUint64 (encodePackedUint64 getU64) decodePackedUint64 ∧
    PackedExact (Between (-2147483648) 2147483647) 18446744073709551615
      fromSint32 (encodePackedSint32 getU64) decodePackedSint32 ∧
    PackedExact (Between (-9223372036854775808) 9223372036854775807) 18446744073709551615
      fromSint64 (encodePackedSint64 getU64) decodePackedSint64 ∧
    PackedExact (fun _ => True) 18446744073709551615
      (fun value => .ok (fromBool value)) (encodePackedBool getU64) decodePackedBool ∧
    PackedExact (Between (-2147483648) 2147483647) 18446744073709551615
      fromEnum (encodePackedEnum getU64) decodePackedEnum ∧
    PackedExact (Between 0 4294967295) 4294967295
      fromFixed32 (encodePackedFixed32 getU32) decodePackedFixed32 ∧
    PackedExact (Between (-2147483648) 2147483647) 4294967295
      fromSfixed32 (encodePackedSfixed32 getU32) decodePackedSfixed32 ∧
    PackedExact (Between 0 18446744073709551615) 18446744073709551615
      fromFixed64 (encodePackedFixed64 getU64) decodePackedFixed64 ∧
    PackedExact (Between (-9223372036854775808) 9223372036854775807) 18446744073709551615
      fromSfixed64 (encodePackedSfixed64 getU64) decodePackedSfixed64 := by
  have hvarints := packVarints_roundTrips h64
  have hfixed64 := packFixed64_roundTrips h64
  have hfixed32 := packFixed32_roundTrips h32
  exact ⟨converts_int32.packedExact hvarints,converts_int64.packedExact hvarints,
    converts_uint32.packedExact hvarints,converts_uint64.packedExact hvarints,
    converts_sint32.packedExact hvarints,converts_sint64.packedExact hvarints,
    converts_bool.packedExact hvarints,converts_enum.packedExact hvarints,
    converts_fixed32.packedExact hfixed32,converts_sfixed32.packedExact hfixed32,
    converts_fixed64.packedExact hfixed64,converts_sfixed64.packedExact hfixed64⟩

end types

/-- The low 32 bits of a number. -/
def lowWord (x : Number) : UInt32 := UInt32.ofNat (x % 4294967296).toNat

lemma lowWord_exact : GetU32Exact lowWord where
  value x hlo hhi := by
    change ((UInt32.ofNat (x % 4294967296).toNat).toNat : ℤ) = x
    rw [UInt32.toNat_ofNat']
    omega

theorem packed_types_exact_example :
    ∃ payload, encodePackedSfixed32 lowWord ⟨[-1,2147483647],by decide⟩ = .ok payload ∧
      decodePackedSfixed32 payload = .ok [-1,2147483647] :=
  ((packed_types_exact signedWord_exact lowWord_exact).2.2.2.2.2.2.2.2.2.1
    ⟨[-1,2147483647],by decide⟩).1 (by
      intro v hv
      rcases List.mem_pair.mp hv with rfl | rfl
      · exact ⟨by decide,by decide⟩
      · exact ⟨by decide,by decide⟩)

end SignalisCodec.Js
