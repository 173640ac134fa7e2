import Mathlib.Data.Int.ModEq
import SignalisCodec.Typed.PackedExact

/-! Packed fields of 32 and of 64 bits on the same wire: payloads of the narrow types are payloads
of the wide ones, and wide payloads read as narrow give the low 32 bits. -/
namespace SignalisCodec.Js
open TwosComplement

section widen
variable {getU64 : BigInt → Bool × UInt64 × Bool}

lemma mapM_congr_mem {α β ε : Type} {f g : α → Except ε β} {vs : List α}
    (h : ∀ v ∈ vs, f v = g v) : vs.mapM f = vs.mapM g := by
  induction vs with
  | nil => rfl
  | cons v vs ih =>
    rw [List.mapM_cons,List.mapM_cons,h v (by simp),ih fun u hu => h u (by simp [hu])]

lemma encodePacked_congr {α : Type} {pack : List ℤ → Except Exception Slice}
    {f g : α → Except Exception ℤ} {vs : JsArray α} (h : ∀ v ∈ vs.elems, f v = g v) :
    encodePacked pack f vs = encodePacked pack g vs := by
  rw [encodePacked,encodePacked,mapM_congr_mem h]

lemma between64_of_between32 {v : ℤ} (h : Between (-2147483648) 2147483647 v) :
    Between (-9223372036854775808) 9223372036854775807 v := by
  obtain ⟨hlo,hhi⟩ := h
  exact ⟨by omega,by omega⟩

lemma fromInt32_eq {v : ℤ} (h : Between (-2147483648) 2147483647 v) : fromInt32 v = fromInt64 v :=
  (fromSigned_ok h).trans (fromSigned_ok (between64_of_between32 h)).symm

lemma fromSint32_eq {v : ℤ} (h : Between (-2147483648) 2147483647 v) :
    fromSint32 v = fromSint64 v := by
  rw [fromSint32_ok h,fromSint64_ok (between64_of_between32 h)]

lemma fromUint32_eq {v : ℤ} (h : Between 0 4294967295 v) : fromUint32 v = fromUint64 v :=
  (fromUnsigned_ok h).trans (fromUnsigned_ok ⟨h.1,h.2.trans (by decide)⟩).symm

/-- A list that the wide type takes, and that the narrow type writes alike. -/
lemma widen {narrow wide : ℤ → Except Exception ℤ} {read : ℤ → ℤ} {In : ℤ → Prop}
    (h64 : GetU64Exact getU64) (hwide : Converts In 18446744073709551615 wide read)
    {vs : JsArray ℤ} (hvs : ∀ v ∈ vs.elems, In v) (heq : ∀ v ∈ vs.elems, narrow v = wide v) :
    ∃ payload, encodePacked (packVarints getU64) narrow vs = .ok payload ∧
      encodePacked (packVarints getU64) wide vs = .ok payload ∧
      decodePacked unpackVarints read payload = .ok vs.elems := by
  obtain ⟨payload,hencode,hdecode⟩ :=
    (hwide.packedExact (packVarints_roundTrips h64) vs).1 hvs
  exact ⟨payload,(encodePacked_congr heq).trans hencode,hencode,hdecode⟩

end widen

section narrow
variable (raw : ℤ)

lemma asInt32_congr : Between (-2147483648) 2147483647 (asInt32 raw) ∧
    asInt32 raw ≡ asInt64 raw [ZMOD 4294967296] := by
  rw [asInt32_eq,asInt64_eq]
  refine ⟨bmod32_between raw,?_⟩
  calc raw.bmod 4294967296 % 4294967296 = raw % 4294967296 := Int.bmod_emod
    _ = raw.bmod 18446744073709551616 % 4294967296 := by
      rw [Int.bmod_def]
      split <;> omega

lemma asUint32_congr : Between 0 4294967295 (asUint32 raw) ∧
    asUint32 raw ≡ asUint64 raw [ZMOD 4294967296] := by
  rw [asUint32_eq,asUint64_eq]
  refine ⟨emod_bounds raw (by decide),?_⟩
  calc raw % 4294967296 % 4294967296 = raw % 4294967296 := Int.emod_emod_of_dvd raw dvd_rfl
    _ = raw % 18446744073709551616 % 4294967296 :=
      (Int.emod_emod_of_dvd raw (by decide)).symm

/-- Two readings of one payload, element by element. -/
lemma decodePacked_related {P : ℤ → ℤ → Prop} {narrow wide : ℤ → ℤ}
    (h : ∀ raw, P (narrow raw) (wide raw)) {unpack : Slice → Except Exception (List ℤ)}
    {buf : Slice} {raws : List ℤ} (hunpack : unpack buf = .ok raws) :
    ∃ ns ws, decodePacked unpack narrow buf = .ok ns ∧ decodePacked unpack wide buf = .ok ws ∧
      List.Forall₂ P ns ws := by
  refine ⟨raws.map narrow,raws.map wide,?_,?_,?_⟩
  · rw [decodePacked,hunpack]
    rfl
  · rw [decodePacked,hunpack]
    rfl
  · rw [List.forall₂_map_left_iff,List.forall₂_map_right_iff,List.forall₂_same]
    exact fun raw _ => h raw

end narrow

/-- Widening a packed integer field keeps its payloads and their values; narrowing one keeps the
values modulo `2 ^ 32`. -/
theorem packed_widening {getU64 : BigInt → Bool × UInt64 × Bool} (h64 : GetU64Exact getU64) :
    (∀ vs : JsArray ℤ, (∀ v ∈ vs.elems, Between (-2147483648) 2147483647 v) →
      (∃ payload, encodePackedInt32 getU64 vs = .ok payload ∧
        encodePackedEnum getU64 vs = .ok payload ∧ encodePackedInt64 getU64 vs = .ok payload ∧
        decodePackedInt64 payload = .ok vs.elems) ∧
      ∃ payload, encodePackedSint32 getU64 vs = .ok payload ∧
        encodePackedSint64 getU64 vs = .ok payload ∧
        decodePackedSint64 payload = .ok vs.elems) ∧
    (∀ vs : JsArray ℤ, (∀ v ∈ vs.elems, Between 0 4294967295 v) →
      ∃ payload, encodePackedUint32 getU64 vs = .ok payload ∧
        encodePackedUint64 getU64 vs = .ok payload) ∧
    (∀ buf raws, unpackVarints buf = .ok raws →
      (∃ narrow wide, decodePackedInt32 buf = .ok narrow ∧ decodePackedInt64 buf = .ok wide ∧
        List.Forall₂ (fun n w => Between (-2147483648) 2147483647 n ∧ n ≡ w [ZMOD 4294967296])
          narrow wide) ∧
      ∃ narrow wide, decodePackedUint32 buf = .ok narrow ∧ decodePackedUint64 buf = .ok wide ∧
        List.Forall₂ (fun n w => Between 0 4294967295 n ∧ n ≡ w [ZMOD 4294967296])
          narrow wide) := by
  refine ⟨?_,?_,?_⟩
  · intro vs hvs
    have hwide : ∀ v ∈ vs.elems, Between (-9223372036854775808) 9223372036854775807 v :=
      fun v hv => between64_of_between32 (hvs v hv)
    obtain ⟨payload,hnarrow,hencode,hdecode⟩ :=
      widen h64 converts_int64 hwide fun v hv => fromInt32_eq (hvs v hv)
    refine ⟨⟨payload,hnarrow,hnarrow,hencode,hdecode⟩,?_⟩
    exact widen h64 converts_sint64 hwide fun v hv => fromSint32_eq (hvs v hv)
  · intro vs hvs
    have hwide : ∀ v ∈ vs.elems, Between 0 18446744073709551615 v :=
      fun v hv => ⟨(hvs v hv).1,(hvs v hv).2.trans (by decide)⟩
    obtain ⟨payload,hnarrow,hencode,-⟩ :=
      widen h64 converts_uint64 hwide fun v hv => fromUint32_eq (hvs v hv)
    exact ⟨payload,hnarrow,hencode⟩
  · intro buf raws hunpack
    exact ⟨decodePacked_related asInt32_congr hunpack,decodePacked_related asUint32_congr hunpack⟩

theorem packed_widening_example :
    ∃ payload, encodePackedInt32 signedWord ⟨[-1,5],by decide⟩ = .ok payload ∧
      encodePackedEnum signedWord ⟨[-1,5],by decide⟩ = .ok payload ∧
      encodePackedInt64 signedWord ⟨[-1,5],by decide⟩ = .ok payload ∧
      decodePackedInt64 payload = .ok [-1,5] :=
  ((packed_widening signedWord_exact).1 ⟨[-1,5],by decide⟩ (by
    intro v hv
    rcases List.mem_pair.mp hv with rfl | rfl
    · exact ⟨by decide,by decide⟩
    · exact ⟨by decide,by decide⟩)).1

end SignalisCodec.Js
