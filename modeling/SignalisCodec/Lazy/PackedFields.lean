import SignalisCodec.Grammar.PackedConcatenation
import SignalisCodec.Lazy.Typed
import SignalisCodec.Typed.PackedStable

/-! Repeated fields in packed form. Written in any number of chunks between other fields, they are
read back chunk by chunk, and from the chunks laid one after the other. -/
namespace SignalisCodec
namespace Js

section chunks
variable {α β : Type} {decode : Slice → Except Exception (List α)}

/-- Accepted payloads, one after the other, are accepted with the values of all of them. -/
structure Concatenates (decode : Slice → Except Exception (List α)) : Prop where
  empty : decode .empty = .ok []
  append {a b whole : Slice} {vs ws : List α} (hwhole : whole.bytes = a.bytes ++ b.bytes)
    (ha : decode a = .ok vs) (hb : decode b = .ok ws) : decode whole = .ok (vs ++ ws)

lemma concatenates_of_unpack {unpack : Slice → Outcome (List β)} (hempty : unpack .empty = .ok [])
    (h : ∀ a b whole : Slice, whole.bytes = a.bytes ++ b.bytes → ∀ {xs}, unpack a = .ok xs →
      unpack whole = moved a.len (xs ++ ·) (unpack b)) (host : β → ℤ) (read : ℤ → α) :
    Concatenates (decodePacked (fun buf => callNative (do
      let values ← mapErr toNapiErr (unpack buf)
      return values.map host)) read) where
  empty := by
    unfold decodePacked
    beta_reduce
    rw [hempty]
    rfl
  append {a b whole _ _} hwhole ha hb := by
    obtain ⟨xs,hxs,rfl⟩ := decodePacked_ok ha
    obtain ⟨ys,hys,rfl⟩ := decodePacked_ok hb
    have hunpack : unpack whole = .ok (xs ++ ys) := by
      rw [h a b whole hwhole hxs,hys]
      rfl
    unfold decodePacked
    beta_reduce
    rw [hunpack,← List.map_append,← List.map_append]
    rfl

lemma concatenates_varints (read : ℤ → α) : Concatenates (decodePacked unpackVarints read) :=
  concatenates_of_unpack (unpackVarints_packVarints rfl) (fun _ _ _ => unpackVarints_concat)
    bigintFromU64 read

lemma concatenates_fixed32 (read : ℤ → α) : Concatenates (decodePacked unpackFixed32 read) :=
  concatenates_of_unpack (fixedWidth32.unpackFixed_ok_iff.mpr rfl)
    (fun _ _ _ => fixedWidth32.unpackFixed_concat (by decide)) numberFromU32 read

lemma concatenates_fixed64 (read : ℤ → α) : Concatenates (decodePacked unpackFixed64 read) :=
  concatenates_of_unpack (fixedWidth64.unpackFixed_ok_iff.mpr rfl)
    (fun _ _ _ => fixedWidth64.unpackFixed_concat (by decide)) bigintFromU64 read

/-- Any number of payloads, by induction on them; what is behind the first is shorter. -/
lemma Concatenates.chunks (h : Concatenates decode) {payloads : List Slice}
    {values : List (List α)}
    (hchunks : List.Forall₂ (fun payload vs => decode payload = .ok vs) payloads values)
    {whole : Slice} (hwhole : whole.bytes = payloads.flatMap Slice.bytes) :
    decode whole = .ok values.flatten := by
  induction hchunks generalizing whole with
  | nil =>
    obtain rfl : whole = .empty := Slice.ext hwhole
    exact h.empty
  | @cons payload vs payloads values hhead _ ih =>
    rw [List.flatMap_cons] at hwhole
    have hfits : (payloads.flatMap Slice.bytes).length ≤ ISIZE_MAX := by
      have hle := whole.fits
      rw [hwhole,List.length_append] at hle
      omega
    exact h.append (b := ⟨_,hfits⟩) hwhole hhead (ih rfl)

lemma mapM_decode {payloads : List Slice} {values : List (List α)}
    (hchunks : List.Forall₂ (fun payload vs => decode payload = .ok vs) payloads values) :
    payloads.mapM decode = .ok values := by
  induction hchunks with
  | nil => rfl
  | cons hhead _ ih =>
    rw [List.mapM_cons,hhead,ih]
    rfl

/-- What a packed type accepts, it reads back. -/
lemma PackedExact.decode_of_encode {InRange : α → Prop} {bound : ℤ}
    {write : α → Except Exception ℤ} {encode : JsArray α → Except Exception Slice}
    (h : PackedExact InRange bound write encode decode) {vs : JsArray α} {payload : Slice}
    (henc : encode vs = .ok payload) : decode payload = .ok vs.elems := by
  obtain ⟨haccepts,hrefuses,-⟩ := h vs
  by_cases hvs : ∀ v ∈ vs.elems, InRange v
  · obtain ⟨payload',henc',hdec⟩ := haccepts hvs
    obtain rfl : payload' = payload := Except.ok.inj (henc'.symm.trans henc)
    exact hdec
  · push Not at hvs
    obtain ⟨message,herror⟩ := hrefuses hvs
    rw [herror] at henc
    cases henc

end chunks
end Js

section packed
open Js
variable {α : Type} (encode : JsArray α → Except Js.Exception Slice)
  (decode : Slice → Except Js.Exception (List α))

/-- If the inputs numbered `n` are payloads encoded for these chunks of a list, then the payloads
read back decode to the chunks, the first of them to the first chunk, and all of them one after the
other to the list. -/
def ReadsBackPacked (inputs : List FieldInput) (m : LazyMessage) : Prop :=
  ∀ (n : UInt32) (chunks : List (JsArray α)),
    List.Forall₂ (fun vs f => ∃ payload, encode vs = .ok payload ∧
      f = ⟨n,WIRE_BYTES,none,none,some payload⟩) chunks (inputs.filter fun f => f.fieldNumber = n) →
    (m.getAllBytes n.toNat).mapM decode = .ok (chunks.map JsArray.elems) ∧
    (m.getBytes n.toNat).mapM decode = .ok (chunks.head?.map JsArray.elems) ∧
    ∀ whole : Slice, whole.bytes = (m.getAllBytes n.toNat).flatMap Slice.bytes →
      decode whole = .ok (chunks.flatMap JsArray.elems)

variable {encode decode} {InRange : α → Prop} {bound : ℤ} {write : α → Except Js.Exception ℤ}

/-- A value carried by a packed input is a payload that decodes to the chunk. -/
lemma payloads_carried (hexact : PackedExact InRange bound write encode decode) {n : UInt32}
    {chunks : List (JsArray α)} {inputs : List FieldInput} {values : List FieldValue}
    (hchunks : List.Forall₂ (fun vs f => ∃ payload, encode vs = .ok payload ∧
      f = ⟨n,WIRE_BYTES,none,none,some payload⟩) chunks inputs)
    (hvalues : List.Forall₂ FieldInput.Carries inputs values) :
    ∃ payloads : List Slice, values = payloads.map .bytes ∧
      List.Forall₂ (fun payload vs => decode payload = .ok vs) payloads
        (chunks.map JsArray.elems) := by
  induction hchunks generalizing values with
  | nil =>
    cases hvalues
    exact ⟨[],rfl,.nil⟩
  | cons hhead _ ih =>
    obtain ⟨payload,henc,rfl⟩ := hhead
    obtain ⟨value,rest,hc,hrest,rfl⟩ := List.forall₂_cons_left_iff.mp hvalues
    obtain rfl := carries_bytes hc
    obtain ⟨payloads,rfl,hpayloads⟩ := ih hrest
    exact ⟨payload :: payloads,rfl,.cons (hexact.decode_of_encode henc) hpayloads⟩

lemma readsBackPacked {inputs : List FieldInput} {m : LazyMessage}
    (hholds : ∀ n : UInt32, ∃ values,
      List.Forall₂ FieldInput.Carries (inputs.filter fun f => f.fieldNumber = n) values ∧
      m.Holds n.toNat values)
    (hexact : PackedExact InRange bound write encode decode) (hconcat : Concatenates decode) :
    ReadsBackPacked encode decode inputs m := by
  intro n chunks hchunks
  obtain ⟨values,hvalues,hm⟩ := hholds n
  obtain ⟨payloads,rfl,hpayloads⟩ := payloads_carried hexact hchunks hvalues
  have hall : m.getAllBytes n.toNat = payloads := by
    rw [hm.getAllBytes,List.filterMap_map]
    exact List.filterMap_some
  refine ⟨?_,?_,?_⟩
  · rw [hall]
    exact mapM_decode hpayloads
  · rw [hm.getBytes]
    cases payloads with
    | nil =>
      obtain rfl := List.map_eq_nil_iff.mp (List.forall₂_nil_left_iff.mp hpayloads)
      rfl
    | cons payload payloads =>
      obtain ⟨vs,rest,hhead,-,heq⟩ := List.forall₂_cons_left_iff.mp hpayloads
      obtain ⟨chunk,chunks,rfl,rfl,-⟩ := List.map_eq_cons_iff.mp heq
      change decode payload >>= _ = _
      rw [hhead]
      rfl
  · intro whole hwhole
    rw [hall] at hwhole
    rw [hconcat.chunks hpayloads hwhole]
    rfl

/-- Lists of every integer type, encoded in chunks, put into a message and read back from its lazy
message. -/
theorem packed_fields_read_back {getU64 : BigInt → Bool × UInt64 × Bool} {getU32 : Number → UInt32}
    (hgetU64 : GetU64Exact getU64) (hgetU32 : GetU32Exact getU32) (inputs : List FieldInput)
    (buf : Slice) (hbuf : encodeFieldsJs getU64 inputs = .ok buf)
    (hnum : ∀ f ∈ inputs, f.fieldNumber ≠ 0) (hlen : buf.len ≤ U32_MAX) :
    ∃ m, lazyIndex buf = .ok m ∧
      ReadsBackPacked (encodePackedInt32 getU64) decodePackedInt32 inputs m ∧
      ReadsBackPacked (encodePackedInt64 getU64) decodePackedInt64 inputs m ∧
      ReadsBackPacked (encodePackedUint32 getU64) decodePackedUint32 inputs m ∧
      ReadsBackPacked (encodePackedUint64 getU64) decodePackedUint64 inputs m ∧
      ReadsBackPacked (encodePackedSint32 getU64) decodePackedSint32 inputs m ∧
      ReadsBackPacked (encodePackedSint64 getU64) decodePackedSint64 inputs m ∧
      ReadsBackPacked (encodePackedBool getU64) decodePackedBool inputs m ∧
      ReadsBackPacked (encodePackedEnum getU64) decodePackedEnum inputs m ∧
      ReadsBackPacked (encodePackedFixed32 getU32) decodePackedFixed32 inputs m ∧
      ReadsBackPacked (encodePackedSfixed32 getU32) decodePackedSfixed32 inputs m ∧
      ReadsBackPacked (encodePackedFixed64 getU64) decodePackedFixed64 inputs m ∧
      ReadsBackPacked (encodePackedSfixed64 getU64) decodePackedSfixed64 inputs m := by
  obtain ⟨m,hm,-,-,hholds⟩ := lazyIndex_encodeFieldsJs hgetU64 inputs buf hbuf hnum hlen
  have hvarints := packVarints_roundTrips hgetU64
  have hfixed32 := packFixed32_roundTrips hgetU32
  have hfixed64 := packFixed64_roundTrips hgetU64
  exact ⟨m,hm,
    readsBackPacked hholds (converts_int32.packedExact hvarints) (concatenates_varints _),
    readsBackPacked hholds (converts_int64.packedExact hvarints) (concatenates_varints _),
    readsBackPacked hholds (converts_uint32.packedExact hvarints) (concatenates_varints _),
    readsBackPacked hholds (converts_uint64.packedExact hvarints) (concatenates_varints _),
    readsBackPacked hholds (converts_sint32.packedExact hvarints) (concatenates_varints _),
    readsBackPacked hholds (converts_sint64.packedExact hvarints) (concatenates_varints _),
    readsBackPacked hholds (converts_bool.packedExact hvarints) (concatenates_varints _),
    readsBackPacked hholds (converts_enum.packedExact hvarints) (concatenates_varints _),
    readsBackPacked hholds (converts_fixed32.packedExact hfixed32) (concatenates_fixed32 _),
    readsBackPacked hholds (converts_sfixed32.packedExact hfixed32) (concatenates_fixed32 _),
    readsBackPacked hholds (converts_fixed64.packedExact hfixed64) (concatenates_fixed64 _),
    readsBackPacked hholds (converts_sfixed64.packedExact hfixed64) (concatenates_fixed64 _)⟩

end packed

/-- Three sint32 values in two chunks, with a bool between them. -/
theorem packed_fields_read_back_example :
    ∃ m, lazyIndex ⟨[0x0a,0x02,0x02,0x01,0x10,0x01,0x0a,0x01,0x04],by decide⟩ = .ok m ∧
      (m.getAllBytes 1).mapM Js.decodePackedSint32 = .ok [[1,-1],[2]] ∧
      ∀ whole : Slice, whole.bytes = (m.getAllBytes 1).flatMap Slice.bytes →
        Js.decodePackedSint32 whole = .ok [1,-1,2] := by
  obtain ⟨m,hm,-,-,-,-,hsint,-⟩ := packed_fields_read_back signedWord_exact Js.lowWord_exact
    [⟨1,WIRE_BYTES,none,none,some ⟨[0x02,0x01],by decide⟩⟩,⟨2,WIRE_VARINT,some 1,none,none⟩,
      ⟨1,WIRE_BYTES,none,none,some ⟨[0x04],by decide⟩⟩]
    ⟨[0x0a,0x02,0x02,0x01,0x10,0x01,0x0a,0x01,0x04],by decide⟩ (by decide +kernel) (by decide)
    (by decide)
  obtain ⟨hall,-,hwhole⟩ := hsint 1 [⟨[1,-1],by decide⟩,⟨[2],by decide⟩]
    (.cons ⟨⟨[0x02,0x01],by decide⟩,by decide +kernel,rfl⟩
      (.cons ⟨⟨[0x04],by decide⟩,by decide +kernel,rfl⟩ .nil))
  exact ⟨m,hm,hall,hwhole⟩

end SignalisCodec
