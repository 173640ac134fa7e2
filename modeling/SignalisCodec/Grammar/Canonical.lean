import SignalisCodec.Grammar.RoundTrip

/-! What the encoder writes is the shortest encoding: every accepted buffer is at least as long as
its fields written back, and as long only if it is what the encoder writes. -/
namespace SignalisCodec
open Shortest

namespace Payload

@[simp] lemma canonical_wireType (p : Payload) : (canonical p.value).wireType = p.wireType := by
  cases p <;> rfl

/-- A payload of at most the same length takes at most the same room. -/
lemma canonical_bytes_length_le {len : Varint} {b b' : Slice} (hb : b.len = len.value.toNat)
    (hle : b'.len ≤ b.len) :
    (canonical (.bytes b')).wire.length ≤ (bytes len b hb).wire.length := by
  have hlen : (Varint.shortest (UInt64.ofNat b'.len)).bytes.length ≤ len.bytes.length := by
    apply Varint.shortest_length_le
    rw [UInt64.le_iff_toNat_le,slice_len_toNat]
    omega
  simp only [canonical,wire,head,body,List.length_append]
  exact Nat.add_le_add hlen hle

lemma canonical_shortens (p : Payload) : Shortens (canonical p.value).wire p.wire := by
  cases p with
  | varint w => exact w.shortest_shortens
  | fixed64 bs hbs =>
    change Shortens (u64ToLeBytes (u64FromLeBytes bs)) bs
    rw [u64ToLeBytes_fromLeBytes hbs]
    exact .refl bs
  | fixed32 bs hbs =>
    change Shortens (u32ToLeBytes (u32FromLeBytes bs)) bs
    rw [u32ToLeBytes_fromLeBytes hbs]
    exact .refl bs
  | bytes len b hb =>
    have hlen : UInt64.ofNat b.len = len.value := by rw [hb,UInt64.ofNat_toNat]
    change Shortens ((Varint.shortest (UInt64.ofNat b.len)).bytes ++ b.bytes) (len.bytes ++ b.bytes)
    rw [hlen]
    exact len.shortest_shortens.append (.refl b.bytes)

end Payload

namespace Record

/-- A canonical record is no longer than one with the same number and wire type whose payload is
no shorter. -/
lemma canonical_length_le (rec : Record) {v : FieldValue}
    (hwt : (Payload.canonical v).wireType = rec.payload.wireType)
    (hle : (Payload.canonical v).wire.length ≤ rec.payload.wire.length) :
    (canonical ⟨rec.number,v⟩ rec.number_ne_zero).wire.length ≤ rec.wire.length := by
  have hkey := rec.keyWord.shortest_length_le (FieldKey.fromVarint_le rec.accepted)
  simp only [wire,canonical,hwt,List.length_append]
  exact Nat.add_le_add hkey hle

/-- The encoder's key is the shortest. A key wider than the number kept takes more than the five
bytes in which the encoder's keys fit. -/
lemma key_shortens (rec : Record) :
    Shortens (Varint.shortest rec.key.toVarint).bytes rec.keyWord.bytes := by
  refine ⟨rec.keyWord.shortest_length_le (FieldKey.fromVarint_le rec.accepted),?_⟩
  intro hlen
  have hkey : rec.key.toVarint.toNat < 2 ^ 35 := by
    have hn := rec.key.fieldNumber.toNat_lt
    have hb := rec.key.wireType.toBits_lt
    rw [FieldKey.toVarint_toNat]
    omega
  have hfive : (Varint.shortest rec.key.toVarint).bytes.length ≤ 5 :=
    Leb128.shortest_length_le (k := 4) (Nat.lt_of_lt_of_le hkey (by norm_num))
  have hvalue : rec.keyWord.value.toNat < 2 ^ 35 := by
    rw [Varint.value_toNat]
    calc Leb128.value rec.keyWord.bytes < 128 ^ rec.keyWord.bytes.length := Leb128.value_lt _
      _ ≤ 128 ^ 5 := Nat.pow_le_pow_right (by decide) (le_trans hlen hfive)
      _ = 2 ^ 35 := by norm_num
  have hwhole := (FieldKey.toVarint_eq_iff rec.accepted).mpr hvalue
  change rec.key.toVarint = _ at hwhole
  rw [hwhole] at hlen ⊢
  exact rec.keyWord.shortest_shortens.eq_of_length hlen

/-- Writing the field of a record shortens the record. -/
lemma field_shortens (rec : Record) : Shortens rec.field.wire rec.wire := by
  have hwire : rec.field.wire = (Varint.shortest rec.key.toVarint).bytes ++
      (Payload.canonical rec.payload.value).wire := by
    simp only [Field.wire,field,Payload.canonical_wireType,key]
  rw [hwire]
  exact rec.key_shortens.append rec.payload.canonical_shortens

end Record

/-- Re-encoding what a buffer decodes to gives the unique shortest buffer that decodes so. -/
theorem decodeFields_canonicalises (buf : Slice) (fields : List Field)
    (h : decodeFields buf = .ok fields) :
    ∃ buf' : Slice, buf'.bytes = (Encoder.new.writeFields fields).finish ∧
      decodeFields buf' = .ok fields ∧ buf'.len ≤ buf.len ∧ (buf'.len = buf.len ↔ buf' = buf) ∧
      ∀ other, decodeFields other = .ok fields → other ≠ buf' → buf'.len < other.len := by
  have hshort : ∀ buf : Slice, decodeFields buf = .ok fields →
      Shortens (Encoder.new.writeFields fields).finish buf.bytes := by
    intro buf h
    obtain ⟨recs,hw,rfl⟩ := (decodeFields_ok_iff buf fields).mp h
    have hwrite : (Encoder.new.writeFields (recs.map Record.field)).finish =
        recs.flatMap fun rec => rec.field.wire := by
      change (Encoder.new.writeFields _).buf = _
      rw [Encoder.writeFields_wire,List.flatMap_map]
      rfl
    rw [hwrite,← hw]
    exact Shortens.flatMap fun rec _ => rec.field_shortens
  have hnum := decodeFields_number_ne_zero h
  have hle := (hshort buf h).length_le
  have hfit : (Encoder.new.writeFields fields).finish.length ≤ ISIZE_MAX := le_trans hle buf.fits
  have hequal : ∀ other, decodeFields other = .ok fields →
      other.len ≤ (Encoder.new.writeFields fields).finish.length →
      (⟨(Encoder.new.writeFields fields).finish,hfit⟩ : Slice) = other := by
    intro other hother hlen
    exact Slice.ext ((hshort other hother).eq_of_length hlen)
  refine ⟨⟨_,hfit⟩,rfl,decodeFields_of_written hnum rfl,hle,⟨?_,?_⟩,?_⟩
  · intro hlen
    exact hequal buf h (Nat.le_of_eq hlen.symm)
  · intro heq
    exact congrArg Slice.len heq
  · intro other hother hne
    by_contra hlen
    exact hne (hequal other hother (Nat.not_lt.mp hlen)).symm

theorem decodeFields_canonicalises_example :
    ∃ buf' : Slice, buf'.bytes = (Encoder.new.writeFields [⟨1,.varint 150⟩]).finish ∧
      decodeFields buf' = .ok [⟨1,.varint 150⟩] ∧ buf'.len ≤ 9 ∧
      (buf'.len = 9 ↔ buf' =
        ⟨[0x88,0x80,0x80,0x80,0x80,0x01,0x96,0x81,0x00],by decide⟩) ∧
      ∀ other, decodeFields other = .ok [⟨1,.varint 150⟩] → other ≠ buf' → buf'.len < other.len :=
  decodeFields_canonicalises ⟨[0x88,0x80,0x80,0x80,0x80,0x01,0x96,0x81,0x00],by decide⟩ _
    (by decide +kernel)

end SignalisCodec
