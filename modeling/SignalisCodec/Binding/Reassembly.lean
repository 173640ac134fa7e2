import Mathlib.Algebra.Order.BigOperators.Group.List
import Mathlib.Algebra.Order.Ring.Nat
import Mathlib.Data.List.Perm.Subperm
import Mathlib.Data.Set.List
import SignalisCodec.Binding.EncoderChecks
import SignalisCodec.Grammar.Canonical

/-! What the bindings decode they also encode: any selection of the fields of a message, in any
order, is a message again. -/
namespace SignalisCodec
open Shortest

/-- A decoded field handed back to the encoder. -/
def DecodedField.toInput (d : DecodedField) : FieldInput where
  fieldNumber := d.fieldNumber
  wireType := d.wireType
  varint := d.varint
  fixed32 := d.fixed32
  bytes := d.bytes

section fields

/-- No information is lost on the way to JavaScript. -/
theorem Field.toDecoded_injective : Function.Injective Field.toDecoded := by
  rintro ⟨n,v⟩ ⟨m,w⟩ h
  cases v <;> cases w <;>
    simp_all [toDecoded,bigintFromU64,WIRE_VARINT,WIRE_FIXED64,WIRE_FIXED32,WIRE_BYTES,
      UInt64.toNat_inj]

/-- A decoded field, as an input, stands for the field it came from. -/
lemma stands_toInput (f : Field) : f.toDecoded.toInput.Stands f := by
  rw [stands_iff_carries]
  obtain ⟨n,value⟩ := f
  cases value <;> exact ⟨rfl,rfl,rfl⟩

lemma stands_toInputs (fields : List Field) :
    List.Forall₂ FieldInput.Stands ((fields.map Field.toDecoded).map DecodedField.toInput)
      fields := by
  rw [List.map_map,List.forall₂_map_left_iff]
  exact List.forall₂_same.mpr fun f _ => stands_toInput f

lemma finish_length_eq_sum (fields : List Field) :
    (Encoder.new.writeFields fields).finish.length =
      (fields.map fun f => f.wire.length).sum := by
  change (Encoder.new.writeFields fields).buf.length = _
  rw [Encoder.writeFields_wire,List.length_append,List.length_flatMap]
  exact Nat.zero_add _

/-- Selecting fields, in whatever order, does not make the encoding longer. -/
lemma finish_length_mono {fields fields' : List Field} (h : fields'.Subperm fields) :
    (Encoder.new.writeFields fields').finish.length ≤
      (Encoder.new.writeFields fields).finish.length := by
  obtain ⟨l,hperm,hsub⟩ := h
  rw [finish_length_eq_sum,finish_length_eq_sum,← (hperm.map _).sum_eq]
  exact (hsub.map _).sum_le_sum fun _ _ => Nat.zero_le _

/-- Writing what a buffer decodes to shortens the buffer. -/
lemma finish_shortens {buf : Slice} {fields : List Field} (h : decodeFields buf = .ok fields) :
    Shortens (Encoder.new.writeFields fields).finish buf.bytes := by
  obtain ⟨recs,hw,rfl⟩ := (decodeFields_ok_iff buf fields).mp h
  change Shortens (Encoder.new.writeFields _).buf _
  rw [Encoder.writeFields_wire,List.flatMap_map,← hw]
  exact Shortens.flatMap fun rec _ => rec.field_shortens

lemma decodeFields_of_js {buf : Slice} {ds : List DecodedField} (h : decodeFieldsJs buf = .ok ds) :
    ∃ fields, decodeFields buf = .ok fields ∧ fields.map Field.toDecoded = ds := by
  cases hbuf : decodeFields buf with
  | error f =>
    rw [decodeFieldsJs,hbuf] at h
    cases f <;> cases h
  | ok fields =>
    rw [decodeFieldsJs,hbuf] at h
    cases h
    exact ⟨fields,rfl,rfl⟩

end fields

/-- Any of the fields a buffer decodes to, each at most as often as it occurs and in any order, are
encoded without an exception into a buffer that is no longer and decodes to exactly them. All of
them in their order give the buffer itself, or a shorter one. -/
theorem decodeFieldsJs_reassemble {getU64 : BigInt → Bool × UInt64 × Bool}
    (hgetU64 : GetU64Exact getU64) (buf : Slice) (ds ds' : List DecodedField)
    (h : decodeFieldsJs buf = .ok ds) (hsub : ds'.Subperm ds) :
    ∃ buf', encodeFieldsJs getU64 (ds'.map DecodedField.toInput) = .ok buf' ∧
      decodeFieldsJs buf' = .ok ds' ∧ buf'.len ≤ buf.len ∧
      (ds' = ds → (buf'.len = buf.len ↔ buf' = buf)) := by
  obtain ⟨fields,hfields,rfl⟩ := decodeFields_of_js h
  obtain ⟨fields',rfl⟩ : ds' ∈ Set.range (List.map Field.toDecoded) := by
    rw [Set.range_list_map]
    intro d hd
    obtain ⟨f,-,hf⟩ := List.mem_map.mp (hsub.subset hd)
    exact ⟨f,hf⟩
  have hsub' : fields'.Subperm fields :=
    (List.map_subperm_map_iff Field.toDecoded_injective).mp hsub
  have hshortens := finish_shortens hfields
  have hshort : (Encoder.new.writeFields fields').finish.length ≤ buf.len :=
    (finish_length_mono hsub').trans hshortens.length_le
  have hnum : ∀ f ∈ fields', f.fieldNumber ≠ 0 := fun f hf =>
    decodeFields_number_ne_zero hfields f (hsub'.subset hf)
  have hfit := hshort.trans buf.fits
  refine ⟨⟨_,hfit⟩,?_,?_,hshort,?_⟩
  · exact (encodeFieldsJs_ok_iff hgetU64).mpr ⟨fields',stands_toInputs fields',rfl⟩
  · exact decodeFieldsJs_of_ok (decodeFields_of_written hnum rfl)
  · intro heq
    obtain rfl : fields' = fields := List.map_injective_iff.mpr Field.toDecoded_injective heq
    constructor
    · intro hlen
      exact Slice.ext (hshortens.eq_of_length hlen.ge)
    · intro hbuf
      exact congrArg Slice.len hbuf

theorem decodeFieldsJs_reassemble_example :
    ∃ buf', encodeFieldsJs signedWord [⟨2,WIRE_BYTES,none,none,some ⟨[0x61],by decide⟩⟩,
        ⟨1,WIRE_VARINT,some 150,none,none⟩] = .ok buf' ∧
      decodeFieldsJs buf' = .ok [⟨2,WIRE_BYTES,none,none,some ⟨[0x61],by decide⟩⟩,
        ⟨1,WIRE_VARINT,some 150,none,none⟩] := by
  obtain ⟨buf',henc,hdec,-⟩ := decodeFieldsJs_reassemble signedWord_exact
    ⟨[0x08,0x96,0x01,0x12,0x01,0x61],by decide⟩
    [⟨1,WIRE_VARINT,some 150,none,none⟩,⟨2,WIRE_BYTES,none,none,some ⟨[0x61],by decide⟩⟩]
    [⟨2,WIRE_BYTES,none,none,some ⟨[0x61],by decide⟩⟩,⟨1,WIRE_VARINT,some 150,none,none⟩]
    (by decide +kernel) (List.Perm.swap _ _ _).subperm
  exact ⟨buf',henc,hdec⟩

end SignalisCodec
