import SignalisCodec.Binding.Native
import SignalisCodec.Grammar.RoundTrip
import SignalisCodec.Theory.Pairing

/-! The checks of the public encoder against the rules of the decoder: what it lets through comes
back, but for field number 0. -/
namespace SignalisCodec

/-- What the checks need of the host's `get_u64`: the sign of every bigint and, of one that is not
negative, whether it fits 64 bits, and its value if it does. Of negative bigints nothing else is
asked; the host does not call those lossless, whatever their absolute value. -/
structure GetU64Exact (getU64 : BigInt → Bool × UInt64 × Bool) : Prop where
  sign : ∀ b : ℤ, (getU64 b).1 = decide (b < 0)
  lossless : ∀ b : ℤ, 0 ≤ b → ((getU64 b).2.2 = true ↔ b < 2 ^ 64)
  value : ∀ b : ℤ, 0 ≤ b → b < 2 ^ 64 → ((getU64 b).2.1.toNat : ℤ) = b

namespace FieldInput

/-- The input carries a value its wire type can be encoded from. -/
def Encodable (f : FieldInput) : Prop :=
  (f.wireType = WIRE_VARINT ∨ f.wireType = WIRE_FIXED64) ∧
    (∃ b : ℤ, f.varint = some b ∧ 0 ≤ b ∧ b < 2 ^ 64) ∨
  f.wireType = WIRE_FIXED32 ∧ f.fixed32.isSome ∨
  f.wireType = WIRE_BYTES ∧ f.bytes.isSome

/-- The input as it should come back: the value that its wire type selects and no other. -/
def selected (f : FieldInput) : DecodedField where
  fieldNumber := f.fieldNumber
  wireType := f.wireType
  varint := if f.wireType = WIRE_VARINT ∨ f.wireType = WIRE_FIXED64 then f.varint else none
  fixed32 := if f.wireType = WIRE_FIXED32 then f.fixed32 else none
  bytes := if f.wireType = WIRE_BYTES then f.bytes else none

/-- The bytes an encodable input takes on the wire. -/
def encodedLength (f : FieldInput) : ℕ :=
  (Leb128.shortest (8 * f.fieldNumber.toNat + f.wireType.toNat)).length +
  if f.wireType = WIRE_VARINT then (Leb128.shortest (f.varint.getD 0).toNat).length
  else if f.wireType = WIRE_FIXED64 then 8
  else if f.wireType = WIRE_FIXED32 then 4
  else (Leb128.shortest (f.bytes.getD .empty).len).length + (f.bytes.getD .empty).len

/-- The input is the field to be written. -/
def Stands (f : FieldInput) (field : Field) : Prop := f.Encodable ∧ f.selected = field.toDecoded

end FieldInput

section stands
variable {f : FieldInput} {field : Field}

lemma bigintFromU64_range (v : UInt64) : 0 ≤ bigintFromU64 v ∧ bigintFromU64 v < 2 ^ 64 := by
  have := v.toNat_lt
  change (0 : ℤ) ≤ (v.toNat : ℤ) ∧ (v.toNat : ℤ) < 2 ^ 64
  omega

lemma exists_bigintFromU64 {b : ℤ} (hpos : 0 ≤ b) (hlt : b < 2 ^ 64) :
    ∃ v, b = bigintFromU64 v := by
  refine ⟨UInt64.ofNat b.toNat,?_⟩
  change b = ((UInt64.ofNat b.toNat).toNat : ℤ)
  rw [UInt64.toNat_ofNat']
  omega

/-- The input selects this value. -/
def FieldInput.Carries (f : FieldInput) : FieldValue → Prop
  | .varint v => f.wireType = WIRE_VARINT ∧ f.varint = some (bigintFromU64 v)
  | .fixed64 v => f.wireType = WIRE_FIXED64 ∧ f.varint = some (bigintFromU64 v)
  | .fixed32 v => f.wireType = WIRE_FIXED32 ∧ f.fixed32 = some v
  | .bytes b => f.wireType = WIRE_BYTES ∧ f.bytes = some b

lemma encodable_of_carries {value : FieldValue} (h : f.Carries value) : f.Encodable := by
  cases value with
  | varint v => exact .inl ⟨.inl h.1,_,h.2,bigintFromU64_range v⟩
  | fixed64 v => exact .inl ⟨.inr h.1,_,h.2,bigintFromU64_range v⟩
  | fixed32 v => exact .inr (.inl ⟨h.1,by simp [h.2]⟩)
  | bytes b => exact .inr (.inr ⟨h.1,by simp [h.2]⟩)

/-- An input stands for the field with its number and the value it selects. -/
lemma stands_iff_carries :
    f.Stands field ↔ field.fieldNumber = f.fieldNumber ∧ f.Carries field.value := by
  obtain ⟨number,wt,varint,fixed32,bytes⟩ := f
  obtain ⟨n,value⟩ := field
  constructor
  · intro ⟨_,hsel⟩
    have hwire : wt = (Field.toDecoded ⟨n,value⟩).wireType := congrArg DecodedField.wireType hsel
    subst hwire
    cases value <;> simp_all [FieldInput.Carries,FieldInput.selected,Field.toDecoded,WIRE_VARINT,
      WIRE_FIXED64,WIRE_FIXED32,WIRE_BYTES]
  · intro ⟨hn,hcarries⟩
    refine ⟨encodable_of_carries hcarries,?_⟩
    cases value <;> simp_all [FieldInput.Carries,FieldInput.selected,Field.toDecoded,WIRE_VARINT,
      WIRE_FIXED64,WIRE_FIXED32,WIRE_BYTES]

/-- Where the wire type leaves one kind of value, the field is of that kind. -/
lemma stands_iff_exists {α : Type} {mk : α → FieldValue} {P : α → Prop}
    (honly : ∀ value, f.Carries value → ∃ v, value = mk v) (hmk : ∀ v, f.Carries (mk v) ↔ P v) :
    f.Stands field ↔ ∃ v, P v ∧ field = ⟨f.fieldNumber,mk v⟩ := by
  rw [stands_iff_carries]
  constructor
  · intro ⟨hn,hcarries⟩
    obtain ⟨v,hv⟩ := honly _ hcarries
    exact ⟨v,(hmk v).mp (hv ▸ hcarries),Field.ext hn hv⟩
  · rintro ⟨v,hv,rfl⟩
    exact ⟨rfl,(hmk v).mpr hv⟩

lemma stands_varint_iff (hwt : f.wireType = WIRE_VARINT) :
    f.Stands field ↔
      ∃ v, f.varint = some (bigintFromU64 v) ∧ field = ⟨f.fieldNumber,.varint v⟩ := by
  refine stands_iff_exists ?_ fun v => and_iff_right hwt
  intro value h
  cases value <;> simp_all [FieldInput.Carries,WIRE_VARINT,WIRE_FIXED64,WIRE_FIXED32,WIRE_BYTES]

lemma stands_fixed64_iff (hwt : f.wireType = WIRE_FIXED64) :
    f.Stands field ↔
      ∃ v, f.varint = some (bigintFromU64 v) ∧ field = ⟨f.fieldNumber,.fixed64 v⟩ := by
  refine stands_iff_exists ?_ fun v => and_iff_right hwt
  intro value h
  cases value <;> simp_all [FieldInput.Carries,WIRE_VARINT,WIRE_FIXED64,WIRE_FIXED32,WIRE_BYTES]

lemma stands_fixed32_iff (hwt : f.wireType = WIRE_FIXED32) :
    f.Stands field ↔ ∃ v, f.fixed32 = some v ∧ field = ⟨f.fieldNumber,.fixed32 v⟩ := by
  refine stands_iff_exists ?_ fun v => and_iff_right hwt
  intro value h
  cases value <;> simp_all [FieldInput.Carries,WIRE_VARINT,WIRE_FIXED64,WIRE_FIXED32,WIRE_BYTES]

lemma stands_bytes_iff (hwt : f.wireType = WIRE_BYTES) :
    f.Stands field ↔ ∃ b, f.bytes = some b ∧ field = ⟨f.fieldNumber,.bytes b⟩ := by
  refine stands_iff_exists ?_ fun v => and_iff_right hwt
  intro value h
  cases value <;> simp_all [FieldInput.Carries,WIRE_VARINT,WIRE_FIXED64,WIRE_FIXED32,WIRE_BYTES]

/-- Every encodable input stands for a field. -/
lemma stands_of_encodable (h : f.Encodable) : ∃ field, f.Stands field := by
  obtain ⟨hwt | hwt,b,hb,hpos,hlt⟩ | ⟨hwt,hv⟩ | ⟨hwt,hb⟩ := h
  · obtain ⟨v,rfl⟩ := exists_bigintFromU64 hpos hlt
    exact ⟨_,(stands_varint_iff hwt).mpr ⟨v,hb,rfl⟩⟩
  · obtain ⟨v,rfl⟩ := exists_bigintFromU64 hpos hlt
    exact ⟨_,(stands_fixed64_iff hwt).mpr ⟨v,hb,rfl⟩⟩
  · obtain ⟨v,hv⟩ := Option.isSome_iff_exists.mp hv
    exact ⟨_,(stands_fixed32_iff hwt).mpr ⟨v,hv,rfl⟩⟩
  · obtain ⟨b,hb⟩ := Option.isSome_iff_exists.mp hb
    exact ⟨_,(stands_bytes_iff hwt).mpr ⟨b,hb,rfl⟩⟩

end stands

section inputs
variable {getU64 : BigInt → Bool × UInt64 × Bool}

/-- The sign is tested before anything else is looked at. -/
lemma bigintToU64_ok_iff (h : GetU64Exact getU64) {b : ℤ} {v : UInt64} :
    bigintToU64 getU64 b = .ok v ↔ b = bigintFromU64 v := by
  have hsign := h.sign b
  have hloss := h.lossless b
  have hvalue := h.value b
  have hv := v.toNat_lt
  unfold bigintToU64 bigintFromU64
  generalize getU64 b = res at hsign hloss hvalue
  obtain ⟨signed,value,lossless⟩ := res
  simp only at hsign hloss hvalue
  subst hsign
  by_cases hneg : b < 0
  · simp [hneg]
    omega
  · have hpos : 0 ≤ b := Int.not_lt.mp hneg
    by_cases hfits : b < 2 ^ 64
    · simp only [hneg,decide_false,(hloss hpos).mpr hfits,Bool.not_true,Bool.or_self,
        Bool.false_eq_true,if_false,Except.ok.injEq]
      have := hvalue hpos hfits
      rw [← UInt64.toNat_inj]
      omega
    · have hlossy : lossless = false := Bool.eq_false_iff.mpr ((hloss hpos).not.mpr hfits)
      simp [hlossy]
      omega

/-- The shape of both integer branches of the encoder. -/
lemma encodeInteger_ok_iff (h : GetU64Exact getU64) {reason : String} {x : Option BigInt}
    {write : UInt64 → Encoder} {enc' : Encoder} :
    (do
      let v ← okOr reason x
      return write (← bigintToU64 getU64 v) : Except Thrown Encoder) = .ok enc' ↔
      ∃ v, x = some (bigintFromU64 v) ∧ enc' = write v := by
  cases x with
  | none => simp [okOr,bind,Except.bind]
  | some b =>
    change (bigintToU64 getU64 b >>= fun v => pure (write v) : Except Thrown Encoder) = _ ↔ _
    cases hb : bigintToU64 getU64 b with
    | error e =>
      constructor
      · intro herr
        cases herr
      · intro ⟨v,hv,_⟩
        rw [(bigintToU64_ok_iff h).mpr (Option.some.inj hv)] at hb
        cases hb
    | ok v =>
      have hround := (bigintToU64_ok_iff h).mp hb
      constructor
      · intro hok
        cases hok
        exact ⟨v,congrArg some hround,rfl⟩
      · intro ⟨w,hw,henc⟩
        rw [(bigintToU64_ok_iff h).mpr (Option.some.inj hw)] at hb
        cases hb
        rw [henc]
        rfl

lemma encodePlain_ok_iff {α : Type} {reason : String} {x : Option α} {write : α → Encoder}
    {enc' : Encoder} :
    (do
      let v ← okOr reason x
      return write v : Except Thrown Encoder) = .ok enc' ↔ ∃ v, x = some v ∧ enc' = write v := by
  cases x <;> simp [okOr,bind,Except.bind,pure,Except.pure,eq_comm]

lemma exists_written_iff {α : Type} {P : α → Prop} {field : α → Field} {enc enc' : Encoder} :
    (∃ f, (∃ v, P v ∧ f = field v) ∧ enc' = enc.writeField f) ↔
      ∃ v, P v ∧ enc' = enc.writeField (field v) := by
  constructor
  · intro ⟨_,⟨v,hv,hfield⟩,henc⟩
    subst hfield
    exact ⟨v,hv,henc⟩
  · intro ⟨v,hv,henc⟩
    exact ⟨_,⟨v,hv,rfl⟩,henc⟩

/-- One input is encoded exactly if it stands for a field, which is then written. -/
lemma encodeFieldInput_ok_iff (h : GetU64Exact getU64) {enc enc' : Encoder} {f : FieldInput} :
    encodeFieldInput getU64 enc f = .ok enc' ↔
      ∃ field, f.Stands field ∧ enc' = enc.writeField field := by
  unfold encodeFieldInput
  by_cases hvarint : f.wireType = WIRE_VARINT
  · simp only [if_pos hvarint,encodeInteger_ok_iff h,stands_varint_iff hvarint,
      exists_written_iff]
    exact Iff.rfl
  · by_cases hfixed64 : f.wireType = WIRE_FIXED64
    · simp only [if_neg hvarint,if_pos hfixed64,encodeInteger_ok_iff h,
        stands_fixed64_iff hfixed64,exists_written_iff]
      exact Iff.rfl
    · by_cases hfixed32 : f.wireType = WIRE_FIXED32
      · simp only [if_neg hvarint,if_neg hfixed64,if_pos hfixed32,encodePlain_ok_iff,
          stands_fixed32_iff hfixed32,exists_written_iff]
        exact Iff.rfl
      · by_cases hbytes : f.wireType = WIRE_BYTES
        · simp only [if_neg hvarint,if_neg hfixed64,if_neg hfixed32,if_pos hbytes,
            encodePlain_ok_iff,stands_bytes_iff hbytes,exists_written_iff]
          exact Iff.rfl
        · simp only [if_neg hvarint,if_neg hfixed64,if_neg hfixed32,if_neg hbytes]
          constructor
          · intro herr
            cases herr
          · intro ⟨field,⟨henc,_⟩,_⟩
            obtain ⟨hwt | hwt,-⟩ | ⟨hwt,-⟩ | ⟨hwt,-⟩ := henc
            · exact absurd hwt hvarint
            · exact absurd hwt hfixed64
            · exact absurd hwt hfixed32
            · exact absurd hwt hbytes

/-- The loop writes the fields the inputs stand for, or stops at an input that stands for none. -/
theorem encodeInputs_ok_iff (h : GetU64Exact getU64) {inputs : List FieldInput}
    {enc enc' : Encoder} :
    inputs.foldlM (encodeFieldInput getU64) enc = .ok enc' ↔
      ∃ fields, List.Forall₂ FieldInput.Stands inputs fields ∧ enc' = enc.writeFields fields := by
  induction inputs generalizing enc with
  | nil =>
    rw [List.foldlM_nil]
    constructor
    · intro hok
      cases hok
      exact ⟨[],.nil,rfl⟩
    · intro ⟨fields,hstands,henc⟩
      cases hstands
      rw [henc]
      rfl
  | cons f inputs ih =>
    rw [List.foldlM_cons]
    constructor
    · intro hok
      cases hf : encodeFieldInput getU64 enc f with
      | error e =>
        rw [hf] at hok
        cases hok
      | ok enc₁ =>
        rw [hf] at hok
        obtain ⟨field,hstands,rfl⟩ := (encodeFieldInput_ok_iff h).mp hf
        obtain ⟨fields,hrest,henc⟩ := ih.mp hok
        exact ⟨field :: fields,.cons hstands hrest,henc⟩
    · intro ⟨fields,hstands,henc⟩
      cases hstands with
      | cons hhead hrest =>
        rw [(encodeFieldInput_ok_iff h).mpr ⟨_,hhead,rfl⟩]
        exact ih.mpr ⟨_,hrest,henc⟩

end inputs

section lengths

/-- An input takes on the wire what its own values say. -/
lemma wire_length_of_stands {f : FieldInput} {field : Field} (h : f.Stands field) :
    field.wire.length = f.encodedLength := by
  have hkey : ∀ (number : UInt32) (wt : WireType),
      (Varint.shortest (FieldKey.toVarint ⟨number,wt⟩)).bytes =
        Leb128.shortest (8 * number.toNat + wt.toBits.toNat) := by
    intro number wt
    have hnat := FieldKey.toVarint_toNat ⟨number,wt⟩
    change Leb128.shortest (FieldKey.toVarint ⟨number,wt⟩).toNat = _
    rw [hnat]
  obtain ⟨hwt | hwt,-⟩ | ⟨hwt,-⟩ | ⟨hwt,-⟩ := h.1
  · obtain ⟨v,hv,rfl⟩ := (stands_varint_iff hwt).mp h
    rw [Field.wire,hkey,List.length_append,FieldInput.encodedLength,if_pos hwt,hwt,hv]
    rfl
  · obtain ⟨v,hv,rfl⟩ := (stands_fixed64_iff hwt).mp h
    rw [Field.wire,hkey,List.length_append,FieldInput.encodedLength,hwt]
    rfl
  · obtain ⟨v,hv,rfl⟩ := (stands_fixed32_iff hwt).mp h
    rw [Field.wire,hkey,List.length_append,FieldInput.encodedLength,hwt]
    rfl
  · obtain ⟨b,hb,rfl⟩ := (stands_bytes_iff hwt).mp h
    rw [Field.wire,hkey,List.length_append,FieldInput.encodedLength,hwt,hb]
    congr 1
    change (Leb128.shortest (UInt64.ofNat b.len).toNat ++ b.bytes).length = _
    rw [slice_len_toNat,List.length_append]
    rfl

lemma writeFields_length {inputs : List FieldInput} {fields : List Field}
    (h : List.Forall₂ FieldInput.Stands inputs fields) (e : Encoder) :
    (e.writeFields fields).buf.length =
      e.buf.length + (inputs.map FieldInput.encodedLength).sum := by
  induction h generalizing e with
  | nil => rfl
  | @cons f field inputs fields hf _ ih =>
    change ((e.writeField field).writeFields fields).buf.length = _
    rw [ih,Encoder.writeField_wire,List.length_append,wire_length_of_stands hf,List.map_cons,
      List.sum_cons,Nat.add_assoc]

lemma finish_length {inputs : List FieldInput} {fields : List Field}
    (h : List.Forall₂ FieldInput.Stands inputs fields) :
    (Encoder.new.writeFields fields).finish.length =
      (inputs.map FieldInput.encodedLength).sum := by
  have hlen := writeFields_length h Encoder.new
  rwa [Encoder.new,List.length_nil,Nat.zero_add] at hlen

end lengths

section symmetric
variable {getU64 : BigInt → Bool × UInt64 × Bool}

/-- Encoding returns the bytes of the fields its inputs stand for, if these fit a `Vec`. -/
lemma encodeFieldsJs_ok_iff (h : GetU64Exact getU64) {inputs : List FieldInput} {buf : Slice} :
    encodeFieldsJs getU64 inputs = .ok buf ↔
      ∃ fields, List.Forall₂ FieldInput.Stands inputs fields ∧
        buf.bytes = (Encoder.new.writeFields fields).finish := by
  unfold encodeFieldsJs
  constructor
  · intro hok
    cases henc : inputs.foldlM (encodeFieldInput getU64) Encoder.new with
    | error e =>
      rw [henc] at hok
      cases hok
    | ok enc =>
      rw [henc] at hok
      obtain ⟨fields,hstands,rfl⟩ := (encodeInputs_ok_iff h).mp henc
      refine ⟨fields,hstands,?_⟩
      change toBuffer _ = _ at hok
      unfold toBuffer at hok
      split at hok
      · cases hok
        rfl
      · cases hok
  · intro ⟨fields,hstands,hbytes⟩
    rw [(encodeInputs_ok_iff h).mpr ⟨fields,hstands,rfl⟩]
    change toBuffer _ = _
    rw [toBuffer,dif_pos (hbytes ▸ buf.fits)]
    exact congrArg Except.ok (Slice.ext hbytes.symm)

lemma exists_stands {inputs : List FieldInput} (hall : ∀ f ∈ inputs, f.Encodable) :
    ∃ fields, List.Forall₂ FieldInput.Stands inputs fields := by
  induction inputs with
  | nil => exact ⟨[],.nil⟩
  | cons f inputs ih =>
    obtain ⟨field,hfield⟩ := stands_of_encodable (hall f (by simp))
    obtain ⟨fields,hfields⟩ := ih fun g hg => hall g (by simp [hg])
    exact ⟨field :: fields,.cons hfield hfields⟩

lemma selected_of_stands {inputs : List FieldInput} {fields : List Field}
    (h : List.Forall₂ FieldInput.Stands inputs fields) :
    inputs.map FieldInput.selected = fields.map Field.toDecoded :=
  Pairing.map_eq_of_forall₂ h fun _ _ hf => hf.2

lemma decodeFieldsJs_of_ok {buf : Slice} {fields : List Field} (h : decodeFields buf = .ok fields) :
    decodeFieldsJs buf = .ok (fields.map Field.toDecoded) := by
  rw [decodeFieldsJs,h]
  rfl

lemma toDecoded_fieldNumber (f : Field) : f.toDecoded.fieldNumber = f.fieldNumber := by
  obtain ⟨n,value⟩ := f
  cases value <;> rfl

lemma decoded_number_ne_zero {buf : Slice} {decoded : List DecodedField}
    (h : decodeFieldsJs buf = .ok decoded) : ∀ d ∈ decoded, d.fieldNumber ≠ 0 := by
  intro d hd
  cases hbuf : decodeFields buf with
  | error f =>
    rw [decodeFieldsJs,hbuf] at h
    cases f <;> cases h
  | ok fields =>
    rw [decodeFieldsJs_of_ok hbuf] at h
    cases h
    obtain ⟨f,hf,rfl⟩ := List.mem_map.mp hd
    rw [toDecoded_fieldNumber]
    exact decodeFields_number_ne_zero hbuf f hf

/-- What the encoder emits comes back as the values selected, exactly if no field number is 0, or
some input is refused, or the output does not fit a `Vec`. -/
theorem encodeFieldsJs_accepted_iff (h : GetU64Exact getU64) (inputs : List FieldInput) :
    (∀ buf, encodeFieldsJs getU64 inputs = .ok buf →
      decodeFieldsJs buf = .ok (inputs.map FieldInput.selected)) ↔
    (∀ f ∈ inputs, f.fieldNumber ≠ 0) ∨ (∃ f ∈ inputs, ¬ f.Encodable) ∨
      ISIZE_MAX < (inputs.map FieldInput.encodedLength).sum := by
  constructor
  · intro hsym
    by_cases hall : ∀ f ∈ inputs, f.Encodable
    · by_cases hfit : (inputs.map FieldInput.encodedLength).sum ≤ ISIZE_MAX
      · obtain ⟨fields,hstands⟩ := exists_stands hall
        have hlen : (Encoder.new.writeFields fields).finish.length ≤ ISIZE_MAX := by
          rwa [finish_length hstands]
        have hdecode := hsym ⟨_,hlen⟩ ((encodeFieldsJs_ok_iff h).mpr ⟨fields,hstands,rfl⟩)
        refine .inl fun f hf => ?_
        exact decoded_number_ne_zero hdecode f.selected (List.mem_map_of_mem hf)
      · exact .inr (.inr (Nat.not_le.mp hfit))
    · push Not at hall
      exact .inr (.inl hall)
  · intro hcond buf hok
    obtain ⟨fields,hstands,hbytes⟩ := (encodeFieldsJs_ok_iff h).mp hok
    rcases hcond with hnum | ⟨f,hf,hno⟩ | hbig
    · have hnumbers : ∀ f ∈ fields, f.fieldNumber ≠ 0 := by
        intro field hfield
        obtain ⟨f,hf,-,hsel⟩ := Pairing.forall₂_mem_right hstands hfield
        rw [← toDecoded_fieldNumber,← hsel]
        exact hnum f hf
      rw [selected_of_stands hstands]
      exact decodeFieldsJs_of_ok (decodeFields_of_written hnumbers hbytes)
    · obtain ⟨field,-,hstand⟩ := Pairing.forall₂_mem_left hstands hf
      exact absurd hstand.1 hno
    · have hfits := buf.fits
      rw [hbytes,finish_length hstands] at hfits
      omega

end symmetric

/-- Sign and low word of a bigint, and whether an unsigned word holds it. -/
def signedWord (b : BigInt) : Bool × UInt64 × Bool :=
  (decide (b < 0),UInt64.ofNat b.natAbs,decide (0 ≤ b ∧ b < 2 ^ 64))

lemma signedWord_exact : GetU64Exact signedWord where
  sign _ := rfl
  lossless b hpos := by simp [signedWord,hpos]
  value b hpos hlt := by
    change ((UInt64.ofNat b.natAbs).toNat : ℤ) = b
    rw [UInt64.toNat_ofNat']
    omega

theorem encodeFieldsJs_accepted_iff_example :
    decodeFieldsJs ⟨[0x08,0x96,0x01],by decide⟩ = .ok [⟨1,WIRE_VARINT,some 150,none,none⟩] :=
  (encodeFieldsJs_accepted_iff signedWord_exact [⟨1,WIRE_VARINT,some 150,none,none⟩]).mpr
    (.inl (by decide)) _ (by decide +kernel)

/-- Field number 0 is encoded, and the decoder refuses the whole buffer. -/
theorem encodeFieldsJs_emits_rejected :
    ¬ ∀ (getU64 : BigInt → Bool × UInt64 × Bool) (inputs : List FieldInput) (buf : Slice),
      GetU64Exact getU64 → encodeFieldsJs getU64 inputs = .ok buf →
      decodeFieldsJs buf = .ok (inputs.map FieldInput.selected) := by
  intro h
  have hemit := h signedWord [⟨0,WIRE_VARINT,some 1,none,none⟩] ⟨[0x00,0x01],by decide⟩
    signedWord_exact (by decide +kernel)
  revert hemit
  decide +kernel

end SignalisCodec
