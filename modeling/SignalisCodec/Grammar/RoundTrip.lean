import SignalisCodec.Core.Encoder
import SignalisCodec.Grammar.FlatDecode

/-! Decoding what the encoder wrote: every write operation appends one canonical record. -/
namespace SignalisCodec

namespace Encoder

lemma low_seven_toNat (v : UInt64) : (v &&& 0x7f).toUInt8.toNat = v.toNat % 128 := by
  have hand : (v &&& 0x7f).toNat = v.toNat % 128 := by
    rw [UInt64.toNat_and]
    exact Nat.and_two_pow_sub_one_eq_mod v.toNat 7
  rw [UInt64.toNat_toUInt8,hand]
  omega

/-- The loop of `write_varint` appends the shortest varint of the value. -/
theorem writeVarint_buf (e : Encoder) (v : UInt64) :
    (e.writeVarint v).buf = e.buf ++ (Varint.shortest v).bytes := by
  change _ = e.buf ++ Leb128.shortest v.toNat
  induction hn : v.toNat using Nat.strongRecOn generalizing e v with
  | ind n ih =>
    subst hn
    have hlow := low_seven_toNat v
    rw [writeVarint]
    by_cases hz : v >>> 7 = 0
    · have hv := (shiftRight_seven_eq_zero_iff v).mp hz
      have hbyte : (v &&& 0x7f).toUInt8 = UInt8.ofNat v.toNat := by
        apply UInt8.toNat_inj.mp
        rw [hlow,UInt8.toNat_ofNat']
        omega
      simp only [hz,ne_eq,not_true_eq_false,if_false,if_true,push,hbyte,Leb128.shortest_of_lt hv]
    · have hv : 128 ≤ v.toNat := by
        have := (shiftRight_seven_eq_zero_iff v).not.mp hz
        omega
      have hbyte : (v &&& 0x7f).toUInt8 ||| 0x80 = UInt8.ofNat (v.toNat % 128 + 128) := by
        apply UInt8.toNat_inj.mp
        rw [Leb128.or_continue_toNat (by omega),hlow,UInt8.toNat_ofNat']
        omega
      have hrest := shiftRight_seven_toNat v
      simp only [hz,ne_eq,not_false_eq_true,if_false,if_true]
      rw [ih _ (by omega) _ _ rfl,hbyte,push,hrest,Leb128.shortest_of_le hv]
      simp

lemma writeKey_buf (e : Encoder) (fieldNumber : UInt32) (wireType : WireType) :
    (e.writeKey fieldNumber wireType).buf =
      e.buf ++ (Varint.shortest (FieldKey.toVarint ⟨fieldNumber,wireType⟩)).bytes :=
  writeVarint_buf _ _

/-- The write operation for a field. -/
def writeField (e : Encoder) (field : Field) : Encoder :=
  match field.value with
  | .varint v => e.writeVarintField field.fieldNumber v
  | .fixed64 v => e.writeFixed64Field field.fieldNumber v
  | .fixed32 v => e.writeFixed32Field field.fieldNumber v
  | .bytes b => e.writeBytesField field.fieldNumber b.bytes

/-- Write fields one after the other. -/
def writeFields (e : Encoder) (fields : List Field) : Encoder := fields.foldl writeField e

end Encoder

lemma u64FromLeBytes_toLeBytes (v : UInt64) : u64FromLeBytes (u64ToLeBytes v) = v := by
  have := v.toNat_lt
  rw [u64FromLeBytes,u64ToLeBytes,LittleEndian.value_bytes,Nat.mod_eq_of_lt (by simpa using this),
    UInt64.ofNat_toNat]

lemma u32FromLeBytes_toLeBytes (v : UInt32) : u32FromLeBytes (u32ToLeBytes v) = v := by
  have := v.toNat_lt
  rw [u32FromLeBytes,u32ToLeBytes,LittleEndian.value_bytes,Nat.mod_eq_of_lt (by simpa using this),
    UInt32.ofNat_toNat]

lemma u64ToLeBytes_fromLeBytes {bs : List UInt8} (h : bs.length = 8) :
    u64ToLeBytes (u64FromLeBytes bs) = bs := by
  have := LittleEndian.value_lt bs
  rw [h] at this
  rw [u64ToLeBytes,u64FromLeBytes,UInt64.toNat_ofNat',Nat.mod_eq_of_lt (by simpa using this),← h]
  exact LittleEndian.bytes_value bs

lemma u32ToLeBytes_fromLeBytes {bs : List UInt8} (h : bs.length = 4) :
    u32ToLeBytes (u32FromLeBytes bs) = bs := by
  have := LittleEndian.value_lt bs
  rw [h] at this
  rw [u32ToLeBytes,u32FromLeBytes,UInt32.toNat_ofNat',Nat.mod_eq_of_lt (by simpa using this),← h]
  exact LittleEndian.bytes_value bs

lemma slice_len_toNat (b : Slice) : (UInt64.ofNat b.len).toNat = b.len := by
  have := b.fits
  rw [UInt64.toNat_ofNat']
  exact Nat.mod_eq_of_lt (by simp only [Slice.len,ISIZE_MAX] at *; omega)

/-- The payload the encoder writes for a value. -/
def Payload.canonical : FieldValue → Payload
  | .varint v => .varint (Varint.shortest v)
  | .fixed64 v => .fixed64 (u64ToLeBytes v) (LittleEndian.length_bytes 8 _)
  | .fixed32 v => .fixed32 (u32ToLeBytes v) (LittleEndian.length_bytes 4 _)
  | .bytes b =>
    .bytes (Varint.shortest (UInt64.ofNat b.len)) b
      (by rw [Varint.value_shortest,slice_len_toNat])

@[simp] lemma Payload.canonical_value (v : FieldValue) : (canonical v).value = v := by
  cases v with
  | varint v => exact congrArg FieldValue.varint (Varint.value_shortest v)
  | fixed64 v => exact congrArg FieldValue.fixed64 (u64FromLeBytes_toLeBytes v)
  | fixed32 v => exact congrArg FieldValue.fixed32 (u32FromLeBytes_toLeBytes v)
  | bytes b => rfl

/-- The record the encoder writes for a field with a legal number. -/
def Record.canonical (field : Field) (h : field.fieldNumber ≠ 0) : Record where
  keyWord := Varint.shortest
    (FieldKey.toVarint ⟨field.fieldNumber,(Payload.canonical field.value).wireType⟩)
  number := field.fieldNumber
  payload := Payload.canonical field.value
  accepted := by
    rw [Varint.value_shortest]
    exact FieldKey.fromVarint_toVarint (k := ⟨_,_⟩) h 0

@[simp] lemma Record.canonical_field (field : Field) (h : field.fieldNumber ≠ 0) :
    (canonical field h).field = field := by
  simp [Record.field,canonical]

/-- What the encoder writes for a field, whatever its number. -/
def Field.wire (field : Field) : List UInt8 :=
  (Varint.shortest
    (FieldKey.toVarint ⟨field.fieldNumber,(Payload.canonical field.value).wireType⟩)).bytes ++
    (Payload.canonical field.value).wire

lemma Encoder.writeField_wire (e : Encoder) (field : Field) :
    (e.writeField field).buf = e.buf ++ field.wire := by
  obtain ⟨number,value⟩ := field
  cases value with
  | varint v =>
    change (Encoder.writeVarint (e.writeKey number .varint) v).buf = _
    rw [writeVarint_buf,writeKey_buf,List.append_assoc]
    rfl
  | fixed64 v =>
    change (e.writeKey number .fixed64).buf ++ u64ToLeBytes v = _
    rw [writeKey_buf,List.append_assoc]
    rfl
  | fixed32 v =>
    change (e.writeKey number .fixed32).buf ++ u32ToLeBytes v = _
    rw [writeKey_buf,List.append_assoc]
    rfl
  | bytes b =>
    change (Encoder.writeVarint (e.writeKey number .lengthDelimited) _).buf ++ b.bytes = _
    rw [writeVarint_buf,writeKey_buf,List.append_assoc,List.append_assoc]
    rfl

lemma Encoder.writeFields_wire (e : Encoder) (fields : List Field) :
    (e.writeFields fields).buf = e.buf ++ fields.flatMap Field.wire := by
  induction fields generalizing e with
  | nil => exact (List.append_nil _).symm
  | cons f fields ih =>
    change ((e.writeField f).writeFields fields).buf = _
    rw [ih,writeField_wire,List.flatMap_cons,List.append_assoc]

lemma Encoder.writeField_buf (e : Encoder) (field : Field) (h : field.fieldNumber ≠ 0) :
    (e.writeField field).buf = e.buf ++ (Record.canonical field h).wire :=
  writeField_wire e field

/-- Writing fields with legal numbers appends records that denote them. -/
theorem Encoder.writeFields_buf {fields : List Field} (h : ∀ f ∈ fields, f.fieldNumber ≠ 0)
    (e : Encoder) :
    ∃ recs, (e.writeFields fields).buf = e.buf ++ wires recs ∧
      recs.map Record.field = fields := by
  induction fields generalizing e with
  | nil => exact ⟨[],(List.append_nil _).symm,rfl⟩
  | cons f fields ih =>
    have hf := h f (by simp)
    obtain ⟨recs,hbuf,hfields⟩ := ih (fun g hg => h g (by simp [hg])) (e.writeField f)
    refine ⟨Record.canonical f hf :: recs,?_,by simp [hfields]⟩
    change ((e.writeField f).writeFields fields).buf = _
    rw [hbuf,writeField_buf e f hf,wires_cons,List.append_assoc]

/-- A buffer of what the encoder wrote. -/
lemma decodeFields_of_written {buf : Slice} {fields : List Field}
    (hnum : ∀ f ∈ fields, f.fieldNumber ≠ 0)
    (hbytes : buf.bytes = (Encoder.new.writeFields fields).finish) :
    decodeFields buf = .ok fields := by
  obtain ⟨recs,hbuf,hfields⟩ := Encoder.writeFields_buf hnum Encoder.new
  exact (decodeFields_ok_iff _ _).mpr ⟨recs,hbuf.symm.trans hbytes.symm,hfields⟩

/-- Decode undoes encode, for every list of fields whose encoding fits a `Vec<u8>`. -/
theorem decodeFields_writeFields (fields : List Field) (hnum : ∀ f ∈ fields, f.fieldNumber ≠ 0)
    (hfit : (Encoder.new.writeFields fields).finish.length ≤ ISIZE_MAX) :
    decodeFields ⟨(Encoder.new.writeFields fields).finish,hfit⟩ = .ok fields :=
  decodeFields_of_written hnum rfl

theorem decodeFields_writeFields_example :
    decodeFields ⟨(Encoder.new.writeFields [⟨1,.varint 150⟩,⟨536870911,.fixed64 7⟩,
        ⟨4294967295,.bytes ⟨[0x68,0x69],by decide⟩⟩,⟨1,.fixed32 0xdeadbeef⟩]).finish,
        by decide +kernel⟩ =
      .ok [⟨1,.varint 150⟩,⟨536870911,.fixed64 7⟩,
        ⟨4294967295,.bytes ⟨[0x68,0x69],by decide⟩⟩,⟨1,.fixed32 0xdeadbeef⟩] :=
  decodeFields_writeFields _ (by decide) _

end SignalisCodec
