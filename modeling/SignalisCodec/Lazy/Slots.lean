import SignalisCodec.Grammar.IndexSpans
import SignalisCodec.Lazy.Message
import SignalisCodec.Theory.Pairing

/-! Every slot of the offset table stands for one field of the flat decode: its cells name the field
and reading the buffer where they point gives the field's value. -/
namespace SignalisCodec
open Strided Drain Pairing

namespace LazyMessage

/-- Reading the buffer at a span the way the wire type demands gives the value. -/
def Shows (m : LazyMessage) (offset length : ℕ) : FieldValue → Prop
  | .varint v => m.readVarintAt offset length = v.toNat
  | .fixed64 v => m.buf.readBigUInt64LE offset = .ok v.toNat
  | .fixed32 v => m.buf.readUInt32LE offset = .ok v.toNat
  | .bytes b => m.buf.subarray offset (offset + length) = b

/-- The slot at `i` stands for a field. -/
structure Slot (m : LazyMessage) (i : ℕ) (f : Field) : Prop where
  number : m.indexAt i = some f.fieldNumber.toNat
  wireType : m.indexAt (i + 1) = some f.value.wireType.toBits.toNat
  value : m.Shows (m.boundAt (i + 2)) (m.boundAt (i + 3)) f.value

section reading
variable {m : LazyMessage} {offset : ℕ}

/-- The loop of `readVarintAt` after `n` bytes of `w`. -/
lemma readVarintAt_loop {w : List UInt8} (hw : RowAt m.buf.bytes offset w) {n : ℕ}
    (hn : n ≤ w.length) :
    (List.range n).foldl (fun ((result,shift) : ℕ × ℕ) i =>
      let byte := (m.buf.bytes[offset + i]?).getD 0
      (result ||| ((byte &&& 0x7f).toNat <<< shift),shift + 7)) (0,0) =
    (Leb128.value (w.take n),7 * n) := by
  induction n with
  | zero => rfl
  | succ n ih =>
    have hget := hw.getElem? (List.getElem?_eq_getElem (show n < w.length by omega))
    have hlen : (w.take n).length = n := List.length_take_of_le (by omega)
    have hlt := Leb128.value_lt (w.take n)
    have hpow : (128 : ℕ) ^ n = 2 ^ (7 * n) := by rw [pow_mul]; norm_num
    rw [hlen,hpow] at hlt
    rw [List.range_succ,List.foldl_append,ih (by omega)]
    simp only [List.foldl_cons,List.foldl_nil,hget,Option.getD_some]
    rw [Leb128.or_shiftLeft hlt,Leb128.payload_toNat,List.take_add_one,
      List.getElem?_eq_getElem (show n < w.length by omega),Leb128.value_append,hlen,hpow]
    simp only [Option.toList_some,Leb128.value_cons,Leb128.value_nil]
    rfl

lemma readVarintAt_eq {w : List UInt8} (hw : RowAt m.buf.bytes offset w) :
    m.readVarintAt offset w.length = Leb128.value w := by
  rw [readVarintAt,readVarintAt_loop hw le_rfl,List.take_length]

lemma rowAt_length_le {w : List UInt8} (hw : RowAt m.buf.bytes offset w) (hne : w ≠ []) :
    offset + w.length ≤ m.buf.len := by
  have hlen := hw.length_le
  have hpos := List.length_pos_iff.mpr hne
  rw [List.length_drop] at hlen
  unfold Slice.len
  omega

lemma readUIntLE_eq {w : List UInt8} {size : ℕ} (hw : RowAt m.buf.bytes offset w)
    (hsize : w.length = size) (hpos : 0 < size) :
    m.buf.readUIntLE size offset = .ok (LittleEndian.value w) := by
  subst hsize
  rw [Slice.readUIntLE,if_pos (rowAt_length_le hw (List.length_pos_iff.mp hpos)),
    ← List.prefix_iff_eq_take.mp hw]

lemma subarray_eq {b : Slice} (hb : RowAt m.buf.bytes offset b.bytes) :
    m.buf.subarray offset (offset + b.len) = b := by
  apply Slice.ext
  change (m.buf.bytes.drop offset).take (offset + b.len - offset) = b.bytes
  rw [Nat.add_sub_cancel_left]
  exact (List.prefix_iff_eq_take.mp hb).symm

/-- A payload that stands in the buffer is read back. -/
theorem shows_payload {p : Payload} (hp : RowAt m.buf.bytes offset p.body) :
    m.Shows offset p.body.length p.value := by
  cases p with
  | varint w =>
    change m.readVarintAt offset w.bytes.length = w.value.toNat
    rw [Varint.value_toNat]
    exact readVarintAt_eq hp
  | fixed64 bs hbs =>
    change m.buf.readUIntLE 8 offset = .ok (UInt64.ofNat (LittleEndian.value bs)).toNat
    have hlt : LittleEndian.value bs < 256 ^ 8 := by
      rw [← hbs]
      exact LittleEndian.value_lt bs
    rw [UInt64.toNat_ofNat',Nat.mod_eq_of_lt (by simpa using hlt)]
    exact readUIntLE_eq hp hbs (by decide)
  | fixed32 bs hbs =>
    change m.buf.readUIntLE 4 offset = .ok (UInt32.ofNat (LittleEndian.value bs)).toNat
    have hlt : LittleEndian.value bs < 256 ^ 4 := by
      rw [← hbs]
      exact LittleEndian.value_lt bs
    rw [UInt32.toNat_ofNat',Nat.mod_eq_of_lt (by simpa using hlt)]
    exact readUIntLE_eq hp hbs (by decide)
  | bytes len b hb => exact subarray_eq hp

end reading

section slots
variable {buf : Slice}

/-- The span of a record's entry, below 4 GiB, is where its payload stands. -/
lemma located_span {pre post : List UInt8} {rec : Record}
    (hbytes : buf.bytes = pre ++ (rec.wire ++ post)) (hlen : buf.len ≤ U32_MAX) :
    RowAt buf.bytes (rec.scanAt pre.length).entry.offset.toNat rec.payload.body ∧
      (rec.scanAt pre.length).entry.length.toNat = rec.payload.body.length := by
  have htotal := congrArg List.length hbytes
  rw [List.length_append,List.length_append] at htotal
  have hfit : pre.length + rec.wire.length ≤ U32_MAX := by
    unfold Slice.len at hlen
    omega
  have hoffset := scanAt_entry_offset hfit
  have hlength := scanAt_entry_length hfit
  refine ⟨?_,hlength⟩
  have hsplit : buf.bytes =
      (pre ++ (rec.keyWord.bytes ++ rec.payload.head)) ++ (rec.payload.body ++ post) := by
    rw [hbytes,Record.wire,Payload.wire]
    simp only [List.append_assoc]
  rw [RowAt,hoffset,hsplit,← List.length_append,List.drop_left]
  exact List.prefix_append _ _

/-- An entry that locates a field makes its row in the table a slot for that field. -/
lemma slot_of_locates {m : LazyMessage} {i : ℕ} {entry : IndexEntry} {field : Field}
    (hlen : m.buf.len ≤ U32_MAX) (hrow : RowAt m.index i entry.row)
    (hloc : entry.Locates m.buf field) : m.Slot i field := by
  obtain ⟨pre,rec,post,hbytes,rfl,rfl⟩ := hloc
  obtain ⟨hspan,hlength⟩ := located_span hbytes hlen
  have hcell : ∀ {j : ℕ} {c : UInt32}, (rec.scanAt pre.length).entry.row[j]? = some c →
      m.indexAt (i + j) = some c.toNat := by
    intro j c hc
    rw [indexAt,hrow.getElem? hc]
    rfl
  have hoffset : m.boundAt (i + 2) = (rec.scanAt pre.length).entry.offset.toNat := by
    rw [boundAt,@hcell 2 _ rfl]
    rfl
  have hsize : m.boundAt (i + 3) = rec.payload.body.length := by
    rw [boundAt,@hcell 3 _ rfl,← hlength]
    rfl
  refine ⟨@hcell 0 _ rfl,?_,?_⟩
  · rw [@hcell 1 _ rfl]
    change some (rec.payload.wireType.toBits.toUInt32).toNat =
      some rec.payload.value.wireType.toBits.toNat
    rw [rec.payload.value_wireType,UInt8.toNat_toUInt32]
  · rw [hoffset,hsize]
    exact shows_payload hspan

/-- A buffer below 4 GiB that decodes has a lazy message whose slots stand for its fields. -/
theorem lazyIndex_slots {fields : List Field} (hlen : buf.len ≤ U32_MAX)
    (h : decodeFields buf = .ok fields) :
    ∃ m, lazyIndex buf = .ok m ∧ m.buf = buf ∧ m.index.length = STRIDE * fields.length ∧
      List.Forall₂ m.Slot m.slots fields := by
  obtain ⟨entries,hindex,rel⟩ := indexFields_of_decodeFields hlen h
  have hsize : ∀ e : IndexEntry, e.row.length = STRIDE := fun _ => rfl
  refine ⟨⟨buf,entries.flatMap IndexEntry.row⟩,?_,rfl,?_,?_⟩
  · simp only [lazyIndex,indexFieldsJs,hindex,mapErr]
    rfl
  · rw [← rel.length_eq]
    simp [List.length_flatMap,hsize,Nat.mul_comm]
  · apply forall₂_comp _ (rows_at (by decide) hsize entries) rel
    intro i entry field hrow hloc
    exact slot_of_locates hlen hrow hloc

end slots
end LazyMessage
end SignalisCodec
