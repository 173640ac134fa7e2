import SignalisCodec.Grammar.RoundTrip
import SignalisCodec.Theory.Overlong

/-! What `write_varint` appends among all the byte strings `read_varint` reads as the same value. -/
namespace SignalisCodec
open Reader Leb128

/-- The varints of a value: the shortest one and its overlong forms within ten bytes. -/
theorem isVarint_value_iff {x : List UInt8} (v : UInt64) :
    (∃ w : Varint, w.bytes = x ∧ w.value = v) ↔
      x.length ≤ MAX_VARINT_BYTES ∧
        (x = (Varint.shortest v).bytes ∨ Overlong x (Varint.shortest v).bytes) := by
  change _ ↔ _ ∧ (x = shortest v.toNat ∨ Overlong x (shortest v.toNat))
  rw [← isWord_value_iff]
  constructor
  · rintro ⟨w,rfl,rfl⟩
    exact ⟨w.isVarint.length_le,w.isVarint.word,w.value_toNat.symm⟩
  · rintro ⟨hlen,hx,hv⟩
    have hfits := isVarint_of_value_lt hx hlen (by rw [hv]; exact v.toNat_lt)
    refine ⟨⟨x,hfits⟩,rfl,?_⟩
    apply UInt64.toNat_inj.mp
    rw [Varint.value_toNat,hv]

namespace Reader

/-- A buffer that `read_varint` consumes whole is a varint. -/
lemma readVarint_whole_iff {x : Slice} {v : UInt64} :
    readVarint (new x) = .ok v ⟨x,x.len⟩ ↔ ∃ w : Varint, w.bytes = x.bytes ∧ w.value = v := by
  rw [readVarint_ok_iff]
  constructor
  · rintro ⟨w,hv,hread⟩
    have hrest : (⟨x,x.len⟩ : Reader).rest = [] := (rest_eq_nil_iff _).mpr le_rfl
    refine ⟨w,?_,hv⟩
    rw [← rest_new x,hread.rest_eq,hrest,List.append_nil]
  · rintro ⟨w,hx,hv⟩
    refine ⟨w,hv,?_⟩
    have hr : (new x).rest = w.bytes ++ [] := by rw [rest_new,hx,List.append_nil]
    have hnext : (new x).advance w.bytes.length = ⟨x,x.len⟩ := by
      rw [hx,advance,new,Nat.zero_add]
      rfl
    rw [← hnext]
    exact reads_of_rest hr

end Reader

/-- `write_varint` appends one to ten bytes that read back in any context, and every other byte
string read as the same value is longer: an overlong form of those bytes. -/
theorem writeVarint_shortest (v : UInt64) :
    ∃ w : List UInt8, (1 ≤ w.length ∧ w.length ≤ MAX_VARINT_BYTES) ∧
      (∀ a, ((⟨a⟩ : Encoder).writeVarint v).buf = a ++ w) ∧
      (∀ a s (buf : Slice), buf.bytes = a ++ w ++ s →
        readVarint ⟨buf,a.length⟩ = .ok v ⟨buf,a.length + w.length⟩) ∧
      ∀ x : Slice, readVarint (new x) = .ok v ⟨x,x.len⟩ ↔
        x.len ≤ MAX_VARINT_BYTES ∧
          (x.bytes = w ∨ w.length < x.len ∧ ∃ u b k, w = u ++ [b] ∧
            x.bytes = u ++ (b ||| 0x80) :: (List.replicate k 0x80 ++ [0x00])) := by
  have hw := (Varint.shortest v).isVarint
  refine ⟨(Varint.shortest v).bytes,⟨hw.word.length_pos,hw.length_le⟩,fun a => ?_,?_,fun x => ?_⟩
  · exact Encoder.writeVarint_buf ⟨a⟩ v
  · intro a s buf hbuf
    have hr : (⟨buf,a.length⟩ : Reader).rest = (Varint.shortest v).bytes ++ s := by
      rw [rest,hbuf,List.append_assoc,List.drop_left]
    rw [readVarint_ok _ hr,Varint.value_shortest]
    rfl
  · rw [readVarint_whole_iff,isVarint_value_iff]
    have hlonger : Overlong x.bytes (Varint.shortest v).bytes →
        (Varint.shortest v).bytes.length < x.len := Overlong.length_lt
    constructor
    · rintro ⟨hlen,hx⟩
      exact ⟨hlen,hx.imp_right fun h => ⟨hlonger h,h⟩⟩
    · rintro ⟨hlen,hx⟩
      exact ⟨hlen,hx.imp_right fun h => h.2⟩

end SignalisCodec
