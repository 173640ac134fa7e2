import SignalisCodec.Core.Decoder
import SignalisCodec.Grammar.FieldKey
import SignalisCodec.Grammar.Varint
import SignalisCodec.Theory.PrefixCode

/-! The wire grammar: a message is a concatenation of records, each an accepted key followed by
what its wire type demands. An ill-formed record cannot be built. -/
namespace SignalisCodec

/-- The part of a record after its key, as it stands on the wire. -/
inductive Payload where
  | varint (w : Varint)
  | fixed64 (bs : List UInt8) (length_eq : bs.length = 8)
  | fixed32 (bs : List UInt8) (length_eq : bs.length = 4)
  | bytes (len : Varint) (b : Slice) (length_eq : b.len = len.value.toNat)

/-- The wire type a value travels under. -/
def FieldValue.wireType : FieldValue → WireType
  | varint _ => .varint
  | fixed64 _ => .fixed64
  | fixed32 _ => .fixed32
  | bytes _ => .lengthDelimited

/-- The length of a length-delimited payload; other values have none. -/
def FieldValue.payloadLen : FieldValue → ℕ
  | bytes b => b.len
  | _ => 0

namespace Payload

def wireType : Payload → WireType
  | varint _ => .varint
  | fixed64 _ _ => .fixed64
  | fixed32 _ _ => .fixed32
  | bytes _ _ _ => .lengthDelimited

/-- The bytes between the key and the value: a length prefix or nothing. -/
def head : Payload → List UInt8
  | bytes len _ _ => len.bytes
  | _ => []

/-- The bytes of the value itself. -/
def body : Payload → List UInt8
  | varint w => w.bytes
  | fixed64 bs _ => bs
  | fixed32 bs _ => bs
  | bytes _ b _ => b.bytes

def wire (p : Payload) : List UInt8 := p.head ++ p.body

def value : Payload → FieldValue
  | varint w => .varint w.value
  | fixed64 bs _ => .fixed64 (u64FromLeBytes bs)
  | fixed32 bs _ => .fixed32 (u32FromLeBytes bs)
  | bytes _ b _ => .bytes b

lemma value_wireType (p : Payload) : p.value.wireType = p.wireType := by
  cases p <;> rfl

/-- Given the wire type, the payload is delimited by its own bytes. -/
theorem prefix_free {p q : Payload} {s t : List UInt8} (hwt : p.wireType = q.wireType)
    (h : p.wire ++ s = q.wire ++ t) : p = q ∧ s = t := by
  cases p with
  | varint w =>
    cases q <;> try cases hwt
    obtain ⟨rfl,ht⟩ := Varint.prefix_free h
    exact ⟨rfl,ht⟩
  | fixed64 bs hbs =>
    cases q <;> try cases hwt
    obtain ⟨hb,ht⟩ := List.append_inj h (by simp_all [wire,head,body])
    obtain rfl : bs = _ := hb
    exact ⟨rfl,ht⟩
  | fixed32 bs hbs =>
    cases q <;> try cases hwt
    obtain ⟨hb,ht⟩ := List.append_inj h (by simp_all [wire,head,body])
    obtain rfl : bs = _ := hb
    exact ⟨rfl,ht⟩
  | bytes len b hb =>
    cases q <;> try cases hwt
    rename_i len' b' hb'
    simp only [wire,head,body,List.append_assoc] at h
    obtain ⟨rfl,hrest⟩ := Varint.prefix_free h
    obtain ⟨hbytes,ht⟩ := List.append_inj hrest (hb.trans hb'.symm)
    obtain rfl := Slice.ext hbytes
    exact ⟨rfl,ht⟩

end Payload

/-- One complete record. -/
structure Record where
  keyWord : Varint
  number : UInt32
  payload : Payload
  accepted : FieldKey.fromVarint keyWord.value 0 = .ok ⟨number,payload.wireType⟩

namespace Record

def key (rec : Record) : FieldKey := ⟨rec.number,rec.payload.wireType⟩

/-- The bytes of the record. -/
def wire (rec : Record) : List UInt8 := rec.keyWord.bytes ++ rec.payload.wire

/-- The field the record denotes. -/
def field (rec : Record) : Field := ⟨rec.number,rec.payload.value⟩

lemma accepted_at (rec : Record) (position : ℕ) :
    FieldKey.fromVarint rec.keyWord.value position = .ok rec.key :=
  FieldKey.fromVarint_position rec.accepted

lemma number_ne_zero (rec : Record) : rec.number ≠ 0 :=
  (FieldKey.fromVarint_ok_iff.mp rec.accepted).2.2

/-- Every record takes at least two bytes besides its own payload. -/
lemma payloadLen_add_two_le (rec : Record) :
    rec.payload.value.payloadLen + 2 ≤ rec.wire.length := by
  have hkey := rec.keyWord.length_pos
  have hpayload : rec.payload.value.payloadLen + 1 ≤ rec.payload.wire.length := by
    cases rec.payload with
    | varint w =>
      change 0 + 1 ≤ w.bytes.length
      have := w.length_pos
      omega
    | fixed64 bs hbs =>
      change 0 + 1 ≤ bs.length
      omega
    | fixed32 bs hbs =>
      change 0 + 1 ≤ bs.length
      omega
    | bytes len b hb =>
      have hlen := len.length_pos
      change b.bytes.length + 1 ≤ (len.bytes ++ b.bytes).length
      rw [List.length_append]
      omega
  rw [wire,List.length_append]
  omega

lemma wire_ne_nil (rec : Record) : rec.wire ≠ [] := by
  have := rec.keyWord.length_pos
  intro h
  simp [wire,List.append_eq_nil_iff] at h
  simp [h.1] at this

/-- No record begins another: the division of a message into records is unique. -/
theorem selfDelimiting : PrefixCode.SelfDelimiting wire where
  ne_nil := wire_ne_nil
  delimited := by
    rintro ⟨kw₁,n₁,p₁,hp⟩ ⟨kw₂,n₂,p₂,hq⟩ s t h
    simp only [wire,List.append_assoc] at h
    obtain ⟨rfl,hrest⟩ := Varint.prefix_free h
    rw [hp] at hq
    obtain ⟨rfl,hwt⟩ : n₁ = n₂ ∧ p₁.wireType = p₂.wireType := by simpa using hq
    obtain ⟨rfl,-⟩ := Payload.prefix_free hwt hrest
    rfl

end Record

/-- The bytes of a message. -/
def wires (recs : List Record) : List UInt8 := recs.flatMap Record.wire

@[simp] lemma wires_cons (rec : Record) (recs : List Record) :
    wires (rec :: recs) = rec.wire ++ wires recs := List.flatMap_cons

theorem wires_injective : Function.Injective wires := Record.selfDelimiting.flatMap_injective

end SignalisCodec
