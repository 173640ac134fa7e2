import SignalisCodec.Lazy.Numbered
import SignalisCodec.Typed.PackedExact

/-! From typed values to bytes and back: the helpers, the encoder, the index and the getters. -/
namespace SignalisCodec

section inputs
variable {getU64 : BigInt → Bool × UInt64 × Bool} {inputs : List FieldInput}

/-- Where the inputs stand for the fields, those of one number carry the values of that number. -/
lemma carries_numbered {fields : List Field} (h : List.Forall₂ FieldInput.Stands inputs fields)
    (n : UInt32) :
    List.Forall₂ FieldInput.Carries (inputs.filter fun f => f.fieldNumber = n)
      (numbered n.toNat fields) := by
  rw [numbered,List.forall₂_map_right_iff]
  have hfilter := List.rel_filter (p := fun f : FieldInput => decide (f.fieldNumber = n))
    (q := fun f : Field => decide (f.fieldNumber.toNat = n.toNat)) (R := FieldInput.Stands) ?_ h
  · exact hfilter.imp fun f field hf => (stands_iff_carries.mp hf).2
  · intro f field hf
    simp [(stands_iff_carries.mp hf).1,UInt32.toNat_inj]

lemma numbers_of_stands {fields : List Field} (h : List.Forall₂ FieldInput.Stands inputs fields) :
    fieldNumbersOf fields = inputs.map fun f => f.fieldNumber.toNat :=
  (Pairing.map_eq_of_forall₂ h fun _ _ hf => by rw [(stands_iff_carries.mp hf).1]).symm

/-- The value an input carries is of the kind of its wire type. -/
lemma stands_of_carries {f : FieldInput} {value : FieldValue} (h : f.Carries value) :
    f.Stands ⟨f.fieldNumber,value⟩ :=
  stands_iff_carries.mpr ⟨rfl,h⟩

section kinds
variable {n : UInt32} {value : FieldValue}

lemma carries_varint {raw : BigInt}
    (h : FieldInput.Carries ⟨n,WIRE_VARINT,some raw,none,none⟩ value) :
    ∃ v, raw = bigintFromU64 v ∧ value = .varint v := by
  obtain ⟨v,hv,hfield⟩ := (stands_varint_iff rfl).mp (stands_of_carries h)
  exact ⟨v,Option.some.inj hv,congrArg Field.value hfield⟩

lemma carries_fixed64 {raw : BigInt}
    (h : FieldInput.Carries ⟨n,WIRE_FIXED64,some raw,none,none⟩ value) :
    ∃ v, raw = bigintFromU64 v ∧ value = .fixed64 v := by
  obtain ⟨v,hv,hfield⟩ := (stands_fixed64_iff rfl).mp (stands_of_carries h)
  exact ⟨v,Option.some.inj hv,congrArg Field.value hfield⟩

lemma carries_fixed32 {raw : UInt32}
    (h : FieldInput.Carries ⟨n,WIRE_FIXED32,none,some raw,none⟩ value) : value = .fixed32 raw := by
  obtain ⟨v,hv,hfield⟩ := (stands_fixed32_iff rfl).mp (stands_of_carries h)
  obtain rfl := Option.some.inj hv
  exact congrArg Field.value hfield

lemma carries_bytes {payload : Slice}
    (h : FieldInput.Carries ⟨n,WIRE_BYTES,none,none,some payload⟩ value) :
    value = .bytes payload := by
  obtain ⟨b,hb,hfield⟩ := (stands_bytes_iff rfl).mp (stands_of_carries h)
  obtain rfl := Option.some.inj hb
  exact congrArg Field.value hfield

end kinds

/-- What was encoded is indexed: the lazy message answers for each number from the values of the
inputs with that number. -/
lemma lazyIndex_encodeFieldsJs (hgetU64 : GetU64Exact getU64) (inputs : List FieldInput)
    (buf : Slice) (hbuf : encodeFieldsJs getU64 inputs = .ok buf)
    (hnum : ∀ f ∈ inputs, f.fieldNumber ≠ 0) (hlen : buf.len ≤ U32_MAX) :
    ∃ m, lazyIndex buf = .ok m ∧ m.fieldCount = inputs.length ∧
      m.fieldNumbers = FirstSeen.collect (inputs.map fun f => f.fieldNumber.toNat) ∧
      ∀ n : UInt32, ∃ values,
        List.Forall₂ FieldInput.Carries (inputs.filter fun f => f.fieldNumber = n) values ∧
        m.Holds n.toNat values := by
  obtain ⟨fields,hstands,hbytes⟩ := (encodeFieldsJs_ok_iff hgetU64).mp hbuf
  have hnumbers : ∀ field ∈ fields, field.fieldNumber ≠ 0 := by
    intro field hfield
    obtain ⟨f,hf,hfs⟩ := Pairing.forall₂_mem_right hstands hfield
    rw [(stands_iff_carries.mp hfs).1]
    exact hnum f hf
  have hdecode : decodeFields buf = .ok fields := decodeFields_of_written hnumbers hbytes
  obtain ⟨m,hm,hviews⟩ := LazyMessage.lazyIndex_of_fields hlen hdecode
  refine ⟨m,hm,?_,?_,?_⟩
  · rw [hviews.fieldCount,hstands.length_eq]
  · rw [hviews.fieldNumbers,numbers_of_stands hstands]
  · intro n
    exact ⟨_,carries_numbered hstands n,hviews.holds n.toNat⟩

end inputs

/-- The getter that reads a logical type. -/
inductive RawKind where
  | varint
  | fixed32
  | fixed64
  deriving DecidableEq, Repr

/-- A logical type: how its raw values travel, and the helpers that write and read them. -/
structure Logical (α : Type) where
  kind : RawKind
  write : α → Except Js.Exception ℤ
  read : ℤ → α

namespace Logical

def int32 : Logical Number := ⟨.varint,Js.fromInt32,Js.asInt32⟩
def int64 : Logical BigInt := ⟨.varint,Js.fromInt64,Js.asInt64⟩
def uint32 : Logical Number := ⟨.varint,Js.fromUint32,Js.asUint32⟩
def uint64 : Logical BigInt := ⟨.varint,Js.fromUint64,Js.asUint64⟩
def sint32 : Logical Number := ⟨.varint,Js.fromSint32,Js.asSint32⟩
def sint64 : Logical BigInt := ⟨.varint,Js.fromSint64,Js.asSint64⟩
def bool : Logical Bool := ⟨.varint,fun value => .ok (Js.fromBool value),Js.asBool⟩
def enum : Logical Number := ⟨.varint,Js.fromEnum,Js.asEnum⟩
def fixed32 : Logical Number := ⟨.fixed32,Js.fromFixed32,Js.asFixed32⟩
def sfixed32 : Logical Number := ⟨.fixed32,Js.fromSfixed32,Js.asSfixed32⟩
def fixed64 : Logical BigInt := ⟨.fixed64,Js.fromFixed64,Js.asFixed64⟩
def sfixed64 : Logical BigInt := ⟨.fixed64,Js.fromSfixed64,Js.asSfixed64⟩

variable {α : Type} (t : Logical α) (getU32 : Number → UInt32)

/-- The field to encode for a value. The host converts a number to `u32`. -/
def toInput (n : UInt32) (value : α) : Except Js.Exception FieldInput := do
  let raw ← t.write value
  return match t.kind with
    | .varint => ⟨n,WIRE_VARINT,some raw,none,none⟩
    | .fixed64 => ⟨n,WIRE_FIXED64,some raw,none,none⟩
    | .fixed32 => ⟨n,WIRE_FIXED32,none,some (getU32 raw),none⟩

/-- The typed reading of a getter's answer. -/
def first (m : LazyMessage) (n : ℕ) : Except Thrown (Option α) :=
  Option.map (fun raw : ℕ => t.read raw) <$>
    match t.kind with
    | .varint => .ok (m.getVarint n)
    | .fixed64 => m.getFixed64 n
    | .fixed32 => m.getFixed32 n

/-- If the inputs numbered `n` were written for these values, the first one and, for varints, all of
them are read back. -/
def ReadsBack (inputs : List FieldInput) (m : LazyMessage) : Prop :=
  ∀ (n : UInt32) (values : List α),
    List.Forall₂ (fun value f => t.toInput getU32 n value = .ok f) values
      (inputs.filter fun f => f.fieldNumber = n) →
    m.count n.toNat = values.length ∧ t.first m n.toNat = .ok values.head? ∧
      (t.kind = .varint → (m.getAllVarints n.toNat).map (fun raw : ℕ => t.read raw) = values)

/-- The raw value of a field, if it is of the kind. -/
def raw? : FieldValue → Option ℕ :=
  match t.kind with
  | .varint => FieldValue.varint?
  | .fixed64 => FieldValue.fixed64?
  | .fixed32 => FieldValue.fixed32?

section readsBack
variable {t getU32} {InRange : α → Prop} {bound : ℤ} {n : UInt32}

lemma toInput_ok (h : Js.Converts InRange bound t.write t.read) {v : α} {f : FieldInput}
    (hin : t.toInput getU32 n v = .ok f) :
    ∃ raw, 0 ≤ raw ∧ raw ≤ bound ∧ t.read raw = v ∧ f = match t.kind with
      | .varint => ⟨n,WIRE_VARINT,some raw,none,none⟩
      | .fixed64 => ⟨n,WIRE_FIXED64,some raw,none,none⟩
      | .fixed32 => ⟨n,WIRE_FIXED32,none,some (getU32 raw),none⟩ := by
  by_cases hv : InRange v
  · obtain ⟨raw,hraw,hlo,hhi,hread⟩ := h.accepts hv
    rw [toInput,hraw] at hin
    cases hin
    exact ⟨raw,hlo,hhi,hread,rfl⟩
  · obtain ⟨message,herror⟩ := h.refuses hv
    rw [toInput,herror] at hin
    cases hin

/-- The value a typed input carries is read as what was written. -/
lemma read_carried (hgetU32 : Js.GetU32Exact getU32)
    (h : Js.Converts InRange bound t.write t.read) (hbound : t.kind = .fixed32 → bound ≤ 4294967295)
    {v : α} {f : FieldInput} {value : FieldValue} (hin : t.toInput getU32 n v = .ok f)
    (hc : f.Carries value) : (t.raw? value).map (fun raw : ℕ => t.read raw) = some v := by
  obtain ⟨raw,hlo,hhi,rfl,rfl⟩ := toInput_ok h hin
  unfold raw?
  cases hkind : t.kind with
  | varint =>
    rw [hkind] at hc
    obtain ⟨v,rfl,rfl⟩ := carries_varint hc
    rfl
  | fixed64 =>
    rw [hkind] at hc
    obtain ⟨v,rfl,rfl⟩ := carries_fixed64 hc
    rfl
  | fixed32 =>
    rw [hkind] at hc
    obtain rfl := carries_fixed32 hc
    have hexact : ((getU32 raw).toNat : ℤ) = raw :=
      hgetU32.value raw hlo (hhi.trans (hbound hkind))
    exact congrArg (some <| t.read ·) hexact

variable {values : List α} {raws : List FieldValue}

/-- Value by value, the first and all of them. -/
lemma first_read (h : List.Forall₂ (fun v value => (t.raw? value).map (fun raw : ℕ => t.read raw) =
    some v) values raws) :
    (raws.head?.bind t.raw?).map (fun raw : ℕ => t.read raw) = values.head? := by
  cases h with
  | nil => rfl
  | cons hhead _ => exact hhead

lemma all_read (h : List.Forall₂ (fun v value => (t.raw? value).map (fun raw : ℕ => t.read raw) =
    some v) values raws) :
    (raws.filterMap t.raw?).map (fun raw : ℕ => t.read raw) = values := by
  induction h with
  | nil => rfl
  | @cons v value values raws hhead _ ih =>
    obtain ⟨raw,hraw,hread⟩ := Option.map_eq_some_iff.mp hhead
    rw [List.filterMap_cons_some hraw,List.map_cons,hread,ih]

lemma readsBack {inputs : List FieldInput} {m : LazyMessage} (hgetU32 : Js.GetU32Exact getU32)
    (hholds : ∀ n : UInt32, ∃ values,
      List.Forall₂ FieldInput.Carries (inputs.filter fun f => f.fieldNumber = n) values ∧
      m.Holds n.toNat values)
    (h : Js.Converts InRange bound t.write t.read)
    (hbound : t.kind = .fixed32 → bound ≤ 4294967295) : t.ReadsBack getU32 inputs m := by
  intro n values hvalues
  obtain ⟨raws,hraws,hm⟩ := hholds n
  have hread : List.Forall₂ (fun v value => (t.raw? value).map (fun raw : ℕ => t.read raw) = some v)
      values raws := by
    refine Pairing.forall₂_comp ?_ hvalues hraws
    intro v f value hin hc
    exact read_carried hgetU32 h hbound hin hc
  refine ⟨?_,?_,?_⟩
  · rw [hm.count,hread.length_eq]
  · have hfirst := first_read hread
    unfold first raw? at *
    cases hkind : t.kind with
    | varint =>
      rw [hkind] at hfirst
      rw [hm.getVarint]
      exact congrArg Except.ok hfirst
    | fixed64 =>
      rw [hkind] at hfirst
      simp only [hm.getFixed64]
      exact congrArg Except.ok hfirst
    | fixed32 =>
      rw [hkind] at hfirst
      simp only [hm.getFixed32]
      exact congrArg Except.ok hfirst
  · intro hkind
    have hall := all_read hread
    rw [raw?,hkind] at hall
    rw [hm.getAllVarints]
    exact hall

end readsBack
end Logical

section typed
open Logical

/-- Fields written with the helpers and encoded are read back by the getters and the helpers, each
logical type its own, whatever stands between them; and the typed getters read what was written
with the helper of their type. -/
theorem typed_fields_read_back {getU64 : BigInt → Bool × UInt64 × Bool} {getU32 : Number → UInt32}
    (hgetU64 : GetU64Exact getU64) (hgetU32 : Js.GetU32Exact getU32) (inputs : List FieldInput)
    (buf : Slice) (hbuf : encodeFieldsJs getU64 inputs = .ok buf)
    (hnum : ∀ f ∈ inputs, f.fieldNumber ≠ 0) (hlen : buf.len ≤ U32_MAX) :
    ∃ m, lazyIndex buf = .ok m ∧ m.fieldCount = inputs.length ∧
      m.fieldNumbers = FirstSeen.collect (inputs.map fun f => f.fieldNumber.toNat) ∧
      int32.ReadsBack getU32 inputs m ∧ int64.ReadsBack getU32 inputs m ∧
      uint32.ReadsBack getU32 inputs m ∧ uint64.ReadsBack getU32 inputs m ∧
      sint32.ReadsBack getU32 inputs m ∧ sint64.ReadsBack getU32 inputs m ∧
      bool.ReadsBack getU32 inputs m ∧ enum.ReadsBack getU32 inputs m ∧
      fixed32.ReadsBack getU32 inputs m ∧ sfixed32.ReadsBack getU32 inputs m ∧
      fixed64.ReadsBack getU32 inputs m ∧ sfixed64.ReadsBack getU32 inputs m ∧
      (∀ (n : UInt32) values, List.Forall₂ (fun v f => uint32.toInput getU32 n v = .ok f) values
        (inputs.filter fun f => f.fieldNumber = n) →
        m.getUint32 n.toNat = values.head? ∧ m.getAllUint32 n.toNat = values) ∧
      (∀ (n : UInt32) values, List.Forall₂ (fun v f => bool.toInput getU32 n v = .ok f) values
        (inputs.filter fun f => f.fieldNumber = n) → m.getBool n.toNat = values.head?) ∧
      (∀ (n : UInt32) (payload : Slice) rest,
        (inputs.filter fun f => f.fieldNumber = n) = ⟨n,WIRE_BYTES,none,none,some payload⟩ :: rest →
        m.getBytes n.toNat = some payload ∧
          m.getMessage n.toNat = some <$> lazyIndex payload) := by
  obtain ⟨m,hm,hcount,hnumbers,hholds⟩ := lazyIndex_encodeFieldsJs hgetU64 inputs buf hbuf hnum hlen
  have huint32 : uint32.ReadsBack getU32 inputs m :=
    readsBack hgetU32 hholds Js.converts_uint32 nofun
  have hbool : bool.ReadsBack getU32 inputs m :=
    readsBack hgetU32 hholds Js.converts_bool nofun
  refine ⟨m,hm,hcount,hnumbers,readsBack hgetU32 hholds Js.converts_int32 nofun,
    readsBack hgetU32 hholds Js.converts_int64 nofun,huint32,
    readsBack hgetU32 hholds Js.converts_uint64 nofun,
    readsBack hgetU32 hholds Js.converts_sint32 nofun,
    readsBack hgetU32 hholds Js.converts_sint64 nofun,hbool,
    readsBack hgetU32 hholds Js.converts_enum nofun,
    readsBack hgetU32 hholds Js.converts_fixed32 fun _ => le_rfl,
    readsBack hgetU32 hholds Js.converts_sfixed32 fun _ => le_rfl,
    readsBack hgetU32 hholds Js.converts_fixed64 nofun,
    readsBack hgetU32 hholds Js.converts_sfixed64 nofun,?_,?_,?_⟩
  · intro n values hvalues
    obtain ⟨-,hfirst,hall⟩ := huint32 n values hvalues
    exact ⟨Except.ok.inj hfirst,hall rfl⟩
  · intro n values hvalues
    exact Except.ok.inj (hbool n values hvalues).2.1
  · intro n payload rest hrest
    obtain ⟨values,hvalues,h⟩ := hholds n
    rw [hrest] at hvalues
    obtain ⟨value,_,hc,-,rfl⟩ := List.forall₂_cons_left_iff.mp hvalues
    obtain rfl := carries_bytes hc
    have hbytes : m.getBytes n.toNat = some payload := h.getBytes
    exact ⟨hbytes,by rw [LazyMessage.getMessage,hbytes]⟩

/-- Two sint32 values with a bool between them. -/
theorem typed_fields_read_back_example :
    ∃ m, lazyIndex ⟨[0x08,0x05,0x10,0x01,0x08,0x02],by decide⟩ = .ok m ∧
      sint32.first m 1 = .ok (some (-3)) ∧
      (m.getAllVarints 1).map (fun raw : ℕ => sint32.read raw) = [-3,1] ∧
      m.getBool 2 = some true := by
  obtain ⟨m,hm,-,-,-,-,-,-,hsint,-,-,-,-,-,-,-,-,hbool,-⟩ :=
    typed_fields_read_back signedWord_exact Js.lowWord_exact
      [⟨1,WIRE_VARINT,some 5,none,none⟩,⟨2,WIRE_VARINT,some 1,none,none⟩,
        ⟨1,WIRE_VARINT,some 2,none,none⟩]
      ⟨[0x08,0x05,0x10,0x01,0x08,0x02],by decide⟩ (by decide +kernel) (by decide) (by decide)
  have hvalues := hsint 1 [-3,1] (.cons (by decide +kernel) (.cons (by decide +kernel) .nil))
  exact ⟨m,hm,hvalues.2.1,hvalues.2.2 rfl,hbool 2 [true] (.cons rfl .nil)⟩

end typed
end SignalisCodec
