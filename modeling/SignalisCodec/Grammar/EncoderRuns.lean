import SignalisCodec.Grammar.ReaderRuns

/-! Runs of an encoder: the write methods called one after another in any order. Each appends, and a
reader that makes the matching calls gets everything back. -/
namespace SignalisCodec
open Fallible Reader

/-- A call of one of the write methods. -/
inductive EncoderOp
  | writeVarint (value : UInt64)
  | writeVarintField (fieldNumber : UInt32) (value : UInt64)
  | writeFixed64Field (fieldNumber : UInt32) (value : UInt64)
  | writeFixed32Field (fieldNumber : UInt32) (value : UInt32)
  | writeBytesField (fieldNumber : UInt32) (data : Slice)
  deriving DecidableEq, Repr

namespace Returned

/-- The call that returns this value. -/
def op : Returned → ReaderOp
  | .byte _ => .readByte
  | .varint _ => .readVarint
  | .fixed32 _ => .readFixed32
  | .fixed64 _ => .readFixed64
  | .bytes slice => .readBytes slice.len
  | .unit => .skip 0

/-- The bytes an encoder writes for it. -/
def wire : Returned → List UInt8
  | .byte b => [b]
  | .varint v => (Varint.shortest v).bytes
  | .fixed32 v => u32ToLeBytes v
  | .fixed64 v => u64ToLeBytes v
  | .bytes slice => slice.bytes
  | .unit => []

section returned
variable {r : Reader} {t : List UInt8}

/-- In front of a value's bytes, the call that returns the value does. -/
lemma op_call (hb : r.InBounds) (a : Returned) (hr : r.rest = a.wire ++ t) :
    a.op.call r = .ok a (r.advance a.wire.length) := by
  have hread := reads_of_rest hr
  cases a with
  | byte b => exact map_ok (readByte_cons hr) _
  | varint v =>
    have hv := readVarint_ok (Varint.shortest v) hr
    rw [Varint.value_shortest] at hv
    exact map_ok hv _
  | fixed32 v =>
    have hv := (readFixed_ok_iff u32FromLeBytes (by decide) hb).mpr
      ⟨u32ToLeBytes v,LittleEndian.length_bytes 4 _,u32FromLeBytes_toLeBytes v,hread⟩
    exact map_ok hv _
  | fixed64 v =>
    have hv := (readFixed_ok_iff u64FromLeBytes (by decide) hb).mpr
      ⟨u64ToLeBytes v,LittleEndian.length_bytes 8 _,u64FromLeBytes_toLeBytes v,hread⟩
    exact map_ok hv _
  | bytes slice => exact map_ok (readBytes_ok hb hr) _
  | unit =>
    have hskip := readBytes_ok (s := Slice.empty) hb hr
    change ((fun _ => Returned.unit) <$> skip 0) r = _
    rw [skip_eq,Functor.map_map]
    exact map_ok hskip _

end returned
end Returned

/-- What the calls of a run return, one after the other. -/
def ReaderOp.outcomes : List ReaderOp → Reader → List (Except Failure Returned)
  | [],_ => []
  | op :: ops,r =>
    (match op.call r with
      | .ok a _ => .ok a
      | .error f _ => .error f) :: outcomes ops (op.next r)

/-- A reader in front of the bytes of some values gets these values and stops behind them. -/
theorem ReaderOp.outcomes_wires {r : Reader} {t : List UInt8} (hb : r.InBounds)
    (values : List Returned) (hr : r.rest = values.flatMap Returned.wire ++ t) :
    outcomes (values.map Returned.op) r = values.map .ok ∧
      run (values.map Returned.op) r = r.advance (values.flatMap Returned.wire).length := by
  induction values generalizing r with
  | nil => exact ⟨rfl,rfl⟩
  | cons a values ih =>
    rw [List.flatMap_cons,List.append_assoc] at hr
    have hcall := a.op_call hb hr
    have hnext : a.op.next r = r.advance a.wire.length := by rw [next,hcall]
    obtain ⟨hvalues,hcursor⟩ := ih ((reads_of_rest hr).inBounds hb) (rest_advance hr)
    constructor
    · rw [List.map_cons,outcomes,hcall,hnext,hvalues]
      rfl
    · change run (values.map Returned.op) (a.op.next r) = _
      rw [hnext,hcursor,advance_advance,List.flatMap_cons,List.length_append]

namespace EncoderOp

def call : EncoderOp → Encoder → Encoder
  | writeVarint value,e => e.writeVarint value
  | writeVarintField fieldNumber value,e => e.writeVarintField fieldNumber value
  | writeFixed64Field fieldNumber value,e => e.writeFixed64Field fieldNumber value
  | writeFixed32Field fieldNumber value,e => e.writeFixed32Field fieldNumber value
  | writeBytesField fieldNumber data,e => e.writeBytesField fieldNumber data.bytes

/-- The encoder a sequence of calls leaves behind. -/
def run (ops : List EncoderOp) (e : Encoder) : Encoder := ops.foldl (fun e op => op.call e) e

/-- What has to be read to get the arguments of a call back: the field key, the length of a
payload, the value. -/
def values : EncoderOp → List Returned
  | writeVarint value => [.varint value]
  | writeVarintField fieldNumber value =>
    [.varint (FieldKey.toVarint ⟨fieldNumber,.varint⟩),.varint value]
  | writeFixed64Field fieldNumber value =>
    [.varint (FieldKey.toVarint ⟨fieldNumber,.fixed64⟩),.fixed64 value]
  | writeFixed32Field fieldNumber value =>
    [.varint (FieldKey.toVarint ⟨fieldNumber,.fixed32⟩),.fixed32 value]
  | writeBytesField fieldNumber data =>
    [.varint (FieldKey.toVarint ⟨fieldNumber,.lengthDelimited⟩),
      .varint (UInt64.ofNat data.len),.bytes data]

def wire (op : EncoderOp) : List UInt8 := op.values.flatMap Returned.wire

/-- The calls of a reader that take the output of a run apart. -/
def readers (ops : List EncoderOp) : List ReaderOp := (ops.flatMap values).map Returned.op

lemma call_buf (op : EncoderOp) (e : Encoder) : (op.call e).buf = e.buf ++ op.wire := by
  cases op with
  | writeVarint value =>
    rw [call,Encoder.writeVarint_buf,wire,values,List.flatMap_singleton]
    rfl
  | writeVarintField fieldNumber value =>
    rw [call,Encoder.writeVarintField,Encoder.writeVarint_buf,Encoder.writeKey_buf]
    simp [wire,values,Returned.wire]
  | writeFixed64Field fieldNumber value =>
    change (e.writeKey fieldNumber .fixed64).buf ++ _ = _
    rw [Encoder.writeKey_buf]
    simp [wire,values,Returned.wire]
  | writeFixed32Field fieldNumber value =>
    change (e.writeKey fieldNumber .fixed32).buf ++ _ = _
    rw [Encoder.writeKey_buf]
    simp [wire,values,Returned.wire]
  | writeBytesField fieldNumber data =>
    change (Encoder.writeVarint (e.writeKey fieldNumber .lengthDelimited) _).buf ++ _ = _
    rw [Encoder.writeVarint_buf,Encoder.writeKey_buf]
    simp [wire,values,Returned.wire,Slice.len]

lemma run_buf (ops : List EncoderOp) (e : Encoder) :
    (run ops e).buf = e.buf ++ ops.flatMap wire := by
  induction ops generalizing e with
  | nil => exact (List.append_nil _).symm
  | cons op ops ih =>
    change (run ops (op.call e)).buf = _
    rw [ih,call_buf,List.flatMap_cons,List.append_assoc]

lemma run_append (ops more : List EncoderOp) (e : Encoder) :
    run (ops ++ more) e = run more (run ops e) := List.foldl_append

lemma wire_ne_nil (op : EncoderOp) : op.wire ≠ [] := by
  have hne : ∀ v, (Varint.shortest v).bytes ≠ [] := fun v =>
    (Varint.shortest v).isVarint.word.ne_nil
  cases op <;> simp [wire,values,Returned.wire,hne]

lemma length_le_wires (ops : List EncoderOp) : ops.length ≤ (ops.flatMap wire).length := by
  induction ops with
  | nil => exact Nat.zero_le _
  | cons op ops ih =>
    have hpos := List.length_pos_iff.mpr op.wire_ne_nil
    rw [List.flatMap_cons,List.length_append,List.length_cons]
    omega

lemma wires_eq (ops : List EncoderOp) :
    ops.flatMap wire = (ops.flatMap values).flatMap Returned.wire := by
  rw [List.flatMap_assoc]
  rfl

lemma run_isEmpty_iff (ops : List EncoderOp) (e : Encoder) :
    (run ops e).isEmpty = true ↔ e.isEmpty = true ∧ ops = [] := by
  unfold Encoder.isEmpty
  rw [run_buf,List.isEmpty_iff,List.isEmpty_iff,List.append_eq_nil_iff]
  refine and_congr_right fun _ => ⟨?_,?_⟩
  · intro hnil
    have hlen := length_le_wires ops
    rw [hnil] at hlen
    exact List.length_eq_zero_iff.mp (Nat.le_zero.mp hlen)
  · rintro rfl
    rfl

/-- What a run appended is taken apart by a reader that starts where it stands. -/
lemma replay (ops : List EncoderOp) {buf : Slice} {pre s : List UInt8}
    (h : buf.bytes = pre ++ (ops.flatMap wire ++ s)) :
    ReaderOp.outcomes (readers ops) ⟨buf,pre.length⟩ = (ops.flatMap values).map .ok ∧
    ReaderOp.run (readers ops) ⟨buf,pre.length⟩ =
      ⟨buf,pre.length + (ops.flatMap wire).length⟩ := by
  have hb : (⟨buf,pre.length⟩ : Reader).InBounds := by
    change pre.length ≤ buf.bytes.length
    rw [h,List.length_append]
    exact Nat.le_add_right _ _
  have hrest : (⟨buf,pre.length⟩ : Reader).rest =
      (ops.flatMap values).flatMap Returned.wire ++ s := by
    change buf.bytes.drop pre.length = _
    rw [h,List.drop_left,wires_eq]
  obtain ⟨hvalues,hcursor⟩ := ReaderOp.outcomes_wires hb _ hrest
  refine ⟨hvalues,?_⟩
  rw [readers,hcursor,← wires_eq]
  rfl

end EncoderOp

/-- After any calls on an encoder: what was written stays, every call appends at least a byte, and a
reader started where some of the calls begin gets back what they wrote, in order, and stops where
they end, whatever stands behind. -/
theorem encoderRuns_exact (e : Encoder) (ops more : List EncoderOp) :
    (EncoderOp.run ops e).finish <+: (EncoderOp.run (ops ++ more) e).finish ∧
    (EncoderOp.run ops e).len + more.length ≤ (EncoderOp.run (ops ++ more) e).len ∧
    ((EncoderOp.run ops e).isEmpty = true ↔ e.isEmpty = true ∧ ops = []) ∧
    ∀ (buf : Slice) s, buf.bytes = (EncoderOp.run (ops ++ more) e).finish ++ s →
      ReaderOp.outcomes (EncoderOp.readers more) ⟨buf,(EncoderOp.run ops e).len⟩ =
        (more.flatMap EncoderOp.values).map .ok ∧
      ReaderOp.run (EncoderOp.readers more) ⟨buf,(EncoderOp.run ops e).len⟩ =
        ⟨buf,(EncoderOp.run (ops ++ more) e).len⟩ := by
  have hbuf : (EncoderOp.run (ops ++ more) e).buf =
      (EncoderOp.run ops e).buf ++ more.flatMap EncoderOp.wire := by
    rw [EncoderOp.run_append,EncoderOp.run_buf]
  have hlen : (EncoderOp.run (ops ++ more) e).len =
      (EncoderOp.run ops e).len + (more.flatMap EncoderOp.wire).length := by
    unfold Encoder.len
    rw [hbuf,List.length_append]
  refine ⟨⟨_,hbuf.symm⟩,?_,EncoderOp.run_isEmpty_iff ops e,?_⟩
  · rw [hlen]
    exact Nat.add_le_add_left (EncoderOp.length_le_wires more) _
  · intro buf s hbytes
    rw [Encoder.finish,hbuf,List.append_assoc] at hbytes
    rw [hlen]
    exact EncoderOp.replay more hbytes

end SignalisCodec
