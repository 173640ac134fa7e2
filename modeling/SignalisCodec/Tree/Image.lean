import SignalisCodec.Theory.Pairing
import SignalisCodec.Tree.Reencode

/-! Which trees `decode_tree` can return: those it returns for their own encoding. -/
namespace SignalisCodec
open Reader

/-- A node that is told apart from every other by its encoding: a submessage has fields, and bytes
are no message themselves, or empty with a level left to try them on. -/
def Node.Stands (descend : Slice → Outcome Nodes) (below : Nodes → Prop) : Node → Prop
  | .message children => children ≠ [] ∧ below children
  | .bytes b =>
    b.isEmpty = true ∧ (∃ children, descend b = .ok children) ∨
      ∃ f, descend b = .error f ∧ f.IsMalformed
  | _ => True

/-- A tree of at most `budget` levels with legal field numbers whose nodes stand for themselves. -/
def Faithful (limit : UInt32) : ℕ → Nodes → Prop
  | 0,_ => False
  | budget + 1,t =>
    ∀ p ∈ t, p.1 ≠ 0 ∧ p.2.Stands (parseTree limit budget) (Faithful limit budget)

namespace Encoder

lemma writeBytesField_buf (e : Encoder) (fieldNumber : UInt32) (data : List UInt8) :
    ∃ head, (e.writeBytesField fieldNumber data).buf = e.buf ++ (head ++ data) := by
  refine ⟨(Varint.shortest (FieldKey.toVarint ⟨fieldNumber,.lengthDelimited⟩)).bytes ++
    (Varint.shortest (UInt64.ofNat data.length)).bytes,?_⟩
  change (writeVarint (e.writeKey fieldNumber .lengthDelimited) _).buf ++ data = _
  rw [writeVarint_buf,writeKey_buf]
  simp only [List.append_assoc]

/-- Writing a node appends to the buffer. -/
lemma buf_length_le_writeNode (e : Encoder) (n : UInt32) (node : Node) :
    e.buf.length ≤ (e.writeNode n node).buf.length := by
  cases node with
  | message children =>
    obtain ⟨head,hbuf⟩ := e.writeBytesField_buf n (new.writeNodes children).finish
    change _ ≤ (e.writeBytesField n _).buf.length
    rw [hbuf,List.length_append]
    exact Nat.le_add_right _ _
  | varint v => exact (e.writeField_wire ⟨n,.varint v⟩).symm ▸ by simp
  | fixed64 v => exact (e.writeField_wire ⟨n,.fixed64 v⟩).symm ▸ by simp
  | fixed32 v => exact (e.writeField_wire ⟨n,.fixed32 v⟩).symm ▸ by simp
  | bytes b => exact (e.writeField_wire ⟨n,.bytes b⟩).symm ▸ by simp

lemma buf_length_le_writeNodes (e : Encoder) (t : Nodes) :
    e.buf.length ≤ (e.writeNodes t).buf.length := by
  induction t generalizing e with
  | nil => exact le_rfl
  | cons p t ih => exact (e.buf_length_le_writeNode p.1 p.2).trans (ih (e.writeNode p.1 p.2))

/-- The encoding of a submessage is part of the encoding of the message. -/
lemma children_length_le {t : Nodes} {n : UInt32} {children : Nodes}
    (h : (n,.message children) ∈ t) (e : Encoder) :
    (new.writeNodes children).finish.length ≤ (e.writeNodes t).buf.length := by
  induction t generalizing e with
  | nil => cases h
  | cons p t ih =>
    rcases List.mem_cons.mp h with rfl | h
    · obtain ⟨head,hbuf⟩ := e.writeBytesField_buf n (new.writeNodes children).finish
      refine le_trans ?_ ((e.writeNode n (.message children)).buf_length_le_writeNodes t)
      change _ ≤ (e.writeBytesField n _).buf.length
      rw [hbuf,List.length_append,List.length_append]
      omega
    · exact ih h _

end Encoder

section image
variable {limit : UInt32} {budget : ℕ}

/-- The record the encoder writes for a node becomes that node if its value does. -/
lemma Record.becomes_of_value {n : UInt32} {node : Node} {v : FieldValue} (hn : n ≠ 0)
    (hv : v.node (trial (parseTree limit budget)) = .ok node)
    (hwrite : ∀ e : Encoder, e.writeNode n node = e.writeField ⟨n,v⟩) :
    ∃ rec, Record.Becomes limit budget rec (n,node) ∧
      ∀ e : Encoder, (e.writeNode n node).buf = e.buf ++ rec.wire := by
  refine ⟨canonical ⟨n,v⟩ hn,⟨rfl,?_⟩,?_⟩
  · change (Payload.canonical v).value.node _ = _
    rw [Payload.canonical_value]
    exact hv
  · intro e
    rw [hwrite]
    exact e.writeField_buf _ hn

/-- A node that stands for itself is written as a record that becomes it. -/
lemma Node.Stands.record {n : UInt32} {node : Node} (hn : n ≠ 0)
    (h : node.Stands (parseTree limit budget) fun t =>
      ∃ b : Slice, b.bytes = (Encoder.new.writeNodes t).finish ∧
        parseTree limit budget b = .ok t) :
    ∃ rec, Record.Becomes limit budget rec (n,node) ∧
      ∀ e : Encoder, (e.writeNode n node).buf = e.buf ++ rec.wire := by
  cases node with
  | message children =>
    obtain ⟨hne,b,hbytes,hdecode⟩ := h
    refine Record.becomes_of_value (v := .bytes b) hn ?_ ?_
    · refine trial_eq_message_iff.mpr ⟨?_,hdecode⟩
      rw [parseTree_isEmpty hdecode]
      exact List.isEmpty_eq_false_iff.mpr hne
    · intro e
      simp only [Encoder.writeNode,Encoder.writeField,hbytes]
  | bytes b =>
    refine Record.becomes_of_value (v := .bytes b) hn ?_ fun e => rfl
    refine trial_eq_bytes_iff.mpr ⟨rfl,h.imp id ?_⟩
    rintro ⟨f,hdecode,hf⟩
    obtain ⟨⟨e,rfl⟩,hlimit⟩ := f.isMalformed_iff.mp hf
    exact ⟨e,hdecode,hlimit⟩
  | varint v => exact Record.becomes_of_value (v := .varint v) hn rfl fun e => rfl
  | fixed64 v => exact Record.becomes_of_value (v := .fixed64 v) hn rfl fun e => rfl
  | fixed32 v => exact Record.becomes_of_value (v := .fixed32 v) hn rfl fun e => rfl

/-- The same for a whole message. -/
lemma records_of_stands {t : Nodes}
    (h : ∀ p ∈ t, p.1 ≠ 0 ∧ p.2.Stands (parseTree limit budget) fun t =>
      ∃ b : Slice, b.bytes = (Encoder.new.writeNodes t).finish ∧
        parseTree limit budget b = .ok t) :
    ∃ recs, List.Forall₂ (Record.Becomes limit budget) recs t ∧
      ∀ e : Encoder, (e.writeNodes t).buf = e.buf ++ wires recs := by
  induction t with
  | nil => exact ⟨[],.nil,fun e => (List.append_nil _).symm⟩
  | cons p t ih =>
    obtain ⟨n,node⟩ := p
    obtain ⟨hn,hstands⟩ := h (n,node) (by simp)
    obtain ⟨rec,hbecomes,hwrite⟩ := hstands.record hn
    obtain ⟨recs,hrest,hwrites⟩ := ih fun q hq => h q (by simp [hq])
    refine ⟨rec :: recs,.cons hbecomes hrest,fun e => ?_⟩
    change ((e.writeNode n node).writeNodes t).buf = _
    rw [hwrites,hwrite,wires_cons,List.append_assoc]

lemma Node.Stands.imp {descend : Slice → Outcome Nodes} {P Q : Nodes → Prop} {node : Node}
    (h : node.Stands descend P) (hPQ : ∀ children, node = .message children → P children →
      Q children) : node.Stands descend Q := by
  cases node with
  | message children => exact ⟨h.1,hPQ children rfl h.2⟩
  | _ => exact h

/-- A faithful tree is decoded from its own encoding. -/
theorem Faithful.decode {t : Nodes} (h : Faithful limit budget t)
    (hfit : (Encoder.new.writeNodes t).finish.length ≤ ISIZE_MAX) :
    parseTree limit budget ⟨(Encoder.new.writeNodes t).finish,hfit⟩ = .ok t := by
  induction budget generalizing t with
  | zero => exact h.elim
  | succ budget ih =>
    obtain ⟨recs,hbecomes,hwrite⟩ := records_of_stands fun p hp => by
      refine ⟨(h p hp).1,(h p hp).2.imp fun children hchildren hfaithful => ?_⟩
      have hle : (Encoder.new.writeNodes children).finish.length ≤ ISIZE_MAX :=
        le_trans (Encoder.children_length_le (n := p.1) (hchildren ▸ hp) Encoder.new) hfit
      exact ⟨⟨_,hle⟩,rfl,ih hfaithful hle⟩
    exact parseTree_succ_ok_iff.mpr ⟨recs,(hwrite Encoder.new).symm,hbecomes⟩

/-- Whatever is decoded is faithful: a submessage is decoded from its own encoding too. -/
theorem faithful_of_parseTree {buf : Slice} {t : Nodes} (h : parseTree limit budget buf = .ok t) :
    Faithful limit budget t := by
  induction budget generalizing buf t with
  | zero => cases h
  | succ budget ih =>
    obtain ⟨recs,-,hbecomes⟩ := parseTree_succ_ok_iff.mp h
    rintro ⟨n,node⟩ hp
    obtain ⟨rec,-,hnumber,hnode⟩ := Pairing.forall₂_mem_right hbecomes hp
    refine ⟨hnumber ▸ rec.number_ne_zero,?_⟩
    cases hv : rec.payload.value with
    | bytes b =>
      rw [hv] at hnode
      rcases trial_ok hnode with ⟨children,rfl⟩ | rfl
      · obtain ⟨hne,hdecode⟩ := trial_eq_message_iff.mp hnode
        rw [parseTree_isEmpty hdecode] at hne
        exact ⟨List.isEmpty_eq_false_iff.mp hne,ih hdecode⟩
      · obtain ⟨-,hempty | ⟨e,hdecode,hlimit⟩⟩ := trial_eq_bytes_iff.mp hnode
        · exact .inl hempty
        · exact .inr ⟨_,hdecode,(Failure.isMalformed_iff _).mpr ⟨⟨e,rfl⟩,hlimit⟩⟩
    | _ =>
      rw [hv] at hnode
      cases hnode
      trivial

end image

/-- A tree survives being written and read back exactly when it is faithful; no other tree is ever
returned, and each faithful tree that can be written at all is. -/
theorem decodeTree_image (d : UInt32) (hd : d < 4294967295) (t : Nodes) :
    (∀ hfit, decodeTree ⟨(Encoder.new.writeNodes t).finish,hfit⟩ d = .ok t ↔
      Faithful d (d.toNat + 1) t) ∧
    ((∃ buf, decodeTree buf d = .ok t) ↔
      Faithful d (d.toNat + 1) t ∧ (Encoder.new.writeNodes t).finish.length ≤ ISIZE_MAX) := by
  constructor
  · intro hfit
    rw [decodeTree_eq_parseTree hd]
    exact ⟨faithful_of_parseTree,fun h => h.decode hfit⟩
  · constructor
    · rintro ⟨buf,h⟩
      rw [decodeTree_eq_parseTree hd] at h
      obtain ⟨buf',hbytes,-⟩ := parseTree_stable d _ buf t h
      exact ⟨faithful_of_parseTree h,hbytes ▸ buf'.fits⟩
    · rintro ⟨h,hfit⟩
      refine ⟨⟨_,hfit⟩,?_⟩
      rw [decodeTree_eq_parseTree hd]
      exact h.decode hfit

/-- Bytes that are a message come back as one. -/
theorem decodeTree_image_example :
    ¬ ∃ buf, decodeTree buf 1 = .ok [(1,.bytes ⟨[0x08,0x01],by decide⟩)] := by
  obtain ⟨hself,himage⟩ :=
    decodeTree_image 1 (by decide) [(1,.bytes ⟨[0x08,0x01],by decide⟩)]
  intro hsome
  have hfaithful := (himage.mp hsome).1
  have hread := (hself (by decide +kernel)).mpr hfaithful
  revert hread
  decide +kernel

end SignalisCodec
