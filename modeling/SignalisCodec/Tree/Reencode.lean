import SignalisCodec.Grammar.Canonical
import SignalisCodec.Tree.Budget

/-! Writing a decoded tree back with the encoder: the bytes only shrink, and every guess about what
is a submessage comes out the same. -/
namespace SignalisCodec
open Reader

mutual
/-- Write one node of a tree, a submessage as the length-delimited field of its encoding. -/
def Encoder.writeNode (e : Encoder) (fieldNumber : UInt32) : Node → Encoder
  | .varint v => e.writeVarintField fieldNumber v
  | .fixed64 v => e.writeFixed64Field fieldNumber v
  | .fixed32 v => e.writeFixed32Field fieldNumber v
  | .bytes b => e.writeBytesField fieldNumber b.bytes
  | .message children =>
    e.writeBytesField fieldNumber (Encoder.writeNodes Encoder.new children).finish

/-- Write a tree. -/
def Encoder.writeNodes (e : Encoder) : Nodes → Encoder
  | [] => e
  | (fieldNumber,node) :: rest => Encoder.writeNodes (e.writeNode fieldNumber node) rest
end

section tree
variable {limit : UInt32} {budget : ℕ}

/-- Only the empty buffer decodes to the empty tree. -/
lemma parseTree_isEmpty {buf : Slice} {t : Nodes} (h : parseTree limit budget buf = .ok t) :
    buf.isEmpty = t.isEmpty := by
  cases budget with
  | zero => cases h
  | succ budget =>
    obtain ⟨recs,hw,hnodes⟩ := parseTree_succ_ok_iff.mp h
    unfold Slice.isEmpty Slice.len
    rw [← hw]
    cases hnodes with
    | nil => rfl
    | @cons rec p recs t hp hrest =>
      simp [rec.wire_ne_nil]

/-- The encoding of a decoded tree is a buffer no longer than the original that decodes to it. -/
def Stable (limit : UInt32) (budget : ℕ) : Prop :=
  ∀ buf t, parseTree limit budget buf = .ok t →
    ∃ buf' : Slice, buf'.bytes = (Encoder.new.writeNodes t).finish ∧ buf'.len ≤ buf.len ∧
      parseTree limit budget buf' = .ok t

/-- The record the encoder writes for a value serves as soon as the value becomes the same node. -/
lemma Record.becomes_canonical {rec : Record} {node : Node} {v : FieldValue}
    (hwt : (Payload.canonical v).wireType = rec.payload.wireType)
    (hle : (Payload.canonical v).wire.length ≤ rec.payload.wire.length)
    (hv : v.node (trial (parseTree limit budget)) = .ok node)
    (hwrite : ∀ e : Encoder, e.writeNode rec.number node = e.writeField ⟨rec.number,v⟩) :
    ∃ rec', Record.Becomes limit budget rec' (rec.number,node) ∧
      rec'.wire.length ≤ rec.wire.length ∧
      ∀ e : Encoder, (e.writeNode rec.number node).buf = e.buf ++ rec'.wire := by
  refine ⟨canonical ⟨rec.number,v⟩ rec.number_ne_zero,⟨rfl,?_⟩,rec.canonical_length_le hwt hle,?_⟩
  · change (Payload.canonical v).value.node _ = _
    rw [Payload.canonical_value]
    exact hv
  · intro e
    rw [hwrite]
    exact Encoder.writeField_buf e _ rec.number_ne_zero

/-- Writing a node back gives a record that is no longer and becomes the same node. -/
lemma Record.reencode (hstable : Stable limit budget) {rec : Record} {p : UInt32 × Node}
    (h : Record.Becomes limit budget rec p) :
    ∃ rec', Record.Becomes limit budget rec' p ∧ rec'.wire.length ≤ rec.wire.length ∧
      ∀ e : Encoder, (e.writeNode p.1 p.2).buf = e.buf ++ rec'.wire := by
  obtain ⟨n,node⟩ := p
  obtain ⟨rfl,hnode⟩ := h
  cases hvalue : rec.payload.value with
  | bytes b =>
    rw [hvalue] at hnode
    rcases trial_ok hnode with ⟨children,rfl⟩ | rfl
    · obtain ⟨hne,hchildren⟩ := trial_eq_message_iff.mp hnode
      obtain ⟨b',hbytes,hle,hdecode⟩ := hstable b children hchildren
      cases hp : rec.payload with
      | bytes len c hc =>
        rw [hp] at hvalue
        cases hvalue
        apply becomes_canonical (v := .bytes b')
        · rw [hp]
          rfl
        · rw [hp]
          exact Payload.canonical_bytes_length_le hc hle
        · rw [parseTree_isEmpty hchildren,← parseTree_isEmpty hdecode] at hne
          exact trial_eq_message_iff.mpr ⟨hne,hdecode⟩
        · intro e
          simp only [Encoder.writeNode,Encoder.writeField,hbytes]
      | _ =>
        rw [hp] at hvalue
        cases hvalue
    · apply becomes_canonical (v := rec.payload.value)
      · exact Payload.canonical_wireType _
      · exact (Payload.canonical_shortens _).length_le
      · rw [hvalue]
        exact hnode
      · intro e
        simp only [Encoder.writeNode,Encoder.writeField,hvalue]
  | _ =>
    rw [hvalue] at hnode
    cases hnode
    apply becomes_canonical (v := rec.payload.value)
    · exact Payload.canonical_wireType _
    · exact (Payload.canonical_shortens _).length_le
    · rw [hvalue]
      rfl
    · intro e
      simp only [Encoder.writeNode,Encoder.writeField,hvalue]

/-- The same for a whole message. -/
lemma wires_reencode (hstable : Stable limit budget) {recs : List Record} {t : Nodes}
    (h : List.Forall₂ (Record.Becomes limit budget) recs t) :
    ∃ recs', List.Forall₂ (Record.Becomes limit budget) recs' t ∧
      (wires recs').length ≤ (wires recs).length ∧
      ∀ e : Encoder, (e.writeNodes t).buf = e.buf ++ wires recs' := by
  induction h with
  | nil =>
    refine ⟨[],.nil,le_rfl,?_⟩
    intro e
    exact (List.append_nil _).symm
  | @cons rec p recs t hp hrest ih =>
    obtain ⟨rec',hp',hle,hwrite⟩ := Record.reencode hstable hp
    obtain ⟨recs',hrest',hles,hwrites⟩ := ih
    refine ⟨rec' :: recs',.cons hp' hrest',?_,?_⟩
    · rw [wires_cons,wires_cons,List.length_append,List.length_append]
      exact Nat.add_le_add hle hles
    · intro e
      change ((e.writeNode p.1 p.2).writeNodes t).buf = _
      rw [hwrites,hwrite,wires_cons,List.append_assoc]

/-- Induction on the levels left: re-encoding below does not change what is recognised above. -/
theorem parseTree_stable (limit : UInt32) (budget : ℕ) : Stable limit budget := by
  induction budget with
  | zero => exact nofun
  | succ budget ih =>
    intro buf t h
    obtain ⟨recs,hw,hnodes⟩ := parseTree_succ_ok_iff.mp h
    obtain ⟨recs',hnodes',hle,hwrite⟩ := wires_reencode ih hnodes
    rw [hw] at hle
    refine ⟨⟨wires recs',le_trans hle buf.fits⟩,(hwrite Encoder.new).symm,hle,?_⟩
    exact parseTree_succ_ok_iff.mpr ⟨recs',rfl,hnodes'⟩

end tree

/-- A decoded tree written back fits a buffer no longer than the original, which decodes under the
same limit to the same tree. -/
theorem decodeTree_writeNodes (buf : Slice) (d : UInt32) (hd : d < 4294967295) (t : Nodes)
    (h : decodeTree buf d = .ok t) :
    (Encoder.new.writeNodes t).finish.length ≤ buf.len ∧
    ∀ hfit, decodeTree ⟨(Encoder.new.writeNodes t).finish,hfit⟩ d = .ok t := by
  rw [decodeTree_eq_parseTree hd] at h
  obtain ⟨buf',hbytes,hle,hdecode⟩ := parseTree_stable d _ buf t h
  refine ⟨hbytes ▸ hle,?_⟩
  intro hfit
  obtain rfl : buf' = ⟨_,hfit⟩ := Slice.ext hbytes
  rw [decodeTree_eq_parseTree hd]
  exact hdecode

theorem decodeTree_writeNodes_example :
    (Encoder.new.writeNodes [(1,.message [(1,.varint 1)])]).finish.length ≤ 7 ∧
    ∀ hfit, decodeTree ⟨(Encoder.new.writeNodes [(1,.message [(1,.varint 1)])]).finish,hfit⟩ 1 =
      .ok [(1,.message [(1,.varint 1)])] :=
  decodeTree_writeNodes ⟨[0x8a,0x00,0x83,0x00,0x08,0x81,0x00],by decide⟩ 1 (by decide)
    [(1,.message [(1,.varint 1)])] (by decide +kernel)

end SignalisCodec
