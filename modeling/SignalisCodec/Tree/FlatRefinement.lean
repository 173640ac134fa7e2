import SignalisCodec.Tree.Budget

/-! The tree decoder refines the flat one: same records, same scalars, same malformed inputs; only
the depth limit can make the two part. -/
namespace SignalisCodec
open Reader Fallible Drain

section shift
variable {limit limit' : UInt32} {budget : ℕ} {buf : Slice}

/-- The limit is a label: with the same budget the same trees come out. -/
lemma parseTree_ok_limit {t : Nodes} (limit limit' : UInt32) :
    parseTree limit budget buf = .ok t ↔ parseTree limit' budget buf = .ok t := by
  constructor
  · intro h
    exact (parseTree_mono limit limit' le_rfl buf).eq_of_ok h
  · intro h
    exact (parseTree_mono limit' limit le_rfl buf).eq_of_ok h

lemma parseTree_error_limit {f : Failure} (limit limit' : UInt32) (hf : ¬ f.IsDepthLimit) :
    parseTree limit budget buf = .error f ↔ parseTree limit' budget buf = .error f := by
  constructor
  · intro h
    exact (parseTree_mono limit limit' le_rfl buf).of_error_left h hf
  · intro h
    exact (parseTree_mono limit' limit le_rfl buf).of_error_left h hf

/-- A decode under limit `d - 1` starts with the budget left one level below limit `d`. -/
lemma decodeTree_pred {d : UInt32} (hpos : 1 ≤ d) (buf : Slice) :
    decodeTree buf (d - 1) = parseTree (d - 1) d.toNat buf := by
  have hd := d.toNat_lt
  have hpos' : 1 ≤ d.toNat := hpos
  have hpred : (d - 1).toNat = d.toNat - 1 := UInt32.toNat_sub_of_le _ _ hpos
  have hlt : d - 1 < 4294967295 := by
    rw [UInt32.lt_iff_toNat_lt,hpred]
    change d.toNat - 1 < 4294967295
    omega
  rw [decodeTree_eq_parseTree hlt,hpred,Nat.sub_add_cancel hpos']

end shift

/-- A node stands for a flat field: the same number and scalar value; a length-delimited payload
`b` is a message exactly if it decodes under the limit one below, and opaque exactly if it is
empty or fails to decode there for another reason than depth. -/
def Node.Refines (d : UInt32) (field : Field) (p : UInt32 × Node) : Prop :=
  p.1 = field.fieldNumber ∧
  match field.value with
  | .varint v => p.2 = .varint v
  | .fixed64 v => p.2 = .fixed64 v
  | .fixed32 v => p.2 = .fixed32 v
  | .bytes b =>
    ((∃ children, p.2 = .message children) ∨ p.2 = .bytes b) ∧
    (∀ children, p.2 = .message children ↔
      b.isEmpty = false ∧ 1 ≤ d ∧ decodeTree b (d - 1) = .ok children) ∧
    (p.2 = .bytes b ↔ b.isEmpty = true ∨
      1 ≤ d ∧ ∃ e, decodeTree b (d - 1) = .error (.err e) ∧ ¬ (Failure.err e).IsDepthLimit)

/-- What one step of the tree loop makes of the field the flat loop reads there. -/
def Node.Made (descend : Slice → Outcome Nodes) (p : UInt32 × Node) (field : Field) : Prop :=
  p.1 = field.fieldNumber ∧ field.value.node (trial descend) = .ok p.2

section step
variable {limit : UInt32} {budget : ℕ}

/-- One step of the tree loop against one step of the flat loop. -/
lemma decodeNode_sim_decodeField (r : Reader) :
    Sim (Node.Made (parseTree limit budget)) Failure.IsDepthLimit
      (decodeNode (parseTree limit budget) r) (decodeField r) := by
  rw [decodeNode_eq,decodeField_eq]
  cases hs : scanRecord r with
  | error f r' =>
    rw [bind_error hs,map_error hs]
    exact .error f r' r'
  | ok s r' =>
    rw [bind_ok hs,map_ok hs]
    unfold Scan.node
    cases hv : s.value.node (trial (parseTree limit budget)) with
    | ok node => exact .ok r' ⟨rfl,hv⟩
    | error f =>
      refine .cut r' _ ?_
      cases hvalue : s.value with
      | bytes b =>
        rw [hvalue] at hv
        exact (trial_error (parseTree_error_err b) hv).1
      | _ =>
        rw [hvalue] at hv
        cases hv

/-- The whole loops: the flat decode is what is left of the tree without the trial parses. -/
theorem parseTree_sim_decodeFields (limit : UInt32) (budget : ℕ) (buf : Slice) :
    SimResult (List.Forall₂ (Node.Made (parseTree limit budget))) Failure.IsDepthLimit
      (parseTree limit (budget + 1) buf) (decodeFields buf) := by
  have hstay : ∀ r a r', r.InBounds → decodeNode (parseTree limit budget) r = .ok a r' →
      r'.InBounds := by
    intro r a r' hb h
    exact (decodeNode_takesRecord _).inBounds hb h
  apply drain_sim hstay
  · intro r _ _
    exact decodeNode_sim_decodeField r
  · exact inBounds_new buf
  · exact .nil

end step

/-- Trial parses one level below limit `d` are decodes under limit `d - 1`. -/
lemma trial_refines {d : UInt32} {b : Slice} {node : Node}
    (h : trial (parseTree d d.toNat) b = .ok node) : 1 ≤ d ∧
    (∀ children, node = .message children ↔
      b.isEmpty = false ∧ decodeTree b (d - 1) = .ok children) ∧
    (node = .bytes b ↔ b.isEmpty = true ∨
      ∃ e, decodeTree b (d - 1) = .error (.err e) ∧ ¬ (Failure.err e).IsDepthLimit) := by
  have hpos : 1 ≤ d := by
    rw [UInt32.le_iff_toNat_le]
    change 1 ≤ d.toNat
    by_contra hzero
    obtain hzero : d.toNat = 0 := by omega
    rw [hzero] at h
    cases h
  have hok : ∀ children, parseTree d d.toNat b = .ok children ↔
      decodeTree b (d - 1) = .ok children := by
    intro children
    rw [decodeTree_pred hpos]
    exact parseTree_ok_limit d (d - 1)
  have herror : ∀ e, ¬ (Failure.err e).IsDepthLimit →
      (parseTree d d.toNat b = .error (.err e) ↔ decodeTree b (d - 1) = .error (.err e)) := by
    intro e he
    rw [decodeTree_pred hpos]
    exact parseTree_error_limit d (d - 1) he
  refine ⟨hpos,?_,?_⟩
  · intro children
    rw [← hok]
    constructor
    · rintro rfl
      exact trial_eq_message_iff.mp h
    · intro hmessage
      rw [trial_eq_message_iff.mpr hmessage] at h
      exact (Except.ok.inj h).symm
  · constructor
    · rintro rfl
      obtain ⟨-,⟨hempty,-⟩ | ⟨e,he,hlimit⟩⟩ := trial_eq_bytes_iff.mp h
      · exact .inl hempty
      · exact .inr ⟨e,(herror e hlimit).mp he,hlimit⟩
    · intro hraw
      rcases trial_ok h with ⟨children,rfl⟩ | hbytes
      · obtain ⟨hne,hchildren⟩ := trial_eq_message_iff.mp h
        rcases hraw with hempty | ⟨e,he,hlimit⟩
        · rw [hempty] at hne
          cases hne
        · rw [(herror e hlimit).mpr he] at hchildren
          cases hchildren
      · exact hbytes

lemma Node.Made.refines {d : UInt32} {p : UInt32 × Node} {field : Field}
    (h : Node.Made (parseTree d d.toNat) p field) : Node.Refines d field p := by
  obtain ⟨number,value⟩ := field
  obtain ⟨n,node⟩ := p
  obtain ⟨hnumber,hnode⟩ := h
  refine ⟨hnumber,?_⟩
  cases value with
  | bytes b =>
    have hnode' : trial (parseTree d d.toNat) b = .ok node := hnode
    obtain ⟨hpos,hmessage,hbytes⟩ := trial_refines hnode'
    simp only [hpos,true_and]
    exact ⟨trial_ok hnode',hmessage,hbytes⟩
  | _ =>
    cases hnode
    rfl

/-- Below `u32::MAX`: a tree refines the fields of the flat decode position by position; an error
other than depth is the flat one; and a flat error shows in the tree unless a depth error comes
first. -/
theorem decodeTree_refines_decodeFields (buf : Slice) (d : UInt32) (hd : d < 4294967295) :
    (∀ nodes, decodeTree buf d = .ok nodes →
      ∃ fields, decodeFields buf = .ok fields ∧ List.Forall₂ (Node.Refines d) fields nodes) ∧
    (∀ f, decodeTree buf d = .error f → ¬ f.IsDepthLimit → decodeFields buf = .error f) ∧
    (∀ f, decodeFields buf = .error f → decodeTree buf d = .error f ∨
      ∃ limit position,
        decodeTree buf d = .error (.err (.depthLimitExceeded limit position))) := by
  have hsim := parseTree_sim_decodeFields d d.toNat buf
  rw [← decodeTree_eq_parseTree hd] at hsim
  refine ⟨?_,?_,?_⟩
  · intro nodes h
    obtain ⟨fields,hfields,hmade⟩ := hsim.of_ok_left h
    refine ⟨fields,hfields,hmade.flip.imp ?_⟩
    intro field p hp
    exact Node.Made.refines hp
  · intro f h hlimit
    exact hsim.of_error_left h hlimit
  · intro f h
    rcases hsim.of_error_right h with herr | ⟨g,herr,hlimit⟩
    · exact .inl herr
    · obtain ⟨limit,position,rfl⟩ := g.isDepthLimit_iff.mp hlimit
      exact .inr ⟨limit,position,herr⟩

theorem decodeTree_refines_decodeFields_example :
    ∃ fields, decodeFields ⟨[0x0a,0x02,0x08,0x01,0x12,0x01,0x61],by decide⟩ = .ok fields ∧
      List.Forall₂ (Node.Refines 2) fields
        [(1,.message [(1,.varint 1)]),(2,.bytes ⟨[0x61],by decide⟩)] :=
  (decodeTree_refines_decodeFields _ 2 (by decide)).1 _ (by decide +kernel)

end SignalisCodec
