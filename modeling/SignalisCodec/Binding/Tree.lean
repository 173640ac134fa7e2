import SignalisCodec.Binding.EncoderChecks
import SignalisCodec.Binding.ErrorText
import SignalisCodec.Tree.FlatRefinement

/-! The tree binding. What JavaScript is handed is the flat list of the fields binding, with
messages in the place of the payloads that parse. -/
namespace SignalisCodec

inductive NodeKind where
  | varint
  | fixed64
  | fixed32
  | bytes
  | message
  deriving DecidableEq, Repr

/-- A node in the recursive decode tree, as data for JavaScript. -/
structure TreeNode where
  fieldNumber : UInt32
  kind : NodeKind
  varint : Option BigInt
  fixed32 : Option UInt32
  bytes : Option Slice
  message : Option (List TreeNode)

mutual
def nodeToTree (fieldNumber : UInt32) : Node → TreeNode
  | .varint v => ⟨fieldNumber,.varint,some (bigintFromU64 v),none,none,none⟩
  | .fixed64 v => ⟨fieldNumber,.fixed64,some (bigintFromU64 v),none,none,none⟩
  | .fixed32 v => ⟨fieldNumber,.fixed32,none,some v,none,none⟩
  | .bytes b => ⟨fieldNumber,.bytes,none,none,some b,none⟩
  | .message children => ⟨fieldNumber,.message,none,none,none,some (nodesToTrees children)⟩

/-- `node_to_tree` on each of the children. -/
def nodesToTrees : Nodes → List TreeNode
  | [] => []
  | (fnum,child) :: rest => nodeToTree fnum child :: nodesToTrees rest
end

/-- Recursively decode `buf` into a tree. Exceeding `maxDepth` throws. -/
def decodeTreeJs (buf : Slice) (maxDepth : UInt32) : Except Thrown (List TreeNode) := do
  let tree ← mapErr toNapiErr (decodeTree buf maxDepth)
  return nodesToTrees tree

/-- What an exceeded depth limit throws, wherever in the tree it is hit. -/
def tooDeep (maxDepth : UInt32) : Thrown := .napi (toNapiErr (.depthLimitExceeded maxDepth 0))

/-- The kind of a scalar. -/
def scalarKind (wireType : UInt32) : NodeKind :=
  if wireType = WIRE_VARINT then .varint
  else if wireType = WIRE_FIXED64 then .fixed64
  else .fixed32

/-- A tree node shows a decoded field: the same number and scalar. A payload is shown as what it
decodes to under the limit one below if it is not empty and does decode, and as its bytes if it is
empty or is rejected there for another reason than depth. -/
def TreeNode.Shows (d : UInt32) (t : TreeNode) (f : DecodedField) : Prop :=
  t.fieldNumber = f.fieldNumber ∧ t.varint = f.varint ∧ t.fixed32 = f.fixed32 ∧
  match f.bytes with
  | none => t.kind = scalarKind f.wireType ∧ t.bytes = none ∧ t.message = none
  | some b =>
    (t.kind = .message ∧ t.bytes = none ∧
      ∃ children, t.message = some children ∧
        b.isEmpty = false ∧ 1 ≤ d ∧ decodeTreeJs b (d - 1) = .ok children) ∨
    (t.kind = .bytes ∧ t.message = none ∧ t.bytes = some b ∧
      (b.isEmpty = true ∨
        1 ≤ d ∧ ∃ e, decodeTreeJs b (d - 1) = .error e ∧ e ≠ tooDeep (d - 1)))

section thrown
variable {α : Type}

lemma toNapiErr_injective : Function.Injective toNapiErr := by
  intro a b h
  exact DecodeError.toText_injective (congrArg NapiError.reason h)

/-- An error of the core, as JavaScript sees it. -/
def Failure.thrown : Failure → Thrown
  | .err e => .napi (toNapiErr e)
  | .panic => .panic
  | .diverge => .diverge

lemma thrown_injective : Function.Injective Failure.thrown := by
  intro a b h
  cases a <;> cases b <;> simp_all [Failure.thrown,toNapiErr_injective.eq_iff]

lemma mapErr_error (h : Failure) :
    mapErr toNapiErr (.error h : Outcome α) = .error h.thrown := by
  cases h <;> rfl

end thrown

section calls
variable {buf : Slice} {d : UInt32}

lemma decodeTreeJs_of_ok {nodes : Nodes} (h : decodeTree buf d = .ok nodes) :
    decodeTreeJs buf d = .ok (nodesToTrees nodes) := by
  rw [decodeTreeJs,h]
  rfl

lemma decodeTreeJs_of_error {f : Failure} (h : decodeTree buf d = .error f) :
    decodeTreeJs buf d = .error f.thrown := by
  rw [decodeTreeJs,h,mapErr_error]
  rfl

lemma decodeTreeJs_error {t : Thrown} (h : decodeTreeJs buf d = .error t) :
    ∃ f, decodeTree buf d = .error f ∧ f.thrown = t := by
  cases hbuf : decodeTree buf d with
  | ok nodes =>
    rw [decodeTreeJs_of_ok hbuf] at h
    cases h
  | error f =>
    rw [decodeTreeJs_of_error hbuf] at h
    cases h
    exact ⟨f,rfl,rfl⟩

lemma decodeFieldsJs_of_error {f : Failure} (h : decodeFields buf = .error f) :
    decodeFieldsJs buf = .error f.thrown := by
  rw [decodeFieldsJs,h,mapErr_error]
  rfl

lemma decodeFieldsJs_error {t : Thrown} (h : decodeFieldsJs buf = .error t) :
    ∃ f, decodeFields buf = .error f ∧ f.IsMalformed ∧ f.thrown = t := by
  cases hbuf : decodeFields buf with
  | ok fields =>
    rw [decodeFieldsJs_of_ok hbuf] at h
    cases h
  | error f =>
    rw [decodeFieldsJs_of_error hbuf] at h
    cases h
    exact ⟨f,rfl,decodeFields_error hbuf,rfl⟩

/-- A thrown error is about the bytes exactly if it is not the exceeded depth limit. -/
lemma thrown_tooDeep_iff {f : Failure} (hd : d < 4294967295) (h : decodeTree buf d = .error f) :
    f.thrown = tooDeep d ↔ f.IsDepthLimit := by
  rw [decodeTree_eq_parseTree hd] at h
  have hdeep : tooDeep d = (Failure.err (.depthLimitExceeded d 0)).thrown := rfl
  rw [hdeep,thrown_injective.eq_iff]
  rcases parseTree_error h with hm | rfl
  · have hlimit := ((f.isMalformed_iff).mp hm).2
    constructor
    · rintro rfl
      exact absurd trivial hlimit
    · intro hf
      exact absurd hf hlimit
  · exact ⟨fun _ => trivial,fun _ => rfl⟩

end calls

section shows
variable {d : UInt32} {b : Slice} {field : Field} {p : UInt32 × Node}

lemma pred_lt (hpos : 1 ≤ d) : d - 1 < 4294967295 := by
  have hd := d.toNat_lt
  have hpos' : 1 ≤ d.toNat := hpos
  rw [UInt32.lt_iff_toNat_lt,UInt32.toNat_sub_of_le _ _ hpos]
  change d.toNat - 1 < 4294967295
  omega

/-- Opaque bytes, as JavaScript can check it. -/
lemma rejected_js (hpos : 1 ≤ d)
    (h : ∃ e, decodeTree b (d - 1) = .error (.err e) ∧ ¬ (Failure.err e).IsDepthLimit) :
    ∃ t, decodeTreeJs b (d - 1) = .error t ∧ t ≠ tooDeep (d - 1) := by
  obtain ⟨e,he,hlimit⟩ := h
  refine ⟨_,decodeTreeJs_of_error he,?_⟩
  exact (thrown_tooDeep_iff (pred_lt hpos) he).not.mpr hlimit

lemma Node.Refines.shows (h : Node.Refines d field p) :
    (nodeToTree p.1 p.2).Shows d field.toDecoded := by
  obtain ⟨number,value⟩ := field
  obtain ⟨n,node⟩ := p
  obtain ⟨rfl,hnode⟩ := h
  cases value with
  | bytes b =>
    obtain ⟨hshape,hmessage,hbytes⟩ := hnode
    rcases hshape with ⟨children,hchildren⟩ | hraw
    · obtain ⟨hne,hpos,hdecode⟩ := (hmessage children).mp hchildren
      obtain rfl : node = .message children := hchildren
      exact ⟨rfl,rfl,rfl,.inl ⟨rfl,rfl,_,rfl,hne,hpos,decodeTreeJs_of_ok hdecode⟩⟩
    · have hwhy := hbytes.mp hraw
      obtain rfl : node = .bytes b := hraw
      refine ⟨rfl,rfl,rfl,.inr ⟨rfl,rfl,rfl,?_⟩⟩
      exact hwhy.imp_right fun ⟨hpos,hrej⟩ => ⟨hpos,rejected_js hpos hrej⟩
  | _ =>
    obtain rfl : node = _ := hnode
    exact ⟨rfl,rfl,rfl,rfl,rfl,rfl⟩

lemma shows_nodesToTrees {nodes : Nodes} {fields : List Field}
    (h : List.Forall₂ (Node.Made (parseTree d d.toNat)) nodes fields) :
    List.Forall₂ (TreeNode.Shows d) (nodesToTrees nodes) (fields.map Field.toDecoded) := by
  induction h with
  | nil => exact .nil
  | cons hhead _ ih => exact .cons (Node.Made.refines hhead).shows ih

end shows

/-- Below `u32::MAX`. The decoded tree shows the decoded fields position by position. A tree decode
that throws anything but the exceeded depth limit throws what the fields decode throws. If the
fields decode throws, so does the tree decode, the same or the exceeded limit; if it does not, the
tree decode throws at most that. The fields decode never throws a text that could be mistaken for
an exceeded limit. -/
theorem decodeTreeJs_shows (buf : Slice) (d : UInt32) (hd : d < 4294967295) :
    (∀ ts, decodeTreeJs buf d = .ok ts →
      ∃ ds, decodeFieldsJs buf = .ok ds ∧ List.Forall₂ (TreeNode.Shows d) ts ds) ∧
    (∀ t, decodeTreeJs buf d = .error t → t ≠ tooDeep d → decodeFieldsJs buf = .error t) ∧
    (∀ t, decodeFieldsJs buf = .error t →
      decodeTreeJs buf d = .error t ∨ decodeTreeJs buf d = .error (tooDeep d)) ∧
    (∀ ds, decodeFieldsJs buf = .ok ds →
      (∃ ts, decodeTreeJs buf d = .ok ts) ∨ decodeTreeJs buf d = .error (tooDeep d)) ∧
    (∀ limit, decodeFieldsJs buf ≠ .error (tooDeep limit)) := by
  have hsim := parseTree_sim_decodeFields d d.toNat buf
  rw [← decodeTree_eq_parseTree hd] at hsim
  refine ⟨?_,?_,?_,?_,?_⟩
  · intro ts hts
    cases hnodes : decodeTree buf d with
    | error f =>
      rw [decodeTreeJs_of_error hnodes] at hts
      cases hts
    | ok nodes =>
      rw [decodeTreeJs_of_ok hnodes] at hts
      cases hts
      obtain ⟨fields,hfields,hmade⟩ := hsim.of_ok_left hnodes
      exact ⟨_,decodeFieldsJs_of_ok hfields,shows_nodesToTrees hmade⟩
  · intro t ht hdeep
    obtain ⟨f,hf,rfl⟩ := decodeTreeJs_error ht
    exact decodeFieldsJs_of_error (hsim.of_error_left hf ((thrown_tooDeep_iff hd hf).not.mp hdeep))
  · intro t ht
    obtain ⟨f,hf,-,rfl⟩ := decodeFieldsJs_error ht
    rcases hsim.of_error_right hf with hsame | ⟨g,hg,hlimit⟩
    · exact .inl (decodeTreeJs_of_error hsame)
    · rw [decodeTreeJs_of_error hg,(thrown_tooDeep_iff hd hg).mpr hlimit]
      exact .inr rfl
  · intro ds hds
    cases hnodes : decodeTree buf d with
    | ok nodes => exact .inl ⟨_,decodeTreeJs_of_ok hnodes⟩
    | error f =>
      by_cases hlimit : f.IsDepthLimit
      · rw [decodeTreeJs_of_error hnodes,(thrown_tooDeep_iff hd hnodes).mpr hlimit]
        exact .inr rfl
      · rw [decodeFieldsJs_of_error (hsim.of_error_left hnodes hlimit)] at hds
        cases hds
  · intro limit h
    obtain ⟨f,-,hm,hf⟩ := decodeFieldsJs_error h
    obtain rfl : f = .err (.depthLimitExceeded limit 0) := thrown_injective hf
    exact hm

theorem decodeTreeJs_shows_example :
    ∃ ds, decodeFieldsJs ⟨[0x08,0x01,0x12,0x02,0x08,0x05],by decide⟩ = .ok ds ∧
      List.Forall₂ (TreeNode.Shows 1) [⟨1,.varint,some 1,none,none,none⟩,
        ⟨2,.message,none,none,none,some [⟨1,.varint,some 5,none,none,none⟩]⟩] ds := by
  have htree : decodeTree ⟨[0x08,0x01,0x12,0x02,0x08,0x05],by decide⟩ 1 =
      .ok [(1,.varint 1),(2,.message [(1,.varint 5)])] := by decide +kernel
  exact (decodeTreeJs_shows _ 1 (by decide)).1 _ (decodeTreeJs_of_ok htree)

end SignalisCodec
