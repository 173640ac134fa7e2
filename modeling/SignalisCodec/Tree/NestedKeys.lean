import SignalisCodec.Grammar.KeyAliasing
import SignalisCodec.Tree.Descent

/-! The field numbers that the three decoders report, for the records of a message and, in a tree,
for those of the messages inside it. -/
namespace SignalisCodec
open Reader Drain Pairing

/-- All records of a message in the order of their keys: behind each record stand those of its
payload, if the payload is a message too. -/
inductive Unfolds : List Record → List Record → Prop
  | nil : Unfolds [] []
  | leaf {rec : Record} {recs all : List Record}
      (plain : ∀ b inner, rec.payload.value = .bytes b → wires inner ≠ b.bytes)
      (rest : Unfolds recs all) : Unfolds (rec :: recs) (rec :: all)
  | message {rec : Record} {recs all inner below : List Record} {b : Slice}
      (value : rec.payload.value = .bytes b) (parses : wires inner = b.bytes)
      (inside : Unfolds inner below) (rest : Unfolds recs all) :
      Unfolds (rec :: recs) (rec :: (below ++ all))

lemma exists_unfolds (recs : List Record) : ∃ all, Unfolds recs all := by
  induction hn : (wires recs).length using Nat.strongRecOn generalizing recs with
  | ind n ih =>
    cases recs with
    | nil => exact ⟨[],.nil⟩
    | cons rec recs =>
      rw [wires_cons,List.length_append] at hn
      have hroom := rec.payloadLen_add_two_le
      obtain ⟨all,hrest⟩ := ih _ (by omega) recs rfl
      by_cases hparses : ∃ b inner, rec.payload.value = .bytes b ∧ wires inner = b.bytes
      · obtain ⟨b,inner,hvalue,hw⟩ := hparses
        rw [hvalue] at hroom
        have hshort : (wires inner).length + 2 ≤ rec.wire.length := hw ▸ hroom
        obtain ⟨below,hinside⟩ := ih _ (by omega) inner rfl
        exact ⟨_,.message hvalue hw hinside hrest⟩
      · push Not at hparses
        exact ⟨_,.leaf hparses hrest⟩

/-- The wire type a node was sent under. -/
def Node.wireType : Node → WireType
  | varint _ => .varint
  | fixed64 _ => .fixed64
  | fixed32 _ => .fixed32
  | bytes _ => .lengthDelimited
  | message _ => .lengthDelimited

mutual
/-- What is reported inside a node. -/
def Node.reportsInside : Node → List (UInt32 × UInt8)
  | .varint _ => []
  | .fixed64 _ => []
  | .fixed32 _ => []
  | .bytes _ => []
  | .message children => reports children

/-- The field numbers and wire types in a tree, every node before the nodes inside it. -/
def reports : Nodes → List (UInt32 × UInt8)
  | [] => []
  | (n,node) :: rest => (n,node.wireType.toBits) :: (node.reportsInside ++ reports rest)
end

section tree
variable {maxDepth depth : UInt32} {b : Slice} {recs all : List Record}

lemma FieldValue.node_wireType {descend : Slice → Outcome Nodes} {v : FieldValue} {node : Node}
    (h : v.node (trial descend) = .ok node) : node.wireType = v.wireType := by
  cases v with
  | bytes b =>
    rcases trial_ok h with ⟨children,rfl⟩ | rfl <;> rfl
  | _ =>
    cases h
    rfl

/-- The loop makes this node of a record, given the recursive call. -/
def Record.Gives (descend : Slice → Outcome Nodes) (rec : Record) (p : UInt32 × Node) : Prop :=
  rec.number = p.1 ∧ rec.payload.value.node (trial descend) = .ok p.2

lemma Record.Gives.shown {descend : Slice → Outcome Nodes} {rec : Record} {p : UInt32 × Node}
    (h : rec.Gives descend p) : (p.1,p.2.wireType.toBits) = rec.shown := by
  refine Prod.ext h.1.symm (congrArg WireType.toBits ?_)
  exact (FieldValue.node_wireType h.2).trans rec.payload.value_wireType

/-- The records of a payload that the recursive call accepts. -/
lemma descent_ok {children : Nodes} (h : descent maxDepth depth b = .ok children) :
    ∃ inner, wires inner = b.bytes ∧
      List.Forall₂ (Record.Gives (descent maxDepth (depth + 1))) inner children := by
  rcases descent_cases maxDepth depth b with ⟨f,hf,-⟩ | hloop
  · rw [hf] at h
    cases h
  · rw [hloop] at h
    exact ((decodeNode_takesRecord _).readAll_ok_iff b children).mp h

/-- Nor does the recursive call refuse records for their bytes. -/
lemma descent_not_malformed {f : Failure} (hw : wires recs = b.bytes)
    (h : descent maxDepth depth b = .error f) : ¬ f.IsMalformed := by
  rcases descent_cases maxDepth depth b with ⟨g,hg,hm⟩ | hloop
  · rw [hg] at h
    cases h
    exact hm
  · rw [hloop] at h
    exact readAll_not_malformed hw h

/-- Only a `Message` node reports anything inside it, the records of its payload. -/
lemma reportsInside_of_trial {node : Node}
    (h : trial (descent maxDepth depth) b = .ok node) :
    node.reportsInside = [] ∧ (∀ inner, wires inner = b.bytes → inner = []) ∨
      ∃ children, node = .message children ∧ descent maxDepth depth b = .ok children := by
  rcases trial_ok h with ⟨children,rfl⟩ | rfl
  · exact .inr ⟨children,rfl,(trial_eq_message_iff.mp h).2⟩
  · refine .inl ⟨rfl,?_⟩
    intro inner hw
    obtain ⟨-,⟨hempty,-⟩ | ⟨e,he,hlimit⟩⟩ := trial_eq_bytes_iff.mp h
    · apply wires_injective
      rw [hw]
      exact List.length_eq_zero_iff.mp (beq_iff_eq.mp hempty)
    · have hmalformed := (Failure.isMalformed_iff _).mpr ⟨⟨e,rfl⟩,hlimit⟩
      exact absurd hmalformed (descent_not_malformed hw he)

/-- A payload that is no message leaves nothing to report inside its node. -/
lemma reportsInside_of_plain {rec : Record} {node : Node}
    (hplain : ∀ b inner, rec.payload.value = .bytes b → wires inner ≠ b.bytes)
    (hnode : rec.payload.value.node (trial (descent maxDepth depth)) = .ok node) :
    node.reportsInside = [] := by
  cases hvalue : rec.payload.value with
  | bytes b =>
    rw [hvalue] at hnode
    rcases reportsInside_of_trial hnode with ⟨hnone,-⟩ | ⟨children,-,hdescent⟩
    · exact hnone
    · obtain ⟨inner,hw,-⟩ := descent_ok hdescent
      exact absurd hw (hplain b inner hvalue)
  | _ =>
    rw [hvalue] at hnode
    cases hnode
    rfl

/-- A tree reports the records of its message at every level. By induction on these: a payload that
consists of records has become a `Message` node, unless it is empty, and no other has. -/
theorem Unfolds.reports_eq (h : Unfolds recs all) {t : Nodes}
    (hnodes : List.Forall₂ (Record.Gives (descent maxDepth depth)) recs t) :
    reports t = all.map Record.shown := by
  induction h generalizing depth t with
  | nil =>
    cases hnodes
    rfl
  | leaf hplain _ ih =>
    obtain ⟨p,t,hgives,hrest,rfl⟩ := List.forall₂_cons_left_iff.mp hnodes
    rw [reports,hgives.shown,reportsInside_of_plain hplain hgives.2,ih hrest]
    rfl
  | @message rec recs all inner below b hvalue hparses hinside _ ihInside ihRest =>
    obtain ⟨p,t,hgives,hrest,rfl⟩ := List.forall₂_cons_left_iff.mp hnodes
    have hbelow : p.2.reportsInside = below.map Record.shown := by
      have hnode := hgives.2
      rw [hvalue] at hnode
      rcases reportsInside_of_trial hnode with ⟨hnone,hempty⟩ | ⟨children,hmessage,hdescent⟩
      · obtain rfl := hempty inner hparses
        cases hinside
        exact hnone
      · obtain ⟨inner',hw,hchildren⟩ := descent_ok hdescent
        obtain rfl : inner' = inner := wires_injective (hw.trans hparses.symm)
        rw [hmessage]
        exact ihInside hchildren
    rw [reports,hgives.shown,hbelow,ihRest hrest,List.map_cons,List.map_append]

end tree

/-- A decoder accepts `buf` and reports `out` for the records `recs`: those of the message itself,
or in a tree those at every level. -/
inductive Reported (buf : Slice) : List Record → List (UInt32 × UInt8) → Prop
  | fields {recs : List Record} {fields : List Field} (listed : wires recs = buf.bytes)
      (decoded : decodeFields buf = .ok fields) :
      Reported buf recs (fields.map fun f => (f.fieldNumber,f.value.wireType.toBits))
  | index {recs : List Record} {entries : List IndexEntry} (listed : wires recs = buf.bytes)
      (decoded : indexFields buf = .ok entries) :
      Reported buf recs (entries.map fun e => (e.fieldNumber,e.wireType))
  | tree {recs all : List Record} {d : UInt32} {nodes : Nodes} (listed : wires recs = buf.bytes)
      (unfolds : Unfolds recs all) (decoded : decodeTree buf d = .ok nodes) :
      Reported buf all (reports nodes)

/-- What the decoders report for a record is its narrowed field number and its wire type. -/
theorem Reported.eq_shown {buf : Slice} {recs : List Record} {out : List (UInt32 × UInt8)}
    (h : Reported buf recs out) : out = recs.map Record.shown := by
  cases h with
  | fields hw hdecoded => exact fields_shown hw hdecoded
  | index hw hdecoded => exact entries_shown hw hdecoded
  | @tree recs all d nodes hw hunfolds hdecoded =>
    rw [decodeTree_eq_readAll,(decodeNode_takesRecord _).readAll_ok_iff] at hdecoded
    obtain ⟨recs',hw',hnodes⟩ := hdecoded
    obtain rfl : recs' = recs := wires_injective (hw'.trans hw.symm)
    exact hunfolds.reports_eq hnodes

/-- A buffer that one of the decoders accepts consists of records. -/
lemma wires_of_accepted {buf : Slice}
    (h : (∃ fields, decodeFields buf = .ok fields) ∨ (∃ entries, indexFields buf = .ok entries) ∨
      ∃ d nodes, decodeTree buf d = .ok nodes) : ∃ recs, wires recs = buf.bytes := by
  rcases h with ⟨fields,hfields⟩ | ⟨entries,hentries⟩ | ⟨d,nodes,hnodes⟩
  · obtain ⟨recs,hw,-⟩ := (decodeFields_ok_iff buf fields).mp hfields
    exact ⟨recs,hw⟩
  · obtain ⟨fields,hfields,-⟩ :=
      (indexFields_sim_decodeFields (indexFields_len_le hentries)).of_ok_left hentries
    obtain ⟨recs,hw,-⟩ := (decodeFields_ok_iff buf fields).mp hfields
    exact ⟨recs,hw⟩
  · rw [decodeTree_eq_readAll,(decodeNode_takesRecord _).readAll_ok_iff] at hnodes
    obtain ⟨recs,hw,-⟩ := hnodes
    exact ⟨recs,hw⟩

/-- No aliasing, exactly for keys of at most 35 bits: for single keys, up to those rejected anyway,
and for what a decoder reports for the records of a buffer, in a tree for those at every level.
Every buffer accepted has such records. -/
theorem keys_unaliased_iff (key : UInt64) (position : ℕ) (buf : Slice) :
    ((∀ k, FieldKey.fromVarint key position = .ok k → k.toVarint = key) ↔
      key.toNat < 2 ^ 35 ∨ RejectedKey key) ∧
    (∀ recs out, Reported buf recs out →
      (Unaliased recs out ↔ ∀ rec ∈ recs, rec.keyWord.value.toNat < 2 ^ 35)) ∧
    ((∃ fields, decodeFields buf = .ok fields) ∨ (∃ entries, indexFields buf = .ok entries) ∨
        (∃ d nodes, decodeTree buf d = .ok nodes) →
      ∃ recs all, wires recs = buf.bytes ∧ Unfolds recs all) := by
  refine ⟨⟨?_,?_⟩,?_,?_⟩
  · intro h
    by_cases hrej : RejectedKey key
    · exact .inr hrej
    · rw [@FieldKey.rejectedKey_iff key position] at hrej
      push Not at hrej
      obtain ⟨k,hk⟩ := hrej
      exact .inl ((FieldKey.toVarint_eq_iff hk).mp (h k hk))
  · intro h k hk
    rcases h with hlt | hrej
    · exact (FieldKey.toVarint_eq_iff hk).mpr hlt
    · exact absurd hk (FieldKey.rejectedKey_iff.mp hrej k)
  · intro recs out hreported
    rw [hreported.eq_shown]
    exact unaliased_shown_iff
  · intro haccepted
    obtain ⟨recs,hw⟩ := wires_of_accepted haccepted
    obtain ⟨all,hunfolds⟩ := exists_unfolds recs
    exact ⟨recs,all,hw,hunfolds⟩

/-- The key `2 ^ 35 + 8` comes out as field 1, like the key `8`. -/
theorem key_aliased :
    ¬ ∀ (key : UInt64) (position : ℕ) (k : FieldKey),
      FieldKey.fromVarint key position = .ok k → k.toVarint = key := by
  intro h
  have halias := h 34359738376 0 ⟨1,.varint⟩ (by decide)
  revert halias
  decide

end SignalisCodec
