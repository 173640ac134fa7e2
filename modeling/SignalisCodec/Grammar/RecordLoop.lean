import SignalisCodec.Grammar.Scan
import SignalisCodec.Grammar.WordLoop

/-! Loops whose body takes one record, and the three loops of the core that are of this kind. -/
namespace SignalisCodec
open Reader Fallible Drain

variable {α : Type}

/-- The body succeeds by passing over one record, and `Q` relates that record to its result. -/
def TakesRecord (body : ReadM α) (Q : Record → α → Prop) : Prop :=
  ∀ r a r', r.InBounds → (body r = .ok a r' ↔ ∃ rec : Record, r.Reads rec.wire r' ∧ Q rec a)

section loop
variable {body : ReadM α} {Q : Record → α → Prop}

lemma TakesRecord.progress (h : TakesRecord body Q) : Progress loop body :=
  TakesWord.progress Record.wire_ne_nil h

lemma TakesRecord.inBounds (h : TakesRecord body Q) {r r' : Reader} {a : α} (hb : r.InBounds)
    (hbody : body r = .ok a r') : r'.InBounds := by
  obtain ⟨rec,hread,-⟩ := (h r a r' hb).mp hbody
  exact hread.inBounds hb

/-- The loop returns on exactly the concatenations of records its body takes. -/
theorem TakesRecord.readAll_ok_iff (h : TakesRecord body Q) (buf : Slice) (as : List α) :
    readAll body buf = .ok as ↔ ∃ recs, wires recs = buf.bytes ∧ List.Forall₂ Q recs as :=
  TakesWord.readAll_ok_iff Record.wire_ne_nil h buf as

/-- The loop fails where its body fails, after a list of records it took. -/
theorem TakesRecord.readAll_error_iff (h : TakesRecord body Q) (buf : Slice) (f : Failure) :
    readAll body buf = .error f ↔
      ∃ recs as r r', (new buf).Reads (wires recs) r ∧ List.Forall₂ Q recs as ∧ r.rest ≠ [] ∧
        body r = .error f r' :=
  TakesWord.readAll_error_iff Record.wire_ne_nil h buf f

end loop

section bodies

lemma position_bind_const (x : ReadM α) : (position >>= fun _ => x) = x := rfl
lemma position_map_const (a : α) : ((fun _ => a) <$> position) = pure a := rfl

def Scan.field (s : Scan) : Field := ⟨s.key.fieldNumber,s.value⟩

/-- The loop body of `decode_fields` is the walk, keeping number and value. -/
theorem decodeField_eq : decodeField = Scan.field <$> scanRecord := by
  unfold decodeField scanRecord
  simp only [map_bind]
  refine bind_congr fun keyPos => bind_congr fun key => bind_congr fun k => ?_
  cases k.wireType <;> simp [scanValue,Scan.field,position_bind_const,position_map_const]

lemma decodeField_error {r r' : Reader} {f : Failure} (h : decodeField r = .error f r') :
    scanRecord r = .error f r' := by
  rw [decodeField_eq] at h
  exact map_eq_error_iff.mp h

/-- What `decode_tree_inner` makes of a value: `sub` decides about the length-delimited ones. -/
def FieldValue.node (sub : Slice → Outcome Node) : FieldValue → Outcome Node
  | .varint v => .ok (.varint v)
  | .fixed64 v => .ok (.fixed64 v)
  | .fixed32 v => .ok (.fixed32 v)
  | .bytes b => sub b

/-- The recursive call and the `match` on it. -/
def trial (descend : Slice → Outcome Nodes) (sub : Slice) : Outcome Node :=
  classify sub (descend sub)

def Scan.node (sub : Slice → Outcome Node) (s : Scan) : ReadM (UInt32 × Node) :=
  match s.value.node sub with
  | .ok node => return (s.key.fieldNumber,node)
  | .error f => throw f

/-- The loop body of `decode_tree_inner` is the walk, then the trial parse. -/
theorem decodeNode_eq (descend : Slice → Outcome Nodes) :
    decodeNode descend = scanRecord >>= Scan.node (trial descend) := by
  unfold decodeNode scanRecord
  simp only [bind_assoc]
  refine bind_congr fun keyPos => bind_congr fun key => bind_congr fun k => ?_
  cases k.wireType <;> simp [scanValue,Scan.node,FieldValue.node,trial,position_bind_const]
  refine bind_congr fun lenPos => bind_congr fun len => bind_congr fun l => bind_congr fun b => ?_
  cases classify b (descend b) <;> rfl

lemma decodeField_takesRecord : TakesRecord decodeField fun rec field => rec.field = field := by
  intro r a r' hb
  rw [decodeField_eq,map_eq_ok_iff]
  constructor
  · rintro ⟨s,hs,rfl⟩
    obtain ⟨rec,hread,rfl⟩ := scanRecord_ok hb hs
    exact ⟨rec,hread,rfl⟩
  · rintro ⟨rec,hread,rfl⟩
    exact ⟨_,scanRecord_reads hb hread,rfl⟩

lemma decodeNode_takesRecord (descend : Slice → Outcome Nodes) :
    TakesRecord (decodeNode descend) fun rec node =>
      rec.number = node.1 ∧ rec.payload.value.node (trial descend) = .ok node.2 := by
  intro r a r' hb
  rw [decodeNode_eq,bind_eq_ok_iff]
  constructor
  · rintro ⟨s,r₁,hs,hnode⟩
    obtain ⟨rec,hread,rfl⟩ := scanRecord_ok hb hs
    unfold Scan.node at hnode
    cases hv : (rec.scanAt r.pos).value.node (trial descend) with
    | error f =>
      rw [hv] at hnode
      cases hnode
    | ok node =>
      rw [hv] at hnode
      cases hnode
      exact ⟨rec,hread,rfl,hv⟩
  · rintro ⟨rec,hread,hnumber,hv⟩
    refine ⟨_,r',scanRecord_reads hb hread,?_⟩
    have hv' : (rec.scanAt r.pos).value.node (trial descend) = .ok a.2 := hv
    unfold Scan.node
    rw [hv',← show (rec.number,a.2) = a from Prod.ext hnumber rfl]
    rfl

end bodies
end SignalisCodec
