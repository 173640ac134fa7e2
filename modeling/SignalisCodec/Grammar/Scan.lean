import SignalisCodec.Core.Indexer
import SignalisCodec.Grammar.ReadVarint
import SignalisCodec.Grammar.Record

/-! The record walk that `decode_fields`, `index_fields` and `decode_tree_inner` repeat, stated
once: each loop body is the walk over one record followed by its own use of what was found. -/
namespace SignalisCodec
open Reader Fallible

/-- What is known about a record once the cursor has passed it. -/
structure Scan where
  key : FieldKey
  start : ℕ
  stop : ℕ
  value : FieldValue

/-- The value of a given wire type, with the position its bytes start at. -/
def scanValue : WireType → ReadM (ℕ × FieldValue)
  | .varint => do
    let start ← position
    return (start,.varint (← readVarint))
  | .fixed64 => do
    let start ← position
    return (start,.fixed64 (← readFixed64))
  | .fixed32 => do
    let start ← position
    return (start,.fixed32 (← readFixed32))
  | .lengthDelimited => do
    let lenPos ← position
    let len ← readVarint
    let len ← lift (lengthFromVarint len lenPos)
    let start ← position
    return (start,.bytes (← readBytes len))

def scanRecord : ReadM Scan := do
  let keyPos ← position
  let key ← readVarint
  let key ← lift (FieldKey.fromVarint key keyPos)
  let (start,value) ← scanValue key.wireType
  return ⟨key,start,← position,value⟩

/-- The key in front of a record. -/
def scanKey : ReadM FieldKey := do
  let keyPos ← position
  let key ← readVarint
  lift (FieldKey.fromVarint key keyPos)

lemma scanRecord_eq_key : scanRecord = do
    let key ← scanKey
    let (start,value) ← scanValue key.wireType
    return ⟨key,start,← position,value⟩ := by
  simp only [scanRecord,scanKey,bind_assoc]

/-- What is found of a record that starts at `pos`. -/
def Record.scanAt (rec : Record) (pos : ℕ) : Scan where
  key := rec.key
  start := pos + (rec.keyWord.bytes ++ rec.payload.head).length
  stop := pos + rec.wire.length
  value := rec.payload.value

section walk

/-- Noting the position first does not change what a read does when it succeeds. -/
lemma positioned_ok {α : Type} {x : ReadM α} {g : α → FieldValue} {r r' : Reader}
    {res : ℕ × FieldValue}
    (h : (do let start ← position; return (start,g (← x)) : ReadM (ℕ × FieldValue)) r =
      .ok res r') : ∃ v, x r = .ok v r' := by
  simp only [bind_eq_ok_iff,position_apply] at h
  obtain ⟨_,_,hpos,v,r₁,hread,hpure⟩ := h
  cases hpos
  cases hpure
  exact ⟨v,hread⟩

/-- Nor when it fails. -/
lemma positioned_error {α : Type} {x : ReadM α} {g : α → FieldValue} {r r' : Reader} {f : Failure}
    (h : (do let start ← position; return (start,g (← x)) : ReadM (ℕ × FieldValue)) r =
      .error f r') : x r = .error f r' := by
  simp only [bind_eq_error_iff,position_apply] at h
  obtain h | ⟨_,_,hpos,h | ⟨v,r₁,-,h⟩⟩ := h
  · cases h
  · cases hpos
    exact h
  · cases h

lemma scanValue_reads {p : Payload} {r r' : Reader} (hb : r.InBounds)
    (h : r.Reads p.wire r') :
    scanValue p.wireType r = .ok (r.pos + p.head.length,p.value) r' := by
  cases p with
  | varint w =>
    have hread := readVarint_ok_iff.mpr ⟨w,rfl,h⟩
    simp only [Payload.wireType,scanValue,bind_ok (position_apply r),bind_ok hread]
    rfl
  | fixed64 bs hbs =>
    have hread := (readFixed_ok_iff u64FromLeBytes (by norm_num [ISIZE_MAX]) hb).mpr
      ⟨bs,hbs,rfl,h⟩
    simp only [Payload.wireType,scanValue,bind_ok (position_apply r),readFixed64_eq,bind_ok hread]
    rfl
  | fixed32 bs hbs =>
    have hread := (readFixed_ok_iff u32FromLeBytes (by norm_num [ISIZE_MAX]) hb).mpr
      ⟨bs,hbs,rfl,h⟩
    simp only [Payload.wireType,scanValue,bind_ok (position_apply r),readFixed32_eq,bind_ok hread]
    rfl
  | bytes len b hlen =>
    have hr : r.rest = len.bytes ++ (b.bytes ++ r'.rest) := by
      rw [h.rest_eq,Payload.wire,List.append_assoc]
      rfl
    have hhead := reads_of_rest hr
    have hlenRead := readVarint_ok len hr
    have hbody : readBytes b.len (r.advance len.bytes.length) = .ok b r' := by
      rw [readBytes_ok (hhead.inBounds hb) (rest_advance hr),h.next,advance_advance]
      simp [Payload.wire,Payload.head,Payload.body,Slice.len]
    rw [hlen] at hbody
    simp only [Payload.wireType,scanValue,bind_ok (position_apply r),bind_ok hlenRead,
      lengthFromVarint_eq,lift,pure_bind,bind_ok (position_apply _),bind_ok hbody]
    rfl

lemma scanValue_ok {wt : WireType} {r r' : Reader} {res : ℕ × FieldValue} (hb : r.InBounds)
    (h : scanValue wt r = .ok res r') :
    ∃ p : Payload, p.wireType = wt ∧ r.Reads p.wire r' := by
  cases wt with
  | varint =>
    obtain ⟨v,hread⟩ := positioned_ok h
    obtain ⟨w,-,hw⟩ := readVarint_ok_iff.mp hread
    exact ⟨.varint w,rfl,hw⟩
  | fixed64 =>
    obtain ⟨v,hread⟩ := positioned_ok h
    obtain ⟨bs,hbs,-,hw⟩ :=
      (readFixed_ok_iff u64FromLeBytes (by norm_num [ISIZE_MAX]) hb).mp hread
    exact ⟨.fixed64 bs hbs,rfl,hw⟩
  | fixed32 =>
    obtain ⟨v,hread⟩ := positioned_ok h
    obtain ⟨bs,hbs,-,hw⟩ :=
      (readFixed_ok_iff u32FromLeBytes (by norm_num [ISIZE_MAX]) hb).mp hread
    exact ⟨.fixed32 bs hbs,rfl,hw⟩
  | lengthDelimited =>
    simp only [scanValue,bind_eq_ok_iff,position_apply,lengthFromVarint_eq,lift,pure_apply] at h
    obtain ⟨_,_,hpos,v,r₁,hlen,_,_,hl,_,_,hpos',b,r₂,hread,hpure⟩ := h
    cases hpos
    cases hl
    cases hpos'
    cases hpure
    obtain ⟨len,rfl,hw⟩ := readVarint_ok_iff.mp hlen
    obtain ⟨hb',hbody⟩ := (readBytes_ok_iff (hw.inBounds hb)).mp hread
    exact ⟨.bytes len b hb',rfl,hw.trans hbody⟩

lemma scanValue_error {wt : WireType} {r r' : Reader} {f : Failure} (hb : r.InBounds)
    (h : scanValue wt r = .error f r') : f.IsMalformed := by
  cases wt with
  | varint => exact readVarint_error (positioned_error h)
  | fixed64 => exact readFixed_error u64FromLeBytes hb (positioned_error h)
  | fixed32 => exact readFixed_error u32FromLeBytes hb (positioned_error h)
  | lengthDelimited =>
    simp only [scanValue,bind_eq_error_iff,position_apply,lengthFromVarint_eq,lift,
      pure_apply] at h
    obtain h | ⟨_,_,hpos,h | ⟨v,r₁,hlen,h | ⟨_,_,hl,h | ⟨_,_,hpos',h | ⟨b,r₂,-,h⟩⟩⟩⟩⟩ := h
    · cases h
    · exact readVarint_error h
    · cases h
    · cases h
    · cases hpos
      cases hl
      cases hpos'
      obtain ⟨len,-,hw⟩ := readVarint_ok_iff.mp hlen
      exact readBytes_error (hw.inBounds hb) h
    · cases h

/-- The walk passes over a record and reports it. -/
theorem scanRecord_reads {rec : Record} {r r' : Reader} (hb : r.InBounds)
    (h : r.Reads rec.wire r') : scanRecord r = .ok (rec.scanAt r.pos) r' := by
  have hr : r.rest = rec.keyWord.bytes ++ (rec.payload.wire ++ r'.rest) := by
    rw [h.rest_eq,Record.wire,List.append_assoc]
  have hhead := reads_of_rest hr
  have hbody : (r.advance rec.keyWord.bytes.length).Reads rec.payload.wire r' := by
    refine ⟨?_,rest_advance hr⟩
    rw [h.next,advance_advance,Record.wire,List.length_append]
  have hvalue := scanValue_reads (hhead.inBounds hb) hbody
  have hwt : rec.key.wireType = rec.payload.wireType := rfl
  simp only [scanRecord,bind_ok (position_apply r),bind_ok (readVarint_ok _ hr),
    rec.accepted_at,lift,pure_bind,hwt,bind_ok hvalue,bind_ok (position_apply r'),pure_apply]
  rw [h.pos_eq]
  simp [Record.scanAt,Nat.add_assoc]

/-- The walk succeeds in front of a record only. -/
theorem scanRecord_ok {r r' : Reader} {s : Scan} (hb : r.InBounds)
    (h : scanRecord r = .ok s r') : ∃ rec : Record, r.Reads rec.wire r' ∧ s = rec.scanAt r.pos := by
  have hscan := h
  simp only [scanRecord,bind_eq_ok_iff,position_apply] at h
  obtain ⟨_,_,hpos,v,r₁,hkey,k,r₂,hlift,res,r₃,hvalue,p,r₄,hstop,hpure⟩ := h
  cases hpos
  cases hstop
  cases hpure
  obtain ⟨w,rfl,hw⟩ := readVarint_ok_iff.mp hkey
  cases hk : FieldKey.fromVarint w.value r.pos with
  | error e =>
    rw [hk] at hlift
    cases hlift
  | ok k' =>
    rw [hk] at hlift
    cases hlift
    obtain ⟨p,hp,hbody⟩ := scanValue_ok (hw.inBounds hb) hvalue
    have hacc : FieldKey.fromVarint w.value 0 = .ok ⟨k.fieldNumber,p.wireType⟩ := by
      rw [hp]
      exact FieldKey.fromVarint_position hk
    have hread : r.Reads (⟨w,k.fieldNumber,p,hacc⟩ : Record).wire r' := hw.trans hbody
    refine ⟨_,hread,?_⟩
    rw [scanRecord_reads hb hread] at hscan
    exact (EStateM.Result.ok.inj hscan).1.symm

lemma scanRecord_error {r r' : Reader} {f : Failure} (hb : r.InBounds)
    (h : scanRecord r = .error f r') : f.IsMalformed := by
  simp only [scanRecord,bind_eq_error_iff,position_apply] at h
  obtain h | ⟨_,_,hpos,h | ⟨v,r₁,hkey,h | ⟨k,r₂,hlift,h | ⟨res,r₃,-,h | ⟨_,_,-,h⟩⟩⟩⟩⟩ := h
  · cases h
  · exact readVarint_error h
  · cases hpos
    cases hk : FieldKey.fromVarint v r.pos with
    | error e =>
      rw [hk] at h
      cases h
      exact FieldKey.fromVarint_error hk
    | ok k =>
      rw [hk] at h
      cases h
  · cases hpos
    obtain ⟨w,-,hw⟩ := readVarint_ok_iff.mp hkey
    have hstay : r₂ = r₁ := by
      cases hk : FieldKey.fromVarint v r.pos with
      | error e =>
        rw [hk] at hlift
        cases hlift
      | ok k =>
        rw [hk] at hlift
        cases hlift
        rfl
    exact scanValue_error (hstay ▸ hw.inBounds hb) h
  · cases h
  · cases h

end walk
end SignalisCodec
