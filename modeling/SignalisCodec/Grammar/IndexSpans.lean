import SignalisCodec.Grammar.FlatDecode

/-! The indexer is the same record walk as the flat decoder; it keeps where a value stands instead
of the value. -/
namespace SignalisCodec
open Reader Fallible Drain

/-- The `match` of `index_fields`: where the value of a wire type starts and how long it is. -/
def indexSpan : WireType → ReadM (ℕ × ℕ)
  | .varint => do
    let start ← position
    let _ ← readVarint
    return (start,← orPanic (checkedSub (← position) start))
  | .fixed64 => do
    let start ← position
    skip 8
    return (start,8)
  | .fixed32 => do
    let start ← position
    skip 4
    return (start,4)
  | .lengthDelimited => do
    let lenPos ← position
    let len ← readVarint
    let len ← lift (lengthFromVarint len lenPos)
    let start ← position
    skip len
    return (start,len)

/-- One iteration of the loop of `index_fields`, before the narrowing of its numbers to `u32`. -/
def indexFieldWide : ReadM (FieldKey × ℕ × ℕ) := do
  let keyPos ← position
  let key ← readVarint
  let key ← lift (FieldKey.fromVarint key keyPos)
  return (key,← indexSpan key.wireType)

/-- The narrowing of key and span to an entry. -/
def IndexEntry.narrow (wide : FieldKey × ℕ × ℕ) : IndexEntry where
  fieldNumber := wide.1.fieldNumber
  wireType := wide.1.wireType.toBits
  offset := UInt32.ofNat wide.2.1
  length := UInt32.ofNat wide.2.2

def Scan.wide (s : Scan) : FieldKey × ℕ × ℕ := (s.key,s.start,s.stop - s.start)

/-- The entry written for a record. -/
def Scan.entry (s : Scan) : IndexEntry where
  fieldNumber := s.key.fieldNumber
  wireType := s.key.wireType.toBits
  offset := UInt32.ofNat s.start
  length := UInt32.ofNat (s.stop - s.start)

section walk

/-- The narrowing is the last thing an iteration does. -/
lemma indexField_eq_narrow : indexField = IndexEntry.narrow <$> indexFieldWide := by
  unfold indexField indexFieldWide
  simp only [map_bind]
  refine bind_congr fun keyPos => bind_congr fun key => bind_congr fun k => ?_
  obtain ⟨number,wireType⟩ := k
  cases wireType <;> simp [indexSpan,IndexEntry.narrow]

/-- Skipping bytes passes over what reading them passes over, and fails where that fails. -/
lemma skip_span {α : Type} {r : Reader} (hb : r.InBounds) {len : ℕ} {x : ReadM α} {g : Slice → α}
    (hx : x r = (g <$> readBytes len) r) :
    (do skip len; return (r.pos,len) : ReadM (ℕ × ℕ)) r =
      (x >>= fun _ => do return (r.pos,(← position) - r.pos)) r := by
  rw [skip_eq]
  rcases readBytes_cases hb len with ⟨s,-,-,hread⟩ | ⟨f,-,he⟩
  · rw [map_ok hread] at hx
    rw [bind_ok (map_ok hread _),bind_ok hx]
    simp only [bind_ok (position_apply _),pure_apply,advance_pos,Nat.add_sub_cancel_left]
  · rw [map_error he] at hx
    rw [bind_error (map_error he _),bind_error hx]

/-- The span of a value, read or skipped. -/
lemma indexSpan_eq (wt : WireType) {r : Reader} (hb : r.InBounds) :
    indexSpan wt r = (do
      let (start,_) ← scanValue wt
      return (start,(← position) - start)) r := by
  cases wt with
  | varint =>
    simp only [indexSpan,scanValue,bind_assoc,bind_ok (position_apply r)]
    cases hv : readVarint r with
    | error f r' => rw [bind_error hv,bind_error hv]
    | ok v r' =>
      obtain ⟨w,-,hw⟩ := readVarint_ok_iff.mp hv
      have hsub : checkedSub r'.pos r.pos = some (r'.pos - r.pos) :=
        if_pos (by rw [hw.pos_eq]; omega)
      simp only [bind_ok hv,bind_ok (position_apply r'),pure_bind,hsub,orPanic_some]
  | fixed64 =>
    simp only [indexSpan,scanValue,bind_assoc,bind_ok (position_apply r),pure_bind]
    exact skip_span hb (readFixed_eq_map u64FromLeBytes hb)
  | fixed32 =>
    simp only [indexSpan,scanValue,bind_assoc,bind_ok (position_apply r),pure_bind]
    exact skip_span hb (readFixed_eq_map u32FromLeBytes hb)
  | lengthDelimited =>
    simp only [indexSpan,scanValue,bind_assoc,bind_ok (position_apply r)]
    cases hv : readVarint r with
    | error f r' => rw [bind_error hv,bind_error hv]
    | ok v r' =>
      obtain ⟨w,-,hw⟩ := readVarint_ok_iff.mp hv
      simp only [bind_ok hv,lengthFromVarint_eq,lift,pure_bind,bind_ok (position_apply r')]
      apply skip_span (hw.inBounds hb)
      rw [id_map]

/-- The loop body of `index_fields` is the walk, keeping number, wire type and span. -/
theorem indexFieldWide_eq {r : Reader} (hb : r.InBounds) :
    indexFieldWide r = (Scan.wide <$> scanRecord) r := by
  unfold indexFieldWide scanRecord
  simp only [map_bind,bind_ok (position_apply r)]
  cases hkey : readVarint r with
  | error f r₁ => rw [bind_error hkey,bind_error hkey]
  | ok v r₁ =>
    rw [bind_ok hkey,bind_ok hkey]
    obtain ⟨w,-,hw⟩ := readVarint_ok_iff.mp hkey
    cases hk : FieldKey.fromVarint v r.pos with
    | error e => rfl
    | ok k =>
      have hspan := indexSpan_eq k.wireType (hw.inBounds hb)
      simp only [lift,pure_bind]
      cases hvalue : scanValue k.wireType r₁ with
      | error f r₂ =>
        rw [bind_error hvalue] at hspan
        rw [bind_error hspan,bind_error hvalue]
      | ok res r₂ =>
        rw [bind_ok hvalue] at hspan
        rw [bind_ok hspan,bind_ok hvalue]
        rfl

theorem indexField_eq {r : Reader} (hb : r.InBounds) :
    indexField r = (Scan.entry <$> scanRecord) r := by
  have hwide := indexFieldWide_eq hb
  rw [indexField_eq_narrow]
  cases hs : scanRecord r with
  | error f r' =>
    rw [map_error hs] at hwide
    rw [map_error hwide,map_error hs]
  | ok s r' =>
    rw [map_ok hs] at hwide
    rw [map_ok hwide,map_ok hs]
    rfl

end walk

section spans

/-- The entry says where in `buf` the value of the field stands. -/
def IndexEntry.Locates (buf : Slice) (entry : IndexEntry) (field : Field) : Prop :=
  ∃ pre rec post, buf.bytes = pre ++ (Record.wire rec ++ post) ∧
    entry = (rec.scanAt pre.length).entry ∧ field = rec.field

/-- A step of the indexer passes over one record and writes its entry. -/
lemma indexField_ok {r r' : Reader} {entry : IndexEntry} (hb : r.InBounds)
    (h : indexField r = .ok entry r') :
    ∃ rec : Record, r.Reads rec.wire r' ∧ entry = (rec.scanAt r.pos).entry := by
  rw [indexField_eq hb] at h
  obtain ⟨s,hs,rfl⟩ := map_eq_ok_iff.mp h
  obtain ⟨rec,hread,rfl⟩ := scanRecord_ok hb hs
  exact ⟨rec,hread,rfl⟩

section entry
variable {rec : Record} {pos : ℕ}

/-- Below 4 GiB an entry holds where the value of its record starts. -/
lemma scanAt_entry_offset (h : pos + rec.wire.length ≤ U32_MAX) :
    (rec.scanAt pos).entry.offset.toNat =
      pos + (rec.keyWord.bytes ++ rec.payload.head).length := by
  simp only [Record.wire,Payload.wire,List.length_append,U32_MAX] at h
  simp only [Scan.entry,Record.scanAt,UInt32.toNat_ofNat',List.length_append]
  exact Nat.mod_eq_of_lt (by omega)

lemma scanAt_entry_length (h : pos + rec.wire.length ≤ U32_MAX) :
    (rec.scanAt pos).entry.length.toNat = rec.payload.body.length := by
  simp only [Record.wire,Payload.wire,List.length_append,U32_MAX] at h
  simp only [Scan.entry,Record.scanAt,Record.wire,Payload.wire,UInt32.toNat_ofNat',
    List.length_append]
  rw [Nat.mod_eq_of_lt (by omega)]
  omega

end entry

/-- A cursor within `buf`. -/
def Within (buf : Slice) (r : Reader) : Prop := r.buf = buf ∧ r.InBounds

lemma within_new (buf : Slice) : Within buf (new buf) := ⟨rfl,inBounds_new buf⟩

lemma Within.pos_le {buf : Slice} {r : Reader} (h : Within buf r) : r.pos ≤ buf.len := by
  obtain ⟨rfl,hb⟩ := h
  exact hb

lemma Within.step {buf : Slice} {r r' : Reader} {w : List UInt8} (h : Within buf r)
    (hread : r.Reads w r') : Within buf r' :=
  ⟨hread.buf_eq.trans h.1,hread.inBounds h.2⟩

/-- The bytes before the cursor, a record in front of it, and what follows make up the buffer. -/
lemma Within.split {buf : Slice} {r r' : Reader} {w : List UInt8} (h : Within buf r)
    (hread : r.Reads w r') :
    ∃ pre, pre.length = r.pos ∧ buf.bytes = pre ++ (w ++ r'.rest) := by
  obtain ⟨rfl,hb⟩ := h
  refine ⟨r.buf.bytes.take r.pos,List.length_take_of_le hb,?_⟩
  rw [← hread.rest_eq]
  exact (List.take_append_drop _ _).symm

/-- One step of the indexer against one step of the flat decoder. -/
lemma indexField_sim_decodeField {buf : Slice} {r : Reader} (h : Within buf r) :
    Sim (IndexEntry.Locates buf) (fun _ => False) (indexField r) (decodeField r) := by
  rw [indexField_eq h.2,decodeField_eq]
  cases hs : scanRecord r with
  | error f r' =>
    rw [map_error hs,map_error hs]
    exact .error f r' r'
  | ok s r' =>
    rw [map_ok hs,map_ok hs]
    obtain ⟨rec,hread,rfl⟩ := scanRecord_ok h.2 hs
    obtain ⟨pre,hpos,hbytes⟩ := h.split hread
    refine .ok r' ⟨pre,rec,r'.rest,hbytes,?_,rfl⟩
    rw [hpos]

/-- The indexer answers as the flat decoder does, with entries that locate the fields. -/
theorem indexFields_sim_decodeFields {buf : Slice} (hlen : buf.len ≤ U32_MAX) :
    SimResult (List.Forall₂ (IndexEntry.Locates buf)) (fun _ => False)
      (indexFields buf) (decodeFields buf) := by
  have hstep : ∀ r a r', Within buf r → indexField r = .ok a r' → Within buf r' := by
    intro r a r' h hbody
    obtain ⟨rec,hread,-⟩ := indexField_ok h.2 hbody
    exact h.step hread
  rw [indexFields,if_neg (Nat.not_lt.mpr hlen)]
  apply drain_sim hstep
  · intro r h _
    exact indexField_sim_decodeField h
  · exact within_new buf
  · exact .nil

/-- An index exists below 4 GiB only. -/
lemma indexFields_len_le {buf : Slice} {entries : List IndexEntry}
    (h : indexFields buf = .ok entries) : buf.len ≤ U32_MAX := by
  by_contra hlen
  rw [indexFields,if_pos (Nat.not_le.mp hlen)] at h
  cases h

lemma indexFields_of_decodeFields {buf : Slice} {fields : List Field} (hlen : buf.len ≤ U32_MAX)
    (h : decodeFields buf = .ok fields) :
    ∃ entries, indexFields buf = .ok entries ∧
      List.Forall₂ (IndexEntry.Locates buf) entries fields := by
  rcases (indexFields_sim_decodeFields hlen).of_ok_right h with hok | ⟨_,_,hit⟩
  · exact hok
  · exact hit.elim

/-- Indexer and flat decoder fail together, with the same error. -/
theorem indexFields_error_iff {buf : Slice} {f : Failure} (hlen : buf.len ≤ U32_MAX) :
    indexFields buf = .error f ↔ decodeFields buf = .error f := by
  have hsim := indexFields_sim_decodeFields hlen
  refine ⟨fun h => hsim.of_error_left h not_false,?_⟩
  intro h
  rcases hsim.of_error_right h with herr | ⟨_,_,hit⟩
  · exact herr
  · exact hit.elim

end spans
end SignalisCodec
