import SignalisCodec.Grammar.IndexSpans
import SignalisCodec.Theory.Tiling

/-! The index tiles the buffer: every byte belongs to one record, and the recorded span is that
record's value. -/
namespace SignalisCodec
open Reader Fallible Drain Tiling

/-- The bytes of a buffer from one position up to another. -/
def Slice.between (buf : Slice) (start stop : ℕ) : List UInt8 :=
  (buf.window start (stop - start)).bytes

namespace IndexEntry

def start (e : IndexEntry) : ℕ := e.offset.toNat

/-- Where the span of an entry ends. -/
def stop (e : IndexEntry) : ℕ := e.offset.toNat + e.length.toNat

/-- The entry accounts for the bytes of `buf` from `lo` to `hi`: up to its span they are the key of
the record, and the length prefix where there is one; the span is the value, and ends at `hi`. -/
structure Covers (buf : Slice) (lo : ℕ) (e : IndexEntry) (hi : ℕ) : Prop where
  lo_le : lo ≤ e.start
  stop_eq : e.stop = hi
  stop_le : e.stop ≤ buf.len
  shape : ∃ (key : Varint) (wireType : WireType),
    FieldKey.fromVarint key.value lo = .ok ⟨e.fieldNumber,wireType⟩ ∧
    e.wireType = wireType.toBits ∧
    match wireType with
    | .varint => buf.between lo e.start = key.bytes ∧
        ∃ w : Varint, buf.between e.start e.stop = w.bytes
    | .fixed64 => buf.between lo e.start = key.bytes ∧ e.length.toNat = 8
    | .fixed32 => buf.between lo e.start = key.bytes ∧ e.length.toNat = 4
    | .lengthDelimited => ∃ len : Varint, buf.between lo e.start = key.bytes ++ len.bytes ∧
        len.value.toNat = e.length.toNat

lemma covers_inside (buf : Slice) : Inside (Covers buf) start stop := by
  intro lo e hi h
  exact ⟨h.lo_le,Nat.le_add_right _ _,Nat.le_of_eq h.stop_eq⟩

end IndexEntry

/-- An entry holds the key and the span unchanged. -/
def IndexEntry.Holds (e : IndexEntry) (wide : FieldKey × ℕ × ℕ) : Prop :=
  e.fieldNumber = wide.1.fieldNumber ∧ e.wireType = wide.1.wireType.toBits ∧
    e.offset.toNat = wide.2.1 ∧ e.length.toNat = wide.2.2

section step
variable {buf : Slice} {r r' : Reader} {rec : Record}

lemma between_of_split {pre w post : List UInt8} (h : buf.bytes = pre ++ (w ++ post)) :
    buf.between pre.length (pre.length + w.length) = w := by
  change (buf.bytes.drop pre.length).take (pre.length + w.length - pre.length) = w
  rw [h,List.drop_left,Nat.add_sub_cancel_left,List.take_left]

/-- The entry of a record in front of the cursor accounts for the bytes of the record. -/
lemma covers_of_reads (hlen : buf.len ≤ U32_MAX) (hr : Within buf r) (h : r.Reads rec.wire r') :
    IndexEntry.Covers buf r.pos (rec.scanAt r.pos).entry r'.pos := by
  obtain ⟨pre,hpos,hbytes⟩ := hr.split h
  have hend : r.pos + rec.wire.length ≤ buf.len := by
    rw [← h.pos_eq]
    exact (hr.step h).pos_le
  have hoffset := scanAt_entry_offset (hend.trans hlen)
  have hlength := scanAt_entry_length (hend.trans hlen)
  have hstop : (rec.scanAt r.pos).entry.stop = r.pos + rec.wire.length := by
    rw [IndexEntry.stop,hoffset,hlength]
    simp only [Record.wire,Payload.wire,List.length_append]
    omega
  have hgap : buf.between r.pos (rec.scanAt r.pos).entry.start =
      rec.keyWord.bytes ++ rec.payload.head := by
    rw [IndexEntry.start,hoffset,← hpos]
    have hsplit : buf.bytes =
        pre ++ ((rec.keyWord.bytes ++ rec.payload.head) ++ (rec.payload.body ++ r'.rest)) := by
      rw [hbytes,Record.wire,Payload.wire]
      simp only [List.append_assoc]
    exact between_of_split hsplit
  have hspan : buf.between (rec.scanAt r.pos).entry.start (rec.scanAt r.pos).entry.stop =
      rec.payload.body := by
    have hsplit : buf.bytes =
        (pre ++ (rec.keyWord.bytes ++ rec.payload.head)) ++ (rec.payload.body ++ r'.rest) := by
      rw [hbytes,Record.wire,Payload.wire]
      simp only [List.append_assoc]
    have hbody := between_of_split hsplit
    rwa [List.length_append,hpos,← hoffset,← hlength] at hbody
  refine ⟨?_,hstop.trans h.pos_eq.symm,by rwa [hstop],rec.keyWord,rec.payload.wireType,
    rec.accepted_at r.pos,rfl,?_⟩
  · rw [IndexEntry.start,hoffset]
    exact Nat.le_add_right _ _
  · cases hp : rec.payload with
    | varint w =>
      rw [hp] at hgap hspan
      exact ⟨hgap.trans (List.append_nil _),w,hspan⟩
    | fixed64 bs hbs =>
      rw [hp] at hgap hlength
      exact ⟨hgap.trans (List.append_nil _),hlength.trans hbs⟩
    | fixed32 bs hbs =>
      rw [hp] at hgap hlength
      exact ⟨hgap.trans (List.append_nil _),hlength.trans hbs⟩
    | bytes len b hb =>
      rw [hp] at hgap hlength
      exact ⟨len,hgap,hb.symm.trans hlength.symm⟩

/-- One step without the narrowing against one step with it. -/
lemma indexFieldWide_sim (hlen : buf.len ≤ U32_MAX) (hr : Within buf r) :
    Sim (fun w e => IndexEntry.Holds e w) (fun _ => False) (indexFieldWide r) (indexField r) := by
  rw [indexFieldWide_eq hr.2,indexField_eq hr.2]
  cases hs : scanRecord r with
  | error f r' =>
    rw [map_error hs,map_error hs]
    exact .error f r' r'
  | ok s r' =>
    rw [map_ok hs,map_ok hs]
    obtain ⟨rec,hread,rfl⟩ := scanRecord_ok hr.2 hs
    have hfit : r.pos + rec.wire.length ≤ U32_MAX := by
      rw [← hread.pos_eq]
      exact (hr.step hread).pos_le.trans hlen
    refine .ok r' ⟨rfl,rfl,scanAt_entry_offset hfit,?_⟩
    rw [scanAt_entry_length hfit]
    simp only [Scan.wide,Record.scanAt,Record.wire,Payload.wire,List.length_append]
    omega

end step

section run
variable {buf : Slice} {entries : List IndexEntry}

lemma indexField_progress : Progress loop indexField := by
  apply progress_of_reads
  intro r e r' hb h
  obtain ⟨rec,hread,-⟩ := indexField_ok hb h
  exact ⟨rec.wire,rec.wire_ne_nil,hread⟩

/-- A whole run of the indexer tiles the buffer. -/
lemma indexFields_covers (h : indexFields buf = .ok entries) :
    Tiles (IndexEntry.Covers buf) 0 entries buf.len := by
  have hlen := indexFields_len_le h
  rw [indexFields,if_neg (Nat.not_lt.mpr hlen),readAll,drain_ok_iff indexField_progress] at h
  obtain ⟨r,hsteps,hdone⟩ := h
  have hstep : ∀ r e r', Within buf r → indexField r = .ok e r' →
      Within buf r' ∧ IndexEntry.Covers buf r.pos e r'.pos := by
    intro r e r' hr hbody
    obtain ⟨rec,hread,rfl⟩ := indexField_ok hr.2 hbody
    exact ⟨hr.step hread,covers_of_reads hlen hr hread⟩
  have htiles := tiles_of_steps hstep hsteps (within_new buf)
  have hwithin := hsteps.invariant (fun r e r' hr hbody => (hstep r e r' hr hbody).1)
    (within_new buf)
  have hpos : r.pos = buf.len := by
    change r.isEmpty = true at hdone
    rw [isEmpty,decide_eq_true_iff,hwithin.1] at hdone
    exact Nat.le_antisymm hwithin.pos_le hdone
  rwa [hpos] at htiles

/-- Without the narrowing the same numbers come out. -/
lemma indexFields_holds (h : indexFields buf = .ok entries) :
    ∃ wide, readAll indexFieldWide buf = .ok wide ∧
      List.Forall₂ (fun w e => IndexEntry.Holds e w) wide entries := by
  have hlen := indexFields_len_le h
  rw [indexFields,if_neg (Nat.not_lt.mpr hlen)] at h
  have hstay : ∀ r w r', Within buf r → indexFieldWide r = .ok w r' → Within buf r' := by
    intro r w r' hr hbody
    have hentry : indexField r = .ok (IndexEntry.narrow w) r' := by
      rw [indexField_eq_narrow]
      exact map_ok hbody _
    obtain ⟨rec,hread,-⟩ := indexField_ok hr.2 hentry
    exact hr.step hread
  have hsim : SimResult (List.Forall₂ fun w e => IndexEntry.Holds e w) (fun _ => False)
      (readAll indexFieldWide buf) (readAll indexField buf) :=
    drain_sim hstay (fun r hr _ => indexFieldWide_sim hlen hr) (within_new buf) .nil
  rcases hsim.of_ok_right h with hok | ⟨_,_,hit⟩
  · exact hok
  · exact hit.elim

end run

/-- The entries of an index tile the buffer: their spans are in bounds, follow one another without
overlapping, and between them stand exactly the keys and length prefixes; the last ends with the
buffer, and no number was changed by the narrowing to `u32`. -/
theorem indexFields_tiles (buf : Slice) (entries : List IndexEntry)
    (h : indexFields buf = .ok entries) :
    Tiles (IndexEntry.Covers buf) 0 entries buf.len ∧
    (∀ e ∈ entries, e.stop ≤ buf.len) ∧
    entries.Pairwise (fun e e' => e.stop ≤ e'.start) ∧
    ∃ wide, readAll indexFieldWide buf = .ok wide ∧
      List.Forall₂ (fun w e => IndexEntry.Holds e w) wide entries := by
  have htiles := indexFields_covers h
  have hinside := IndexEntry.covers_inside buf
  refine ⟨htiles,?_,htiles.pairwise hinside,indexFields_holds h⟩
  intro e he
  exact ((htiles.bounds hinside).2 e he).2

theorem indexFields_tiles_example :
    Tiles (IndexEntry.Covers ⟨[0x08,0x96,0x01,0x12,0x01,0x61],by decide⟩) 0
      [⟨1,0,1,2⟩,⟨2,2,5,1⟩] 6 :=
  (indexFields_tiles ⟨[0x08,0x96,0x01,0x12,0x01,0x61],by decide⟩ _ (by decide +kernel)).1

end SignalisCodec
