import SignalisCodec.Grammar.IndexTiling
import SignalisCodec.Lazy.Slots

/-! The buffers a lazy message hands out are views of its own. Whatever is written through them, the
offset table stays right: no value but a varint has a part in it. -/
namespace SignalisCodec
open Reader Fallible Drain Tiling Strided Pairing

/-- `buf'` is `buf` with bytes overwritten in place, none of them in a key, a length prefix or a
varint. -/
structure Overwrites (entries : List IndexEntry) (buf buf' : Slice) : Prop where
  len_eq : buf'.len = buf.len
  outside (i : ℕ) (h : ∀ e ∈ entries, e.wireType ≠ WireType.varint.toBits →
    i < e.start ∨ e.stop ≤ i) : buf'.bytes[i]? = buf.bytes[i]?

section payload

/-- The value of a payload is read off the bytes of the value. -/
lemma Payload.value_eq_of_body {p q : Payload} (hwt : p.wireType = q.wireType)
    (h : p.body = q.body) : p.value = q.value := by
  cases p with
  | varint w =>
    cases q <;> try cases hwt
    exact congrArg Payload.value (congrArg Payload.varint (Varint.ext h))
  | fixed64 bs hbs =>
    cases q <;> try cases hwt
    exact congrArg (fun bs => FieldValue.fixed64 (u64FromLeBytes bs)) h
  | fixed32 bs hbs =>
    cases q <;> try cases hwt
    exact congrArg (fun bs => FieldValue.fixed32 (u32FromLeBytes bs)) h
  | bytes len b hb =>
    cases q <;> try cases hwt
    exact congrArg FieldValue.bytes (Slice.ext h)

/-- As many other bytes make a value of the same wire type, unless it is a varint. -/
lemma Payload.exists_body {p : Payload} (hwt : p.wireType ≠ .varint) {w : List UInt8}
    (hw : w.length = p.body.length) :
    ∃ q : Payload, q.wireType = p.wireType ∧ q.head = p.head ∧ q.body = w := by
  cases p with
  | varint v => exact absurd rfl hwt
  | fixed64 bs hbs => exact ⟨.fixed64 w (hw.trans hbs),rfl,rfl,rfl⟩
  | fixed32 bs hbs => exact ⟨.fixed32 w (hw.trans hbs),rfl,rfl,rfl⟩
  | bytes len b hb => exact ⟨.bytes len ⟨w,hw.trans_le b.fits⟩ (hw.trans hb),rfl,rfl,rfl⟩

/-- The bytes of a record up to its value. -/
def Record.lead (rec : Record) : List UInt8 := rec.keyWord.bytes ++ rec.payload.head

lemma Record.wire_eq_lead (rec : Record) : rec.wire = rec.lead ++ rec.payload.body :=
  (List.append_assoc _ _ _).symm

/-- Bytes that start as a record does, up to its value, and are no fewer start with a record that is
entered alike, unless the value is a varint; then they have to start with that, too. -/
lemma Record.exists_overwritten (rec : Record) {l : List UInt8} (hlead : rec.lead <+: l)
    (hvarint : rec.payload.wireType = .varint → rec.wire <+: l)
    (hlen : rec.wire.length ≤ l.length) :
    ∃ rec' : Record, rec'.wire <+: l ∧ rec'.wire.length = rec.wire.length ∧
      ∀ pos, (rec'.scanAt pos).entry = (rec.scanAt pos).entry := by
  by_cases hwt : rec.payload.wireType = .varint
  · exact ⟨rec,hvarint hwt,rfl,fun _ => rfl⟩
  · obtain ⟨u,rfl⟩ := hlead
    rw [wire_eq_lead,List.length_append,List.length_append] at hlen
    have hsame : (u.take rec.payload.body.length).length = rec.payload.body.length :=
      List.length_take_of_le (Nat.le_of_add_le_add_left hlen)
    obtain ⟨q,hq,hhead,hbody⟩ := Payload.exists_body hwt hsame
    rw [← hbody] at hsame
    refine ⟨⟨rec.keyWord,rec.number,q,hq ▸ rec.accepted⟩,?_,?_,?_⟩
    · rw [wire_eq_lead,lead,lead,hhead,hbody]
      exact (List.prefix_append_right_inj _).mpr (List.take_prefix _ _)
    · simp only [Record.wire,Payload.wire,List.length_append,hhead,hsame]
    · intro pos
      simp only [Scan.entry,Record.scanAt,Record.key,Record.wire,Payload.wire,List.length_append,hq,
        hhead,hsame]

end payload

section run
variable {buf buf' : Slice} {r r' t : Reader}

/-- What two lists agree on is a prefix of both. -/
lemma prefix_of_agree {α : Type} {l l' w : List α} (hw : w <+: l)
    (h : ∀ i < w.length, l'[i]? = l[i]?) : w <+: l' := by
  have htake : l'.take w.length = l.take w.length := by
    apply List.ext_getElem?
    intro i
    rw [List.getElem?_take,List.getElem?_take]
    by_cases hi : i < w.length
    · rw [if_pos hi,if_pos hi,h i hi]
    · rw [if_neg hi,if_neg hi]
  rw [List.prefix_iff_eq_take,htake]
  exact List.prefix_iff_eq_take.mp hw

/-- In front of a record whose value is overwritten stands a record with the same entry. -/
lemma overwritten_record {rec : Record} (hlen : buf'.len = buf.len) (hr : Within buf r)
    (hread : r.Reads rec.wire r') (hbuf : t.buf = buf') (hpos : t.pos = r.pos)
    (hagree : ∀ i, r.pos ≤ i → i < r'.pos →
      (rec.payload.wireType ≠ .varint → i < r.pos + rec.lead.length) →
      buf'.bytes[i]? = buf.bytes[i]?) :
    ∃ rec' : Record, t.Reads rec'.wire ⟨buf',r'.pos⟩ ∧
      (rec'.scanAt t.pos).entry = (rec.scanAt r.pos).entry := by
  have hwhole : rec.wire <+: r.rest := ⟨r'.rest,hread.rest_eq.symm⟩
  have hbegins : ∀ w, w <+: rec.wire →
      (rec.payload.wireType ≠ .varint → w.length ≤ rec.lead.length) → w <+: t.rest := by
    intro w hw hvalue
    refine prefix_of_agree (hw.trans hwhole) fun i hi => ?_
    rw [rest,rest,hbuf,hpos,hr.1,List.getElem?_drop,List.getElem?_drop]
    refine hagree (r.pos + i) (Nat.le_add_right _ _) ?_ fun hwt => ?_
    · rw [hread.pos_eq]
      exact Nat.add_lt_add_left (hi.trans_le hw.length_le) _
    · exact Nat.add_lt_add_left (hi.trans_le (hvalue hwt)) _
  have hroom : rec.wire.length ≤ t.rest.length := by
    rw [rest_length,hbuf,hpos,hlen,← hr.1,← rest_length]
    exact hwhole.length_le
  obtain ⟨rec',⟨s,hs⟩,hsame,hentry⟩ := rec.exists_overwritten
    (hbegins _ ⟨_,rec.wire_eq_lead.symm⟩ fun _ => le_rfl)
    (fun hwt => hbegins _ (List.prefix_refl _) fun h => absurd hwt h) hroom
  have hreads := reads_of_rest hs.symm
  rw [advance,hbuf,hpos,hsame,← hread.pos_eq] at hreads
  exact ⟨rec',hreads,hpos ▸ hentry r.pos⟩

/-- One step of the indexer tiles, by the entry it writes. -/
lemma indexField_covers (hlen : buf.len ≤ U32_MAX) {e : IndexEntry} (hr : Within buf r)
    (h : indexField r = .ok e r') : Within buf r' ∧ IndexEntry.Covers buf r.pos e r'.pos := by
  obtain ⟨rec,hread,rfl⟩ := indexField_ok hr.2 h
  exact ⟨hr.step hread,covers_of_reads hlen hr hread⟩

/-- In front of overwritten bytes a step of the indexer writes the entry it wrote. -/
lemma indexField_overwritten (hlen : buf.len ≤ U32_MAX) (hsize : buf'.len = buf.len)
    {e : IndexEntry} (hr : Within buf r) (hbuf : t.buf = buf') (hpos : t.pos = r.pos)
    (h : indexField r = .ok e r')
    (hagree : ∀ i, r.pos ≤ i → i < r'.pos →
      (e.wireType ≠ WireType.varint.toBits → i < e.start) → buf'.bytes[i]? = buf.bytes[i]?) :
    indexField t = .ok e ⟨buf',r'.pos⟩ := by
  obtain ⟨rec,hread,rfl⟩ := indexField_ok hr.2 h
  have hstart : (rec.scanAt r.pos).entry.start = r.pos + rec.lead.length := by
    refine scanAt_entry_offset ?_
    rw [← hread.pos_eq]
    exact (hr.step hread).pos_le.trans hlen
  obtain ⟨rec',hread',hentry⟩ := overwritten_record hsize hr hread hbuf hpos (by
    intro i hlo hhi hvalue
    refine hagree i hlo hhi fun hwt => ?_
    rw [hstart]
    exact hvalue fun h => hwt (congrArg WireType.toBits h))
  have hb : t.InBounds := by
    unfold InBounds
    rw [hbuf,hpos,hsize]
    exact hr.pos_le
  rw [indexField_eq hb,map_ok (scanRecord_reads hb hread'),hentry]

/-- The indexer walks over the overwritten bytes as it walked over the old ones. By induction on
the steps; the entries still to come start behind the record at hand. -/
lemma overwritten_steps (hlen : buf.len ≤ U32_MAX) (hsize : buf'.len = buf.len)
    {entries : List IndexEntry} (hsteps : Steps loop indexField r entries r') (hr : Within buf r)
    (hbuf : t.buf = buf') (hpos : t.pos = r.pos)
    (hagree : ∀ i, r.pos ≤ i → i < r'.pos → (∀ e ∈ entries,
      e.wireType ≠ WireType.varint.toBits → i < e.start ∨ e.stop ≤ i) →
      buf'.bytes[i]? = buf.bytes[i]?) :
    Steps loop indexField t entries ⟨buf',r'.pos⟩ := by
  induction hsteps generalizing t with
  | refl r =>
    obtain ⟨tbuf,tpos⟩ := t
    obtain rfl : tbuf = buf' := hbuf
    obtain rfl : tpos = r.pos := hpos
    exact .refl _
  | @head r r₁ r' e entries running first tail ih =>
    obtain ⟨hr₁,hcovers⟩ := indexField_covers hlen hr first
    have htiles := tiles_of_steps (fun _ _ _ => indexField_covers hlen) tail hr₁
    obtain ⟨hle,hbehind⟩ := htiles.bounds (IndexEntry.covers_inside buf)
    have hrun : loop.done t = false := by
      change t.isEmpty = false
      rw [isEmpty,hbuf,hpos,hsize,← hr.1]
      exact running
    have hfirst : indexField t = .ok e ⟨buf',r₁.pos⟩ := by
      refine indexField_overwritten hlen hsize hr hbuf hpos first fun i hlo hhi hvalue => ?_
      refine hagree i hlo (hhi.trans_le hle) fun e' he' hwt => .inl ?_
      rcases List.mem_cons.mp he' with rfl | he'
      · exact hvalue hwt
      · exact hhi.trans_le (hbehind e' he').1
    refine .head hrun hfirst (ih hr₁ rfl rfl fun i hlo hhi hout => ?_)
    have hstop : e.stop ≤ i := hcovers.stop_eq.trans_le hlo
    have hspan : e.start ≤ e.stop := Nat.le_add_right _ _
    refine hagree i (hcovers.lo_le.trans (hspan.trans hstop)) hhi fun e' he' hwt => ?_
    rcases List.mem_cons.mp he' with rfl | he'
    · exact .inr hstop
    · exact hout e' he' hwt

/-- Overwritten in place, a buffer has the index it had. -/
lemma indexFields_overwritten {entries : List IndexEntry} (h : indexFields buf = .ok entries)
    (hover : Overwrites entries buf buf') : indexFields buf' = .ok entries := by
  have hlen := indexFields_len_le h
  have hsize := hover.len_eq
  rw [indexFields,if_neg (Nat.not_lt.mpr hlen),readAll,drain_ok_iff indexField_progress] at h
  obtain ⟨r,hsteps,hdone⟩ := h
  have hwithin := hsteps.invariant (fun _ _ _ hr hbody => (indexField_covers hlen hr hbody).1)
    (within_new buf)
  have hsteps' := overwritten_steps (t := new buf') hlen hsize hsteps (within_new buf) rfl rfl
    fun i _ _ => hover.outside i
  rw [indexFields,if_neg (by rw [hsize]; exact Nat.not_lt.mpr hlen),readAll,
    drain_ok_iff indexField_progress]
  refine ⟨_,hsteps',?_⟩
  change decide (r.pos ≥ buf'.len) = true
  rw [hsize,← hwithin.1]
  exact hdone

end run

section fields
variable {buf buf' : Slice} {entries : List IndexEntry}

lemma between_congr {start stop : ℕ}
    (h : ∀ i, start ≤ i → i < stop → buf'.bytes[i]? = buf.bytes[i]?) :
    buf'.between start stop = buf.between start stop := by
  change (buf'.bytes.drop start).take (stop - start) = (buf.bytes.drop start).take (stop - start)
  apply List.ext_getElem?
  intro i
  rw [List.getElem?_take,List.getElem?_take]
  by_cases hi : i < stop - start
  · rw [if_pos hi,if_pos hi,List.getElem?_drop,List.getElem?_drop]
    exact h (start + i) (Nat.le_add_right _ _) (by omega)
  · rw [if_neg hi,if_neg hi]

/-- The bytes in the span of an entry are those of the value of its field. -/
lemma IndexEntry.Locates.between_eq {e : IndexEntry} {f : Field} (hlen : buf.len ≤ U32_MAX)
    (h : e.Locates buf f) :
    f.fieldNumber = e.fieldNumber ∧ ∃ p : Payload, f.value = p.value ∧
      p.wireType.toBits = e.wireType ∧ p.body = buf.between e.start e.stop := by
  obtain ⟨pre,rec,post,hbytes,rfl,rfl⟩ := h
  obtain ⟨hspan,hlength⟩ := LazyMessage.located_span hbytes hlen
  refine ⟨rfl,rec.payload,rfl,rfl,?_⟩
  change _ = (buf.bytes.drop _).take (IndexEntry.stop _ - IndexEntry.start _)
  rw [IndexEntry.stop,IndexEntry.start,Nat.add_sub_cancel_left,hlength]
  exact List.prefix_iff_eq_take.mp hspan

/-- Varints are not overwritten: the spans of the other entries do not reach into theirs. -/
lemma Overwrites.varint_untouched (hover : Overwrites entries buf buf')
    (h : indexFields buf = .ok entries) {e : IndexEntry} (he : e ∈ entries)
    (hwt : e.wireType = WireType.varint.toBits) (i : ℕ) (hlo : e.start ≤ i) (hhi : i < e.stop) :
    buf'.bytes[i]? = buf.bytes[i]? := by
  refine hover.outside i fun e' he' hwt' => ?_
  have htiles := indexFields_covers h
  rcases htiles.apart (IndexEntry.covers_inside buf) he he' (fun heq => hwt' (heq ▸ hwt)) with
    hle | hle
  · exact .inl (hhi.trans_le hle)
  · exact .inr (hle.trans hlo)

/-- The fields an entry locates before and after. -/
lemma Overwrites.field (hover : Overwrites entries buf buf') (h : indexFields buf = .ok entries)
    {e : IndexEntry} {f f' : Field} (he : e ∈ entries) (hloc : e.Locates buf f)
    (hloc' : e.Locates buf' f') :
    f'.fieldNumber = f.fieldNumber ∧ f'.value.wireType = f.value.wireType ∧
    (f.value.wireType = .varint ∨
      (∀ i, e.start ≤ i → i < e.stop → buf'.bytes[i]? = buf.bytes[i]?) → f' = f) ∧
    ∀ b, f'.value = .bytes b → b.bytes = buf'.between e.start e.stop := by
  have hlen := indexFields_len_le h
  obtain ⟨hnumber,p,hp,hwt,hbody⟩ := hloc.between_eq hlen
  obtain ⟨hnumber',p',hp',hwt',hbody'⟩ := hloc'.between_eq (hover.len_eq.trans_le hlen)
  have hsame : p'.wireType = p.wireType := WireType.toBits_injective (hwt'.trans hwt.symm)
  refine ⟨hnumber'.trans hnumber.symm,?_,?_,?_⟩
  · rw [hp,hp',p.value_wireType,p'.value_wireType,hsame]
  · intro hkept
    have hbytes : ∀ i, e.start ≤ i → i < e.stop → buf'.bytes[i]? = buf.bytes[i]? := by
      rcases hkept with hvarint | hbytes
      · rw [hp,p.value_wireType] at hvarint
        exact hover.varint_untouched h he (hwt.symm.trans (congrArg WireType.toBits hvarint))
      · exact hbytes
    refine Field.ext (hnumber'.trans hnumber.symm) ?_
    rw [hp,hp']
    exact Payload.value_eq_of_body hsame (by rw [hbody,hbody',between_congr hbytes])
  · intro b hb
    rw [hp'] at hb
    rw [← hbody']
    cases p' <;> cases hb
    rfl

end fields

/-- Below 4 GiB. Overwriting values in place, but no varint, leaves the index as it was, and the
offset table of the lazy message is that of the new bytes. Both decode to as many fields, number by
number and wire type by wire type; a value none of whose bytes was overwritten is the one it was,
and a payload is the bytes that stand there now. -/
theorem index_survives_overwriting (buf buf' : Slice) (entries : List IndexEntry)
    (h : indexFields buf = .ok entries) (hover : Overwrites entries buf buf') :
    indexFields buf' = .ok entries ∧
    (∀ m, lazyIndex buf = .ok m → lazyIndex buf' = .ok ⟨buf',m.index⟩) ∧
    ∃ fields fields', decodeFields buf = .ok fields ∧ decodeFields buf' = .ok fields' ∧
      fields.length = entries.length ∧ fields'.length = entries.length ∧
      ∀ (k : ℕ) e f f', entries[k]? = some e → fields[k]? = some f → fields'[k]? = some f' →
        f'.fieldNumber = f.fieldNumber ∧ f'.value.wireType = f.value.wireType ∧
        (f.value.wireType = .varint ∨
          (∀ i, e.start ≤ i → i < e.stop → buf'.bytes[i]? = buf.bytes[i]?) → f' = f) ∧
        ∀ b, f'.value = .bytes b → b.bytes = buf'.between e.start e.stop := by
  have hlen := indexFields_len_le h
  have h' := indexFields_overwritten h hover
  obtain ⟨fields,hfields,hlocates⟩ := (indexFields_sim_decodeFields hlen).of_ok_left h
  obtain ⟨fields',hfields',hlocates'⟩ :=
    (indexFields_sim_decodeFields (hover.len_eq.trans_le hlen)).of_ok_left h'
  refine ⟨h',?_,fields,fields',hfields,hfields',hlocates.length_eq.symm,hlocates'.length_eq.symm,?_⟩
  · intro m hm
    unfold lazyIndex indexFieldsJs at hm ⊢
    rw [h] at hm
    rw [h']
    cases hm
    rfl
  · intro k e f f' he hf hf'
    have hloc := forall₂_getElem? hlocates k
    have hloc' := forall₂_getElem? hlocates' k
    rw [he,hf,Option.rel_some_some] at hloc
    rw [he,hf',Option.rel_some_some] at hloc'
    exact hover.field h (List.mem_of_getElem? he) hloc hloc'

/-- The first byte of a payload is overwritten. -/
theorem index_survives_overwriting_example :
    lazyIndex ⟨[0x08,0x01,0x12,0x02,0x63,0x62],by decide⟩ =
      .ok ⟨⟨[0x08,0x01,0x12,0x02,0x63,0x62],by decide⟩,[1,0,1,1,2,2,4,2]⟩ := by
  have hover : Overwrites [⟨1,0,1,1⟩,⟨2,2,4,2⟩] ⟨[0x08,0x01,0x12,0x02,0x61,0x62],by decide⟩
      ⟨[0x08,0x01,0x12,0x02,0x63,0x62],by decide⟩ := by
    refine ⟨rfl,fun i h => ?_⟩
    rcases h ⟨2,2,4,2⟩ (by decide) (by decide) with hlt | hle
    · replace hlt : i < 4 := hlt
      rcases i with _ | _ | _ | _ | i
      case succ.succ.succ.succ => omega
      all_goals rfl
    · replace hle : 6 ≤ i := hle
      rw [List.getElem?_eq_none hle,List.getElem?_eq_none hle]
  exact (index_survives_overwriting _ _ _ (by decide +kernel) hover).2.1
    ⟨⟨[0x08,0x01,0x12,0x02,0x61,0x62],by decide⟩,[1,0,1,1,2,2,4,2]⟩ (by decide +kernel)

end SignalisCodec
