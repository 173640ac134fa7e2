import Mathlib.Order.Bounds.Basic
import SignalisCodec.Grammar.ErrorPosition
import SignalisCodec.Theory.Lockstep

/-! Decoding a buffer and a longer one that begins with it: which errors more input can cure. -/
namespace SignalisCodec
open Reader Fallible Drain Lockstep

/-- The same cursor in a buffer that begins with the bytes of the first. -/
structure Extended (whole : Slice) (r t : Reader) : Prop where
  buf_eq : t.buf = whole
  pos_eq : t.pos = r.pos
  inBounds : r.InBounds
  begins : r.buf.bytes <+: whole.bytes

/-- The failure persists in the larger buffer. -/
def Endures (whole : Slice) (f : Failure) : Prop := ∀ e, f = .err e → e.Persists whole.len

section extended
variable {α : Type} {whole : Slice} {r t : Reader}

lemma Extended.rest_eq (h : Extended whole r t) : ∃ s, t.rest = r.rest ++ s := by
  obtain ⟨s,hs⟩ := h.begins
  refine ⟨s,?_⟩
  rw [rest,h.buf_eq,h.pos_eq,← hs]
  exact List.drop_append_of_le_length h.inBounds

lemma Extended.inBounds_right (h : Extended whole r t) : t.InBounds := by
  have hle : r.buf.len ≤ whole.len := h.begins.length_le
  unfold InBounds
  rw [h.buf_eq,h.pos_eq]
  exact h.inBounds.trans hle

lemma Extended.eq_of_len_le (h : Extended whole r t) (hlen : whole.len ≤ r.buf.len) : t = r := by
  have hbytes : r.buf = whole := Slice.ext (h.begins.eq_of_length_le hlen)
  obtain ⟨buf,pos⟩ := t
  obtain ⟨buf',pos'⟩ := r
  obtain rfl : buf = whole := h.buf_eq
  obtain rfl : pos = pos' := h.pos_eq
  rw [show buf' = buf from hbytes]

lemma Extended.step {w : List UInt8} {r' : Reader} (h : Extended whole r t)
    (hread : r.Reads w r') : ∃ t', t.Reads w t' ∧ Extended whole r' t' := by
  obtain ⟨s,hs⟩ := h.rest_eq
  refine ⟨t.advance w.length,?_,?_⟩
  · apply reads_of_rest (t := r'.rest ++ s)
    rw [hs,hread.rest_eq,List.append_assoc]
  · refine ⟨h.buf_eq,?_,hread.inBounds h.inBounds,?_⟩
    · rw [advance_pos,h.pos_eq,hread.pos_eq]
    · rw [hread.buf_eq]
      exact h.begins

/-- What an operation answers on a buffer, it answers on a longer one, unless the missing bytes
are there. -/
def Grows (x : ReadM α) : Prop :=
  ∀ whole r t, Extended whole r t → Follows (Extended whole) (Endures whole) (x r) (x t)

lemma grows_pure (a : α) : Grows (pure a : ReadM α) := fun _ _ _ h => .ok a h

lemma grows_position : Grows position := by
  intro whole r t h
  rw [position_apply,position_apply,h.pos_eq]
  exact .ok r.pos h

lemma grows_throw (f : Failure) : Grows (throw f : ReadM α) := fun _ r t _ => .error f r t

lemma grows_lift (x : Except DecodeError α) : Grows (lift x) := by
  cases x with
  | ok a => exact grows_pure a
  | error e => exact grows_throw (.err e)

lemma Grows.bind {β : Type} {x : ReadM α} {f : α → ReadM β} (h : Grows x)
    (hf : ∀ a, Grows (f a)) : Grows (x >>= f) := by
  intro whole r t hE
  exact (h whole r t hE).bind fun a r' t' _ hE' => hf a whole r' t' hE'

lemma Grows.map {β : Type} {x : ReadM α} (h : Grows x) (f : α → β) : Grows (f <$> x) := by
  intro whole r t hE
  exact (h whole r t hE).map f

/-- A varint cut off at the end of the buffer is read on as soon as there is one more byte. -/
lemma grows_readVarint : Grows readVarint := by
  intro whole r t h
  rcases varint_cases r.rest with ⟨w,u,hr⟩ | ⟨hlen,hcont⟩ | ⟨u,b,v,hr,hlen,hcont,hb⟩
  · obtain ⟨t',hread,hE⟩ := h.step (reads_of_rest hr)
    rw [readVarint_ok w hr,readVarint_ok_iff.mpr ⟨w,rfl,hread⟩]
    exact .ok w.value hE
  · by_cases hle : whole.len ≤ r.buf.len
    · obtain rfl := h.eq_of_len_le hle
      rw [readVarint_eof hlen hcont]
      exact .error _ _ _
    · rw [readVarint_eof hlen hcont]
      refine .cured _ _ fun hendures => ?_
      have hpersists : whole.len < r.pos + r.rest.length + 1 := hendures _ rfl
      rw [rest_length_add_pos h.inBounds] at hpersists
      omega
  · obtain ⟨s,hs⟩ := h.rest_eq
    have ht : t.rest = u ++ b :: (v ++ s) := by rw [hs,hr,List.append_assoc,List.cons_append]
    rw [readVarint_overflow hr hlen hcont hb,readVarint_overflow ht hlen hcont hb,h.pos_eq]
    exact .error _ _ _

lemma grows_readBytes (len : ℕ) : Grows (readBytes len) := by
  intro whole r t h
  rcases readBytes_outcomes r len with ⟨s,rfl,u,hr⟩ | ⟨hlen,hadd⟩ | hover
  · obtain ⟨t',hread,hE⟩ := h.step (reads_of_rest hr)
    rw [readBytes_ok h.inBounds hr,(readBytes_ok_iff h.inBounds_right).mpr ⟨rfl,hread⟩]
    exact .ok s hE
  · rw [readBytes_eof h.inBounds hlen hadd]
    by_cases hlt : whole.len < r.pos + len
    · have hend := rest_length_add_pos h.inBounds_right
      rw [h.pos_eq,h.buf_eq] at hend
      rw [readBytes_eof h.inBounds_right (by omega) (by rwa [h.pos_eq]),h.pos_eq]
      exact .error _ _ _
    · exact .cured _ _ fun hendures => hlt (hendures _ rfl)
  · rw [readBytes_overflow hover,readBytes_overflow (h.pos_eq ▸ hover),h.pos_eq]
    exact .error _ _ _

lemma grows_readFixed (n : ℕ) (ofBytes : List UInt8 → α) : Grows (readFixed n ofBytes) := by
  intro whole r t h
  rw [readFixed_eq_map ofBytes h.inBounds,readFixed_eq_map ofBytes h.inBounds_right]
  exact (grows_readBytes n).map _ whole r t h

lemma grows_scanValue (wt : WireType) : Grows (scanValue wt) := by
  cases wt with
  | varint =>
    exact grows_position.bind fun start => grows_readVarint.bind fun v => grows_pure _
  | fixed64 =>
    exact grows_position.bind fun start =>
      (grows_readFixed 8 u64FromLeBytes).bind fun v => grows_pure _
  | fixed32 =>
    exact grows_position.bind fun start =>
      (grows_readFixed 4 u32FromLeBytes).bind fun v => grows_pure _
  | lengthDelimited =>
    exact grows_position.bind fun lenPos => grows_readVarint.bind fun len =>
      (grows_lift _).bind fun len' => grows_position.bind fun start =>
      (grows_readBytes len').bind fun b => grows_pure _

theorem grows_scanRecord : Grows scanRecord := by
  refine grows_position.bind fun keyPos => grows_readVarint.bind fun key => ?_
  refine (grows_lift _).bind fun k => (grows_scanValue k.wireType).bind fun p => ?_
  exact grows_position.bind fun stop => grows_pure _

theorem grows_decodeField : Grows decodeField := by
  rw [decodeField_eq]
  exact grows_scanRecord.map _

end extended

section run
variable {buf whole : Slice}

lemma extended_new (h : buf.bytes <+: whole.bytes) : Extended whole (new buf) (new whole) :=
  ⟨rfl,rfl,inBounds_new buf,h⟩

/-- A flat decode that fails in a buffer fails in every longer one in which the error persists. -/
theorem decodeFields_endures (hbegins : buf.bytes <+: whole.bytes) {f : Failure}
    (h : decodeFields buf = .error f) (hf : Endures whole f) : decodeFields whole = .error f := by
  apply drain_follows decodeField_takesRecord.progress _ (extended_new hbegins) h hf
  intro r t hE hrun
  refine ⟨?_,grows_decodeField whole r t hE⟩
  change t.isEmpty = false
  change r.isEmpty = false at hrun
  have hle : r.buf.len ≤ whole.len := hE.begins.length_le
  rw [isEmpty,decide_eq_false_iff_not] at hrun ⊢
  rw [hE.buf_eq,hE.pos_eq]
  omega

/-- Some complete records make up the first `n` bytes of the buffer. -/
def RecordPrefix (buf : Slice) (n : ℕ) : Prop :=
  ∃ recs tail, buf.bytes = wires recs ++ tail ∧ n = (wires recs).length

/-- The loop fails at the end of the longest prefix of complete records, or behind it. -/
theorem decodeFields_error_located {f : Failure} (h : decodeFields buf = .error f) :
    ∃ p, IsGreatest {n | RecordPrefix buf n} p ∧
      ∃ e, f = .err e ∧ p ≤ e.position ∧ e.position ≤ buf.len ∧ e.Persists buf.len := by
  rw [decodeFields,decodeField_takesRecord.readAll_error_iff] at h
  obtain ⟨recs,fs,r,r',hreads,-,-,hbody⟩ := h
  have hb := hreads.inBounds (inBounds_new buf)
  have hscan := decodeField_error hbody
  have hlocated := locates_scanRecord hb
  rw [hscan] at hlocated
  obtain ⟨e,hf,hstart,hstop,hpersists⟩ := hlocated
  have hpos : r.pos = (wires recs).length := by
    rw [hreads.pos_eq]
    exact Nat.zero_add _
  rw [hreads.buf_eq] at hstop hpersists
  refine ⟨(wires recs).length,⟨⟨recs,r.rest,hreads.rest_eq,rfl⟩,?_⟩,e,hf,by omega,hstop,hpersists⟩
  rintro n ⟨recs',tail,hbytes,rfl⟩
  have hsame : wires recs ++ r.rest = wires recs' ++ tail := hreads.rest_eq.symm.trans hbytes
  rcases Record.selfDelimiting.align hsame with ⟨more,rfl,hrest⟩ | ⟨more,rfl,-⟩
  · cases more with
    | nil => simp
    | cons rec more =>
      -- a record stands in front of the cursor, so the walk cannot have failed there
      rw [List.flatMap_cons,List.append_assoc] at hrest
      rw [scanRecord_reads hb (reads_of_rest hrest)] at hscan
      cases hscan
  · simp [wires]

end run

/-- Every error of a flat decode points behind the longest prefix of complete records and into the
buffer. Any but an unexpected end of the buffer is final; that one cannot be cured by fewer bytes
than it reports. -/
theorem decodeFields_error_stable (buf : Slice) (e : DecodeError)
    (h : decodeFields buf = .error (.err e)) :
    (∃ p, IsGreatest {n | RecordPrefix buf n} p ∧ p ≤ e.position) ∧ e.position ≤ buf.len ∧
    ((∀ needed position, e ≠ .unexpectedEof needed position) →
      ∀ (s : List UInt8) (whole : Slice), whole.bytes = buf.bytes ++ s →
        decodeFields whole = .error (.err e)) ∧
    (∀ needed position, e = .unexpectedEof needed position →
      buf.len < position + needed ∧
      ∀ (s : List UInt8) (whole : Slice), whole.bytes = buf.bytes ++ s →
        buf.len + s.length < position + needed → decodeFields whole = .error (.err e)) := by
  obtain ⟨p,hgreatest,e',he,hstart,hstop,hpersists⟩ := decodeFields_error_located h
  obtain rfl : e = e' := by simpa using he
  refine ⟨⟨p,hgreatest,hstart⟩,hstop,?_,?_⟩
  · intro hne s whole hwhole
    apply decodeFields_endures ⟨s,hwhole.symm⟩ h
    intro e' he'
    obtain rfl : e = e' := by simpa using he'
    rw [DecodeError.persists_iff]
    intro needed position heof
    exact absurd heof (hne needed position)
  · intro needed position heof
    refine ⟨(e.persists_iff _).mp hpersists needed position heof,?_⟩
    intro s whole hwhole hlen
    apply decodeFields_endures ⟨s,hwhole.symm⟩ h
    intro e' he'
    obtain rfl : e = e' := by simpa using he'
    rw [heof]
    change whole.bytes.length < position + needed
    rw [hwhole,List.length_append]
    exact hlen

theorem decodeFields_error_stable_example :
    decodeFields ⟨[0x08,0x01,0x12,0x05,0x61,0x62,0x63],by decide⟩ =
      .error (.err (.unexpectedEof 5 4)) := by
  have hcut : decodeFields ⟨[0x08,0x01,0x12,0x05,0x61],by decide⟩ =
      .error (.err (.unexpectedEof 5 4)) := by decide +kernel
  obtain ⟨-,-,-,heof⟩ := decodeFields_error_stable _ _ hcut
  exact (heof 5 4 rfl).2 [0x62,0x63] _ rfl (by decide)

end SignalisCodec
