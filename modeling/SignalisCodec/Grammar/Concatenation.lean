import SignalisCodec.Grammar.Extension
import SignalisCodec.Grammar.IndexSpans
import SignalisCodec.Grammar.Packing
import SignalisCodec.Theory.Pairing
import SignalisCodec.Theory.Translate

/-! Decoding a buffer behind another one: the same fields, the same errors moved by the length of
what stands in front. -/
namespace SignalisCodec
open Reader Fallible Drain Translate

/-- The error raised when `n` more bytes stand in front of the cursor. The end of the bytes asked
for may then leave the address space, which is checked first; the depth limit has no position. -/
def DecodeError.shift (n : ℕ) : DecodeError → DecodeError
  | .unexpectedEof needed position =>
    if n + position + needed ≤ USIZE_MAX then .unexpectedEof needed (n + position)
    else .lengthOverflow (n + position)
  | .varintOverflow position => .varintOverflow (n + position)
  | .lengthOverflow position => .lengthOverflow (n + position)
  | .invalidWireType wireType position => .invalidWireType wireType (n + position)
  | .invalidFieldNumber position => .invalidFieldNumber (n + position)
  | .depthLimitExceeded limit position => .depthLimitExceeded limit position
  | .groupsUnsupported position => .groupsUnsupported (n + position)

def Failure.shift (n : ℕ) : Failure → Failure
  | .err e => .err (e.shift n)
  | .panic => .panic
  | .diverge => .diverge

/-- The result of a decode behind `n` bytes, with `f` applied to what it returns. -/
def moved {α β : Type} (n : ℕ) (f : α → β) : Outcome α → Outcome β
  | .ok a => .ok (f a)
  | .error e => .error (e.shift n)

/-- The same cursor with the bytes `pre` in front of the buffer. -/
structure Moved (pre : List UInt8) (r t : Reader) : Prop where
  bytes_eq : t.buf.bytes = pre ++ r.buf.bytes
  pos_eq : t.pos = pre.length + r.pos
  inBounds : r.InBounds

section moved
variable {α β : Type} {pre : List UInt8} {r t : Reader}

lemma Moved.rest_eq (h : Moved pre r t) : t.rest = r.rest := by
  rw [rest,rest,h.bytes_eq,h.pos_eq,List.drop_append]
  simp

lemma Moved.inBounds_right (h : Moved pre r t) : t.InBounds := by
  have hlen := congrArg List.length h.bytes_eq
  have hb := h.inBounds
  rw [List.length_append] at hlen
  unfold InBounds Slice.len at hb ⊢
  rw [h.pos_eq]
  omega

lemma Moved.advance {w u : List UInt8} (h : Moved pre r t) (hr : r.rest = w ++ u) :
    Moved pre (r.advance w.length) (t.advance w.length) where
  bytes_eq := h.bytes_eq
  pos_eq := by rw [advance_pos,advance_pos,h.pos_eq,Nat.add_assoc]
  inBounds := (reads_of_rest hr).inBounds h.inBounds

/-- What an operation does on a buffer it does behind other bytes: the results are related by `R`,
the errors are moved. -/
def Moves (pre : List UInt8) (R : α → β → Prop) (x : ReadM α) (y : ReadM β) : Prop :=
  ∀ r t, Moved pre r t →
    Translates (Moved pre) R (fun f g => g = f.shift pre.length) (x r) (y t)

lemma moves_pure {R : α → β → Prop} {a : α} {b : β} (h : R a b) :
    Moves pre R (pure a : ReadM α) (pure b) := fun _ _ hE => .ok h hE

lemma moves_position : Moves pre (fun p q => q = pre.length + p) position position := by
  intro r t hE
  rw [position_apply,position_apply]
  exact .ok hE.pos_eq hE

lemma Moves.bind {γ δ : Type} {R : α → β → Prop} {S : γ → δ → Prop} {x : ReadM α} {y : ReadM β}
    {f : α → ReadM γ} {g : β → ReadM δ} (h : Moves pre R x y)
    (hf : ∀ a b, R a b → Moves pre S (f a) (g b)) : Moves pre S (x >>= f) (y >>= g) := by
  intro r t hE
  exact (h r t hE).bind fun a b r' t' hab hE' => hf a b hab r' t' hE'

lemma Moves.map {γ δ : Type} {R : α → β → Prop} {S : γ → δ → Prop} {x : ReadM α} {y : ReadM β}
    {f : α → γ} {g : β → δ} (h : Moves pre R x y) (hf : ∀ a b, R a b → S (f a) (g b)) :
    Moves pre S (f <$> x) (g <$> y) := fun r t hE => (h r t hE).map hf

lemma moves_readVarint : Moves pre Eq readVarint readVarint := by
  intro r t h
  have hrest := h.rest_eq
  rcases varint_cases r.rest with ⟨w,u,hr⟩ | ⟨hlen,hcont⟩ | ⟨u,b,v,hr,hlen,hcont,hb⟩
  · rw [readVarint_ok w hr,readVarint_ok w (hrest.trans hr)]
    exact .ok rfl (h.advance hr)
  · have hend := rest_length_add_pos h.inBounds_right
    have hfits := t.buf.fits
    rw [readVarint_eof hlen hcont,readVarint_eof (hrest ▸ hlen) (hrest ▸ hcont),hrest,h.pos_eq]
    refine .error ?_ _ _
    rw [hrest,h.pos_eq] at hend
    rw [Failure.shift,DecodeError.shift,if_pos,Nat.add_assoc]
    simp only [Slice.len,ISIZE_MAX,USIZE_MAX] at *
    omega
  · rw [readVarint_overflow hr hlen hcont hb,
      readVarint_overflow (hrest.trans hr) hlen hcont hb,h.pos_eq]
    refine .error ?_ _ _
    rw [Failure.shift,DecodeError.shift,Nat.add_assoc]

lemma moves_readBytes (len : ℕ) : Moves pre Eq (readBytes len) (readBytes len) := by
  intro r t h
  have hrest := h.rest_eq
  rcases readBytes_outcomes r len with ⟨s,rfl,u,hr⟩ | ⟨hlen,hadd⟩ | hover
  · rw [readBytes_ok h.inBounds hr,readBytes_ok h.inBounds_right (hrest.trans hr)]
    exact .ok rfl (h.advance hr)
  · rw [readBytes_eof h.inBounds hlen hadd]
    by_cases hfar : t.pos + len ≤ USIZE_MAX
    · rw [readBytes_eof h.inBounds_right (hrest ▸ hlen) hfar]
      refine .error ?_ _ _
      rw [h.pos_eq] at hfar ⊢
      rw [Failure.shift,DecodeError.shift,if_pos hfar]
    · rw [readBytes_overflow (Nat.not_le.mp hfar)]
      refine .error ?_ _ _
      rw [h.pos_eq] at hfar ⊢
      rw [Failure.shift,DecodeError.shift,if_neg hfar]
  · have hfar : USIZE_MAX < t.pos + len := by
      rw [h.pos_eq]
      omega
    rw [readBytes_overflow hover,readBytes_overflow hfar,h.pos_eq]
    refine .error ?_ _ _
    rfl

lemma moves_readFixed (n : ℕ) (ofBytes : List UInt8 → α) :
    Moves pre Eq (readFixed n ofBytes) (readFixed n ofBytes) := by
  intro r t h
  rw [readFixed_eq_map ofBytes h.inBounds,readFixed_eq_map ofBytes h.inBounds_right]
  exact (moves_readBytes n r t h).map fun a b hab => congrArg (fun s => ofBytes s.bytes) hab

/-- A key that is refused is refused wherever it stands, at the position it stands at. -/
lemma fromVarint_shift (key : UInt64) (n p : ℕ) :
    FieldKey.fromVarint key (n + p) =
      (FieldKey.fromVarint key p).mapError (DecodeError.shift n) := by
  unfold FieldKey.fromVarint WireType.fromBits
  generalize (key &&& 0x07).toUInt8 = bits
  split <;> simp only [bind,Except.bind,pure,Except.pure,throw,throwThe,MonadExceptOf.throw]
  all_goals first
    | rfl
    | (split <;> rfl)

lemma moves_lift {x y : Except DecodeError α} (h : y = x.mapError (DecodeError.shift pre.length)) :
    Moves pre Eq (lift x) (lift y) := by
  subst h
  intro r t hE
  cases x with
  | ok a => exact .ok rfl hE
  | error e =>
    refine .error ?_ r t
    rfl

lemma moves_scanKey : Moves pre Eq scanKey scanKey := by
  refine moves_position.bind fun p q hpos => ?_
  refine moves_readVarint.bind fun key key' hkey => ?_
  subst hpos hkey
  exact moves_lift (fromVarint_shift key _ p)

/-- A value that starts at `p` starts at `pre.length + p`. -/
def Displaced (n : ℕ) (v w : ℕ × FieldValue) : Prop := w = (n + v.1,v.2)

lemma moves_scanValue (wt : WireType) :
    Moves pre (Displaced pre.length) (scanValue wt) (scanValue wt) := by
  cases wt with
  | varint =>
    refine moves_position.bind fun p q hpos => ?_
    refine moves_readVarint.bind fun v w hv => moves_pure ?_
    subst hpos hv
    rfl
  | fixed64 =>
    refine moves_position.bind fun p q hpos => ?_
    refine (moves_readFixed 8 u64FromLeBytes).bind fun v w hv => moves_pure ?_
    subst hpos hv
    rfl
  | fixed32 =>
    refine moves_position.bind fun p q hpos => ?_
    refine (moves_readFixed 4 u32FromLeBytes).bind fun v w hv => moves_pure ?_
    subst hpos hv
    rfl
  | lengthDelimited =>
    refine moves_position.bind fun lenPos lenPos' hlenPos => ?_
    refine moves_readVarint.bind fun len len' hlen => ?_
    subst hlenPos hlen
    rw [lengthFromVarint_eq,lengthFromVarint_eq]
    refine (moves_lift rfl).bind fun l l' hl => ?_
    refine moves_position.bind fun p q hpos => ?_
    subst hl
    refine (moves_readBytes l).bind fun v w hv => moves_pure ?_
    subst hpos hv
    rfl

/-- A record found at one place, found `n` bytes further on. -/
def Scan.shift (n : ℕ) (s : Scan) : Scan := { s with start := n + s.start, stop := n + s.stop }

theorem moves_scanRecord :
    Moves pre (fun s s' => s' = s.shift pre.length) scanRecord scanRecord := by
  rw [scanRecord_eq_key]
  refine moves_scanKey.bind fun key key' hkey => ?_
  subst hkey
  refine (moves_scanValue key.wireType).bind fun v w hv => ?_
  refine moves_position.bind fun p q hpos => moves_pure ?_
  subst hpos hv
  rfl

end moved

section whole
variable {α : Type} {body : ReadM α} {a b whole : Slice}

lemma Moved.done_eq {pre : List UInt8} {r t : Reader} (h : Moved pre r t) :
    loop.done r = loop.done t := by
  change r.isEmpty = t.isEmpty
  rw [Bool.eq_iff_iff,Reader.isEmpty_iff,Reader.isEmpty_iff,h.rest_eq]

lemma Extended.running {r t : Reader} (h : Extended whole r t) (hrun : loop.done r = false) :
    loop.done t = false := by
  change r.isEmpty = false at hrun
  change t.isEmpty = false
  have hle : r.buf.len ≤ whole.len := h.begins.length_le
  rw [isEmpty,decide_eq_false_iff_not] at hrun ⊢
  rw [h.buf_eq,h.pos_eq]
  omega

/-- A loop that takes `a` as a whole arrives behind `a` in any buffer that begins with it. -/
lemma steps_through (hreads : ∀ r x r', r.InBounds → body r = .ok x r' →
      ∃ w, w ≠ [] ∧ r.Reads w r') (hgrows : Grows body)
    (hwhole : whole.bytes = a.bytes ++ b.bytes) {as : List α} (h : readAll body a = .ok as) :
    ∃ t, Steps loop body (new whole) as t ∧ Moved a.bytes (new b) t := by
  obtain ⟨r,hsteps,hdone⟩ := (drain_ok_iff (progress_of_reads hreads) (new a) as).mp h
  have hstep : ∀ r x r', Within a r → body r = .ok x r' → Within a r' := by
    intro r x r' hr hbody
    obtain ⟨w,-,hread⟩ := hreads r x r' hr.2 hbody
    exact hr.step hread
  have hwithin : Within a r := hsteps.invariant hstep (within_new a)
  have hpos : r.pos = a.len := by
    refine Nat.le_antisymm hwithin.pos_le ?_
    rw [← hwithin.1]
    exact of_decide_eq_true hdone
  obtain ⟨t,hsteps',hE⟩ := Lockstep.steps_follow (P := Endures whole)
    (fun s t hE hrun => ⟨hE.running hrun,hgrows whole s t hE⟩) hsteps
    (extended_new ⟨b.bytes,hwhole.symm⟩)
  refine ⟨t,hsteps',?_,?_,inBounds_new b⟩
  · rw [hE.buf_eq]
    exact hwhole
  · rw [hE.pos_eq,hpos]
    rfl

/-- A loop over records or words goes on behind a buffer it takes as a whole as it does at the start
of the next buffer. -/
theorem readAll_concat {g : α → α} (hreads : ∀ r x r', r.InBounds → body r = .ok x r' →
      ∃ w, w ≠ [] ∧ r.Reads w r') (hgrows : Grows body)
    (hmoves : Moves a.bytes (fun x y => y = g x) body body)
    (hwhole : whole.bytes = a.bytes ++ b.bytes) {as : List α} (h : readAll body a = .ok as) :
    readAll body whole = moved a.len (fun bs => as ++ bs.map g) (readAll body b) := by
  have hprogress := progress_of_reads hreads
  obtain ⟨t,hsteps,hE⟩ := steps_through hreads hgrows hwhole h
  have htranslate := drain_translates hprogress hprogress
    (fun s t hE => ⟨hE.done_eq,fun _ => hmoves s t hE⟩) hE .nil
  rw [readAll,hsteps.drain_eq hprogress,List.nil_append,drain_out hprogress,readAll]
  generalize drain loop body (new b) [] = x at htranslate
  generalize drain loop body t [] = y at htranslate
  cases htranslate with
  | @ok bs cs val =>
    have hmap : bs.map g = cs.map id := Pairing.map_eq_of_forall₂ val fun x y hxy => hxy.symm
    rw [List.map_id] at hmap
    subst hmap
    rfl
  | error err =>
    subst err
    rfl

/-- What is returned does not depend on where it was found. -/
lemma readAll_concat_same (hreads : ∀ r x r', r.InBounds → body r = .ok x r' →
      ∃ w, w ≠ [] ∧ r.Reads w r') (hgrows : Grows body) (hmoves : Moves a.bytes Eq body body)
    (hwhole : whole.bytes = a.bytes ++ b.bytes) {as : List α} (h : readAll body a = .ok as) :
    readAll body whole = moved a.len (as ++ ·) (readAll body b) := by
  have hmoves' : Moves a.bytes (fun x y => y = id x) body body := by
    intro r t hE
    simpa only [id,eq_comm] using hmoves r t hE
  rw [readAll_concat hreads hgrows hmoves' hwhole h]
  simp only [List.map_id]

/-- The body of a loop over words moves on when it succeeds. -/
lemma TakesWord.reads {ω : Type} {code : ω → List UInt8} {Q : ω → α → Prop}
    (hne : ∀ w, code w ≠ []) (h : TakesWord code body Q) (r : Reader) (x : α) (r' : Reader)
    (hb : r.InBounds) (hbody : body r = .ok x r') : ∃ w, w ≠ [] ∧ r.Reads w r' := by
  obtain ⟨w,hread,-⟩ := (h r x r' hb).mp hbody
  exact ⟨code w,hne w,hread⟩

end whole

section index

/-- The entry of a field that stands `n` bytes further on. -/
def IndexEntry.shift (n : ℕ) (entry : IndexEntry) : IndexEntry :=
  { entry with offset := UInt32.ofNat n + entry.offset }

lemma Scan.entry_shift (n : ℕ) (s : Scan) : (s.shift n).entry = s.entry.shift n := by
  simp only [entry,shift,IndexEntry.shift,Nat.add_sub_add_left,UInt32.ofNat_add]

lemma grows_indexField : Grows indexField := by
  intro whole r t hE
  rw [indexField_eq hE.inBounds,indexField_eq hE.inBounds_right]
  exact (grows_scanRecord.map Scan.entry) whole r t hE

lemma moves_indexField {pre : List UInt8} :
    Moves pre (fun e e' => e' = e.shift pre.length) indexField indexField := by
  intro r t hE
  rw [indexField_eq hE.inBounds,indexField_eq hE.inBounds_right]
  refine (moves_scanRecord r t hE).map fun s s' hs => ?_
  rw [hs,Scan.entry_shift]

lemma indexField_reads (r : Reader) (entry : IndexEntry) (r' : Reader) (hb : r.InBounds)
    (h : indexField r = .ok entry r') : ∃ w, w ≠ [] ∧ r.Reads w r' := by
  obtain ⟨rec,hread,-⟩ := indexField_ok hb h
  exact ⟨rec.wire,rec.wire_ne_nil,hread⟩

/-- Below 4 GiB the offset of a moved entry is the offset plus the distance. -/
lemma IndexEntry.shift_offset {b : Slice} {entries : List IndexEntry} {entry : IndexEntry} {n : ℕ}
    (h : indexFields b = .ok entries) (hmem : entry ∈ entries) (hn : n + b.len ≤ U32_MAX) :
    (entry.shift n).offset.toNat = n + entry.offset.toNat := by
  obtain ⟨fields,-,hfields⟩ :=
    (indexFields_sim_decodeFields (indexFields_len_le h)).of_ok_left h
  obtain ⟨field,-,pre,rec,post,hbytes,rfl,-⟩ := Pairing.forall₂_mem_left hfields hmem
  have hlen := congrArg List.length hbytes
  rw [List.length_append,List.length_append] at hlen
  have hfits : pre.length + rec.wire.length ≤ U32_MAX := by
    unfold Slice.len at hn
    omega
  have hoffset := scanAt_entry_offset hfits
  have hhead : (rec.keyWord.bytes ++ rec.payload.head).length ≤ rec.wire.length := by
    simp only [Record.wire,Payload.wire,List.length_append]
    omega
  rw [shift,UInt32.toNat_add,UInt32.toNat_ofNat',hoffset]
  unfold Slice.len at hn
  simp only [U32_MAX] at hn hfits
  omega

end index

lemma decodeFields_concat {a b whole : Slice} (hwhole : whole.bytes = a.bytes ++ b.bytes)
    {fields : List Field} (h : decodeFields a = .ok fields) :
    decodeFields whole = moved a.len (fields ++ ·) (decodeFields b) := by
  refine readAll_concat_same (TakesWord.reads Record.wire_ne_nil decodeField_takesRecord)
    grows_decodeField ?_ hwhole h
  rw [decodeField_eq]
  exact moves_scanRecord.map fun s s' hs => hs ▸ rfl

/-- Behind a message that is accepted, both flat decoders go on as they start on the rest alone:
the fields follow, offsets and error positions move by the length of the first part. -/
theorem decode_concat (a b whole : Slice) (hwhole : whole.bytes = a.bytes ++ b.bytes)
    (fields : List Field) (h : decodeFields a = .ok fields) :
    decodeFields whole = moved a.len (fields ++ ·) (decodeFields b) ∧
    (whole.len ≤ U32_MAX → ∃ entries, indexFields a = .ok entries ∧
      indexFields whole =
        moved a.len (fun more => entries ++ more.map (IndexEntry.shift a.len)) (indexFields b) ∧
      ∀ more, indexFields b = .ok more → ∀ entry ∈ more,
        (entry.shift a.len).offset.toNat = a.len + entry.offset.toNat) := by
  constructor
  · exact decodeFields_concat hwhole h
  · intro hlen
    have hsum : whole.len = a.len + b.len := by
      unfold Slice.len
      rw [hwhole,List.length_append]
    have ha : a.len ≤ U32_MAX := by omega
    have hb : b.len ≤ U32_MAX := by omega
    obtain ⟨entries,hentries,-⟩ := indexFields_of_decodeFields ha h
    refine ⟨entries,hentries,?_,?_⟩
    · rw [indexFields,if_neg (Nat.not_lt.mpr ha)] at hentries
      rw [indexFields,if_neg (Nat.not_lt.mpr hlen),indexFields,if_neg (Nat.not_lt.mpr hb)]
      exact readAll_concat indexField_reads grows_indexField moves_indexField hwhole hentries
    · intro more hmore entry hmem
      exact IndexEntry.shift_offset hmore hmem (hsum ▸ hlen)

theorem decode_concat_example :
    decodeFields ⟨[0x08,0x01,0x12,0x05,0x61],by decide⟩ =
      .error (.err (.unexpectedEof 5 4)) := by
  have hrest : decodeFields ⟨[0x12,0x05,0x61],by decide⟩ =
      .error (.err (.unexpectedEof 5 2)) := by decide +kernel
  rw [(decode_concat ⟨[0x08,0x01],by decide⟩ ⟨[0x12,0x05,0x61],by decide⟩ _ rfl
    [⟨1,.varint 1⟩] (by decide +kernel)).1,hrest]
  rfl

end SignalisCodec
