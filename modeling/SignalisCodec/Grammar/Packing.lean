import SignalisCodec.Core.Packed
import SignalisCodec.Grammar.RoundTrip
import SignalisCodec.Grammar.WordLoop
import SignalisCodec.Theory.Strided

/-! Packing and unpacking are inverse: exactly for fixed-width elements, and up to overlong varints
for varint elements. -/
namespace SignalisCodec
open Reader Shortest

section varints

/-- Packing writes the shortest varint of every element. -/
lemma packVarints_eq (values : List UInt64) :
    packVarints values = values.flatMap fun v => (Varint.shortest v).bytes := by
  have hrun : ∀ e : Encoder, (values.foldl Encoder.writeVarint e).buf =
      e.buf ++ values.flatMap fun v => (Varint.shortest v).bytes := by
    induction values with
    | nil => exact fun e => (List.append_nil _).symm
    | cons v values ih =>
      intro e
      rw [List.foldl_cons,ih,Encoder.writeVarint_buf,List.flatMap_cons,List.append_assoc]
  exact hrun Encoder.new

lemma readVarint_takesWord : TakesWord Varint.bytes readVarint fun w v => w.value = v := by
  intro r v r' _
  rw [readVarint_ok_iff]
  simp only [and_comm]

lemma Varint.bytes_ne_nil (w : Varint) : w.bytes ≠ [] := w.isVarint.word.ne_nil

/-- Unpacking accepts the concatenations of varints and returns their values. -/
theorem unpackVarints_ok_iff {buf : Slice} {values : List UInt64} :
    unpackVarints buf = .ok values ↔
      ∃ ws : List Varint, ws.flatMap Varint.bytes = buf.bytes ∧ ws.map Varint.value = values := by
  rw [unpackVarints,readVarint_takesWord.readAll_ok_iff Varint.bytes_ne_nil]
  simp only [← List.forall₂_map_left_iff (f := Varint.value) (R := Eq),List.forall₂_eq_eq_eq]

lemma unpackVarints_packVarints {buf : Slice} {values : List UInt64}
    (h : buf.bytes = packVarints values) : unpackVarints buf = .ok values := by
  refine unpackVarints_ok_iff.mpr ⟨values.map Varint.shortest,?_,?_⟩
  · rw [List.flatMap_map,h,packVarints_eq]
  · rw [List.map_map]
    exact (List.map_congr_left fun v _ => Varint.value_shortest v).trans (List.map_id values)

/-- Packing what was unpacked gives the shortest payload with these values. -/
lemma packVarints_shortens {buf : Slice} {values : List UInt64}
    (h : unpackVarints buf = .ok values) : Shortens (packVarints values) buf.bytes := by
  obtain ⟨ws,hw,rfl⟩ := unpackVarints_ok_iff.mp h
  rw [packVarints_eq,List.flatMap_map,← hw]
  exact Shortens.flatMap fun w _ => w.shortest_shortens

end varints

section fixed
variable {α : Type} {width : ℕ} {toLeBytes : α → List UInt8} {ofLeBytes : List UInt8 → α}

/-- Elements of one width, written and read back without loss either way. -/
structure FixedWidth (width : ℕ) (toLeBytes : α → List UInt8) (ofLeBytes : List UInt8 → α) :
    Prop where
  pos : 0 < width
  width_le : width ≤ ISIZE_MAX
  length_eq : ∀ a, (toLeBytes a).length = width
  of_to : ∀ a, ofLeBytes (toLeBytes a) = a
  to_of : ∀ bs, bs.length = width → toLeBytes (ofLeBytes bs) = bs

lemma fixedWidth32 : FixedWidth 4 u32ToLeBytes u32FromLeBytes where
  pos := by decide
  width_le := by decide
  length_eq v := LittleEndian.length_bytes 4 v.toNat
  of_to := u32FromLeBytes_toLeBytes
  to_of _ := u32ToLeBytes_fromLeBytes

lemma fixedWidth64 : FixedWidth 8 u64ToLeBytes u64FromLeBytes where
  pos := by decide
  width_le := by decide
  length_eq v := LittleEndian.length_bytes 8 v.toNat
  of_to := u64FromLeBytes_toLeBytes
  to_of _ := u64ToLeBytes_fromLeBytes

lemma packFixed_eq (values : List α) : packFixed toLeBytes values = values.flatMap toLeBytes := by
  have hrun : ∀ out, values.foldl (fun out v => out ++ toLeBytes v) out =
      out ++ values.flatMap toLeBytes := by
    induction values with
    | nil => exact fun out => (List.append_nil out).symm
    | cons v values ih =>
      intro out
      rw [List.foldl_cons,ih,List.flatMap_cons,List.append_assoc]
  exact hrun []

lemma FixedWidth.takesWord (h : FixedWidth width toLeBytes ofLeBytes) :
    TakesWord toLeBytes (readFixed width ofLeBytes) Eq := by
  intro r a r' hb
  rw [readFixed_ok_iff ofLeBytes h.width_le hb]
  constructor
  · rintro ⟨bs,hbs,rfl,hread⟩
    refine ⟨ofLeBytes bs,?_,rfl⟩
    rw [h.to_of bs hbs]
    exact hread
  · rintro ⟨_,hread,rfl⟩
    exact ⟨_,h.length_eq _,h.of_to _,hread⟩

lemma FixedWidth.ne_nil (h : FixedWidth width toLeBytes ofLeBytes) (a : α) : toLeBytes a ≠ [] := by
  rw [← List.length_pos_iff,h.length_eq]
  exact h.pos

lemma FixedWidth.len_mod (h : FixedWidth width toLeBytes ofLeBytes) {buf : Slice}
    {values : List α} (hpack : packFixed toLeBytes values = buf.bytes) : buf.len % width = 0 := by
  rw [packFixed_eq] at hpack
  rw [Slice.len,← hpack,Strided.length_flatMap_rows h.length_eq]
  exact Nat.mul_mod_left _ _

/-- Unpacking returns exactly the list whose packing the payload is. -/
theorem FixedWidth.unpackFixed_ok_iff (h : FixedWidth width toLeBytes ofLeBytes) {buf : Slice}
    {values : List α} :
    unpackFixed width (readFixed width ofLeBytes) buf = .ok values ↔
      packFixed toLeBytes values = buf.bytes := by
  have hloop := h.takesWord.readAll_ok_iff h.ne_nil buf values
  simp only [List.forall₂_eq_eq_eq,exists_eq_right,← packFixed_eq] at hloop
  unfold unpackFixed
  by_cases hlen : buf.len % width = 0
  · rw [if_neg (not_not_intro hlen)]
    exact hloop
  · rw [if_pos hlen]
    constructor
    · intro herr
      cases herr
    · intro hpack
      exact absurd (h.len_mod hpack) hlen

/-- Unpacking accepts the payloads whose length is a multiple of the width. -/
theorem FixedWidth.unpackFixed_accepts_iff (h : FixedWidth width toLeBytes ofLeBytes)
    (buf : Slice) :
    (∃ values, unpackFixed width (readFixed width ofLeBytes) buf = .ok values) ↔
      buf.len % width = 0 := by
  simp only [h.unpackFixed_ok_iff]
  constructor
  · rintro ⟨values,hpack⟩
    exact h.len_mod hpack
  · intro hlen
    obtain ⟨rows,hrows⟩ := Strided.exists_rows h.pos hlen
    refine ⟨rows.map fun row => ofLeBytes row.val,?_⟩
    rw [packFixed_eq,List.flatMap_map,← hrows]
    congr 1
    funext row
    exact h.to_of row.val row.property

end fixed

/-- Unpacking inverts packing. Fixed-width payloads are accepted exactly if their length is a
multiple of the width, and packing inverts unpacking there; varint payloads are accepted exactly
if they consist of varints, and packing again gives the shortest payload with these values. -/
theorem unpack_pack_inverse (buf : Slice) :
    ((∀ xs, buf.bytes = packVarints xs → unpackVarints buf = .ok xs) ∧
      (∀ xs, buf.bytes = packFixed32 xs → unpackFixed32 buf = .ok xs) ∧
      (∀ xs, buf.bytes = packFixed64 xs → unpackFixed64 buf = .ok xs)) ∧
    (((∃ xs, unpackFixed32 buf = .ok xs) ↔ buf.len % 4 = 0) ∧
      ∀ xs, unpackFixed32 buf = .ok xs → packFixed32 xs = buf.bytes) ∧
    (((∃ xs, unpackFixed64 buf = .ok xs) ↔ buf.len % 8 = 0) ∧
      ∀ xs, unpackFixed64 buf = .ok xs → packFixed64 xs = buf.bytes) ∧
    (((∃ xs, unpackVarints buf = .ok xs) ↔
        ∃ ws : List Varint, ws.flatMap Varint.bytes = buf.bytes) ∧
      ∀ xs, unpackVarints buf = .ok xs → (packVarints xs).length ≤ buf.len ∧
        ((packVarints xs).length = buf.len → packVarints xs = buf.bytes)) := by
  refine ⟨⟨?_,?_,?_⟩,⟨?_,?_⟩,⟨?_,?_⟩,?_,?_⟩
  · exact fun xs => unpackVarints_packVarints
  · exact fun xs h => fixedWidth32.unpackFixed_ok_iff.mpr h.symm
  · exact fun xs h => fixedWidth64.unpackFixed_ok_iff.mpr h.symm
  · exact fixedWidth32.unpackFixed_accepts_iff buf
  · exact fun xs => fixedWidth32.unpackFixed_ok_iff.mp
  · exact fixedWidth64.unpackFixed_accepts_iff buf
  · exact fun xs => fixedWidth64.unpackFixed_ok_iff.mp
  · constructor
    · rintro ⟨xs,h⟩
      obtain ⟨ws,hw,-⟩ := unpackVarints_ok_iff.mp h
      exact ⟨ws,hw⟩
    · rintro ⟨ws,hw⟩
      exact ⟨_,unpackVarints_ok_iff.mpr ⟨ws,hw,rfl⟩⟩
  · intro xs h
    have hshort := packVarints_shortens h
    exact ⟨hshort.length_le,fun hlen => hshort.eq_of_length (Nat.le_of_eq hlen.symm)⟩

end SignalisCodec
