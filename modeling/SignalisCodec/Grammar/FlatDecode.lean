import SignalisCodec.Grammar.RecordLoop

/-! `decode_fields` accepts exactly the wire grammar. -/
namespace SignalisCodec
open Reader Fallible

theorem decodeFields_ok_iff (buf : Slice) (fs : List Field) :
    decodeFields buf = .ok fs ↔ ∃ recs, wires recs = buf.bytes ∧ recs.map Record.field = fs := by
  rw [decodeFields,decodeField_takesRecord.readAll_ok_iff]
  simp only [← List.forall₂_map_left_iff (f := Record.field) (R := Eq),List.forall₂_eq_eq_eq]

/-- Everything a decode returns has a field number other than 0. -/
lemma decodeFields_number_ne_zero {buf : Slice} {fs : List Field} (h : decodeFields buf = .ok fs) :
    ∀ f ∈ fs, f.fieldNumber ≠ 0 := by
  obtain ⟨recs,-,rfl⟩ := (decodeFields_ok_iff buf fs).mp h
  intro f hf
  obtain ⟨rec,-,rfl⟩ := List.mem_map.mp hf
  exact rec.number_ne_zero

/-- A flat decode fails only because of the bytes: it does not panic, loop or count depth. -/
theorem decodeFields_error {buf : Slice} {f : Failure} (h : decodeFields buf = .error f) :
    f.IsMalformed := by
  rw [decodeFields,decodeField_takesRecord.readAll_error_iff] at h
  obtain ⟨recs,as,r,r',hreads,-,-,hbody⟩ := h
  exact scanRecord_error (hreads.inBounds (inBounds_new buf)) (decodeField_error hbody)

/-- The buffers accepted are the concatenations of records, each in one way only; the result
lists what the records denote; every other buffer is answered with `Err`. -/
theorem decodeFields_accepts_grammar (buf : Slice) :
    (∀ fs, decodeFields buf = .ok fs ↔
      ∃ recs, wires recs = buf.bytes ∧ recs.map Record.field = fs) ∧
    (∀ recs recs', wires recs = buf.bytes → wires recs' = buf.bytes → recs = recs') ∧
    ((¬ ∃ recs, wires recs = buf.bytes) → ∃ e, decodeFields buf = .error (.err e)) := by
  refine ⟨decodeFields_ok_iff buf,?_,?_⟩
  · intro recs recs' h h'
    exact wires_injective (h.trans h'.symm)
  · intro hno
    cases h : decodeFields buf with
    | ok fs =>
      obtain ⟨recs,hw,-⟩ := (decodeFields_ok_iff buf fs).mp h
      exact absurd ⟨recs,hw⟩ hno
    | error f =>
      obtain ⟨⟨e,rfl⟩,-⟩ := f.isMalformed_iff.mp (decodeFields_error h)
      exact ⟨e,rfl⟩

end SignalisCodec
