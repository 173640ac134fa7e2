import SignalisCodec.Grammar.Concatenation

/-! Packed payloads are closed under concatenation, in both directions. -/
namespace SignalisCodec
open Reader Fallible

section varints
variable {a b whole : Slice}

lemma packVarints_append (xs ys : List UInt64) :
    packVarints (xs ++ ys) = packVarints xs ++ packVarints ys := by
  simp only [packVarints_eq,List.flatMap_append]

lemma unpackVarints_concat (hwhole : whole.bytes = a.bytes ++ b.bytes) {xs : List UInt64}
    (h : unpackVarints a = .ok xs) :
    unpackVarints whole = moved a.len (xs ++ ·) (unpackVarints b) :=
  readAll_concat_same (TakesWord.reads Varint.bytes_ne_nil readVarint_takesWord) grows_readVarint
    moves_readVarint hwhole h

end varints

section fixed
variable {α : Type} {width : ℕ} {toLeBytes : α → List UInt8} {ofLeBytes : List UInt8 → α}
  {a b whole : Slice}

lemma packFixed_append (xs ys : List α) :
    packFixed toLeBytes (xs ++ ys) = packFixed toLeBytes xs ++ packFixed toLeBytes ys := by
  simp only [packFixed_eq,List.flatMap_append]

/-- The check of the length looks at the second payload only, once the first has passed it. -/
lemma FixedWidth.unpackFixed_concat (h : FixedWidth width toLeBytes ofLeBytes)
    (hsmall : width ≤ 8) (hwhole : whole.bytes = a.bytes ++ b.bytes) {xs : List α}
    (ha : unpackFixed width (readFixed width ofLeBytes) a = .ok xs) :
    unpackFixed width (readFixed width ofLeBytes) whole =
      moved a.len (xs ++ ·) (unpackFixed width (readFixed width ofLeBytes) b) := by
  have hmod : a.len % width = 0 := (h.unpackFixed_accepts_iff a).mp ⟨xs,ha⟩
  have hsum : whole.len = a.len + b.len := by
    unfold Slice.len
    rw [hwhole,List.length_append]
  have hrest : whole.len % width = b.len % width := by
    rw [hsum,Nat.add_mod,hmod,Nat.zero_add,Nat.mod_mod]
  unfold unpackFixed at ha ⊢
  rw [if_neg (not_not_intro hmod)] at ha
  rw [hrest]
  by_cases hb : b.len % width = 0
  · rw [if_neg (not_not_intro hb),if_neg (not_not_intro hb)]
    exact readAll_concat_same (TakesWord.reads h.ne_nil h.takesWord) (grows_readFixed _ _)
      (moves_readFixed _ _) hwhole ha
  · have hfits := whole.fits
    have hroom : a.len + b.len + (width - b.len % width) ≤ USIZE_MAX := by
      rw [← hsum]
      simp only [Slice.len,ISIZE_MAX,USIZE_MAX] at *
      omega
    rw [if_pos hb,if_pos hb,hsum]
    simp only [moved,Failure.shift,DecodeError.shift,if_pos hroom]

end fixed

/-- Packing takes concatenation to concatenation, and unpacking takes it back: behind a payload that
is accepted the elements of the next one follow, or its error moved by the length of the first. -/
theorem packed_concat (a b whole : Slice) (hwhole : whole.bytes = a.bytes ++ b.bytes) :
    (∀ xs ys, packVarints (xs ++ ys) = packVarints xs ++ packVarints ys) ∧
    (∀ xs ys, packFixed32 (xs ++ ys) = packFixed32 xs ++ packFixed32 ys) ∧
    (∀ xs ys, packFixed64 (xs ++ ys) = packFixed64 xs ++ packFixed64 ys) ∧
    (∀ xs, unpackVarints a = .ok xs →
      unpackVarints whole = moved a.len (xs ++ ·) (unpackVarints b)) ∧
    (∀ xs, unpackFixed32 a = .ok xs →
      unpackFixed32 whole = moved a.len (xs ++ ·) (unpackFixed32 b)) ∧
    (∀ xs, unpackFixed64 a = .ok xs →
      unpackFixed64 whole = moved a.len (xs ++ ·) (unpackFixed64 b)) := by
  refine ⟨packVarints_append,packFixed_append,packFixed_append,?_,?_,?_⟩
  · exact fun xs h => unpackVarints_concat hwhole h
  · exact fun xs h => fixedWidth32.unpackFixed_concat (by decide) hwhole h
  · exact fun xs h => fixedWidth64.unpackFixed_concat (by decide) hwhole h

theorem packed_concat_example :
    unpackFixed32 ⟨[1,0,0,0,2,0,0],by decide⟩ = .error (.err (.unexpectedEof 1 7)) := by
  have ha : unpackFixed32 ⟨[1,0,0,0],by decide⟩ = .ok [1] := by decide +kernel
  have hb : unpackFixed32 ⟨[2,0,0],by decide⟩ = .error (.err (.unexpectedEof 1 3)) := by
    decide +kernel
  obtain ⟨-,-,-,-,h,-⟩ :=
    packed_concat ⟨[1,0,0,0],by decide⟩ ⟨[2,0,0],by decide⟩ ⟨[1,0,0,0,2,0,0],by decide⟩ rfl
  rw [h [1] ha,hb]
  rfl

end SignalisCodec
