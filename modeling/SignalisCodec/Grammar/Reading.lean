import SignalisCodec.Theory.Fallible
import SignalisCodec.Grammar.Varint

/-! What each reader operation does with the bytes in front of the cursor. -/
namespace SignalisCodec
open Fallible

namespace Reader

/-- The bytes in front of the cursor. -/
def rest (r : Reader) : List UInt8 := r.buf.bytes.drop r.pos

def advance (r : Reader) (n : ℕ) : Reader := { r with pos := r.pos + n }

def InBounds (r : Reader) : Prop := r.pos ≤ r.buf.len

/-- `r'` is `r` moved over the bytes `w`. -/
structure Reads (r : Reader) (w : List UInt8) (r' : Reader) : Prop where
  next : r' = r.advance w.length
  rest_eq : r.rest = w ++ r'.rest

@[simp] lemma advance_buf (r : Reader) (n : ℕ) : (r.advance n).buf = r.buf := rfl
@[simp] lemma advance_pos (r : Reader) (n : ℕ) : (r.advance n).pos = r.pos + n := rfl
@[simp] lemma advance_zero (r : Reader) : r.advance 0 = r := rfl
@[simp] lemma advance_advance (r : Reader) (m n : ℕ) :
    (r.advance m).advance n = r.advance (m + n) := by
  simp [advance,Nat.add_assoc]

@[simp] lemma rest_new (buf : Slice) : (new buf).rest = buf.bytes := rfl

lemma inBounds_new (buf : Slice) : (new buf).InBounds := Nat.zero_le _

lemma rest_length (r : Reader) : r.rest.length = r.buf.len - r.pos := List.length_drop

lemma rest_advance {r : Reader} {w t : List UInt8} (h : r.rest = w ++ t) :
    (r.advance w.length).rest = t := by
  have : (r.advance w.length).rest = r.rest.drop w.length := (List.drop_drop ..).symm
  rw [this,h,List.drop_left]

lemma reads_of_rest {r : Reader} {w t : List UInt8} (h : r.rest = w ++ t) :
    r.Reads w (r.advance w.length) :=
  ⟨rfl,by rw [rest_advance h,h]⟩

namespace Reads

lemma refl (r : Reader) : r.Reads [] r := ⟨rfl,rfl⟩

lemma trans {r r' r'' : Reader} {u v : List UInt8} (hu : r.Reads u r') (hv : r'.Reads v r'') :
    r.Reads (u ++ v) r'' := by
  refine ⟨?_,?_⟩
  · rw [hv.next,hu.next,advance_advance,List.length_append]
  · rw [hu.rest_eq,hv.rest_eq,List.append_assoc]

lemma buf_eq {r r' : Reader} {w : List UInt8} (h : r.Reads w r') : r'.buf = r.buf := by
  rw [h.next,advance_buf]

lemma pos_eq {r r' : Reader} {w : List UInt8} (h : r.Reads w r') : r'.pos = r.pos + w.length := by
  rw [h.next,advance_pos]

lemma inBounds {r r' : Reader} {w : List UInt8} (h : r.Reads w r') (hr : r.InBounds) :
    r'.InBounds := by
  have hlen := congrArg List.length h.rest_eq
  rw [List.length_append,rest_length,rest_length] at hlen
  unfold InBounds at hr ⊢
  rw [h.buf_eq,h.pos_eq] at *
  omega

end Reads

lemma pos_lt_of_rest {r : Reader} {b : UInt8} {t : List UInt8} (h : r.rest = b :: t) :
    r.pos < r.buf.len := by
  have := congrArg List.length h
  rw [rest_length,List.length_cons] at this
  omega

lemma rest_eq_nil_iff (r : Reader) : r.rest = [] ↔ r.buf.len ≤ r.pos := List.drop_eq_nil_iff

lemma isEmpty_iff (r : Reader) : r.isEmpty = true ↔ r.rest = [] := by
  rw [rest_eq_nil_iff,isEmpty,decide_eq_true_iff]

@[simp] lemma position_apply (r : Reader) : position r = .ok r.pos r := rfl
@[simp] lemma orPanic_some {α : Type} (a : α) : orPanic (some a) = pure a := rfl

lemma checkedAdd_of_le {a b : ℕ} (h : a + b ≤ USIZE_MAX) : checkedAdd a b = some (a + b) :=
  if_pos h

lemma readByte_cons {r : Reader} {b : UInt8} {t : List UInt8} (h : r.rest = b :: t) :
    readByte r = .ok b (r.advance 1) := by
  have hlt := pos_lt_of_rest h
  have hfits := r.buf.fits
  have hget : r.buf.bytes[r.pos]? = some b := by
    have : r.rest[0]? = some b := by rw [h]; rfl
    simpa [rest] using this
  have hadd : checkedAdd r.pos 1 = some (r.pos + 1) :=
    checkedAdd_of_le (by simp only [Slice.len,ISIZE_MAX,USIZE_MAX] at *; omega)
  rw [readByte,bind_ok (get_apply r)]
  simp only [ge_iff_le,Nat.not_le.mpr hlt,if_false,hget,hadd,orPanic_some,pure_bind]
  rfl

lemma readByte_nil {r : Reader} (h : r.rest = []) :
    readByte r = .error (.err (.unexpectedEof 1 r.pos)) r := by
  rw [readByte,bind_ok (get_apply r)]
  simp only [ge_iff_le,(rest_eq_nil_iff r).mp h,if_true]
  rfl

lemma readByte_ok {r r' : Reader} {b : UInt8} (h : readByte r = .ok b r') : r.Reads [b] r' := by
  cases hr : r.rest with
  | nil =>
    rw [readByte_nil hr] at h
    cases h
  | cons c t =>
    rw [readByte_cons hr] at h
    cases h
    exact reads_of_rest (w := [b]) hr

lemma range_of_rest {r : Reader} {s : Slice} {t : List UInt8} (hb : r.InBounds)
    (h : r.rest = s.bytes ++ t) : r.buf.range r.pos (r.pos + s.len) = some s := by
  have hlen := congrArg List.length h
  rw [rest_length,List.length_append] at hlen
  have hin : r.pos ≤ r.pos + s.len ∧ r.pos + s.len ≤ r.buf.len := by
    unfold InBounds at hb
    unfold Slice.len at *
    omega
  rw [Slice.range,if_pos hin]
  congr 1
  apply Slice.ext
  change r.rest.take (r.pos + s.len - r.pos) = s.bytes
  rw [h,Nat.add_sub_cancel_left]
  exact List.take_left

lemma readBytes_ok {r : Reader} {s : Slice} {t : List UInt8} (hb : r.InBounds)
    (h : r.rest = s.bytes ++ t) : readBytes s.len r = .ok s (r.advance s.len) := by
  have hin := (reads_of_rest h).inBounds hb
  have hfits := r.buf.fits
  have hadd : checkedAdd r.pos s.len = some (r.pos + s.len) := by
    apply checkedAdd_of_le
    simp only [InBounds,advance_pos,advance_buf,Slice.len,ISIZE_MAX,USIZE_MAX] at *
    omega
  have hstop : ¬ r.pos + s.len > r.buf.len := Nat.not_lt.mpr hin
  rw [readBytes,bind_ok (get_apply r)]
  simp only [hadd,hstop,if_false,range_of_rest hb h,orPanic_some,pure_bind]
  rfl

lemma readBytes_eof {r : Reader} {len : ℕ} (hb : r.InBounds) (h : r.rest.length < len)
    (hadd : r.pos + len ≤ USIZE_MAX) :
    readBytes len r = .error (.err (.unexpectedEof len r.pos)) r := by
  have hstop : r.pos + len > r.buf.len := by
    rw [rest_length] at h
    unfold InBounds at hb
    omega
  rw [readBytes,bind_ok (get_apply r)]
  simp only [checkedAdd_of_le hadd,hstop,if_true]
  rfl

lemma readBytes_overflow {r : Reader} {len : ℕ} (h : USIZE_MAX < r.pos + len) :
    readBytes len r = .error (.err (.lengthOverflow r.pos)) r := by
  rw [readBytes,bind_ok (get_apply r),checkedAdd,if_neg (Nat.not_le.mpr h)]
  rfl

/-- The bytes asked for are there, or the buffer ends before them, or no buffer has them. -/
theorem readBytes_outcomes (r : Reader) (len : ℕ) :
    (∃ s : Slice, s.len = len ∧ ∃ t, r.rest = s.bytes ++ t) ∨
    (r.rest.length < len ∧ r.pos + len ≤ USIZE_MAX) ∨ USIZE_MAX < r.pos + len := by
  by_cases hadd : r.pos + len ≤ USIZE_MAX
  · by_cases hlen : r.rest.length < len
    · exact .inr (.inl ⟨hlen,hadd⟩)
    · have htake : (r.rest.take len).length = len := by rw [List.length_take]; omega
      have hfits : (r.rest.take len).length ≤ ISIZE_MAX := by
        have := r.buf.fits
        have := rest_length r
        unfold Slice.len at *
        omega
      exact .inl ⟨⟨r.rest.take len,hfits⟩,htake,_,(List.take_append_drop len r.rest).symm⟩
  · exact .inr (.inr (by omega))

/-- `read_bytes` either passes over the bytes it returns or leaves the cursor with an error. -/
theorem readBytes_cases {r : Reader} (hb : r.InBounds) (len : ℕ) :
    (∃ s : Slice, s.len = len ∧ (∃ t, r.rest = s.bytes ++ t) ∧
      readBytes len r = .ok s (r.advance len)) ∨
    ∃ f : Failure, f.IsMalformed ∧ readBytes len r = .error f r := by
  rcases readBytes_outcomes r len with ⟨s,rfl,t,hr⟩ | ⟨hlen,hadd⟩ | hover
  · exact .inl ⟨s,rfl,⟨t,hr⟩,readBytes_ok hb hr⟩
  · exact .inr ⟨_,by trivial,readBytes_eof hb hlen hadd⟩
  · exact .inr ⟨_,by trivial,readBytes_overflow hover⟩

theorem readBytes_ok_iff {r r' : Reader} {s : Slice} {len : ℕ} (hb : r.InBounds) :
    readBytes len r = .ok s r' ↔ s.len = len ∧ r.Reads s.bytes r' := by
  constructor
  · intro h
    rcases readBytes_cases hb len with ⟨s',rfl,⟨t,hr⟩,hread⟩ | ⟨f',hf,he⟩
    · rw [hread] at h
      cases h
      exact ⟨rfl,reads_of_rest hr⟩
    · rw [he] at h
      cases h
  · rintro ⟨rfl,hread⟩
    rw [readBytes_ok hb hread.rest_eq,hread.next]
    rfl

lemma readBytes_error {r r' : Reader} {len : ℕ} {f : Failure} (hb : r.InBounds)
    (h : readBytes len r = .error f r') : f.IsMalformed := by
  rcases readBytes_cases hb len with ⟨s,-,-,hread⟩ | ⟨f',hf,he⟩
  · rw [hread] at h
    cases h
  · rw [he] at h
    cases h
    exact hf

lemma mapM_range_getElem (l : List UInt8) :
    (List.range l.length).mapM (fun i => (orPanic l[i]? : ReadM UInt8)) = pure l := by
  induction l with
  | nil => rfl
  | cons b l ih =>
    rw [List.length_cons,List.range_succ_eq_map,List.mapM_cons,List.mapM_map]
    simp only [List.getElem?_cons_zero,orPanic_some,pure_bind,Function.comp_def,
      List.getElem?_cons_succ,ih]

lemma elements_of_len {s : Slice} {n : ℕ} (h : s.len = n) : elements s n = pure s.bytes := by
  subst h
  exact mapM_range_getElem s.bytes

section fixed
variable {α : Type} {n : ℕ} (ofBytes : List UInt8 → α)

/-- The shape `read_fixed32` and `read_fixed64` share. -/
def readFixed (n : ℕ) (ofBytes : List UInt8 → α) : ReadM α := do
  let bytes ← readBytes n
  return ofBytes (← elements bytes n)

lemma readFixed_eq_map {r : Reader} (hb : r.InBounds) :
    readFixed n ofBytes r = ((fun s : Slice => ofBytes s.bytes) <$> readBytes n) r := by
  rcases readBytes_cases hb n with ⟨s,hs,-,hread⟩ | ⟨f',hf,he⟩
  · rw [readFixed,bind_ok hread,elements_of_len hs,pure_bind,map_ok hread]
    rfl
  · rw [readFixed,bind_error he,map_error he]

theorem readFixed_ok_iff (hn : n ≤ ISIZE_MAX) {r r' : Reader} {a : α} (hb : r.InBounds) :
    readFixed n ofBytes r = .ok a r' ↔
      ∃ bs : List UInt8, bs.length = n ∧ ofBytes bs = a ∧ r.Reads bs r' := by
  rw [readFixed_eq_map ofBytes hb,map_eq_ok_iff]
  constructor
  · rintro ⟨s,hread,rfl⟩
    obtain ⟨hs,hw⟩ := (readBytes_ok_iff hb).mp hread
    exact ⟨s.bytes,hs,rfl,hw⟩
  · rintro ⟨bs,rfl,rfl,hread⟩
    exact ⟨⟨bs,hn⟩,(readBytes_ok_iff hb).mpr ⟨rfl,hread⟩,rfl⟩

lemma readFixed_error {r r' : Reader} {f : Failure} (hb : r.InBounds)
    (h : readFixed n ofBytes r = .error f r') : f.IsMalformed := by
  rw [readFixed_eq_map ofBytes hb,map_eq_error_iff] at h
  exact readBytes_error hb h

end fixed

lemma readFixed32_eq : readFixed32 = readFixed 4 u32FromLeBytes := rfl
lemma readFixed64_eq : readFixed64 = readFixed 8 u64FromLeBytes := rfl

lemma skip_eq (len : ℕ) : skip len = (fun _ => ()) <$> readBytes len := rfl

end Reader
end SignalisCodec
