import SignalisCodec.Grammar.Reading

/-! The loop of `read_varint`: what its three locals hold, and its three exits. -/
namespace SignalisCodec
open Fallible Leb128

namespace Reader

/-- The locals of the loop once the bytes `pre` have been taken in. -/
structure Accumulated (pre : List UInt8) (result : UInt64) (shift count : ℕ) : Prop where
  result_eq : result.toNat = value pre
  shift_eq : shift = 7 * pre.length
  count_eq : count = pre.length

variable {pre : List UInt8} {result : UInt64} {shift count : ℕ}

lemma accumulated_nil : Accumulated [] 0 0 0 := ⟨rfl,rfl,rfl⟩

lemma Accumulated.weight (h : Accumulated pre result shift count) :
    128 ^ pre.length = 2 ^ shift := by
  rw [h.shift_eq,pow_mul]
  norm_num

/-- The group of one more byte is shifted by less than the width and stays below `2 ^ 64`, unless
it is of a tenth byte with more than the last bit. -/
lemma Accumulated.room (h : Accumulated pre result shift count) {b : UInt8}
    (hlen : pre.length ≤ 9) (hfit : pre.length = 9 → b.toNat ≤ 1) :
    shift < 64 ∧ 2 ^ shift * (b &&& 0x7f).toUInt64.toNat < 2 ^ 64 := by
  have hpay : (b &&& 0x7f).toUInt64.toNat = b.toNat % 128 := by
    rw [UInt8.toNat_toUInt64,payload_toNat]
  refine ⟨by have := h.shift_eq; omega,?_⟩
  rw [hpay]
  by_cases h9 : pre.length = 9
  · have hb := hfit h9
    rw [h.shift_eq,h9]
    exact Nat.lt_of_le_of_lt (Nat.mul_le_mul_left _ (show b.toNat % 128 ≤ 1 by omega))
      (by norm_num)
  · have hle : 2 ^ shift ≤ 2 ^ 56 := Nat.pow_le_pow_right (by decide) (by have := h.shift_eq; omega)
    have hb : b.toNat % 128 < 128 := Nat.mod_lt _ (by decide)
    calc 2 ^ shift * (b.toNat % 128) ≤ 2 ^ 56 * 127 := Nat.mul_le_mul hle (by omega)
      _ < 2 ^ 64 := by norm_num

/-- Taking in one more byte, unless it is a tenth byte with more than the last bit. -/
lemma Accumulated.concat (h : Accumulated pre result shift count) {b : UInt8}
    (hlen : pre.length ≤ 9) (hfit : pre.length = 9 → b.toNat ≤ 1) :
    ∃ group, shiftLeft (b &&& 0x7f).toUInt64 shift = some group ∧
      Accumulated (pre ++ [b]) (result ||| group) (shift + 7) (count + 1) := by
  obtain ⟨hshift,hgroup⟩ := h.room hlen hfit
  refine ⟨_,if_pos hshift,?_,?_,?_⟩
  · rw [or_shiftLeft_toNat hshift (by rw [h.result_eq,← h.weight]; exact value_lt pre) hgroup,
      UInt8.toNat_toUInt64,payload_toNat,h.result_eq,value_append,h.weight]
    simp
  · rw [h.shift_eq,List.length_append,List.length_singleton]
    omega
  · rw [h.count_eq,List.length_append,List.length_singleton]

lemma byte_gt_one_iff (b : UInt8) : b > 0x01 ↔ 1 < b.toNat := UInt8.lt_iff_toNat_lt

/-- An iteration that returns. -/
lemma readVarintLoop_last (h : Accumulated pre result shift count) {r : Reader} {b : UInt8}
    {t : List UInt8} (hr : r.rest = b :: t) (hlen : pre.length ≤ 9)
    (hfit : pre.length = 9 → b.toNat ≤ 1) (hb : b.toNat < 128) :
    readVarintLoop result shift count r =
      .ok (UInt64.ofNat (value (pre ++ [b]))) (r.advance 1) := by
  obtain ⟨group,hgroup,hacc⟩ := h.concat hlen hfit
  have hover : ¬ (count + 1 = MAX_VARINT_BYTES ∧ b > 0x01) := by
    rintro ⟨hcount,hgt⟩
    rw [byte_gt_one_iff] at hgt
    have := hfit (by rw [← h.count_eq]; simp only [MAX_VARINT_BYTES] at hcount; omega)
    omega
  have hres : result ||| group = UInt64.ofNat (value (pre ++ [b])) := by
    rw [← hacc.result_eq,UInt64.ofNat_toNat]
  rw [readVarintLoop,bind_ok (readByte_cons hr)]
  simp only [if_neg hover,hgroup,orPanic_some,pure_bind,(and_continue_eq_zero_iff b).mpr hb,
    if_true,hres]
  rfl

/-- An iteration that goes on. -/
lemma readVarintLoop_continue (h : Accumulated pre result shift count) {r : Reader} {b : UInt8}
    {t : List UInt8} (hr : r.rest = b :: t) (hlen : pre.length < 9) (hb : 128 ≤ b.toNat) :
    ∃ result', Accumulated (pre ++ [b]) result' (shift + 7) (count + 1) ∧
      readVarintLoop result shift count r =
        readVarintLoop result' (shift + 7) (count + 1) (r.advance 1) := by
  obtain ⟨group,hgroup,hacc⟩ := h.concat (b := b) (by omega) (by omega)
  have hcount : count + 1 < MAX_VARINT_BYTES := by
    rw [h.count_eq]
    simp only [MAX_VARINT_BYTES]
    omega
  refine ⟨_,hacc,?_⟩
  rw [readVarintLoop,bind_ok (readByte_cons hr)]
  simp only [hcount.ne,false_and,if_false,hgroup,orPanic_some,pure_bind,
    and_continue_eq_zero_iff,Nat.not_lt.mpr hb,ge_iff_le,Nat.not_le.mpr hcount]

/-- The tenth byte does not fit. -/
lemma readVarintLoop_overflow (h : Accumulated pre result shift count) {r : Reader} {b : UInt8}
    {t : List UInt8} (hr : r.rest = b :: t) (hlen : pre.length = 9) (hb : 1 < b.toNat) :
    readVarintLoop result shift count r =
      .error (.err (.varintOverflow (r.pos + 1))) (r.advance 1) := by
  have hover : count + 1 = MAX_VARINT_BYTES ∧ b > 0x01 :=
    ⟨by rw [h.count_eq,hlen]; rfl,(byte_gt_one_iff b).mpr hb⟩
  rw [readVarintLoop,bind_ok (readByte_cons hr)]
  simp only [if_pos hover]
  rfl

/-- The buffer ends inside the varint. -/
lemma readVarintLoop_eof {r : Reader} (hr : r.rest = []) :
    readVarintLoop result shift count r = .error (.err (.unexpectedEof 1 r.pos)) r := by
  rw [readVarintLoop,bind_error (readByte_nil hr)]

/-- A run of continued bytes moves the loop on over all of them. -/
lemma readVarintLoop_run (h : Accumulated pre result shift count) {r : Reader}
    {u t : List UInt8} (hr : r.rest = u ++ t) (hu : ∀ c ∈ u, 128 ≤ c.toNat)
    (hlen : pre.length + u.length ≤ 9) :
    ∃ result' shift' count', Accumulated (pre ++ u) result' shift' count' ∧
      readVarintLoop result shift count r =
        readVarintLoop result' shift' count' (r.advance u.length) := by
  induction u generalizing pre result shift count r with
  | nil => exact ⟨result,shift,count,by simpa using h,by simp⟩
  | cons b u ih =>
    simp only [List.length_cons] at hlen
    obtain ⟨result₁,hacc,hstep⟩ :=
      readVarintLoop_continue h (t := u ++ t) (by simpa using hr) (by omega) (hu b (by simp))
    have hr₁ : (r.advance 1).rest = u ++ t := rest_advance (w := [b]) (by simpa using hr)
    obtain ⟨result₂,shift₂,count₂,hacc₂,hrun⟩ :=
      ih hacc hr₁ (fun c hc => hu c (by simp [hc])) (by simp; omega)
    refine ⟨result₂,shift₂,count₂,by simpa using hacc₂,?_⟩
    rw [hstep,hrun,advance_advance,List.length_cons,Nat.add_comm 1]

theorem readVarint_ok {r : Reader} (w : Varint) {t : List UInt8} (hr : r.rest = w.bytes ++ t) :
    readVarint r = .ok w.value (r.advance w.bytes.length) := by
  obtain ⟨w,hw⟩ := w
  obtain ⟨u,b,rfl,hu,hb,hlen,hfit⟩ := hw.eq_concat
  dsimp only at hr ⊢
  rw [List.append_assoc] at hr
  obtain ⟨result,shift,count,hacc,hrun⟩ :=
    readVarintLoop_run accumulated_nil hr hu (by simp; omega)
  rw [List.nil_append] at hacc
  have hlast := readVarintLoop_last hacc (r := r.advance u.length) (by simpa using rest_advance hr)
    hlen hfit hb
  rw [readVarint,hrun,hlast,advance_advance,List.length_append,List.length_singleton]
  rfl

theorem readVarint_eof {r : Reader} (hlen : r.rest.length < MAX_VARINT_BYTES)
    (hcont : ∀ b ∈ r.rest, 128 ≤ b.toNat) :
    readVarint r = .error (.err (.unexpectedEof 1 (r.pos + r.rest.length)))
      (r.advance r.rest.length) := by
  have hr : r.rest = r.rest ++ [] := (List.append_nil _).symm
  obtain ⟨result,shift,count,-,hrun⟩ := readVarintLoop_run accumulated_nil hr hcont
    (by simp only [MAX_VARINT_BYTES] at hlen; simp; omega)
  rw [readVarint,hrun,readVarintLoop_eof (rest_advance hr)]
  rfl

theorem readVarint_overflow {r : Reader} {u t : List UInt8} {b : UInt8}
    (hr : r.rest = u ++ b :: t) (hlen : u.length = 9) (hcont : ∀ c ∈ u, 128 ≤ c.toNat)
    (hb : 1 < b.toNat) :
    readVarint r = .error (.err (.varintOverflow (r.pos + 10))) (r.advance 10) := by
  obtain ⟨result,shift,count,hacc,hrun⟩ :=
    readVarintLoop_run accumulated_nil hr hcont (by simp; omega)
  rw [List.nil_append] at hacc
  rw [readVarint,hrun,readVarintLoop_overflow hacc (rest_advance hr) hlen hb,hlen,
    advance_advance,advance_pos]

/-- The three exits of `read_varint`, each with the bytes that lead to it. -/
theorem readVarint_cases (r : Reader) :
    (∃ w : Varint, (∃ t, r.rest = w.bytes ++ t) ∧
      readVarint r = .ok w.value (r.advance w.bytes.length)) ∨
    ((r.rest.length < MAX_VARINT_BYTES ∧ ∀ b ∈ r.rest, 128 ≤ b.toNat) ∧
      readVarint r = .error (.err (.unexpectedEof 1 (r.pos + r.rest.length)))
        (r.advance r.rest.length)) ∨
    ((∃ u b t, r.rest = u ++ b :: t ∧ u.length = 9 ∧ (∀ c ∈ u, 128 ≤ c.toNat) ∧ 1 < b.toNat) ∧
      readVarint r = .error (.err (.varintOverflow (r.pos + 10))) (r.advance 10)) := by
  rcases varint_cases r.rest with ⟨w,t,hr⟩ | ⟨hlen,hcont⟩ | ⟨u,b,t,hr,hlen,hcont,hb⟩
  · exact .inl ⟨w,⟨t,hr⟩,readVarint_ok w hr⟩
  · exact .inr (.inl ⟨⟨hlen,hcont⟩,readVarint_eof hlen hcont⟩)
  · exact .inr (.inr ⟨⟨u,b,t,hr,hlen,hcont,hb⟩,readVarint_overflow hr hlen hcont hb⟩)

/-- `read_varint` succeeds exactly in front of a varint, and passes over it. -/
theorem readVarint_ok_iff {r r' : Reader} {v : UInt64} :
    readVarint r = .ok v r' ↔ ∃ w : Varint, w.value = v ∧ r.Reads w.bytes r' := by
  constructor
  · intro h
    rcases readVarint_cases r with ⟨w,⟨t,hr⟩,hread⟩ | ⟨-,hread⟩ | ⟨-,hread⟩
    all_goals
      rw [hread] at h
      cases h
    exact ⟨w,rfl,reads_of_rest hr⟩
  · rintro ⟨w,rfl,hread⟩
    rw [readVarint_ok w hread.rest_eq,← hread.next]

/-- There are two ways to fail. -/
lemma readVarint_error_cases {r r' : Reader} {f : Failure} (h : readVarint r = .error f r') :
    (∃ needed position, f = .err (.unexpectedEof needed position)) ∨
      ∃ position, f = .err (.varintOverflow position) := by
  rcases readVarint_cases r with ⟨w,-,hread⟩ | ⟨-,hread⟩ | ⟨-,hread⟩
  all_goals
    rw [hread] at h
    cases h
  · exact .inl ⟨_,_,rfl⟩
  · exact .inr ⟨_,rfl⟩

lemma readVarint_error {r r' : Reader} {f : Failure} (h : readVarint r = .error f r') :
    f.IsMalformed := by
  obtain ⟨_,_,rfl⟩ | ⟨_,rfl⟩ := readVarint_error_cases h
  all_goals trivial

/-- A failed `read_varint` has passed over at most ten bytes. -/
lemma readVarint_error_reads {r r' : Reader} {f : Failure} (h : readVarint r = .error f r') :
    ∃ w, r.Reads w r' ∧ w.length ≤ MAX_VARINT_BYTES := by
  rcases readVarint_cases r with ⟨w,-,hread⟩ | ⟨⟨hlen,-⟩,hread⟩ | ⟨⟨u,b,t,hr,hlen,-,-⟩,hread⟩
  all_goals
    rw [hread] at h
    cases h
  · exact ⟨r.rest,reads_of_rest (List.append_nil _).symm,hlen.le⟩
  · have hten : (u ++ [b]).length = 10 := by rw [List.length_append,hlen,List.length_singleton]
    refine ⟨u ++ [b],?_,hten.le⟩
    rw [← hten]
    exact reads_of_rest (by simpa using hr)

end Reader
end SignalisCodec
