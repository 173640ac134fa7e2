import SignalisCodec.Grammar.ReadVarint

/-! `read_varint` to the byte: which bytes at the cursor lead to each of its exits, what its locals
hold at the head of every iteration, and which of its two overflow checks can fire. -/
namespace SignalisCodec
open Fallible Leb128

namespace Reader

/-- Byte `i` in front of the cursor. -/
def ahead (r : Reader) (i : ℕ) : Option UInt8 := r.buf.bytes[r.pos + i]?

/-- Byte `i` in front of the cursor is there and has the continuation bit. -/
def ContinuesAt (r : Reader) (i : ℕ) : Prop := ∃ b, r.ahead i = some b ∧ b &&& 0x80 ≠ 0

/-- The varint in front of the cursor ends `k` bytes on. -/
structure EndsVarint (r : Reader) (k : ℕ) : Prop where
  one_le : 1 ≤ k
  le_max : k ≤ MAX_VARINT_BYTES
  continued : ∀ i, i + 1 < k → r.ContinuesAt i
  last : ∃ b, r.ahead (k - 1) = some b ∧ b &&& 0x80 = 0 ∧ (k = MAX_VARINT_BYTES → b ≤ 0x01)

/-- The groups of the next `k` bytes, each at its own weight. -/
def groupSum (r : Reader) (k : ℕ) : ℕ :=
  ∑ i ∈ Finset.range k, ((r.ahead i).getD 0).toNat % 128 * 128 ^ i

section bytes
variable {r : Reader}

lemma ahead_eq (i : ℕ) : r.ahead i = r.rest[i]? := by
  rw [ahead,rest,List.getElem?_drop]

lemma ahead_of_rest {u t : List UInt8} {b : UInt8} (hr : r.rest = u ++ b :: t) :
    r.ahead u.length = some b := by
  rw [ahead_eq,hr]
  simp

lemma continuesAt_iff (i : ℕ) : r.ContinuesAt i ↔ ∃ b, r.rest[i]? = some b ∧ 128 ≤ b.toNat := by
  simp only [ContinuesAt,ahead_eq,ne_eq,and_continue_eq_zero_iff,Nat.not_lt]

/-- The continuation bits of the bytes in front of the cursor, read from the bytes themselves. -/
lemma continued_iff {u t : List UInt8} (hr : r.rest = u ++ t) :
    (∀ i < u.length, r.ContinuesAt i) ↔ ∀ c ∈ u, 128 ≤ c.toNat := by
  rw [List.forall_mem_iff_forall_getElem]
  apply forall₂_congr
  intro i hi
  rw [continuesAt_iff,hr,List.getElem?_append_left hi,List.getElem?_eq_getElem hi]
  simp

lemma groupSum_of_rest {w t : List UInt8} (hr : r.rest = w ++ t) :
    r.groupSum w.length = value w := by
  rw [value_eq_sum,groupSum]
  apply Finset.sum_congr rfl
  intro i hi
  rw [ahead_eq,hr,List.getElem?_append_left (Finset.mem_range.mp hi)]

/-- The bytes up to and including byte `m`, where there is one. -/
lemma rest_split {m : ℕ} {b : UInt8} (h : r.ahead m = some b) :
    ∃ u t, r.rest = u ++ b :: t ∧ u.length = m := by
  rw [ahead_eq] at h
  obtain ⟨hlt,hget⟩ := List.getElem?_eq_some_iff.mp h
  refine ⟨r.rest.take m,r.rest.drop (m + 1),?_,by rw [List.length_take]; omega⟩
  rw [← hget,List.getElem_cons_drop hlt,List.take_append_drop]

lemma endsVarint_iff (k : ℕ) :
    r.EndsVarint k ↔ ∃ w : Varint, w.bytes.length = k ∧ ∃ t, r.rest = w.bytes ++ t := by
  constructor
  · rintro ⟨hone,hmax,hcont,b,hget,hb,hfit⟩
    obtain ⟨u,t,hr,hlen⟩ := rest_split hget
    simp only [MAX_VARINT_BYTES] at hmax hfit
    have hu : ∀ c ∈ u, 128 ≤ c.toNat := (continued_iff hr).mp fun i hi => hcont i (by omega)
    have hone : u.length = 9 → b.toNat ≤ 1 := fun h9 => UInt8.le_iff_toNat_le.mp (hfit (by omega))
    refine ⟨⟨u ++ [b],isVarint_concat hu ((and_continue_eq_zero_iff b).mp hb) (by omega) hone⟩,?_,
      t,by simpa using hr⟩
    rw [List.length_append,List.length_singleton]
    omega
  · rintro ⟨⟨w,hw⟩,rfl,t,hr⟩
    obtain ⟨u,b,rfl,hu,hb,hlen,hfit⟩ := hw.eq_concat
    have hsplit : r.rest = u ++ b :: t := by simpa using hr
    simp only [List.length_append,List.length_singleton]
    constructor
    · omega
    · simp only [MAX_VARINT_BYTES]
      omega
    · exact fun i hi => (continued_iff hsplit).mpr hu i (by omega)
    · refine ⟨b,ahead_of_rest hsplit,(and_continue_eq_zero_iff b).mpr hb,fun h10 => ?_⟩
      simp only [MAX_VARINT_BYTES] at h10
      exact UInt8.le_iff_toNat_le.mpr (hfit (by omega))

lemma readVarint_ok_iff_endsVarint (k : ℕ) (v : UInt64) :
    readVarint r = .ok v (r.advance k) ↔ r.EndsVarint k ∧ v.toNat = r.groupSum k := by
  rw [endsVarint_iff]
  constructor
  · intro h
    obtain ⟨w,rfl,hread⟩ := readVarint_ok_iff.mp h
    obtain rfl : k = w.bytes.length := Nat.add_left_cancel hread.pos_eq
    refine ⟨⟨w,rfl,_,hread.rest_eq⟩,?_⟩
    rw [groupSum_of_rest hread.rest_eq,Varint.value_toNat]
  · rintro ⟨⟨w,rfl,t,hr⟩,hv⟩
    rw [groupSum_of_rest hr,← Varint.value_toNat,UInt64.toNat_inj] at hv
    rw [hv,readVarint_ok w hr]

lemma readVarint_ok_advance {r' : Reader} {v : UInt64} (h : readVarint r = .ok v r') :
    ∃ k, r' = r.advance k := by
  obtain ⟨w,-,hread⟩ := readVarint_ok_iff.mp h
  exact ⟨_,hread.next⟩

lemma EndsVarint.groupSum_lt {k : ℕ} (h : r.EndsVarint k) : r.groupSum k < 2 ^ 64 := by
  obtain ⟨w,rfl,t,hr⟩ := (endsVarint_iff k).mp h
  rw [groupSum_of_rest hr]
  exact w.isVarint.value_lt

/-- The buffer ends inside the varint. -/
lemma readVarint_eof_iff :
    (∃ needed position r', readVarint r = .error (.err (.unexpectedEof needed position)) r') ↔
      r.buf.len - r.pos < MAX_VARINT_BYTES ∧ ∀ i < r.buf.len - r.pos, r.ContinuesAt i := by
  have hall : (∀ i < r.rest.length, r.ContinuesAt i) ↔ ∀ c ∈ r.rest, 128 ≤ c.toNat :=
    continued_iff (List.append_nil _).symm
  rw [← rest_length,hall]
  constructor
  · rintro ⟨needed,position,r',h⟩
    rcases readVarint_cases r with ⟨w,-,hread⟩ | ⟨hcut,hread⟩ | ⟨-,hread⟩
    · rw [hread] at h
      cases h
    · exact hcut
    · rw [hread] at h
      cases h
  · rintro ⟨hlen,hcont⟩
    exact ⟨_,_,_,readVarint_eof hlen hcont⟩

/-- The tenth byte does not fit. -/
lemma readVarint_overflow_iff :
    (∃ position r', readVarint r = .error (.err (.varintOverflow position)) r') ↔
      (∀ i < 9, r.ContinuesAt i) ∧ ∃ b, r.ahead 9 = some b ∧ b > 0x01 := by
  constructor
  · rintro ⟨position,r',h⟩
    rcases readVarint_cases r with ⟨w,-,hread⟩ | ⟨-,hread⟩ | ⟨⟨u,b,t,hr,hlen,hcont,hb⟩,-⟩
    · rw [hread] at h
      cases h
    · rw [hread] at h
      cases h
    · rw [← hlen]
      exact ⟨(continued_iff hr).mpr hcont,b,ahead_of_rest hr,(byte_gt_one_iff b).mpr hb⟩
  · rintro ⟨hcont,b,hget,hb⟩
    obtain ⟨u,t,hr,hlen⟩ := rest_split hget
    rw [← hlen] at hcont
    exact ⟨_,_,readVarint_overflow hr hlen ((continued_iff hr).mp hcont)
      ((byte_gt_one_iff b).mp hb)⟩

end bytes

section loop

/-- What the locals and the cursor are at the head of an iteration when `read_varint` is called at
`start`: an iteration is followed by another one when neither check fires and the byte continues. -/
inductive LoopHead (start : Reader) : UInt64 → ℕ → ℕ → Reader → Prop
  | first : LoopHead start 0 0 0 start
  | next {result group : UInt64} {shift count : ℕ} {r r' : Reader} {byte : UInt8}
      (h : LoopHead start result shift count r)
      (hread : readByte r = .ok byte r')
      (hfits : ¬ (count + 1 = MAX_VARINT_BYTES ∧ byte > 0x01))
      (hgroup : shiftLeft (byte &&& 0x7f).toUInt64 shift = some group)
      (hcont : byte &&& 0x80 ≠ 0)
      (hcount : ¬ count + 1 ≥ MAX_VARINT_BYTES) :
      LoopHead start (result ||| group) (shift + 7) (count + 1) r'

variable {start r r' : Reader} {result : UInt64} {shift count : ℕ} {byte : UInt8}

/-- The rest of the call from a loop head is the loop from its locals. -/
theorem LoopHead.run (h : LoopHead start result shift count r) :
    readVarint start = readVarintLoop result shift count r := by
  induction h with
  | first => rfl
  | next h hread hfits hgroup hcont hcount ih =>
    rw [ih,readVarintLoop,bind_ok hread]
    simp only [if_neg hfits,hgroup,orPanic_some,pure_bind,if_neg hcont,if_neg hcount]

/-- Whether the first check passes, in terms of the bytes taken in before. -/
lemma Accumulated.passes_iff {pre : List UInt8} (h : Accumulated pre result shift count) :
    ¬ (count + 1 = MAX_VARINT_BYTES ∧ byte > 0x01) ↔ (pre.length = 9 → byte.toNat ≤ 1) := by
  rw [h.count_eq,byte_gt_one_iff]
  simp only [MAX_VARINT_BYTES]
  omega

/-- At a loop head the cursor has passed at most nine bytes, which the locals hold. -/
theorem LoopHead.accumulated (h : LoopHead start result shift count r) :
    ∃ pre : List UInt8, start.Reads pre r ∧ Accumulated pre result shift count ∧
      pre.length ≤ 9 := by
  induction h with
  | first => exact ⟨[],.refl start,accumulated_nil,by simp⟩
  | @next result group shift count r r' byte h hread hfits hgroup hcont hcount ih =>
    obtain ⟨pre,hpre,hacc,hlen⟩ := ih
    obtain ⟨group',hgroup',hacc'⟩ := hacc.concat hlen (hacc.passes_iff.mp hfits)
    obtain rfl : group = group' := Option.some.inj (hgroup.symm.trans hgroup')
    refine ⟨_,hpre.trans (readByte_ok hread),hacc',?_⟩
    rw [← hacc'.count_eq]
    simp only [MAX_VARINT_BYTES] at hcount
    omega

/-- Past the first check the group is shifted by less than the width, and neither the shift nor the
OR loses a bit of it. -/
lemma LoopHead.group_exact (h : LoopHead start result shift count r)
    (hfits : ¬ (count + 1 = MAX_VARINT_BYTES ∧ byte > 0x01)) :
    shift < 64 ∧ ∃ group, shiftLeft (byte &&& 0x7f).toUInt64 shift = some group ∧
      group.toNat = byte.toNat % 128 * 2 ^ shift ∧
      (result ||| group).toNat = result.toNat + group.toNat := by
  obtain ⟨pre,-,hacc,hlen⟩ := h.accumulated
  have hfit := hacc.passes_iff.mp hfits
  obtain ⟨hshift,hroom⟩ := hacc.room hlen hfit
  obtain ⟨group,hgroup,hacc'⟩ := hacc.concat hlen hfit
  have hexact : group.toNat = byte.toNat % 128 * 2 ^ shift := by
    rw [shiftLeft,if_pos hshift] at hgroup
    rw [← Option.some.inj hgroup,shiftLeft_toNat hshift hroom,UInt8.toNat_toUInt64,payload_toNat,
      Nat.mul_comm]
  refine ⟨hshift,group,hgroup,hexact,?_⟩
  rw [hacc'.result_eq,value_append,hacc.result_eq,hexact,hacc.weight,Nat.mul_comm]
  simp

/-- Past the first check a byte that continues is not the tenth, so the second check never fires. -/
lemma LoopHead.count_lt (h : LoopHead start result shift count r)
    (hfits : ¬ (count + 1 = MAX_VARINT_BYTES ∧ byte > 0x01)) (hcont : byte &&& 0x80 ≠ 0) :
    count + 1 < MAX_VARINT_BYTES := by
  obtain ⟨pre,-,hacc,hlen⟩ := h.accumulated
  have hfit := hacc.passes_iff.mp hfits
  rw [ne_eq,and_continue_eq_zero_iff] at hcont
  rw [hacc.count_eq]
  simp only [MAX_VARINT_BYTES]
  omega

end loop

/-- `read_varint` at any cursor: the bytes that make it succeed and the value it returns then, the
bytes that make it fail in each of its two ways, and, in every iteration of every call, a shift that
stays below the width and keeps every bit, and a second overflow check that does not fire. -/
theorem readVarint_exact (r : Reader) :
    (∀ k v, readVarint r = .ok v (r.advance k) ↔ r.EndsVarint k ∧ v.toNat = r.groupSum k) ∧
    (∀ v r', readVarint r = .ok v r' → ∃ k, r' = r.advance k) ∧
    (∀ k, r.EndsVarint k → r.groupSum k < 2 ^ 64) ∧
    ((∃ needed position r', readVarint r = .error (.err (.unexpectedEof needed position)) r') ↔
      r.buf.len - r.pos < MAX_VARINT_BYTES ∧ ∀ i < r.buf.len - r.pos, r.ContinuesAt i) ∧
    ((∃ position r', readVarint r = .error (.err (.varintOverflow position)) r') ↔
      (∀ i < 9, r.ContinuesAt i) ∧ ∃ b, r.ahead 9 = some b ∧ b > 0x01) ∧
    (∀ f r', readVarint r = .error f r' →
      (∃ needed position, f = .err (.unexpectedEof needed position)) ∨
        ∃ position, f = .err (.varintOverflow position)) ∧
    ∀ result shift count r', LoopHead r result shift count r' →
      readVarint r = readVarintLoop result shift count r' ∧
      ∀ byte r'', readByte r' = .ok byte r'' → ¬ (count + 1 = MAX_VARINT_BYTES ∧ byte > 0x01) →
        (shift < 64 ∧ ∃ group, shiftLeft (byte &&& 0x7f).toUInt64 shift = some group ∧
          group.toNat = byte.toNat % 128 * 2 ^ shift ∧
          (result ||| group).toNat = result.toNat + group.toNat) ∧
        (byte &&& 0x80 ≠ 0 → ¬ count + 1 ≥ MAX_VARINT_BYTES) := by
  refine ⟨readVarint_ok_iff_endsVarint,fun v r' => readVarint_ok_advance,
    fun k => EndsVarint.groupSum_lt,readVarint_eof_iff,readVarint_overflow_iff,
    fun f r' => readVarint_error_cases,fun result shift count r' h => ⟨h.run,?_⟩⟩
  intro byte r'' _ hfits
  exact ⟨h.group_exact hfits,fun hcont => Nat.not_le.mpr (h.count_lt hfits hcont)⟩

end Reader
end SignalisCodec
