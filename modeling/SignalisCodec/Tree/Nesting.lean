import SignalisCodec.Tree.Reencode
import SignalisCodec.Tree.TrialDepth

/-! Messages inside messages, as the encoder nests them: each level takes one level of the limit,
and no shorter buffer exceeds it. -/
namespace SignalisCodec
open Reader Drain

/-- `payload` as field 1 of a message. -/
def wrap (payload : List UInt8) : List UInt8 := (Encoder.new.writeBytesField 1 payload).finish

/-- `payload` inside `k` messages. -/
def nest : ℕ → List UInt8 → List UInt8
  | 0,payload => payload
  | k + 1,payload => wrap (nest k payload)

/-- The tree of a nest, given that of what it holds. -/
def nestNodes : ℕ → Nodes → Nodes
  | 0,t => t
  | k + 1,t => [(1,.message (nestNodes k t))]

section wrap
variable {limit : UInt32} {budget : ℕ} {b : Slice}

/-- The record that `wrap` writes. -/
def wrapRecord (b : Slice) : Record :=
  Record.canonical ⟨1,.bytes b⟩ (show (1 : UInt32) ≠ 0 by decide)

lemma wrap_eq (b : Slice) : wrap b.bytes = (wrapRecord b).wire :=
  Encoder.writeField_buf Encoder.new ⟨1,.bytes b⟩ (show (1 : UInt32) ≠ 0 by decide)

lemma wrap_length (b : Slice) :
    (wrap b.bytes).length = 1 + (Leb128.shortest b.len).length + b.len := by
  have hkey : (Leb128.shortest (FieldKey.toVarint ⟨1,.lengthDelimited⟩).toNat).length = 1 := by
    decide +kernel
  have hlen : (UInt64.ofNat b.len).toNat = b.len := slice_len_toNat b
  rw [wrap_eq,Record.wire,Payload.wire,List.length_append,List.length_append,← Nat.add_assoc]
  change (Leb128.shortest _).length + (Leb128.shortest _).length + b.len = _
  rw [hlen]
  exact congrArg (· + _ + _) hkey

lemma opens_wrap {hfit : (wrap b.bytes).length ≤ ISIZE_MAX} : Opens ⟨wrap b.bytes,hfit⟩ b := by
  refine ⟨[],wrapRecord b,[],?_,rfl⟩
  rw [List.append_nil]
  exact wrap_eq b

/-- Decoding a wrapped payload is the trial parse of the payload. -/
lemma parseTree_wrap {hfit : (wrap b.bytes).length ≤ ISIZE_MAX} :
    parseTree limit (budget + 1) ⟨wrap b.bytes,hfit⟩ =
      (fun node => [(1,node)]) <$> trial (parseTree limit budget) b := by
  have hrest : (new ⟨wrap b.bytes,hfit⟩).rest = (wrapRecord b).wire ++ [] := by
    rw [rest_new,List.append_nil]
    exact wrap_eq b
  cases htrial : trial (parseTree limit budget) b with
  | ok node =>
    refine parseTree_succ_ok_iff.mpr ⟨[wrapRecord b],?_,.cons ⟨rfl,htrial⟩ .nil⟩
    exact (List.append_nil _).trans (wrap_eq b).symm
  | error f =>
    have hrun : loop.done (new ⟨wrap b.bytes,hfit⟩) = false :=
      running_of_rest (by rw [hrest,List.append_nil]; exact (wrapRecord b).wire_ne_nil)
    exact drain_fail hrun
      (decodeNode_fails (inBounds_new _) (reads_of_rest hrest) rfl htrial) []

end wrap

section nest
variable {limit : UInt32} {budget k : ℕ} {p : Slice}

lemma wrap_ne_nil (b : Slice) : wrap b.bytes ≠ [] := by
  rw [wrap_eq]
  exact (wrapRecord b).wire_ne_nil

lemma length_le_wrap (payload : List UInt8) : payload.length ≤ (wrap payload).length := by
  obtain ⟨head,hbuf⟩ : ∃ head, wrap payload = head ++ payload := ⟨_,rfl⟩
  rw [hbuf,List.length_append]
  exact Nat.le_add_left _ _

lemma nest_isEmpty (hne : p.isEmpty = false) (hfit : (nest k p.bytes).length ≤ ISIZE_MAX) :
    (⟨nest k p.bytes,hfit⟩ : Slice).isEmpty = false := by
  cases k with
  | zero => exact hne
  | succ k =>
    have hwrap : wrap (nest k p.bytes) ≠ [] := wrap_ne_nil ⟨_,(length_le_wrap _).trans hfit⟩
    exact beq_eq_false_iff_ne.mpr fun h => hwrap (List.length_eq_zero_iff.mp h)

/-- Every level of a nest takes one from the budget. By induction on the levels; what the nest holds
parses, so no trial parse gives up on it for another reason than depth. -/
lemma parseTree_nest (hne : p.isEmpty = false) (hparses : ∃ recs, wires recs = p.bytes)
    (hfit : (nest k p.bytes).length ≤ ISIZE_MAX) :
    parseTree limit budget ⟨nest k p.bytes,hfit⟩ =
      nestNodes k <$> parseTree limit (budget - k) p := by
  induction k generalizing budget with
  | zero =>
    cases hp : parseTree limit budget p <;> exact hp
  | succ k ih =>
    have hfit' : (nest k p.bytes).length ≤ ISIZE_MAX := (length_le_wrap _).trans hfit
    cases budget with
    | zero =>
      rw [Nat.zero_sub]
      rfl
    | succ budget =>
      have hinner := @ih budget hfit'
      have houter : parseTree limit (budget + 1) ⟨nest (k + 1) p.bytes,hfit⟩ =
          (fun node => [(1,node)]) <$> trial (parseTree limit budget) ⟨nest k p.bytes,hfit'⟩ :=
        parseTree_wrap (b := ⟨nest k p.bytes,hfit'⟩)
      rw [houter,Nat.add_sub_add_right]
      cases hp : parseTree limit (budget - k) p with
      | ok t =>
        rw [hp] at hinner
        rw [trial_eq_message_iff.mpr ⟨nest_isEmpty hne hfit',hinner⟩]
        rfl
      | error f =>
        rw [hp] at hinner
        rw [trial_depthLimit hinner (parses_not_malformed hparses hp)]
        rfl

end nest

section shortest
variable {buf b c : Slice} {k : ℕ}

/-- Around a payload stands a key, a length prefix no shorter than the shortest, and the payload. -/
lemma Opens.wrap_length_le (h : Opens buf b) : (wrap b.bytes).length ≤ buf.len := by
  obtain ⟨recs,rec,tail,hbytes,hvalue⟩ := h
  have hle : rec.wire.length ≤ buf.len := by
    unfold Slice.len
    rw [hbytes]
    simp only [List.length_append]
    omega
  refine le_trans ?_ hle
  have hkey := rec.keyWord.length_pos
  rw [wrap_length,Record.wire,List.length_append]
  cases hp : rec.payload with
  | bytes len b' hb =>
    rw [hp] at hvalue
    obtain rfl : b' = b := FieldValue.bytes.inj hvalue
    have hlen := Leb128.shortest_length_le_of_value len.isVarint.word
      (hb.trans len.value_toNat).le
    simp only [Payload.wire,Payload.head,Payload.body,List.length_append]
    change _ ≤ _ + (_ + b'.len)
    omega
  | _ =>
    rw [hp] at hvalue
    cases hvalue

lemma wrap_length_mono (hle : b.len ≤ c.len) : (wrap b.bytes).length ≤ (wrap c.bytes).length := by
  have hword := Leb128.shortest_length_mono hle
  rw [wrap_length,wrap_length]
  omega

/-- What lies `k` payloads deep lies in a buffer no shorter than the nest of as many levels. -/
theorem Trial.nest_length_le (h : Trial buf k c) : (nest k []).length ≤ buf.len := by
  induction h with
  | here buf => exact Nat.zero_le _
  | @inside buf b c k hopens _ ih =>
    have hfit := ih.trans b.fits
    exact (wrap_length_mono (b := ⟨nest k [],hfit⟩) ih).trans hopens.wrap_length_le

lemma nest_length_mono {k m : ℕ} (h : k ≤ m) : (nest k []).length ≤ (nest m []).length := by
  induction h with
  | refl => exact le_rfl
  | step _ ih => exact ih.trans (length_le_wrap _)

/-- A level takes eleven bytes at most. -/
lemma nest_length_le (hk : k ≤ 4294967296) : (nest k []).length ≤ 11 * k := by
  induction k with
  | zero => exact le_rfl
  | succ k ih =>
    have hle := ih (by omega)
    have hfit : (nest k []).length ≤ ISIZE_MAX := by
      simp only [ISIZE_MAX]
      omega
    have hword : (Leb128.shortest (nest k []).length).length ≤ 10 := by
      apply Leb128.shortest_length_le
      norm_num
      omega
    have hlen := wrap_length ⟨nest k [],hfit⟩
    change (wrap (nest k [])).length ≤ _
    change (wrap (nest k [])).length = 1 + (Leb128.shortest (nest k []).length).length +
      (nest k []).length at hlen
    omega

/-- The payloads of a nest lie one in another. -/
lemma trial_nest (hfit : (nest k []).length ≤ ISIZE_MAX) :
    Trial ⟨nest k [],hfit⟩ k .empty := by
  induction k with
  | zero => exact .here _
  | succ k ih =>
    have hfit' : (nest k []).length ≤ ISIZE_MAX := (length_le_wrap _).trans hfit
    exact .inside (opens_wrap (b := ⟨nest k [],hfit'⟩)) (ih hfit')

end shortest

/-- Below `u32::MAX`. Around a message that is not empty, `k` levels of nesting start the depth
counter at `k`. No buffer is rejected for its depth that is shorter than `d + 1` levels of nesting
around nothing, and that one is. -/
theorem decodeTree_nested (d : UInt32) (hd : d < 4294967295) :
    (∀ (p : Slice) fields k hfit, p.isEmpty = false → decodeFields p = .ok fields →
      decodeTree ⟨nest k p.bytes,hfit⟩ d =
        if k ≤ d.toNat then nestNodes k <$> decodeTreeInner p d (UInt32.ofNat k)
        else .error (.err (.depthLimitExceeded d 0))) ∧
    (∀ buf limit position,
      decodeTree buf d = .error (.err (.depthLimitExceeded limit position)) →
      (nest (d.toNat + 1) []).length ≤ buf.len) ∧
    ∃ buf : Slice, buf.bytes = nest (d.toNat + 1) [] ∧
      decodeTree buf d = .error (.err (.depthLimitExceeded d 0)) := by
  have hd' : d.toNat < 4294967295 := hd
  refine ⟨?_,?_,?_⟩
  · intro p fields k hfit hne hfields
    obtain ⟨recs,hwires,-⟩ := (decodeFields_ok_iff p fields).mp hfields
    rw [decodeTree_eq_parseTree hd,parseTree_nest hne ⟨recs,hwires⟩ hfit]
    by_cases hk : k ≤ d.toNat
    · have hcount : (UInt32.ofNat k).toNat = k := by
        rw [UInt32.toNat_ofNat']
        exact Nat.mod_eq_of_lt (by omega)
      rw [if_pos hk,decodeTreeInner_eq_parseTree hd,hcount]
    · rw [if_neg hk,show d.toNat + 1 - k = 0 by omega]
      rfl
  · intro buf limit position h
    obtain ⟨k,c,htrial,hk⟩ := (decodeTree_depthLimit_iff buf hd).mp ⟨limit,position,h⟩
    exact (nest_length_mono hk).trans htrial.nest_length_le
  · have hlen := nest_length_le (k := d.toNat + 1) (by omega)
    have hfit : (nest (d.toNat + 1) []).length ≤ ISIZE_MAX := by
      simp only [ISIZE_MAX]
      omega
    obtain ⟨limit,position,h⟩ := (decodeTree_depthLimit_iff _ hd).mpr
      ⟨d.toNat + 1,_,trial_nest hfit,Nat.lt_succ_self _⟩
    refine ⟨⟨_,hfit⟩,rfl,?_⟩
    rw [h]
    rw [decodeTree_eq_parseTree hd] at h
    rcases parseTree_error h with hm | hdeep
    · exact hm.elim
    · rw [hdeep]

/-- Under the default limit of 100, a message inside three others is decoded with the depth counter
at three, and the first buffers to be rejected for their depth have 239 bytes. -/
theorem decodeTree_nested_example :
    (decodeTree ⟨nest 3 [0x08,0x01],by decide +kernel⟩ 100 =
      nestNodes 3 <$> decodeTreeInner ⟨[0x08,0x01],by decide⟩ 100 3) ∧
    (nest 101 []).length = 239 ∧ ∃ buf : Slice, buf.len = 239 ∧
      decodeTree buf 100 = .error (.err (.depthLimitExceeded 100 0)) := by
  obtain ⟨hwrap,-,buf,hbuf,hdeep⟩ := decodeTree_nested 100 (by decide)
  have hlen : (nest 101 []).length = 239 := by decide +kernel
  refine ⟨?_,hlen,buf,(congrArg List.length hbuf).trans hlen,hdeep⟩
  exact hwrap ⟨[0x08,0x01],by decide⟩ [⟨1,.varint 1⟩] 3 (by decide +kernel) rfl
    (by decide +kernel)

end SignalisCodec
