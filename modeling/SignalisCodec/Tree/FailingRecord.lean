import SignalisCodec.Grammar.ErrorPosition
import SignalisCodec.Tree.Descent
import SignalisCodec.Tree.TrialDepth

/-! Where the errors of a recursive decode point. Malformed bytes are reported at the top-level
record that fails; the depth error carries position 0 wherever it is raised. -/
namespace SignalisCodec
open Reader Fallible Drain

/-- The decoding of the top-level record at `start` is what fails, with `f`: the loop of
`decode_tree_inner` at depth 0 gets there, and its body fails there. -/
def FailsAt (buf : Slice) (maxDepth : UInt32) (start : ℕ) (f : Failure) : Prop :=
  ∃ nodes r', Steps loop (decodeNode (descent maxDepth 0)) (new buf) nodes ⟨buf,start⟩ ∧
    loop.done ⟨buf,start⟩ = false ∧ decodeNode (descent maxDepth 0) ⟨buf,start⟩ = .error f r'

section fails
variable {buf : Slice} {d : UInt32} {start : ℕ} {f : Failure}

/-- An error comes from one of the top-level records. -/
theorem decodeTree_error_iff : decodeTree buf d = .error f ↔ ∃ start, FailsAt buf d start f := by
  have hbody := decodeNode_takesRecord (descent d 0)
  rw [decodeTree_eq_readAll,readAll,drain_error_iff hbody.progress]
  constructor
  · rintro ⟨nodes,r,r',hsteps,hrun,hfail⟩
    obtain ⟨recs,hreads,-⟩ := TakesWord.words_of_steps hbody hsteps (inBounds_new buf)
    have hr : r = ⟨buf,r.pos⟩ := by
      rw [← show r.buf = buf from hreads.buf_eq]
    rw [hr] at hsteps hrun hfail
    exact ⟨r.pos,nodes,r',hsteps,hrun,hfail⟩
  · rintro ⟨start,nodes,r',hsteps,hrun,hfail⟩
    exact ⟨nodes,_,r',hsteps,hrun,hfail⟩

/-- An error points into the buffer, at the failing record or behind it, or it is the depth error,
which has position 0. -/
lemma FailsAt.position {e : DecodeError} (h : FailsAt buf d start (.err e)) :
    start ≤ e.position ∧ e.position ≤ buf.len ∨
      ∃ limit, e = .depthLimitExceeded limit 0 ∧ d < 4294967295 := by
  have herror : decodeTree buf d = .error (.err e) := decodeTree_error_iff.mpr ⟨start,h⟩
  obtain ⟨nodes,r',-,hrun,hfail⟩ := h
  have hb := inBounds_of_running hrun
  rcases decodeNode_error_cases hb hfail with hscan | ⟨rec,b,r₁,-,-,htrial⟩
  · have hlocated := locates_scanRecord hb
    rw [hscan] at hlocated
    obtain ⟨e',he,hstart,hstop,-⟩ := hlocated
    cases he
    exact .inl ⟨hstart,hstop⟩
  · -- no other error gets out of a trial parse
    have hlimit : (Failure.err e).IsDepthLimit := by
      by_contra hno
      exact (trial_error_eq htrial).2 ((Failure.isMalformed_iff _).mpr ⟨⟨e,rfl⟩,hno⟩)
    obtain ⟨limit,position,he⟩ := (Failure.isDepthLimit_iff _).mp hlimit
    cases he
    obtain ⟨-,rfl,hd⟩ := decodeTreeInner_depthLimit herror
    exact .inr ⟨limit,rfl,hd⟩

end fails

section depth
variable {buf b : Slice} {d : UInt32}

/-- `buf` starts with a length-delimited record whose payload goes `d` payloads deep. -/
def OpensDeep (buf : Slice) (d : UInt32) : Prop :=
  ∃ rec tail b k c, buf.bytes = Record.wire rec ++ tail ∧ rec.payload.value = .bytes b ∧
    Trial b k c ∧ d.toNat ≤ k

/-- The trial parse of a payload of the top level hits the limit exactly if something lies `d`
payloads deep in it. -/
lemma trial_descent_fails_iff (hd : d < 4294967295) :
    (∃ f, trial (descent d 0) b = .error f) ↔ ∃ k c, Trial b k c ∧ d.toNat ≤ k := by
  have hdescent : descent d 0 b = parseTree d d.toNat b := by
    rw [descent_of_fits (by decide),decodeTreeInner_eq_parseTree hd]
    rfl
  have hcongr : trial (descent d 0) b = trial (parseTree d d.toNat) b := by
    unfold trial
    rw [hdescent]
  rw [hcongr,← @parseTree_depthLimit_iff d]
  constructor
  · rintro ⟨f,hf⟩
    obtain ⟨hlimit,herror⟩ := trial_error (parseTree_error_err b) hf
    exact ⟨f,herror,hlimit⟩
  · rintro ⟨f,herror,hlimit⟩
    exact ⟨f,trial_depthLimit herror hlimit⟩

/-- The first record fails with the depth error exactly if it goes that deep. -/
lemma failsAt_first_iff (hd : d < 4294967295) {limit : UInt32} {position : ℕ}
    (herror : decodeTree buf d = .error (.err (.depthLimitExceeded limit position))) :
    FailsAt buf d 0 (.err (.depthLimitExceeded limit position)) ↔ OpensDeep buf d := by
  have hb := inBounds_new buf
  constructor
  · rintro ⟨nodes,r',-,-,hfail⟩
    rcases decodeNode_error_cases hb hfail with hscan | ⟨rec,b,r₁,hread,hvalue,htrial⟩
    · exact ((Failure.isMalformed_iff _).mp (scanRecord_error hb hscan)).2 trivial |>.elim
    · obtain ⟨k,c,hdeep,hle⟩ := (trial_descent_fails_iff hd).mp ⟨_,htrial⟩
      exact ⟨rec,r₁.rest,b,k,c,hread.rest_eq,hvalue,hdeep,hle⟩
  · rintro ⟨rec,tail,b,k,c,hbytes,hvalue,hdeep,hle⟩
    have hrest : (new buf).rest = rec.wire ++ tail := hbytes
    obtain ⟨f,htrial⟩ := (trial_descent_fails_iff hd).mpr ⟨k,c,hdeep,hle⟩
    have hfail := decodeNode_fails hb (reads_of_rest hrest) hvalue htrial
    have hrun : loop.done (new buf) = false := running_of_rest (by simp [hrest,rec.wire_ne_nil])
    have hfirst : FailsAt buf d 0 f := ⟨[],_,.refl _,hrun,hfail⟩
    -- the loop ends with this failure, so it is the error at hand
    have hsame := decodeTree_error_iff.mpr ⟨0,hfirst⟩
    rw [herror] at hsame
    cases hsame
    exact hfirst

end depth

/-- Every error of a recursive decode points at the failing top-level record, exactly if no depth
error is raised or the first record raises it. -/
theorem decodeTree_error_position_iff (buf : Slice) (d : UInt32) :
    (∀ e, decodeTree buf d = .error (.err e) →
      ∃ start, FailsAt buf d start (.err e) ∧ start ≤ e.position ∧ e.position ≤ buf.len) ↔
    d = 4294967295 ∨ (∀ k c, Trial buf k c → k ≤ d.toNat) ∨ OpensDeep buf d := by
  constructor
  · intro hlocated
    by_cases hmax : d = 4294967295
    · exact .inl hmax
    · have hd : d < 4294967295 := by
        have := d.toNat_lt
        have hne : d.toNat ≠ 4294967295 := fun h => hmax (UInt32.toNat.inj h)
        change d.toNat < 4294967295
        omega
      by_cases hall : ∀ k c, Trial buf k c → k ≤ d.toNat
      · exact .inr (.inl hall)
      · push Not at hall
        obtain ⟨limit,position,herror⟩ := (decodeTree_depthLimit_iff buf hd).mpr hall
        obtain ⟨start,hfails,hstart,-⟩ := hlocated _ herror
        obtain ⟨-,rfl,-⟩ := decodeTreeInner_depthLimit herror
        obtain rfl : start = 0 := Nat.le_zero.mp hstart
        exact .inr (.inr ((failsAt_first_iff hd herror).mp hfails))
  · intro h e herror
    obtain ⟨start,hfails⟩ := decodeTree_error_iff.mp herror
    rcases hfails.position with hlocated | ⟨limit,rfl,hd⟩
    · exact ⟨start,hfails,hlocated⟩
    · rcases h with rfl | hall | hfirst
      · exact absurd hd (by decide)
      · obtain ⟨k,c,htrial,hk⟩ := (decodeTree_depthLimit_iff buf hd).mp ⟨limit,0,herror⟩
        exact absurd (hall k c htrial) (Nat.not_le.mpr hk)
      · exact ⟨0,(failsAt_first_iff hd herror).mpr hfirst,le_rfl,Nat.zero_le _⟩

/-- Field 1 is `1`, and the string field `1: "a"` behind it, at byte 2, exceeds the limit 0. -/
theorem decodeTree_error_position_misses :
    ¬ ∀ (buf : Slice) (d : UInt32) (e : DecodeError), decodeTree buf d = .error (.err e) →
      ∃ start, FailsAt buf d start (.err e) ∧ start ≤ e.position ∧ e.position ≤ buf.len := by
  intro h
  have herror : decodeTree ⟨[0x08,0x01,0x0a,0x01,0x61],by decide⟩ 0 =
      .error (.err (.depthLimitExceeded 0 0)) := by decide +kernel
  obtain ⟨start,⟨nodes,r',-,-,hfail⟩,hstart,-⟩ := h _ _ _ herror
  obtain rfl : start = 0 := Nat.le_zero.mp hstart
  have hfirst : (match decodeNode (descent 0 0) ⟨⟨[0x08,0x01,0x0a,0x01,0x61],by decide⟩,0⟩ with
      | .ok _ _ => true
      | .error _ _ => false) = true := by decide +kernel
  rw [hfail] at hfirst
  cases hfirst

end SignalisCodec
