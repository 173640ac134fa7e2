import SignalisCodec.Tree.Concatenation

/-! Cutting an accepted message off: at the end of a record the fields so far are returned, and
anywhere else the missing bytes are asked for. -/
namespace SignalisCodec
open Reader Fallible Drain Lockstep

section cut
variable {α : Type} {body : ReadM α} {Q : Record → α → Prop} {buf : Slice} {as : List α}

/-- The first `k` bytes, and those after them. -/
def Slice.before (buf : Slice) (k : ℕ) : Slice := buf.window 0 k
def Slice.after (buf : Slice) (k : ℕ) : Slice := buf.window k (buf.len - k)

lemma Slice.before_append_after (buf : Slice) (k : ℕ) :
    (buf.before k).bytes ++ (buf.after k).bytes = buf.bytes := by
  have hafter : (buf.after k).bytes = buf.bytes.drop k := by
    refine List.take_of_length_le ?_
    rw [List.length_drop]
    exact le_rfl
  rw [hafter]
  exact List.take_append_drop k buf.bytes

/-- A body whose own errors about the bytes are those of the record walk. -/
def FailsByWalk (body : ReadM α) : Prop :=
  ∀ r r' f, r.InBounds → body r = .error f r' → f.IsMalformed → scanRecord r = .error f r'

/-- Bytes asked for past the end of the cut, because the walk ran out of them. -/
lemma TakesRecord.error_persists (h : TakesRecord body Q) (hfails : FailsByWalk body) {f : Failure}
    (hbuf : readAll body buf = .error f) (hf : f.IsMalformed) :
    ∃ e, f = .err e ∧ e.Persists buf.len := by
  obtain ⟨recs,as,r,r',hreads,-,-,hbody⟩ := (h.readAll_error_iff buf f).mp hbuf
  have hb := hreads.inBounds (inBounds_new buf)
  have hlocated := locates_scanRecord hb
  rw [hfails r r' f hb hbody hf] at hlocated
  obtain ⟨e,he,-,-,hpersists⟩ := hlocated
  refine ⟨e,he,?_⟩
  rwa [hreads.buf_eq] at hpersists

/-- An error in the first bytes of an accepted buffer is one that the missing bytes cure. -/
lemma TakesRecord.error_cured (h : TakesRecord body Q) (hgrows : Grows body)
    (hbuf : readAll body buf = .ok as) {k : ℕ} {f : Failure}
    (hcut : readAll body (buf.before k) = .error f) :
    ∃ needed position, f = .err (.unexpectedEof needed position) ∧
      position + needed ≤ buf.len := by
  by_contra hcured
  have hendures : Endures buf f := by
    rintro e rfl
    refine (e.persists_iff _).mpr fun needed position heof => ?_
    by_contra hlen
    exact hcured ⟨needed,position,congrArg Failure.err heof,Nat.not_lt.mp hlen⟩
  have hfail := drain_follows h.progress (fun r t hE hrun => ⟨hE.running hrun,hgrows buf r t hE⟩)
    (extended_new ⟨_,buf.before_append_after k⟩) hcut hendures
  rw [readAll] at hbuf
  rw [hbuf] at hfail
  cases hfail

/-- Records that make up the bytes before the cut are followed by records that make up the rest. -/
lemma wires_after_cut {recs firsts : List Record} {k : ℕ} (hwires : wires recs = buf.bytes)
    (hfirsts : wires firsts = (buf.before k).bytes) :
    ∃ rest, recs = firsts ++ rest ∧ wires rest = (buf.after k).bytes := by
  have hsame : wires firsts ++ (buf.after k).bytes = wires recs ++ [] := by
    rw [hfirsts,hwires,List.append_nil,buf.before_append_after]
  rcases Record.selfDelimiting.align hsame with ⟨rest,rfl,hrest⟩ | ⟨more,rfl,hnil⟩
  · exact ⟨rest,rfl,by rw [hrest,List.append_nil]; rfl⟩
  · obtain ⟨hmore,hafter⟩ := List.append_eq_nil_iff.mp hnil.symm
    obtain rfl : more = [] := wires_injective hmore
    exact ⟨[],by simp,hafter.symm⟩

/-- Both sides of the cut, at the end of a record and inside one. -/
theorem TakesRecord.cut (h : TakesRecord body Q) (hgrows : Grows body)
    (hfails : FailsByWalk body) (hbuf : readAll body buf = .ok as) (k : ℕ) :
    (∃ n, readAll body (buf.before k) = .ok (as.take n) ∧
      readAll body (buf.after k) = .ok (as.drop n)) ∨
    ∃ needed position,
      readAll body (buf.before k) = .error (.err (.unexpectedEof needed position)) ∧
      (buf.before k).len < position + needed ∧ position + needed ≤ buf.len := by
  cases hcut : readAll body (buf.before k) with
  | ok found =>
    obtain ⟨recs,hwires,hrecs⟩ := (h.readAll_ok_iff buf as).mp hbuf
    obtain ⟨firsts,hfirsts,-⟩ := (h.readAll_ok_iff _ found).mp hcut
    obtain ⟨rest,rfl,hrest⟩ := wires_after_cut hwires hfirsts
    have htake := List.forall₂_take firsts.length hrecs
    have hdrop := List.forall₂_drop firsts.length hrecs
    rw [List.take_left] at htake
    rw [List.drop_left] at hdrop
    refine .inl ⟨firsts.length,?_,(h.readAll_ok_iff _ _).mpr ⟨rest,hrest,hdrop⟩⟩
    rw [← hcut]
    exact (h.readAll_ok_iff _ _).mpr ⟨firsts,hfirsts,htake⟩
  | error f =>
    obtain ⟨needed,position,rfl,hlen⟩ := h.error_cured hgrows hbuf hcut
    obtain ⟨e,he,hpersists⟩ := h.error_persists hfails hcut trivial
    cases he
    exact .inr ⟨needed,position,rfl,hpersists,hlen⟩

end cut

lemma decodeField_failsByWalk : FailsByWalk decodeField :=
  fun _ _ _ _ h _ => decodeField_error h

/-- Errors from trial parses are not about the bytes. -/
lemma decodeNode_failsByWalk (descend : Slice → Outcome Nodes) :
    FailsByWalk (decodeNode descend) := by
  intro r r' f hb h hf
  rcases decodeNode_error_cases hb h with hscan | ⟨rec,b,r₁,-,-,htrial⟩
  · exact hscan
  · exact absurd hf (trial_error_eq htrial).2

/-- Cut off after any number of bytes, an accepted message gives the fields, or the nodes, before
the cut and those after it, or else an error that asks for bytes that are missing from the cut but
not from the message. A depth error is never brought on by a cut. -/
theorem decode_truncated (buf : Slice) (k : ℕ) (maxDepth : UInt32) :
    (∀ fields, decodeFields buf = .ok fields →
      (∃ n, decodeFields (buf.before k) = .ok (fields.take n) ∧
        decodeFields (buf.after k) = .ok (fields.drop n)) ∨
      ∃ needed position,
        decodeFields (buf.before k) = .error (.err (.unexpectedEof needed position)) ∧
        (buf.before k).len < position + needed ∧ position + needed ≤ buf.len) ∧
    (∀ t, decodeTree buf maxDepth = .ok t →
      (∃ n, decodeTree (buf.before k) maxDepth = .ok (t.take n) ∧
        decodeTree (buf.after k) maxDepth = .ok (t.drop n)) ∨
      ∃ needed position,
        decodeTree (buf.before k) maxDepth = .error (.err (.unexpectedEof needed position)) ∧
        (buf.before k).len < position + needed ∧ position + needed ≤ buf.len) := by
  constructor
  · intro fields h
    exact decodeField_takesRecord.cut grows_decodeField decodeField_failsByWalk h k
  · intro t h
    simp only [decodeTree_eq_readAll] at h ⊢
    exact (decodeNode_takesRecord _).cut grows_decodeNode (decodeNode_failsByWalk _) h k

end SignalisCodec
