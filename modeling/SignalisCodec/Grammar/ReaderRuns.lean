import SignalisCodec.Grammar.RoundTrip

/-! Runs of a reader: the methods called one after another in any order, after failures as well as
after successes, on the cursor each of them leaves behind. -/
namespace SignalisCodec
open Fallible

/-- A call of one of the methods that move the cursor; a length is any number, so any `usize`. -/
inductive ReaderOp
  | readByte
  | readVarint
  | readFixed32
  | readFixed64
  | readBytes (len : ℕ)
  | skip (len : ℕ)
  deriving DecidableEq, Repr

/-- What a call returns. -/
inductive Returned
  | byte (b : UInt8)
  | varint (v : UInt64)
  | fixed32 (v : UInt32)
  | fixed64 (v : UInt64)
  | bytes (slice : Slice)
  | unit
  deriving DecidableEq, Repr

/-- The value shows the bytes the call has passed over. -/
def Returned.Shows : Returned → List UInt8 → Prop
  | .byte b,w => w = [b]
  | .varint v,w => ∃ x : Varint, x.bytes = w ∧ x.value = v
  | .fixed32 v,w => w = u32ToLeBytes v
  | .fixed64 v,w => w = u64ToLeBytes v
  | .bytes slice,w => w = slice.bytes
  | .unit,_ => True

namespace ReaderOp

def call : ReaderOp → ReadM Returned
  | readByte => .byte <$> Reader.readByte
  | readVarint => .varint <$> Reader.readVarint
  | readFixed32 => .fixed32 <$> Reader.readFixed32
  | readFixed64 => .fixed64 <$> Reader.readFixed64
  | readBytes len => .bytes <$> Reader.readBytes len
  | skip len => (fun _ => .unit) <$> Reader.skip len

/-- The number of bytes a call passes over when it succeeds, where that is fixed beforehand. -/
def width : ReaderOp → Option ℕ
  | readByte => some 1
  | readVarint => none
  | readFixed32 => some 4
  | readFixed64 => some 8
  | readBytes len => some len
  | skip len => some len

/-- The cursor a call leaves behind, failed or not. -/
def next (op : ReaderOp) (r : Reader) : Reader :=
  match op.call r with
  | .ok _ r' => r'
  | .error _ r' => r'

/-- The cursor a sequence of calls leaves behind. -/
def run (ops : List ReaderOp) (r : Reader) : Reader := ops.foldl (fun r op => op.next r) r

/-- What a call may do at the cursor `r`. -/
structure Exact (op : ReaderOp) (r : Reader) : Prop where
  ok : ∀ a r', op.call r = .ok a r' →
    ∃ w, r.Reads w r' ∧ a.Shows w ∧ ∀ n, op.width = some n → w.length = n
  error : ∀ f r', op.call r = .error f r' →
    (∃ e, f = .err e) ∧ (∃ w, r.Reads w r' ∧ w.length ≤ MAX_VARINT_BYTES) ∧
      (op ≠ readVarint → r' = r)

section step
variable {op : ReaderOp} {r : Reader}

/-- A call that passes over as many bytes as it asks for or leaves the cursor with an error. -/
lemma exact_of_cases {n : ℕ} (hwidth : op.width = some n)
    (h : (∃ a r' w, r.Reads w r' ∧ a.Shows w ∧ w.length = n ∧ op.call r = .ok a r') ∨
      ∃ e, op.call r = .error (.err e) r) : op.Exact r := by
  rcases h with ⟨a,r₁,w,hread,hshows,hlen,hcall⟩ | ⟨e,hcall⟩
  · constructor
    · intro a' r' h
      rw [hcall] at h
      cases h
      exact ⟨w,hread,hshows,fun m hm => hlen.trans (Option.some.inj (hwidth.symm.trans hm))⟩
    · intro f r' h
      rw [hcall] at h
      cases h
  · constructor
    · intro a r' h
      rw [hcall] at h
      cases h
    · intro f r' h
      rw [hcall] at h
      cases h
      exact ⟨⟨e,rfl⟩,⟨[],.refl r,Nat.zero_le _⟩,fun _ => rfl⟩

lemma exact_readByte : readByte.Exact r := by
  apply exact_of_cases rfl
  cases hr : r.rest with
  | nil => exact .inr ⟨_,map_error (Reader.readByte_nil hr) _⟩
  | cons b t =>
    exact .inl ⟨.byte b,r.advance 1,[b],Reader.reads_of_rest (w := [b]) hr,rfl,rfl,
      map_ok (Reader.readByte_cons hr) _⟩

lemma exact_readVarint : readVarint.Exact r := by
  constructor
  · intro a r' h
    obtain ⟨v,hres,rfl⟩ := map_eq_ok_iff.mp h
    obtain ⟨w,hv,hread⟩ := Reader.readVarint_ok_iff.mp hres
    exact ⟨w.bytes,hread,⟨w,rfl,hv⟩,fun n hn => nomatch hn⟩
  · intro f r' h
    have hres := map_eq_error_iff.mp h
    have herr := ((Failure.isMalformed_iff f).mp (Reader.readVarint_error hres)).1
    exact ⟨herr,Reader.readVarint_error_reads hres,fun hne => absurd rfl hne⟩

/-- A call that takes `n` bytes with `read_bytes` and returns what `g` makes of them. -/
lemma exact_of_readBytes {n : ℕ} {g : Slice → Returned} (hb : r.InBounds)
    (hwidth : op.width = some n) (hcall : op.call r = (g <$> Reader.readBytes n) r)
    (hg : ∀ s : Slice, s.len = n → (g s).Shows s.bytes) : op.Exact r := by
  apply exact_of_cases hwidth
  rw [hcall]
  rcases Reader.readBytes_cases hb n with ⟨s,rfl,⟨t,hr⟩,hread⟩ | ⟨f,hf,hread⟩
  · exact .inl ⟨_,_,s.bytes,Reader.reads_of_rest hr,hg s rfl,rfl,map_ok hread g⟩
  · obtain ⟨⟨e,rfl⟩,-⟩ := (Failure.isMalformed_iff f).mp hf
    exact .inr ⟨e,map_error hread g⟩

/-- What each method may do at a cursor inside the buffer. -/
theorem exact_call (hb : r.InBounds) (op : ReaderOp) : op.Exact r := by
  cases op with
  | readByte => exact exact_readByte
  | readVarint => exact exact_readVarint
  | readFixed32 =>
    refine exact_of_readBytes (g := fun s => .fixed32 (u32FromLeBytes s.bytes)) hb rfl ?_
      fun s hs => (u32ToLeBytes_fromLeBytes hs).symm
    rw [call,Reader.readFixed32_eq,map_congr_apply (Reader.readFixed_eq_map _ hb),Functor.map_map]
  | readFixed64 =>
    refine exact_of_readBytes (g := fun s => .fixed64 (u64FromLeBytes s.bytes)) hb rfl ?_
      fun s hs => (u64ToLeBytes_fromLeBytes hs).symm
    rw [call,Reader.readFixed64_eq,map_congr_apply (Reader.readFixed_eq_map _ hb),Functor.map_map]
  | readBytes len => exact exact_of_readBytes hb rfl rfl fun _ _ => rfl
  | skip len =>
    refine exact_of_readBytes (g := fun _ => .unit) hb rfl ?_ fun _ _ => trivial
    rw [call,Reader.skip_eq,Functor.map_map]

/-- One call moves the cursor on over some bytes of the buffer, or not at all. -/
lemma reads_next (hb : r.InBounds) (op : ReaderOp) : ∃ w, r.Reads w (op.next r) := by
  have hexact := exact_call hb op
  cases h : op.call r with
  | ok a r' =>
    obtain ⟨w,hread,-,-⟩ := hexact.ok a r' h
    exact ⟨w,by rwa [next,h]⟩
  | error f r' =>
    obtain ⟨-,⟨w,hread,-⟩,-⟩ := hexact.error f r' h
    exact ⟨w,by rwa [next,h]⟩

/-- So does a whole run. -/
theorem reads_run (hb : r.InBounds) (ops : List ReaderOp) : ∃ w, r.Reads w (run ops r) := by
  induction ops generalizing r with
  | nil => exact ⟨[],.refl r⟩
  | cons op ops ih =>
    obtain ⟨u,hu⟩ := reads_next hb op
    obtain ⟨v,hv⟩ := ih (hu.inBounds hb)
    exact ⟨u ++ v,hu.trans hv⟩

end step

lemma run_append (ops more : List ReaderOp) (r : Reader) :
    run (ops ++ more) r = run more (run ops r) := List.foldl_append

end ReaderOp

lemma Reader.remaining_of_inBounds {r : Reader} (hb : r.InBounds) :
    remaining r = .ok (r.buf.len - r.pos) r := by
  have hsub : checkedSub r.buf.len r.pos = some (r.buf.len - r.pos) := if_pos hb
  rw [remaining,bind_ok (get_apply r),hsub,orPanic_some,pure_apply]

/-- After any calls on a reader, failed or not: the cursor is inside the buffer, where `remaining`
is defined, it never moves back, and the next call, whichever it is, does not panic, passes over
what it returns, and loses no bytes when it fails, or at most ten of a varint. -/
theorem readerRuns_exact (buf : Slice) (ops : List ReaderOp) :
    (ReaderOp.run ops (.new buf)).buf = buf ∧
    (ReaderOp.run ops (.new buf)).pos ≤ buf.len ∧
    Reader.remaining (ReaderOp.run ops (.new buf)) =
      .ok (buf.len - (ReaderOp.run ops (.new buf)).pos) (ReaderOp.run ops (.new buf)) ∧
    (∀ more, (ReaderOp.run ops (.new buf)).pos ≤ (ReaderOp.run (ops ++ more) (.new buf)).pos) ∧
    ∀ op : ReaderOp, op.Exact (ReaderOp.run ops (.new buf)) := by
  obtain ⟨w,hw⟩ := ReaderOp.reads_run (Reader.inBounds_new buf) ops
  have hbuf : (ReaderOp.run ops (.new buf)).buf = buf := hw.buf_eq
  have hb := hw.inBounds (Reader.inBounds_new buf)
  have hrem := Reader.remaining_of_inBounds hb
  rw [hbuf] at hrem
  refine ⟨hbuf,by simpa only [Reader.InBounds,hbuf] using hb,hrem,fun more => ?_,
    ReaderOp.exact_call hb⟩
  obtain ⟨u,hu⟩ := ReaderOp.reads_run hb more
  rw [ReaderOp.run_append,hu.pos_eq]
  exact Nat.le_add_right _ _

end SignalisCodec
