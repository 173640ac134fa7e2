import SignalisCodec.Grammar.FlatDecode

/-! Where the errors of the record walk point: at the record that fails or behind it, and inside the
buffer. -/
namespace SignalisCodec
open Reader Fallible

/-- The position every error carries. -/
def DecodeError.position : DecodeError → ℕ
  | .unexpectedEof _ position => position
  | .varintOverflow position => position
  | .lengthOverflow position => position
  | .invalidWireType _ position => position
  | .invalidFieldNumber position => position
  | .depthLimitExceeded _ position => position
  | .groupsUnsupported position => position

/-- The error persists in a buffer of length `len`: only a missing byte can be supplied. -/
def DecodeError.Persists (e : DecodeError) (len : ℕ) : Prop :=
  match e with
  | .unexpectedEof needed position => len < position + needed
  | _ => True

lemma DecodeError.persists_iff (e : DecodeError) (len : ℕ) :
    e.Persists len ↔ ∀ needed position, e = .unexpectedEof needed position →
      len < position + needed := by
  cases e <;> simp [Persists]

/-- An error raised at `r` or behind it, inside the buffer, and not for bytes that are there. -/
def Located (r : Reader) (f : Failure) : Prop :=
  ∃ e, f = .err e ∧ r.pos ≤ e.position ∧ e.position ≤ r.buf.len ∧ e.Persists r.buf.len

/-- An operation moves the cursor on inside the buffer, or fails with a located error. -/
def Locates {α : Type} (r : Reader) : EStateM.Result Failure Reader α → Prop
  | .ok _ r' => r'.buf = r.buf ∧ r.pos ≤ r'.pos ∧ r'.InBounds
  | .error f _ => Located r f

section located
variable {α β : Type} {r : Reader}

lemma Located.mono {r' : Reader} {f : Failure} (hbuf : r'.buf = r.buf) (hpos : r.pos ≤ r'.pos)
    (h : Located r' f) : Located r f := by
  obtain ⟨e,hf,hstart,hstop,hpersists⟩ := h
  rw [hbuf] at hstop hpersists
  exact ⟨e,hf,hpos.trans hstart,hstop,hpersists⟩

lemma Locates.bind {x : ReadM α} {f : α → ReadM β} (h : Locates r (x r))
    (hf : ∀ a r', x r = .ok a r' → r'.InBounds → Locates r' (f a r')) :
    Locates r ((x >>= f) r) := by
  cases hx : x r with
  | error e r' =>
    rw [bind_error hx]
    rw [hx] at h
    exact h
  | ok a r' =>
    rw [bind_ok hx]
    rw [hx] at h
    obtain ⟨hbuf,hpos,hin⟩ := h
    have hrest := hf a r' hx hin
    cases hres : f a r' with
    | error e r'' =>
      rw [hres] at hrest
      exact Located.mono hbuf hpos hrest
    | ok b r'' =>
      rw [hres] at hrest
      exact ⟨hrest.1.trans hbuf,hpos.trans hrest.2.1,hrest.2.2⟩

lemma locates_pure (hb : r.InBounds) (a : α) : Locates r ((pure a : ReadM α) r) :=
  ⟨rfl,le_rfl,hb⟩

lemma locates_position (hb : r.InBounds) : Locates r (position r) := ⟨rfl,le_rfl,hb⟩

lemma locates_reads {w : List UInt8} {r' : Reader} (hb : r.InBounds) (h : r.Reads w r') (a : α) :
    Locates r (.ok a r') :=
  ⟨h.buf_eq,by rw [h.pos_eq]; exact Nat.le_add_right _ _,h.inBounds hb⟩

lemma rest_length_add_pos (hb : r.InBounds) : r.pos + r.rest.length = r.buf.len := by
  rw [rest_length]
  exact Nat.add_sub_cancel' hb

lemma locates_readVarint (hb : r.InBounds) : Locates r (readVarint r) := by
  have hend := rest_length_add_pos hb
  rcases readVarint_cases r with ⟨w,⟨t,hr⟩,hread⟩ | ⟨-,hread⟩ | ⟨⟨u,b,t,hr,hlen,-,-⟩,hread⟩
  all_goals rw [hread]
  · exact locates_reads hb (reads_of_rest hr) _
  · refine ⟨_,rfl,Nat.le_add_right _ _,le_of_eq hend,?_⟩
    change r.buf.len < r.pos + r.rest.length + 1
    omega
  · refine ⟨_,rfl,Nat.le_add_right _ _,?_,trivial⟩
    have := congrArg List.length hr
    rw [List.length_append,List.length_cons] at this
    change r.pos + 10 ≤ r.buf.len
    omega

lemma locates_readBytes (hb : r.InBounds) (len : ℕ) : Locates r (readBytes len r) := by
  have hend := rest_length_add_pos hb
  rcases readBytes_outcomes r len with ⟨s,rfl,t,hr⟩ | ⟨hlen,hadd⟩ | hover
  · rw [readBytes_ok hb hr]
    exact locates_reads hb (reads_of_rest hr) s
  · rw [readBytes_eof hb hlen hadd]
    refine ⟨_,rfl,le_rfl,hb,?_⟩
    change r.buf.len < r.pos + len
    omega
  · rw [readBytes_overflow hover]
    exact ⟨_,rfl,le_rfl,hb,trivial⟩

lemma locates_readFixed (hb : r.InBounds) (n : ℕ) (ofBytes : List UInt8 → α) :
    Locates r (readFixed n ofBytes r) := by
  have hread := locates_readBytes hb n
  rw [readFixed_eq_map ofBytes hb]
  cases hx : readBytes n r with
  | error f r' =>
    rw [map_error hx]
    rwa [hx] at hread
  | ok s r' =>
    rw [map_ok hx]
    rwa [hx] at hread

lemma fromVarint_error_position {key : UInt64} {position : ℕ} {e : DecodeError}
    (h : FieldKey.fromVarint key position = .error e) :
    e.position = position ∧ ∀ len, e.Persists len := by
  unfold FieldKey.fromVarint WireType.fromBits at h
  split at h <;> simp only [bind,Except.bind,pure,Except.pure,throw,throwThe,
    MonadExceptOf.throw] at h
  all_goals first
    | (cases h; exact ⟨rfl,fun _ => trivial⟩)
    | (split at h <;> cases h; exact ⟨rfl,fun _ => trivial⟩)

/-- A key that is refused is reported where it starts. -/
lemma locates_scanKey (hb : r.InBounds) : Locates r (scanKey r) := by
  have hread := locates_readVarint hb
  rw [scanKey,bind_ok (position_apply r)]
  cases hx : readVarint r with
  | error f r' =>
    rw [bind_error hx]
    rwa [hx] at hread
  | ok key r' =>
    rw [bind_ok hx]
    rw [hx] at hread
    cases hk : FieldKey.fromVarint key r.pos with
    | error e =>
      obtain ⟨hpos,hpersists⟩ := fromVarint_error_position hk
      exact ⟨e,rfl,le_of_eq hpos.symm,hpos ▸ hb,hpersists _⟩
    | ok k => exact hread

lemma locates_scanValue (hb : r.InBounds) (wt : WireType) : Locates r (scanValue wt r) := by
  cases wt with
  | varint =>
    refine (locates_position hb).bind fun start r₁ _ hb₁ => ?_
    exact (locates_readVarint hb₁).bind fun v r₂ _ hb₂ => locates_pure hb₂ _
  | fixed64 =>
    refine (locates_position hb).bind fun start r₁ _ hb₁ => ?_
    exact (locates_readFixed hb₁ 8 u64FromLeBytes).bind fun v r₂ _ hb₂ => locates_pure hb₂ _
  | fixed32 =>
    refine (locates_position hb).bind fun start r₁ _ hb₁ => ?_
    exact (locates_readFixed hb₁ 4 u32FromLeBytes).bind fun v r₂ _ hb₂ => locates_pure hb₂ _
  | lengthDelimited =>
    refine (locates_position hb).bind fun lenPos r₁ _ hb₁ => ?_
    refine (locates_readVarint hb₁).bind fun len r₂ _ hb₂ => ?_
    rw [lengthFromVarint_eq]
    refine (locates_pure hb₂ len.toNat).bind fun len' r₃ _ hb₃ => ?_
    refine (locates_position hb₃).bind fun start r₄ _ hb₄ => ?_
    exact (locates_readBytes hb₄ _).bind fun b r₅ _ hb₅ => locates_pure hb₅ _

theorem locates_scanRecord (hb : r.InBounds) : Locates r (scanRecord r) := by
  rw [scanRecord_eq_key]
  refine (locates_scanKey hb).bind fun key r₁ _ hb₁ => ?_
  refine (locates_scanValue hb₁ key.wireType).bind fun p r₂ _ hb₂ => ?_
  exact (locates_position hb₂).bind fun stop r₃ _ hb₃ => locates_pure hb₃ _

end located

end SignalisCodec
