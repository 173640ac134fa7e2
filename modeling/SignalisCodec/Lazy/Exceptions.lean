import SignalisCodec.Binding.Tree
import SignalisCodec.Grammar.Packing
import SignalisCodec.Lazy.FirstOccurrence
import SignalisCodec.Typed.Packed

/-! What the decoders throw tells the error of the core, to the position, and the lazy path throws
what the eager one throws. -/
namespace SignalisCodec
open Reader

/-- A binding throws when the core fails and says which error it was. -/
structure Tells {α β : Type} (status : Status) (core : Outcome α) (js : Except Thrown β) :
    Prop where
  error_iff : ∀ e, js = .error (.napi ⟨status,e.toText⟩) ↔ core = .error (.err e)
  only : ∀ t, js = .error t → ∃ e : DecodeError, t = .napi ⟨status,e.toText⟩

section tells
variable {α β : Type} {status : Status} {core : Outcome α}

/-- A binding that turns errors into texts and does something with the value. -/
lemma tells_of_mapErr (hcore : ∀ f, core = .error f → ∃ e, f = .err e) (g : α → β) :
    Tells status core (do
      let a ← mapErr (fun e => ⟨status,e.toText⟩) core
      return g a) := by
  cases hres : core with
  | ok a =>
    constructor
    · exact fun e => ⟨nofun,nofun⟩
    · exact fun t => nofun
  | error f =>
    obtain ⟨e',rfl⟩ := hcore f hres
    constructor
    · intro e
      constructor
      · intro h
        have htext : e'.toText = e.toText := by
          injection h with h
          injection h with h
          injection h
        rw [DecodeError.toText_injective htext]
      · intro h
        cases h
        rfl
    · intro t h
      cases h
      exact ⟨e',rfl⟩

/-- Where two cores fail alike, so do their bindings, each under its status. -/
lemma Tells.text_iff {α' β' : Type} {status' : Status} {core' : Outcome α'}
    {js : Except Thrown β} {js' : Except Thrown β'} (h : Tells status core js)
    (h' : Tells status' core' js') (hsame : ∀ f, core = .error f ↔ core' = .error f)
    (reason : String) :
    js = .error (.napi ⟨status,reason⟩) ↔ js' = .error (.napi ⟨status',reason⟩) := by
  constructor
  · intro hjs
    obtain ⟨e,he⟩ := h.only _ hjs
    cases he
    exact (h'.error_iff e).mpr ((hsame _).mp ((h.error_iff e).mp hjs))
  · intro hjs
    obtain ⟨e,he⟩ := h'.only _ hjs
    cases he
    exact (h.error_iff e).mpr ((hsame _).mpr ((h'.error_iff e).mp hjs))

lemma err_of_malformed {f : Failure} (h : f.IsMalformed) : ∃ e, f = .err e :=
  ((f.isMalformed_iff).mp h).1

end tells

section cores
variable {buf : Slice} {f : Failure}

lemma indexFields_err (h : indexFields buf = .error f) : ∃ e, f = .err e := by
  by_cases hlen : buf.len ≤ U32_MAX
  · exact err_of_malformed (decodeFields_error ((indexFields_error_iff hlen).mp h))
  · rw [indexFields,if_pos (Nat.not_le.mp hlen)] at h
    cases h
    exact ⟨_,rfl⟩

lemma decodeTree_err {d : UInt32} (hd : d < 4294967295) (h : decodeTree buf d = .error f) :
    ∃ e, f = .err e := by
  rw [decodeTree_eq_parseTree hd] at h
  exact parseTree_error_err buf f h

lemma unpackVarints_err (h : unpackVarints buf = .error f) : ∃ e, f = .err e := by
  rw [unpackVarints,readVarint_takesWord.readAll_error_iff Varint.bytes_ne_nil] at h
  obtain ⟨ws,as,r,r',-,-,-,hbody⟩ := h
  exact err_of_malformed (readVarint_error hbody)

lemma unpackFixed_err {α : Type} {width : ℕ} {toLeBytes : α → List UInt8}
    {ofLeBytes : List UInt8 → α} (hwidth : FixedWidth width toLeBytes ofLeBytes)
    (h : unpackFixed width (readFixed width ofLeBytes) buf = .error f) : ∃ e, f = .err e := by
  by_cases hlen : buf.len % width = 0
  · obtain ⟨values,hok⟩ := (hwidth.unpackFixed_accepts_iff buf).mpr hlen
    rw [hok] at h
    cases h
  · rw [unpackFixed,if_pos hlen] at h
    cases h
    exact ⟨_,rfl⟩

end cores

/-- Every decoder throws the errors of the core and nothing else, each under a text of its own. Up
to 4 GiB the lazy path throws exactly the texts of the eager one, under another status; above, it
throws whatever the bytes are. -/
theorem decoders_throw_alike (buf : Slice) :
    Tells .genericFailure (decodeFields buf) (decodeFieldsJs buf) ∧
    (∀ d < 4294967295, Tells .genericFailure (decodeTree buf d) (decodeTreeJs buf d)) ∧
    Tells .invalidArg (indexFields buf) (lazyIndex buf) ∧
    Tells .genericFailure (unpackVarints buf) (unpackVarintsJs buf) ∧
    Tells .genericFailure (unpackFixed32 buf) (unpackFixed32Js buf) ∧
    Tells .genericFailure (unpackFixed64 buf) (unpackFixed64Js buf) ∧
    (buf.len ≤ U32_MAX → ∀ reason, lazyIndex buf = .error (.napi ⟨.invalidArg,reason⟩) ↔
      decodeFieldsJs buf = .error (.napi ⟨.genericFailure,reason⟩)) ∧
    (U32_MAX < buf.len → lazyIndex buf =
      .error (.napi ⟨.invalidArg,"length-delimited size overflow at position 0"⟩)) := by
  have hfields : Tells .genericFailure (decodeFields buf) (decodeFieldsJs buf) :=
    tells_of_mapErr (fun f h => err_of_malformed (decodeFields_error h)) _
  have hindex : Tells .invalidArg (indexFields buf) (lazyIndex buf) := by
    have hbind : Tells .invalidArg (indexFields buf) (do
        let entries ← mapErr (fun e => ⟨.invalidArg,e.toText⟩) (indexFields buf)
        return (⟨buf,entries.flatMap IndexEntry.row⟩ : LazyMessage)) :=
      tells_of_mapErr (fun f => indexFields_err) _
    convert hbind using 1
    unfold lazyIndex indexFieldsJs
    cases mapErr _ (indexFields buf) <;> rfl
  refine ⟨hfields,?_,hindex,?_,?_,?_,?_,?_⟩
  · intro d hd
    exact tells_of_mapErr (fun f => decodeTree_err hd) _
  · exact tells_of_mapErr (fun f => unpackVarints_err) _
  · exact tells_of_mapErr (fun f => unpackFixed_err fixedWidth32) _
  · exact tells_of_mapErr (fun f => unpackFixed_err fixedWidth64) _
  · intro hlen
    exact hindex.text_iff hfields fun f => indexFields_error_iff hlen
  · intro hlen
    have hbig : indexFields buf = .error (.err (.lengthOverflow 0)) := if_pos hlen
    exact (hindex.error_iff _).mpr hbig

end SignalisCodec
