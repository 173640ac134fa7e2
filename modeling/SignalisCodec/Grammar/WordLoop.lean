import SignalisCodec.Grammar.Reading

/-! Loops whose body takes one word of a code: a whole run divides the buffer into words. -/
namespace SignalisCodec
open Reader Fallible Drain

variable {α ω : Type}

/-- The body succeeds by passing over one word of the code, and `Q` relates it to the result. -/
def TakesWord (code : ω → List UInt8) (body : ReadM α) (Q : ω → α → Prop) : Prop :=
  ∀ r a r', r.InBounds → (body r = .ok a r' ↔ ∃ w, r.Reads (code w) r' ∧ Q w a)

lemma inBounds_of_running {r : Reader} (h : loop.done r = false) : r.InBounds := by
  change r.isEmpty = false at h
  rw [isEmpty,decide_eq_false_iff_not] at h
  unfold InBounds
  omega

lemma running_of_rest {r : Reader} (h : r.rest ≠ []) : loop.done r = false :=
  Bool.eq_false_iff.mpr fun he => h ((isEmpty_iff r).mp he)

lemma reads_whole {buf : Slice} {w : List UInt8} {r : Reader} (h : (new buf).Reads w r)
    (hdone : loop.done r = true) : w = buf.bytes := by
  have hrest := h.rest_eq
  rw [(isEmpty_iff r).mp hdone,List.append_nil] at hrest
  exact hrest.symm

/-- A body that succeeds only by passing over something brings the loop on. -/
lemma progress_of_reads {body : ReadM α}
    (h : ∀ r a r', r.InBounds → body r = .ok a r' → ∃ w, w ≠ [] ∧ r.Reads w r') :
    Progress loop body := by
  intro r a r' hrun hbody
  have hb := inBounds_of_running hrun
  obtain ⟨w,hne,hread⟩ := h r a r' hb hbody
  have hpos := List.length_pos_iff.mpr hne
  have hnext := hread.inBounds hb
  change r'.buf.len - r'.pos < r.buf.len - r.pos
  unfold InBounds at hb hnext
  rw [hread.buf_eq,hread.pos_eq] at *
  omega

section loop
variable {code : ω → List UInt8} {body : ReadM α} {Q : ω → α → Prop}

lemma TakesWord.progress (hne : ∀ w, code w ≠ []) (h : TakesWord code body Q) :
    Progress loop body := by
  apply progress_of_reads
  intro r a r' hb hbody
  obtain ⟨w,hread,-⟩ := (h r a r' hb).mp hbody
  exact ⟨code w,hne w,hread⟩

/-- A run of steps passes over a list of words. -/
lemma TakesWord.words_of_steps (h : TakesWord code body Q) {r r' : Reader} {as : List α}
    (hsteps : Steps loop body r as r') (hb : r.InBounds) :
    ∃ ws, r.Reads (ws.flatMap code) r' ∧ List.Forall₂ Q ws as := by
  induction hsteps with
  | refl r => exact ⟨[],.refl r,.nil⟩
  | @head r r₁ r₂ a as running first tail ih =>
    obtain ⟨w,hread,hq⟩ := (h r a r₁ hb).mp first
    obtain ⟨ws,hreads,hqs⟩ := ih (hread.inBounds hb)
    refine ⟨w :: ws,?_,.cons hq hqs⟩
    rw [List.flatMap_cons]
    exact hread.trans hreads

/-- Conversely, in front of a list of words the loop takes exactly these steps. -/
lemma TakesWord.steps_of_words (hne : ∀ w, code w ≠ []) (h : TakesWord code body Q)
    {ws : List ω} {as : List α} (hqs : List.Forall₂ Q ws as) {r r' : Reader} (hb : r.InBounds)
    (hreads : r.Reads (ws.flatMap code) r') : Steps loop body r as r' := by
  induction hqs generalizing r with
  | nil =>
    obtain rfl : r' = r := hreads.next
    exact .refl r'
  | @cons w a ws as hq hqs ih =>
    have hr : r.rest = code w ++ (ws.flatMap code ++ r'.rest) := by
      rw [hreads.rest_eq,List.flatMap_cons,List.append_assoc]
    have hread := reads_of_rest hr
    have hrest : (r.advance (code w).length).Reads (ws.flatMap code) r' := by
      refine ⟨?_,rest_advance hr⟩
      rw [hreads.next,List.flatMap_cons,List.length_append,advance_advance]
    have hrun : loop.done r = false := running_of_rest (by simp [hr,hne w])
    exact .head hrun ((h r a _ hb).mpr ⟨w,hread,hq⟩) (ih (hread.inBounds hb) hrest)

/-- The loop returns on exactly the concatenations of words its body takes. -/
theorem TakesWord.readAll_ok_iff (hne : ∀ w, code w ≠ []) (h : TakesWord code body Q)
    (buf : Slice) (as : List α) :
    readAll body buf = .ok as ↔ ∃ ws, ws.flatMap code = buf.bytes ∧ List.Forall₂ Q ws as := by
  rw [readAll,drain_ok_iff (h.progress hne)]
  constructor
  · rintro ⟨r,hsteps,hdone⟩
    obtain ⟨ws,hreads,hqs⟩ := h.words_of_steps hsteps (inBounds_new buf)
    exact ⟨ws,reads_whole hreads hdone,hqs⟩
  · rintro ⟨ws,hw,hqs⟩
    have hreads : (new buf).Reads (ws.flatMap code) _ := reads_of_rest (t := []) (by simp [hw])
    refine ⟨_,h.steps_of_words hne hqs (inBounds_new buf) hreads,(isEmpty_iff _).mpr ?_⟩
    exact rest_advance (by simp [hw])

/-- The loop fails where its body fails, after a list of words it took. -/
theorem TakesWord.readAll_error_iff (hne : ∀ w, code w ≠ []) (h : TakesWord code body Q)
    (buf : Slice) (f : Failure) :
    readAll body buf = .error f ↔
      ∃ ws as r r', (new buf).Reads (ws.flatMap code) r ∧ List.Forall₂ Q ws as ∧ r.rest ≠ [] ∧
        body r = .error f r' := by
  rw [readAll,drain_error_iff (h.progress hne)]
  constructor
  · rintro ⟨as,r,r',hsteps,hrun,hbody⟩
    obtain ⟨ws,hreads,hqs⟩ := h.words_of_steps hsteps (inBounds_new buf)
    refine ⟨ws,as,r,r',hreads,hqs,fun hnil => ?_,hbody⟩
    have := (isEmpty_iff r).mpr hnil
    change r.isEmpty = false at hrun
    simp_all
  · rintro ⟨ws,as,r,r',hreads,hqs,hne',hbody⟩
    exact ⟨as,r,r',h.steps_of_words hne hqs (inBounds_new buf) hreads,running_of_rest hne',hbody⟩

end loop
end SignalisCodec
