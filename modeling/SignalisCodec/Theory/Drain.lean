import Mathlib.Data.List.Forall2

/-! Loops that run a fallible stateful step until the state is used up and collect what the
steps return. One step of two loops is compared by `Sim`; `drain_sim` lifts it to whole runs. -/
namespace Drain

universe u
variable {ε σ α β : Type u}

/-- What such a loop fixes besides its body: when it ends, what each step has to bring down,
and how a step that brings nothing down (and would be repeated for ever) is reported. -/
structure Loop (ε σ : Type u) where
  done : σ → Bool
  size : σ → ℕ
  stuck : ε

/-- `while !done { out.push(body()?) }` -/
def drain (L : Loop ε σ) (body : EStateM ε σ α) (s : σ) (out : List α) : Except ε (List α) :=
  if L.done s then .ok out
  else
    match body s with
    | .ok a s' =>
      if L.size s' < L.size s then drain L body s' (out ++ [a]) else .error L.stuck
    | .error e _ => .error e
termination_by L.size s

/-- Every successful step of the body brings the loop's size down. -/
def Progress (L : Loop ε σ) (body : EStateM ε σ α) : Prop :=
  ∀ s a s', L.done s = false → body s = .ok a s' → L.size s' < L.size s

/-- A run of successful steps, with the values it pushes. -/
inductive Steps (L : Loop ε σ) (body : EStateM ε σ α) : σ → List α → σ → Prop
  | refl (s : σ) : Steps L body s [] s
  | head {s s' s'' : σ} {a : α} {as : List α} (running : L.done s = false)
      (first : body s = .ok a s') (tail : Steps L body s' as s'') : Steps L body s (a :: as) s''

section run
variable {L : Loop ε σ} {body : EStateM ε σ α}

lemma drain_done {s : σ} (h : L.done s = true) (out : List α) : drain L body s out = .ok out := by
  rw [drain,if_pos h]

lemma drain_step (hp : Progress L body) {s s' : σ} {a : α} (h : L.done s = false)
    (hb : body s = .ok a s') (out : List α) :
    drain L body s out = drain L body s' (out ++ [a]) := by
  rw [drain,if_neg (by simp [h]),hb]
  exact if_pos (hp s a s' h hb)

lemma drain_fail {s s' : σ} {e : ε} (h : L.done s = false) (hb : body s = .error e s')
    (out : List α) : drain L body s out = .error e := by
  rw [drain,if_neg (by simp [h]),hb]

/-- Going through a run of steps pushes its values and leaves the rest of the loop. -/
lemma Steps.drain_eq (hp : Progress L body) {s s' : σ} {as : List α}
    (h : Steps L body s as s') (out : List α) :
    drain L body s out = drain L body s' (out ++ as) := by
  induction h generalizing out with
  | refl s => simp
  | head running first tail ih =>
    rw [drain_step hp running first,ih]
    simp

/-- Every loop ends after finitely many steps, done or with the error of one more step. -/
theorem steps_or_fail (hp : Progress L body) (s : σ) :
    ∃ as s', Steps L body s as s' ∧
      (L.done s' = true ∨ L.done s' = false ∧ ∃ e s'', body s' = .error e s'') := by
  induction h : L.size s using Nat.strongRecOn generalizing s with
  | ind n ih =>
    cases hd : L.done s with
    | true => exact ⟨[],s,.refl s,.inl hd⟩
    | false =>
      cases hb : body s with
      | error e s' => exact ⟨[],s,.refl s,.inr ⟨hd,e,s',hb⟩⟩
      | ok a s' =>
        obtain ⟨as,s'',hs,hend⟩ := ih (L.size s') (h ▸ hp s a s' hd hb) s' rfl
        exact ⟨a :: as,s'',.head hd hb hs,hend⟩

theorem drain_ok_iff (hp : Progress L body) (s : σ) (res : List α) :
    drain L body s [] = .ok res ↔ ∃ s', Steps L body s res s' ∧ L.done s' = true := by
  constructor
  · intro h
    obtain ⟨as,s',hs,hd | ⟨hd,e,s'',hb⟩⟩ := steps_or_fail hp s
    · rw [hs.drain_eq hp,drain_done hd] at h
      obtain rfl : as = res := by simpa using h
      exact ⟨s',hs,hd⟩
    · rw [hs.drain_eq hp,drain_fail hd hb] at h
      cases h
  · rintro ⟨s',hs,hd⟩
    rw [hs.drain_eq hp,drain_done hd]
    rfl

theorem drain_error_iff (hp : Progress L body) (s : σ) (e : ε) :
    drain L body s [] = .error e ↔
      ∃ as s' s'', Steps L body s as s' ∧ L.done s' = false ∧ body s' = .error e s'' := by
  constructor
  · intro h
    obtain ⟨as,s',hs,hd | ⟨hd,e',s'',hb⟩⟩ := steps_or_fail hp s
    · rw [hs.drain_eq hp,drain_done hd] at h
      cases h
    · rw [hs.drain_eq hp,drain_fail hd hb] at h
      cases h
      exact ⟨as,s',s'',hs,hd,hb⟩
  · rintro ⟨as,s',s'',hs,hd,hb⟩
    rw [hs.drain_eq hp,drain_fail hd hb]

/-- What one step preserves, a run preserves. -/
lemma Steps.invariant {Inv : σ → Prop} (hstep : ∀ s a s', Inv s → body s = .ok a s' → Inv s')
    {s s' : σ} {as : List α} (h : Steps L body s as s') (hs : Inv s) : Inv s' := by
  induction h with
  | refl s => exact hs
  | head running first tail ih => exact ih (hstep _ _ _ hs first)

end run

section simulation

/-- One step against another: related values and the same next state, the same error, or an
error of the first that cuts the comparison short. -/
inductive Sim (R : α → β → Prop) (P : ε → Prop) :
    EStateM.Result ε σ α → EStateM.Result ε σ β → Prop
  | ok {a : α} {b : β} (s : σ) (rel : R a b) : Sim R P (.ok a s) (.ok b s)
  | error (e : ε) (s s' : σ) : Sim R P (.error e s) (.error e s')
  | cut {e : ε} (s : σ) (y : EStateM.Result ε σ β) (hit : P e) : Sim R P (.error e s) y

/-- The same comparison for complete results. -/
inductive SimResult (R : α → β → Prop) (P : ε → Prop) : Except ε α → Except ε β → Prop
  | ok {a : α} {b : β} (rel : R a b) : SimResult R P (.ok a) (.ok b)
  | error (e : ε) : SimResult R P (.error e) (.error e)
  | cut {e : ε} (y : Except ε β) (hit : P e) : SimResult R P (.error e) y

lemma SimResult.refl {P : ε → Prop} (x : Except ε α) : SimResult Eq P x x := by
  cases x with
  | ok a => exact .ok rfl
  | error e => exact .error e

variable {R : α → β → Prop} {P : ε → Prop} {x : Except ε α} {y : Except ε β}

/-- Results of the first side that are not cut short are results of the second. -/
lemma SimResult.of_ok_left {a : α} (h : SimResult R P x y) (hx : x = .ok a) :
    ∃ b, y = .ok b ∧ R a b := by
  subst hx
  cases h with
  | ok rel => exact ⟨_,rfl,rel⟩

lemma SimResult.of_error_left {e : ε} (h : SimResult R P x y) (hx : x = .error e) (he : ¬ P e) :
    y = .error e := by
  subst hx
  cases h with
  | error e => rfl
  | cut y hit => exact absurd hit he

/-- Results of the second side are results of the first, unless that is cut short. -/
lemma SimResult.of_ok_right {b : β} (h : SimResult R P x y) (hy : y = .ok b) :
    (∃ a, x = .ok a ∧ R a b) ∨ ∃ e, x = .error e ∧ P e := by
  subst hy
  cases h with
  | ok rel => exact .inl ⟨_,rfl,rel⟩
  | cut y hit => exact .inr ⟨_,rfl,hit⟩

lemma SimResult.of_error_right {e : ε} (h : SimResult R P x y) (hy : y = .error e) :
    x = .error e ∨ ∃ e', x = .error e' ∧ P e' := by
  subst hy
  cases h with
  | error e => exact .inl rfl
  | cut y hit => exact .inr ⟨_,rfl,hit⟩

lemma SimResult.eq_of_ok {x y : Except ε α} {a : α} (h : SimResult Eq P x y) (hx : x = .ok a) :
    y = .ok a := by
  obtain ⟨b,hy,rfl⟩ := h.of_ok_left hx
  exact hy

/-- Two loops whose bodies agree on every state of an invariant agree as wholes. -/
theorem drain_sim {L : Loop ε σ} {x : EStateM ε σ α} {y : EStateM ε σ β} {Inv : σ → Prop}
    (hinv : ∀ s a s', Inv s → x s = .ok a s' → Inv s')
    (hsim : ∀ s, Inv s → L.done s = false → Sim R P (x s) (y s))
    {s : σ} (hs : Inv s) {out : List α} {out' : List β} (hout : List.Forall₂ R out out') :
    SimResult (List.Forall₂ R) P (drain L x s out) (drain L y s out') := by
  induction h : L.size s using Nat.strongRecOn generalizing s out out' with
  | ind n ih =>
    cases hd : L.done s with
    | true =>
      rw [drain_done hd,drain_done hd]
      exact .ok hout
    | false =>
      have hstep := hsim s hs hd
      rw [drain.eq_def L x,drain.eq_def L y]
      simp only [hd,Bool.false_eq_true,if_false]
      generalize hx : x s = rx at hstep
      generalize y s = ry at hstep
      cases hstep with
      | error e t t' => exact .error e
      | cut t y hit => exact .cut _ hit
      | @ok a b t rel =>
        dsimp only
        by_cases hlt : L.size t < L.size s
        · rw [if_pos hlt,if_pos hlt]
          exact ih (L.size t) (h ▸ hlt) (hinv s a t hs hx)
            (List.rel_append hout (.cons rel .nil)) rfl
        · rw [if_neg hlt,if_neg hlt]
          exact .error _

/-- Two fallible maps along one list. -/
lemma mapM_sim {γ : Type u} {f : γ → Except ε α} {g : γ → Except ε β} {cs : List γ}
    (h : ∀ c ∈ cs, SimResult R P (f c) (g c)) :
    SimResult (List.Forall₂ R) P (cs.mapM f) (cs.mapM g) := by
  induction cs with
  | nil => exact .ok .nil
  | cons c cs ih =>
    have hhead := h c (by simp)
    have htail := ih fun d hd => h d (by simp [hd])
    rw [List.mapM_cons,List.mapM_cons]
    generalize f c = x at hhead
    generalize g c = y at hhead
    cases hhead with
    | error e => exact .error e
    | cut y hit => exact .cut _ hit
    | ok rel =>
      generalize cs.mapM f = xs at htail
      generalize cs.mapM g = ys at htail
      cases htail with
      | ok rels => exact .ok (.cons rel rels)
      | error e => exact .error e
      | cut ys hit => exact .cut _ hit

end simulation
end Drain
