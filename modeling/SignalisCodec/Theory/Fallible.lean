import Mathlib.Tactic.Lemma

/-! Running fallible stateful computations step by step. -/
namespace Fallible

universe u
variable {ε σ α β : Type u}

@[simp] lemma pure_apply (a : α) (s : σ) : (pure a : EStateM ε σ α) s = .ok a s := rfl

@[simp] lemma get_apply (s : σ) : (get : EStateM ε σ σ) s = .ok s s := rfl

lemma bind_ok {x : EStateM ε σ α} {s s' : σ} {a : α} (h : x s = .ok a s')
    (f : α → EStateM ε σ β) : (x >>= f) s = f a s' := by
  change EStateM.bind x f s = _
  rw [EStateM.bind,h]

lemma bind_error {x : EStateM ε σ α} {s s' : σ} {e : ε} (h : x s = .error e s')
    (f : α → EStateM ε σ β) : (x >>= f) s = .error e s' := by
  change EStateM.bind x f s = _
  rw [EStateM.bind,h]

/-- A sequence succeeds when both its parts do. -/
lemma bind_eq_ok_iff {x : EStateM ε σ α} {f : α → EStateM ε σ β} {s s'' : σ} {b : β} :
    (x >>= f) s = .ok b s'' ↔ ∃ a s', x s = .ok a s' ∧ f a s' = .ok b s'' := by
  constructor
  · intro h
    cases hx : x s with
    | ok a s' => exact ⟨a,s',rfl,by rwa [bind_ok hx] at h⟩
    | error e s' =>
      rw [bind_error hx] at h
      cases h
  · rintro ⟨a,s',hx,hf⟩
    rwa [bind_ok hx]

/-- A sequence fails when its first part does, or the second after the first succeeded. -/
lemma bind_eq_error_iff {x : EStateM ε σ α} {f : α → EStateM ε σ β} {s s'' : σ} {e : ε} :
    (x >>= f) s = .error e s'' ↔
      x s = .error e s'' ∨ ∃ a s', x s = .ok a s' ∧ f a s' = .error e s'' := by
  constructor
  · intro h
    cases hx : x s with
    | ok a s' => exact .inr ⟨a,s',rfl,by rwa [bind_ok hx] at h⟩
    | error e' s' =>
      rw [bind_error hx] at h
      cases h
      exact .inl rfl
  · rintro (hx | ⟨a,s',hx,hf⟩)
    · exact bind_error hx f
    · rwa [bind_ok hx]

lemma map_ok {x : EStateM ε σ α} {s s' : σ} {a : α} (h : x s = .ok a s') (g : α → β) :
    (g <$> x) s = .ok (g a) s' := by
  change EStateM.map g x s = _
  rw [EStateM.map,h]

lemma map_error {x : EStateM ε σ α} {s s' : σ} {e : ε} (h : x s = .error e s') (g : α → β) :
    (g <$> x) s = .error e s' := by
  change EStateM.map g x s = _
  rw [EStateM.map,h]

lemma map_eq_ok_iff {x : EStateM ε σ α} {g : α → β} {s s' : σ} {b : β} :
    (g <$> x) s = .ok b s' ↔ ∃ a, x s = .ok a s' ∧ g a = b := by
  constructor
  · intro h
    cases hx : x s with
    | ok a s₁ =>
      rw [map_ok hx] at h
      cases h
      exact ⟨a,rfl,rfl⟩
    | error e s₁ =>
      rw [map_error hx] at h
      cases h
  · rintro ⟨a,hx,rfl⟩
    exact map_ok hx g

lemma map_eq_error_iff {x : EStateM ε σ α} {g : α → β} {s s' : σ} {e : ε} :
    (g <$> x) s = .error e s' ↔ x s = .error e s' := by
  refine ⟨?_,fun hx => map_error hx g⟩
  intro h
  cases hx : x s with
  | ok a s₁ =>
    rw [map_ok hx] at h
    cases h
  | error e' s₁ =>
    rw [map_error hx] at h
    cases h
    rfl

lemma map_congr_apply {x y : EStateM ε σ α} {s : σ} (h : x s = y s) (g : α → β) :
    (g <$> x) s = (g <$> y) s := by
  change EStateM.map g x s = EStateM.map g y s
  rw [EStateM.map,EStateM.map,h]

end Fallible
