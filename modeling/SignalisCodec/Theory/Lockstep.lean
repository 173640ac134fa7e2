import SignalisCodec.Theory.Drain
import SignalisCodec.Theory.Fallible

/-! Two runs of a fallible stateful computation side by side, from states related by `E`: the
second returns what the first returns, and fails as the first fails where the error persists. -/
namespace Lockstep
open Drain Fallible

universe u
variable {ε σ α β : Type u}

inductive Follows (E : σ → σ → Prop) (P : ε → Prop) :
    EStateM.Result ε σ α → EStateM.Result ε σ α → Prop
  | ok (a : α) {s t : σ} (rel : E s t) : Follows E P (.ok a s) (.ok a t)
  | error (e : ε) (s t : σ) : Follows E P (.error e s) (.error e t)
  | cured {e : ε} (s : σ) (y : EStateM.Result ε σ α) (h : ¬ P e) : Follows E P (.error e s) y

section rules
variable {E : σ → σ → Prop} {P : ε → Prop} {s t : σ}

/-- Sequences follow step by step. -/
lemma Follows.bind {x y : EStateM ε σ α} {f g : α → EStateM ε σ β} (h : Follows E P (x s) (y t))
    (hf : ∀ a s' t', x s = .ok a s' → E s' t' → Follows E P (f a s') (g a t')) :
    Follows E P ((x >>= f) s) ((y >>= g) t) := by
  generalize hx : x s = rx at h
  generalize hy : y t = ry at h
  cases h with
  | ok a rel =>
    rw [bind_ok hx,bind_ok hy]
    exact hf a _ _ hx rel
  | error e s' t' =>
    rw [bind_error hx,bind_error hy]
    exact .error e s' t'
  | cured s' y' hcured =>
    rw [bind_error hx]
    exact .cured s' _ hcured

lemma Follows.map {x y : EStateM ε σ α} (h : Follows E P (x s) (y t)) (f : α → β) :
    Follows E P ((f <$> x) s) ((f <$> y) t) := by
  generalize hx : x s = rx at h
  generalize hy : y t = ry at h
  cases h with
  | ok a rel =>
    rw [map_ok hx,map_ok hy]
    exact .ok (f a) rel
  | error e s' t' =>
    rw [map_error hx,map_error hy]
    exact .error e s' t'
  | cured s' y' hcured =>
    rw [map_error hx]
    exact .cured s' _ hcured

lemma Follows.of_error {x y : EStateM ε σ α} {e : ε} {s' : σ} (h : Follows E P (x s) (y t))
    (hx : x s = .error e s') (he : P e) : ∃ t', y t = .error e t' := by
  rw [hx] at h
  generalize y t = ry at h
  cases h with
  | error e s' t' => exact ⟨t',rfl⟩
  | cured s' y' hcured => exact absurd he hcured

end rules

section loops
variable {L : Loop ε σ} {body : EStateM ε σ α} {E : σ → σ → Prop} {P : ε → Prop}

/-- A run of steps is followed by the same steps. -/
lemma steps_follow
    (hstep : ∀ s t, E s t → L.done s = false →
      L.done t = false ∧ Follows E P (body s) (body t))
    {s s' t : σ} {as : List α} (h : Steps L body s as s') (hE : E s t) :
    ∃ t', Steps L body t as t' ∧ E s' t' := by
  induction h generalizing t with
  | refl s => exact ⟨t,.refl t,hE⟩
  | head running first tail ih =>
    obtain ⟨hrun,hfollow⟩ := hstep _ _ hE running
    rw [first] at hfollow
    generalize hy : body t = ry at hfollow
    cases hfollow with
    | ok a rel =>
      obtain ⟨t',hsteps,hE'⟩ := ih rel
      exact ⟨t',.head hrun hy hsteps,hE'⟩

/-- A loop that ends with an error that persists fails so in the second run too. -/
theorem drain_follows (hprogress : Progress L body)
    (hstep : ∀ s t, E s t → L.done s = false →
      L.done t = false ∧ Follows E P (body s) (body t))
    {s t : σ} (hE : E s t) {e : ε} (h : drain L body s [] = .error e) (he : P e) :
    drain L body t [] = .error e := by
  obtain ⟨as,s',s'',hsteps,hrun,hbody⟩ := (drain_error_iff hprogress s e).mp h
  obtain ⟨t',hsteps',hE'⟩ := steps_follow hstep hsteps hE
  obtain ⟨hrun',hfollow⟩ := hstep s' t' hE' hrun
  obtain ⟨t'',hbody'⟩ := hfollow.of_error hbody he
  exact (drain_error_iff hprogress t e).mpr ⟨as,t',t'',hsteps',hrun',hbody'⟩

end loops
end Lockstep
