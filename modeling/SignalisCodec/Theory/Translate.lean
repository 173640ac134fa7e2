import SignalisCodec.Theory.Drain
import SignalisCodec.Theory.Fallible

/-! Two fallible stateful computations that run alike on related states: related values, and errors
that are translated as well. -/
namespace Translate
open Drain Fallible

universe u
variable {ε η σ τ α β γ δ : Type u}

/-- Both succeed with related values in related states, or both fail with related errors. -/
inductive Translates (E : σ → τ → Prop) (R : α → β → Prop) (G : ε → η → Prop) :
    EStateM.Result ε σ α → EStateM.Result η τ β → Prop
  | ok {a : α} {b : β} {s : σ} {t : τ} (val : R a b) (rel : E s t) :
    Translates E R G (.ok a s) (.ok b t)
  | error {e : ε} {f : η} (err : G e f) (s : σ) (t : τ) : Translates E R G (.error e s) (.error f t)

/-- The same for complete results. -/
inductive TranslatesResult (R : α → β → Prop) (G : ε → η → Prop) : Except ε α → Except η β → Prop
  | ok {a : α} {b : β} (val : R a b) : TranslatesResult R G (.ok a) (.ok b)
  | error {e : ε} {f : η} (err : G e f) : TranslatesResult R G (.error e) (.error f)

section rules
variable {E : σ → τ → Prop} {R : α → β → Prop} {S : γ → δ → Prop} {G : ε → η → Prop}
  {x : EStateM ε σ α} {y : EStateM η τ β} {s : σ} {t : τ}

lemma Translates.bind {f : α → EStateM ε σ γ} {g : β → EStateM η τ δ}
    (h : Translates E R G (x s) (y t))
    (hf : ∀ a b s' t', R a b → E s' t' → Translates E S G (f a s') (g b t')) :
    Translates E S G ((x >>= f) s) ((y >>= g) t) := by
  generalize hx : x s = rx at h
  generalize hy : y t = ry at h
  cases h with
  | ok val rel =>
    rw [bind_ok hx,bind_ok hy]
    exact hf _ _ _ _ val rel
  | error err s' t' =>
    rw [bind_error hx,bind_error hy]
    exact .error err s' t'

lemma Translates.map {f : α → γ} {g : β → δ} (h : Translates E R G (x s) (y t))
    (hf : ∀ a b, R a b → S (f a) (g b)) : Translates E S G ((f <$> x) s) ((g <$> y) t) := by
  generalize hx : x s = rx at h
  generalize hy : y t = ry at h
  cases h with
  | ok val rel =>
    rw [map_ok hx,map_ok hy]
    exact .ok (hf _ _ val) rel
  | error err s' t' =>
    rw [map_error hx,map_error hy]
    exact .error err s' t'

/-- Two loops whose bodies run alike, and that end together, run alike. -/
theorem drain_translates {L : Loop ε σ} {L' : Loop η τ} (hx : Progress L x) (hy : Progress L' y)
    (hstep : ∀ s t, E s t → L.done s = L'.done t ∧
      (L.done s = false → Translates E R G (x s) (y t)))
    (hE : E s t) {out : List α} {out' : List β} (hout : List.Forall₂ R out out') :
    TranslatesResult (List.Forall₂ R) G (drain L x s out) (drain L' y t out') := by
  induction h : L.size s using Nat.strongRecOn generalizing s t out out' with
  | ind n ih =>
    obtain ⟨hdone,hbody⟩ := hstep s t hE
    cases hd : L.done s with
    | true =>
      rw [drain_done hd,drain_done (hdone ▸ hd)]
      exact .ok hout
    | false =>
      have hd' : L'.done t = false := hdone ▸ hd
      have hbody' := hbody hd
      generalize hxs : x s = rx at hbody'
      generalize hyt : y t = ry at hbody'
      cases hbody' with
      | @ok a b s' t' val rel =>
        rw [drain_step hx hd hxs,drain_step hy hd' hyt]
        exact ih _ (h ▸ hx s a s' hd hxs) rel (List.rel_append hout (.cons val .nil)) rfl
      | error err s' t' =>
        rw [drain_fail hd hxs,drain_fail hd' hyt]
        exact .error err

end rules

section accumulator
variable {L : Loop ε σ} {body : EStateM ε σ α}

/-- What a loop has pushed before stands in front of what it pushes from now on. -/
lemma drain_out (hp : Progress L body) (s : σ) (out : List α) :
    drain L body s out = (out ++ ·) <$> drain L body s [] := by
  obtain ⟨as,s',hs,hd | ⟨hd,e,s'',hb⟩⟩ := steps_or_fail hp s
  · rw [hs.drain_eq hp,hs.drain_eq hp,drain_done hd,drain_done hd]
    rfl
  · rw [hs.drain_eq hp,hs.drain_eq hp,drain_fail hd hb,drain_fail hd hb]
    rfl

end accumulator
end Translate
