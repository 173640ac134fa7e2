import Mathlib.Data.List.Forall2
import Mathlib.Tactic.Lemma

/-! Lists related element by element: partners of elements, and what folds, searches and fallible
maps along one list say about the other. -/
namespace Pairing

universe u
variable {ε α β γ δ : Type u} {R : α → β → Prop} {as : List α} {bs : List β}

/-- In two lists related element by element, every element has a partner. -/
lemma forall₂_mem_left (h : List.Forall₂ R as bs) {a : α} (ha : a ∈ as) : ∃ b ∈ bs, R a b := by
  induction h with
  | nil => cases ha
  | @cons a' b' as bs hab hrest ih =>
    rcases List.mem_cons.mp ha with rfl | ha
    · exact ⟨b',by simp,hab⟩
    · obtain ⟨b,hb,hr⟩ := ih ha
      exact ⟨b,by simp [hb],hr⟩

lemma forall₂_mem_right (h : List.Forall₂ R as bs) {b : β} (hb : b ∈ bs) : ∃ a ∈ as, R a b :=
  forall₂_mem_left h.flip hb

lemma forall₂_comp {S : β → γ → Prop} {T : α → γ → Prop} {cs : List γ}
    (hT : ∀ a b c, R a b → S b c → T a c) (h : List.Forall₂ R as bs) (h' : List.Forall₂ S bs cs) :
    List.Forall₂ T as cs := by
  induction h generalizing cs with
  | nil =>
    cases h'
    exact .nil
  | cons hab _ ih =>
    cases h' with
    | cons hbc hrest => exact .cons (hT _ _ _ hab hbc) (ih hrest)

lemma forall₂_getElem? (h : List.Forall₂ R as bs) (i : ℕ) : Option.Rel R as[i]? bs[i]? := by
  induction h generalizing i with
  | nil => exact .none
  | cons hab _ ih =>
    cases i with
    | zero => exact .some hab
    | succ i => exact ih i

/-- Maps that agree on related elements have the same results along the two lists. -/
lemma map_eq_of_forall₂ (h : List.Forall₂ R as bs) {f : α → γ} {g : β → γ}
    (hfg : ∀ a b, R a b → f a = g b) : as.map f = bs.map g := by
  induction h with
  | nil => rfl
  | cons hr _ ih => rw [List.map_cons,List.map_cons,hfg _ _ hr,ih]

/-- Accumulating along one list is accumulating along the other. -/
lemma foldl_eq_of_forall₂ (h : List.Forall₂ R as bs) {f : γ → α → γ} {g : γ → β → γ}
    (hfg : ∀ c a b, R a b → f c a = g c b) (c : γ) : as.foldl f c = bs.foldl g c := by
  induction h generalizing c with
  | nil => rfl
  | cons hr _ ih => rw [List.foldl_cons,List.foldl_cons,hfg _ _ _ hr,ih]

/-- A search along one list stops where the search along the other stops. -/
lemma find?_rel_of_forall₂ (h : List.Forall₂ R as bs) {p : α → Bool} {q : β → Bool}
    (hpq : ∀ a b, R a b → p a = q b) : Option.Rel R (as.find? p) (bs.find? q) := by
  induction h with
  | nil => exact .none
  | @cons a b as bs hr _ ih =>
    rw [List.find?_cons,List.find?_cons,hpq a b hr]
    cases q b with
    | true => exact .some hr
    | false => exact ih

end Pairing
