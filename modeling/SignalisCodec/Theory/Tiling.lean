import SignalisCodec.Theory.Drain

/-! Tilings of an interval: pieces laid end to end, each with a part of its own inside it. -/
namespace Tiling

universe u
variable {ε σ α : Type u}

/-- The pieces cover the interval from `lo` to `hi` in order; `P` says what one piece is. -/
inductive Tiles (P : ℕ → α → ℕ → Prop) : ℕ → List α → ℕ → Prop
  | nil (lo : ℕ) : Tiles P lo [] lo
  | cons {lo mid hi : ℕ} {a : α} {as : List α} (first : P lo a mid) (rest : Tiles P mid as hi) :
      Tiles P lo (a :: as) hi

section order
variable {P : ℕ → α → ℕ → Prop} {start stop : α → ℕ} {lo hi : ℕ} {as : List α}

/-- The part of every piece lies inside it. -/
def Inside (P : ℕ → α → ℕ → Prop) (start stop : α → ℕ) : Prop :=
  ∀ lo a hi, P lo a hi → lo ≤ start a ∧ start a ≤ stop a ∧ stop a ≤ hi

lemma Tiles.bounds (hP : Inside P start stop) (h : Tiles P lo as hi) :
    lo ≤ hi ∧ ∀ a ∈ as, lo ≤ start a ∧ stop a ≤ hi := by
  induction h with
  | nil lo => exact ⟨Nat.le_refl lo,by simp⟩
  | @cons lo mid hi a as first rest ih =>
    obtain ⟨hstart,hpart,hstop⟩ := hP _ _ _ first
    obtain ⟨hle,hrest⟩ := ih
    refine ⟨by omega,?_⟩
    intro b hb
    rcases List.mem_cons.mp hb with rfl | hb
    · exact ⟨hstart,by omega⟩
    · have := hrest b hb
      omega

/-- Such parts follow one another without overlapping. -/
theorem Tiles.pairwise (hP : Inside P start stop) (h : Tiles P lo as hi) :
    as.Pairwise fun a b => stop a ≤ start b := by
  induction h with
  | nil lo => exact .nil
  | @cons lo mid hi a as first rest ih =>
    refine .cons ?_ ih
    intro b hb
    exact Nat.le_trans (hP _ _ _ first).2.2 ((rest.bounds hP).2 b hb).1

/-- The parts of two different pieces lie apart. -/
lemma Tiles.apart (hP : Inside P start stop) (h : Tiles P lo as hi) {a b : α} (ha : a ∈ as)
    (hb : b ∈ as) (hne : a ≠ b) : stop a ≤ start b ∨ stop b ≤ start a := by
  induction h with
  | nil lo => cases ha
  | @cons lo mid hi c as first rest ih =>
    have hbehind : ∀ d ∈ as, stop c ≤ start d := fun d hd =>
      Nat.le_trans (hP _ _ _ first).2.2 ((rest.bounds hP).2 d hd).1
    rcases List.mem_cons.mp ha with rfl | ha'
    · rcases List.mem_cons.mp hb with rfl | hb'
      · exact absurd rfl hne
      · exact .inl (hbehind b hb')
    · rcases List.mem_cons.mp hb with rfl | hb'
      · exact .inr (hbehind a ha')
      · exact ih ha' hb'

end order

section steps
open Drain
variable {L : Loop ε σ} {body : EStateM ε σ α} {Inv : σ → Prop} {place : σ → ℕ}
  {P : ℕ → α → ℕ → Prop}

/-- A loop each of whose steps lays one piece tiles what it passes over. -/
theorem tiles_of_steps
    (hstep : ∀ s a s', Inv s → body s = .ok a s' → Inv s' ∧ P (place s) a (place s'))
    {s s' : σ} {as : List α} (h : Steps L body s as s') (hs : Inv s) :
    Tiles P (place s) as (place s') := by
  induction h with
  | refl s => exact .nil _
  | head running first tail ih =>
    obtain ⟨hinv,hP⟩ := hstep _ _ _ hs first
    exact .cons hP (ih hinv)

end steps
end Tiling
