import Mathlib.Data.List.Basic

/-! Unique decodability: messages over a code none of whose words is empty or begins another. -/
namespace PrefixCode

variable {α β : Type*}

/-- No word of the code is empty, and a word is delimited by itself whatever follows it. -/
structure SelfDelimiting (code : α → List β) : Prop where
  ne_nil : ∀ a, code a ≠ []
  delimited : ∀ {a b s t}, code a ++ s = code b ++ t → a = b

variable {code : α → List β}

lemma SelfDelimiting.rest_eq (h : SelfDelimiting code) {a b : α} {s t : List β}
    (heq : code a ++ s = code b ++ t) : s = t := by
  obtain rfl := h.delimited heq
  exact List.append_cancel_left heq

/-- A message is a prefix of another exactly as a list of words, so the division is unique. -/
theorem SelfDelimiting.flatMap_injective (h : SelfDelimiting code) :
    Function.Injective (List.flatMap code) := by
  intro as bs heq
  induction as generalizing bs with
  | nil =>
    cases bs with
    | nil => rfl
    | cons b bs =>
      have := h.ne_nil b
      simp_all
  | cons a as ih =>
    cases bs with
    | nil =>
      have := h.ne_nil a
      simp_all
    | cons b bs =>
      simp only [List.flatMap_cons] at heq
      obtain rfl := h.delimited heq
      rw [ih (List.append_cancel_left heq)]

/-- Two divisions of what begins one string agree as far as the shorter goes. -/
theorem SelfDelimiting.align (h : SelfDelimiting code) {as bs : List α} {s t : List β}
    (heq : as.flatMap code ++ s = bs.flatMap code ++ t) :
    (∃ cs, bs = as ++ cs ∧ s = cs.flatMap code ++ t) ∨
      ∃ cs, as = bs ++ cs ∧ t = cs.flatMap code ++ s := by
  induction as generalizing bs with
  | nil => exact .inl ⟨bs,rfl,heq⟩
  | cons a as ih =>
    cases bs with
    | nil => exact .inr ⟨a :: as,rfl,heq.symm⟩
    | cons b bs =>
      simp only [List.flatMap_cons,List.append_assoc] at heq
      obtain rfl := h.delimited heq
      rcases ih (h.rest_eq heq) with ⟨cs,rfl,hs⟩ | ⟨cs,rfl,ht⟩
      · exact .inl ⟨cs,rfl,hs⟩
      · exact .inr ⟨cs,rfl,ht⟩

/-- The words standing at the front of a message are words of its division. -/
theorem SelfDelimiting.mem_of_flatMap_eq (h : SelfDelimiting code) {as bs : List α} {b : α}
    {t : List β} (heq : as.flatMap code = bs.flatMap code ++ (code b ++ t)) : b ∈ as := by
  have hwhole : as.flatMap code ++ [] = bs.flatMap code ++ (code b ++ t) := by
    rw [List.append_nil,heq]
  rcases h.align hwhole with ⟨cs,rfl,hnil⟩ | ⟨cs,rfl,hrest⟩
  · have hempty := List.append_eq_nil_iff.mp (List.append_eq_nil_iff.mp hnil.symm).2
    exact absurd hempty.1 (h.ne_nil b)
  · cases cs with
    | nil =>
      have hempty := List.append_eq_nil_iff.mp hrest
      exact absurd hempty.1 (h.ne_nil b)
    | cons c cs =>
      simp only [List.flatMap_cons,List.append_assoc] at hrest
      obtain rfl := h.delimited hrest
      simp

end PrefixCode
