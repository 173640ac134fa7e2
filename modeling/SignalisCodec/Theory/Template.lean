import Mathlib.Data.List.Infix
import Mathlib.Data.Nat.Notation
import Mathlib.Tactic.Lemma

/-! Texts with numbers in them: fixed wording, each piece of it followed by a number in decimal.
Such a text gives its numbers back if no later piece of wording starts with a digit. -/
namespace Template

/-- Pieces of wording, each with the number after it. -/
abbrev Filled := List (String × ℕ)

def render : Filled → String
  | [] => ""
  | (words,n) :: rest => words ++ (n.repr ++ render rest)

@[simp] lemma toList_render_cons (words : String) (n : ℕ) (t : Filled) :
    (render ((words,n) :: t)).toList =
      words.toList ++ (Nat.toDigits 10 n ++ (render t).toList) := by
  simp [render]

/-- Nothing that could be read as more digits of a number in front. -/
def Breaks (s : List Char) : Prop := ∀ c ∈ s.head?, c.isDigit = false

/-- A piece of wording that ends the number before it. -/
def Separates (words : String) : Prop :=
  words.toList.head?.any (fun c => !c.isDigit) = true

/-- Forms of texts that tell each other apart by their first words, and their numbers by the words
between. -/
def Unambiguous (forms : List (List String)) : Prop :=
  ∀ f ∈ forms, (∀ words ∈ f.tail, Separates words) ∧
    ∀ g ∈ forms, (f.headD "").toList <+: (g.headD "").toList → f = g

instance (words : String) : Decidable (Separates words) :=
  inferInstanceAs (Decidable (_ = true))

instance (forms : List (List String)) : Decidable (Unambiguous forms) :=
  inferInstanceAs (Decidable (∀ f ∈ forms, _ ∧ _))

section digits
variable {n m : ℕ} {s t : List Char}

lemma takeWhile_toDigits (hs : Breaks s) :
    (Nat.toDigits 10 n ++ s).takeWhile Char.isDigit = Nat.toDigits 10 n := by
  have hdigits : ∀ c ∈ Nat.toDigits 10 n, c.isDigit = true := fun c hc =>
    Nat.isDigit_of_mem_toDigits (by decide) (by decide) hc
  rw [List.takeWhile_append_of_pos hdigits]
  cases s with
  | nil => simp
  | cons c s => simp [hs c rfl]

lemma toDigits_injective (h : Nat.toDigits 10 n = Nat.toDigits 10 m) : n = m := by
  have hvalue := congrArg (fun digits => Nat.ofDigitChars 10 digits 0) h
  simpa using hvalue

/-- A number ends where its digits do. -/
lemma toDigits_append_inj (hs : Breaks s) (ht : Breaks t)
    (h : Nat.toDigits 10 n ++ s = Nat.toDigits 10 m ++ t) : n = m ∧ s = t := by
  have hdigits : Nat.toDigits 10 n = Nat.toDigits 10 m := by
    calc
      Nat.toDigits 10 n = (Nat.toDigits 10 n ++ s).takeWhile Char.isDigit :=
        (takeWhile_toDigits hs).symm
      _ = (Nat.toDigits 10 m ++ t).takeWhile Char.isDigit := by rw [h]
      _ = Nat.toDigits 10 m := takeWhile_toDigits ht
  rw [hdigits] at h
  exact ⟨toDigits_injective hdigits,List.append_cancel_left h⟩

end digits

lemma breaks_of_separates {words : String} {s : List Char} (h : Separates words) :
    Breaks (words.toList ++ s) := by
  unfold Separates at h
  cases hwords : words.toList with
  | nil => simp [hwords] at h
  | cons c cs =>
    rw [hwords] at h
    simpa [Breaks] using h

lemma breaks_render {t : Filled} (h : ∀ words ∈ t.map Prod.fst, Separates words) :
    Breaks (render t).toList := by
  cases t with
  | nil => simp [Breaks,render]
  | cons piece t =>
    rw [toList_render_cons]
    exact breaks_of_separates (h piece.1 List.mem_cons_self)

/-- Two texts of one form carry the same numbers. -/
theorem render_inj {t u : Filled} (hwords : t.map Prod.fst = u.map Prod.fst)
    (hsep : ∀ words ∈ (t.map Prod.fst).tail, Separates words) (h : render t = render u) :
    t = u := by
  induction t generalizing u with
  | nil =>
    cases u with
    | nil => rfl
    | cons piece u => cases hwords
  | cons piece t ih =>
    cases u with
    | nil => cases hwords
    | cons piece' u =>
      obtain ⟨words,n⟩ := piece
      obtain ⟨words',m⟩ := piece'
      obtain ⟨rfl,hrest⟩ := List.cons_eq_cons.mp hwords
      have hsep' : ∀ words ∈ u.map Prod.fst, Separates words := hrest ▸ hsep
      have hlist := congrArg String.toList h
      rw [toList_render_cons,toList_render_cons] at hlist
      obtain ⟨rfl,htail⟩ := toDigits_append_inj (breaks_render hsep) (breaks_render hsep')
        (List.append_cancel_left hlist)
      rw [ih hrest (fun w hw => hsep w (List.mem_of_mem_tail hw)) (String.toList_inj.mp htail)]

/-- Equal texts begin alike. -/
lemma prefix_or_prefix {t u : Filled} (h : render t = render u) :
    ((t.map Prod.fst).headD "").toList <+: ((u.map Prod.fst).headD "").toList ∨
      ((u.map Prod.fst).headD "").toList <+: ((t.map Prod.fst).headD "").toList := by
  rcases t with _ | ⟨⟨words,n⟩,t⟩
  · exact .inl List.nil_prefix
  · rcases u with _ | ⟨⟨words',m⟩,u⟩
    · exact .inr List.nil_prefix
    · have hlist := congrArg String.toList h
      rw [toList_render_cons,toList_render_cons] at hlist
      have hleft : words.toList <+: words'.toList ++ (Nat.toDigits 10 m ++ (render u).toList) :=
        hlist ▸ List.prefix_append _ _
      exact List.prefix_or_prefix_of_prefix hleft (List.prefix_append _ _)

/-- Texts of unambiguous forms give back the form and the numbers. -/
theorem Unambiguous.render_inj {forms : List (List String)} (hforms : Unambiguous forms)
    {t u : Filled} (ht : t.map Prod.fst ∈ forms) (hu : u.map Prod.fst ∈ forms)
    (h : render t = render u) : t = u := by
  obtain ⟨hsep,hheads⟩ := hforms _ ht
  have hform : t.map Prod.fst = u.map Prod.fst := by
    rcases prefix_or_prefix h with hpre | hpre
    · exact hheads _ hu hpre
    · exact ((hforms _ hu).2 _ ht hpre).symm
  exact Template.render_inj hform hsep h

end Template
