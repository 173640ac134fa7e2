import Mathlib.Data.List.Basic

/-! Shortest encodings: a string that is no longer than another, and as long only if the two are
equal. Concatenation keeps this. -/
namespace Shortest

variable {α β : Type*}

structure Shortens (u v : List β) : Prop where
  length_le : u.length ≤ v.length
  eq_of_length : v.length ≤ u.length → u = v

namespace Shortens

lemma refl (u : List β) : Shortens u u := ⟨Nat.le_refl _,fun _ => rfl⟩

lemma append {u u' v v' : List β} (h : Shortens u v) (h' : Shortens u' v') :
    Shortens (u ++ u') (v ++ v') := by
  have hle := h.length_le
  have hle' := h'.length_le
  refine ⟨?_,?_⟩
  · rw [List.length_append,List.length_append]
    omega
  · intro hlen
    rw [List.length_append,List.length_append] at hlen
    rw [h.eq_of_length (by omega),h'.eq_of_length (by omega)]

/-- Replacing every word of a message by a shortest one gives a shortest message. -/
theorem flatMap {f g : α → List β} {as : List α} (h : ∀ a ∈ as, Shortens (f a) (g a)) :
    Shortens (as.flatMap f) (as.flatMap g) := by
  induction as with
  | nil => exact refl []
  | cons a as ih =>
    rw [List.flatMap_cons,List.flatMap_cons]
    exact append (h a (by simp)) (ih fun b hb => h b (by simp [hb]))

end Shortens
end Shortest
