import Mathlib.Algebra.Order.BigOperators.Group.List
import Mathlib.Algebra.Order.Ring.Nat
import Mathlib.Tactic.Lemma

/-! Entries with a level and a weight, where every level weighs less than the one above it by a
toll for each of its entries: the weight of each level, and the number of all entries. -/
namespace Levels

universe u
variable {τ : Type u} (level weight : τ → ℕ)

/-- The weight of the entries at one level. -/
def total (d : ℕ) (entries : List τ) : ℕ :=
  (entries.map fun t => if level t = d then weight t else 0).sum

/-- The weight of the entries below a level. -/
def below (n : ℕ) (entries : List τ) : ℕ :=
  (entries.map fun t => if level t < n then weight t else 0).sum

/-- The number of entries at one level. -/
def count (d : ℕ) (entries : List τ) : ℕ := total level (fun _ => 1) d entries

variable {level weight}

@[simp] lemma total_append (d : ℕ) (l l' : List τ) :
    total level weight d (l ++ l') = total level weight d l + total level weight d l' := by
  simp [total]

@[simp] lemma count_append (d : ℕ) (l l' : List τ) :
    count level d (l ++ l') = count level d l + count level d l' := total_append d l l'

lemma total_singleton (t : τ) (d : ℕ) :
    total level weight d [t] = if level t = d then weight t else 0 := by
  simp [total]

lemma count_singleton (t : τ) (d : ℕ) : count level d [t] = if level t = d then 1 else 0 :=
  total_singleton t d

@[simp] lemma below_zero (l : List τ) : below level weight 0 l = 0 := by
  simp [below]

lemma below_succ (n : ℕ) (l : List τ) :
    below level weight (n + 1) l = below level weight n l + total level weight n l := by
  induction l with
  | nil => rfl
  | cons t l ih =>
    simp only [below,total,List.map_cons,List.sum_cons] at ih ⊢
    rw [ih]
    split_ifs <;> omega

lemma count_pos_of_mem {t : τ} {l : List τ} (h : t ∈ l) : 0 < count level (level t) l := by
  obtain ⟨l₁,l₂,rfl⟩ := List.append_of_mem h
  rw [← List.singleton_append,count_append,count_append,count_singleton,if_pos rfl]
  omega

lemma weight_le_total {t : τ} {l : List τ} (h : t ∈ l) :
    weight t ≤ total level weight (level t) l := by
  obtain ⟨l₁,l₂,rfl⟩ := List.append_of_mem h
  rw [← List.singleton_append,total_append,total_append,total_singleton,if_pos rfl]
  omega

/-- Below a level above all entries are all entries. -/
lemma below_eq_sum {n : ℕ} {l : List τ} (h : ∀ t ∈ l, level t < n) :
    below level weight n l = (l.map weight).sum :=
  congrArg List.sum (List.map_congr_left fun t ht => if_pos (h t ht))

lemma length_eq_below {n : ℕ} {l : List τ} (h : ∀ t ∈ l, level t < n) :
    l.length = below level (fun _ => 1) n l := by
  rw [below_eq_sum h]
  simp

lemma below_le_sum (n : ℕ) (l : List τ) : below level weight n l ≤ (l.map weight).sum := by
  refine List.sum_le_sum fun t _ => ?_
  split_ifs
  · exact le_rfl
  · exact Nat.zero_le _

/-- Nothing weighs where nothing is. -/
lemma total_eq_zero {d : ℕ} {l : List τ} (h : count level d l = 0) :
    total level weight d l = 0 := by
  induction l with
  | nil => rfl
  | cons t l ih =>
    simp only [count,total,List.map_cons,List.sum_cons] at h ih ⊢
    split_ifs at h ⊢ with hlevel
    · omega
    · simpa using ih (by simpa using h)

/-- Each level weighs no more than the one above it, less a toll for each of its entries. -/
def Shrinks (level weight : τ → ℕ) (toll start : ℕ) (l : List τ) : Prop :=
  ∀ d, start ≤ d →
    total level weight (d + 1) l + toll * count level (d + 1) l ≤ total level weight d l

namespace Shrinks
variable {toll : ℕ} {l : List τ}

/-- All tolls down to a level are paid out of the weight at the top. -/
lemma total_add_tolls_le (h : Shrinks level weight toll 0 l) (d : ℕ) :
    total level weight d l + toll * below level (fun _ => 1) (d + 1) l ≤
      total level weight 0 l + toll * count level 0 l := by
  induction d with
  | zero =>
    rw [below_succ,below_zero,Nat.zero_add]
    exact le_rfl
  | succ d ih =>
    have hstep := h d (Nat.zero_le d)
    rw [below_succ,Nat.mul_add]
    change _ + (_ + toll * count level (d + 1) l) ≤ _
    omega

lemma total_le (h : Shrinks level weight toll 0 l) (d : ℕ) :
    total level weight d l ≤ total level weight 0 l := by
  induction d with
  | zero => exact le_rfl
  | succ d ih =>
    have hstep := h d (Nat.zero_le d)
    omega

/-- The number of all entries. -/
theorem length_le (h : Shrinks level weight toll 0 l) :
    toll * l.length ≤ total level weight 0 l + toll * count level 0 l := by
  obtain ⟨n,hn⟩ : ∃ n, ∀ t ∈ l, level t < n + 1 := by
    refine ⟨(l.map level).sum,fun t ht => Nat.lt_succ_of_le ?_⟩
    exact List.single_le_sum (fun _ _ => Nat.zero_le _) _ (List.mem_map_of_mem ht)
  have htolls := h.total_add_tolls_le n
  rw [length_eq_below hn]
  omega

/-- The weight of the first levels together. -/
theorem below_le (h : Shrinks level weight toll 0 l) (n : ℕ) :
    below level weight n l ≤ n * total level weight 0 l := by
  induction n with
  | zero => simp
  | succ n ih =>
    have hle := h.total_le n
    rw [below_succ,Nat.succ_mul]
    omega

/-- A level that is reached at all has paid the toll of every level above it. -/
theorem total_add_toll_mul_le (h : Shrinks level weight toll 0 l) {d : ℕ}
    (hd : 0 < count level d l) :
    total level weight d l + toll * d ≤ total level weight 0 l := by
  induction d with
  | zero => exact le_rfl
  | succ d ih =>
    have hstep := h d (Nat.zero_le d)
    have htoll : toll * 1 ≤ toll * count level (d + 1) l := Nat.mul_le_mul_left toll hd
    rcases Nat.eq_zero_or_pos (count level d l) with hnone | hsome
    · have hzero : total level weight d l = 0 := total_eq_zero hnone
      obtain rfl : toll = 0 := by omega
      omega
    · have := ih hsome
      rw [Nat.mul_succ]
      omega

end Shrinks
end Levels
