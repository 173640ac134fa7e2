import Mathlib.Data.Finset.Insert
import Mathlib.Data.List.Basic
import Mathlib.Tactic.Lemma

/-! Collecting the distinct elements of a list in the order they are first seen. -/
namespace FirstSeen

variable {α : Type*} [DecidableEq α]

/-- Remember an element and push it, unless it was seen before. -/
def see (acc : Finset α × List α) (a : α) : Finset α × List α :=
  if a ∈ acc.1 then acc else (insert a acc.1,acc.2 ++ [a])

def collect (as : List α) : List α := (as.foldl see (∅,[])).2

/-- What is remembered is what was passed. -/
lemma mem_seen (as : List α) (a : α) : a ∈ (as.foldl see (∅,[])).1 ↔ a ∈ as := by
  induction as using List.reverseRecOn with
  | nil => simp
  | append_singleton as b ih =>
    rw [List.foldl_append,List.foldl_cons,List.foldl_nil,see]
    by_cases hb : b ∈ (as.foldl see (∅,[])).1
    · rw [if_pos hb,ih,List.mem_append,List.mem_singleton]
      constructor
      · exact Or.inl
      · intro h
        rcases h with h | rfl
        · exact h
        · exact ih.mp hb
    · rw [if_neg hb,Finset.mem_insert,ih,List.mem_append,List.mem_singleton,or_comm]

theorem collect_concat (as : List α) (a : α) :
    collect (as ++ [a]) = if a ∈ as then collect as else collect as ++ [a] := by
  rw [collect,List.foldl_append,List.foldl_cons,List.foldl_nil,see]
  simp only [mem_seen]
  split <;> rfl

theorem mem_collect (as : List α) (a : α) : a ∈ collect as ↔ a ∈ as := by
  induction as using List.reverseRecOn with
  | nil => exact Iff.rfl
  | append_singleton as b ih =>
    rw [collect_concat]
    by_cases hb : b ∈ as
    · rw [if_pos hb,ih,List.mem_append,List.mem_singleton]
      constructor
      · exact Or.inl
      · intro h
        rcases h with h | rfl
        · exact h
        · exact hb
    · rw [if_neg hb,List.mem_append,List.mem_append,ih]

/-- Elements are collected once, in the order of their first positions. -/
theorem collect_pairwise (as : List α) :
    (collect as).Pairwise fun a b => as.idxOf a < as.idxOf b := by
  induction as using List.reverseRecOn with
  | nil => exact .nil
  | append_singleton as b ih =>
    have hkeep : (collect as).Pairwise fun x y => (as ++ [b]).idxOf x < (as ++ [b]).idxOf y := by
      apply ih.imp_of_mem
      intro x y hx hy h
      rwa [List.idxOf_append_of_mem ((mem_collect as x).mp hx),
        List.idxOf_append_of_mem ((mem_collect as y).mp hy)]
    rw [collect_concat]
    by_cases hb : b ∈ as
    · rw [if_pos hb]
      exact hkeep
    · rw [if_neg hb,List.pairwise_append]
      refine ⟨hkeep,List.pairwise_singleton _ _,?_⟩
      intro x hx y hy
      obtain rfl := List.mem_singleton.mp hy
      have hx' := (mem_collect as x).mp hx
      rw [List.idxOf_append_of_mem hx',List.idxOf_append,if_neg hb,List.idxOf_cons_self]
      have := List.idxOf_lt_length_of_mem hx'
      omega

theorem collect_nodup (as : List α) : (collect as).Nodup := by
  apply (collect_pairwise as).imp
  intro a b hlt heq
  rw [heq] at hlt
  exact Nat.lt_irrefl _ hlt

/-- Of what follows, the elements that are new are collected. -/
theorem collect_append (as bs : List α) :
    collect (as ++ bs) = collect as ++ (collect bs).filter fun b => b ∉ as := by
  induction bs using List.reverseRecOn with
  | nil => simp [collect]
  | append_singleton bs b ih =>
    rw [← List.append_assoc,collect_concat,collect_concat,ih]
    by_cases ha : b ∈ as
    · by_cases hb : b ∈ bs
      · simp [ha,hb]
      · simp [ha,hb,List.filter_append]
    · by_cases hb : b ∈ bs
      · simp [ha,hb]
      · simp [ha,hb,List.filter_append]

end FirstSeen
