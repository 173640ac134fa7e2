import Mathlib.Data.List.Forall2
import Mathlib.Tactic.Lemma

/-! Tables stored flat, row after row, and loops that step from the start of one row to the next. -/
namespace Strided

variable {α β : Type*} {k : ℕ}

/-- The values of `i` in `for (; i < length; i += k)`. -/
def startsFrom (k length i : ℕ) : List ℕ :=
  if 0 < k ∧ i < length then i :: startsFrom k length (i + k) else []
termination_by length - i

/-- The cells of a row stand in the table from `i` on. -/
def RowAt (table : List β) (i : ℕ) (cells : List β) : Prop := cells <+: table.drop i

lemma RowAt.getElem? {table cells : List β} {i j : ℕ} {b : β} (h : RowAt table i cells)
    (hj : cells[j]? = some b) : table[i + j]? = some b := by
  obtain ⟨t,ht⟩ := h
  obtain ⟨hlt,-⟩ := List.getElem?_eq_some_iff.mp hj
  rw [← List.getElem?_drop,← ht,List.getElem?_append_left hlt]
  exact hj

/-- Behind a prefix, the loop visits the rows in order. -/
lemma rows_from {row : α → List β} (hk : 0 < k) (hrow : ∀ a, (row a).length = k) (as : List α)
    (pre : List β) :
    List.Forall₂ (fun i a => RowAt (pre ++ as.flatMap row) i (row a))
      (startsFrom k (pre ++ as.flatMap row).length pre.length) as := by
  induction as generalizing pre with
  | nil =>
    rw [startsFrom,if_neg (by simp)]
    exact .nil
  | cons a as ih =>
    have hstep := ih (pre ++ row a)
    have htable : pre ++ row a ++ as.flatMap row = pre ++ (a :: as).flatMap row := by
      rw [List.append_assoc,List.flatMap_cons]
    have hlen : (pre ++ row a).length = pre.length + k := by rw [List.length_append,hrow]
    rw [htable,hlen] at hstep
    rw [startsFrom,if_pos]
    · refine .cons ?_ hstep
      rw [RowAt,List.drop_left,List.flatMap_cons]
      exact List.prefix_append _ _
    · refine ⟨hk,?_⟩
      rw [List.length_append,List.flatMap_cons,List.length_append,hrow]
      omega

/-- The loop over a flat table visits the rows in order. -/
theorem rows_at {row : α → List β} (hk : 0 < k) (hrow : ∀ a, (row a).length = k) (as : List α) :
    List.Forall₂ (fun i a => RowAt (as.flatMap row) i (row a))
      (startsFrom k (as.flatMap row).length 0) as :=
  rows_from hk hrow as []

/-- A table of whole rows of one length is a list of such rows. -/
theorem exists_rows (hk : 0 < k) {table : List β} (h : table.length % k = 0) :
    ∃ rows : List {row : List β // row.length = k}, rows.flatMap Subtype.val = table := by
  induction hn : table.length using Nat.strongRecOn generalizing table with
  | ind n ih =>
    by_cases hnil : table = []
    · exact ⟨[],hnil.symm⟩
    · have hpos : 0 < table.length := List.length_pos_iff.mpr hnil
      have hle : k ≤ table.length := Nat.le_of_dvd hpos (Nat.dvd_of_mod_eq_zero h)
      have hrest : (table.drop k).length = table.length - k := List.length_drop
      have hmod : (table.drop k).length % k = 0 := by
        rw [hrest,← Nat.mod_eq_sub_mod hle,h]
      obtain ⟨rows,hrows⟩ := ih (table.length - k) (by omega) hmod hrest
      refine ⟨⟨table.take k,List.length_take_of_le hle⟩ :: rows,?_⟩
      rw [List.flatMap_cons,hrows]
      exact List.take_append_drop k table

lemma length_flatMap_rows {row : α → List β} (hrow : ∀ a, (row a).length = k) (as : List α) :
    (as.flatMap row).length = as.length * k := by
  simp [List.length_flatMap,hrow]

end Strided
