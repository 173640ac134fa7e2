import Mathlib.Algebra.BigOperators.Ring.Finset
import Mathlib.Data.List.Basic
import Mathlib.Data.Nat.Bitwise
import Mathlib.Tactic.Ring
import Mathlib.Tactic.NormNum

/-! Base-128 words with continuation bits: their values, how they split a byte string, and the
shortest word of a number. -/
namespace Leb128

/-- The number a byte string denotes, seven bits a byte, least significant first. -/
def value : List UInt8 → ℕ
  | [] => 0
  | b :: w => b.toNat % 128 + 128 * value w

/-- A complete word: the continuation bit on every byte but the last. -/
inductive IsWord : List UInt8 → Prop
  | last {b : UInt8} (h : b.toNat < 128) : IsWord [b]
  | cons {b : UInt8} {w : List UInt8} (h : 128 ≤ b.toNat) (hw : IsWord w) : IsWord (b :: w)

/-- The shortest word of a number. -/
def shortest (n : ℕ) : List UInt8 :=
  if n < 128 then [UInt8.ofNat n] else UInt8.ofNat (n % 128 + 128) :: shortest (n / 128)

@[simp] lemma value_nil : value [] = 0 := rfl

@[simp] lemma value_cons (b : UInt8) (w : List UInt8) :
    value (b :: w) = b.toNat % 128 + 128 * value w := rfl

lemma value_append (u v : List UInt8) :
    value (u ++ v) = value u + 128 ^ u.length * value v := by
  induction u with
  | nil => simp
  | cons b u ih =>
    simp only [List.cons_append,value_cons,ih,List.length_cons,pow_succ]
    ring

lemma value_lt (w : List UInt8) : value w < 128 ^ w.length := by
  induction w with
  | nil => simp
  | cons b w ih =>
    have hb : b.toNat % 128 < 128 := Nat.mod_lt _ (by decide)
    simp only [value_cons,List.length_cons,pow_succ]
    omega

/-- The value as the sum of the groups, each at its own weight. -/
theorem value_eq_sum (w : List UInt8) :
    value w = ∑ i ∈ Finset.range w.length, (w[i]?.getD 0).toNat % 128 * 128 ^ i := by
  induction w with
  | nil => rfl
  | cons b w ih =>
    rw [value_cons,ih,List.length_cons,Finset.sum_range_succ',Finset.mul_sum,Nat.add_comm]
    congr 1
    · apply Finset.sum_congr rfl
      intro i _
      rw [List.getElem?_cons_succ,pow_succ]
      ring
    · simp

/-- Whether a last group still fits below a multiple of its weight is decided by that group. -/
lemma value_concat_lt_iff (u : List UInt8) (b : UInt8) (m : ℕ) :
    value (u ++ [b]) < 128 ^ u.length * m ↔ b.toNat % 128 < m := by
  have hu := value_lt u
  rw [value_append]
  simp only [value_cons,value_nil,Nat.mul_zero,Nat.add_zero]
  constructor
  · intro h
    exact Nat.lt_of_mul_lt_mul_left (Nat.lt_of_le_of_lt (Nat.le_add_left _ _) h)
  · intro h
    calc value u + 128 ^ u.length * (b.toNat % 128)
        < 128 ^ u.length + 128 ^ u.length * (b.toNat % 128) := by omega
      _ = 128 ^ u.length * (b.toNat % 128 + 1) := by ring
      _ ≤ 128 ^ u.length * m := Nat.mul_le_mul_left _ h

lemma IsWord.ne_nil {w : List UInt8} (h : IsWord w) : w ≠ [] := by
  cases h <;> simp

lemma IsWord.length_pos {w : List UInt8} (h : IsWord w) : 0 < w.length :=
  List.length_pos_iff.mpr h.ne_nil

/-- Words are delimited by their own last byte: none is a proper prefix of another. -/
theorem IsWord.prefix_free {u v s t : List UInt8} (hu : IsWord u) (hv : IsWord v)
    (h : u ++ s = v ++ t) : u = v ∧ s = t := by
  induction hu generalizing v with
  | @last b hb =>
    cases hv with
    | last hc => simpa using h
    | cons hc hw =>
      obtain ⟨rfl,-⟩ := List.cons.inj h
      omega
  | @cons b w hb hw ih =>
    cases hv with
    | last hc =>
      obtain ⟨rfl,-⟩ := List.cons.inj h
      omega
    | @cons c w' hc hw' =>
      simp only [List.cons_append,List.cons.injEq] at h
      obtain ⟨rfl,rfl⟩ := ih hw' h.2
      exact ⟨by rw [h.1],rfl⟩

/-- A byte string begins with a word, unless every byte of it carries the continuation bit. -/
theorem word_or_continued (l : List UInt8) :
    (∃ w t, l = w ++ t ∧ IsWord w) ∨ ∀ b ∈ l, 128 ≤ b.toNat := by
  induction l with
  | nil => exact .inr (by simp)
  | cons b l ih =>
    by_cases hb : b.toNat < 128
    · exact .inl ⟨[b],l,rfl,.last hb⟩
    · rcases ih with ⟨w,t,rfl,hw⟩ | hl
      · exact .inl ⟨b :: w,t,rfl,.cons (by omega) hw⟩
      · refine .inr fun c hc => ?_
        rcases List.mem_cons.mp hc with rfl | hc
        · omega
        · exact hl c hc

lemma IsWord.eq_concat {w : List UInt8} (h : IsWord w) :
    ∃ u b, w = u ++ [b] ∧ (∀ c ∈ u, 128 ≤ c.toNat) ∧ b.toNat < 128 := by
  induction h with
  | @last b hb => exact ⟨[],b,rfl,by simp,hb⟩
  | @cons b w hb hw ih =>
    obtain ⟨u,c,rfl,hu,hc⟩ := ih
    exact ⟨b :: u,c,rfl,by simpa using ⟨hb,hu⟩,hc⟩

lemma IsWord.append_left {u w : List UInt8} (hu : ∀ c ∈ u, 128 ≤ c.toNat) (hw : IsWord w) :
    IsWord (u ++ w) := by
  induction u with
  | nil => exact hw
  | cons c u ih => exact .cons (hu c (by simp)) (ih fun d hd => hu d (by simp [hd]))

lemma isWord_concat {u : List UInt8} {b : UInt8} (hu : ∀ c ∈ u, 128 ≤ c.toNat)
    (hb : b.toNat < 128) : IsWord (u ++ [b]) := .append_left hu (.last hb)

section bits

lemma payload_toNat (b : UInt8) : (b &&& 0x7f).toNat = b.toNat % 128 := by
  rw [UInt8.toNat_and]
  exact Nat.and_two_pow_sub_one_eq_mod b.toNat 7

lemma and_continue_eq_zero_iff (b : UInt8) : b &&& 0x80 = 0 ↔ b.toNat < 128 := by
  have hb := b.toNat_lt
  have hand : (b &&& 0x80).toNat = (b.toNat.testBit 7).toNat * 2 ^ 7 := by
    rw [UInt8.toNat_and]
    exact Nat.and_two_pow b.toNat 7
  rw [← UInt8.toNat_inj,hand,Nat.testBit_eq_decide_div_mod_eq]
  by_cases h : b.toNat / 2 ^ 7 % 2 = 1
  · simp only [h,decide_true,Bool.toNat_true,UInt8.toNat_zero]
    omega
  · simp only [h,decide_false,Bool.toNat_false,UInt8.toNat_zero]
    omega

lemma or_continue_toNat {b : UInt8} (h : b.toNat < 128) : (b ||| 0x80).toNat = b.toNat + 128 := by
  have hor := Nat.two_pow_add_eq_or_of_lt (i := 7) (b := b.toNat) h 1
  rw [UInt8.toNat_or,Nat.or_comm]
  exact hor.symm.trans (Nat.add_comm _ _)

/-- Shifting a group above an accumulator and OR-ing adds it. -/
lemma or_shiftLeft {acc k : ℕ} (hacc : acc < 2 ^ k) (group : ℕ) :
    acc ||| group <<< k = acc + 2 ^ k * group := by
  rw [Nat.shiftLeft_eq,Nat.mul_comm,Nat.or_comm,← Nat.two_pow_add_eq_or_of_lt hacc,Nat.add_comm]

/-- Shifting a group loses no bit while it still fits below `2 ^ 64`. -/
lemma shiftLeft_toNat {group : UInt64} {k : ℕ} (hk : k < 64)
    (hgroup : 2 ^ k * group.toNat < 2 ^ 64) :
    (group <<< UInt64.ofNat k).toNat = 2 ^ k * group.toNat := by
  rw [UInt64.toNat_shiftLeft,UInt64.toNat_ofNat',Nat.mod_eq_of_lt (show k < 2 ^ 64 by omega),
    Nat.mod_eq_of_lt hk,Nat.shiftLeft_eq,Nat.mul_comm,Nat.mod_eq_of_lt hgroup]

/-- Taking one more group into an accumulator by shifting and OR-ing loses no bit while the group
fits below `2 ^ 64`. -/
lemma or_shiftLeft_toNat {acc group : UInt64} {k : ℕ} (hk : k < 64) (hacc : acc.toNat < 2 ^ k)
    (hgroup : 2 ^ k * group.toNat < 2 ^ 64) :
    (acc ||| group <<< UInt64.ofNat k).toNat = acc.toNat + 2 ^ k * group.toNat := by
  have hshift : (group <<< UInt64.ofNat k).toNat = group.toNat <<< k := by
    rw [shiftLeft_toNat hk hgroup,Nat.shiftLeft_eq,Nat.mul_comm]
  rw [UInt64.toNat_or,hshift,or_shiftLeft hacc]

end bits

lemma shortest_of_lt {n : ℕ} (h : n < 128) : shortest n = [UInt8.ofNat n] := by
  rw [shortest,if_pos h]

lemma shortest_of_le {n : ℕ} (h : 128 ≤ n) :
    shortest n = UInt8.ofNat (n % 128 + 128) :: shortest (n / 128) := by
  rw [shortest,if_neg (by omega)]

theorem isWord_shortest (n : ℕ) : IsWord (shortest n) := by
  induction n using Nat.strongRecOn with
  | ind n ih =>
    by_cases h : n < 128
    · rw [shortest_of_lt h]
      exact .last (by rw [UInt8.toNat_ofNat']; omega)
    · rw [shortest_of_le (by omega)]
      exact .cons (by rw [UInt8.toNat_ofNat']; omega) (ih _ (by omega))

@[simp] theorem value_shortest (n : ℕ) : value (shortest n) = n := by
  induction n using Nat.strongRecOn with
  | ind n ih =>
    by_cases h : n < 128
    · rw [shortest_of_lt h]
      simp only [value_cons,value_nil,UInt8.toNat_ofNat']
      omega
    · rw [shortest_of_le (by omega),value_cons,ih _ (by omega),UInt8.toNat_ofNat']
      omega

lemma shortest_length_le {n k : ℕ} (h : n < 128 ^ (k + 1)) : (shortest n).length ≤ k + 1 := by
  induction k generalizing n with
  | zero => simp [shortest_of_lt (show n < 128 by simpa using h)]
  | succ k ih =>
    by_cases hn : n < 128
    · simp [shortest_of_lt hn]
    · rw [shortest_of_le (by omega),List.length_cons]
      have hdiv : n / 128 < 128 ^ (k + 1) := by
        rw [Nat.div_lt_iff_lt_mul (by decide)]
        simpa [pow_succ] using h
      have := ih hdiv
      omega

/-- No word of a number is shorter than its shortest one. -/
theorem shortest_length_le_of_value {w : List UInt8} (hw : IsWord w) {n : ℕ}
    (h : n ≤ value w) : (shortest n).length ≤ w.length := by
  obtain ⟨k,hk⟩ : ∃ k, w.length = k + 1 := ⟨w.length - 1,by have := hw.length_pos; omega⟩
  rw [hk]
  apply shortest_length_le
  rw [← hk]
  exact Nat.lt_of_le_of_lt h (value_lt w)

/-- Smaller numbers have no longer words. -/
lemma shortest_length_mono {n m : ℕ} (h : n ≤ m) : (shortest n).length ≤ (shortest m).length :=
  shortest_length_le_of_value (isWord_shortest m) (h.trans_eq (value_shortest m).symm)

/-- First bytes that agree in their continuation bit are equal where the values are. -/
lemma value_cons_inj {b c : UInt8} {u v : List UInt8} (hbit : b.toNat < 128 ↔ c.toNat < 128)
    (h : value (b :: u) = value (c :: v)) : b = c ∧ value u = value v := by
  have hb := b.toNat_lt
  have hc := c.toNat_lt
  rw [value_cons,value_cons] at h
  exact ⟨UInt8.toNat_inj.mp (by omega),by omega⟩

/-- Among the words of one length a number has at most one. -/
theorem IsWord.eq_of_length_eq {u v : List UInt8} (hu : IsWord u) (hv : IsWord v)
    (hlen : u.length = v.length) (h : value u = value v) : u = v := by
  induction hu generalizing v with
  | @last b hb =>
    cases hv with
    | @last c hc =>
      obtain ⟨rfl,-⟩ := value_cons_inj (iff_of_true hb hc) h
      rfl
    | cons hc hw =>
      have := hw.length_pos
      simp only [List.length_cons,List.length_nil] at hlen
      omega
  | @cons b w hb hw ih =>
    cases hv with
    | last hc =>
      have := hw.length_pos
      simp only [List.length_cons,List.length_nil] at hlen
      omega
    | @cons c w' hc hw' =>
      obtain ⟨rfl,hvalue⟩ := value_cons_inj (iff_of_false (by omega) (by omega)) h
      rw [ih hw' (Nat.succ.inj hlen) hvalue]

end Leb128
