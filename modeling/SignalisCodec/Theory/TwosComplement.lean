import Mathlib.Data.Int.Bitwise
import Mathlib.Tactic.Linarith
import Mathlib.Tactic.Ring

/-! Bit operations on unbounded integers in two's complement, as arithmetic: a mask is a remainder,
a xor with a word of signs a reflection, an or with a short word an addition. -/
namespace TwosComplement

section bits

lemma exists_bit (v : ℤ) : ∃ b m, v = Int.bit b m := ⟨v.bodd,v.div2,(Int.bit_decomp v).symm⟩

@[simp] lemma land_zero (v : ℤ) : Int.land v 0 = 0 := by
  cases v with
  | ofNat m => simp [Int.land]
  | negSucc m =>
    change ((Nat.ldiff 0 m : ℕ) : ℤ) = 0
    exact congrArg Nat.cast (Nat.eq_of_testBit_eq fun i => by simp [Nat.testBit_ldiff])

@[simp] lemma lor_zero (v : ℤ) : Int.lor v 0 = v := by
  cases v with
  | ofNat m => simp [Int.lor]
  | negSucc m =>
    change Int.negSucc (Nat.ldiff m 0) = Int.negSucc m
    exact congrArg Int.negSucc (Nat.eq_of_testBit_eq fun i => by simp [Nat.testBit_ldiff])

@[simp] lemma xor_zero (v : ℤ) : Int.xor v 0 = v := by
  cases v <;> simp [Int.xor]

/-- Against minus one, every bit is inverted. -/
lemma xor_neg_one (v : ℤ) : Int.xor v (-1) = -v - 1 := by
  cases v with
  | ofNat m =>
    change Int.negSucc (m ^^^ 0) = _
    rw [Nat.xor_zero,Int.negSucc_eq,Int.ofNat_eq_natCast]
    ring
  | negSucc m =>
    change ((m ^^^ 0 : ℕ) : ℤ) = _
    rw [Nat.xor_zero,Int.negSucc_eq]
    ring

/-- Masking the low bits is the remainder. -/
theorem land_mask (v : ℤ) (n : ℕ) : Int.land v (2 ^ n - 1) = v % 2 ^ n := by
  induction n generalizing v with
  | zero => simp [land_zero]
  | succ n ih =>
    obtain ⟨b,m,rfl⟩ := exists_bit v
    have hmask : (2 : ℤ) ^ (n + 1) - 1 = Int.bit true (2 ^ n - 1) := by
      rw [Int.bit_val]
      simp only [cond_true]
      ring
    have hpos : (0 : ℤ) < 2 ^ n := by positivity
    have hlo := Int.emod_nonneg m hpos.ne'
    have hhi := Int.emod_lt_of_pos m hpos
    have hbit : 0 ≤ cond b (1 : ℤ) 0 ∧ cond b (1 : ℤ) 0 ≤ 1 := by cases b <;> simp
    have hsplit : 2 * m + cond b 1 0 =
        (2 * (m % 2 ^ n) + cond b 1 0) + 2 ^ (n + 1) * (m / 2 ^ n) := by
      have hdiv := Int.emod_add_mul_ediv m (2 ^ n)
      rw [pow_succ]
      linarith
    rw [hmask,Int.land_bit,ih,Bool.and_true,Int.bit_val,Int.bit_val,hsplit,
      Int.add_mul_emod_self_left]
    refine (Int.emod_eq_of_lt (by linarith) ?_).symm
    rw [pow_succ]
    linarith

/-- The parity is the lowest bit. -/
lemma land_one (v : ℤ) : Int.land v 1 = v % 2 := land_mask v 1

/-- Bits that do not overlap add up. -/
theorem lor_shifted (v : ℤ) {b : ℤ} {n : ℕ} (h0 : 0 ≤ b) (h1 : b < 2 ^ n) :
    Int.lor (v * 2 ^ n) b = v * 2 ^ n + b := by
  induction n generalizing b with
  | zero =>
    obtain rfl : b = 0 := by
      rw [pow_zero] at h1
      omega
    rw [lor_zero,add_zero]
  | succ n ih =>
    obtain ⟨c,m,rfl⟩ := exists_bit b
    have hshift : v * 2 ^ (n + 1) = Int.bit false (v * 2 ^ n) := by
      rw [Int.bit_val]
      simp only [cond_false]
      ring
    rw [Int.bit_val] at h0 h1
    have hbit : 0 ≤ cond c (1 : ℤ) 0 ∧ cond c (1 : ℤ) 0 ≤ 1 := by cases c <;> simp
    have hlow : Int.lor (v * 2 ^ n) m = v * 2 ^ n + m := by
      rw [pow_succ] at h1
      exact ih (by linarith) (by linarith)
    rw [hshift,Int.lor_bit,hlow,Bool.false_or]
    simp only [Int.bit_val,cond_false]
    ring

/-- Shifted down by all its bits, a word keeps only its sign. -/
lemma div_sign {v : ℤ} {n : ℕ} (lo : -2 ^ n ≤ v) (hi : v < 2 ^ n) :
    v / 2 ^ n = if 0 ≤ v then 0 else -1 := by
  by_cases hv : 0 ≤ v
  · rw [if_pos hv]
    exact Int.ediv_eq_zero_of_lt hv hi
  · rw [if_neg hv]
    have hpos : (0 : ℤ) < 2 ^ n := by positivity
    exact Int.ediv_eq_iff_of_pos hpos |>.mpr ⟨by linarith,by linarith⟩

end bits

section residues

lemma emod_bounds (v : ℤ) {m : ℤ} (hm : 0 < m) : 0 ≤ v % m ∧ v % m ≤ m - 1 :=
  ⟨Int.emod_nonneg v hm.ne',Int.le_sub_one_of_lt (Int.emod_lt_of_pos v hm)⟩

/-- Reading the upper half of the residues as negative is the balanced residue. -/
lemma bmod_eq_ite (v : ℤ) (m : ℕ) :
    v.bmod (2 * m) = if v % (2 * m) ≥ m then v % (2 * m) - 2 * m else v % (2 * m) := by
  rw [Int.bmod_def]
  push_cast
  split <;> split <;> omega

/-- Words of a larger width read the same. -/
lemma bmod_emod (v : ℤ) {n m : ℕ} (hdvd : n ∣ m) : (v % m).bmod n = v.bmod n := by
  rw [Int.bmod_def,Int.bmod_def,Int.emod_emod_of_dvd v (Int.natCast_dvd_natCast.mpr hdvd)]

end residues

section zigzag

/-- The integers in the order 0, -1, 1, -2, 2 and so on. -/
def zigzag (v : ℤ) : ℤ := if 0 ≤ v then 2 * v else -2 * v - 1

def unzigzag (w : ℤ) : ℤ := if w % 2 = 0 then w / 2 else -(w / 2) - 1

lemma zigzag_nonneg (v : ℤ) : 0 ≤ zigzag v := by
  unfold zigzag
  split <;> omega

@[simp] lemma unzigzag_zigzag (v : ℤ) : unzigzag (zigzag v) = v := by
  unfold zigzag unzigzag
  by_cases h : 0 ≤ v
  · rw [if_pos h,if_pos (by omega)]
    omega
  · rw [if_neg h,if_neg (by omega)]
    omega

lemma zigzag_unzigzag {w : ℤ} (h : 0 ≤ w) : zigzag (unzigzag w) = w := by
  unfold zigzag unzigzag
  by_cases hw : w % 2 = 0
  · rw [if_pos hw,if_pos (by omega)]
    omega
  · rw [if_neg hw,if_neg (by omega)]
    omega

/-- A signed range goes onto the unsigned range of as many words. -/
lemma zigzag_lt_iff {v m : ℤ} : zigzag v < 2 * m ↔ -m ≤ v ∧ v < m := by
  unfold zigzag
  split <;> omega

/-- The encoder's bit operations: a shift up, and a xor with the word of signs. -/
theorem xor_sign_word {v : ℤ} {n : ℕ} (lo : -2 ^ n ≤ v) (hi : v < 2 ^ n) :
    Int.xor (v * 2) (v / 2 ^ n) = zigzag v := by
  rw [div_sign lo hi,zigzag]
  by_cases h : 0 ≤ v
  · rw [if_pos h,if_pos h,xor_zero,mul_comm]
  · rw [if_neg h,if_neg h,xor_neg_one]
    ring

/-- The decoder's bit operations: a shift down, and a xor with the parity as a word of signs. -/
theorem xor_parity_word (w : ℤ) : Int.xor (w / 2) (-Int.land w 1) = unzigzag w := by
  rw [land_one,unzigzag]
  by_cases h : w % 2 = 0
  · rw [if_pos h,h,neg_zero,xor_zero]
  · obtain h1 : w % 2 = 1 := by omega
    rw [if_neg h,h1,xor_neg_one]

end zigzag
end TwosComplement
