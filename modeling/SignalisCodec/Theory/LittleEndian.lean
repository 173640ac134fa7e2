import Mathlib.Data.List.Basic
import Mathlib.Tactic.Ring

/-! Fixed-width little-endian byte strings and the numbers they denote. -/
namespace LittleEndian

def value : List UInt8 → ℕ
  | [] => 0
  | b :: l => b.toNat + 256 * value l

/-- The `k` low bytes of a number, least significant first. -/
def bytes : ℕ → ℕ → List UInt8
  | 0,_ => []
  | k + 1,n => UInt8.ofNat n :: bytes k (n / 256)

@[simp] lemma length_bytes (k n : ℕ) : (bytes k n).length = k := by
  induction k generalizing n with
  | zero => rfl
  | succ k ih => simp [bytes,ih]

lemma value_lt (l : List UInt8) : value l < 256 ^ l.length := by
  induction l with
  | nil => simp [value]
  | cons b l ih =>
    have hb := b.toNat_lt
    simp only [value,List.length_cons,pow_succ]
    omega

theorem value_bytes (k n : ℕ) : value (bytes k n) = n % 256 ^ k := by
  induction k generalizing n with
  | zero => simp [bytes,value,Nat.mod_one]
  | succ k ih =>
    have hpow : 256 ^ (k + 1) = 256 * 256 ^ k := pow_succ' 256 k
    rw [bytes,value,ih,UInt8.toNat_ofNat',hpow,Nat.mod_mul]

theorem bytes_value (l : List UInt8) : bytes l.length (value l) = l := by
  induction l with
  | nil => rfl
  | cons b l ih =>
    have hb := b.toNat_lt
    have hdiv : (b.toNat + 256 * value l) / 256 = value l := by omega
    have hlow : UInt8.ofNat (b.toNat + 256 * value l) = b := by
      apply UInt8.toNat_inj.mp
      rw [UInt8.toNat_ofNat']
      omega
    simp only [value,List.length_cons,bytes,hdiv,hlow,ih]

end LittleEndian
