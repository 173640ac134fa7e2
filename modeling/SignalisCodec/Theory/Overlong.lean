import SignalisCodec.Theory.Leb128

/-! The words of a number that are longer than its shortest one: they differ from it only in the
continuation bit of its last byte and in the empty groups behind it. -/
namespace Leb128

/-- `k` empty groups that continue and one that does not. -/
def zeros (k : ℕ) : List UInt8 := List.replicate k 0x80 ++ [0x00]

/-- `x` is `w` with the continuation bit set on its last byte and empty groups behind that. -/
def Overlong (x w : List UInt8) : Prop :=
  ∃ u b k, w = u ++ [b] ∧ x = u ++ (b ||| 0x80) :: zeros k

@[simp] lemma zeros_zero : zeros 0 = [0x00] := rfl

@[simp] lemma zeros_succ (k : ℕ) : zeros (k + 1) = 0x80 :: zeros k := rfl

@[simp] lemma zeros_length (k : ℕ) : (zeros k).length = k + 1 := by simp [zeros]

lemma isWord_zeros (k : ℕ) : IsWord (zeros k) := by
  induction k with
  | zero => exact .last (by decide)
  | succ k ih => exact .cons (by decide) ih

@[simp] lemma value_zeros (k : ℕ) : value (zeros k) = 0 := by
  induction k with
  | zero => rfl
  | succ k ih => rw [zeros_succ,value_cons,ih]; rfl

lemma IsWord.eq_zeros {w : List UInt8} (hw : IsWord w) (h : value w = 0) : ∃ k, w = zeros k := by
  induction hw with
  | @last b hb =>
    have hzero : b = 0x00 := by
      apply UInt8.toNat_inj.mp
      simp only [value_cons,value_nil] at h
      change b.toNat = 0
      omega
    exact ⟨0,by rw [hzero,zeros_zero]⟩
  | @cons b w hb hw ih =>
    simp only [value_cons] at h
    have hempty : b = 0x80 := by
      have := b.toNat_lt
      apply UInt8.toNat_inj.mp
      change b.toNat = 128
      omega
    obtain ⟨k,rfl⟩ := ih (by omega)
    exact ⟨k + 1,by rw [hempty,zeros_succ]⟩

section overlong
variable {x w : List UInt8}

lemma Overlong.cons (h : Overlong x w) (b : UInt8) : Overlong (b :: x) (b :: w) := by
  obtain ⟨u,c,k,rfl,rfl⟩ := h
  exact ⟨b :: u,c,k,rfl,rfl⟩

lemma Overlong.length_lt (h : Overlong x w) : w.length < x.length := by
  obtain ⟨u,b,k,rfl,rfl⟩ := h
  simp only [List.length_append,List.length_cons,List.length_nil,zeros_length]
  omega

/-- An overlong word is a word of the same number. -/
theorem Overlong.isWord_value (h : Overlong x w) (hw : IsWord w) :
    IsWord x ∧ value x = value w := by
  obtain ⟨u,b,k,rfl,rfl⟩ := h
  obtain ⟨u',b',heq,hu,hb⟩ := hw.eq_concat
  obtain ⟨rfl,rfl⟩ : u = u' ∧ b = b' := by simpa using heq
  have hor := or_continue_toNat hb
  constructor
  · exact .append_left hu (.cons (by omega) (isWord_zeros k))
  · simp only [value_append,value_cons,value_nil,value_zeros,hor]
    congr 2
    omega

/-- A byte that continues, in front of more than empty groups, is the first of the shortest word. -/
lemma shortest_value_cons {b : UInt8} (hb : 128 ≤ b.toNat) (hw : value w ≠ 0) :
    shortest (value (b :: w)) = b :: shortest (value w) := by
  have hlt := b.toNat_lt
  rw [shortest_of_le (by rw [value_cons]; omega),value_cons]
  congr 1
  · apply UInt8.toNat_inj.mp
    rw [UInt8.toNat_ofNat']
    omega
  · congr 1
    omega

/-- In front of empty groups it is the last of the shortest word, with the bit set. -/
lemma overlong_cons_zeros {b : UInt8} (hb : 128 ≤ b.toNat) (k : ℕ) :
    Overlong (b :: zeros k) (shortest (value (b :: zeros k))) := by
  have hlt := b.toNat_lt
  have hlow : (UInt8.ofNat (b.toNat % 128)).toNat = b.toNat % 128 := by
    rw [UInt8.toNat_ofNat']
    omega
  have hset : b = UInt8.ofNat (b.toNat % 128) ||| 0x80 := by
    apply UInt8.toNat_inj.mp
    rw [or_continue_toNat (by omega),hlow]
    omega
  rw [value_cons,value_zeros,Nat.mul_zero,Nat.add_zero,
    shortest_of_lt (Nat.mod_lt _ (by decide))]
  exact ⟨[],UInt8.ofNat (b.toNat % 128),k,rfl,by rw [← hset,List.nil_append]⟩

/-- Every word of a number is its shortest one or an overlong form of that. -/
theorem IsWord.eq_shortest_or_overlong (hx : IsWord x) :
    x = shortest (value x) ∨ Overlong x (shortest (value x)) := by
  induction hx with
  | @last b hb =>
    left
    have hv : value [b] = b.toNat := by
      simp only [value_cons,value_nil]
      omega
    rw [hv,shortest_of_lt hb,UInt8.ofNat_toNat]
  | @cons b w hb hw ih =>
    -- where only empty groups follow, the shortest word ends at this byte
    by_cases hzero : value w = 0
    · obtain ⟨k,rfl⟩ := hw.eq_zeros hzero
      exact .inr (overlong_cons_zeros hb k)
    · rw [shortest_value_cons hb hzero]
      exact ih.imp (congrArg (b :: ·)) (Overlong.cons · b)

/-- The words of a number. -/
theorem isWord_value_iff (n : ℕ) :
    IsWord x ∧ value x = n ↔ x = shortest n ∨ Overlong x (shortest n) := by
  constructor
  · rintro ⟨hx,rfl⟩
    exact hx.eq_shortest_or_overlong
  · rintro (rfl | h)
    · exact ⟨isWord_shortest n,value_shortest n⟩
    · obtain ⟨hx,hv⟩ := h.isWord_value (isWord_shortest n)
      exact ⟨hx,hv.trans (value_shortest n)⟩

end overlong
end Leb128
