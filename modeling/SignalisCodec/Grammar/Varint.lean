import SignalisCodec.Core.Reader
import SignalisCodec.Theory.Leb128
import SignalisCodec.Theory.Shortest

/-! The varints of the wire: base-128 words of at most ten bytes whose value fits 64 bits. -/
namespace SignalisCodec
open Shortest

/-- One to ten bytes, the continuation bit on all but the last, and a tenth byte of at most 1. -/
structure IsVarint (w : List UInt8) : Prop where
  word : Leb128.IsWord w
  length_le : w.length ≤ MAX_VARINT_BYTES
  tenth : ∀ b, w[9]? = some b → b.toNat ≤ 1

/-- A varint as it stands on the wire, shortest or not. -/
@[ext] structure Varint where
  bytes : List UInt8
  isVarint : IsVarint bytes

/-- A varint is its continued bytes and a last byte. -/
lemma IsVarint.eq_concat {w : List UInt8} (h : IsVarint w) :
    ∃ u b, w = u ++ [b] ∧ (∀ c ∈ u, 128 ≤ c.toNat) ∧ b.toNat < 128 ∧ u.length ≤ 9 ∧
      (u.length = 9 → b.toNat ≤ 1) := by
  obtain ⟨u,b,rfl,hu,hb⟩ := h.word.eq_concat
  have hlen := h.length_le
  simp only [List.length_append,List.length_singleton,MAX_VARINT_BYTES] at hlen
  exact ⟨u,b,rfl,hu,hb,by omega,fun h9 => h.tenth b (by simp [← h9])⟩

lemma isVarint_concat {u : List UInt8} {b : UInt8} (hu : ∀ c ∈ u, 128 ≤ c.toNat)
    (hb : b.toNat < 128) (hlen : u.length ≤ 9) (hfit : u.length = 9 → b.toNat ≤ 1) :
    IsVarint (u ++ [b]) := by
  refine ⟨Leb128.isWord_concat hu hb,?_,fun c hc => ?_⟩
  · simp only [List.length_append,List.length_singleton,MAX_VARINT_BYTES]
    omega
  · obtain ⟨hlt,-⟩ := List.getElem?_eq_some_iff.mp hc
    simp only [List.length_append,List.length_singleton] at hlt
    have h9 : u.length = 9 := by omega
    obtain rfl : b = c := by simpa [← h9] using hc
    exact hfit h9

lemma IsVarint.value_lt {w : List UInt8} (h : IsVarint w) : Leb128.value w < 2 ^ 64 := by
  obtain ⟨u,b,rfl,-,hb,hlen,hfit⟩ := h.eq_concat
  by_cases hu : u.length = 9
  · have hone := hfit hu
    have := (Leb128.value_concat_lt_iff u b 2).mpr (by omega)
    rw [hu] at this
    exact Nat.lt_of_lt_of_le this (by norm_num)
  · have hlt := Leb128.value_lt (u ++ [b])
    have hpow : 128 ^ (u ++ [b]).length ≤ 128 ^ 9 :=
      Nat.pow_le_pow_right (by decide) (by simp; omega)
    exact Nat.lt_of_lt_of_le (Nat.lt_of_lt_of_le hlt hpow) (by norm_num)

/-- A word of a 64-bit number within ten bytes is a varint. -/
lemma isVarint_of_value_lt {w : List UInt8} (hw : Leb128.IsWord w)
    (hlen : w.length ≤ MAX_VARINT_BYTES) (hv : Leb128.value w < 2 ^ 64) : IsVarint w := by
  obtain ⟨u,b,rfl,hu,hb⟩ := hw.eq_concat
  simp only [List.length_append,List.length_singleton,MAX_VARINT_BYTES] at hlen
  refine isVarint_concat hu hb (by omega) fun h9 => ?_
  have := (Leb128.value_concat_lt_iff u b 2).mp (by rw [h9]; exact hv)
  omega

lemma isVarint_shortest (v : UInt64) : IsVarint (Leb128.shortest v.toNat) := by
  have hv := v.toNat_lt
  apply isVarint_of_value_lt (Leb128.isWord_shortest _)
  · exact Leb128.shortest_length_le (k := 9) (by omega)
  · rwa [Leb128.value_shortest]

namespace Varint

/-- The 64-bit value a varint denotes. -/
def value (w : Varint) : UInt64 := UInt64.ofNat (Leb128.value w.bytes)

@[simp] lemma value_toNat (w : Varint) : w.value.toNat = Leb128.value w.bytes := by
  rw [value,UInt64.toNat_ofNat']
  exact Nat.mod_eq_of_lt w.isVarint.value_lt

lemma length_pos (w : Varint) : 0 < w.bytes.length := w.isVarint.word.length_pos

lemma prefix_free {u w : Varint} {s t : List UInt8} (h : u.bytes ++ s = w.bytes ++ t) :
    u = w ∧ s = t := by
  obtain ⟨hb,ht⟩ := u.isVarint.word.prefix_free w.isVarint.word h
  exact ⟨Varint.ext hb,ht⟩

/-- The varint the encoder writes for a value. -/
def shortest (v : UInt64) : Varint := ⟨Leb128.shortest v.toNat,isVarint_shortest v⟩

@[simp] lemma value_shortest (v : UInt64) : (shortest v).value = v := by
  apply UInt64.toNat_inj.mp
  simp [shortest]

lemma shortest_length_le (w : Varint) {v : UInt64} (h : v ≤ w.value) :
    (shortest v).bytes.length ≤ w.bytes.length := by
  apply Leb128.shortest_length_le_of_value w.isVarint.word
  rw [← value_toNat]
  exact h

/-- The shortest varint of a value shortens every varint that denotes it. -/
theorem shortest_shortens (w : Varint) : Shortens (shortest w.value).bytes w.bytes := by
  have hle := w.shortest_length_le (UInt64.le_refl w.value)
  refine ⟨hle,?_⟩
  intro hlen
  apply (shortest w.value).isVarint.word.eq_of_length_eq w.isVarint.word
  · exact Nat.le_antisymm hle hlen
  · rw [← value_toNat,← value_toNat,value_shortest]

end Varint

/-- A byte string begins with a varint, or ends before one is complete, or has a tenth byte that
does not fit. -/
theorem varint_cases (l : List UInt8) :
    (∃ (w : Varint) (t : List UInt8), l = w.bytes ++ t) ∨
    (l.length < MAX_VARINT_BYTES ∧ ∀ b ∈ l, 128 ≤ b.toNat) ∨
    (∃ u b t, l = u ++ b :: t ∧ u.length = 9 ∧ (∀ c ∈ u, 128 ≤ c.toNat) ∧ 1 < b.toNat) := by
  by_cases hnine : 9 < l.length ∧ ∀ c ∈ l.take 9, 128 ≤ c.toNat
  · -- the tenth byte decides
    obtain ⟨hlen,hcont⟩ := hnine
    have hl : l = l.take 9 ++ l[9] :: l.drop 10 := by
      rw [List.getElem_cons_drop hlen,List.take_append_drop]
    have hu : (l.take 9).length = 9 := by rw [List.length_take]; omega
    by_cases hb : 1 < l[9].toNat
    · exact .inr (.inr ⟨_,_,_,hl,hu,hcont,hb⟩)
    · exact .inl ⟨⟨l.take 9 ++ [l[9]],isVarint_concat hcont (by omega) (by omega) (by omega)⟩,
        l.drop 10,by simp⟩
  · rcases Leb128.word_or_continued l with ⟨w,t,rfl,hw⟩ | hcont
    · obtain ⟨u,b,rfl,hu,hb⟩ := hw.eq_concat
      have hlt : u.length < 9 := by
        by_contra hge
        apply hnine
        refine ⟨by simp; omega,fun c hc => hu c ?_⟩
        rw [List.append_assoc,List.take_append_of_le_length (by omega)] at hc
        exact List.mem_of_mem_take hc
      exact .inl ⟨⟨u ++ [b],isVarint_concat hu hb (by omega) (by omega)⟩,t,rfl⟩
    · refine .inr (.inl ⟨?_,hcont⟩)
      by_contra hge
      exact hnine ⟨by simp only [MAX_VARINT_BYTES] at hge; omega,
        fun c hc => hcont c (List.mem_of_mem_take hc)⟩

end SignalisCodec
