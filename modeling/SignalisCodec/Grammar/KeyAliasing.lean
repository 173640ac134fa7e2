import SignalisCodec.Grammar.IndexSpans
import SignalisCodec.Theory.Pairing

/-! Field keys are narrowed to 32-bit field numbers: which keys keep their number, and when records
can be told apart by what is reported for them. -/
namespace SignalisCodec

section key
variable {key : UInt64} {position : ℕ} {k : FieldKey}

/-- Keys that are rejected wherever they stand: a wire type that does not exist, or a field number
whose low 32 bits are 0. -/
def RejectedKey (key : UInt64) : Prop :=
  key.toNat % 8 ∉ [0,1,2,5] ∨ key.toNat / 8 % 2 ^ 32 = 0

lemma FieldKey.rejectedKey_iff : RejectedKey key ↔ ∀ k, fromVarint key position ≠ .ok k := by
  constructor
  · intro hrej k h
    obtain ⟨hbits,hnumber,hzero⟩ := fromVarint_ok_iff.mp h
    rcases hrej with hwire | hlow
    · apply hwire
      rw [hbits]
      cases k.wireType <;> decide
    · apply hzero
      rw [← UInt32.toNat_inj,← hnumber,hlow]
      rfl
  · intro hno
    by_contra hrej
    unfold RejectedKey at hrej
    push Not at hrej
    obtain ⟨hwire,hlow⟩ := hrej
    have hwt : ∃ wt : WireType, key.toNat % 8 = wt.toBits.toNat := by
      simp only [List.mem_cons,List.not_mem_nil,or_false] at hwire
      rcases hwire with h | h | h | h
      · exact ⟨.varint,h⟩
      · exact ⟨.fixed64,h⟩
      · exact ⟨.lengthDelimited,h⟩
      · exact ⟨.fixed32,h⟩
    obtain ⟨wt,hwt⟩ := hwt
    have hnumber : (UInt32.ofNat (key.toNat / 8)).toNat = key.toNat / 8 % 2 ^ 32 :=
      UInt32.toNat_ofNat'
    apply hno ⟨UInt32.ofNat (key.toNat / 8),wt⟩
    refine fromVarint_ok_iff.mpr ⟨hwt,hnumber.symm,?_⟩
    intro hzero
    apply hlow
    rw [← hnumber]
    exact congrArg UInt32.toNat hzero

end key

section reports

/-- Every number reported is the whole number on the wire, and records whose keys differ are
reported differently. -/
structure Unaliased (recs : List Record) (out : List (UInt32 × UInt8)) : Prop where
  length_eq : out.length = recs.length
  whole : ∀ (i : ℕ) (rec : Record) (shown : UInt32 × UInt8), recs[i]? = some rec →
    out[i]? = some shown → shown.1.toUInt64 = rec.keyWord.value >>> 3
  distinct : ∀ (i j : ℕ) (rec rec' : Record) (shown shown' : UInt32 × UInt8),
    recs[i]? = some rec → recs[j]? = some rec' → out[i]? = some shown → out[j]? = some shown' →
    rec.keyWord.value ≠ rec'.keyWord.value → shown ≠ shown'

/-- What is reported for a record: its field number and wire type. -/
def Record.shown (rec : Record) : UInt32 × UInt8 := (rec.number,rec.payload.wireType.toBits)

/-- A key word of at most 35 bits is the word of its own key. -/
lemma Record.toVarint_key {rec : Record} (h : rec.keyWord.value.toNat < 2 ^ 35) :
    rec.key.toVarint = rec.keyWord.value :=
  (FieldKey.toVarint_eq_iff rec.accepted).mpr h

/-- What is reported for records tells them apart exactly if all their keys have at most 35 bits. -/
theorem unaliased_shown_iff {recs : List Record} :
    Unaliased recs (recs.map Record.shown) ↔
      ∀ rec ∈ recs, rec.keyWord.value.toNat < 2 ^ 35 := by
  constructor
  · intro h rec hrec
    obtain ⟨i,hi⟩ := List.getElem?_of_mem hrec
    have hshown := h.whole i rec rec.shown hi (by rw [List.getElem?_map,hi]; rfl)
    exact (FieldKey.number_eq_shift_iff rec.accepted).mp hshown
  · intro h
    refine ⟨by simp,?_,?_⟩
    · intro i rec shown hi hshown
      simp only [List.getElem?_map,hi,Option.map_some,Option.some.injEq] at hshown
      subst hshown
      exact (FieldKey.number_eq_shift_iff rec.accepted).mpr (h rec (List.mem_of_getElem? hi))
    · intro i j rec rec' shown shown' hi hj hshown hshown' hne heq
      simp only [List.getElem?_map,hi,hj,Option.map_some,Option.some.injEq] at hshown hshown'
      subst hshown hshown'
      apply hne
      obtain ⟨hnumber,hbits⟩ := Prod.mk.inj heq
      have hkey : rec.key = rec'.key := FieldKey.ext hnumber (WireType.toBits_injective hbits)
      rw [← Record.toVarint_key (h rec (List.mem_of_getElem? hi)),
        ← Record.toVarint_key (h rec' (List.mem_of_getElem? hj)),hkey]

variable {buf : Slice} {recs : List Record}

lemma fields_shown {fields : List Field} (hw : wires recs = buf.bytes)
    (h : decodeFields buf = .ok fields) :
    (fields.map fun f => (f.fieldNumber,f.value.wireType.toBits)) = recs.map Record.shown := by
  obtain ⟨recs',hw',rfl⟩ := (decodeFields_ok_iff buf fields).mp h
  obtain rfl : recs' = recs := wires_injective (hw'.trans hw.symm)
  rw [List.map_map]
  apply List.map_congr_left
  intro rec _
  exact Prod.ext rfl (congrArg WireType.toBits rec.payload.value_wireType)

lemma entries_shown {entries : List IndexEntry} (hw : wires recs = buf.bytes)
    (h : indexFields buf = .ok entries) :
    (entries.map fun e => (e.fieldNumber,e.wireType)) = recs.map Record.shown := by
  obtain ⟨fields,hfields,hlocates⟩ :=
    (indexFields_sim_decodeFields (indexFields_len_le h)).of_ok_left h
  rw [← fields_shown hw hfields]
  apply Pairing.map_eq_of_forall₂ hlocates
  rintro _ _ ⟨pre,rec,post,-,rfl,rfl⟩
  exact Prod.ext rfl (congrArg WireType.toBits rec.payload.value_wireType.symm)

end reports
end SignalisCodec
