import SignalisCodec.Lazy.Agreement

/-! The getters for single values look at the first field with a number, whatever its wire type, and
so miss a later one of the wire type they read. -/
namespace SignalisCodec
open Drain Pairing

/-- The value of the first field that is numbered `n` and has the wire type. -/
def firstMatch {α : Type} (get : FieldValue → Option α) (wt : WireType) (n : ℕ)
    (fields : List Field) : Option α :=
  (fields.find? fun f => f.fieldNumber.toNat = n ∧ f.value.wireType = wt).bind fun f => get f.value

/-- The first field numbered `n` has the wire type, if any field numbered `n` has it. -/
def Leads (fields : List Field) (n : ℕ) (wt : WireType) : Prop :=
  (∀ f ∈ fields, f.fieldNumber.toNat = n → f.value.wireType ≠ wt) ∨
  ∃ f, (fields.find? fun f => f.fieldNumber.toNat = n) = some f ∧ f.value.wireType = wt

/-- Every field numbered `n` leads for its wire type exactly if they all have the same one. -/
lemma leads_all_iff {fields : List Field} {n : ℕ} :
    (∀ wt, Leads fields n wt) ↔ ∀ f ∈ fields, ∀ g ∈ fields, f.fieldNumber.toNat = n →
      g.fieldNumber.toNat = n → f.value.wireType = g.value.wireType := by
  constructor
  · intro h f hf g hg hfn hgn
    rcases h f.value.wireType with hno | ⟨a,ha,hawt⟩
    · exact absurd rfl (hno f hf hfn)
    · rcases h g.value.wireType with hno | ⟨b,hb,hbwt⟩
      · exact absurd rfl (hno g hg hgn)
      · rw [ha] at hb
        cases hb
        exact hawt.symm.trans hbwt
  · intro h wt
    by_cases hsome : ∃ f ∈ fields, f.fieldNumber.toNat = n ∧ f.value.wireType = wt
    · obtain ⟨f,hf,hfn,hwt⟩ := hsome
      obtain ⟨g,hg⟩ : ∃ g, (fields.find? fun f => f.fieldNumber.toNat = n) = some g := by
        apply Option.isSome_iff_exists.mp
        exact List.find?_isSome.mpr ⟨f,hf,by simp [hfn]⟩
      have hgn := List.find?_some hg
      simp only [decide_eq_true_eq] at hgn
      exact .inr ⟨g,hg,(h g (List.mem_of_find?_eq_some hg) f hf hgn hfn).trans hwt⟩
    · push Not at hsome
      exact .inl hsome

section first
variable {α : Type} {get : FieldValue → Option α} {wt : WireType} {n : ℕ} {fields : List Field}

lemma find?_and {p q : Field → Bool} {f : Field} (h : fields.find? p = some f) (hq : q f = true) :
    (fields.find? fun g => p g && q g) = some f := by
  obtain ⟨hp,pre,post,rfl,hpre⟩ := List.find?_eq_some_iff_append.mp h
  refine List.find?_eq_some_iff_append.mpr ⟨by simp [hp,hq],pre,post,rfl,?_⟩
  intro g hg
  have := hpre g hg
  simp_all

lemma firstMatch_of_find? {f : Field}
    (hf : (fields.find? fun f => f.fieldNumber.toNat = n) = some f) (hwt : f.value.wireType = wt) :
    firstMatch get wt n fields = get f.value := by
  have hand := find?_and (q := fun f => f.value.wireType = wt) hf (by simp [hwt])
  simp only [← Bool.decide_and] at hand
  rw [firstMatch,hand]
  rfl

/-- There is no match where no field with the number has the wire type. -/
lemma firstMatch_eq_none_iff (hget : ∀ v : FieldValue, get v = none ↔ v.wireType ≠ wt) :
    firstMatch get wt n fields = none ↔
      ∀ f ∈ fields, f.fieldNumber.toNat = n → f.value.wireType ≠ wt := by
  rw [firstMatch,Option.bind_eq_none_iff]
  constructor
  · intro h f hf hn hwt
    obtain ⟨g,hg⟩ : ∃ g, (fields.find? fun f => f.fieldNumber.toNat = n ∧
        f.value.wireType = wt) = some g := by
      apply Option.isSome_iff_exists.mp
      exact List.find?_isSome.mpr ⟨f,hf,by simp [hn,hwt]⟩
    have := List.find?_some hg
    simp only [decide_eq_true_eq] at this
    exact (hget _).mp (h g hg) this.2
  · intro h f hf
    have := List.find?_some hf
    simp only [decide_eq_true_eq] at this
    exact absurd this.2 (h f (List.mem_of_find?_eq_some hf) this.1)

/-- Reading the first field with the number finds the first match exactly if that field leads. -/
lemma first_eq_iff (hget : ∀ v : FieldValue, get v = none ↔ v.wireType ≠ wt) :
    ((fields.find? fun f => f.fieldNumber.toNat = n).elim none fun f => get f.value) =
      firstMatch get wt n fields ↔ Leads fields n wt := by
  cases hfind : fields.find? fun f => f.fieldNumber.toNat = n with
  | none =>
    have hall : ∀ f ∈ fields, f.fieldNumber.toNat = n → f.value.wireType ≠ wt := by
      intro f hf hn
      exact absurd hn (by simpa using List.find?_eq_none.mp hfind f hf)
    exact ⟨fun _ => .inl hall,fun _ => ((firstMatch_eq_none_iff hget).mpr hall).symm⟩
  | some f =>
    by_cases hwt : f.value.wireType = wt
    · exact ⟨fun _ => .inr ⟨f,hfind,hwt⟩,fun _ => (firstMatch_of_find? hfind hwt).symm⟩
    · have hmiss : get f.value = none := (hget _).mpr hwt
      change get f.value = _ ↔ _
      rw [hmiss]
      constructor
      · intro h
        exact .inl ((firstMatch_eq_none_iff hget).mp h.symm)
      · intro h
        rcases h with hall | ⟨g,hg,hgwt⟩
        · exact ((firstMatch_eq_none_iff hget).mpr hall).symm
        · rw [hfind] at hg
          cases hg
          exact absurd hgwt hwt

/-- The first match heads the list of all values. -/
lemma head?_valuesOf (hget : ∀ v : FieldValue, get v = none ↔ v.wireType ≠ wt) :
    (valuesOf get n fields).head? = firstMatch get wt n fields := by
  induction fields with
  | nil => rfl
  | cons f fields ih =>
    rw [valuesOf,List.filterMap_cons,firstMatch,List.find?_cons]
    by_cases hn : f.fieldNumber.toNat = n
    · by_cases hwt : f.value.wireType = wt
      · obtain ⟨a,ha⟩ := Option.ne_none_iff_exists'.mp ((hget f.value).not.mpr (not_not.mpr hwt))
        simp [hn,hwt,ha]
      · have hmiss : get f.value = none := (hget _).mpr hwt
        simp only [hn,if_true,hmiss,hwt,and_false,decide_false]
        exact ih
    · simp only [hn,if_false,false_and,decide_false]
      exact ih

end first

namespace LazyMessage

section getters
variable {m : LazyMessage} {fields : List Field}

/-- All four getters: the first slot with the number, then a test of its wire type. -/
lemma first_slot {α : Type} (hslots : List.Forall₂ m.Slot m.slots fields) (wt : WireType)
    (absent : α) (read : ℕ → α) (get : Field → α)
    (hread : ∀ i f, m.Slot i f → f.value.wireType = wt → read i = get f)
    (hother : ∀ f : Field, f.value.wireType ≠ wt → get f = absent) (n : ℕ) :
    (if m.slotOf n < 0 ∨ m.indexAt ((m.slotOf n).toNat + 1) ≠ some wt.toBits.toNat then absent
      else read (m.slotOf n).toNat) =
    (fields.find? fun f => f.fieldNumber.toNat = n).elim absent get := by
  have hrel := slotOf_rel hslots n
  unfold slotOf
  generalize m.slots.find? _ = x at hrel
  generalize fields.find? _ = y at hrel
  cases hrel with
  | none => rfl
  | @some i f h =>
    have hpos : ¬ (i : ℤ) < 0 := Int.not_lt.mpr (Int.natCast_nonneg i)
    simp only [hpos,false_or,Int.toNat_natCast,Option.elim_some,ne_eq,h.wireType_iff]
    by_cases hwt : f.value.wireType = wt
    · rw [if_neg (not_not.mpr hwt)]
      exact hread i f h hwt
    · rw [if_pos hwt]
      exact (hother f hwt).symm

lemma getVarint_eq (hslots : List.Forall₂ m.Slot m.slots fields) (n : ℕ) :
    m.getVarint n = (fields.find? fun f => f.fieldNumber.toNat = n).elim none
      fun f => f.value.varint? := by
  apply first_slot hslots .varint none
    fun i => some (m.readVarintAt (m.boundAt (i + 2)) (m.boundAt (i + 3)))
  · intro i f h hwt
    exact (h.varint hwt).symm
  · intro f hwt
    exact (varint?_eq_none_iff _).mpr hwt

lemma getBytes_eq (hslots : List.Forall₂ m.Slot m.slots fields) (n : ℕ) :
    m.getBytes n = (fields.find? fun f => f.fieldNumber.toNat = n).elim none
      fun f => f.value.bytes? := by
  apply first_slot hslots .lengthDelimited none
    fun i => some (m.buf.subarray (m.boundAt (i + 2)) (m.boundAt (i + 2) + m.boundAt (i + 3)))
  · intro i f h hwt
    exact (h.bytes hwt).symm
  · intro f hwt
    exact (bytes?_eq_none_iff _).mpr hwt

lemma getFixed32_eq (hslots : List.Forall₂ m.Slot m.slots fields) (n : ℕ) :
    m.getFixed32 n = (fields.find? fun f => f.fieldNumber.toNat = n).elim (.ok none)
      fun f => .ok f.value.fixed32? := by
  apply first_slot hslots .fixed32 (.ok none)
    fun i => some <$> m.buf.readUInt32LE (m.boundAt (i + 2))
  · intro i f h hwt
    exact h.fixed32 hwt
  · intro f hwt
    rw [(fixed32?_eq_none_iff _).mpr hwt]

lemma getFixed64_eq (hslots : List.Forall₂ m.Slot m.slots fields) (n : ℕ) :
    m.getFixed64 n = (fields.find? fun f => f.fieldNumber.toNat = n).elim (.ok none)
      fun f => .ok f.value.fixed64? := by
  apply first_slot hslots .fixed64 (.ok none)
    fun i => some <$> m.buf.readBigUInt64LE (m.boundAt (i + 2))
  · intro i f h hwt
    exact h.fixed64 hwt
  · intro f hwt
    rw [(fixed64?_eq_none_iff _).mpr hwt]

end getters
end LazyMessage

lemma lazyIndex_buf {buf : Slice} {m : LazyMessage} (h : lazyIndex buf = .ok m) : m.buf = buf := by
  unfold lazyIndex at h
  cases hi : indexFieldsJs buf with
  | error e =>
    rw [hi] at h
    cases h
  | ok index =>
    rw [hi] at h
    cases h
    rfl

lemma lazyIndex_len_le {buf : Slice} {m : LazyMessage} (h : lazyIndex buf = .ok m) :
    buf.len ≤ U32_MAX := by
  cases hi : indexFields buf with
  | ok entries => exact indexFields_len_le hi
  | error f =>
    rw [lazyIndex,indexFieldsJs,hi] at h
    cases f <;> cases h

lemma ok_elim_iff {α β : Type} (x : Option α) (g : α → Option β) (y : Option β) :
    (x.elim (.ok none) fun a => .ok (g a) : Except Thrown (Option β)) = .ok y ↔
      x.elim none g = y := by
  cases x <;> simp

/-- Each getter returns the first value it could read exactly if the first field with the number has
its wire type or none has, for every buffer that has a lazy message; so all four do exactly if the
fields with the number have one wire type. -/
theorem lazy_getters_first_iff (buf : Slice) (m : LazyMessage) (hm : lazyIndex buf = .ok m) :
    ∃ fields, decodeFields buf = .ok fields ∧ ∀ n,
      (m.getVarint n = firstMatch FieldValue.varint? .varint n fields ↔ Leads fields n .varint) ∧
      (m.getBytes n = firstMatch FieldValue.bytes? .lengthDelimited n fields ↔
        Leads fields n .lengthDelimited) ∧
      (m.getFixed32 n = .ok (firstMatch FieldValue.fixed32? .fixed32 n fields) ↔
        Leads fields n .fixed32) ∧
      (m.getFixed64 n = .ok (firstMatch FieldValue.fixed64? .fixed64 n fields) ↔
        Leads fields n .fixed64) ∧
      (m.getVarint n = (m.getAllVarints n).head? ↔ Leads fields n .varint) ∧
      (m.getBytes n = (m.getAllBytes n).head? ↔ Leads fields n .lengthDelimited) ∧
      (m.getVarint n = firstMatch FieldValue.varint? .varint n fields ∧
          m.getBytes n = firstMatch FieldValue.bytes? .lengthDelimited n fields ∧
          m.getFixed32 n = .ok (firstMatch FieldValue.fixed32? .fixed32 n fields) ∧
          m.getFixed64 n = .ok (firstMatch FieldValue.fixed64? .fixed64 n fields) ↔
        ∀ f ∈ fields, ∀ g ∈ fields, f.fieldNumber.toNat = n → g.fieldNumber.toNat = n →
          f.value.wireType = g.value.wireType) := by
  have hlen := lazyIndex_len_le hm
  obtain ⟨fields,hd⟩ : ∃ fields, decodeFields buf = .ok fields := by
    obtain ⟨fields,-,hmirrors⟩ := (lazyIndex_sim hlen).of_ok_left hm
    exact ⟨fields,lazyIndex_buf hm ▸ hmirrors.decodes⟩
  obtain ⟨m',hm',-,hindex,hslots⟩ := LazyMessage.lazyIndex_slots hlen hd
  obtain rfl : m = m' := Except.ok.inj (hm.symm.trans hm')
  refine ⟨fields,hd,?_⟩
  intro n
  have hagrees := LazyMessage.agrees_of_slots hindex hslots
  have hvarint : _ ↔ Leads fields n .varint := first_eq_iff varint?_eq_none_iff
  have hbytes : _ ↔ Leads fields n .lengthDelimited := first_eq_iff bytes?_eq_none_iff
  have hfixed32 : _ ↔ Leads fields n .fixed32 := first_eq_iff fixed32?_eq_none_iff
  have hfixed64 : _ ↔ Leads fields n .fixed64 := first_eq_iff fixed64?_eq_none_iff
  rw [hagrees.getAllVarints,hagrees.getAllBytes,head?_valuesOf varint?_eq_none_iff,
    head?_valuesOf bytes?_eq_none_iff,LazyMessage.getVarint_eq hslots,
    LazyMessage.getBytes_eq hslots,LazyMessage.getFixed32_eq hslots,
    LazyMessage.getFixed64_eq hslots,ok_elim_iff,ok_elim_iff]
  refine ⟨hvarint,hbytes,hfixed32,hfixed64,hvarint,hbytes,?_⟩
  rw [hvarint,hbytes,hfixed32,hfixed64,← leads_all_iff]
  constructor
  · intro ⟨hv,hb,h32,h64⟩ wt
    cases wt <;> assumption
  · intro h
    exact ⟨h _,h _,h _,h _⟩

theorem lazy_getters_first_iff_example :
    ∃ fields, decodeFields ⟨[0x08,0x96,0x01,0x08,0x07],by decide⟩ = .ok fields ∧ ∀ n,
      (LazyMessage.getVarint ⟨⟨[0x08,0x96,0x01,0x08,0x07],by decide⟩,[1,0,1,2,1,0,4,1]⟩ n =
        firstMatch FieldValue.varint? .varint n fields ↔ Leads fields n .varint) := by
  obtain ⟨fields,hf,h⟩ := lazy_getters_first_iff ⟨[0x08,0x96,0x01,0x08,0x07],by decide⟩
    ⟨⟨[0x08,0x96,0x01,0x08,0x07],by decide⟩,[1,0,1,2,1,0,4,1]⟩ (by decide +kernel)
  exact ⟨fields,hf,fun n => (h n).1⟩

/-- Field 1 as the string "a" and then as the varint 150: `getVarint` answers `null`. -/
theorem lazy_getVarint_misses :
    ¬ ∀ (buf : Slice) (m : LazyMessage) (fields : List Field) (n : ℕ), lazyIndex buf = .ok m →
      decodeFields buf = .ok fields →
      m.getVarint n = firstMatch FieldValue.varint? .varint n fields := by
  intro h
  have hmiss := h ⟨[0x0a,0x01,0x61,0x08,0x96,0x01],by decide⟩
    ⟨⟨[0x0a,0x01,0x61,0x08,0x96,0x01],by decide⟩,[1,2,2,1,1,0,4,2]⟩
    [⟨1,.bytes ⟨[0x61],by decide⟩⟩,⟨1,.varint 150⟩] 1 (by decide +kernel) (by decide +kernel)
  revert hmiss
  decide +kernel

end SignalisCodec
