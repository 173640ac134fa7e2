import SignalisCodec.Grammar.Concatenation
import SignalisCodec.Lazy.FirstOccurrence

/-! What a lazy message answers about a field number depends on the values of the fields with that
number only, so messages can be laid one after the other. -/
namespace SignalisCodec

/-- The values of the fields numbered `n`, in order. -/
def numbered (n : ℕ) (fields : List Field) : List FieldValue :=
  (fields.filter fun f => f.fieldNumber.toNat = n).map Field.value

namespace LazyMessage

/-- Asked about `n`, the message answers from these values. -/
structure Holds (m : LazyMessage) (n : ℕ) (values : List FieldValue) : Prop where
  count : m.count n = values.length
  has : m.has n = !values.isEmpty
  getVarint : m.getVarint n = values.head?.bind FieldValue.varint?
  getBytes : m.getBytes n = values.head?.bind FieldValue.bytes?
  getFixed32 : m.getFixed32 n = .ok (values.head?.bind FieldValue.fixed32?)
  getFixed64 : m.getFixed64 n = .ok (values.head?.bind FieldValue.fixed64?)
  getAllVarints : m.getAllVarints n = values.filterMap FieldValue.varint?
  getAllBytes : m.getAllBytes n = values.filterMap FieldValue.bytes?

section holds
variable {fields : List Field} {n : ℕ}

lemma valuesOf_eq {α : Type} (get : FieldValue → Option α) :
    valuesOf get n fields = (numbered n fields).filterMap get := by
  rw [valuesOf,numbered,List.filterMap_map,List.filterMap_filter]
  simp only [decide_eq_true_eq]
  rfl

lemma first_numbered {α : Type} (get : FieldValue → Option α) :
    ((fields.find? fun f => f.fieldNumber.toNat = n).elim none fun f => get f.value) =
      (numbered n fields).head?.bind get := by
  rw [numbered,List.head?_map,List.head?_filter]
  cases fields.find? _ <;> rfl

lemma first_numbered_ok {α : Type} (get : FieldValue → Option α) :
    ((fields.find? fun f => f.fieldNumber.toNat = n).elim (.ok none) fun f => .ok (get f.value) :
      Except Thrown (Option α)) = .ok ((numbered n fields).head?.bind get) := by
  rw [← first_numbered]
  cases fields.find? _ <;> rfl

variable {m : LazyMessage}

lemma holds_of_slots (hslots : List.Forall₂ m.Slot m.slots fields) (n : ℕ) :
    m.Holds n (numbered n fields) where
  count := by
    rw [count_eq hslots,numbered,List.length_map,List.countP_eq_length_filter]
  has := by
    rw [Bool.eq_iff_iff,has_iff hslots]
    simp [numbered,fieldNumbersOf]
  getVarint := by rw [getVarint_eq hslots,first_numbered]
  getBytes := by rw [getBytes_eq hslots,first_numbered]
  getFixed32 := by rw [getFixed32_eq hslots,first_numbered_ok]
  getFixed64 := by rw [getFixed64_eq hslots,first_numbered_ok]
  getAllVarints := by rw [getAllVarints_eq hslots,valuesOf_eq]
  getAllBytes := by rw [getAllBytes_eq hslots,valuesOf_eq]

end holds

/-- A lazy message and the fields it stands for. -/
structure Views (m : LazyMessage) (fields : List Field) : Prop where
  fieldCount : m.fieldCount = fields.length
  fieldNumbers : m.fieldNumbers = FirstSeen.collect (fieldNumbersOf fields)
  holds : ∀ n, m.Holds n (numbered n fields)

lemma lazyIndex_of_fields {buf : Slice} {fields : List Field} (hlen : buf.len ≤ U32_MAX)
    (h : decodeFields buf = .ok fields) : ∃ m, lazyIndex buf = .ok m ∧ m.Views fields := by
  obtain ⟨m,hm,-,hindex,hslots⟩ := lazyIndex_slots hlen h
  have hagrees := agrees_of_slots hindex hslots
  exact ⟨m,hm,hagrees.fieldCount,fieldNumbers_eq hslots,holds_of_slots hslots⟩

lemma lazyIndex_views {buf : Slice} {m : LazyMessage} (h : lazyIndex buf = .ok m) :
    ∃ fields, decodeFields buf = .ok fields ∧ m.Views fields := by
  have hlen := lazyIndex_len_le h
  obtain ⟨fields,-,hmirrors⟩ := (lazyIndex_sim hlen).of_ok_left h
  have hfields := lazyIndex_buf h ▸ hmirrors.decodes
  obtain ⟨m',hm',hviews⟩ := lazyIndex_of_fields hlen hfields
  obtain rfl : m = m' := Except.ok.inj (h.symm.trans hm')
  exact ⟨fields,hfields,hviews⟩

/-- Asked about `n`, the message answers as `ma` followed by `mb`: occurrences are listed one after
the other, and the first one is that of `ma` if it has any. -/
structure Joins (m ma mb : LazyMessage) (n : ℕ) : Prop where
  count : m.count n = ma.count n + mb.count n
  has : m.has n = (ma.has n || mb.has n)
  getVarint : m.getVarint n = if ma.has n then ma.getVarint n else mb.getVarint n
  getUint32 : m.getUint32 n = if ma.has n then ma.getUint32 n else mb.getUint32 n
  getBool : m.getBool n = if ma.has n then ma.getBool n else mb.getBool n
  getBytes : m.getBytes n = if ma.has n then ma.getBytes n else mb.getBytes n
  getFixed32 : m.getFixed32 n = if ma.has n then ma.getFixed32 n else mb.getFixed32 n
  getFixed64 : m.getFixed64 n = if ma.has n then ma.getFixed64 n else mb.getFixed64 n
  getMessage : m.getMessage n = if ma.has n then ma.getMessage n else mb.getMessage n
  getAllVarints : m.getAllVarints n = ma.getAllVarints n ++ mb.getAllVarints n
  getAllUint32 : m.getAllUint32 n = ma.getAllUint32 n ++ mb.getAllUint32 n
  getAllBytes : m.getAllBytes n = ma.getAllBytes n ++ mb.getAllBytes n
  getAllMessages : m.getAllMessages n = do
    return (← ma.getAllMessages n) ++ (← mb.getAllMessages n)

section joins
variable {m ma mb : LazyMessage} {n : ℕ} {as bs : List FieldValue}

/-- What only looks at the first value looks into `ma` first. -/
lemma head?_append_bind {α β : Type} (as bs : List α) (get : α → Option β) :
    (as ++ bs).head?.bind get = if !as.isEmpty then as.head?.bind get else bs.head?.bind get := by
  cases as <;> rfl

lemma Holds.joins (h : m.Holds n (as ++ bs)) (ha : ma.Holds n as) (hb : mb.Holds n bs) :
    m.Joins ma mb n := by
  have hvarint : m.getVarint n = if ma.has n then ma.getVarint n else mb.getVarint n := by
    rw [h.getVarint,ha.getVarint,hb.getVarint,ha.has,head?_append_bind]
  have hbytes : m.getBytes n = if ma.has n then ma.getBytes n else mb.getBytes n := by
    rw [h.getBytes,ha.getBytes,hb.getBytes,ha.has,head?_append_bind]
  have hvarints : m.getAllVarints n = ma.getAllVarints n ++ mb.getAllVarints n := by
    rw [h.getAllVarints,ha.getAllVarints,hb.getAllVarints,List.filterMap_append]
  have hall : m.getAllBytes n = ma.getAllBytes n ++ mb.getAllBytes n := by
    rw [h.getAllBytes,ha.getAllBytes,hb.getAllBytes,List.filterMap_append]
  constructor
  case getVarint => exact hvarint
  case getBytes => exact hbytes
  case getAllVarints => exact hvarints
  case getAllBytes => exact hall
  case count => rw [h.count,ha.count,hb.count,List.length_append]
  case has =>
    rw [h.has,ha.has,hb.has]
    cases as <;> rfl
  case getUint32 =>
    rw [getUint32,hvarint]
    cases ma.has n <;> rfl
  case getBool =>
    rw [getBool,hvarint]
    cases ma.has n <;> rfl
  case getFixed32 =>
    rw [h.getFixed32,ha.getFixed32,hb.getFixed32,ha.has,head?_append_bind,apply_ite Except.ok]
  case getFixed64 =>
    rw [h.getFixed64,ha.getFixed64,hb.getFixed64,ha.has,head?_append_bind,apply_ite Except.ok]
  case getMessage =>
    rw [getMessage,hbytes]
    cases ma.has n <;> rfl
  case getAllUint32 =>
    rw [getAllUint32,hvarints,List.map_append]
    rfl
  case getAllMessages =>
    rw [getAllMessages,hall,List.mapM_append]
    rfl

end joins
end LazyMessage

section concat
open LazyMessage

lemma numbered_append (n : ℕ) (fields fields' : List Field) :
    numbered n (fields ++ fields') = numbered n fields ++ numbered n fields' := by
  rw [numbered,List.filter_append,List.map_append]
  rfl

/-- The lazy message of two messages one after the other, from their lazy messages. -/
theorem lazyIndex_concat (a b whole : Slice) (hwhole : whole.bytes = a.bytes ++ b.bytes)
    (hlen : whole.len ≤ U32_MAX) (ma mb : LazyMessage) (ha : lazyIndex a = .ok ma)
    (hb : lazyIndex b = .ok mb) :
    ∃ m, lazyIndex whole = .ok m ∧ m.fieldCount = ma.fieldCount + mb.fieldCount ∧
      m.fieldNumbers = ma.fieldNumbers ++ mb.fieldNumbers.filter (· ∉ ma.fieldNumbers) ∧
      ∀ n, m.Joins ma mb n := by
  obtain ⟨fields,hfields,hviews⟩ := lazyIndex_views ha
  obtain ⟨fields',hfields',hviews'⟩ := lazyIndex_views hb
  have hdecode : decodeFields whole = .ok (fields ++ fields') := by
    rw [decodeFields_concat hwhole hfields,hfields']
    rfl
  obtain ⟨m,hm,hmviews⟩ := lazyIndex_of_fields hlen hdecode
  refine ⟨m,hm,?_,?_,?_⟩
  · rw [hmviews.fieldCount,hviews.fieldCount,hviews'.fieldCount,List.length_append]
    exact Nat.cast_add _ _
  · rw [hmviews.fieldNumbers,hviews.fieldNumbers,hviews'.fieldNumbers,fieldNumbersOf,
      List.map_append,FirstSeen.collect_append]
    simp only [FirstSeen.mem_collect]
    rfl
  · intro n
    have hholds := hmviews.holds n
    rw [numbered_append] at hholds
    exact hholds.joins (hviews.holds n) (hviews'.holds n)

theorem lazyIndex_concat_example :
    ∃ m, lazyIndex ⟨[0x08,0x01,0x08,0x02,0x10,0x03],by decide⟩ = .ok m ∧
      m.getVarint 1 = some 1 ∧ m.getVarint 2 = some 3 ∧ m.getAllVarints 1 = [1,2] := by
  obtain ⟨m,hm,-,-,hjoins⟩ := lazyIndex_concat ⟨[0x08,0x01],by decide⟩
    ⟨[0x08,0x02,0x10,0x03],by decide⟩ ⟨[0x08,0x01,0x08,0x02,0x10,0x03],by decide⟩ rfl (by decide)
    ⟨⟨[0x08,0x01],by decide⟩,[1,0,1,1]⟩
    ⟨⟨[0x08,0x02,0x10,0x03],by decide⟩,[1,0,1,1,2,0,3,1]⟩ (by decide +kernel) (by decide +kernel)
  refine ⟨m,hm,?_,?_,?_⟩
  · rw [(hjoins 1).getVarint]
    decide +kernel
  · rw [(hjoins 2).getVarint]
    decide +kernel
  · rw [(hjoins 1).getAllVarints]
    decide +kernel

end concat
end SignalisCodec
