import SignalisCodec.Lazy.Slots
import SignalisCodec.Theory.FirstSeen

/-! The lazy path answers as the eager one, field by field and along nested messages. -/
namespace SignalisCodec
open Strided Drain Pairing

def FieldValue.varint? : FieldValue → Option ℕ
  | varint v => some v.toNat
  | _ => none

def FieldValue.fixed64? : FieldValue → Option ℕ
  | fixed64 v => some v.toNat
  | _ => none

def FieldValue.fixed32? : FieldValue → Option ℕ
  | fixed32 v => some v.toNat
  | _ => none

def FieldValue.bytes? : FieldValue → Option Slice
  | bytes b => some b
  | _ => none

section kinds
variable (v : FieldValue)

lemma varint?_eq_none_iff : v.varint? = none ↔ v.wireType ≠ .varint := by
  cases v <;> simp [FieldValue.varint?,FieldValue.wireType]

lemma bytes?_eq_none_iff : v.bytes? = none ↔ v.wireType ≠ .lengthDelimited := by
  cases v <;> simp [FieldValue.bytes?,FieldValue.wireType]

lemma fixed32?_eq_none_iff : v.fixed32? = none ↔ v.wireType ≠ .fixed32 := by
  cases v <;> simp [FieldValue.fixed32?,FieldValue.wireType]

lemma fixed64?_eq_none_iff : v.fixed64? = none ↔ v.wireType ≠ .fixed64 := by
  cases v <;> simp [FieldValue.fixed64?,FieldValue.wireType]

end kinds

/-- The values of one kind among the fields numbered `n`, in order. -/
def valuesOf {α : Type} (get : FieldValue → Option α) (n : ℕ) (fields : List Field) : List α :=
  fields.filterMap fun f => if f.fieldNumber.toNat = n then get f.value else none

/-- The numbers of fields as JavaScript sees them. -/
def fieldNumbersOf (fields : List Field) : List ℕ := fields.map fun f => f.fieldNumber.toNat

namespace LazyMessage

/-- The lazy message answers every question as the list of fields does. -/
structure Agrees (m : LazyMessage) (fields : List Field) : Prop where
  fieldCount : m.fieldCount = fields.length
  count : ∀ n, m.count n = fields.countP fun f => f.fieldNumber.toNat = n
  has_iff_count : ∀ n, m.has n = true ↔ 0 < m.count n
  has_iff_mem : ∀ n, m.has n = true ↔ n ∈ m.fieldNumbers
  mem_fieldNumbers : ∀ n, n ∈ m.fieldNumbers ↔ n ∈ fieldNumbersOf fields
  nodup : m.fieldNumbers.Nodup
  first_seen : m.fieldNumbers.Pairwise fun a b =>
    (fieldNumbersOf fields).idxOf a < (fieldNumbersOf fields).idxOf b
  getAllVarints : ∀ n, m.getAllVarints n = valuesOf FieldValue.varint? n fields
  getAllBytes : ∀ n, m.getAllBytes n = valuesOf FieldValue.bytes? n fields
  getAllMessages : ∀ n,
    m.getAllMessages n = (valuesOf FieldValue.bytes? n fields).mapM lazyIndex

section loops
variable {m : LazyMessage} {fields : List Field}

lemma foldl_append_toList {α β : Type} (p : α → Option β) (as : List α) (out : List β) :
    as.foldl (fun out a => out ++ (p a).toList) out = out ++ as.filterMap p := by
  induction as generalizing out with
  | nil => simp
  | cons a as ih =>
    rw [List.foldl_cons,ih,List.filterMap_cons]
    cases p a <;> simp

lemma Slot.numbered_iff {i : ℕ} {f : Field} (h : m.Slot i f) (n : ℕ) :
    m.indexAt i = some n ↔ f.fieldNumber.toNat = n := by
  rw [h.number,Option.some_inj]

lemma Slot.wireType_iff {i : ℕ} {f : Field} (h : m.Slot i f) (wt : WireType) :
    m.indexAt (i + 1) = some wt.toBits.toNat ↔ f.value.wireType = wt := by
  rw [h.wireType,Option.some_inj,UInt8.toNat_inj,WireType.toBits_injective.eq_iff]

section held
variable {i : ℕ} {f : Field}

lemma Slot.varint (h : m.Slot i f) (hwt : f.value.wireType = .varint) :
    f.value.varint? = some (m.readVarintAt (m.boundAt (i + 2)) (m.boundAt (i + 3))) := by
  have hvalue := h.value
  cases hv : f.value with
  | varint v =>
    rw [hv] at hvalue
    exact congrArg some hvalue.symm
  | _ =>
    rw [hv] at hwt
    cases hwt

lemma Slot.bytes (h : m.Slot i f) (hwt : f.value.wireType = .lengthDelimited) :
    f.value.bytes? =
      some (m.buf.subarray (m.boundAt (i + 2)) (m.boundAt (i + 2) + m.boundAt (i + 3))) := by
  have hvalue := h.value
  cases hv : f.value with
  | bytes b =>
    rw [hv] at hvalue
    exact congrArg some hvalue.symm
  | _ =>
    rw [hv] at hwt
    cases hwt

lemma Slot.fixed32 (h : m.Slot i f) (hwt : f.value.wireType = .fixed32) :
    some <$> m.buf.readUInt32LE (m.boundAt (i + 2)) = .ok f.value.fixed32? := by
  have hvalue := h.value
  cases hv : f.value with
  | fixed32 v =>
    rw [hv] at hvalue
    exact congrArg (some <$> ·) hvalue
  | _ =>
    rw [hv] at hwt
    cases hwt

lemma Slot.fixed64 (h : m.Slot i f) (hwt : f.value.wireType = .fixed64) :
    some <$> m.buf.readBigUInt64LE (m.boundAt (i + 2)) = .ok f.value.fixed64? := by
  have hvalue := h.value
  cases hv : f.value with
  | fixed64 v =>
    rw [hv] at hvalue
    exact congrArg (some <$> ·) hvalue
  | _ =>
    rw [hv] at hwt
    cases hwt

end held

/-- A loop that collects what the slots of one number and wire type hold. -/
lemma collect_loop {α : Type} (hslots : List.Forall₂ m.Slot m.slots fields) (wt : WireType)
    (read : ℕ → α) (get : FieldValue → Option α)
    (hread : ∀ i f, m.Slot i f → f.value.wireType = wt → get f.value = some (read i))
    (hother : ∀ v : FieldValue, v.wireType ≠ wt → get v = none) (n : ℕ) :
    m.slots.foldl (fun out i =>
      if m.indexAt i = some n ∧ m.indexAt (i + 1) = some wt.toBits.toNat then out ++ [read i]
      else out) [] = valuesOf get n fields := by
  have hstep : ∀ (out : List α) (i : ℕ) (f : Field), m.Slot i f →
      (if m.indexAt i = some n ∧ m.indexAt (i + 1) = some wt.toBits.toNat then out ++ [read i]
        else out) = out ++ (if f.fieldNumber.toNat = n then get f.value else none).toList := by
    intro out i f h
    simp only [h.numbered_iff,h.wireType_iff]
    by_cases hn : f.fieldNumber.toNat = n
    · by_cases hwt : f.value.wireType = wt
      · simp [hn,hwt,hread i f h hwt]
      · simp [hn,hwt,hother _ hwt]
    · simp [hn]
  rw [foldl_eq_of_forall₂ hslots hstep,foldl_append_toList,List.nil_append]
  rfl

lemma getAllVarints_eq (hslots : List.Forall₂ m.Slot m.slots fields) (n : ℕ) :
    m.getAllVarints n = valuesOf FieldValue.varint? n fields := by
  apply collect_loop hslots .varint
  · intro i f h hwt
    exact h.varint hwt
  · intro v hwt
    exact (varint?_eq_none_iff v).mpr hwt

lemma getAllBytes_eq (hslots : List.Forall₂ m.Slot m.slots fields) (n : ℕ) :
    m.getAllBytes n = valuesOf FieldValue.bytes? n fields := by
  apply collect_loop hslots .lengthDelimited
  · intro i f h hwt
    exact h.bytes hwt
  · intro v hwt
    exact (bytes?_eq_none_iff v).mpr hwt

lemma foldl_count (fields : List Field) (n k : ℕ) :
    fields.foldl (fun k f => if f.fieldNumber.toNat = n then k + 1 else k) k =
      k + fields.countP fun f => f.fieldNumber.toNat = n := by
  induction fields generalizing k with
  | nil => simp
  | cons f fields ih =>
    rw [List.foldl_cons,ih,List.countP_cons]
    by_cases hn : f.fieldNumber.toNat = n
    · simp [hn]
      omega
    · simp [hn]

lemma count_eq (hslots : List.Forall₂ m.Slot m.slots fields) (n : ℕ) :
    m.count n = fields.countP fun f => f.fieldNumber.toNat = n := by
  have hstep : ∀ (k i : ℕ) (f : Field), m.Slot i f →
      (if m.indexAt i = some n then k + 1 else k) =
        if f.fieldNumber.toNat = n then k + 1 else k := by
    intro k i f h
    simp only [h.numbered_iff]
  rw [count,foldl_eq_of_forall₂ hslots hstep,foldl_count,Nat.zero_add]

/-- `slotOf` finds the slot of the first field with the number. -/
lemma slotOf_rel (hslots : List.Forall₂ m.Slot m.slots fields) (n : ℕ) :
    Option.Rel m.Slot (m.slots.find? fun i => m.indexAt i = some n)
      (fields.find? fun f => f.fieldNumber.toNat = n) := by
  apply find?_rel_of_forall₂ hslots
  intro i f h
  simp only [h.numbered_iff]

lemma has_iff (hslots : List.Forall₂ m.Slot m.slots fields) (n : ℕ) :
    m.has n = true ↔ n ∈ fieldNumbersOf fields := by
  have hrel := slotOf_rel hslots n
  unfold has slotOf
  generalize m.slots.find? _ = x at hrel
  generalize hy : fields.find? _ = y at hrel
  cases hrel with
  | none =>
    simp only [List.find?_eq_none] at hy
    simpa [fieldNumbersOf] using hy
  | @some i f h =>
    have hf := List.find?_some hy
    have hmem := List.mem_of_find?_eq_some hy
    simp only [decide_eq_true_eq] at hf
    simp only [ge_iff_le,Int.natCast_nonneg,decide_true,true_iff]
    exact List.mem_map.mpr ⟨f,hmem,hf⟩

lemma fieldNumbers_eq (hslots : List.Forall₂ m.Slot m.slots fields) :
    m.fieldNumbers = FirstSeen.collect (fieldNumbersOf fields) := by
  have hstep : ∀ (acc : Finset ℕ × List ℕ) (i : ℕ) (f : Field), m.Slot i f →
      FirstSeen.see acc (m.boundAt i) = FirstSeen.see acc f.fieldNumber.toNat := by
    intro acc i f h
    rw [boundAt,h.number,Option.getD_some]
  have hloop := foldl_eq_of_forall₂ hslots hstep (∅,[])
  rw [FirstSeen.collect,fieldNumbersOf,List.foldl_map,← hloop]
  rfl

end loops

/-- Slots that stand for the fields answer as the fields do. -/
theorem agrees_of_slots {m : LazyMessage} {fields : List Field}
    (hlen : m.index.length = STRIDE * fields.length)
    (hslots : List.Forall₂ m.Slot m.slots fields) : Agrees m fields where
  fieldCount := by
    rw [fieldCount,hlen,STRIDE]
    push_cast
    ring
  count := count_eq hslots
  has_iff_count n := by
    rw [has_iff hslots,count_eq hslots,List.countP_pos_iff]
    simp [fieldNumbersOf]
  has_iff_mem n := by rw [has_iff hslots,fieldNumbers_eq hslots,FirstSeen.mem_collect]
  mem_fieldNumbers n := by rw [fieldNumbers_eq hslots,FirstSeen.mem_collect]
  nodup := by
    rw [fieldNumbers_eq hslots]
    exact FirstSeen.collect_nodup _
  first_seen := by
    rw [fieldNumbers_eq hslots]
    exact FirstSeen.collect_pairwise _
  getAllVarints := getAllVarints_eq hslots
  getAllBytes := getAllBytes_eq hslots
  getAllMessages n := by rw [getAllMessages,getAllBytes_eq hslots]

/-- Follow a path of nested messages: at each step the `i`-th submessage numbered `n`. -/
def follow (m : LazyMessage) : List (ℕ × ℕ) → Except Thrown (Option LazyMessage)
  | [] => return some m
  | (n,i) :: path => do
    match (← m.getAllMessages n)[i]? with
    | none => return none
    | some sub => sub.follow path

end LazyMessage

/-- The flat decode, with its errors thrown as `lazyIndex` throws them. -/
def eagerFields (buf : Slice) : Except Thrown (List Field) :=
  mapErr (fun e => ⟨.invalidArg,e.toText⟩) (decodeFields buf)

/-- The same path taken by decoding every submessage numbered `n` at each step. -/
def followFields (fields : List Field) : List (ℕ × ℕ) → Except Thrown (Option (List Field))
  | [] => return some fields
  | (n,i) :: path => do
    match (← (valuesOf FieldValue.bytes? n fields).mapM eagerFields)[i]? with
    | none => return none
    | some sub => followFields sub path

section nested

lemma wire_length_le {recs : List Record} {rec : Record} (h : rec ∈ recs) :
    rec.wire.length ≤ (wires recs).length := by
  induction recs with
  | nil => cases h
  | cons rec' recs ih =>
    rw [wires_cons,List.length_append]
    rcases List.mem_cons.mp h with rfl | h
    · exact Nat.le_add_right _ _
    · exact le_trans (ih h) (Nat.le_add_left _ _)

/-- Payloads are shorter than the buffer they stand in. -/
lemma payload_len_le {buf b : Slice} {fields : List Field} {n : ℕ}
    (h : decodeFields buf = .ok fields) (hb : b ∈ valuesOf FieldValue.bytes? n fields) :
    b.len ≤ buf.len := by
  obtain ⟨recs,hw,rfl⟩ := (decodeFields_ok_iff buf fields).mp h
  obtain ⟨f,hf,hget⟩ := List.mem_filterMap.mp hb
  obtain ⟨rec,hrec,rfl⟩ := List.mem_map.mp hf
  have hvalue : rec.payload.value.bytes? = some b := by
    split at hget
    · exact hget
    · cases hget
  have hle := wire_length_le hrec
  rw [hw] at hle
  cases hp : rec.payload with
  | bytes len c hc =>
    rw [hp] at hvalue
    cases hvalue
    rw [Record.wire,hp] at hle
    simp only [Payload.wire,Payload.body,List.length_append] at hle
    unfold Slice.len
    omega
  | _ =>
    rw [hp] at hvalue
    cases hvalue

/-- A lazy message stands for the flat decode of its buffer. -/
structure LazyMessage.Mirrors (m : LazyMessage) (fields : List Field) : Prop where
  fits : m.buf.len ≤ U32_MAX
  decodes : decodeFields m.buf = .ok fields
  agrees : m.Agrees fields

/-- One level: indexing and decoding give the same error, or a message and its fields. -/
lemma lazyIndex_sim {buf : Slice} (hlen : buf.len ≤ U32_MAX) :
    SimResult LazyMessage.Mirrors (fun _ => False) (lazyIndex buf) (eagerFields buf) := by
  cases hd : decodeFields buf with
  | ok fields =>
    obtain ⟨m,hm,rfl,hindex,hslots⟩ := LazyMessage.lazyIndex_slots hlen hd
    rw [hm,eagerFields,hd]
    exact .ok ⟨hlen,hd,LazyMessage.agrees_of_slots hindex hslots⟩
  | error f =>
    rw [lazyIndex,indexFieldsJs,(indexFields_error_iff hlen).mpr hd,eagerFields,hd]
    cases f with
    | err e => exact .error _
    | panic => exact .error _
    | diverge => exact .error _

/-- Any number of levels. -/
lemma follow_sim {m : LazyMessage} {fields : List Field} (h : m.Mirrors fields)
    (path : List (ℕ × ℕ)) :
    SimResult (Option.Rel LazyMessage.Mirrors) (fun _ => False)
      (m.follow path) (followFields fields path) := by
  induction path generalizing m fields with
  | nil => exact .ok (.some h)
  | cons step path ih =>
    obtain ⟨n,i⟩ := step
    have hsubs : SimResult (List.Forall₂ LazyMessage.Mirrors) (fun _ => False)
        (m.getAllMessages n) ((valuesOf FieldValue.bytes? n fields).mapM eagerFields) := by
      rw [h.agrees.getAllMessages]
      apply mapM_sim
      intro b hb
      exact lazyIndex_sim (le_trans (payload_len_le h.decodes hb) h.fits)
    rw [LazyMessage.follow,followFields]
    generalize m.getAllMessages n = x at hsubs
    generalize (valuesOf FieldValue.bytes? n fields).mapM eagerFields = y at hsubs
    cases hsubs with
    | error e => exact .error e
    | cut _ hit => exact hit.elim
    | @ok ms fss rel =>
      have hnth := forall₂_getElem? rel i
      change SimResult _ _ (match ms[i]? with
        | none => pure none
        | some sub => sub.follow path) (match fss[i]? with
        | none => pure none
        | some sub => followFields sub path)
      generalize ms[i]? = x at hnth
      generalize fss[i]? = y at hnth
      cases hnth with
      | none => exact .ok .none
      | some hsub => exact ih hsub

end nested

/-- Up to 4 GiB: the index fails exactly as the flat decode does, always with a decode error; a lazy
message agrees with the fields of its buffer; and so on along every path of nested messages. -/
theorem lazy_agrees_with_eager (buf : Slice) (hlen : buf.len ≤ U32_MAX) :
    ((∃ entries, indexFields buf = .ok entries) ↔ ∃ fields, decodeFields buf = .ok fields) ∧
    (∀ f, indexFields buf = .error f ↔ decodeFields buf = .error f) ∧
    (∀ f, decodeFields buf = .error f → ∃ e, f = .err e) ∧
    (∀ fields, decodeFields buf = .ok fields →
      ∃ m, lazyIndex buf = .ok m ∧ m.buf = buf ∧ m.Agrees fields) ∧
    (∀ path, SimResult (Option.Rel LazyMessage.Mirrors) (fun _ => False)
      (do (← lazyIndex buf).follow path) (do followFields (← eagerFields buf) path)) := by
  refine ⟨⟨?_,?_⟩,?_,?_,?_,?_⟩
  · intro ⟨entries,h⟩
    obtain ⟨fields,hfields,-⟩ := (indexFields_sim_decodeFields hlen).of_ok_left h
    exact ⟨fields,hfields⟩
  · intro ⟨fields,h⟩
    obtain ⟨entries,hentries,-⟩ := indexFields_of_decodeFields hlen h
    exact ⟨entries,hentries⟩
  · intro f
    exact indexFields_error_iff hlen
  · intro f h
    exact (f.isMalformed_iff.mp (decodeFields_error h)).1
  · intro fields h
    obtain ⟨m,hm,hbuf,hindex,hslots⟩ := LazyMessage.lazyIndex_slots hlen h
    exact ⟨m,hm,hbuf,LazyMessage.agrees_of_slots hindex hslots⟩
  · intro path
    have hindex := lazyIndex_sim hlen
    generalize lazyIndex buf = x at hindex
    generalize eagerFields buf = y at hindex
    cases hindex with
    | ok rel => exact follow_sim rel path
    | error e => exact .error e
    | cut _ hit => exact hit.elim

theorem lazy_agrees_with_eager_example :
    ∃ m, lazyIndex ⟨[0x08,0x96,0x01,0x12,0x02,0x08,0x01,0x08,0x00],by decide⟩ = .ok m ∧
      m.buf = ⟨[0x08,0x96,0x01,0x12,0x02,0x08,0x01,0x08,0x00],by decide⟩ ∧
      m.Agrees [⟨1,.varint 150⟩,⟨2,.bytes ⟨[0x08,0x01],by decide⟩⟩,⟨1,.varint 0⟩] :=
  (lazy_agrees_with_eager _ (by decide)).2.2.2.1 _ (by decide +kernel)

end SignalisCodec
