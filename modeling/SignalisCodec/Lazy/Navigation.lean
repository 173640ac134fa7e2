import SignalisCodec.Lazy.FirstOccurrence
import SignalisCodec.Tree.Descent
import SignalisCodec.Tree.FlatRefinement

/-! Walking through nested messages: the lazy messages met on the way answer as the nodes that
`decode_tree` returns there. -/
namespace SignalisCodec
open Reader Fallible Drain Pairing

namespace Node

def varint? : Node → Option ℕ
  | .varint v => some v.toNat
  | _ => none

def fixed64? : Node → Option ℕ
  | .fixed64 v => some v.toNat
  | _ => none

def fixed32? : Node → Option ℕ
  | .fixed32 v => some v.toNat
  | _ => none

/-- A node made of a length-delimited field. -/
def isPayload : Node → Bool
  | .bytes _ => true
  | .message _ => true
  | _ => false

end Node

/-- A step into a submessage: the first field with a number, as `getMessage` takes it, or one of
the length-delimited fields with a number. -/
inductive Move where
  | leading (n : ℕ)
  | nth (n i : ℕ)
  deriving DecidableEq, Repr

/-- Where a walk through a tree ends: inside a message, at a field that is not there or is not
length-delimited, or at bytes that are no message. -/
inductive Landing where
  | inside (t : Nodes)
  | absent
  | blocked
  deriving Repr

/-- Empty bytes are the empty message. -/
def Node.enter : Node → Landing
  | .message children => .inside children
  | .bytes b => if b.isEmpty then .inside [] else .blocked
  | _ => .absent

def Move.select (t : Nodes) : Move → Option Node
  | .leading n => (t.find? fun p => p.1.toNat = n).map Prod.snd
  | .nth n i =>
    (t.filterMap fun p => if p.1.toNat = n ∧ p.2.isPayload then some p.2 else none)[i]?

def Move.landing (t : Nodes) (move : Move) : Landing := (move.select t).elim .absent Node.enter

def walkTree (t : Nodes) : List Move → Landing
  | [] => .inside t
  | move :: path =>
    match move.landing t with
    | .inside children => walkTree children path
    | .absent => .absent
    | .blocked => .blocked

namespace LazyMessage

/-- `getMessage(n)`, or `lazyIndex(getAllBytes(n)[i])`. -/
def move (m : LazyMessage) : Move → Except Thrown (Option LazyMessage)
  | .leading n => m.getMessage n
  | .nth n i =>
    match (m.getAllBytes n)[i]? with
    | none => .ok none
    | some b => some <$> lazyIndex b

def walk (m : LazyMessage) : List Move → Except Thrown (Option LazyMessage)
  | [] => .ok (some m)
  | step :: path => do
    match ← m.move step with
    | none => return none
    | some sub => sub.walk path

/-- The lazy message answers as the tree does, as far as the tree keeps what was asked for. -/
structure Shadows (m : LazyMessage) (t : Nodes) : Prop where
  fieldCount : m.fieldCount = t.length
  count : ∀ n, m.count n = t.countP fun p => p.1.toNat = n
  getVarint : ∀ n, m.getVarint n = (t.find? fun p => p.1.toNat = n).bind fun p => p.2.varint?
  getFixed32 : ∀ n,
    m.getFixed32 n = .ok ((t.find? fun p => p.1.toNat = n).bind fun p => p.2.fixed32?)
  getFixed64 : ∀ n,
    m.getFixed64 n = .ok ((t.find? fun p => p.1.toNat = n).bind fun p => p.2.fixed64?)
  getAllVarints : ∀ n,
    m.getAllVarints n = t.filterMap fun p => if p.1.toNat = n then p.2.varint? else none

end LazyMessage

/-- Both walks end alike, and where they end inside a message `R` holds of what each found. -/
inductive Lands (R : LazyMessage → Nodes → Prop) :
    Except Thrown (Option LazyMessage) → Landing → Prop
  | inside {m : LazyMessage} {t : Nodes} (rel : R m t) : Lands R (.ok (some m)) (.inside t)
  | absent : Lands R (.ok none) .absent
  | blocked (e : Thrown) : Lands R (.error e) .blocked

lemma Lands.imp {R S : LazyMessage → Nodes → Prop} {x : Except Thrown (Option LazyMessage)}
    {y : Landing} (h : Lands R x y) (hRS : ∀ m t, R m t → S m t) : Lands S x y := by
  cases h with
  | inside rel => exact .inside (hRS _ _ rel)
  | absent => exact .absent
  | blocked e => exact .blocked e

section made
variable {descend : Slice → Outcome Nodes} {p : UInt32 × Node} {f : Field} {t : Nodes}
  {fields : List Field}

lemma Node.Made.numbered_iff (h : Node.Made descend p f) (n : ℕ) :
    p.1.toNat = n ↔ f.fieldNumber.toNat = n := by
  rw [h.1]

/-- A scalar node holds what the field holds; a node made of a payload holds no scalar. -/
lemma Node.Made.scalars (h : Node.Made descend p f) :
    p.2.varint? = f.value.varint? ∧ p.2.fixed32? = f.value.fixed32? ∧
      p.2.fixed64? = f.value.fixed64? := by
  obtain ⟨n,node⟩ := p
  obtain ⟨-,hnode⟩ := h
  cases hv : f.value with
  | bytes b =>
    rw [hv] at hnode
    rcases trial_ok hnode with ⟨children,rfl⟩ | rfl
    · exact ⟨rfl,rfl,rfl⟩
    · exact ⟨rfl,rfl,rfl⟩
  | _ =>
    rw [hv] at hnode
    cases hnode
    exact ⟨rfl,rfl,rfl⟩

/-- The node a payload was made into. -/
lemma Node.Made.payload (h : Node.Made descend p f) :
    Option.Rel (fun node b => trial descend b = .ok node)
      (if p.2.isPayload then some p.2 else none) f.value.bytes? := by
  obtain ⟨n,node⟩ := p
  obtain ⟨-,hnode⟩ := h
  cases hv : f.value with
  | bytes b =>
    rw [hv] at hnode
    have hkind : node.isPayload = true := by
      rcases trial_ok hnode with ⟨children,rfl⟩ | rfl <;> rfl
    rw [if_pos hkind]
    exact .some hnode
  | _ =>
    rw [hv] at hnode
    cases hnode
    exact .none

lemma find?_made (h : List.Forall₂ (Node.Made descend) t fields) (n : ℕ) :
    Option.Rel (Node.Made descend) (t.find? fun p => p.1.toNat = n)
      (fields.find? fun f => f.fieldNumber.toNat = n) :=
  find?_rel_of_forall₂ h fun p f hpf => by simp only [hpf.numbered_iff]

lemma count_made (h : List.Forall₂ (Node.Made descend) t fields) (n : ℕ) :
    (fields.countP fun f => f.fieldNumber.toNat = n) = t.countP fun p => p.1.toNat = n := by
  induction h with
  | nil => rfl
  | cons hpf _ ih => simp only [List.countP_cons,ih,hpf.numbered_iff]

/-- The scalar of the first node with a number is that of the first field with the number. -/
lemma scalarOf_made {get : FieldValue → Option ℕ} {get' : Node → Option ℕ}
    (hget : ∀ p f, Node.Made descend p f → get' p.2 = get f.value)
    (h : List.Forall₂ (Node.Made descend) t fields) (n : ℕ) :
    ((fields.find? fun f => f.fieldNumber.toNat = n).elim none fun f => get f.value) =
      (t.find? fun p => p.1.toNat = n).bind fun p => get' p.2 := by
  have hfind := find?_made h n
  generalize t.find? _ = x at hfind
  generalize fields.find? _ = y at hfind
  cases hfind with
  | none => rfl
  | some hpf => exact (hget _ _ hpf).symm

lemma scalarsOf_made {get : FieldValue → Option ℕ} {get' : Node → Option ℕ}
    (hget : ∀ p f, Node.Made descend p f → get' p.2 = get f.value)
    (h : List.Forall₂ (Node.Made descend) t fields) (n : ℕ) :
    (t.filterMap fun p => if p.1.toNat = n then get' p.2 else none) = valuesOf get n fields := by
  induction h with
  | nil => rfl
  | cons hpf _ ih =>
    rw [valuesOf,List.filterMap_cons,List.filterMap_cons,ih]
    simp only [hpf.numbered_iff,hget _ _ hpf]
    rfl

/-- The nodes made of the payloads numbered `n`, in order. -/
lemma payloads_made (h : List.Forall₂ (Node.Made descend) t fields) (n : ℕ) :
    List.Forall₂ (fun node b => trial descend b = .ok node)
      (t.filterMap fun p => if p.1.toNat = n ∧ p.2.isPayload then some p.2 else none)
      (valuesOf FieldValue.bytes? n fields) := by
  refine List.rel_filterMap (fun p f hpf => ?_) h
  by_cases hn : f.fieldNumber.toNat = n
  · simpa only [hpf.numbered_iff,hn,true_and,if_true] using hpf.payload
  · simp only [hpf.numbered_iff,hn,false_and,if_false]
    exact .none

end made

section levels
variable {maxDepth depth : UInt32} {buf b : Slice} {t : Nodes} {m : LazyMessage}

/-- A lazy message over the bytes that `decode_tree_inner` made a tree of. -/
structure LazyMessage.Over (maxDepth depth : UInt32) (m : LazyMessage) (t : Nodes)
    (fields : List Field) : Prop where
  fits : m.buf.len ≤ U32_MAX
  decodes : decodeFields m.buf = .ok fields
  length : m.index.length = STRIDE * fields.length
  slots : List.Forall₂ m.Slot m.slots fields
  made : List.Forall₂ (Node.Made (descent maxDepth depth)) t fields

/-- The flat decode below a tree. -/
lemma decodeFields_of_tree (h : decodeTreeInner buf maxDepth depth = .ok t) :
    ∃ fields, decodeFields buf = .ok fields ∧
      List.Forall₂ (Node.Made (descent maxDepth depth)) t fields := by
  rcases UInt32.lt_or_le maxDepth depth with hlt | hle
  · rw [decodeTreeInner_of_lt hlt] at h
    cases h
  · rw [decodeTreeInner_of_le hle,(decodeNode_takesRecord _).readAll_ok_iff] at h
    obtain ⟨recs,hwires,hrecs⟩ := h
    refine ⟨recs.map Record.field,(decodeFields_ok_iff _ _).mpr ⟨recs,hwires,rfl⟩,?_⟩
    rw [List.forall₂_map_right_iff]
    exact (hrecs.imp fun rec p hp => ⟨hp.1.symm,hp.2⟩).flip

/-- Bytes that fail as a tree for another reason than depth fail as a list of fields. -/
lemma decodeFields_of_tree_error {e : DecodeError}
    (h : decodeTreeInner buf maxDepth depth = .error (.err e))
    (he : ¬ (Failure.err e).IsDepthLimit) : decodeFields buf = .error (.err e) := by
  rcases UInt32.lt_or_le maxDepth depth with hlt | hle
  · rw [decodeTreeInner_of_lt hlt] at h
    cases h
    exact absurd trivial he
  · rw [decodeTreeInner_of_le hle,(decodeNode_takesRecord _).readAll_error_iff] at h
    obtain ⟨recs,as,r,r',hreads,-,hne,hbody⟩ := h
    rcases decodeNode_error_cases (hreads.inBounds (inBounds_new buf)) hbody with
      hscan | ⟨rec,b,r₁,-,-,htrial⟩
    · refine (decodeField_takesRecord.readAll_error_iff buf _).mpr
        ⟨recs,recs.map Record.field,r,r',hreads,?_,hne,?_⟩
      · rw [List.forall₂_map_right_iff]
        exact List.forall₂_same.mpr fun _ _ => rfl
      · rw [decodeField_eq]
        exact map_error hscan _
    · exact absurd ((Failure.isMalformed_iff _).mpr ⟨⟨e,rfl⟩,he⟩) (trial_error_eq htrial).2

lemma lazyIndex_over (hlen : buf.len ≤ U32_MAX) (h : decodeTreeInner buf maxDepth depth = .ok t) :
    ∃ m fields, lazyIndex buf = .ok m ∧ m.buf = buf ∧ m.Over maxDepth depth t fields := by
  obtain ⟨fields,hfields,hmade⟩ := decodeFields_of_tree h
  obtain ⟨m,hm,rfl,hlength,hslots⟩ := LazyMessage.lazyIndex_slots hlen hfields
  exact ⟨m,fields,hm,rfl,hlen,hfields,hlength,hslots,hmade⟩

lemma lazyIndex_blocked (hlen : buf.len ≤ U32_MAX) {f : Failure}
    (h : decodeFields buf = .error f) : ∃ e, lazyIndex buf = .error e := by
  cases hl : lazyIndex buf with
  | error e => exact ⟨e,rfl⟩
  | ok m =>
    obtain ⟨fields,heager,-⟩ := (lazyIndex_sim hlen).of_ok_left hl
    rw [eagerFields,h] at heager
    cases f <;> cases heager

lemma decodeFields_of_isEmpty (h : b.isEmpty = true) : decodeFields b = .ok [] := by
  have hnil : b.bytes = [] := by simpa [Slice.isEmpty,Slice.len] using h
  exact (decodeFields_ok_iff b []).mpr ⟨[],hnil.symm,rfl⟩

/-- Entering a payload: what the trial parse decided is what the index finds. -/
lemma enter_lands (hlen : b.len ≤ U32_MAX) {node : Node}
    (h : trial (descent maxDepth depth) b = .ok node) :
    Lands (fun sub children => sub.buf = b ∧
        ∃ fields, sub.Over maxDepth (depth + 1) children fields)
      (some <$> lazyIndex b) node.enter := by
  have hfits : depth.toNat + 1 < UInt32.size := by
    by_contra hover
    unfold trial descent at h
    rw [if_neg hover] at h
    cases h
  have hdescent : descent maxDepth depth b = decodeTreeInner b maxDepth (depth + 1) :=
    descent_of_fits hfits b
  rcases trial_ok h with ⟨children,rfl⟩ | rfl
  · obtain ⟨-,hchildren⟩ := trial_eq_message_iff.mp h
    rw [hdescent] at hchildren
    obtain ⟨sub,fields,hsub,hbuf,hover⟩ := lazyIndex_over hlen hchildren
    rw [hsub]
    exact .inside ⟨hbuf,fields,hover⟩
  · obtain ⟨-,⟨hempty,children,hchildren⟩ | ⟨e,herror,he⟩⟩ := trial_eq_bytes_iff.mp h
    · rw [hdescent] at hchildren
      obtain ⟨sub,fields,hsub,hbuf,hover⟩ := lazyIndex_over hlen hchildren
      have hfields := hover.decodes
      rw [hbuf,decodeFields_of_isEmpty hempty] at hfields
      cases hfields
      obtain rfl : children = [] := List.forall₂_nil_right_iff.mp hover.made
      rw [hsub,Node.enter,if_pos hempty]
      exact .inside ⟨hbuf,[],hover⟩
    · rw [hdescent] at herror
      have hfields := decodeFields_of_tree_error herror he
      have hfull : ¬ b.isEmpty = true := by
        intro hempty
        rw [decodeFields_of_isEmpty hempty] at hfields
        cases hfields
      obtain ⟨e',hblocked⟩ := lazyIndex_blocked hlen hfields
      rw [hblocked,Node.enter,if_neg hfull]
      exact .blocked e'

/-- A payload found in a lazy message is two bytes shorter than the message. -/
lemma LazyMessage.Over.payload_room {fields : List Field} (h : m.Over maxDepth depth t fields)
    {f : Field} (hf : f ∈ fields) (hb : f.value = .bytes b) : b.len + 2 ≤ m.buf.len := by
  obtain ⟨recs,hwires,rfl⟩ := (decodeFields_ok_iff _ _).mp h.decodes
  obtain ⟨rec,hrec,rfl⟩ := List.mem_map.mp hf
  have hroom := rec.payloadLen_add_two_le
  have hle := wire_length_le hrec
  have hvalue : rec.payload.value = .bytes b := hb
  rw [hvalue] at hroom
  rw [hwires] at hle
  exact hroom.trans hle

/-- A payload found in a lazy message and the node made of it. -/
lemma LazyMessage.Over.payload_lands {fields : List Field} (h : m.Over maxDepth depth t fields)
    {f : Field} (hf : f ∈ fields) (hb : f.value = .bytes b) {node : Node}
    (htrial : trial (descent maxDepth depth) b = .ok node) :
    Lands (fun sub children => sub.buf.len + 2 ≤ m.buf.len ∧
        ∃ fields, sub.Over maxDepth (depth + 1) children fields)
      (some <$> lazyIndex b) node.enter := by
  have hroom := h.payload_room hf hb
  have hfits := h.fits
  refine (enter_lands (by omega) htrial).imp fun sub children hsub => ⟨?_,hsub.2⟩
  rw [hsub.1]
  exact hroom

lemma mem_payloads {fields : List Field} {n : ℕ} (h : b ∈ valuesOf FieldValue.bytes? n fields) :
    ∃ f ∈ fields, f.value = .bytes b := by
  obtain ⟨f,hf,hget⟩ := List.mem_filterMap.mp h
  refine ⟨f,hf,?_⟩
  split at hget
  · cases hv : f.value with
    | bytes c =>
      rw [hv] at hget
      cases hget
      rfl
    | _ =>
      rw [hv] at hget
      cases hget
  · cases hget

lemma LazyMessage.Over.leading_lands {fields : List Field} (h : m.Over maxDepth depth t fields)
    (n : ℕ) :
    Lands (fun sub children => sub.buf.len + 2 ≤ m.buf.len ∧
        ∃ fields, sub.Over maxDepth (depth + 1) children fields)
      (m.move (.leading n)) ((Move.leading n).landing t) := by
  have hfind := find?_made h.made n
  rw [LazyMessage.move,getMessage,getBytes_eq h.slots,Move.landing,Move.select]
  generalize t.find? _ = x at hfind
  generalize hy : fields.find? _ = y at hfind
  cases hfind with
  | none => exact .absent
  | @some p f hpf =>
    obtain ⟨k,node⟩ := p
    obtain ⟨-,hnode⟩ := hpf
    cases hv : f.value with
    | bytes b =>
      rw [hv] at hnode
      simp only [Option.elim_some,hv,FieldValue.bytes?]
      exact h.payload_lands (List.mem_of_find?_eq_some hy) hv hnode
    | _ =>
      rw [hv] at hnode
      cases hnode
      simp only [Option.elim_some,hv,FieldValue.bytes?]
      exact .absent

lemma LazyMessage.Over.nth_lands {fields : List Field} (h : m.Over maxDepth depth t fields)
    (n i : ℕ) :
    Lands (fun sub children => sub.buf.len + 2 ≤ m.buf.len ∧
        ∃ fields, sub.Over maxDepth (depth + 1) children fields)
      (m.move (.nth n i)) ((Move.nth n i).landing t) := by
  have hnth := forall₂_getElem? (payloads_made h.made n) i
  rw [LazyMessage.move,getAllBytes_eq h.slots,Move.landing,Move.select]
  generalize (t.filterMap _)[i]? = x at hnth
  generalize hy : (valuesOf FieldValue.bytes? n fields)[i]? = y at hnth
  cases hnth with
  | none => exact .absent
  | @some node b htrial =>
    obtain ⟨f,hf,hb⟩ := mem_payloads (List.mem_of_getElem? hy)
    exact h.payload_lands hf hb htrial

/-- One step of both walks. -/
lemma LazyMessage.Over.move_lands {fields : List Field} (h : m.Over maxDepth depth t fields)
    (step : Move) :
    Lands (fun sub children => sub.buf.len + 2 ≤ m.buf.len ∧
        ∃ fields, sub.Over maxDepth (depth + 1) children fields)
      (m.move step) (step.landing t) := by
  cases step with
  | leading n => exact h.leading_lands n
  | nth n i => exact h.nth_lands n i

/-- A lazy message over the bytes of a tree answers as the tree. -/
lemma LazyMessage.Over.shadows {fields : List Field} (h : m.Over maxDepth depth t fields) :
    m.Shadows t := by
  have hagrees := agrees_of_slots h.length h.slots
  have hvarint := fun p f (hpf : Node.Made (descent maxDepth depth) p f) => hpf.scalars.1
  have hfixed32 := fun p f (hpf : Node.Made (descent maxDepth depth) p f) => hpf.scalars.2.1
  have hfixed64 := fun p f (hpf : Node.Made (descent maxDepth depth) p f) => hpf.scalars.2.2
  constructor
  · rw [hagrees.fieldCount,h.made.length_eq]
  · intro n
    rw [hagrees.count,count_made h.made]
  · intro n
    rw [getVarint_eq h.slots,scalarOf_made hvarint h.made]
  · intro n
    rw [getFixed32_eq h.slots,← scalarOf_made hfixed32 h.made]
    cases fields.find? fun f => f.fieldNumber.toNat = n <;> rfl
  · intro n
    rw [getFixed64_eq h.slots,← scalarOf_made hfixed64 h.made]
    cases fields.find? fun f => f.fieldNumber.toNat = n <;> rfl
  · intro n
    rw [hagrees.getAllVarints,scalarsOf_made hvarint h.made]

/-- Both walks, any number of levels down. -/
theorem LazyMessage.Over.walk_lands {fields : List Field} (h : m.Over maxDepth depth t fields)
    (path : List Move) :
    Lands (fun sub children => sub.buf.len + 2 * path.length ≤ m.buf.len ∧ sub.Shadows children)
      (m.walk path) (walkTree t path) := by
  induction path generalizing m t depth fields with
  | nil => exact .inside ⟨le_rfl,h.shadows⟩
  | cons step path ih =>
    have hstep := h.move_lands step
    rw [LazyMessage.walk,walkTree]
    generalize m.move step = x at hstep
    generalize step.landing t = y at hstep
    cases hstep with
    | absent => exact .absent
    | blocked e => exact .blocked e
    | inside rel =>
      obtain ⟨hroom,fields',hover⟩ := rel
      refine (ih hover).imp fun sub children hsub => ⟨?_,hsub.2⟩
      have := hsub.1
      rw [List.length_cons]
      omega

end levels

/-- Up to 4 GiB, walking through the nested messages of a buffer whose tree is returned: lazily and
in the tree a walk finds a message, finds nothing, or fails on bytes that are no message, and what
it finds answers alike; every step leads to a message at least two bytes shorter. -/
theorem lazy_walks_tree (buf : Slice) (hlen : buf.len ≤ U32_MAX) (maxDepth : UInt32) (t : Nodes)
    (h : decodeTree buf maxDepth = .ok t) :
    ∃ m, lazyIndex buf = .ok m ∧ ∀ path,
      Lands (fun sub children =>
          sub.buf.len + 2 * path.length ≤ buf.len ∧ sub.Shadows children)
        (m.walk path) (walkTree t path) := by
  obtain ⟨m,fields,hm,rfl,hover⟩ := lazyIndex_over hlen h
  exact ⟨m,hm,hover.walk_lands⟩

theorem lazy_walks_tree_example :
    ∃ m, lazyIndex ⟨[0x0a,0x02,0x08,0x01,0x0a,0x01,0x08],by decide⟩ = .ok m ∧ ∀ path,
      Lands (fun sub children => sub.buf.len + 2 * path.length ≤ 7 ∧ sub.Shadows children)
        (m.walk path)
        (walkTree [(1,.message [(1,.varint 1)]),(1,.bytes ⟨[0x08],by decide⟩)] path) :=
  lazy_walks_tree ⟨[0x0a,0x02,0x08,0x01,0x0a,0x01,0x08],by decide⟩ (by decide) 1 _
    (by decide +kernel)

end SignalisCodec
