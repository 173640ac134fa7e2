import SignalisCodec.Core.Wire

/-! The wire decoder: the flat list of fields of a buffer, and the recursive tree of its
submessages under a depth limit. -/
namespace SignalisCodec
open Reader

/-- The raw value of a single decoded field. -/
inductive FieldValue where
  | varint (v : UInt64)
  | fixed64 (v : UInt64)
  | fixed32 (v : UInt32)
  | bytes (b : Slice)
  deriving DecidableEq, Repr

@[ext] structure Field where
  fieldNumber : UInt32
  value : FieldValue
  deriving DecidableEq, Repr

/-- One iteration of the loop of `decode_fields`. -/
def decodeField : ReadM Field := do
  let keyPos ← position
  let key ← readVarint
  let key ← lift (FieldKey.fromVarint key keyPos)
  let value ← match key.wireType with
    | .varint => FieldValue.varint <$> readVarint
    | .fixed64 => FieldValue.fixed64 <$> readFixed64
    | .fixed32 => FieldValue.fixed32 <$> readFixed32
    | .lengthDelimited => do
      let lenPos ← position
      let len ← readVarint
      let len ← lift (lengthFromVarint len lenPos)
      FieldValue.bytes <$> readBytes len
  return ⟨key.fieldNumber,value⟩

/-- Decode a single flat level of fields. -/
def decodeFields (buf : Slice) : Outcome (List Field) := readAll decodeField buf

/-- A fully recursive view of a decoded message. -/
inductive Node where
  | varint (v : UInt64)
  | fixed64 (v : UInt64)
  | fixed32 (v : UInt32)
  | bytes (b : Slice)
  | message (children : List (UInt32 × Node))
  deriving Repr

/-- A decoded message: its fields in order, with their numbers. -/
abbrev Nodes := List (UInt32 × Node)

mutual
def Node.decEq : (a b : Node) → Decidable (a = b)
  | .varint v,.varint w => decidable_of_iff (v = w) (by simp)
  | .fixed64 v,.fixed64 w => decidable_of_iff (v = w) (by simp)
  | .fixed32 v,.fixed32 w => decidable_of_iff (v = w) (by simp)
  | .bytes b,.bytes c => decidable_of_iff (b = c) (by simp)
  | .message ns,.message ms => @decidable_of_iff _ (ns = ms) (by simp) (Nodes.decEq ns ms)
  | .varint _,.fixed64 _ | .varint _,.fixed32 _ | .varint _,.bytes _ | .varint _,.message _
  | .fixed64 _,.varint _ | .fixed64 _,.fixed32 _ | .fixed64 _,.bytes _ | .fixed64 _,.message _
  | .fixed32 _,.varint _ | .fixed32 _,.fixed64 _ | .fixed32 _,.bytes _ | .fixed32 _,.message _
  | .bytes _,.varint _ | .bytes _,.fixed64 _ | .bytes _,.fixed32 _ | .bytes _,.message _
  | .message _,.varint _ | .message _,.fixed64 _ | .message _,.fixed32 _
  | .message _,.bytes _ => isFalse nofun

def Nodes.decEq : (ns ms : Nodes) → Decidable (ns = ms)
  | [],[] => isTrue rfl
  | [],_ :: _ => isFalse nofun
  | _ :: _,[] => isFalse nofun
  | (n,a) :: ns,(m,b) :: ms =>
    have := Node.decEq a b
    have := Nodes.decEq ns ms
    decidable_of_iff (n = m ∧ a = b ∧ ns = ms) (by simp [and_assoc])
end

instance : DecidableEq Node := Node.decEq

/-- The `match` on a trial parse of `sub`: a submessage, opaque bytes, or a violation of the depth
limit, which must not be swallowed. Neither is a failure of the program itself. -/
def classify (sub : Slice) : Outcome Nodes → Outcome Node
  | .ok children => if !sub.isEmpty then .ok (.message children) else .ok (.bytes sub)
  | .error (.err (.depthLimitExceeded limit position)) =>
    .error (.err (.depthLimitExceeded limit position))
  | .error (.err _) => .ok (.bytes sub)
  | .error .panic => .error .panic
  | .error .diverge => .error .diverge

/-- One iteration of the loop of `decode_tree_inner`, given its recursive call. -/
def decodeNode (descend : Slice → Outcome Nodes) : ReadM (UInt32 × Node) := do
  let keyPos ← position
  let key ← readVarint
  let key ← lift (FieldKey.fromVarint key keyPos)
  let node ← match key.wireType with
    | .varint => Node.varint <$> readVarint
    | .fixed64 => Node.fixed64 <$> readFixed64
    | .fixed32 => Node.fixed32 <$> readFixed32
    | .lengthDelimited => do
      let lenPos ← position
      let len ← readVarint
      let len ← lift (lengthFromVarint len lenPos)
      let sub ← readBytes len
      match classify sub (descend sub) with
      | .ok node => pure node
      | .error e => throw e
  return (key.fieldNumber,node)

def decodeTreeInner (buf : Slice) (maxDepth depth : UInt32) : Outcome Nodes :=
  if depth > maxDepth then
    .error (.err (.depthLimitExceeded maxDepth 0))
  else
    readAll (decodeNode fun sub =>
      if depth.toNat + 1 < UInt32.size then decodeTreeInner sub maxDepth (depth + 1)
      else .error .panic) buf
termination_by maxDepth.toNat + 1 - depth.toNat
decreasing_by
  rename_i hdepth hfits
  have hle : depth.toNat ≤ maxDepth.toNat := by simpa [UInt32.lt_iff_toNat_lt] using hdepth
  rw [UInt32.toNat_add]
  simp only [UInt32.size] at hfits
  simp
  omega

/-- Recursively decode `buf`, descending into length-delimited fields that parse cleanly as
submessages, and enforcing `maxDepth`. -/
def decodeTree (buf : Slice) (maxDepth : UInt32) : Outcome Nodes := decodeTreeInner buf maxDepth 0

end SignalisCodec
