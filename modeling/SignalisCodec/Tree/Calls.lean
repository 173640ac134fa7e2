import SignalisCodec.Theory.Audit
import SignalisCodec.Theory.Levels
import SignalisCodec.Tree.Descent

/-! The calls of a recursive decode, written down as they are made, those of abandoned trial parses
and of a failing decode too: each fits the bytes of the one it is made from, with two to spare. -/
namespace SignalisCodec
open Reader Fallible Drain Audit Levels

/-- A call of `decode_tree_inner`, at a depth and on the bytes its loop walks. -/
structure Call where
  depth : UInt32
  buf : Slice
  deriving DecidableEq, Repr

namespace Call

def level (call : Call) : ℕ := call.depth.toNat
def len (call : Call) : ℕ := call.buf.len

end Call

/-- The calls a value of a record leads to. -/
def FieldValue.calls (descend : Slice → Outcome Nodes × List Call) : FieldValue → List Call
  | .bytes sub => (descend sub).2
  | _ => []

/-- The use the loop body of `decode_tree_inner` makes of a record it has passed over: a payload is
handed to the recursive call, whose calls are noted before its result is looked at. -/
def Scan.auditNode (descend : Slice → Outcome Nodes × List Call) (s : Scan) :
    EStateM Failure (Reader × List Call) (UInt32 × Node) := do
  write (s.value.calls descend)
  quiet (s.node (trial fun sub => (descend sub).1))

/-- One iteration of the loop of `decode_tree_inner`, with the calls made in it. -/
def auditNode (descend : Slice → Outcome Nodes × List Call) :
    EStateM Failure (Reader × List Call) (UInt32 × Node) :=
  quiet scanRecord >>= Scan.auditNode descend

/-- `decode_tree_inner` with a list of all calls made from it on, itself included. -/
def auditTree (buf : Slice) (maxDepth depth : UInt32) : Outcome Nodes × List Call :=
  if depth > maxDepth then
    (.error (.err (.depthLimitExceeded maxDepth 0)),[⟨depth,buf⟩])
  else
    let result := run loop (auditNode fun sub =>
      if depth.toNat + 1 < UInt32.size then auditTree sub maxDepth (depth + 1)
      else (.error .panic,[])) (new buf,[⟨depth,buf⟩]) []
    (outcome result,logOf result)
termination_by maxDepth.toNat + 1 - depth.toNat
decreasing_by
  rename_i hdepth hfits
  have hle : depth.toNat ≤ maxDepth.toNat := by simpa [UInt32.lt_iff_toNat_lt] using hdepth
  rw [toNat_succ_of_fits hfits]
  omega

/-- The recursive call with the calls it leads to. -/
def auditDescent (maxDepth depth : UInt32) (sub : Slice) : Outcome Nodes × List Call :=
  if depth.toNat + 1 < UInt32.size then auditTree sub maxDepth (depth + 1)
  else (.error .panic,[])

section unfold
variable {maxDepth depth : UInt32} {buf : Slice}

lemma auditTree_of_lt (h : maxDepth < depth) :
    auditTree buf maxDepth depth =
      (.error (.err (.depthLimitExceeded maxDepth 0)),[⟨depth,buf⟩]) := by
  rw [auditTree,if_pos h]

lemma auditTree_of_le (h : depth ≤ maxDepth) :
    auditTree buf maxDepth depth =
      (outcome (run loop (auditNode (auditDescent maxDepth depth)) (new buf,[⟨depth,buf⟩]) []),
        logOf (run loop (auditNode (auditDescent maxDepth depth)) (new buf,[⟨depth,buf⟩]) [])) := by
  rw [auditTree,if_neg (UInt32.not_lt.mpr h)]
  rfl

/-- The body with its log does what the body does, if the recursive calls do. -/
lemma auditNode_audits {audit : Slice → Outcome Nodes × List Call}
    {descend : Slice → Outcome Nodes} (h : ∀ sub, (audit sub).1 = descend sub) :
    Audits (auditNode audit) (decodeNode descend) := by
  obtain rfl : (fun sub => (audit sub).1) = descend := funext h
  rw [decodeNode_eq]
  exact (Audits.quiet scanRecord).bind fun s => Audits.write_bind _ (Audits.quiet _)

/-- Without the list of calls, this is `decode_tree_inner`. -/
theorem auditTree_fst (buf : Slice) (maxDepth depth : UInt32) :
    (auditTree buf maxDepth depth).1 = decodeTreeInner buf maxDepth depth := by
  induction hn : maxDepth.toNat + 1 - depth.toNat using Nat.strongRecOn generalizing depth buf with
  | ind n ih =>
    rcases UInt32.lt_or_le maxDepth depth with hlt | hle
    · rw [auditTree_of_lt hlt,decodeTreeInner_of_lt hlt]
    · rw [auditTree_of_le hle,decodeTreeInner_of_le hle]
      refine Audits.run_outcome (auditNode_audits fun sub => ?_) _ []
      unfold auditDescent descent
      split
      · rename_i hfits
        have hle' : depth.toNat ≤ maxDepth.toNat := hle
        exact ih _ (by rw [toNat_succ_of_fits hfits]; omega) sub (depth + 1) rfl
      · rfl

end unfold

section rules
variable {maxDepth : UInt32} {audit : Slice → Outcome Nodes × List Call}

lemma FieldValue.exists_of_mem_calls {v : FieldValue} {call : Call} (h : call ∈ v.calls audit) :
    ∃ sub, call ∈ (audit sub).2 := by
  cases v with
  | bytes sub => exact ⟨sub,h⟩
  | _ => cases h

lemma Scan.node_ok {sub : Slice → Outcome Node} {s : Scan} {r r' : Reader} {a : UInt32 × Node}
    (h : s.node sub r = .ok a r') : r = r' := by
  unfold Scan.node at h
  cases hv : s.value.node sub with
  | ok node =>
    rw [hv] at h
    cases h
    rfl
  | error f =>
    rw [hv] at h
    cases h

lemma auditNode_ok {s s' : Reader × List Call} {a : UInt32 × Node} (hb : s.1.InBounds)
    (h : auditNode audit s = .ok a s') :
    ∃ rec : Record, s.1.Reads rec.wire s'.1 ∧ s'.2 = s.2 ++ rec.payload.value.calls audit := by
  obtain ⟨scan,s₁,hscan,hnode⟩ := bind_eq_ok_iff.mp h
  obtain ⟨hscan,hlog⟩ := quiet_eq_ok_iff.mp hscan
  obtain ⟨rec,hread,rfl⟩ := scanRecord_ok hb hscan
  obtain ⟨_,s₂,hwrite,hquiet⟩ := bind_eq_ok_iff.mp hnode
  cases hwrite
  obtain ⟨hquiet,hcalls⟩ := quiet_eq_ok_iff.mp hquiet
  rw [hlog] at hcalls
  exact ⟨rec,Scan.node_ok hquiet ▸ hread,hcalls⟩

/-- A body that fails has made the calls of the record it was at, or none. -/
lemma auditNode_error {s s' : Reader × List Call} {f : Failure} (hb : s.1.InBounds)
    (h : auditNode audit s = .error f s') :
    s'.2 = s.2 ∨ ∃ (rec : Record) (r' : Reader), s.1.Reads rec.wire r' ∧
      s'.2 = s.2 ++ rec.payload.value.calls audit := by
  rcases bind_eq_error_iff.mp h with hscan | ⟨scan,s₁,hscan,hnode⟩
  · exact .inl (quiet_eq_error_iff.mp hscan).2
  · obtain ⟨hscan,hlog⟩ := quiet_eq_ok_iff.mp hscan
    obtain ⟨rec,hread,rfl⟩ := scanRecord_ok hb hscan
    rcases bind_eq_error_iff.mp hnode with hwrite | ⟨_,s₂,hwrite,hquiet⟩
    · cases hwrite
    · cases hwrite
      obtain ⟨-,hcalls⟩ := quiet_eq_error_iff.mp hquiet
      rw [hlog] at hcalls
      exact .inr ⟨rec,s₁.1,hread,hcalls⟩

/-- What the audited loop over `buf` keeps from record to record: `P`, of the position reached and
the calls made so far. -/
def Kept (P : ℕ → List Call → Prop) (buf : Slice) (s : Reader × List Call) : Prop :=
  s.1.buf = buf ∧ s.1.InBounds ∧ P s.1.pos s.2

/-- What the loop keeps, its calls satisfy at the end, whether it succeeds or fails. -/
theorem auditLoop_log {P : ℕ → List Call → Prop} {buf : Slice} {calls : List Call}
    (hmono : ∀ {pos pos' calls}, pos ≤ pos' → P pos calls → P pos' calls)
    (hstep : ∀ {rec : Record} {r r' : Reader} {calls}, r.Reads rec.wire r' → P r.pos calls →
      P r'.pos (calls ++ rec.payload.value.calls audit))
    (hstart : P 0 calls) :
    P buf.len (logOf (run loop (auditNode audit) (new buf,calls) [])) := by
  have hs : Kept P buf (new buf,calls) := ⟨rfl,inBounds_new buf,hstart⟩
  refine run_log ?_ ?_ ?_ hs []
  · rintro s ⟨hbuf,hb,hP⟩
    exact hmono (hbuf ▸ hb) hP
  · rintro s a s' ⟨hbuf,hb,hP⟩ hbody
    obtain ⟨rec,hread,hcalls⟩ := auditNode_ok hb hbody
    refine ⟨hread.buf_eq.trans hbuf,hread.inBounds hb,?_⟩
    rw [hcalls]
    exact hstep hread hP
  · rintro s f s' ⟨hbuf,hb,hP⟩ hbody
    rcases auditNode_error hb hbody with hcalls | ⟨rec,r₁,hread,hcalls⟩
    · rw [hcalls]
      exact hmono (hbuf ▸ hb) hP
    · rw [hcalls]
      refine hmono ?_ (hstep hread hP)
      rw [← hread.buf_eq.trans hbuf]
      exact hread.inBounds hb

/-- Induction along the recursion: a call beyond the limit leaves itself only, every other what its
loop leaves, given the calls below. -/
theorem auditTree_induction {Q : UInt32 → Slice → List Call → Prop}
    (hcut : ∀ depth buf, maxDepth < depth → Q depth buf [⟨depth,buf⟩])
    (hloop : ∀ depth buf, depth ≤ maxDepth →
      (∀ sub, depth.toNat + 1 < UInt32.size ∧
          Q (depth + 1) sub (auditDescent maxDepth depth sub).2 ∨
        (auditDescent maxDepth depth sub).2 = []) →
      Q depth buf
        (logOf (run loop (auditNode (auditDescent maxDepth depth)) (new buf,[⟨depth,buf⟩]) [])))
    (buf : Slice) (depth : UInt32) : Q depth buf (auditTree buf maxDepth depth).2 := by
  induction hn : maxDepth.toNat + 1 - depth.toNat using Nat.strongRecOn generalizing depth buf with
  | ind n ih =>
    rcases UInt32.lt_or_le maxDepth depth with hlt | hle
    · rw [auditTree_of_lt hlt]
      exact hcut depth buf hlt
    · rw [auditTree_of_le hle]
      apply hloop depth buf hle
      intro sub
      unfold auditDescent
      split
      · rename_i hfits
        have hle' : depth.toNat ≤ maxDepth.toNat := hle
        have hnext := toNat_succ_of_fits hfits
        exact .inl ⟨hfits,ih _ (by omega) sub (depth + 1) rfl⟩
      · exact .inr rfl
end rules

section accounts

/-- What stands in the list of calls of a call at depth `k` on `n` bytes whose loop has passed over
`pos` of them: the calls one level down fit these bytes, with two bytes to spare for each. -/
structure Ledger (k n pos : ℕ) (calls : List Call) : Prop where
  above : ∀ d < k, count Call.level d calls = 0
  entries : count Call.level k calls = 1
  entered : total Call.level Call.len k calls = n
  inside : total Call.level Call.len (k + 1) calls + 2 * count Call.level (k + 1) calls ≤ pos
  deeper : Shrinks Call.level Call.len 2 (k + 1) calls

namespace Ledger
variable {k n m pos pos' : ℕ} {calls calls' : List Call}

lemma enter (call : Call) (pos : ℕ) : Ledger call.level call.len pos [call] where
  above d hd := by rw [count_singleton,if_neg (by omega)]
  entries := by rw [count_singleton,if_pos rfl]
  entered := by rw [total_singleton,if_pos rfl]
  inside := by
    rw [total_singleton,count_singleton,if_neg (by omega),if_neg (by omega)]
    exact Nat.zero_le _
  deeper d hd := by
    rw [total_singleton,count_singleton,if_neg (by omega),if_neg (by omega)]
    exact Nat.zero_le _

lemma mono (h : Ledger k n pos calls) (hle : pos ≤ pos') : Ledger k n pos' calls :=
  { h with inside := h.inside.trans hle }

/-- The calls of a recursive call are paid for by the record of its payload. -/
lemma append (h : Ledger k n pos calls) (hsub : Ledger (k + 1) m m calls')
    (hpos : pos + (m + 2) ≤ pos') : Ledger k n pos' (calls ++ calls') where
  above d hd := by rw [count_append,h.above d hd,hsub.above d (by omega)]
  entries := by rw [count_append,h.entries,hsub.above k (by omega)]
  entered := by
    rw [total_append,h.entered,total_eq_zero (hsub.above k (by omega)),Nat.add_zero]
  inside := by
    have := h.inside
    rw [total_append,count_append,hsub.entries,hsub.entered]
    omega
  deeper d hd := by
    have hd' := h.deeper d hd
    have hsub' : total Call.level Call.len (d + 1) calls' + 2 * count Call.level (d + 1) calls' ≤
        total Call.level Call.len d calls' := by
      rcases Nat.eq_or_lt_of_le hd with rfl | hlt
      · rw [hsub.entered]
        exact hsub.inside
      · exact hsub.deeper d hlt
    rw [total_append,count_append,total_append]
    omega

/-- Once all bytes are passed over, each level is paid for by the one above it. -/
lemma shrinks (h : Ledger 0 n n calls) : Shrinks Call.level Call.len 2 0 calls := by
  intro d _
  cases d with
  | zero =>
    rw [h.entered]
    exact h.inside
  | succ d => exact h.deeper (d + 1) (by omega)

end Ledger

/-- The walk over one record keeps the books, with the calls its value leads to. -/
lemma Ledger.step {audit : Slice → Outcome Nodes × List Call} {k n : ℕ} {calls : List Call}
    (haudit : ∀ sub, Ledger (k + 1) sub.len sub.len (audit sub).2 ∨ (audit sub).2 = [])
    {rec : Record} {r r' : Reader} (h : Ledger k n r.pos calls) (hread : r.Reads rec.wire r') :
    Ledger k n r'.pos (calls ++ rec.payload.value.calls audit) := by
  have hroom := rec.payloadLen_add_two_le
  rw [hread.pos_eq]
  cases hv : rec.payload.value with
  | bytes sub =>
    rw [hv] at hroom
    rcases haudit sub with hsub | hnone
    · exact h.append hsub (Nat.add_le_add_left hroom _)
    · rw [FieldValue.calls,hnone,List.append_nil]
      exact h.mono (Nat.le_add_right _ _)
  | _ =>
    rw [FieldValue.calls,List.append_nil]
    · exact h.mono (Nat.le_add_right _ _)
    all_goals exact nofun

/-- Every run of the decoder keeps the books, whether it succeeds or fails. -/
theorem auditTree_ledger (buf : Slice) (maxDepth depth : UInt32) :
    Ledger depth.toNat buf.len buf.len (auditTree buf maxDepth depth).2 := by
  refine auditTree_induction (Q := fun depth buf => Ledger depth.toNat buf.len buf.len) ?_ ?_ buf
    depth
  · intro depth buf _
    exact Ledger.enter ⟨depth,buf⟩ _
  · intro depth buf _ haudit
    refine auditLoop_log (fun hle h => h.mono hle) (fun hread h => ?_) (Ledger.enter ⟨depth,buf⟩ 0)
    refine h.step (fun sub => ?_) hread
    rcases haudit sub with ⟨hfits,hsub⟩ | hnone
    · rw [toNat_succ_of_fits hfits] at hsub
      exact .inl hsub
    · exact .inr hnone

/-- No call is more than one level below the limit. -/
theorem auditTree_level_le (buf : Slice) {maxDepth depth : UInt32}
    (h : depth.toNat ≤ maxDepth.toNat + 1) :
    ∀ call ∈ (auditTree buf maxDepth depth).2, call.level ≤ maxDepth.toNat + 1 := by
  refine auditTree_induction (Q := fun depth _ calls => depth.toNat ≤ maxDepth.toNat + 1 →
    ∀ call ∈ calls, call.level ≤ maxDepth.toNat + 1) ?_ ?_ buf depth h
  · intro depth buf _ hdepth call hcall
    obtain rfl := List.mem_singleton.mp hcall
    exact hdepth
  · intro depth buf hle haudit hdepth
    refine auditLoop_log
      (P := fun _ calls => ∀ call ∈ calls, call.level ≤ maxDepth.toNat + 1) (fun _ h => h) ?_ ?_
    · intro rec r r' calls _ h call hcall
      rcases List.mem_append.mp hcall with hcall | hcall
      · exact h call hcall
      · obtain ⟨sub,hsub⟩ := FieldValue.exists_of_mem_calls hcall
        rcases haudit sub with ⟨hfits,hbelow⟩ | hnone
        · refine hbelow ?_ call hsub
          rw [toNat_succ_of_fits hfits]
          exact Nat.succ_le_succ hle
        · rw [hnone] at hsub
          cases hsub
    · intro call hcall
      obtain rfl := List.mem_singleton.mp hcall
      exact hdepth

end accounts

/-- The call at depth `k` gets at most `buf.len - 2 * k` bytes. -/
theorem auditTree_len_le (buf : Slice) (maxDepth : UInt32) :
    ∀ call ∈ (auditTree buf maxDepth 0).2, call.len + 2 * call.level ≤ buf.len := by
  intro call hcall
  have hledger : Ledger 0 buf.len buf.len (auditTree buf maxDepth 0).2 :=
    auditTree_ledger buf maxDepth 0
  have htoll := hledger.shrinks.total_add_toll_mul_le (count_pos_of_mem hcall)
  have hweight : call.len ≤ total Call.level Call.len call.level (auditTree buf maxDepth 0).2 :=
    weight_le_total hcall
  rw [hledger.entered] at htoll
  omega

end SignalisCodec
