import SignalisCodec.Tree.Calls

/-! The resources of a recursive decode: every call gets a shorter slice, whether its result is
kept or dropped, and the tree returned is no larger than the buffer. -/
namespace SignalisCodec
open Reader Fallible Drain

/-- A payload of the loop over `buf` is at least two bytes shorter than `buf`. -/
lemma payload_len_add_two_le {buf b : Slice} {w : List UInt8} {rec : Record} {r r' : Reader}
    (hreads : (new buf).Reads w r) (hread : r.Reads rec.wire r')
    (hvalue : rec.payload.value = .bytes b) : b.len + 2 ≤ buf.len := by
  have hroom := rec.payloadLen_add_two_le
  have hlen := congrArg List.length (hreads.trans hread).rest_eq
  rw [rest_new,List.length_append,List.length_append] at hlen
  rw [hvalue] at hroom
  change b.len + 2 ≤ _ at hroom
  change b.len + 2 ≤ buf.bytes.length
  omega

/-- The depth counter does not overflow: the limit stops it, or the bytes run out first. -/
lemma fits_of_size {maxDepth depth : UInt32} {n : ℕ} (hle : depth ≤ maxDepth)
    (hsize : maxDepth < 4294967295 ∨ n < 8589934592) (hn : 2 * depth.toNat + 2 ≤ n) :
    depth.toNat + 1 < UInt32.size := by
  simp only [UInt32.size]
  rcases hsize with hmax | hbuf
  · have hle' : depth.toNat ≤ maxDepth.toNat := hle
    have hmax' : maxDepth.toNat < 4294967295 := hmax
    omega
  · omega

section total
variable {maxDepth depth : UInt32} {buf : Slice}

/-- Under these bounds every call returns: it does not panic and does not loop. -/
theorem decodeTreeInner_error
    (hsize : maxDepth < 4294967295 ∨ buf.len + 2 * depth.toNat < 8589934592) {f : Failure}
    (h : decodeTreeInner buf maxDepth depth = .error f) : ∃ e, f = .err e := by
  induction hn : buf.len using Nat.strongRecOn generalizing depth buf with
  | ind n ih =>
    rcases UInt32.lt_or_le maxDepth depth with hlt | hle
    · rw [decodeTreeInner_of_lt hlt] at h
      cases h
      exact ⟨_,rfl⟩
    · rw [decodeTreeInner_of_le hle,(decodeNode_takesRecord _).readAll_error_iff] at h
      obtain ⟨recs,as,r,r',hreads,-,-,hbody⟩ := h
      have hb := hreads.inBounds (inBounds_new buf)
      rcases decodeNode_error_cases hb hbody with hscan | ⟨rec,b,r₁,hread,hvalue,htrial⟩
      · exact (f.isMalformed_iff.mp (scanRecord_error hb hscan)).1
      · obtain ⟨hd,-⟩ := trial_error_eq htrial
        have hroom := payload_len_add_two_le hreads hread hvalue
        have hfits := fits_of_size hle hsize (by omega)
        rw [descent_of_fits hfits] at hd
        refine ih b.len (by omega) (hsize.imp_right fun hbuf => ?_) hd rfl
        rw [toNat_succ_of_fits hfits]
        omega

end total

section size

mutual
/-- The number of nodes in a node's tree, itself included. -/
def Node.nodeCount : Node → ℕ
  | .varint _ => 1
  | .fixed64 _ => 1
  | .fixed32 _ => 1
  | .bytes _ => 1
  | .message children => nodeCount children + 1

/-- The number of nodes in a tree. -/
def nodeCount : Nodes → ℕ
  | [] => 0
  | (_,node) :: rest => node.nodeCount + nodeCount rest
end

mutual
def Node.leafBytes : Node → ℕ
  | .varint _ => 0
  | .fixed64 _ => 0
  | .fixed32 _ => 0
  | .bytes b => b.len
  | .message children => leafBytes children

/-- The lengths of all `Bytes` leaves of a tree together. -/
def leafBytes : Nodes → ℕ
  | [] => 0
  | (_,node) :: rest => node.leafBytes + leafBytes rest
end

variable {descend : Slice → Outcome Nodes} {n : ℕ}

/-- Trees of payloads shorter than `n` are no larger than their payloads. -/
def SmallTrees (descend : Slice → Outcome Nodes) (n : ℕ) : Prop :=
  ∀ b children, b.len < n → descend b = .ok children →
    2 * nodeCount children + leafBytes children ≤ b.len

/-- A node is no larger than the record it was made of. -/
lemma node_size_le (hsmall : SmallTrees descend n) {rec : Record} (hrec : rec.wire.length ≤ n)
    {node : Node} (h : rec.payload.value.node (trial descend) = .ok node) :
    2 * node.nodeCount + node.leafBytes ≤ rec.wire.length := by
  have hroom := rec.payloadLen_add_two_le
  cases hvalue : rec.payload.value with
  | bytes b =>
    rw [hvalue] at h hroom
    change b.len + 2 ≤ _ at hroom
    rcases trial_ok h with ⟨children,rfl⟩ | rfl
    · have := hsmall b children (by omega) (trial_eq_message_iff.mp h).2
      simp only [Node.nodeCount,Node.leafBytes]
      omega
    · simp only [Node.nodeCount,Node.leafBytes]
      omega
  | _ =>
    rw [hvalue] at h hroom
    cases h
    simp only [Node.nodeCount,Node.leafBytes]
    omega

/-- Nor is a tree larger than its records together. -/
lemma nodes_size_le (hsmall : SmallTrees descend n) {recs : List Record} {t : Nodes}
    (h : List.Forall₂ (fun rec p => rec.number = p.1 ∧
      rec.payload.value.node (trial descend) = .ok p.2) recs t) (hrecs : (wires recs).length ≤ n) :
    2 * nodeCount t + leafBytes t ≤ (wires recs).length := by
  induction h with
  | nil => exact Nat.zero_le _
  | @cons rec p recs t hp _ ih =>
    rw [wires_cons,List.length_append] at hrecs ⊢
    have hhead := node_size_le hsmall (by omega) hp.2
    have htail := ih (by omega)
    simp only [nodeCount,leafBytes]
    omega

theorem decodeTreeInner_size_le {maxDepth depth : UInt32} {buf : Slice} {t : Nodes}
    (h : decodeTreeInner buf maxDepth depth = .ok t) :
    2 * nodeCount t + leafBytes t ≤ buf.len := by
  induction hn : buf.len using Nat.strongRecOn generalizing depth buf t with
  | ind n ih =>
    subst hn
    rcases UInt32.lt_or_le maxDepth depth with hlt | hle
    · rw [decodeTreeInner_of_lt hlt] at h
      cases h
    · rw [decodeTreeInner_of_le hle,(decodeNode_takesRecord _).readAll_ok_iff] at h
      obtain ⟨recs,hw,hnodes⟩ := h
      have hsmall : SmallTrees (descent maxDepth depth) buf.len := by
        intro b children hb hd
        by_cases hfits : depth.toNat + 1 < UInt32.size
        · rw [descent_of_fits hfits] at hd
          exact ih b.len hb hd rfl
        · rw [descent,if_neg hfits] at hd
          cases hd
      have hlen : (wires recs).length = buf.len := congrArg List.length hw
      have hsize := nodes_size_le hsmall hnodes hlen.le
      rwa [hlen] at hsize

end size

/-- A recursive decode ends. With its calls written down it is the same decode; the call at depth
`k` gets at most `buf.len - 2 * k` bytes, so calls nest no deeper than the limit allows or half the
buffer's length; a call that has the bytes to make another one has room in its depth counter; no
call panics or loops; and the tree returned takes no more room than the buffer. -/
theorem decodeTree_bounded (buf : Slice) (maxDepth : UInt32)
    (hsize : maxDepth < 4294967295 ∨ buf.len < 8589934592) :
    (auditTree buf maxDepth 0).1 = decodeTree buf maxDepth ∧
    (∀ call ∈ (auditTree buf maxDepth 0).2,
      call.buf.len + 2 * call.depth.toNat ≤ buf.len ∧
      call.depth.toNat ≤ min (maxDepth.toNat + 1) (buf.len / 2) ∧
      (call.depth ≤ maxDepth → 2 ≤ call.buf.len → call.depth.toNat + 1 < UInt32.size)) ∧
    ((∃ t, decodeTree buf maxDepth = .ok t) ∨ ∃ e, decodeTree buf maxDepth = .error (.err e)) ∧
    (∀ t, decodeTree buf maxDepth = .ok t → 2 * nodeCount t + leafBytes t ≤ buf.len) := by
  refine ⟨auditTree_fst buf maxDepth 0,?_,?_,?_⟩
  · intro call hcall
    have hlen : call.buf.len + 2 * call.depth.toNat ≤ buf.len :=
      auditTree_len_le buf maxDepth call hcall
    have hdepth : call.depth.toNat ≤ maxDepth.toNat + 1 :=
      auditTree_level_le buf (Nat.zero_le _) call hcall
    refine ⟨hlen,le_min hdepth (by omega),?_⟩
    intro hle htwo
    exact fits_of_size hle hsize (by omega)
  · cases h : decodeTree buf maxDepth with
    | ok t => exact .inl ⟨t,rfl⟩
    | error f =>
      obtain ⟨e,rfl⟩ := decodeTreeInner_error (by simpa using hsize) h
      exact .inr ⟨e,rfl⟩
  · intro t h
    exact decodeTreeInner_size_le h

theorem decodeTree_bounded_example :
    (∀ call ∈ (auditTree ⟨[0x0a,0x02,0x08,0x01,0x12,0x01,0x61],by decide⟩ 4294967295 0).2,
      call.buf.len + 2 * call.depth.toNat ≤ 7) ∧
    2 * nodeCount [(1,.message [(1,.varint 1)]),(2,.bytes ⟨[0x61],by decide⟩)] +
      leafBytes [(1,.message [(1,.varint 1)]),(2,.bytes ⟨[0x61],by decide⟩)] ≤ 7 := by
  obtain ⟨-,hcalls,-,htree⟩ := decodeTree_bounded
    ⟨[0x0a,0x02,0x08,0x01,0x12,0x01,0x61],by decide⟩ 4294967295 (.inr (by decide))
  exact ⟨fun call hcall => (hcalls call hcall).1,htree _ (by decide +kernel)⟩

end SignalisCodec
