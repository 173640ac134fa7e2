import SignalisCodec.Theory.Pairing
import SignalisCodec.Tree.Budget

/-! The depth limit is sound: it bounds the nesting of every tree returned, and raising it changes
nothing but depth errors. -/
namespace SignalisCodec
open Reader Drain

mutual
/-- The most `Message` nodes on a path from a node to a leaf. -/
def Node.messageDepth : Node → ℕ
  | .varint _ => 0
  | .fixed64 _ => 0
  | .fixed32 _ => 0
  | .bytes _ => 0
  | .message children => messageDepth children + 1

/-- The most `Message` nodes on a path from the root of a tree to a leaf. -/
def messageDepth : Nodes → ℕ
  | [] => 0
  | (_,node) :: rest => max node.messageDepth (messageDepth rest)
end

lemma messageDepth_le_iff (nodes : Nodes) (k : ℕ) :
    messageDepth nodes ≤ k ↔ ∀ p ∈ nodes, p.2.messageDepth ≤ k := by
  induction nodes with
  | nil => simp [messageDepth]
  | cons p nodes ih =>
    obtain ⟨n,node⟩ := p
    simp [messageDepth,ih]

lemma node_messageDepth_le {nodes : Nodes} {p : UInt32 × Node} (h : p ∈ nodes) :
    p.2.messageDepth ≤ messageDepth nodes :=
  (messageDepth_le_iff nodes _).mp le_rfl p h

/-- Every tree decoded with `budget` levels nests fewer than `budget` messages. -/
theorem parseTree_messageDepth {limit : UInt32} {budget : ℕ} {buf : Slice} {nodes : Nodes}
    (h : parseTree limit budget buf = .ok nodes) : messageDepth nodes < budget := by
  induction budget generalizing buf nodes with
  | zero => cases h
  | succ budget ih =>
    obtain ⟨recs,-,hnodes⟩ := parseTree_succ_ok_iff.mp h
    rw [Nat.lt_succ_iff,messageDepth_le_iff]
    intro p hp
    obtain ⟨rec,-,-,hv⟩ := Pairing.forall₂_mem_right hnodes hp
    cases hvalue : rec.payload.value with
    | bytes b =>
      rw [hvalue] at hv
      rcases trial_ok hv with ⟨children,hnode⟩ | hnode
      · rw [hnode]
        rw [hnode] at hv
        exact ih (trial_eq_message_iff.mp hv).2
      · rw [hnode]
        exact Nat.zero_le _
    | _ =>
      rw [hvalue] at hv
      obtain ⟨n,node⟩ := p
      cases hv
      exact Nat.zero_le _

/-- Below `u32::MAX`: a result other than the depth error is the same under every larger limit; a
tree returned nests at most `d` messages; and a deeper one is always answered by the depth error. -/
theorem decodeTree_depth_limit (buf : Slice) (d : UInt32) (hd : d < 4294967295) :
    ((∀ limit position, decodeTree buf d ≠ .error (.err (.depthLimitExceeded limit position))) →
      ∀ d', d ≤ d' → d' < 4294967295 → decodeTree buf d' = decodeTree buf d) ∧
    (∀ t, decodeTree buf d = .ok t → messageDepth t ≤ d.toNat) ∧
    (∀ D t, d ≤ D → D < 4294967295 → decodeTree buf D = .ok t → d.toNat < messageDepth t →
      ∃ position, decodeTree buf d = .error (.err (.depthLimitExceeded d position))) := by
  have hdepth : ∀ t, decodeTree buf d = .ok t → messageDepth t ≤ d.toNat := by
    intro t ht
    rw [decodeTree_eq_parseTree hd] at ht
    exact Nat.lt_succ_iff.mp (parseTree_messageDepth ht)
  refine ⟨?_,hdepth,?_⟩
  · intro hne d' hle hd'
    have hsim := decodeTree_mono hle hd' buf
    cases hx : decodeTree buf d with
    | ok t => exact hsim.eq_of_ok hx
    | error f =>
      apply hsim.of_error_left hx
      intro hit
      obtain ⟨limit,position,rfl⟩ := (Failure.isDepthLimit_iff _).mp hit
      exact hne limit position hx
  · intro D t hle hD ht hdeep
    have hsim := decodeTree_mono hle hD buf
    cases hx : decodeTree buf d with
    | ok t' =>
      obtain rfl : t' = t := Except.ok.inj ((hsim.eq_of_ok hx).symm.trans ht)
      exact absurd (hdepth t' hx) (Nat.not_le.mpr hdeep)
    | error f =>
      rw [decodeTree_eq_parseTree hd] at hx
      rcases parseTree_error hx with hm | rfl
      · rw [← decodeTree_eq_parseTree hd] at hx
        have hD' := hsim.of_error_left hx (f.isMalformed_iff.mp hm).2
        rw [ht] at hD'
        cases hD'
      · exact ⟨0,rfl⟩

theorem decodeTree_depth_limit_example :
    (decodeTree ⟨[0x0a,0x04,0x0a,0x02,0x08,0x01],by decide⟩ 3 =
      decodeTree ⟨[0x0a,0x04,0x0a,0x02,0x08,0x01],by decide⟩ 2) ∧
    ∃ position, decodeTree ⟨[0x0a,0x04,0x0a,0x02,0x08,0x01],by decide⟩ 1 =
      .error (.err (.depthLimitExceeded 1 position)) := by
  have htree : decodeTree ⟨[0x0a,0x04,0x0a,0x02,0x08,0x01],by decide⟩ 2 =
      .ok [(1,.message [(1,.message [(1,.varint 1)])])] := by decide +kernel
  constructor
  · exact (decodeTree_depth_limit _ 2 (by decide)).1 (by simp [htree]) 3 (by decide) (by decide)
  · exact (decodeTree_depth_limit _ 1 (by decide)).2.2 2 _ (by decide) (by decide) htree
      (by simp [messageDepth,Node.messageDepth])

end SignalisCodec
