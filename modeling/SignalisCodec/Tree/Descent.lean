import SignalisCodec.Tree.Budget

/-! `decode_tree_inner` as a loop whose body makes the recursive call, under every limit up to and
including `u32::MAX`. -/
namespace SignalisCodec
open Reader Fallible Drain

/-- The call `decode_tree_inner(sub, max_depth, depth + 1)`. -/
def descent (maxDepth depth : UInt32) (sub : Slice) : Outcome Nodes :=
  if depth.toNat + 1 < UInt32.size then decodeTreeInner sub maxDepth (depth + 1)
  else .error .panic

section unfold
variable {maxDepth depth : UInt32} {buf : Slice}

lemma decodeTreeInner_of_lt (h : maxDepth < depth) :
    decodeTreeInner buf maxDepth depth = .error (.err (.depthLimitExceeded maxDepth 0)) := by
  rw [decodeTreeInner,if_pos h]

lemma decodeTreeInner_of_le (h : depth ≤ maxDepth) :
    decodeTreeInner buf maxDepth depth = readAll (decodeNode (descent maxDepth depth)) buf := by
  rw [decodeTreeInner,if_neg (UInt32.not_lt.mpr h)]
  rfl

lemma decodeTree_eq_readAll (buf : Slice) (maxDepth : UInt32) :
    decodeTree buf maxDepth = readAll (decodeNode (descent maxDepth 0)) buf :=
  decodeTreeInner_of_le (UInt32.zero_le)

lemma descent_of_fits (h : depth.toNat + 1 < UInt32.size) (sub : Slice) :
    descent maxDepth depth sub = decodeTreeInner sub maxDepth (depth + 1) :=
  if_pos h

/-- The recursive call fails at once, for the limit or the counter, or runs the loop. -/
lemma descent_cases (maxDepth depth : UInt32) (sub : Slice) :
    (∃ f, descent maxDepth depth sub = .error f ∧ ¬ f.IsMalformed) ∨
      descent maxDepth depth sub = readAll (decodeNode (descent maxDepth (depth + 1))) sub := by
  by_cases hfits : depth.toNat + 1 < UInt32.size
  · rw [descent_of_fits hfits]
    rcases UInt32.lt_or_le maxDepth (depth + 1) with hlt | hle
    · exact .inl ⟨_,decodeTreeInner_of_lt hlt,id⟩
    · exact .inr (decodeTreeInner_of_le hle)
  · exact .inl ⟨_,if_neg hfits,id⟩

lemma toNat_succ_of_fits (h : depth.toNat + 1 < UInt32.size) :
    (depth + 1).toNat = depth.toNat + 1 := by
  rw [UInt32.toNat_add]
  exact Nat.mod_eq_of_lt h

/-- A depth error names the caller's limit, position 0, and a limit below `u32::MAX`. -/
theorem decodeTreeInner_depthLimit {limit : UInt32} {position : ℕ}
    (h : decodeTreeInner buf maxDepth depth =
      .error (.err (.depthLimitExceeded limit position))) :
    limit = maxDepth ∧ position = 0 ∧ maxDepth < 4294967295 := by
  induction hn : maxDepth.toNat + 1 - depth.toNat using Nat.strongRecOn generalizing depth buf with
  | ind n ih =>
    rcases UInt32.lt_or_le maxDepth depth with hlt | hle
    · rw [decodeTreeInner_of_lt hlt] at h
      cases h
      refine ⟨rfl,rfl,?_⟩
      have := depth.toNat_lt
      rw [UInt32.lt_iff_toNat_lt] at hlt ⊢
      change maxDepth.toNat < 4294967295
      omega
    · rw [decodeTreeInner_of_le hle,(decodeNode_takesRecord _).readAll_error_iff] at h
      obtain ⟨recs,as,r,r',hreads,-,-,hbody⟩ := h
      have hb := hreads.inBounds (inBounds_new buf)
      rcases decodeNode_error_cases hb hbody with hscan | ⟨rec,b,r₁,-,-,htrial⟩
      · exact (scanRecord_error hb hscan).elim
      · obtain ⟨hd,-⟩ := trial_error_eq htrial
        by_cases hfits : depth.toNat + 1 < UInt32.size
        · rw [descent_of_fits hfits] at hd
          have hle' : depth.toNat ≤ maxDepth.toNat := hle
          have hnext := toNat_succ_of_fits hfits
          exact ih _ (by omega) hd rfl
        · rw [descent,if_neg hfits] at hd
          cases hd

end unfold
end SignalisCodec
