import SignalisCodec.Grammar.Concatenation
import SignalisCodec.Tree.Descent

/-! Concatenated messages decode to concatenated trees, under every depth limit. -/
namespace SignalisCodec
open Reader Fallible Translate

/-- An error that is not about the bytes of the buffer is the same wherever it is raised. -/
lemma Failure.shift_of_not_malformed {f : Failure} (h : ¬ f.IsMalformed) (n : ℕ) :
    f.shift n = f := by
  rcases f with (_ | _ | _ | _ | _ | _ | _) | _ | _
  all_goals first
    | rfl
    | exact absurd trivial h

section body
variable {descend : Slice → Outcome Nodes} {pre : List UInt8}

lemma grows_scanNode (s : Scan) : Grows (s.node (trial descend)) := by
  unfold Scan.node
  cases s.value.node (trial descend) with
  | ok node => exact grows_pure _
  | error f => exact grows_throw f

lemma grows_decodeNode : Grows (decodeNode descend) := by
  rw [decodeNode_eq]
  exact grows_scanRecord.bind grows_scanNode

/-- A value becomes the same node wherever it was found, or fails in the same way. -/
lemma moves_scanNode (s : Scan) (n : ℕ) :
    Moves pre Eq (s.node (trial descend)) ((s.shift n).node (trial descend)) := by
  intro r t hE
  have hvalue : (s.shift n).value = s.value := rfl
  unfold Scan.node
  rw [hvalue]
  cases hv : s.value.node (trial descend) with
  | ok node => exact .ok rfl hE
  | error f =>
    refine .error ?_ r t
    refine (Failure.shift_of_not_malformed ?_ _).symm
    cases hs : s.value with
    | bytes b =>
      rw [hs] at hv
      exact (trial_error_eq hv).2
    | _ =>
      rw [hs] at hv
      cases hv

lemma moves_decodeNode : Moves pre Eq (decodeNode descend) (decodeNode descend) := by
  rw [decodeNode_eq]
  refine moves_scanRecord.bind fun s s' hs => ?_
  subst hs
  exact moves_scanNode s _

end body

/-- Behind a message whose tree is returned, `decode_tree` goes on as it starts on the rest alone;
the guesses about submessages in either part do not depend on the other. -/
theorem decodeTree_concat (a b whole : Slice) (hwhole : whole.bytes = a.bytes ++ b.bytes)
    (maxDepth : UInt32) (t : Nodes) (h : decodeTree a maxDepth = .ok t) :
    decodeTree whole maxDepth = moved a.len (t ++ ·) (decodeTree b maxDepth) := by
  rw [decodeTree_eq_readAll] at *
  rw [decodeTree_eq_readAll]
  exact readAll_concat_same (TakesWord.reads Record.wire_ne_nil (decodeNode_takesRecord _))
    grows_decodeNode moves_decodeNode hwhole h

theorem decodeTree_concat_example :
    decodeTree ⟨[0x0a,0x02,0x08,0x01,0x0a,0x01,0x08],by decide⟩ 1 =
      .ok [(1,.message [(1,.varint 1)]),(1,.bytes ⟨[0x08],by decide⟩)] := by
  have hrest : decodeTree ⟨[0x0a,0x01,0x08],by decide⟩ 1 =
      .ok [(1,.bytes ⟨[0x08],by decide⟩)] := by decide +kernel
  rw [decodeTree_concat ⟨[0x0a,0x02,0x08,0x01],by decide⟩ ⟨[0x0a,0x01,0x08],by decide⟩ _ rfl 1
    [(1,.message [(1,.varint 1)])] (by decide +kernel),hrest]
  rfl

end SignalisCodec
