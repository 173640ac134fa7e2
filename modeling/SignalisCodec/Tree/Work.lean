import SignalisCodec.Tree.Calls

/-! The work of a recursive decode: its calls counted, those of abandoned trial parses and of a
failing decode too. -/
namespace SignalisCodec
open Levels

/-- `decode_tree` with its calls counted: beside the first one it makes at most half as many calls
as the buffer has bytes, every depth walks over no more bytes than the buffer has, and all depths
together over no more than that times the number of levels there can be. -/
theorem decodeTree_work (buf : Slice) (maxDepth : UInt32) :
    (auditTree buf maxDepth 0).1 = decodeTree buf maxDepth ∧
    2 * (auditTree buf maxDepth 0).2.length ≤ buf.len + 2 ∧
    (∀ d, total Call.level Call.len d (auditTree buf maxDepth 0).2 ≤ buf.len) ∧
    below Call.level Call.len (maxDepth.toNat + 1) (auditTree buf maxDepth 0).2 ≤
      (min maxDepth.toNat (buf.len / 2) + 1) * buf.len := by
  have hledger : Ledger 0 buf.len buf.len (auditTree buf maxDepth 0).2 :=
    auditTree_ledger buf maxDepth 0
  have hshrinks := hledger.shrinks
  refine ⟨auditTree_fst buf maxDepth 0,?_,?_,?_⟩
  · have hlength := hshrinks.length_le
    rwa [hledger.entered,hledger.entries] at hlength
  · intro d
    rw [← hledger.entered]
    exact hshrinks.total_le d
  · have hlimit := hshrinks.below_le (maxDepth.toNat + 1)
    have hhalf := hshrinks.below_le (buf.len / 2 + 1)
    rw [hledger.entered] at hlimit hhalf
    rcases Nat.le_total maxDepth.toNat (buf.len / 2) with hle | hle
    · rwa [Nat.min_eq_left hle]
    · rw [Nat.min_eq_right hle]
      refine (below_le_sum _ _).trans ((below_eq_sum ?_).symm.le.trans hhalf)
      intro call hcall
      have htoll := hshrinks.total_add_toll_mul_le (count_pos_of_mem hcall)
      rw [hledger.entered] at htoll
      omega

end SignalisCodec
