import SignalisCodec.Binding.Native
import SignalisCodec.Theory.Template

/-! The texts of the decode errors: JavaScript is handed nothing else, and nothing is lost. -/
namespace SignalisCodec
open Template

namespace DecodeError

/-- The wording of a text, and the numbers in it. -/
def pieces : DecodeError → Filled
  | .unexpectedEof needed position =>
    [("unexpected end of buffer: needed ",needed),(" more byte(s) at position ",position)]
  | .varintOverflow position => [("varint overflow (exceeds 64 bits) at position ",position)]
  | .lengthOverflow position => [("length-delimited size overflow at position ",position)]
  | .invalidWireType wireType position =>
    [("invalid wire type ",wireType.toNat),(" at position ",position)]
  | .invalidFieldNumber position => [("invalid field number 0 at position ",position)]
  | .depthLimitExceeded limit position =>
    [("nesting depth exceeded limit of ",limit.toNat),(" at position ",position)]
  | .groupsUnsupported position =>
    [("group wire types (3/4) are not supported at position ",position)]

/-- The wordings of all errors. -/
def forms : List (List String) := [
  ["unexpected end of buffer: needed "," more byte(s) at position "],
  ["varint overflow (exceeds 64 bits) at position "],
  ["length-delimited size overflow at position "],
  ["invalid wire type "," at position "],
  ["invalid field number 0 at position "],
  ["nesting depth exceeded limit of "," at position "],
  ["group wire types (3/4) are not supported at position "]]

lemma forms_unambiguous : Unambiguous forms := by decide +kernel

lemma pieces_mem_forms (e : DecodeError) : e.pieces.map Prod.fst ∈ forms := by
  cases e <;> simp [pieces,forms]

lemma pieces_injective : Function.Injective pieces := by
  intro a b h
  cases a <;> cases b <;> simp_all [pieces,UInt8.toNat_inj,UInt32.toNat_inj]

section text
variable (words words' : String) (n m : ℕ)

lemma render_one : toString words ++ toString n = render [(words,n)] := by
  simp only [render,String.append_empty]
  rfl

lemma render_two : toString words ++ toString n ++ toString words' ++ toString m =
    render [(words,n),(words',m)] := by
  simp only [render,String.append_empty,String.append_assoc]
  rfl

end text

lemma toText_eq_render (e : DecodeError) : e.toText = render e.pieces := by
  cases e with
  | unexpectedEof needed position => exact render_two _ _ needed position
  | varintOverflow position => exact render_one _ position
  | lengthOverflow position => exact render_one _ position
  | invalidWireType wireType position => exact render_two _ _ wireType.toNat position
  | invalidFieldNumber position => exact render_one _ position
  | depthLimitExceeded limit position => exact render_two _ _ limit.toNat position
  | groupsUnsupported position => exact render_one _ position

/-- Different errors have different texts. -/
theorem toText_injective : Function.Injective toText := by
  intro a b h
  rw [toText_eq_render,toText_eq_render] at h
  exact pieces_injective
    (forms_unambiguous.render_inj (pieces_mem_forms a) (pieces_mem_forms b) h)

end DecodeError
end SignalisCodec
