/-
  AuthzAgent.Authorize.Access

  The atoms `subject allowed 'O' on resource` and `subject denied 'O' on
  resource`.  They are about the decision for the operation `O` on the same
  resource, in which atoms are about further decisions, to a bounded depth.
  That meaning is `answersAt`: the decision of the same rules with each atom
  replaced by its answer, where an atom nested too deep does not hold.

  The evaluator makes no such decision: it compares the word of the atom with
  `allowed` and a depth, which is always 1, with 5.  So the first atom always
  holds and the second never does, and the atoms say the truth exactly where
  the policies allow `O`.
-/

import AuthzAgent.Authorize.Direct
import AuthzAgent.Condition.Access

namespace AuthzAgent

open GoText
open Rego (Value Eval)
open Rego.Eval
open Simplified

namespace Access

end Access

namespace Node

mutual

/-- Replace each atom about access by its answer. -/
def answering (answer : Access → Bool) : Node → Node
  | .node .hasAccess (.const (.string mode) :: .const (.string operation) :: _) =>
    .const (.bool (answer ⟨mode == "denied", operation⟩))
  | .node op args => .node op (answeringArgs answer args)
  | .const value => .const value
  | .ref r => .ref r

def answeringArgs (answer : Access → Bool) : List Node → List Node
  | [] => []
  | a :: as => answering answer a :: answeringArgs answer as

end

end Node

namespace Authorize

/-! ## What the atoms mean -/

/-- The document in which each atom about access is replaced by its answer. -/
def answeringDoc (answer : Access → Bool) (doc : PolicyDoc) : PolicyDoc :=
  { doc with rls := doc.rls.mapValues fun byOp => byOp.mapValues fun byRole =>
      byRole.mapValues (List.map (mapAst (Node.answering answer))) }

def Data.answering (D : Data) (answer : Access → Bool) : Data :=
  { D with doc := answeringDoc answer D.doc }

section

variable (D : Data) (req : Request) (rt : String) (resource : Value)

variable {D req rt resource} {ps : List Policy} {es : List Entry}

end

end Authorize

end AuthzAgent
