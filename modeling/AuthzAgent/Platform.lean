/-
  AuthzAgent.Platform

  What the agent takes from Go's library and from OPA and this development
  does not spell out: the case tables of Unicode, the conversions of numbers
  from and to text, the `%v` formats, and the pattern builtins of OPA.  Every
  result holds for all of them; `Platform.ascii` fixes simple ones so that the
  model runs on concrete ASCII inputs.
-/

import AuthzAgent.Lib.GoText
import AuthzAgent.Lib.RegoValue

namespace AuthzAgent

/-- The library functions the program calls. -/
structure Platform extends GoText.Unicode where
  /-- `strconv.ParseFloat(s, 64)`, as the number the JSON encoding of the
      result denotes. -/
  parseFloat : String → Option Rat
  /-- The number that remains of one after it is decoded into a `float64` and
      encoded again. -/
  float64 : Rat → Rat
  /-- What was encoded from a `float64` decodes to the same one. -/
  float64_idem : ∀ q, float64 (float64 q) = float64 q
  /-- A `float64` holds every integer of up to 53 bits. -/
  float64_int : ∀ n : Int, n.natAbs ≤ 2 ^ 53 → float64 n = n
  /-- `fmt.Sprintf("%v", x)` for a decoded JSON value. -/
  sprint : Rego.Value → String
  sprint_string : ∀ s, sprint (.string s) = s
  /-- `sprintf("%v", [x])` of Rego. -/
  regoSprint : Rego.Value → String
  regoSprint_string : ∀ s, regoSprint (.string s) = s
  /-- `to_number` of a string, undefined when it is not a number. -/
  toNumber : String → Option Rat
  /-- `glob.match(pattern, ["/"], text)`. -/
  globMatch : String → String → Bool
  /-- `regex.match(pattern, text)`. -/
  regexMatch : String → String → Bool

namespace Platform

/-- A platform for ASCII text.  It reads no fractions, formats no number, and
    matches a pattern only with itself. -/
def ascii : Platform where
  toUnicode := .ascii
  parseFloat := fun _ => none
  float64 := id
  float64_idem := fun _ => rfl
  float64_int := fun _ _ => rfl
  sprint := fun v => match v with
    | .string s => s
    | .bool true => "true"
    | .bool false => "false"
    | _ => ""
  sprint_string := fun _ => rfl
  regoSprint := fun v => match v with
    | .string s => s
    | .bool true => "true"
    | .bool false => "false"
    | _ => ""
  regoSprint_string := fun _ => rfl
  toNumber := fun _ => none
  globMatch := fun p t => p == t
  regexMatch := fun p t => p == t

end Platform

end AuthzAgent
