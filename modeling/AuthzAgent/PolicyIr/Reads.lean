/-
  AuthzAgent.PolicyIr.Reads

  What `NewCondition` asks of a condition, and how a text that is no boolean is
  read into one.
-/

import AuthzAgent.Lib.Checked
import AuthzAgent.PolicyIr.Parse

namespace AuthzAgent

open Parsing Checked

namespace PolicyIr

section

variable {W : Words}

/-! ## Comparisons -/

theorem validateCompare_binary {f : String → Bool} {op : Operator} (hop : op.unary = false)
    {left right : Operand} :
    validateCompare f ⟨op, left, some right⟩ = .ok () ↔
      validateLeft f left = .ok () ∧ validateRight f op right = .ok () := by
  simp only [validateCompare, hop, seq_eq_ok]
  exact Iff.rfl

/-! ## Conditions -/

/-- What `validateAtom` asks of an atom. -/
def AtomOk (f : String → Bool) : Atom → Prop
  | .compare c => validateCompare f c = .ok ()
  | .unsupported _ text => text ≠ ""
  | _ => True

theorem validateAtom_eq_ok {f : String → Bool} {i j : Nat} {a : Atom} {u : Unit} :
    validateAtom f i j a = .ok u ↔ AtomOk f a := by
  cases a with
  | compare c => exact mapError_ok_iff
  | unsupported form text =>
    rw [validateAtom, mapError_ok_iff, validateUnsupported, AtomOk]
    split <;> simp [*]
  | _ => exact ⟨fun _ => trivial, fun _ => rfl⟩

/-- A property of the items of a list, for the items with their positions. -/
theorem forall_mem_zipIdx {α : Type} {as : List α} {P : α → Prop} :
    (∀ a ∈ as.zipIdx, P a.1) ↔ ∀ a ∈ as, P a := by
  constructor
  · intro h a ha
    obtain ⟨i, hi⟩ := List.mem_iff_getElem?.1 ha
    exact h (a, i) (List.mem_zipIdx_iff_getElem?.2 hi)
  · intro h a ha
    exact h a.1 (List.fst_mem_of_mem_zipIdx ha)

theorem validateCondition_eq_ok {f : String → Bool} {c : Condition} :
    validateCondition f c = .ok () ↔
      c.disjuncts ≠ [] ∧ ∀ d ∈ c.disjuncts, d ≠ [] ∧ ∀ a ∈ d, AtomOk f a := by
  rw [validateCondition, ← forall_mem_zipIdx]
  by_cases hnil : c.disjuncts = []
  · rw [hnil]
    exact ⟨fun h => (nomatch h), fun h => absurd rfl h.1⟩
  rw [if_neg (mt List.length_eq_zero_iff.1 hnil)]
  show (forIn c.disjuncts.zipIdx () _ >>= fun _ => pure ()) = _ ↔ _
  rw [seq_eq_ok, forIn_eq_ok (P := fun d => d.1 ≠ [] ∧ ∀ a ∈ d.1, AtomOk f a)]
  · rw [pure_eq_ok, and_iff_left rfl, and_iff_right hnil]
  · rintro ⟨d, i⟩ u r
    dsimp only
    by_cases hd : d = []
    · rw [hd]
      exact ⟨fun h => (nomatch h), fun h => absurd rfl h.1.1⟩
    rw [if_neg (mt List.length_eq_zero_iff.1 hd), seq_eq_ok, ← forall_mem_zipIdx,
      forIn_eq_ok (P := fun a => AtomOk f a.1), pure_eq_ok, and_iff_right hd]
    · exact and_congr_right fun _ => eq_comm
    · rintro ⟨a, j⟩ u r
      rw [seq_eq_ok, validateAtom_eq_ok, pure_eq_ok]
      exact and_congr_right fun _ => eq_comm

theorem newCondition_of_ok {f : String → Bool} {place : Place} {ds : List (List Atom)}
    (h : validateCondition f ⟨place, ds⟩ = .ok ()) : newCondition f place ds = .ok ⟨place, ds⟩ := by
  rw [newCondition]
  exact seq_eq_ok.2 ⟨h, rfl⟩

/-- A text that is no boolean is read as an expression. -/
theorem parseCondition_eq {text : String} (hbool : wholeBool text = none) {cs : List Char}
    (hparser : newParser W text = .ok cs) (place : Place) (iterVar : String) :
    parseCondition W text place iterVar =
      match readExpr W iterVar cs with
      | .error e => .error e
      | .ok (ds, _) => (newCondition W.compiles place ds).mapError .condition := by
  rw [parseCondition, hbool]
  simp only [hparser]
  show (readExpr W iterVar cs >>= fun r => (newCondition W.compiles place r.1).mapError .condition) =
    _
  cases readExpr W iterVar cs <;> rfl

end

end PolicyIr

end AuthzAgent
