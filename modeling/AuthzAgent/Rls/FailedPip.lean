/-
  AuthzAgent.Rls.FailedPip

  A failed PIP opens no access.  A PIP that failed leaves its alias out of
  the subject, and a reference to a known alias that is absent has no value:
  every leaf that reads it fails, and so does a negation around one.  The
  result is a comparison of two runs of the evaluator, on a subject without
  the alias and on the same subject with any value bound to it.

  `Lifts` relates one predicate of the evaluator in the two runs: what the
  first run grants the second grants too, and where no reference has failed
  the two agree.  Negation needs the second half.  The relation passes from
  leaves through one level of connectives (`lifts_allowsWith`), so it reaches
  the evaluator in two steps.

  An entitlements operand reads the key `entitledResources` without asking
  whether the key is there.  The argument needs another alias, or a condition
  without such an operand.
-/

import AuthzAgent.Rls.Boolean

namespace AuthzAgent

open Rego (Value)

/-- A reference to the entitlements of the subject. -/
def Ref.isEntitlements : Ref → Bool
  | .entitlements _ _ => true
  | .path _ _ => false

namespace Rls

/-! ## Leaves in two runs -/

section Leaves

variable {P : Platform} {known : String → Bool} {resource s s' : Value}

def KeepsValues (known : String → Bool) (resource s s' : Value) (args : List Node) : Prop :=
  ∀ a ∈ args, ∀ x, argValue known resource s a = some x → argValue known resource s' a = some x

theorem unaryLeaf_mono {holds holds' : Value → Bool} {args : List Node}
    (hargs : KeepsValues known resource s s' args)
    (himp : ∀ x, holds x = true → holds' x = true)
    (h : unaryLeaf known resource s holds args = true) :
    unaryLeaf known resource s' holds' args = true := by
  cases args with
  | nil => simp [unaryLeaf] at h
  | cons a as =>
    cases hx : argValue known resource s a with
    | none => simp [unaryLeaf, hx] at h
    | some x =>
      simp only [unaryLeaf, hx] at h
      simp only [unaryLeaf, hargs a List.mem_cons_self x hx]
      exact himp x h

theorem binaryLeaf_mono {holds : Value → Value → Bool} {args : List Node}
    (hargs : KeepsValues known resource s s' args)
    (h : binaryLeaf known resource s holds args = true) :
    binaryLeaf known resource s' holds args = true := by
  match args with
  | [] => simp [binaryLeaf] at h
  | [a] => simp [binaryLeaf] at h
  | a :: b :: more =>
    cases hx : argValue known resource s a with
    | none => simp [binaryLeaf, hx] at h
    | some x =>
      cases hy : argValue known resource s b with
      | none => simp [binaryLeaf, hx, hy] at h
      | some y =>
        simp only [binaryLeaf, hx, hy] at h
        simpa only [binaryLeaf, hargs a (by simp) x hx, hargs b (by simp) y hy] using h

theorem hasAccessDepth_mono {args : List Node} {d : Rat}
    (hargs : KeepsValues known resource s s' args)
    (h : hasAccessDepth P known resource s args = some d) :
    hasAccessDepth P known resource s' args = some d := by
  match args with
  | [] => exact h
  | [_] => exact h
  | [_, _] => exact h
  | [_, _, _] => exact h
  | a :: b :: c :: depth :: more =>
    obtain ⟨x, hx, hd⟩ := Option.bind_eq_some_iff.mp h
    exact Option.bind_eq_some_iff.mpr ⟨x, hargs depth (by simp) x hx, hd⟩

theorem hasAccessLeaf_mono {args : List Node} (hargs : KeepsValues known resource s s' args)
    (h : hasAccessLeaf P known resource s args = true) :
    hasAccessLeaf P known resource s' args = true := by
  refine unaryLeaf_mono hargs (fun x hx => ?_) h
  cases hd : hasAccessDepth P known resource s args with
  | none => simp [hd] at hx
  | some d => simpa [hd, hasAccessDepth_mono hargs hd] using hx

/-- A leaf that holds goes on holding while the values of its operands stay. -/
theorem astLeafAllows_mono {op : Op} {args : List Node}
    (hargs : KeepsValues known resource s s' args)
    (h : astLeafAllows P known resource s (.node op args) = true) :
    astLeafAllows P known resource s' (.node op args) = true := by
  cases op with
  | isEmpty => exact unaryLeaf_mono hargs (fun _ => id) h
  | isNull => exact unaryLeaf_mono hargs (fun _ => id) h
  | hasAccess => exact hasAccessLeaf_mono hargs h
  | and => exact h
  | or => exact h
  | not => exact h
  | _ => exact binaryLeaf_mono hargs h

end Leaves

/-! ## The two runs -/

/-- A reference that can see a key of the subject otherwise than by a path that
    starts with it. -/
def seesOtherwise (pip : String) : Ref → Bool
  | .path .subject [] => true
  | .path _ _ => false
  | .entitlements _ _ => pip == "entitledResources"

section TwoRuns

variable {P : Platform} {known : String → Bool} {resource : Value}
  {fields : List (String × Value)} {pip : String} {value : Value}

/-- A reference that has not failed does not read the alias, so binding it
    changes nothing. -/
theorem argValue_setField (hknown : known pip = true) (habsent : fields.lookup pip = none)
    {r : Ref} (hsees : seesOtherwise pip r = false)
    (hpip : isFailedPipRef known (.object fields) r = false) :
    argValue known resource (.object (Value.setField pip value fields)) (.ref r) =
      argValue known resource (.object fields) (.ref r) := by
  cases r with
  | entitlements rt names =>
    have hne : "entitledResources" ≠ pip := by
      rintro rfl
      simp [seesOtherwise] at hsees
    simp [argValue, isFailedPipRef, refValue, entitlementRefValue, Value.objectGet,
      Value.lookup_setField_ne hne]
  | path scope path =>
    cases scope with
    | resource => rfl
    | subject =>
      cases path with
      | nil => simp [seesOtherwise] at hsees
      | cons key more =>
        have hne : key ≠ pip := by
          rintro rfl
          simp [isFailedPipRef, hknown, habsent] at hpip
        have hpip' : isFailedPipRef known (.object (Value.setField pip value fields))
            (.path .subject (key :: more)) = false := by
          simpa [isFailedPipRef, Value.lookup_setField_ne hne] using hpip
        rw [argValue, argValue, hpip, hpip', refValue, refValue, refScopeBase, refScopeBase,
          pathLookup, pathLookup]
        cases more <;> simp [getPath, Value.objectGet, Value.lookup_setField_ne hne]

/-- The relation between a predicate of the evaluator in the run without the
    alias and in the run with it. -/
structure Lifts (known : String → Bool) (pip : String) (fields : List (String × Value))
    (f f' : Node → Bool) : Prop where
  mono : ∀ ast : Node, ast.anyRef (seesOtherwise pip) = false → f ast = true → f' ast = true
  same : ∀ ast : Node, ast.anyRef (seesOtherwise pip) = false →
    argHasFailedPipRef known (.object fields) ast = false → f' ast = f ast

theorem keepsValues_setField (hknown : known pip = true) (habsent : fields.lookup pip = none)
    {args : List Node} (hsees : ∀ a ∈ args, a.anyRef (seesOtherwise pip) = false) :
    KeepsValues known resource (.object fields)
      (.object (Value.setField pip value fields)) args := by
  intro a ha x hx
  cases a with
  | const v => exact hx
  | node op more => exact hx
  | ref r =>
    have hpip : isFailedPipRef known (.object fields) r = false := by
      cases hf : isFailedPipRef known (.object fields) r with
      | false => rfl
      | true => simp [argValue, hf] at hx
    rw [argValue_setField hknown habsent (hsees _ ha) hpip]
    exact hx

theorem lifts_leaf (hknown : known pip = true) (habsent : fields.lookup pip = none) :
    Lifts known pip fields (astLeafAllows P known resource (.object fields))
      (astLeafAllows P known resource (.object (Value.setField pip value fields))) := by
  constructor
  · intro ast hsees h
    cases ast with
    | const v => cases v <;> exact h
    | ref r => exact h
    | node op args =>
      exact astLeafAllows_mono (keepsValues_setField hknown habsent (Node.anyRef_args hsees)) h
  · intro ast hsees hpip
    cases ast with
    | const v => cases v <;> rfl
    | ref r => rfl
    | node op args =>
      rw [Bool.eq_iff_iff]
      refine ⟨astLeafAllows_mono ?_,
        astLeafAllows_mono (keepsValues_setField hknown habsent (Node.anyRef_args hsees))⟩
      -- without a failed reference the second run keeps values backwards as well
      intro a ha x hx
      cases a with
      | const v => exact hx
      | node op more => exact hx
      | ref r =>
        have hr := argHasFailedPipRef_args hpip (.ref r) ha
        rw [argValue_setField hknown habsent (Node.anyRef_args hsees _ ha) hr] at hx
        exact hx

/-- Binding the alias makes no reference fail. -/
theorem argHasFailedPipRef_setField {ast : Node}
    (h : argHasFailedPipRef known (.object fields) ast = false) :
    argHasFailedPipRef known (.object (Value.setField pip value fields)) ast = false := by
  rw [← Bool.not_eq_true] at h ⊢
  refine fun h' => h (Node.anyRef_mono (fun r hr => ?_) ast h')
  cases r with
  | entitlements rt names => simp [isFailedPipRef] at hr
  | path scope path =>
    cases scope with
    | resource => simp [isFailedPipRef] at hr
    | subject =>
      cases path with
      | nil => simp [isFailedPipRef] at hr
      | cons key more =>
        by_cases hne : key = pip
        · simp [isFailedPipRef, hne, Value.lookup_setField_self] at hr
        · simpa [isFailedPipRef, Value.lookup_setField_ne hne] using hr

theorem connectiveAllows_mono {arg arg' : Node → Bool} (harg : Lifts known pip fields arg arg')
    {op : Op} {args : List Node} (hsees : ∀ a ∈ args, a.anyRef (seesOtherwise pip) = false)
    (h : connectiveAllows known (.object fields) arg op args = true) :
    connectiveAllows known (.object (Value.setField pip value fields)) arg' op args = true := by
  cases op with
  | and =>
    simp only [connectiveAllows, Bool.and_eq_true, List.all_eq_true] at h ⊢
    exact ⟨h.1, fun a ha => harg.mono a (hsees a ha) (h.2 a ha)⟩
  | or =>
    simp only [connectiveAllows, List.any_eq_true] at h ⊢
    obtain ⟨a, ha, hallow⟩ := h
    exact ⟨a, ha, harg.mono a (hsees a ha) hallow⟩
  | not =>
    cases args with
    | nil => simp [connectiveAllows] at h
    | cons a as =>
      -- the guard says that the operand reads no failed PIP, so it keeps its value
      simp only [connectiveAllows, Bool.and_eq_true, Bool.not_eq_true'] at h ⊢
      have hsame := harg.same a (hsees a List.mem_cons_self) h.1
      exact ⟨argHasFailedPipRef_setField h.1, by rw [hsame, h.2]⟩
  | _ => simp [connectiveAllows] at h

theorem connectiveAllows_same {arg arg' : Node → Bool} (harg : Lifts known pip fields arg arg')
    {op : Op} {args : List Node} (hsees : ∀ a ∈ args, a.anyRef (seesOtherwise pip) = false)
    (hpip : ∀ a ∈ args, argHasFailedPipRef known (.object fields) a = false) :
    connectiveAllows known (.object (Value.setField pip value fields)) arg' op args =
      connectiveAllows known (.object fields) arg op args := by
  have hsame : ∀ a ∈ args, arg' a = arg a := fun a ha => harg.same a (hsees a ha) (hpip a ha)
  cases op with
  | and =>
    rw [connectiveAllows, connectiveAllows, Bool.eq_iff_iff, Bool.and_eq_true, Bool.and_eq_true,
      List.all_eq_true, List.all_eq_true]
    exact and_congr_right fun _ => forall₂_congr fun a ha => by rw [hsame a ha]
  | or =>
    rw [connectiveAllows, connectiveAllows, Bool.eq_iff_iff, List.any_eq_true, List.any_eq_true]
    exact exists_congr fun a => and_congr_right fun ha => by rw [hsame a ha]
  | not =>
    cases args with
    | nil => rfl
    | cons a as =>
      have ha := hpip a List.mem_cons_self
      rw [connectiveAllows, connectiveAllows, hsame a List.mem_cons_self, ha,
        argHasFailedPipRef_setField ha]
  | _ => rfl

/-- One unrolled level of connectives. -/
theorem lifts_allowsWith (hknown : known pip = true) (habsent : fields.lookup pip = none)
    {arg arg' : Node → Bool} (harg : Lifts known pip fields arg arg') :
    Lifts known pip fields (allowsWith P known resource (.object fields) arg)
      (allowsWith P known resource (.object (Value.setField pip value fields)) arg') := by
  have hleaf : Lifts known pip fields (astLeafAllows P known resource (.object fields))
      (astLeafAllows P known resource (.object (Value.setField pip value fields))) :=
    lifts_leaf hknown habsent
  constructor
  · intro ast hsees h
    cases hconn : ast.isConnective with
    | false =>
      rw [allowsWith_leaf hconn] at h ⊢
      exact hleaf.mono ast hsees h
    | true =>
      cases ast with
      | node op args =>
        rw [allowsWith_connective hconn] at h ⊢
        exact connectiveAllows_mono harg (Node.anyRef_args hsees) h
      | _ => simp [Node.isConnective] at hconn
  · intro ast hsees hpip
    cases hconn : ast.isConnective with
    | false => rw [allowsWith_leaf hconn, allowsWith_leaf hconn, hleaf.same ast hsees hpip]
    | true =>
      cases ast with
      | node op args =>
        rw [allowsWith_connective hconn, allowsWith_connective hconn]
        exact connectiveAllows_same harg (Node.anyRef_args hsees) (Node.anyRef_args hpip)
      | _ => simp [Node.isConnective] at hconn

/-- The evaluator in the two runs. -/
theorem conditionAllows_setField (hknown : known pip = true) (habsent : fields.lookup pip = none)
    {ast : Node} (hsees : ast.anyRef (seesOtherwise pip) = false)
    (h : conditionAllows P known resource (.object fields) none (some ast) = true) :
    conditionAllows P known resource (.object (Value.setField pip value fields)) none
      (some ast) = true := by
  rw [conditionAllows_ast] at h ⊢
  exact (lifts_allowsWith hknown habsent
    (lifts_allowsWith hknown habsent (lifts_leaf hknown habsent))).mono ast hsees h

end TwoRuns

/-! ## Parsed conditions -/

/-- An operand names a key in every path, so a condition sees an alias only by a
    path that starts with it or through the entitlements. -/
theorem seesOtherwise_condition {pip : String} {ast : Node} (h : IsCondition ast)
    (hsees : ast.anyRef (seesOtherwise pip) = true) :
    pip = "entitledResources" ∧ ast.anyRef Ref.isEntitlements = true := by
  obtain ⟨r, hr, hsees, hall⟩ := h.exists_operand hsees
  cases r with
  | entitlements rt names =>
    exact ⟨by simpa [seesOtherwise] using hsees, hall Ref.isEntitlements rfl⟩
  | path scope path =>
    cases path with
    | nil => simp [Node.isOperand] at hr
    | cons key more => cases scope <;> simp [seesOtherwise] at hsees

/-- Binding any value to the alias of a failed PIP keeps every grant. -/
theorem conditionAllows_of_failed_pip (P : Platform) (known : String → Bool) (resource : Value)
    (fields : List (String × Value)) (pip : String) (value : Value) (text : String) (ast : Node)
    (hparse : parseCondition P text = .ok ast)
    (hknown : known pip = true) (habsent : fields.lookup pip = none)
    (hentitled : pip ≠ "entitledResources" ∨ ast.anyRef Ref.isEntitlements = false)
    (hallow : conditionAllows P known resource (.object fields) none (some ast) = true) :
    conditionAllows P known resource (.object (Value.setField pip value fields)) none
      (some ast) = true := by
  refine conditionAllows_setField hknown habsent ?_ hallow
  rw [← Bool.not_eq_true]
  intro hsees
  obtain ⟨hpip, hent⟩ := seesOtherwise_condition (parseCondition_isCondition hparse) hsees
  rcases hentitled with hne | hnone
  · exact hne hpip
  · exact Bool.false_ne_true (hnone.symm.trans hent)

/-- A resource condition that does not mention the failed PIP `team`. -/
theorem conditionAllows_other_alternative :
    conditionAllows .ascii (fun key => key == "team") (.object [("a", .string "x")])
      (.object (Value.setField "team" (.string "red") [("id", .string "u")])) none
      (some (.node .or
        [.node .eq [.ref (.path .resource ["a"]), .const (.string "x")],
         .node .neq [.ref (.path .subject ["team"]), .const (.string "red")]])) = true := by
  refine conditionAllows_of_failed_pip .ascii _ _ _ "team" _
    "resource.a = 'x' OR subject.team != 'red'" _ ?_ ?_ ?_ ?_ ?_
  · decide +kernel
  · decide
  · decide
  · decide
  · decide +kernel

/-- The entitlements operand takes an absent `entitledResources` for an empty
    one: `IS EMPTY` grants, and no longer does once the key is bound. -/
theorem conditionAllows_absent_entitlements :
    parseCondition .ascii "subject.entitledResources.of('T').as('OWNER') IS EMPTY" =
      .ok (.node .isEmpty [.ref (.entitlements "T" ["OWNER"])]) ∧
    conditionAllows .ascii (fun key => key == "entitledResources") (.object []) (.object []) none
      (some (.node .isEmpty [.ref (.entitlements "T" ["OWNER"])])) = true ∧
    conditionAllows .ascii (fun key => key == "entitledResources") (.object [])
      (.object (Value.setField "entitledResources"
        (.object [("T", .object [("OWNER", .array [.string "1"])])]) [])) none
      (some (.node .isEmpty [.ref (.entitlements "T" ["OWNER"])])) = false := by
  refine ⟨?_, ?_, ?_⟩
  · decide +kernel
  · decide +kernel
  · decide +kernel

end Rls

end AuthzAgent
