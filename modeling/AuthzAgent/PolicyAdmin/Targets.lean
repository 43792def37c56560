/-
  AuthzAgent.PolicyAdmin.Targets

  What acconfig reads in the targets that authz-policy-admin prints.  A
  resource type or an operation comes back as it is.  The roles of a role
  target are the parts of its key between commas, and a blank part makes the
  whole target unreadable.
-/

import AuthzAgent.Acconfig.RoleGrammar
import AuthzAgent.PolicyAdmin.Export

namespace AuthzAgent

open GoText
open Acconfig

namespace PolicyAdmin

/-! ## Quoted literals -/

theorem quotedValue_quoted {lit : List Char} (hquote : '\'' ∉ lit) (hne : lit ≠ []) :
    quotedValue ('\'' :: (lit ++ ['\''])) = some lit := by
  rw [quotedValue]
  simp only [takeWhile_quote hquote []]
  simp [hne]

theorem acceptQuoted_quoted {lit : List Char} (hquote : '\'' ∉ lit) (rest : List Char) :
    acceptQuoted ('\'' :: (lit ++ '\'' :: rest)) =
      if trimChars lit = [] then none else some (lit, rest) := by
  have hskip : skipSpace ('\'' :: (lit ++ '\'' :: rest)) = '\'' :: (lit ++ '\'' :: rest) := by
    rw [skipSpace, List.dropWhile_cons_of_neg (by decide)]
  rw [acceptQuoted, hskip]
  simp only [takeWhile_quote hquote rest]
  simp

theorem acceptQuoted_space (cs : List Char) : acceptQuoted (' ' :: cs) = acceptQuoted cs := by
  simp [acceptQuoted, skipSpace, isBlank]

/-! ## Equalities -/

theorem dropFold_self (word rest : List Char) : dropFold word (word ++ rest) = some rest := by
  induction word with
  | nil => rfl
  | cons c word ih => simp [dropFold, foldEq, ih]

/-- A printed equality is read back. -/
theorem equalsPattern_print (keyword : String) {value : List Char} (hquote : '\'' ∉ value)
    (hne : value ≠ []) :
    equalsPattern keyword (keyword.toList ++ (" == '".toList ++ (value ++ ['\'']))) =
      some value := by
  have hsep : " == '".toList = [' ', '=', '=', ' ', '\''] := by simp
  have hequals : "==".toList = ['=', '='] := by simp
  rw [equalsPattern, dropFold_self, hsep, hequals]
  simp [dropSpaces, isRegexSpace, dropFold, foldEq, quotedValue_quoted hquote hne]

theorem equalsPattern_other {keyword : String} {a c : Char} {as : List Char}
    (hkeyword : keyword.toList = a :: as) (hne : foldEq c a = false) (cs : List Char) :
    equalsPattern keyword (c :: cs) = none := by
  simp [equalsPattern, hkeyword, dropFold, hne]

/-- A text whose first and last characters are printed has no outer blanks. -/
theorem trimSpace_print {s : String} {c d : Char} {front back : List Char}
    (hback : s.toList = c :: back) (hfront : s.toList = front ++ [d]) (hc : isSpace c = false)
    (hd : isSpace d = false) : trimSpace s = s := by
  rw [trimSpace, trimChars_eq_self, String.ofList_toList]
  · intro h
    simpa only [hback, List.head_cons] using hc
  · intro h
    simpa only [hfront, List.getLast_append_singleton] using hd

/-- A text that does not start with `t` is not `true`. -/
theorem equalFold_true_eq_false {s : String} {c : Char} {cs : List Char}
    (hs : s.toList = c :: cs) (hc : foldEq c 't' = false) : equalFold s "true" = false := by
  have htrue : "true".toList = ['t', 'r', 'u', 'e'] := by simp
  rw [equalFold, hs, htrue, equalFoldChars, hc, Bool.false_and]

theorem parseTarget_true : parseTarget "true" = .any := by decide +kernel

/-- A printed equality is neither blank nor `true`, and has no outer blanks. -/
theorem printed_equality {s : String} {c : Char} {cs value : List Char}
    (hs : s.toList = c :: cs ++ (" == '".toList ++ (value ++ ['\'']))) (hspace : isSpace c = false)
    (hc : foldEq c 't' = false) :
    trimSpace s = s ∧ s ≠ "" ∧ equalFold s "true" = false := by
  have hfront : s.toList = (c :: cs ++ (" == '".toList ++ value)) ++ ['\''] := by
    rw [hs]
    simp
  refine ⟨trimSpace_print hs hfront hspace (by decide), ?_, equalFold_true_eq_false hs hc⟩
  rintro rfl
  simp at hs

theorem parseTarget_resourceTypeTarget {rt : String} (hquote : '\'' ∉ rt.toList) (hne : rt ≠ "")
    (hstar : rt ≠ "*") : parseTarget (resourceTypeTarget rt) =
      if equalFold rt "ALL" = true then .any else .resourceType rt := by
  rw [resourceTypeTarget]
  by_cases hall : equalFold rt "ALL" = true
  · simp only [hall, true_or, if_true, parseTarget_true]
  · have hprint : ("resourceType == '" ++ rt ++ "'").toList =
        "resourceType".toList ++ (" == '".toList ++ (rt.toList ++ ['\''])) := by
      simp
    have hkeyword : "resourceType".toList = 'r' :: "esourceType".toList := by simp
    obtain ⟨htrim, hempty, htrue⟩ := printed_equality (hkeyword ▸ hprint) (by decide) (by decide)
    simp only [hall, hstar, or_self, if_false, parseTarget, htrim, hempty, htrue,
      Bool.false_eq_true, resourceTypePattern, hprint,
      equalsPattern_print _ hquote (by simpa using hne), String.ofList_toList]

theorem parseTarget_operationTarget {op : String} (hquote : '\'' ∉ op.toList) (hne : op ≠ "")
    (hstar : op ≠ "*") : parseTarget (operationTarget op) =
      if equalFold op "ALL" = true then .any else .operation op := by
  rw [operationTarget]
  by_cases hall : equalFold op "ALL" = true
  · simp only [hall, true_or, if_true, parseTarget_true]
  · have hprint : ("operation == '" ++ op ++ "'").toList =
        "operation".toList ++ (" == '".toList ++ (op.toList ++ ['\''])) := by
      simp
    have hkeyword : "operation".toList = 'o' :: "peration".toList := by simp
    have hresource : "resourceType".toList = 'r' :: "esourceType".toList := by simp
    have hother : resourceTypePattern
        ("operation".toList ++ (" == '".toList ++ (op.toList ++ ['\'']))) = none := by
      rw [hkeyword]
      exact equalsPattern_other hresource (by decide) _
    obtain ⟨htrim, hempty, htrue⟩ := printed_equality (hkeyword ▸ hprint) (by decide) (by decide)
    simp only [hall, hstar, or_self, if_false, parseTarget, htrim, hempty, htrue,
      Bool.false_eq_true, hprint, hother, operationPattern,
      equalsPattern_print _ hquote (by simpa using hne), String.ofList_toList]

/-! ## Roles -/

/-- The operands of a role target. -/
def operands (parts : List (List Char)) : List Char :=
  [','].intercalate (parts.map fun part => '\'' :: (part ++ ['\'']))

theorem operands_cons_cons (part next : List Char) (parts : List (List Char)) :
    operands (part :: next :: parts) =
      '\'' :: (part ++ '\'' :: ',' :: operands (next :: parts)) := by
  simp [operands, List.intercalate]

theorem length_le_operands (parts : List (List Char)) : parts.length ≤ (operands parts).length := by
  induction parts with
  | nil => simp
  | cons part parts ih =>
    cases parts with
    | nil => simp [operands]
    | cons next parts =>
      rw [operands_cons_cons]
      simp only [List.length_cons, List.length_append] at ih ⊢
      omega

/-- The operands are the parts, unless one is blank. -/
theorem scanOperands_operands {parts : List (List Char)} (hne : parts ≠ [])
    (hquote : ∀ part ∈ parts, '\'' ∉ part) {fuel : Nat} (hfuel : parts.length ≤ fuel) :
    scanOperands fuel (operands parts) =
      if ∀ part ∈ parts, trimChars part ≠ [] then some (parts, []) else none := by
  induction parts generalizing fuel with
  | nil => exact absurd rfl hne
  | cons part parts ih =>
    obtain ⟨fuel, rfl⟩ := Nat.exists_eq_add_of_le' (Nat.le_trans (Nat.le_add_left 1 _) hfuel)
    have hpart : '\'' ∉ part := hquote part List.mem_cons_self
    cases parts with
    | nil =>
      have hsingle : operands [part] = '\'' :: (part ++ '\'' :: []) := by simp [operands]
      rw [hsingle, scanOperands, acceptQuoted_quoted hpart]
      by_cases hblank : trimChars part = []
      · simp [hblank]
      · simp [hblank, acceptByte, skipSpace]
    | cons next parts =>
      rw [operands_cons_cons, scanOperands, acceptQuoted_quoted hpart]
      by_cases hblank : trimChars part = []
      · simp [hblank]
      · have hcomma : acceptByte ',' (',' :: operands (next :: parts)) =
            some (operands (next :: parts)) := by
          simp [acceptByte, skipSpace, isBlank]
        have hfuel' : (next :: parts).length ≤ fuel := by
          simp only [List.length_cons] at hfuel ⊢
          omega
        have hrest := ih (List.cons_ne_nil next parts)
          (fun p hp => hquote p (List.mem_cons_of_mem part hp)) hfuel'
        simp only [hblank, if_false, hcomma, hrest]
        by_cases hall : ∀ p ∈ next :: parts, trimChars p ≠ []
        · have hall' : ∀ p ∈ part :: next :: parts, trimChars p ≠ [] :=
            List.forall_mem_cons.mpr ⟨hblank, hall⟩
          rw [if_pos hall, if_pos hall']
          rfl
        · have hall' : ¬ ∀ p ∈ part :: next :: parts, trimChars p ≠ [] :=
            fun h => hall fun p hp => h p (List.mem_cons_of_mem part hp)
          rw [if_neg hall, if_neg hall']
          rfl

theorem scanOperands_space (fuel : Nat) (cs : List Char) :
    scanOperands fuel (' ' :: cs) = scanOperands fuel cs := by
  cases fuel with
  | zero => rfl
  | succ fuel => rw [scanOperands, scanOperands, acceptQuoted_space]

theorem dropWord_self (word rest : List Char) : dropWord word (word ++ rest) = some rest := by
  induction word with
  | nil => rfl
  | cons c word ih => simp [dropWord, ih]

/-- A word before a blank is accepted, also after one. -/
theorem acceptWord_self {word : String} {c : Char} {cs : List Char} (hword : word.toList = c :: cs)
    (hblank : isBlank c = false) (rest : List Char) :
    acceptWord word (word.toList ++ ' ' :: rest) = some (' ' :: rest) ∧
    acceptWord word (' ' :: (word.toList ++ ' ' :: rest)) = some (' ' :: rest) := by
  have hskip : skipSpace (word.toList ++ ' ' :: rest) = word.toList ++ ' ' :: rest := by
    rw [hword, skipSpace, List.cons_append, List.dropWhile_cons_of_neg (by simp [hblank])]
  have hskip' : skipSpace (' ' :: (word.toList ++ ' ' :: rest)) = word.toList ++ ' ' :: rest := by
    rw [skipSpace, List.dropWhile_cons_of_pos (by decide)]
    exact hskip
  constructor
  · rw [acceptWord, hskip, dropWord_self]
    rfl
  · rw [acceptWord, hskip', dropWord_self]
    rfl

/-- The text of a role target with the given parts, after its words. -/
def roleClause (parts : List (List Char)) : List Char :=
  match parts with
  | [part] => operands [part]
  | parts => "ANY".toList ++ ' ' :: operands parts

/-- One clause up to its operands, when they end the text. -/
theorem scanClauses_single {fuel : Nat} {cs afterSubject afterContains operands : List Char}
    (hsubject : acceptWord "subject.roles" cs = some afterSubject)
    (hcontains : acceptWord "CONTAINS" afterSubject = some afterContains)
    (hany : (acceptWord "ANY" afterContains).getD afterContains = operands)
    {result : Option (List (List Char))}
    (hoperands : scanOperands operands.length operands = result.map (·, [])) :
    scanClauses (fuel + 1) cs = result := by
  rw [scanClauses, hsubject, Option.bind_eq_bind, Option.bind_some, hcontains,
    Option.bind_eq_bind, Option.bind_some, hany]
  simp only [hoperands]
  have hend : atEnd [] = true := rfl
  cases result with
  | none => rw [Option.map_none, Option.bind_none]
  | some roles => rw [Option.map_some, Option.bind_some, if_pos hend]

theorem scanClauses_print {parts : List (List Char)} (hne : parts ≠ [])
    (hquote : ∀ part ∈ parts, '\'' ∉ part) (fuel : Nat) :
    scanClauses (fuel + 1)
        ("subject.roles".toList ++ ' ' :: ("CONTAINS".toList ++ ' ' :: roleClause parts)) =
      if ∀ part ∈ parts, trimChars part ≠ [] then some parts else none := by
  have hsubject : "subject.roles".toList = 's' :: "ubject.roles".toList := by simp
  have hcontains : "CONTAINS".toList = 'C' :: "ONTAINS".toList := by simp
  have hany : "ANY".toList = ['A', 'N', 'Y'] := by simp
  -- with one operand or more, the scanner is left before the operands
  have hclause : (acceptWord "ANY" (' ' :: roleClause parts)).getD (' ' :: roleClause parts) =
      ' ' :: operands parts := by
    match parts, hne with
    | [part], _ =>
      have hnone : acceptWord "ANY" (' ' :: operands [part]) = none := by
        simp [acceptWord, skipSpace, isBlank, operands, hany, dropWord]
      rw [roleClause, hnone, Option.getD_none]
    | part :: next :: parts, _ =>
      have hsome := (acceptWord_self hany (by decide) (operands (part :: next :: parts))).2
      rw [roleClause, hsome, Option.getD_some]
      simp
  have hfuel : parts.length ≤ (' ' :: operands parts).length :=
    Nat.le_succ_of_le (length_le_operands parts)
  refine scanClauses_single (acceptWord_self hsubject (by decide) _).1
    (acceptWord_self hcontains (by decide) _).2 hclause ?_
  rw [scanOperands_space, scanOperands_operands hne hquote hfuel]
  split_ifs <;> rfl

theorem toList_quoted (part : String) : (quoted part).toList = '\'' :: (part.toList ++ ['\'']) := by
  simp [quoted]

theorem toList_join_quoted (parts : List String) :
    (join ',' (parts.map quoted)).toList = operands (parts.map String.toList) := by
  simp [join, operands, Function.comp_def, toList_quoted]

theorem toList_rolesTarget {key : String} (hne : key ≠ "") :
    (rolesTarget key).toList = "subject.roles".toList ++ ' ' :: ("CONTAINS".toList ++ ' ' ::
      roleClause ((split ',' key).map String.toList)) := by
  have hcontains : "subject.roles CONTAINS ".toList =
      "subject.roles".toList ++ ' ' :: ("CONTAINS".toList ++ [' ']) := by simp
  have hany : "subject.roles CONTAINS ANY ".toList =
      "subject.roles".toList ++ ' ' :: ("CONTAINS".toList ++ ' ' :: ("ANY".toList ++ [' '])) := by
    simp
  rw [rolesTarget, if_neg hne]
  match hsplit : split ',' key with
  | [] => exact absurd hsplit (split_ne_nil ',' key)
  | [part] =>
    rw [String.toList_append, hcontains, toList_quoted]
    simp [roleClause, operands]
  | part :: next :: parts =>
    rw [String.toList_append, hany, toList_join_quoted]
    simp [roleClause]

/-- A role target ends with the quote of its last operand. -/
theorem roleClause_ends {parts : List (List Char)} (hne : parts ≠ []) :
    ∃ front, roleClause parts = front ++ ['\''] := by
  have hoperands : ∃ front, operands parts = front ++ ['\''] := by
    induction parts with
    | nil => exact absurd rfl hne
    | cons part parts ih =>
      cases parts with
      | nil => exact ⟨'\'' :: part, by simp [operands]⟩
      | cons next parts =>
        obtain ⟨front, hfront⟩ := ih (List.cons_ne_nil next parts)
        exact ⟨'\'' :: (part ++ '\'' :: ',' :: front), by simp [operands_cons_cons, hfront]⟩
  obtain ⟨front, hfront⟩ := hoperands
  match parts, hne with
  | [part], _ => exact ⟨front, hfront⟩
  | part :: next :: parts, _ =>
    refine ⟨"ANY".toList ++ ' ' :: front, ?_⟩
    have hclause : roleClause (part :: next :: parts) =
        "ANY".toList ++ ' ' :: operands (part :: next :: parts) := rfl
    rw [hclause, hfront]
    simp

/-- The target of a key: the roles are its parts between commas, and a blank
    part makes it unreadable. -/
theorem parseTarget_rolesTarget {key : String} (hne : key ≠ "") (hquote : '\'' ∉ key.toList) :
    parseTarget (rolesTarget key) =
      if ∀ part ∈ split ',' key, trimSpace part ≠ "" then .roles (split ',' key).eraseDups
      else .unknown := by
  have hsubject : "subject.roles".toList = 's' :: "ubject.roles".toList := by simp
  have hresource : "resourceType".toList = 'r' :: "esourceType".toList := by simp
  have hoperation : "operation".toList = 'o' :: "peration".toList := by simp
  have hprint := toList_rolesTarget hne
  have hparts : (split ',' key).map String.toList ≠ [] := by simp [split_ne_nil]
  have hparts' : ∀ part ∈ (split ',' key).map String.toList, '\'' ∉ part := by
    intro part hpart hmem
    obtain ⟨s, hs, rfl⟩ := List.mem_map.mp hpart
    exact hquote (mem_of_mem_split hs hmem).1
  -- the target is neither blank nor an equality
  obtain ⟨back, hback⟩ : ∃ back, (rolesTarget key).toList = 's' :: back := by
    rw [hprint, hsubject]
    exact ⟨_, rfl⟩
  obtain ⟨front, hfront⟩ : ∃ front, (rolesTarget key).toList = front ++ ['\''] := by
    obtain ⟨front, hclause⟩ := roleClause_ends hparts
    refine ⟨"subject.roles".toList ++ ' ' :: ("CONTAINS".toList ++ ' ' :: front), ?_⟩
    rw [hprint, hclause]
    simp
  have htrim := trimSpace_print hback hfront (by decide) (by decide)
  have hempty : rolesTarget key ≠ "" := by
    intro h
    rw [h] at hback
    simp at hback
  have htrue := equalFold_true_eq_false hback (by decide)
  have hnotResource : resourceTypePattern (rolesTarget key).toList = none := by
    rw [hback]
    exact equalsPattern_other hresource (by decide) back
  have hnotOperation : operationPattern (rolesTarget key).toList = none := by
    rw [hback]
    exact equalsPattern_other hoperation (by decide) back
  have hlength : (rolesTarget key).toList.length = back.length + 1 := by rw [hback]; rfl
  have hroles : parseRoleExpression (rolesTarget key) =
      if ∀ part ∈ split ',' key, trimSpace part ≠ "" then some (split ',' key).eraseDups
      else none := by
    rw [parseRoleExpression, hlength, hprint, scanClauses_print hparts hparts']
    simp [trimSpace, apply_ite (Option.map _), Function.comp_def]
  simp only [parseTarget, htrim, hempty, htrue, Bool.false_eq_true, or_self, if_false,
    hnotResource, hnotOperation, hroles]
  split_ifs <;> rfl

end PolicyAdmin

end AuthzAgent
