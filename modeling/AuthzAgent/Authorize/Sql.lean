/-
  AuthzAgent.Authorize.Sql

  The structure of an SQL filter under substitution.  A template is the text of
  a predicate with its `${subject.KEY}` placeholders as holes; substitution fills
  the holes with the texts of the subject (`substituteSql_eq_fill`), between
  quotes and without escapes, or bare for a canonical key.  By the two counts of
  `Lib.SqlText` the filled text then has the tokens of the template, with the
  literals of the values in place of the placeholders, exactly where no value
  has a quote, no key with a value is canonical, and no literal touches another
  quote.
-/

import AuthzAgent.Authorize.Substitute
import AuthzAgent.Lib.SqlText

namespace AuthzAgent

open Rego (Value)
open SqlText
open Template (Item fill fill_char fill_hole)

namespace Authorize

/-! ## Templates and values -/

/-- The characters and the placeholders of a text.  The first argument counts the
    characters of the last placeholder still to step over. -/
def templateItems : Nat → List Char → List (Item String)
  | _, [] => []
  | skip + 1, _ :: cs => templateItems skip cs
  | 0, c :: cs =>
    if "$\x7bsubject.".toList.isPrefixOf (c :: cs) then
      let after := (c :: cs).drop 10
      let key := after.takeWhile (· ≠ '}')
      if key.length < after.length then
        .hole (String.ofList key) :: templateItems (10 + key.length) cs
      else .char c :: templateItems 0 cs
    else .char c :: templateItems 0 cs

def stringText : Value → Option String
  | .string s => some s
  | _ => none

def valueTexts : Value → Option (List String)
  | .string s => some [s]
  | .array items => items.mapM stringText
  | _ => none

/-- The texts of the value that a placeholder is replaced by. -/
def placeholderTexts (subject : Fields) (key : String) : Option (List String) :=
  (placeholderValue subject key).bind valueTexts

/-- The texts of a placeholder, as characters. -/
def holeTexts (subject : Fields) (key : String) : List (List Char) :=
  ((placeholderTexts subject key).getD []).map String.toList

/-! ## Substitution fills the holes -/

theorem eq_map_string {items : List Value} {texts : List String}
    (h : items.mapM stringText = some texts) : items = texts.map Value.string := by
  induction items generalizing texts with
  | nil =>
    rw [List.mapM_nil] at h
    obtain rfl := Option.some.inj h
    rfl
  | cons item items ih =>
    rw [List.mapM_cons] at h
    obtain ⟨text, htext, h⟩ := Option.bind_eq_some_iff.mp h
    obtain ⟨rest, hrest, h⟩ := Option.bind_eq_some_iff.mp h
    obtain rfl := Option.some.inj h
    cases item with
    | string s =>
      obtain rfl := Option.some.inj htext
      rw [ih hrest, List.map_cons]
    | _ => cases htext

theorem toList_quoted (P : Platform) (s : String) :
    (quoted P "'" (.string s)).toList = '\'' :: (s.toList ++ ['\'']) := by
  rw [quoted, P.regoSprint_string, String.toList_append, String.toList_append]
  rfl

/-- A value of strings is rendered as its texts, between quotes or bare. -/
theorem toList_formatSqlValue (P : Platform) (key : String) {value : Value} {texts : List String}
    (h : valueTexts value = some texts) :
    (formatSqlValue P key value).toList =
      showTexts (canonicalSubjectKey key) (texts.map String.toList) := by
  have hbare : (texts.map Value.string).map P.regoSprint = texts := by
    rw [List.map_map]
    exact List.map_id'' P.regoSprint_string texts
  have hquoted : ((texts.map Value.string).map (quoted P "'")).map String.toList =
      (texts.map String.toList).map fun t => '\'' :: (t ++ ['\'']) := by
    rw [List.map_map, List.map_map, List.map_map]
    exact List.map_congr_left fun s _ => toList_quoted P s
  cases value with
  | string s =>
    obtain rfl := Option.some.inj h
    rw [formatSqlValue]
    · cases canonicalSubjectKey key with
      | true => simp [showTexts, P.regoSprint_string, List.intercalate]
      | false => simp [showTexts, toList_quoted, List.intercalate]
    · intro items heq
      cases heq
  | array items =>
    obtain rfl := eq_map_string h
    rw [formatSqlValue]
    cases canonicalSubjectKey key with
    | true =>
      rw [if_pos rfl, hbare, String.toList_intercalate, showTexts, if_pos rfl]
      rfl
    | false =>
      rw [if_neg Bool.false_ne_true, String.toList_intercalate, hquoted, showTexts,
        if_neg Bool.false_ne_true]
      rfl
  | _ => cases h

theorem substituteSql_eq_fill (P : Platform) (subject : Fields) (skip : Nat) (cs : List Char)
    (hvalues : ∀ key, .hole key ∈ templateItems skip cs → (placeholderTexts subject key).isSome) :
    substitute (formatSqlValue P) subject skip cs =
      fill (holeText (holeTexts subject) canonicalSubjectKey) (templateItems skip cs) := by
  fun_induction templateItems skip cs with
  | case1 => rfl
  | case2 skip c cs ih => exact ih hvalues
  | case3 c cs hstart after key hlen ih =>
    rw [fill_hole, ← ih fun k hk => hvalues k (List.mem_cons_of_mem _ hk)]
    obtain ⟨texts, htexts⟩ := Option.isSome_iff_exists.mp (hvalues _ List.mem_cons_self)
    obtain ⟨value, hvalue, hvalueTexts⟩ := Option.bind_eq_some_iff.mp htexts
    have hhole : holeTexts subject (String.ofList key) = texts.map String.toList := by
      rw [holeTexts, htexts, Option.getD_some]
    rw [holeText, hhole, ← toList_formatSqlValue P (String.ofList key) hvalueTexts, substitute,
      if_pos hstart]
    simp only [key, after] at hvalue hlen ⊢
    rw [hvalue]
    simp only [if_pos hlen]
  | case4 c cs hstart after key hlen ih =>
    rw [fill_char, ← ih fun k hk => hvalues k (List.mem_cons_of_mem _ hk), substitute,
      if_pos hstart]
    simp only [key, after] at hlen ⊢
    split
    · rw [if_neg hlen]
    · rfl
  | case5 c cs hstart ih =>
    rw [fill_char, ← ih fun k hk => hvalues k (List.mem_cons_of_mem _ hk), substitute,
      if_neg hstart]

/-! ## The structure of the filter -/

/-- A substituted SQL predicate has the tokens of its template, with the literals
    of the values in place of the placeholders, exactly where every placeholder
    with a value has a key that is not canonical and texts without quotes, and no
    tokens are read as one across a placeholder. -/
theorem sql_structure_iff (P : Platform) (X : Lexicon) (text : String) (subject : Fields)
    (hvalues : ∀ key, .hole key ∈ templateItems 0 text.toList →
      (placeholderTexts subject key).isSome)
    (houtside : holesOutside X .outside (templateItems 0 text.toList) = true) :
    lex X .outside (substituteSqlPredicate P text subject).toList =
        fillTokens (holeTexts subject) (lexTemplate X .outside (templateItems 0 text.toList)) ↔
      (∀ key, .hole key ∈ templateItems 0 text.toList → holeTexts subject key = [] ∨
        canonicalSubjectKey key = false ∧ ∀ t ∈ holeTexts subject key, '\'' ∉ t) ∧
      joints (holeTexts subject) X none false (templateItems 0 text.toList) = 0 := by
  rw [substituteSqlPredicate, String.toList_ofList, substituteSql_eq_fill P subject 0 _ hvalues]
  exact lex_fill_iff houtside

/-- A predicate on the department of the subject. -/
def departmentTemplate : String := "department = $\x7bsubject.dept\x7d"

theorem templateItems_department : templateItems 0 departmentTemplate.toList =
    "department = ".toList.map Item.char ++ [.hole "dept"] := by
  decide +kernel

theorem hole_department {key : String}
    (h : .hole key ∈ templateItems 0 departmentTemplate.toList) : key = "dept" := by
  rw [templateItems_department, List.mem_append, List.mem_map] at h
  rcases h with ⟨c, -, h⟩ | h
  · cases h
  · exact Item.hole.inj (List.mem_singleton.mp h)

/-- A department as a header may carry it. -/
def openDepartment : Fields := [("dept", .string "x' OR 'a' = 'a")]

theorem sql_value_read_as_sql :
    (∀ key, .hole key ∈ templateItems 0 departmentTemplate.toList →
      (placeholderTexts openDepartment key).isSome) ∧
    holesOutside .ascii .outside (templateItems 0 departmentTemplate.toList) = true ∧
    lex .ascii .outside (substituteSqlPredicate .ascii departmentTemplate openDepartment).toList =
      [.word "department".toList, .symbol '=', .literal "x".toList, .word "OR".toList,
        .literal "a".toList, .symbol '=', .literal "a".toList] ∧
    lex .ascii .outside (substituteSqlPredicate .ascii departmentTemplate openDepartment).toList ≠
      fillTokens (holeTexts openDepartment)
        (lexTemplate .ascii .outside (templateItems 0 departmentTemplate.toList)) := by
  refine ⟨?_, by decide +kernel, by decide +kernel, by decide +kernel⟩
  intro key hkey
  rw [hole_department hkey]
  rfl

/-- A department without quotes stays one literal. -/
theorem sql_department_literal :
    lex .ascii .outside
        (substituteSqlPredicate .ascii departmentTemplate [("dept", .string "finance")]).toList =
      fillTokens (holeTexts [("dept", .string "finance")])
        (lexTemplate .ascii .outside (templateItems 0 departmentTemplate.toList)) := by
  refine (sql_structure_iff .ascii .ascii departmentTemplate [("dept", .string "finance")] ?_
    (by decide +kernel)).mpr ⟨?_, by decide +kernel⟩
  · intro key hkey
    rw [hole_department hkey]
    rfl
  · intro key hkey
    rw [hole_department hkey]
    exact Or.inr ⟨by decide, by decide +kernel⟩

end Authorize

end AuthzAgent
