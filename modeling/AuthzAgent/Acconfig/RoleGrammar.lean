/-
  AuthzAgent.Acconfig.RoleGrammar

  The grammar of role targets that acconfig reads, with any spacing between its
  tokens, and what a target without a role restriction looks like.

  Each step of the scanner is an equation with the text it takes
  (`acceptWord_append`, `exists_of_acceptWord` and their companions).  From these
  the two loops are the grammar: a text of it is read back (`scanOperands_text`,
  `scanClauses_text`), and a text that is read is one of it
  (`exists_operandsText`, `exists_expressionText`).
-/

import AuthzAgent.Acconfig.Convert

namespace AuthzAgent

open GoText

namespace Acconfig

/-! ## The grammar -/

/-- A run of blanks. -/
def Blanks (cs : List Char) : Prop := ∀ c ∈ cs, isBlank c = true

def AnyCase (word : String) (w : List Char) : Prop :=
  w.map Char.toLower = word.toList.map Char.toLower

/-- A role name that a target can hold. -/
def IsRole (role : String) : Prop := '\'' ∉ role.toList ∧ trimChars role.toList ≠ []

/-- A role name between quotes. -/
def quotedRole (role : String) : List Char := '\'' :: (role.toList ++ ['\''])

/-- `"'" role "'" ( "," "'" role "'" )*` -/
inductive OperandsText : List String → List Char → Prop where
  | single {role : String} (hrole : IsRole role) : OperandsText [role] (quotedRole role)
  | cons {role : String} {roles : List String} {before after rest : List Char} (hrole : IsRole role)
      (hbefore : Blanks before) (hafter : Blanks after) (h : OperandsText roles rest) :
      OperandsText (role :: roles) (quotedRole role ++ (before ++ ',' :: (after ++ rest)))

section Grammar

-- how a keyword may be spelled
variable (spells : String → List Char → Prop)

/-- `"subject.roles" ( "CONTAINS" | "CONTAINS ANY" ) operands` -/
inductive ClauseText : List String → List Char → Prop where
  | contains {roles : List String} {subject gap word space rest : List Char}
      (hsubject : spells "subject.roles" subject) (hgap : Blanks gap) (hne : gap ≠ [])
      (hword : spells "CONTAINS" word) (hspace : Blanks space) (h : OperandsText roles rest) :
      ClauseText roles (subject ++ (gap ++ (word ++ (space ++ rest))))
  | containsAny {roles : List String} {subject gap word gap' any space rest : List Char}
      (hsubject : spells "subject.roles" subject) (hgap : Blanks gap) (hne : gap ≠ [])
      (hword : spells "CONTAINS" word) (hgap' : Blanks gap') (hne' : gap' ≠ [])
      (hany : spells "ANY" any) (hspace : Blanks space) (h : OperandsText roles rest) :
      ClauseText roles (subject ++ (gap ++ (word ++ (gap' ++ (any ++ (space ++ rest))))))

/-- `clause ( "OR" clause )*` -/
inductive ExpressionText : List (List String) → List Char → Prop where
  | single {roles : List String} {text : List Char} (h : ClauseText spells roles text) :
      ExpressionText [roles] text
  | cons {roles : List String} {clauses : List (List String)} {text before word gap rest : List Char}
      (h : ClauseText spells roles text) (hbefore : Blanks before) (hword : spells "OR" word)
      (hgap : Blanks gap) (hne : gap ≠ []) (hrest : ExpressionText clauses rest) :
      ExpressionText (roles :: clauses) (text ++ (before ++ (word ++ (gap ++ rest))))

/-- A role target with the given clauses, and blanks around it. -/
def RoleText (clauses : List (List String)) (text : String) : Prop :=
  ∃ lead body trail, Blanks lead ∧ ExpressionText spells clauses body ∧ Blanks trail ∧
    text.toList = lead ++ (body ++ trail)

end Grammar

/-! ## Blanks and words -/

theorem skipSpace_append {sp : List Char} (hsp : Blanks sp) (cs : List Char) :
    skipSpace (sp ++ cs) = skipSpace cs := by
  rw [skipSpace, List.dropWhile_append_of_pos hsp, skipSpace]

theorem exists_skipSpace (cs : List Char) : ∃ sp, Blanks sp ∧ cs = sp ++ skipSpace cs :=
  ⟨cs.takeWhile isBlank, fun c hc => List.all_eq_true.mp List.all_takeWhile c hc,
    List.takeWhile_append_dropWhile.symm⟩

theorem skipSpace_cons {c : Char} (hc : isBlank c = false) (cs : List Char) :
    skipSpace (c :: cs) = c :: cs := by
  rw [skipSpace, List.dropWhile_cons_of_neg (by rw [hc]; exact Bool.false_ne_true)]

/-- What may follow a word. -/
def isDelimiter (c : Char) : Bool := isBlank c || c == '\'' || c == ','

/-- The text after a word starts with a delimiter, or is empty. -/
def Delimited (rest : List Char) : Prop := ∀ c ∈ rest.head?, isDelimiter c = true

theorem delimited_of_blanks {sp : List Char} (hsp : Blanks sp) (hne : sp ≠ []) (rest : List Char) :
    Delimited (sp ++ rest) := by
  cases sp with
  | nil => exact absurd rfl hne
  | cons c sp =>
    intro d hd
    obtain rfl : c = d := Option.some.inj hd
    rw [isDelimiter, hsp c List.mem_cons_self]
    rfl

/-- No delimiter is a capital letter. -/
theorem toLower_of_isDelimiter {c : Char} (h : isDelimiter c = true) : c.toLower = c := by
  simp only [isDelimiter, isBlank, Bool.or_eq_true, beq_iff_eq] at h
  rcases h with ((((rfl | rfl) | rfl) | rfl) | rfl) | rfl <;> decide

def StartsWord (word : String) : Prop :=
  ∃ a as, word.toList = a :: as ∧ isDelimiter a.toLower = false

theorem startsWord_subject : StartsWord "subject.roles" :=
  ⟨'s', "ubject.roles".toList, by simp, by decide⟩

theorem startsWord_contains : StartsWord "CONTAINS" := ⟨'C', "ONTAINS".toList, by simp, by decide⟩

theorem startsWord_any : StartsWord "ANY" := ⟨'A', "NY".toList, by simp, by decide⟩

theorem startsWord_or : StartsWord "OR" := ⟨'O', "R".toList, by simp, by decide⟩

/-- So does every spelling of it. -/
theorem StartsWord.head {word : String} (hword : StartsWord word) {w : List Char}
    (hw : AnyCase word w) : ∃ c cs, w = c :: cs ∧ isDelimiter c = false ∧ isBlank c = false := by
  obtain ⟨a, as, hword, ha⟩ := hword
  rw [AnyCase, hword] at hw
  cases w with
  | nil => cases hw
  | cons c cs =>
    obtain ⟨hc, -⟩ := List.cons.inj hw
    have hdelim : isDelimiter c = false := by
      by_contra h
      have htrue : isDelimiter c = true := Bool.eq_true_of_not_eq_false h
      rw [← hc, toLower_of_isDelimiter htrue, htrue] at ha
      cases ha
    refine ⟨c, cs, rfl, hdelim, ?_⟩
    rw [isDelimiter, Bool.or_assoc, Bool.or_eq_false_iff] at hdelim
    exact hdelim.1

theorem dropWord_append {as w : List Char} (h : w.map Char.toLower = as.map Char.toLower)
    (rest : List Char) : dropWord as (w ++ rest) = some rest := by
  induction as generalizing w with
  | nil =>
    rw [List.map_nil, List.map_eq_nil_iff] at h
    rw [h]
    rfl
  | cons a as ih =>
    cases w with
    | nil => cases h
    | cons c w =>
      obtain ⟨hc, hw⟩ := List.cons.inj h
      rw [List.cons_append, dropWord, if_pos hc, ih hw]

theorem exists_of_dropWord {as cs rest : List Char} (h : dropWord as cs = some rest) :
    ∃ w, w.map Char.toLower = as.map Char.toLower ∧ cs = w ++ rest := by
  induction as generalizing cs with
  | nil => exact ⟨[], rfl, Option.some.inj h⟩
  | cons a as ih =>
    cases cs with
    | nil => cases h
    | cons c cs =>
      rw [dropWord] at h
      split_ifs at h with hc
      obtain ⟨w, hw, rfl⟩ := ih h
      exact ⟨c :: w, by rw [List.map_cons, List.map_cons, hc, hw], rfl⟩

theorem acceptWord_append {word : String} (hword : StartsWord word) {sp w rest : List Char}
    (hsp : Blanks sp) (hw : AnyCase word w) (hrest : Delimited rest) :
    acceptWord word (sp ++ (w ++ rest)) = some rest := by
  obtain ⟨c, cs, rfl, -, hblank⟩ := hword.head hw
  rw [acceptWord, skipSpace_append hsp, List.cons_append, skipSpace_cons hblank, ← List.cons_append,
    dropWord_append hw]
  cases rest with
  | nil => rfl
  | cons d rest => exact if_pos (hrest d rfl)

theorem exists_of_acceptWord {word : String} {cs rest : List Char}
    (h : acceptWord word cs = some rest) :
    ∃ sp w, Blanks sp ∧ AnyCase word w ∧ cs = sp ++ (w ++ rest) ∧ Delimited rest := by
  obtain ⟨sp, hsp, hcs⟩ := exists_skipSpace cs
  have hdrop : dropWord word.toList (skipSpace cs) = some rest ∧ Delimited rest := by
    rw [acceptWord] at h
    split at h
    · rename_i c after hword
      split_ifs at h with hc
      obtain rfl := Option.some.inj h
      refine ⟨hword, fun d hd => ?_⟩
      obtain rfl : c = d := Option.some.inj hd
      exact hc
    · rename_i hword
      refine ⟨h, fun d hd => ?_⟩
      cases rest with
      | nil => cases hd
      | cons e rest => exact absurd h (hword e rest)
  obtain ⟨w, hw, hskip⟩ := exists_of_dropWord hdrop.1
  exact ⟨sp, w, hsp, hw, by rw [← hskip]; exact hcs, hdrop.2⟩

/-- After a word, another one follows only behind a blank. -/
theorem ne_nil_of_delimited {word : String} (hword : StartsWord word) {sp w rest : List Char}
    (hw : AnyCase word w) (h : Delimited (sp ++ (w ++ rest))) : sp ≠ [] := by
  rintro rfl
  obtain ⟨c, cs, rfl, hdelim, -⟩ := hword.head hw
  have hc : isDelimiter c = true := h c rfl
  rw [hdelim] at hc
  cases hc

/-- A word is not accepted where another character stands. -/
theorem acceptWord_eq_none {word : String} (hword : StartsWord word) {sp cs : List Char} {c : Char}
    (hsp : Blanks sp) (hc : isDelimiter c = true) (hblank : isBlank c = false) :
    acceptWord word (sp ++ c :: cs) = none := by
  cases h : acceptWord word (sp ++ c :: cs) with
  | none => rfl
  | some rest =>
    obtain ⟨sp', w, hsp', hw, heq, -⟩ := exists_of_acceptWord h
    obtain ⟨d, ds, rfl, hdelim, hblank'⟩ := hword.head hw
    have hskip := congrArg skipSpace heq
    rw [skipSpace_append hsp, skipSpace_append hsp', skipSpace_cons hblank, List.cons_append,
      skipSpace_cons hblank'] at hskip
    rw [(List.cons.inj hskip).1, hdelim] at hc
    cases hc

/-! ## Literals -/

theorem takeWhile_quote {lit : List Char} (hquote : '\'' ∉ lit) (rest : List Char) :
    (lit ++ '\'' :: rest).takeWhile (· ≠ '\'') = lit := by
  rw [List.takeWhile_append_of_pos]
  · simp
  · intro c hc
    have hne : c ≠ '\'' := fun h => hquote (h ▸ hc)
    simpa using hne

theorem acceptQuoted_append {sp : List Char} (hsp : Blanks sp) {role : String} (hrole : IsRole role)
    (rest : List Char) :
    acceptQuoted (sp ++ (quotedRole role ++ rest)) = some (role.toList, rest) := by
  have hskip : skipSpace (sp ++ (quotedRole role ++ rest)) =
      '\'' :: (role.toList ++ '\'' :: rest) := by
    rw [skipSpace_append hsp, quotedRole, List.cons_append, List.append_assoc,
      skipSpace_cons (by decide)]
    rfl
  rw [acceptQuoted, hskip]
  simp only [takeWhile_quote hrole.1 rest]
  simp [hrole.2]

theorem exists_of_acceptQuoted {cs lit rest : List Char} (h : acceptQuoted cs = some (lit, rest)) :
    ∃ sp, Blanks sp ∧ IsRole (String.ofList lit) ∧
      cs = sp ++ (quotedRole (String.ofList lit) ++ rest) := by
  obtain ⟨sp, hsp, hcs⟩ := exists_skipSpace cs
  rw [acceptQuoted] at h
  split at h
  · rename_i after hskip
    obtain ⟨name, hname⟩ : ∃ name, after.takeWhile (· ≠ '\'') = name := ⟨_, rfl⟩
    simp only [hname] at h
    split_ifs at h with hbad
    obtain ⟨rfl, rfl⟩ := Prod.mk.inj (Option.some.inj h)
    obtain ⟨hshort, hblank⟩ := not_or.mp hbad
    have hquote : '\'' ∉ name := by
      intro hmem
      rw [← hname] at hmem
      simpa using List.all_eq_true.mp List.all_takeWhile _ hmem
    have hsplit : after = name ++ after.dropWhile (· ≠ '\'') := by
      rw [← hname, List.takeWhile_append_dropWhile]
    have hclose : ∃ tail, after.dropWhile (· ≠ '\'') = '\'' :: tail := by
      cases hdrop : after.dropWhile (· ≠ '\'') with
      | nil =>
        rw [hdrop, List.append_nil] at hsplit
        exact absurd (by rw [← hsplit]) hshort
      | cons c tail =>
        have hhead := List.head?_dropWhile_not (fun c : Char => decide (c ≠ '\'')) after
        rw [hdrop] at hhead
        have hc : c = '\'' := by simpa using hhead
        exact ⟨tail, by rw [hc]⟩
    obtain ⟨tail, htail⟩ := hclose
    rw [htail] at hsplit
    refine ⟨sp, hsp, ⟨by rwa [String.toList_ofList], by rwa [String.toList_ofList]⟩, ?_⟩
    rw [hcs, hskip, quotedRole, String.toList_ofList]
    conv_lhs => rw [hsplit]
    conv_rhs => rw [hsplit]
    simp
  · cases h

theorem acceptByte_append {sp : List Char} (hsp : Blanks sp) {b : Char} (hb : isBlank b = false)
    (rest : List Char) : acceptByte b (sp ++ b :: rest) = some rest := by
  rw [acceptByte, skipSpace_append hsp, skipSpace_cons hb]
  exact if_pos rfl

theorem exists_of_acceptByte {b : Char} {cs rest : List Char} (h : acceptByte b cs = some rest) :
    ∃ sp, Blanks sp ∧ cs = sp ++ b :: rest := by
  obtain ⟨sp, hsp, hcs⟩ := exists_skipSpace cs
  rw [acceptByte] at h
  cases hskip : skipSpace cs with
  | nil =>
    rw [hskip] at h
    cases h
  | cons c after =>
    rw [hskip] at h hcs
    obtain ⟨rfl, hrest⟩ := Option.ite_none_right_eq_some.mp h
    rw [Option.some.inj hrest] at hcs
    exact ⟨sp, hsp, hcs⟩

theorem atEnd_iff (cs : List Char) : atEnd cs = true ↔ Blanks cs := by
  rw [atEnd, skipSpace, List.isEmpty_iff, List.dropWhile_eq_nil_iff]
  rfl

/-- No comma follows. -/
def NoComma (rest : List Char) : Prop := acceptByte ',' rest = none

theorem noComma_of_blanks {sp : List Char} (hsp : Blanks sp) : NoComma sp := by
  have hskip : skipSpace sp = [] := by
    rw [skipSpace, List.dropWhile_eq_nil_iff]
    exact hsp
  rw [NoComma, acceptByte, hskip]

theorem noComma_of_word {word : String} (hword : StartsWord word) {sp w : List Char}
    (hsp : Blanks sp) (hw : AnyCase word w) (rest : List Char) : NoComma (sp ++ (w ++ rest)) := by
  obtain ⟨c, cs, rfl, hdelim, hblank⟩ := hword.head hw
  rw [NoComma, acceptByte, skipSpace_append hsp, List.cons_append, skipSpace_cons hblank]
  refine if_neg fun hc => ?_
  rw [hc] at hdelim
  cases hdelim

/-! ## The loops -/

theorem OperandsText.length_le {roles : List String} {text : List Char}
    (h : OperandsText roles text) : roles.length ≤ text.length := by
  induction h with
  | single hrole => exact Nat.le_add_left 1 _
  | cons hrole hbefore hafter h ih =>
    simp only [List.length_append, List.length_cons]
    omega

/-- Operands start with a quote. -/
theorem OperandsText.head {roles : List String} {text : List Char} (h : OperandsText roles text) :
    ∃ rest, text = '\'' :: rest := by
  cases h with
  | single hrole => exact ⟨_, rfl⟩
  | cons hrole hbefore hafter h => exact ⟨_, rfl⟩

theorem scanOperands_text {roles : List String} {text : List Char} (h : OperandsText roles text)
    {sp rest : List Char} (hsp : Blanks sp) (hrest : NoComma rest) {fuel : Nat}
    (hfuel : roles.length ≤ fuel) :
    scanOperands fuel (sp ++ (text ++ rest)) = some (roles.map String.toList, rest) := by
  induction h generalizing sp fuel with
  | single hrole =>
    obtain ⟨fuel, rfl⟩ := Nat.exists_eq_add_of_le' (show 1 ≤ fuel from hfuel)
    rw [scanOperands, acceptQuoted_append hsp hrole]
    simp only [NoComma] at hrest
    simp only [hrest]
    rfl
  | @cons role roles before after text hrole hbefore hafter h ih =>
    obtain ⟨fuel, rfl⟩ := Nat.exists_eq_add_of_le' (Nat.le_trans (Nat.le_add_left 1 _) hfuel)
    have hmore := ih hafter (Nat.le_of_succ_le_succ hfuel)
    rw [scanOperands, List.append_assoc, acceptQuoted_append hsp hrole, List.append_assoc,
      List.cons_append, List.append_assoc]
    simp only [acceptByte_append hbefore (show isBlank ',' = false by decide), hmore]
    rfl

theorem exists_operandsText {fuel : Nat} {cs rest : List Char} {roles : List (List Char)}
    (h : scanOperands fuel cs = some (roles, rest)) :
    ∃ sp text, Blanks sp ∧ OperandsText (roles.map String.ofList) text ∧
      cs = sp ++ (text ++ rest) := by
  induction fuel generalizing cs roles with
  | zero => cases h
  | succ fuel ih =>
    rw [scanOperands] at h
    cases hquoted : acceptQuoted cs with
    | none => rw [hquoted] at h; cases h
    | some r =>
      obtain ⟨lit, after⟩ := r
      obtain ⟨sp, hsp, hrole, rfl⟩ := exists_of_acceptQuoted hquoted
      rw [hquoted] at h
      cases hcomma : acceptByte ',' after with
      | none =>
        simp only [hcomma] at h
        obtain ⟨rfl, rfl⟩ := Prod.mk.inj (Option.some.inj h)
        exact ⟨sp, _, hsp, .single hrole, rfl⟩
      | some after' =>
        simp only [hcomma] at h
        obtain ⟨⟨more, rest'⟩, hmore, heq⟩ := Option.map_eq_some_iff.mp h
        obtain ⟨rfl, rfl⟩ := Prod.mk.inj heq
        obtain ⟨before, hbefore, rfl⟩ := exists_of_acceptByte hcomma
        obtain ⟨gap, text, hgap, htext, rfl⟩ := ih hmore
        refine ⟨sp, _, hsp, .cons hrole hbefore hgap htext, ?_⟩
        simp

/-- One round of the outer loop, when the words before the operands are there. -/
theorem scanClauses_eq {fuel : Nat} {cs afterSubject afterContains operands rest : List Char}
    {roles : List (List Char)} (hsubject : acceptWord "subject.roles" cs = some afterSubject)
    (hcontains : acceptWord "CONTAINS" afterSubject = some afterContains)
    (hany : (acceptWord "ANY" afterContains).getD afterContains = operands)
    (hoperands : scanOperands operands.length operands = some (roles, rest)) :
    scanClauses (fuel + 1) cs =
      if atEnd rest then some roles
      else (acceptWord "OR" rest).bind fun rest => (scanClauses fuel rest).map (roles ++ ·) := by
  rw [scanClauses, hsubject, Option.bind_eq_bind, Option.bind_some, hcontains,
    Option.bind_eq_bind, Option.bind_some, hany]
  simp only [hoperands]
  rw [Option.bind_eq_bind, Option.bind_some]
  split_ifs
  · rfl
  · cases acceptWord "OR" rest with
    | none => rfl
    | some after =>
      rw [Option.bind_some, Option.bind_some]
      cases scanClauses fuel after <;> rfl

theorem exists_scan_clause {roles : List String} {text : List Char}
    (h : ClauseText AnyCase roles text) {sp rest : List Char} (hsp : Blanks sp)
    (hrest : NoComma rest) :
    ∃ afterSubject afterContains operands,
      acceptWord "subject.roles" (sp ++ (text ++ rest)) = some afterSubject ∧
      acceptWord "CONTAINS" afterSubject = some afterContains ∧
      (acceptWord "ANY" afterContains).getD afterContains = operands ∧
      scanOperands operands.length operands = some (roles.map String.toList, rest) := by
  have hscan : ∀ {roles : List String} {space ops : List Char}, Blanks space →
      OperandsText roles ops → scanOperands (space ++ (ops ++ rest)).length (space ++ (ops ++ rest)) =
        some (roles.map String.toList, rest) := by
    intro roles space ops hspace hops
    refine scanOperands_text hops hspace hrest ?_
    have hlen := hops.length_le
    simp only [List.length_append]
    omega
  have hdelim : ∀ {roles : List String} {space ops : List Char}, Blanks space →
      OperandsText roles ops → Delimited (space ++ (ops ++ rest)) := by
    intro roles space ops hspace hops
    obtain ⟨tail, rfl⟩ := hops.head
    cases space with
    | nil =>
      intro c hc
      obtain rfl : '\'' = c := Option.some.inj hc
      decide
    | cons c space => exact delimited_of_blanks hspace (List.cons_ne_nil c space) _
  cases h with
  | @contains subject gap word space ops hsubject hgap hne hword hspace hops =>
    refine ⟨gap ++ (word ++ (space ++ (ops ++ rest))), space ++ (ops ++ rest), _, ?_, ?_, ?_,
      hscan hspace hops⟩
    · simp only [List.append_assoc]
      exact acceptWord_append startsWord_subject hsp hsubject (delimited_of_blanks hgap hne _)
    · exact acceptWord_append startsWord_contains hgap hword (hdelim hspace hops)
    · obtain ⟨tail, rfl⟩ := hops.head
      rw [List.cons_append, acceptWord_eq_none startsWord_any hspace (by decide) (by decide)]
      rfl
  | @containsAny subject gap word gap' any space ops hsubject hgap hne hword hgap' hne' hany hspace
      hops =>
      refine ⟨gap ++ (word ++ (gap' ++ (any ++ (space ++ (ops ++ rest))))),
        gap' ++ (any ++ (space ++ (ops ++ rest))), _, ?_, ?_, ?_, hscan hspace hops⟩
      · simp only [List.append_assoc]
        exact acceptWord_append startsWord_subject hsp hsubject (delimited_of_blanks hgap hne _)
      · exact acceptWord_append startsWord_contains hgap hword (delimited_of_blanks hgap' hne' _)
      · rw [acceptWord_append startsWord_any hgap' hany (hdelim hspace hops)]
        rfl

theorem ClauseText.head {roles : List String} {text : List Char}
    (h : ClauseText AnyCase roles text) :
    ∃ subject tail, AnyCase "subject.roles" subject ∧ text = subject ++ tail := by
  cases h with
  | contains hsubject => exact ⟨_, _, hsubject, rfl⟩
  | containsAny hsubject => exact ⟨_, _, hsubject, rfl⟩

theorem ExpressionText.head {clauses : List (List String)} {text : List Char}
    (h : ExpressionText AnyCase clauses text) :
    ∃ subject tail, AnyCase "subject.roles" subject ∧ text = subject ++ tail := by
  cases h with
  | single h => exact h.head
  | cons h =>
    obtain ⟨subject, tail, hsubject, rfl⟩ := h.head
    exact ⟨subject, _, hsubject, List.append_assoc _ _ _⟩

theorem ClauseText.length_pos {roles : List String} {text : List Char}
    (h : ClauseText AnyCase roles text) : 0 < text.length := by
  obtain ⟨subject, tail, hsubject, rfl⟩ := h.head
  obtain ⟨c, cs, rfl, -⟩ := startsWord_subject.head hsubject
  exact Nat.succ_pos _

theorem ExpressionText.length_le {clauses : List (List String)} {text : List Char}
    (h : ExpressionText AnyCase clauses text) : clauses.length ≤ text.length := by
  induction h with
  | single h => exact h.length_pos
  | cons h hbefore hword hgap hne hrest ih =>
    have hpos := h.length_pos
    simp only [List.length_append, List.length_cons]
    omega

/-- A text of the grammar is read: its roles in order. -/
theorem scanClauses_text {clauses : List (List String)} {text : List Char}
    (h : ExpressionText AnyCase clauses text) {sp trail : List Char} (hsp : Blanks sp)
    (htrail : Blanks trail) {fuel : Nat} (hfuel : clauses.length ≤ fuel) :
    scanClauses fuel (sp ++ (text ++ trail)) = some (clauses.flatten.map String.toList) := by
  induction h generalizing sp fuel with
  | single h =>
    obtain ⟨fuel, rfl⟩ := Nat.exists_eq_add_of_le' (show 1 ≤ fuel from hfuel)
    obtain ⟨_, _, _, hsubject, hcontains, hany, hoperands⟩ :=
      exists_scan_clause h hsp (noComma_of_blanks htrail)
    rw [scanClauses_eq hsubject hcontains hany hoperands, if_pos ((atEnd_iff trail).mpr htrail)]
    simp
  | @cons roles clauses text before word gap rest h hbefore hword hgap hne hrest ih =>
    obtain ⟨fuel, rfl⟩ := Nat.exists_eq_add_of_le' (Nat.le_trans (Nat.le_add_left 1 _) hfuel)
    have hmore := ih hgap (Nat.le_of_succ_le_succ hfuel)
    obtain ⟨_, _, _, hsubject, hcontains, hany, hoperands⟩ :=
      exists_scan_clause h hsp (noComma_of_word startsWord_or hbefore hword (gap ++ (rest ++ trail)))
    have hend : atEnd (before ++ (word ++ (gap ++ (rest ++ trail)))) = false := by
      obtain ⟨c, cs, rfl, -, hblank⟩ := startsWord_or.head hword
      rw [atEnd, skipSpace_append hbefore, List.cons_append, skipSpace_cons hblank]
      rfl
    simp only [List.append_assoc]
    rw [scanClauses_eq hsubject hcontains hany hoperands, hend, if_neg Bool.false_ne_true,
      acceptWord_append startsWord_or hbefore hword (delimited_of_blanks hgap hne _),
      Option.bind_some, hmore]
    simp

/-- A text that is read is one of the grammar. -/
theorem exists_expressionText {fuel : Nat} {cs : List Char} {roles : List (List Char)}
    (h : scanClauses fuel cs = some roles) :
    ∃ clauses sp text trail, Blanks sp ∧ ExpressionText AnyCase clauses text ∧ Blanks trail ∧
      cs = sp ++ (text ++ trail) ∧ clauses.flatten = roles.map String.ofList := by
  induction fuel generalizing cs roles with
  | zero => cases h
  | succ fuel ih =>
    rw [scanClauses, Option.bind_eq_bind] at h
    obtain ⟨afterSubject, hsubject, h₁⟩ := Option.bind_eq_some_iff.mp h
    obtain ⟨afterContains, hcontains, h₂⟩ := Option.bind_eq_some_iff.mp h₁
    obtain ⟨⟨names, rest⟩, hoperands, h₃⟩ := Option.bind_eq_some_iff.mp h₂
    obtain ⟨sp, subject, hsp, hspelled, rfl, hdelim⟩ := exists_of_acceptWord hsubject
    obtain ⟨gap, word, hgap, hword, rfl, hdelim'⟩ := exists_of_acceptWord hcontains
    obtain ⟨space, ops, hspace, hops, htext⟩ := exists_operandsText hoperands
    have hne := ne_nil_of_delimited startsWord_contains hword hdelim
    -- the clause with or without ANY
    have hclause : ∃ text, ClauseText AnyCase (names.map String.ofList) text ∧
        subject ++ (gap ++ (word ++ afterContains)) = text ++ rest := by
      cases hany : acceptWord "ANY" afterContains with
      | none =>
        rw [hany, Option.getD_none] at htext
        refine ⟨_, .contains hspelled hgap hne hword hspace hops, ?_⟩
        rw [htext]
        simp
      | some after =>
        rw [hany, Option.getD_some] at htext
        obtain ⟨gap', any, hgap', hspelledAny, rfl, -⟩ := exists_of_acceptWord hany
        have hne' := ne_nil_of_delimited startsWord_any hspelledAny hdelim'
        refine ⟨_, .containsAny hspelled hgap hne hword hgap' hne' hspelledAny hspace hops, ?_⟩
        rw [htext]
        simp
    obtain ⟨text, htextClause, heq⟩ := hclause
    replace h₃ : (if atEnd rest = true then some names
        else (acceptWord "OR" rest).bind fun rest => (scanClauses fuel rest).bind fun more =>
          some (names ++ more)) = some roles := h₃
    split_ifs at h₃ with hend
    · obtain rfl := Option.some.inj h₃
      refine ⟨[names.map String.ofList], sp, text, rest, hsp, .single htextClause,
        (atEnd_iff rest).mp hend, by rw [← heq], ?_⟩
      simp
    · obtain ⟨after, hor, h₄⟩ := Option.bind_eq_some_iff.mp h₃
      obtain ⟨more, hmore, h₅⟩ := Option.bind_eq_some_iff.mp h₄
      obtain rfl := Option.some.inj h₅
      obtain ⟨before, orWord, hbefore, hspelledOr, rfl, hdelimOr⟩ := exists_of_acceptWord hor
      obtain ⟨clauses, gapOr, body, trail, hgapOr, hbody, htrail, rfl, hflat⟩ := ih hmore
      have hneOr : gapOr ≠ [] := by
        obtain ⟨spelled, tail, hspelled, rfl⟩ := hbody.head
        rw [List.append_assoc] at hdelimOr
        exact ne_nil_of_delimited startsWord_subject hspelled hdelimOr
      refine ⟨names.map String.ofList :: clauses, sp, _, trail, hsp,
        .cons htextClause hbefore hspelledOr hgapOr hneOr hbody, htrail, ?_, ?_⟩
      · rw [heq]
        simp
      · rw [List.flatten_cons, hflat, List.map_append]

/-! ## Role expressions -/

section FirstOccurrences

variable {α : Type} [DecidableEq α]

/-- The elements of a list, each once, in the order in which they first occur. -/
structure FirstOccurrences (names roles : List α) : Prop where
  mem_iff : ∀ r, r ∈ roles ↔ r ∈ names
  ordered : roles.Pairwise fun a b => names.idxOf a < names.idxOf b

/-- Dropping elements keeps the order of the others. -/
theorem idxOf_lt_of_filter {p : α → Bool} {a b : α} (ha : p a = true) (hb : p b = true) {l : List α}
    (h : (l.filter p).idxOf a < (l.filter p).idxOf b) : l.idxOf a < l.idxOf b := by
  induction l with
  | nil => exact h
  | cons x l ih =>
    by_cases hx : p x = true
    · rw [List.filter_cons_of_pos hx] at h
      by_cases hxa : x = a
      · subst hxa
        have hxb : x ≠ b := fun heq => by
          rw [heq] at h
          exact Nat.lt_irrefl _ h
        rw [List.idxOf_cons_self, List.idxOf_cons_ne _ hxb]
        exact Nat.succ_pos _
      · by_cases hxb : x = b
        · rw [hxb, List.idxOf_cons_self] at h
          exact absurd h (Nat.not_lt_zero _)
        · rw [List.idxOf_cons_ne _ hxa, List.idxOf_cons_ne _ hxb] at h ⊢
          exact Nat.succ_lt_succ (ih (Nat.lt_of_succ_lt_succ h))
    · rw [List.filter_cons_of_neg hx] at h
      have hxa : x ≠ a := fun heq => hx (heq ▸ ha)
      have hxb : x ≠ b := fun heq => hx (heq ▸ hb)
      rw [List.idxOf_cons_ne _ hxa, List.idxOf_cons_ne _ hxb]
      exact Nat.succ_lt_succ (ih h)

theorem firstOccurrences_eraseDups (names : List α) : FirstOccurrences names names.eraseDups := by
  -- the rest of the result is the result on the other elements, a shorter list
  induction hn : names.length using Nat.strong_induction_on generalizing names with
  | _ n ih =>
    cases names with
    | nil => exact ⟨fun r => by simp, by simp⟩
    | cons a as =>
      have hlen : (as.filter fun b => !b == a).length < n := by
        have hle := List.length_filter_le (fun b => !b == a) as
        rw [List.length_cons] at hn
        omega
      obtain ⟨hmem, hordered⟩ := ih _ hlen (as.filter fun b => !b == a) rfl
      have hother : ∀ b ∈ (as.filter fun b => !b == a).eraseDups, b ∈ as ∧ b ≠ a := by
        intro b hb
        simpa using (hmem b).mp hb
      rw [List.eraseDups_cons]
      refine ⟨fun r => ?_, List.pairwise_cons.mpr ⟨fun b hb => ?_, ?_⟩⟩
      · rw [List.mem_cons, List.mem_cons, hmem, List.mem_filter]
        by_cases hr : r = a
        · simp [hr]
        · simp [hr]
      · rw [List.idxOf_cons_self, List.idxOf_cons_ne _ (hother b hb).2.symm]
        exact Nat.succ_pos _
      · refine List.Pairwise.imp_of_mem (fun {b c} hb hc hlt => ?_) hordered
        have hb := (hother b hb).2
        have hc := (hother c hc).2
        rw [List.idxOf_cons_ne _ hb.symm, List.idxOf_cons_ne _ hc.symm]
        refine Nat.succ_lt_succ (idxOf_lt_of_filter ?_ ?_ hlt)
        · simpa using hb
        · simpa using hc

end FirstOccurrences

/-- A role target gives its roles. -/
theorem parseRoleExpression_text {clauses : List (List String)} {text : String}
    (h : RoleText AnyCase clauses text) :
    parseRoleExpression text = some clauses.flatten.eraseDups := by
  obtain ⟨lead, body, trail, hlead, hbody, htrail, htext⟩ := h
  have hfuel : clauses.length ≤ text.toList.length := by
    have hlen := hbody.length_le
    rw [htext, List.length_append, List.length_append]
    omega
  have hscan := scanClauses_text hbody hlead htrail hfuel
  rw [← htext] at hscan
  have hnames : (clauses.flatten.map String.toList).map String.ofList = clauses.flatten := by
    rw [List.map_map]
    exact List.map_id'' (fun _ => String.ofList_toList) _
  rw [parseRoleExpression, hscan, Option.map_some, hnames]

/-- Only a role target gives roles. -/
theorem exists_roleText {text : String} {roles : List String}
    (h : parseRoleExpression text = some roles) :
    ∃ clauses, RoleText AnyCase clauses text := by
  obtain ⟨names, hscan, -⟩ := Option.map_eq_some_iff.mp h
  obtain ⟨clauses, lead, body, trail, hlead, hbody, htrail, htext, -⟩ := exists_expressionText hscan
  exact ⟨clauses, lead, body, trail, hlead, hbody, htrail, htext⟩

theorem OperandsText.ne_nil {roles : List String} {text : List Char}
    (h : OperandsText roles text) : roles ≠ [] := by
  cases h <;> exact List.cons_ne_nil _ _

theorem ExpressionText.flatten_ne_nil {clauses : List (List String)} {text : List Char}
    (h : ExpressionText AnyCase clauses text) : clauses.flatten ≠ [] := by
  have hclause : ∀ {roles : List String} {text : List Char}, ClauseText AnyCase roles text →
      roles ≠ [] := by
    intro roles text h
    cases h with
    | contains _ _ _ _ _ hops => exact hops.ne_nil
    | containsAny _ _ _ _ _ _ _ _ hops => exact hops.ne_nil
  cases h with
  | single h =>
    rw [List.flatten_singleton]
    exact hclause h
  | cons h =>
    rw [List.flatten_cons]
    exact List.append_ne_nil_of_left_ne_nil (hclause h) _

theorem parseRoleExpression_ne_nil {text : String} {roles : List String}
    (h : parseRoleExpression text = some roles) : roles ≠ [] := by
  obtain ⟨clauses, htext⟩ := exists_roleText h
  rw [parseRoleExpression_text htext] at h
  obtain rfl := Option.some.inj h
  obtain ⟨_, body, _, _, hbody, _⟩ := htext
  intro hnil
  obtain ⟨name, hname⟩ := List.exists_mem_of_ne_nil _ hbody.flatten_ne_nil
  have hmem := ((firstOccurrences_eraseDups clauses.flatten).mem_iff name).mpr hname
  rw [hnil] at hmem
  cases hmem

/-! ## Targets without a role restriction -/

/-- A word as a case-insensitive pattern matches it. -/
def Folds (word : String) (w : List Char) : Prop :=
  List.Forall₂ (fun c a => foldEq c a = true) w word.toList

/-- `operation == 'value'`, or with `EQUALS` -/
inductive OperationText : List Char → Prop where
  | mk {word gap equals gap' value : List Char} (hword : Folds "operation" word)
      (hgap : ∀ c ∈ gap, isRegexSpace c = true) (hne : gap ≠ [])
      (hequals : Folds "==" equals ∨ Folds "EQUALS" equals)
      (hgap' : ∀ c ∈ gap', isRegexSpace c = true) (hne' : gap' ≠ [])
      (hvalue : value ≠ []) (hquote : '\'' ∉ value) :
      OperationText (word ++ (gap ++ (equals ++ (gap' ++ '\'' :: (value ++ ['\''])))))

/-- A target that restricts no role: nothing, `true`, or an operation alone. -/
inductive RoleFree (target : String) : Prop where
  | blank (h : trimSpace target = "")
  | always (h : equalFold (trimSpace target) "true" = true)
  | operation (h : OperationText (trimSpace target).toList)

theorem exists_of_dropFold {as cs rest : List Char} (h : dropFold as cs = some rest) :
    ∃ w, List.Forall₂ (fun c a => foldEq c a = true) w as ∧ cs = w ++ rest := by
  induction as generalizing cs with
  | nil => exact ⟨[], .nil, Option.some.inj h⟩
  | cons a as ih =>
    cases cs with
    | nil => cases h
    | cons c cs =>
      rw [dropFold] at h
      split_ifs at h with hc
      obtain ⟨w, hw, rfl⟩ := ih h
      exact ⟨c :: w, .cons hc hw, rfl⟩

theorem exists_of_dropSpaces {cs rest : List Char} (h : dropSpaces cs = some rest) :
    ∃ gap, (∀ c ∈ gap, isRegexSpace c = true) ∧ gap ≠ [] ∧ cs = gap ++ rest := by
  cases cs with
  | nil => cases h
  | cons c cs =>
    rw [dropSpaces] at h
    split_ifs at h with hc
    refine ⟨c :: cs.takeWhile isRegexSpace, ?_, List.cons_ne_nil _ _, ?_⟩
    · intro d hd
      rcases List.mem_cons.mp hd with rfl | hd
      · exact hc
      · exact List.all_eq_true.mp List.all_takeWhile d hd
    · rw [List.cons_append, ← Option.some.inj h, List.takeWhile_append_dropWhile]

theorem exists_of_quotedValue {cs value : List Char} (h : quotedValue cs = some value) :
    value ≠ [] ∧ '\'' ∉ value ∧ cs = '\'' :: (value ++ ['\'']) := by
  rw [quotedValue.eq_def] at h
  split at h
  · rename_i rest
    dsimp only at h
    split_ifs at h with hok
    obtain rfl := Option.some.inj h
    refine ⟨hok.1, fun hmem => ?_, ?_⟩
    · simpa using List.all_eq_true.mp List.all_takeWhile _ hmem
    · have hsplit := List.prefix_iff_eq_append.mp
        (List.takeWhile_prefix (p := fun c : Char => decide (c ≠ '\'')) (l := rest))
      rw [hok.2] at hsplit
      exact congrArg _ hsplit.symm
  · cases h

theorem operationText_of_pattern {cs value : List Char} (h : operationPattern cs = some value) :
    OperationText cs := by
  obtain ⟨afterWord, hword, h₁⟩ := Option.bind_eq_some_iff.mp h
  obtain ⟨afterGap, hgap, h₂⟩ := Option.bind_eq_some_iff.mp h₁
  obtain ⟨afterEquals, hequals, h₃⟩ := Option.bind_eq_some_iff.mp h₂
  obtain ⟨afterGap', hgap', hquoted⟩ := Option.bind_eq_some_iff.mp h₃
  obtain ⟨word, hspelledWord, rfl⟩ := exists_of_dropFold hword
  obtain ⟨gap, hblanks, hne, rfl⟩ := exists_of_dropSpaces hgap
  have hspelled : ∃ equals, (Folds "==" equals ∨ Folds "EQUALS" equals) ∧
      afterGap = equals ++ afterEquals := by
    cases hdouble : dropFold "==".toList afterGap with
    | some after =>
      rw [hdouble] at hequals
      obtain rfl : after = afterEquals := Option.some.inj hequals
      obtain ⟨equals, hfolds, heq⟩ := exists_of_dropFold hdouble
      exact ⟨equals, .inl hfolds, heq⟩
    | none =>
      rw [hdouble] at hequals
      obtain ⟨equals, hfolds, heq⟩ := exists_of_dropFold (show dropFold _ _ = _ from hequals)
      exact ⟨equals, .inr hfolds, heq⟩
  obtain ⟨equals, hspelledEquals, rfl⟩ := hspelled
  obtain ⟨gap', hblanks', hne', rfl⟩ := exists_of_dropSpaces hgap'
  obtain ⟨hvalue, hquote, rfl⟩ := exists_of_quotedValue hquoted
  exact .mk hspelledWord hblanks hne hspelledEquals hblanks' hne' hvalue hquote

/-- What each kind of target is. -/
theorem parseTarget_cases (target : String) :
    (parseTarget target = .any ∧ RoleFree target) ∨
    (∃ op, parseTarget target = .operation op ∧ RoleFree target) ∨
    (∃ roles, parseTarget target = .roles roles ∧ roles ≠ []) ∨
    (∃ rt, parseTarget target = .resourceType rt) ∨ parseTarget target = .unknown := by
  rw [parseTarget]
  split_ifs with hany
  · refine .inl ⟨rfl, ?_⟩
    rcases hany with h | h
    · exact .blank h
    · exact .always h
  · split
    · exact .inr (.inr (.inr (.inl ⟨_, rfl⟩)))
    · split
      · rename_i hop
        exact .inr (.inl ⟨_, rfl, .operation (operationText_of_pattern hop)⟩)
      · split
        · rename_i hroles
          exact .inr (.inr (.inl ⟨_, rfl, parseRoleExpression_ne_nil hroles⟩))
        · exact .inr (.inr (.inr (.inr rfl)))

/-- A pair of targets that gives no role has none to give. -/
theorem roleFree_of_resolve {policy rule op : String}
    (h : resolveOperationAndRoles (parseTarget policy) (parseTarget rule) = some (op, [])) :
    RoleFree policy ∧ RoleFree rule := by
  rcases parseTarget_cases policy with ⟨hp, hfree⟩ | ⟨_, hp, hfree⟩ | ⟨_, hp, hne⟩ | ⟨_, hp⟩ | hp <;>
  rcases parseTarget_cases rule with ⟨hr, hfree'⟩ | ⟨_, hr, hfree'⟩ | ⟨_, hr, hne'⟩ | ⟨_, hr⟩ | hr <;>
  rw [hp, hr] at h
  all_goals first
    | exact ⟨hfree, hfree'⟩
    | exact absurd (Prod.mk.inj (Option.some.inj h)).2 hne
    | exact absurd (Prod.mk.inj (Option.some.inj h)).2 hne'
    | cases h

def Produces (ps : PolicySetV3) (policy : PolicyV3) (rule : RuleV3) (p : Simplified.Policy) : Prop :=
  policy ∈ ps.policies ∧ rule ∈ policy.rules ∧ ∃ resourceType, setResourceType ps = some resourceType ∧
    convertRule (setComponent ps) resourceType (parseTarget policy.target) rule = .policy p

theorem mem_convertPolicySet {ps : PolicySetV3} {p : Simplified.Policy} :
    p ∈ convertPolicySet ps ↔ ∃ policy rule, Produces ps policy rule p := by
  have houtcome : ∀ o : RuleOutcome, o.policy? = some p ↔ o = .policy p := by
    intro o
    cases o <;> simp [RuleOutcome.policy?]
  rw [convertPolicySet, List.mem_filterMap, convertRules]
  cases hrt : setResourceType ps with
  | none => simp [Produces, hrt]
  | some resourceType =>
    simp only [Option.map_some, Option.getD_some, List.mem_flatMap, List.mem_map, houtcome,
      Produces, hrt, Option.some.injEq, exists_eq_left']
    constructor
    · rintro ⟨o, ⟨policy, hpolicy, rule, hrule, rfl⟩, hp⟩
      exact ⟨policy, rule, hpolicy, hrule, hp⟩
    · rintro ⟨policy, rule, hpolicy, hrule, hp⟩
      exact ⟨_, ⟨policy, hpolicy, rule, hrule, rfl⟩, hp⟩

/-- A policy without roles comes from targets without a role restriction. -/
theorem Produces.roleFree {ps : PolicySetV3} {policy : PolicyV3} {rule : RuleV3}
    {p : Simplified.Policy} (h : Produces ps policy rule p) (hroles : p.roles = some []) :
    RoleFree policy.target ∧ RoleFree rule.target := by
  obtain ⟨-, -, resourceType, -, hrule⟩ := h
  rw [convertRule] at hrule
  split_ifs at hrule
  split at hrule
  · cases hrule
  · rename_i operation roles hresolve
    obtain rfl := RuleOutcome.policy.inj hrule
    obtain rfl : roles = [] := List.map_eq_nil_iff.mp (Option.some.inj hroles)
    exact roleFree_of_resolve hresolve

theorem role_targets_fail_closed :
    (∀ (clauses : List (List String)) (text : String), RoleText AnyCase clauses text →
      ∃ roles, parseRoleExpression text = some roles ∧ FirstOccurrences clauses.flatten roles) ∧
    (∀ (text : String) (roles : List String), parseRoleExpression text = some roles →
      ∃ clauses, RoleText AnyCase clauses text) ∧
    (∀ (ps : PolicySetV3) (p : Simplified.Policy), p ∈ convertPolicySet ps ↔
      ∃ policy rule, Produces ps policy rule p) ∧
    (∀ (ps : PolicySetV3) (policy : PolicyV3) (rule : RuleV3) (p : Simplified.Policy),
      Produces ps policy rule p → p.roles = some [] →
        RoleFree policy.target ∧ RoleFree rule.target) := by
  refine ⟨fun clauses text h => ?_, fun text roles h => exists_roleText h,
    fun ps p => mem_convertPolicySet, fun ps policy rule p h hroles => h.roleFree hroles⟩
  exact ⟨_, parseRoleExpression_text h, firstOccurrences_eraseDups _⟩

/-- Two clauses, with the separators inside the names. -/
def separatorTarget : String :=
  "subject.roles CONTAINS 'A OR B' OR  subject.roles CONTAINS ANY 'A,B' , 'A OR B' "

/-- A set with one rule open to every role. -/
def openSet : PolicySetV3 where
  type := "SIMPLIFIED"
  domain := "catalog"
  target := "resourceType == 'Order'"
  tenantID := ""
  policies :=
    [{ target := "operation == 'READ'"
       rules := [{ target := "true", condition := none, effect := "PERMIT", rsqlPredicate := "",
                   sqlPredicate := "", mongodbPredicate := "", predicate := "" }] }]

theorem roleText_separatorTarget :
    RoleText AnyCase [["A OR B"], ["A,B", "A OR B"]] separatorTarget := by
  have hblank : Blanks [' '] := by simp [Blanks, isBlank]
  have hblanks : Blanks [' ', ' '] := by simp [Blanks, isBlank]
  have hor : IsRole "A OR B" := ⟨by simp, by decide +kernel⟩
  have hcomma : IsRole "A,B" := ⟨by simp, by decide +kernel⟩
  have hsubject : AnyCase "subject.roles" "subject.roles".toList := rfl
  have hcontains : AnyCase "CONTAINS" "CONTAINS".toList := rfl
  have hfirst := ClauseText.contains hsubject hblank (List.cons_ne_nil _ _) hcontains hblank
    (.single hor)
  have hsecond := ClauseText.containsAny hsubject hblank (List.cons_ne_nil _ _) hcontains hblank
    (List.cons_ne_nil _ _) (show AnyCase "ANY" "ANY".toList from rfl) hblank
    (.cons hcomma hblank hblank (.single hor))
  have hboth := ExpressionText.cons hfirst hblank (show AnyCase "OR" "OR".toList from rfl) hblanks
    (List.cons_ne_nil _ _) (.single hsecond)
  exact ⟨[], _, [' '], fun c hc => absurd hc List.not_mem_nil, hboth, hblank, by decide +kernel⟩

theorem role_targets_separators :
    (∃ roles, parseRoleExpression separatorTarget = some roles ∧
      FirstOccurrences ["A OR B", "A,B", "A OR B"] roles) ∧
    (∃ clauses, RoleText AnyCase clauses separatorTarget) ∧
    (∃ p ∈ convertPolicySet openSet, p.roles = some []) ∧
    RoleFree "operation == 'READ'" ∧ RoleFree "true" := by
  obtain ⟨hread, honly, hset, hfree⟩ := role_targets_fail_closed
  have hparse : parseRoleExpression separatorTarget = some ["A OR B", "A,B"] := by decide +kernel
  have hproduces : Produces openSet _ _ _ :=
    ⟨List.mem_cons_self, List.mem_cons_self, "Order", by decide +kernel, rfl⟩
  exact ⟨hread _ _ roleText_separatorTarget, honly _ _ hparse,
    ⟨_, (hset _ _).mpr ⟨_, _, hproduces⟩, rfl⟩, hfree _ _ _ _ hproduces rfl⟩

/-- A word as the printer spells it. -/
def Verbatim (word : String) (w : List Char) : Prop := w = word.toList

theorem ExpressionText.mem_capital {clauses : List (List String)} {text : List Char}
    (h : ExpressionText Verbatim clauses text) : 'C' ∈ text := by
  have hclause : ∀ {roles : List String} {text : List Char}, ClauseText Verbatim roles text →
      'C' ∈ text := by
    intro roles text h
    cases h with
    | contains _ _ _ hword => simp [show _ = "CONTAINS".toList from hword]
    | containsAny _ _ _ hword => simp [show _ = "CONTAINS".toList from hword]
  cases h with
  | single h => exact hclause h
  | cons h => exact List.mem_append_left _ (hclause h)

theorem small_letters_accepted :
    parseRoleExpression "subject.roles contains 'a'" = some ["a"] ∧
      ¬ ∃ clauses, RoleText Verbatim clauses "subject.roles contains 'a'" := by
  refine ⟨by decide +kernel, ?_⟩
  rintro ⟨clauses, lead, body, trail, -, hbody, -, htext⟩
  have hmem : 'C' ∈ "subject.roles contains 'a'".toList := by
    rw [htext]
    exact List.mem_append_right _ (List.mem_append_left _ hbody.mem_capital)
  simp at hmem

end Acconfig

end AuthzAgent
