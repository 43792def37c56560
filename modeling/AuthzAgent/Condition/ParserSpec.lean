/-
  AuthzAgent.Condition.ParserSpec

  What `parseCondition` accepts.  Each parser of `Condition.Parser` gets one
  specification, derived by the rules of `Lib.Parsing` from those of the
  parsers it calls; the last two theorems read the result off for whole texts.
-/

import AuthzAgent.Condition.Parser

namespace AuthzAgent

open GoText Parsing

theorem meets_next (n : Nat) : Meets next n .outOfFuel (fun _ : Token => True) := by
  intro ts _
  refine ⟨?_, trivial⟩
  rw [List.length_tail]
  omega

/-- Reading the state and going on with a parser that is right on it. -/
theorem meets_get_bind {τ α : Type} {f : List τ → Parser τ ParseError α} {n : Nat}
    {Q : α → Prop} (hf : ∀ ts : List τ, ts.length ≤ n →
      Outcome .outOfFuel ts.length Q (f ts ts)) :
    Meets (get >>= f) n .outOfFuel Q :=
  fun ts hts => hf ts hts

/-! ## Guards -/

theorem matchWord_length {w : String} {ts rest : List Token} (h : matchWord w ts = some rest) :
    rest.length < ts.length := by
  cases ts with
  | nil => simp [matchWord] at h
  | cons t ts =>
    simp only [matchWord, Option.ite_none_right_eq_some, Option.some.injEq] at h
    obtain ⟨-, rfl⟩ := h
    simp

theorem matchSymbol_length {s : String} {ts rest : List Token}
    (h : matchSymbol s ts = some rest) : rest.length < ts.length := by
  cases ts with
  | nil => simp [matchSymbol] at h
  | cons t ts =>
    simp only [matchSymbol, Option.ite_none_right_eq_some, Option.some.injEq] at h
    obtain ⟨-, rfl⟩ := h
    simp

theorem matchComma_length {ts rest : List Token} (h : matchComma ts = some rest) :
    rest.length < ts.length := by
  cases ts with
  | nil => simp [matchComma] at h
  | cons t ts =>
    simp only [matchComma, Option.ite_none_right_eq_some, Option.some.injEq] at h
    obtain ⟨-, rfl⟩ := h
    simp

theorem matchWords_length {ws : List String} {ts rest : List Token}
    (h : matchWords ws ts = some rest) : rest.length ≤ ts.length := by
  induction ws generalizing ts with
  | nil =>
    rw [matchWords, Option.some.injEq] at h
    rw [h]
  | cons w ws ih =>
    obtain ⟨mid, hmid, hrest⟩ := Option.bind_eq_some_iff.mp h
    exact (ih hrest).trans (matchWord_length hmid).le

theorem selectComparison_spec {ts rest : List Token} {c : Comparison}
    (h : selectComparison ts = some (c, rest)) :
    c ∈ comparisons ∧ rest.length ≤ ts.length := by
  obtain ⟨c', hc', h⟩ := List.exists_of_findSome?_eq_some h
  obtain ⟨rest', hrest', heq⟩ := Option.map_eq_some_iff.mp h
  obtain ⟨rfl, rfl⟩ := Prod.mk.inj heq
  refine ⟨hc', ?_⟩
  obtain ⟨p, -, hp⟩ := List.exists_of_findSome?_eq_some hrest'
  cases p with
  | words ws => exact matchWords_length hp
  | symbol s => exact (matchSymbol_length hp).le

/-! ## Operands -/

theorem meets_trimLeft (n : Nat) : Meets trimLeft n .outOfFuel (fun _ => True) :=
  fun cs _ => ⟨List.length_dropWhile_le isWhitespace cs, trivial⟩

theorem dropBytes_length_le (n : Nat) (cs : List Char) : (dropBytes n cs).length ≤ cs.length := by
  fun_induction dropBytes n cs with
  | case1 => exact le_rfl
  | case2 => exact le_rfl
  | case3 n c cs _ ih =>
    simp only [List.length_cons]
    omega

theorem meets_readSingleQuotedLiteral (n : Nat) :
    Meets readSingleQuotedLiteral n .outOfFuel (fun _ => True) := by
  intro cs _
  cases cs with
  | nil => simp [readSingleQuotedLiteral, Outcome]
  | cons c rest =>
    rw [readSingleQuotedLiteral]
    split_ifs
    · cases hscan : scanQuoted rest with
      | none => simp [Outcome]
      | some r => exact ⟨(scanQuoted_length_le hscan).trans (Nat.le_succ _), trivial⟩
    · simp [Outcome]

theorem meets_closeParen (n : Nat) {err : String → ParseError} (herr : ∀ s, err s ≠ .outOfFuel) :
    Meets (closeParen err) n .outOfFuel (fun _ => True) := by
  intro cs _
  cases cs with
  | nil => exact herr _
  | cons c rest =>
    rw [closeParen]
    split_ifs
    · exact ⟨Nat.le_succ _, trivial⟩
    · exact herr _

theorem meets_readName (n : Nat) : Meets readName n .outOfFuel (fun _ => True) :=
  (meets_trimLeft n).bind fun _ _ =>
    (meets_readSingleQuotedLiteral n).bind fun _ _ =>
      (meets_trimLeft n).bind fun _ _ => meets_pure trivial

theorem nameComma_length {cs rest : List Char} (h : nameComma cs = some rest) :
    rest.length < cs.length := by
  cases cs with
  | nil => simp [nameComma] at h
  | cons c cs =>
    simp only [nameComma, Option.ite_none_right_eq_some, Option.some.injEq] at h
    obtain ⟨-, rfl⟩ := h
    simp

/-- `.as(` takes at least a character. -/
theorem openAs_outcome (P : Platform) (cs : List Char) :
    Outcome .outOfFuel (cs.length - 1) (fun _ => True) (openAs P cs) := by
  rw [openAs]
  split_ifs with hprefix
  · cases cs with
    | nil => simp at hprefix
    | cons c rest =>
      refine ⟨?_, trivial⟩
      have hle := dropBytes_length_le (4 - c.utf8Size) rest
      simpa [dropBytes] using hle
  · simp [Outcome]

theorem readAsClause_consumes (P : Platform) (n : Nat) :
    Consumes moreClauses (readAsClause P) n .outOfFuel (fun _ => True) := by
  intro cs rest _ hmore
  have hrest : rest ≠ [] ∧ rest.length ≤ cs.length := by
    have hle := List.length_dropWhile_le isWhitespace cs
    rw [moreClauses] at hmore
    split at hmore
    · simp at hmore
    · rename_i hdrop
      rw [hdrop] at hle
      obtain rfl := Option.some.inj hmore
      exact ⟨List.cons_ne_nil _ _, hle⟩
  have hpos : 0 < rest.length := List.length_pos_iff.mpr hrest.1
  refine ⟨by omega, ?_⟩
  refine (openAs_outcome P rest).bind fun _ cs' _ hcs' => ?_
  have htail : Meets (do
      let name ← readName
      let names ← many nameComma readName .outOfFuel
      closeParen .expectedParenAfterNames
      pure (name :: names)) cs'.length .outOfFuel (fun _ => True) :=
    (meets_readName _).bind fun _ _ =>
      (meets_many ((meets_readName _).consumes fun _ _ => nameComma_length)).bind fun _ _ =>
        (meets_closeParen _ (by simp)).bind fun _ _ => meets_pure trivial
  exact (htail cs' le_rfl).mono (by omega) fun _ => id

/-- An entitlements operand that names something. -/
def IsEntitlements (t : Node) : Prop :=
  ∃ resourceType name names, t = .ref (.entitlements resourceType (name :: names))

theorem IsEntitlements.isOperand {t : Node} (h : IsEntitlements t) : t.isOperand = true := by
  obtain ⟨resourceType, name, names, rfl⟩ := h
  rfl

theorem meets_readEntitlement (P : Platform) (n : Nat) :
    Meets (readEntitlement P) n .outOfFuel IsEntitlements := by
  refine (meets_readSingleQuotedLiteral n).bind fun _ _ => ?_
  refine (meets_trimLeft n).bind fun _ _ => ?_
  refine (meets_closeParen n (by simp)).bind fun _ _ => ?_
  refine (meets_many (readAsClause_consumes P n)).bind fun clauses _ => ?_
  cases clauses.flatten with
  | nil => exact meets_throw (by simp)
  | cons name names => exact meets_pure ⟨_, name, names, rfl⟩

theorem splitPath_ne_nil (path : String) : splitPath path ≠ [] := by
  rw [splitPath]
  dsimp only
  split_ifs with hempty hchars hparts
  · exact List.cons_ne_nil _ _
  · exact List.cons_ne_nil _ _
  · exact List.cons_ne_nil _ _
  · rw [Ne, List.map_eq_nil_iff]
    exact hparts

theorem pathRef_isOperand (scope : Scope) (path : String) :
    (Node.ref (.path scope (splitPath path))).isOperand = true := by
  simp [Node.isOperand, splitPath_ne_nil]

theorem parseEntitlementOperand_avoids (P : Platform) (raw : List Char) :
    Avoids .outOfFuel (fun r => ∀ t ∈ r, IsEntitlements t) (parseEntitlementOperand P raw) := by
  rw [parseEntitlementOperand]
  split_ifs
  · have hent := meets_readEntitlement P _ (dropBytes 29 raw) le_rfl
    cases hr : readEntitlement P (dropBytes 29 raw) with
    | error e =>
      rw [hr] at hent
      exact hent
    | ok r =>
      rw [hr] at hent
      simpa [Except.map, Avoids] using hent.2
  · simp [Avoids]

/-- A word is an operand or reports an error of the entitlements operand. -/
theorem wordOperand_avoids (P : Platform) (value : String) :
    Avoids .outOfFuel (fun t => t.isOperand = true) (wordOperand P value) := by
  have hent := parseEntitlementOperand_avoids P value.toList
  rw [wordOperand]
  cases hp : parseEntitlementOperand P value.toList with
  | error e =>
    rw [hp] at hent
    dsimp only
    split_ifs
    · rfl
    · rfl
    · exact hent
  | ok r =>
    rw [hp] at hent
    cases r with
    | some t =>
      dsimp only
      split_ifs
      · rfl
      · rfl
      · exact (hent t rfl).isOperand
    | none =>
      dsimp only
      split_ifs
      · rfl
      · rfl
      · exact pathRef_isOperand _ _
      · exact pathRef_isOperand _ _
      · rfl

theorem meets_parseOperand (P : Platform) (n : Nat) :
    Meets (parseOperand P) n .outOfFuel (fun t => t.isOperand = true) := by
  refine (meets_next n).bind fun current _ => ?_
  cases current.typ with
  | string => exact meets_pure rfl
  | regex => exact meets_pure rfl
  | number =>
    cases toNumber P current.value with
    | some q => exact meets_pure rfl
    | none => exact meets_throw (by simp)
  | word =>
    have hspec := wordOperand_avoids P current.value
    cases hw : wordOperand P current.value with
    | ok t =>
      rw [hw] at hspec
      exact meets_pure hspec
    | error e =>
      rw [hw] at hspec
      exact meets_throw hspec
  | _ => exact meets_throw (by simp)

theorem meets_parseLiteral (P : Platform) (n : Nat) :
    Meets (parseLiteral P) n .outOfFuel (fun _ => True) := by
  refine (meets_parseOperand P n).bind fun t _ => ?_
  cases t with
  | const v => exact meets_pure trivial
  | _ => exact meets_throw (by simp)

theorem meets_parseMultiRightOperand (P : Platform) (op : Op) (n : Nat) :
    Meets (parseMultiRightOperand P op) n .outOfFuel (fun t => t.isOperand = true) := by
  refine (meets_parseOperand P n).bind fun first hfirst => ?_
  refine meets_get_bind fun ts hts => ?_
  cases first with
  | const v =>
    have hlist : Meets (do
        let values ← many matchComma (parseLiteral P) .outOfFuel
        pure (Node.const (.array (v :: values)))) n .outOfFuel
          (fun t : Node => t.isOperand = true) :=
      (meets_many ((meets_parseLiteral P n).consumes fun _ _ => matchComma_length)).bind
        fun _ _ => meets_pure rfl
    split_ifs
    · exact ⟨le_rfl, rfl⟩
    · exact ⟨le_rfl, rfl⟩
    · exact hlist ts hts
  | ref r =>
    dsimp only
    split_ifs
    · exact ⟨le_rfl, hfirst⟩
    · exact meets_throw (by simp) ts hts
  | node op args => simp [Node.isOperand] at hfirst

/-! ## Conditions -/

/-- No case of the switch builds a connective, and each reads as many operands
    as its operator has places. -/
theorem comparisons_arity : ∀ c ∈ comparisons, c.op.isConnective = false ∧
    c.op.arity = match c.right with
      | .none => 1
      | .operand => 2
      | .multi => 2 := by
  simp only [comparisons, List.forall_mem_cons, Op.isConnective, Op.arity, List.not_mem_nil,
    and_self, false_implies, implies_true]

theorem Comparison.build_isCondition {c : Comparison} {args : List Node}
    (h : IsLeaf c.op args) : IsCondition (c.build args) := by
  rw [build]
  split_ifs
  · exact .negated h
  · exact .leaf h

theorem Comparison.meets_body (P : Platform) (n : Nat) {c : Comparison} (hc : c ∈ comparisons)
    {left : Node} (hleft : left.isOperand = true) :
    Meets (c.body P left) n .outOfFuel IsCondition := by
  obtain ⟨hconn, harity⟩ := comparisons_arity c hc
  have hbinary : c.op.arity = 2 → ∀ right : Node, right.isOperand = true →
      Meets (pure (c.build [left, right]) : TokenParser Node) n .outOfFuel IsCondition := by
    intro h2 right hright
    refine meets_pure (build_isCondition ⟨hconn, by simp [h2], ?_⟩)
    simp [hleft, hright]
  rw [body]
  cases hr : c.right with
  | none =>
    rw [hr] at harity
    refine meets_pure (build_isCondition ⟨hconn, by simp [harity], ?_⟩)
    simp [hleft]
  | operand =>
    rw [hr] at harity
    exact (meets_parseOperand P n).bind (hbinary harity)
  | multi =>
    rw [hr] at harity
    exact (meets_parseMultiRightOperand P c.op n).bind (hbinary harity)

/-- Continuing at later tokens, as after a match. -/
theorem outcome_set_bind {p : TokenParser Node} {n : Nat} {Q : Node → Prop}
    {ts rest : List Token} (hp : Meets p n .outOfFuel Q) (hrest : rest.length ≤ ts.length)
    (hts : ts.length ≤ n) : Outcome .outOfFuel ts.length Q ((do set rest; p) ts) :=
  (hp rest (hrest.trans hts)).mono hrest fun _ => id

theorem meets_parseComparison (P : Platform) (n : Nat) :
    Meets (parseComparison P) n .outOfFuel IsCondition := by
  refine (meets_parseOperand P n).bind fun left hleft => ?_
  refine meets_get_bind fun ts hts => ?_
  cases hsel : selectComparison ts with
  | none => exact meets_throw (n := n) (by simp) ts hts
  | some r =>
    obtain ⟨c, rest⟩ := r
    obtain ⟨hc, hrest⟩ := selectComparison_spec hsel
    exact outcome_set_bind (Comparison.meets_body P n hc hleft) hrest hts

theorem hasAccessNode_isCondition (mode operation : String) :
    IsCondition (hasAccessNode mode operation) :=
  .leaf ⟨rfl, rfl, by simp [Node.isOperand]⟩

/-- A check that may throw before the rest of a parser runs. -/
theorem meets_check {c : Prop} [Decidable c] {e : ParseError} {p : TokenParser Node} {n : Nat}
    {Q : Node → Prop} (he : e ≠ .outOfFuel) (hp : Meets p n .outOfFuel Q) :
    Meets (do
      if c then throw e
      p) n .outOfFuel Q := by
  intro ts hts
  by_cases hc : c
  · simp only [hc, if_true]
    exact he
  · simp only [hc, if_false]
    exact hp ts hts

theorem meets_parseHasAccess (P : Platform) (n : Nat) :
    Meets (parseHasAccess P) n .outOfFuel IsCondition := by
  refine (meets_next n).bind fun subject _ => meets_check (by simp) ?_
  refine (meets_next n).bind fun modeToken _ => meets_check (by simp) ?_
  refine (meets_next n).bind fun operation _ => meets_check (by simp) ?_
  refine meets_get_bind fun ts hts => ?_
  cases hon : matchWord "ON" ts with
  | none => exact meets_throw (by simp) ts hts
  | some rest =>
    have hresource : Meets (do
        let resource ← next
        if equalFold resource.value "resource" = false then throw .expectedResource
        pure (hasAccessNode (P.toLower modeToken.value) operation.value)) n .outOfFuel
          IsCondition :=
      (meets_next n).bind fun resource _ => meets_check (by simp)
        (meets_pure (hasAccessNode_isCondition _ _))
    exact outcome_set_bind hresource (matchWord_length hon).le hts

theorem meets_parseAtom (P : Platform) (n : Nat) :
    Meets (parseAtom P) n .outOfFuel IsCondition := by
  refine meets_get_bind fun ts hts => ?_
  split_ifs
  · exact meets_parseHasAccess P n ts hts
  · exact ((meets_next n).bind fun _ _ => meets_pure (.const true)) ts hts
  · exact ((meets_next n).bind fun _ _ => meets_pure (.const false)) ts hts
  · exact meets_parseComparison P n ts hts

/-- A chain of conditions is a condition: its only operand, or a connective of
    two or more. -/
theorem meets_parseConnective {keyword : String} {op : Op} (hop : op = .and ∨ op = .or)
    {operand : TokenParser Node} {n : Nat} (hoperand : Meets operand n .outOfFuel IsCondition) :
    Meets (parseConnective keyword op operand) n .outOfFuel IsCondition := by
  refine hoperand.bind fun left hleft => ?_
  refine (meets_many (hoperand.consumes fun _ _ => matchWord_length)).bind fun args hargs => ?_
  cases args with
  | nil => exact meets_pure hleft
  | cons right more =>
    refine meets_pure (.connective hop (by simp) ?_)
    simpa [hleft] using hargs

theorem meets_parseOr {primary : TokenParser Node} {n : Nat}
    (hprimary : Meets primary n .outOfFuel IsCondition) :
    Meets (parseOr primary) n .outOfFuel IsCondition :=
  meets_parseConnective (.inr rfl) (meets_parseConnective (.inl rfl) hprimary)

theorem meets_expectRParen (n : Nat) : Meets expectRParen n .outOfFuel (fun _ => True) := by
  refine (meets_next n).bind fun t _ => ?_
  split_ifs
  · exact meets_throw (by simp)
  · exact meets_pure trivial

/-- The nesting of parentheses is at most the number of tokens. -/
theorem meets_parsePrimary (P : Platform) (n : Nat) :
    Meets (parsePrimary P n) n .outOfFuel IsCondition := by
  induction n with
  | zero =>
    refine meets_get_bind fun ts hts => ?_
    have hnil : ts = [] := List.eq_nil_of_length_eq_zero (by omega)
    subst hnil
    exact meets_parseAtom P 0 [] le_rfl
  | succ n ih =>
    refine meets_get_bind fun ts hts => ?_
    split_ifs with hparen
    · cases ts with
      | nil => simp [peek] at hparen
      | cons t rest =>
        have hinner : Meets (do
            let expr ← parseOr (parsePrimary P n)
            expectRParen
            pure expr) n .outOfFuel IsCondition :=
          (meets_parseOr ih).bind fun expr hexpr =>
            (meets_expectRParen n).bind fun _ _ => meets_pure hexpr
        simp only [List.length_cons, Nat.add_le_add_iff_right] at hts
        exact (hinner rest hts).mono (Nat.le_succ _) fun _ => id
    · exact meets_parseAtom P (n + 1) ts hts

/-- `ParseCondition` ends with a well-formed condition or with an error of the
    source: the bounds of its loops are never reached. -/
theorem parseCondition_avoids (P : Platform) (input : String) :
    Avoids .outOfFuel IsCondition (parseCondition P input) := by
  rw [parseCondition]
  cases htok : tokenize P input with
  | error e =>
    intro he
    exact tokenize_ne_outOfFuel P input (he ▸ htok)
  | ok tokens =>
    have hor := meets_parseOr (meets_parsePrimary P tokens.length) tokens le_rfl
    show Avoids _ _ (parseOr (parsePrimary P tokens.length) tokens >>= _)
    cases hparse : parseOr (parsePrimary P tokens.length) tokens with
    | error e =>
      rw [hparse] at hor
      exact hor
    | ok r =>
      rw [hparse] at hor
      show Avoids _ _ (ite _ _ _)
      split_ifs
      · simp [Avoids]
      · exact hor.2

theorem parseCondition_ne_outOfFuel (P : Platform) (input : String) :
    parseCondition P input ≠ .error .outOfFuel := by
  intro h
  have havoids := parseCondition_avoids P input
  rw [h] at havoids
  exact havoids rfl

/-- What `ParseCondition` accepts is well formed. -/
theorem parseCondition_isCondition {P : Platform} {input : String} {ast : Node}
    (h : parseCondition P input = .ok ast) : IsCondition ast := by
  have havoids := parseCondition_avoids P input
  rw [h] at havoids
  exact havoids

end AuthzAgent
