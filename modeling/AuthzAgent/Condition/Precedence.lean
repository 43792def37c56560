/-
  AuthzAgent.Condition.Precedence

  What the parser makes of a printed Boolean expression.  An expression is
  built from comparisons with AND and OR; it is printed with parentheses where
  an OR stands below an AND and with as many more as one likes, with keywords
  in any letter case and with any blanks between the tokens (`Prints`).

  The parser returns a tree with the value of the expression, whatever the
  truth of its comparisons, exactly if no comparison has the bare word `true`
  or `false` on its left.
-/

import AuthzAgent.Condition.Comparisons
import AuthzAgent.Condition.Layout

namespace AuthzAgent

open GoText Parsing

namespace Node

mutual

/-- The value of a condition, given the truth of what is neither AND nor OR. -/
def truth (atom : Node → Bool) : Node → Bool
  | .node .and args => truthAll atom args
  | .node .or args => truthAny atom args
  | ast => atom ast

def truthAll (atom : Node → Bool) : List Node → Bool
  | [] => true
  | a :: as => truth atom a && truthAll atom as

def truthAny (atom : Node → Bool) : List Node → Bool
  | [] => false
  | a :: as => truth atom a || truthAny atom as

end

end Node

namespace Precedence

/-! ## Expressions -/

/-- A Boolean expression over comparisons. -/
inductive Expr (P : Platform) where
  | atom (a : Atom P)
  | and (l r : Expr P)
  | or (l r : Expr P)

namespace Expr

variable {P : Platform}

/-- The value of an expression, given the truth of its atoms. -/
def value (truth : Node → Bool) : Expr P → Bool
  | .atom a => truth a.node
  | .and l r => l.value truth && r.value truth
  | .or l r => l.value truth || r.value truth

def atoms : Expr P → List (Atom P)
  | .atom a => [a]
  | .and l r => l.atoms ++ r.atoms
  | .or l r => l.atoms ++ r.atoms

/-- No comparison has a bare `true` or `false` on its left. -/
def Readable (e : Expr P) : Prop := ∀ a ∈ e.atoms, a.startsWithBool = false

end Expr

/-- How tightly a printed expression binds. -/
inductive Level where
  | primary | conj | disj

/-- The tokens that an expression is printed as.  An operand of AND binds at
    least as AND does; any expression may stand in parentheses. -/
inductive Printed {P : Platform} : Level → Expr P → List Token → Prop
  | atom {a : Atom P} {ts : List Token} (h : a.Written ts) : Printed .primary (.atom a) ts
  | paren {e : Expr P} {ts : List Token} (h : Printed .disj e ts) :
      Printed .primary e (⟨.lparen, "("⟩ :: (ts ++ [⟨.rparen, ")"⟩]))
  | primary {e : Expr P} {ts : List Token} (h : Printed .primary e ts) : Printed .conj e ts
  | and {l r : Expr P} {ts us : List Token} {k : Token} (hl : Printed .conj l ts)
      (hk : IsKeyword "AND" k) (hr : Printed .conj r us) : Printed .conj (.and l r) (ts ++ k :: us)
  | conj {e : Expr P} {ts : List Token} (h : Printed .conj e ts) : Printed .disj e ts
  | or {l r : Expr P} {ts us : List Token} {k : Token} (hl : Printed .disj l ts)
      (hk : IsKeyword "OR" k) (hr : Printed .disj r us) : Printed .disj (.or l r) (ts ++ k :: us)

def Prints {P : Platform} (e : Expr P) (text : String) : Prop :=
  ∃ ts, Printed .disj e ts ∧ Laid P ts text.toList

variable {P : Platform}

/-! ## Chains -/

/-- What a parser makes of the tokens of an expression in front of `rest`: its
    value, or it stops inside. -/
structure Reads (p : TokenParser Node) (e : Expr P) (ts rest : List Token) : Prop where
  value : e.Readable → ∃ node, p (ts ++ rest) = .ok (node, rest) ∧
    ∀ truth, node.truth truth = e.value truth
  stuck : ¬ e.Readable → ∀ node rest', p (ts ++ rest) = .ok (node, rest') → Stuck rest'

/-- Expressions with a keyword between them. -/
inductive Chain (keyword : String) (item : Expr P → List Token → Prop) :
    List (Expr P) → List Token → Prop
  | one {e : Expr P} {ts : List Token} (h : item e ts) : Chain keyword item [e] ts
  | cons {e : Expr P} {es : List (Expr P)} {ts us : List Token} {k : Token} (h : item e ts)
      (hk : IsKeyword keyword k) (hc : Chain keyword item es us) :
      Chain keyword item (e :: es) (ts ++ k :: us)

theorem Chain.append {keyword : String} {item : Expr P → List Token → Prop}
    {es es' : List (Expr P)} {ts ts' : List Token} {k : Token} (h : Chain keyword item es ts)
    (hk : IsKeyword keyword k) (h' : Chain keyword item es' ts') :
    Chain keyword item (es ++ es') (ts ++ k :: ts') := by
  induction h with
  | one hi => exact .cons hi hk h'
  | cons hi hk' _ ih =>
    rw [List.append_assoc, List.cons_append, List.cons_append]
    exact .cons hi hk' ih

theorem Chain.imp {keyword : String} {item item' : Expr P → List Token → Prop}
    {es : List (Expr P)} {ts : List Token} (h : Chain keyword item es ts)
    (himp : ∀ e us, us.length ≤ ts.length → item e us → item' e us) :
    Chain keyword item' es ts := by
  induction h with
  | one hi => exact .one (himp _ _ le_rfl hi)
  | @cons e es ts us k hi hk _ ih =>
    rw [List.length_append, List.length_cons] at himp
    exact .cons (himp _ _ (by omega) hi) hk (ih fun e us hle => himp e us (by omega))

/-- Nodes with the values of expressions. -/
def Agree (es : List (Expr P)) (nodes : List Node) : Prop :=
  List.Forall₂ (fun e node => ∀ truth, Node.truth truth node = e.value truth) es nodes

section Connective

variable {keyword : String} {operand : TokenParser Node} {F : List Token → Prop}
  {es : List (Expr P)} {ts rest : List Token}

theorem matchWord_self {k : Token} (hk : IsKeyword keyword k) (us : List Token) :
    matchWord keyword (k :: us) = some us := by
  rw [matchWord, if_pos ⟨hk.1, hk.2⟩]

/-- A chain of readable expressions is read item by item. -/
theorem chain_loops (hF : ∀ k us, IsKeyword keyword k → F (k :: us))
    (h : Chain keyword (fun e ts => ∀ rest, F rest → Reads operand e ts rest) es ts)
    (hrest : F rest) (hstop : matchWord keyword rest = none)
    (hread : ∀ e ∈ es, Expr.Readable e) :
    ∃ left mid args, operand (ts ++ rest) = .ok (left, mid) ∧ mid.length ≤ (ts ++ rest).length ∧
      Loops (matchWord keyword) operand mid args rest ∧ Agree es (left :: args) := by
  induction h with
  | one hi =>
    obtain ⟨node, hnode, hvalue⟩ := (hi rest hrest).value (hread _ List.mem_cons_self)
    refine ⟨node, rest, [], hnode, ?_, .stop hstop, .cons hvalue .nil⟩
    rw [List.length_append]
    omega
  | @cons e es ts us k hi hk _ ih =>
    rw [List.forall_mem_cons] at hread
    obtain ⟨node, hnode, hvalue⟩ := (hi (k :: (us ++ rest)) (hF k _ hk)).value hread.1
    obtain ⟨left, mid, args, hleft, hmid, hloops, hagree⟩ := ih hread.2
    rw [List.append_assoc, List.cons_append]
    refine ⟨node, k :: (us ++ rest), left :: args, hnode, ?_, ?_, .cons hvalue hagree⟩
    · rw [List.length_append]
      omega
    · refine .round (matchWord_self hk _) hleft ?_ hloops
      rw [List.length_cons]
      omega

/-- A chain with an expression that stops inside stops there. -/
theorem chain_stuck (hF : ∀ k us, IsKeyword keyword k → F (k :: us))
    (hkeyword : ∀ ts, Stuck ts → matchWord keyword ts = none)
    (h : Chain keyword (fun e ts => ∀ rest, F rest → Reads operand e ts rest) es ts)
    (hrest : F rest) (hread : ¬ ∀ e ∈ es, Expr.Readable e) {left : Node} {mid : List Token}
    (hleft : operand (ts ++ rest) = .ok (left, mid)) {fuel : Nat} {args : List Node}
    {rest' : List Token} {bad : ParseError}
    (hmany : manyFuel (matchWord keyword) operand bad fuel mid = .ok (args, rest')) :
    Stuck rest' := by
  -- behind a stuck item the loop ends
  have hend : ∀ {mid : List Token} {fuel : Nat} {args : List Node}, Stuck mid →
      manyFuel (matchWord keyword) operand bad fuel mid = .ok (args, rest') → Stuck rest' := by
    intro mid fuel args hmid hmany
    rcases manyFuel_ok hmany with ⟨-, -, rfl⟩ | ⟨_, _, _, _, hguard, -⟩
    · exact hmid
    · rw [hkeyword mid hmid] at hguard
      cases hguard
  induction h generalizing left mid fuel args with
  | one hi =>
    have hnot := fun hr => hread (List.forall_mem_singleton.mpr hr)
    exact hend ((hi rest hrest).stuck hnot left mid hleft) hmany
  | @cons e es ts us k hi hk _ ih =>
    rw [List.append_assoc, List.cons_append] at hleft
    have hitem := hi (k :: (us ++ rest)) (hF k _ hk)
    by_cases he : e.Readable
    · obtain ⟨node, hnode, -⟩ := hitem.value he
      rw [hnode] at hleft
      obtain ⟨rfl, rfl⟩ := Prod.mk.inj (Except.ok.inj hleft)
      rcases manyFuel_ok hmany with ⟨hguard, -⟩ | ⟨_, _, _, _, hguard, hnext, -, _, hmore⟩
      · rw [matchWord_self hk] at hguard
        cases hguard
      · rw [matchWord_self hk] at hguard
        obtain rfl := Option.some.inj hguard
        exact ih (fun hall => hread (List.forall_mem_cons.mpr ⟨he, hall⟩)) hnext hmore
    · exact hend (hitem.stuck he left mid hleft) hmany

end Connective

/-! ## Connectives -/

/-- The node of a chain: its only item, or the connective of all. -/
def joined (op : Op) : List Node → Node
  | [node] => node
  | nodes => .node op nodes

theorem truth_and (truth : Node → Bool) (args : List Node) :
    (Node.node .and args).truth truth = args.all (Node.truth truth) := by
  rw [Node.truth]
  induction args with
  | nil => rfl
  | cons a as ih => rw [Node.truthAll, List.all_cons, ih]

theorem truth_or (truth : Node → Bool) (args : List Node) :
    (Node.node .or args).truth truth = args.any (Node.truth truth) := by
  rw [Node.truth]
  induction args with
  | nil => rfl
  | cons a as ih => rw [Node.truthAny, List.any_cons, ih]

theorem truth_joined_and {es : List (Expr P)} {nodes : List Node} (h : Agree es nodes)
    (truth : Node → Bool) :
    (joined .and nodes).truth truth = es.all (Expr.value truth) := by
  have hall : nodes.all (Node.truth truth) = es.all (Expr.value truth) := by
    induction h with
    | nil => rfl
    | cons hnode _ ih => rw [List.all_cons, List.all_cons, hnode, ih]
  rw [← hall]
  fun_cases joined .and nodes with
  | case1 node => simp
  | case2 => exact truth_and truth nodes

theorem truth_joined_or {es : List (Expr P)} {nodes : List Node} (h : Agree es nodes)
    (truth : Node → Bool) :
    (joined .or nodes).truth truth = es.any (Expr.value truth) := by
  have hany : nodes.any (Node.truth truth) = es.any (Expr.value truth) := by
    induction h with
    | nil => rfl
    | cons hnode _ ih => rw [List.any_cons, List.any_cons, hnode, ih]
  rw [← hany]
  fun_cases joined .or nodes with
  | case1 node => simp
  | case2 => exact truth_or truth nodes

/-- The loop of a connective behind its first item. -/
theorem parseConnective_eq {keyword : String} {op : Op} {operand : TokenParser Node}
    {ts mid : List Token} {left : Node} (hleft : operand ts = .ok (left, mid)) :
    parseConnective keyword op operand ts =
      (many (matchWord keyword) operand .outOfFuel mid).map fun r =>
        (joined op (left :: r.1), r.2) := by
  show (operand ts >>= fun r => many (matchWord keyword) operand .outOfFuel r.2 >>= fun s =>
    (match s.1 with
      | [] => pure r.1
      | right :: more => pure (.node op (r.1 :: right :: more)) : TokenParser Node) s.2) = _
  rw [hleft]
  show (many (matchWord keyword) operand .outOfFuel mid >>= _) = _
  cases many (matchWord keyword) operand .outOfFuel mid with
  | error e => rfl
  | ok s =>
    obtain ⟨args, rest⟩ := s
    cases args <;> rfl

theorem reads_connective {keyword : String} {op : Op} {operand : TokenParser Node}
    {F : List Token → Prop} {es : List (Expr P)} {ts rest : List Token} {e : Expr P}
    (hF : ∀ k us, IsKeyword keyword k → F (k :: us))
    (hkeyword : ∀ ts, Stuck ts → matchWord keyword ts = none)
    (h : Chain keyword (fun e ts => ∀ rest, F rest → Reads operand e ts rest) es ts)
    (hrest : F rest) (hstop : matchWord keyword rest = none)
    (hvalue : ∀ nodes, Agree es nodes → ∀ truth,
      (joined op nodes).truth truth = e.value truth)
    (hread : e.Readable ↔ ∀ e' ∈ es, Expr.Readable e') :
    Reads (parseConnective keyword op operand) e ts rest := by
  constructor
  · intro hreadable
    obtain ⟨left, mid, args, hleft, -, hloops, hagree⟩ :=
      chain_loops hF h hrest hstop (hread.mp hreadable)
    refine ⟨joined op (left :: args), ?_, hvalue _ hagree⟩
    rw [parseConnective_eq hleft, hloops.many_eq]
    rfl
  · intro hnot node rest' hparse
    cases hleft : operand (ts ++ rest) with
    | error err =>
      replace hparse : (operand (ts ++ rest) >>= _) = _ := hparse
      rw [hleft] at hparse
      cases hparse
    | ok r =>
      obtain ⟨left, mid⟩ := r
      rw [parseConnective_eq hleft] at hparse
      cases hmany : many (matchWord keyword) operand .outOfFuel mid with
      | error err =>
        rw [hmany] at hparse
        cases hparse
      | ok s =>
        rw [hmany] at hparse
        obtain ⟨-, rfl⟩ := Prod.mk.inj (Except.ok.inj hparse)
        exact chain_stuck hF hkeyword h hrest (fun hall => hnot (hread.mpr hall)) hleft hmany

/-! ## Printed expressions -/

/-- What stands behind a conjunction. -/
def FollowsConj (ts : List Token) : Prop := Follows ts ∧ matchWord "AND" ts = none

/-- What the parser makes of printed tokens at each level.  The bound of the
    nesting is at least their number. -/
def LevelReads : Level → Expr P → List Token → Prop
  | .primary, e, ts => ∀ depth, ts.length ≤ depth → ∀ rest, Follows rest →
      Reads (parsePrimary P depth) e ts rest
  | .conj, e, ts => ∀ depth, ts.length ≤ depth → ∀ rest, FollowsConj rest →
      Reads (parseAnd (parsePrimary P depth)) e ts rest
  | .disj, e, ts => ∀ depth, ts.length ≤ depth → ∀ rest, FollowsConj rest →
      matchWord "OR" rest = none → Reads (parseOr (parsePrimary P depth)) e ts rest

/-- The chain that a printed expression is, with the value of its items joined
    by `combine`. -/
def IsChain (keyword : String) (level : Level)
    (combine : List (Expr P) → (Expr P → Bool) → Bool) (e : Expr P) (ts : List Token) : Prop :=
  ∃ es : List (Expr P), Chain keyword (LevelReads level) es ts ∧
    (∀ truth, combine es (Expr.value truth) = e.value truth) ∧
    (e.Readable ↔ ∀ e' ∈ es, Expr.Readable e')

theorem IsChain.one {keyword : String} {level : Level}
    {combine : List (Expr P) → (Expr P → Bool) → Bool} {e : Expr P} {ts : List Token}
    (hcombine : ∀ f, combine [e] f = f e) (h : LevelReads level e ts) :
    IsChain keyword level combine e ts :=
  ⟨[e], .one h, fun truth => hcombine _, by rw [List.forall_mem_singleton]⟩

theorem readable_append {l r e : Expr P} {es es' : List (Expr P)} (he : e.atoms = l.atoms ++ r.atoms)
    (hl : l.Readable ↔ ∀ e' ∈ es, Expr.Readable e')
    (hr : r.Readable ↔ ∀ e' ∈ es', Expr.Readable e') :
    e.Readable ↔ ∀ e' ∈ es ++ es', Expr.Readable e' := by
  rw [List.forall_mem_append, ← hl, ← hr, Expr.Readable, he, List.forall_mem_append]
  rfl

theorem follows_keyword {keyword : String} (hkeyword : keyword = "AND" ∨ keyword = "OR")
    {k : Token} (hk : IsKeyword keyword k) (us : List Token) : Follows (k :: us) := by
  intro t ht
  obtain rfl := Option.some.inj ht
  rcases hkeyword with rfl | rfl
  · exact .inr (.inr (.inl hk))
  · exact .inr (.inr (.inr hk))

/-- A chain of primaries is read by `parseAnd`. -/
theorem levelReads_conj {e : Expr P} {ts : List Token}
    (h : IsChain "AND" .primary List.all e ts) : LevelReads .conj e ts := by
  obtain ⟨es, hchain, hvalue, hread⟩ := h
  intro depth hdepth rest hrest
  refine reads_connective (fun k us hk => follows_keyword (.inl rfl) hk us)
    (fun _ hstuck => hstuck.notAnd)
    (hchain.imp fun e us hle hitem => hitem depth (hle.trans hdepth)) hrest.1 hrest.2 ?_ hread
  intro nodes hagree truth
  rw [truth_joined_and hagree, hvalue]

/-- A chain of conjunctions is read by `parseOr`. -/
theorem levelReads_disj {e : Expr P} {ts : List Token}
    (h : IsChain "OR" .conj List.any e ts) : LevelReads .disj e ts := by
  obtain ⟨es, hchain, hvalue, hread⟩ := h
  intro depth hdepth rest hrest hstop
  have hF : ∀ k us, IsKeyword "OR" k → FollowsConj (k :: us) := by
    intro k us hk
    refine ⟨follows_keyword (.inr rfl) hk us, ?_⟩
    rw [matchWord_keyword hk (by decide) (by decide)]
    rfl
  refine reads_connective hF (fun _ hstuck => hstuck.notOr)
    (hchain.imp fun e us hle hitem => hitem depth (hle.trans hdepth)) hrest hstop ?_ hread
  intro nodes hagree truth
  rw [truth_joined_or hagree, hvalue]

theorem Denotes.typ_ne_lparen {t : Token} {a : Node} (h : Denotes P t a) : t.typ ≠ .lparen := by
  cases h <;> nofun

/-- An atom is neither AND nor OR. -/
theorem Atom.truth_node (a : Atom P) (truth : Node → Bool) :
    a.node.truth truth = truth a.node := by
  have hop := (comparisons_arity a.comparison a.mem).1
  rw [Atom.node, Comparison.build]
  split_ifs
  · rfl
  · generalize a.comparison.op = op at hop
    cases op <;> first | rfl | cases hop

/-- Without a parenthesis `parsePrimary` reads an atom. -/
theorem parsePrimary_atom {ts : List Token} (h : (peek ts).typ ≠ .lparen) (depth : Nat) :
    parsePrimary P depth ts = parseAtom P ts := by
  cases depth with
  | zero =>
    show (if (peek ts).typ = .lparen then _ else _ : TokenParser Node) ts = _
    rw [if_neg h]
  | succ depth =>
    show (if (peek ts).typ = .lparen then _ else _ : TokenParser Node) ts = _
    rw [if_neg h]

theorem levelReads_atom {a : Atom P} {ts : List Token} (h : a.Written ts) :
    LevelReads .primary (.atom a) ts := by
  intro depth _ rest hrest
  obtain ⟨hgood, hbad⟩ := parseAtom_written a h hrest
  have hprimary : parsePrimary P depth (ts ++ rest) = parseAtom P (ts ++ rest) := by
    obtain ⟨p, -, ops, -, rfl⟩ := h
    refine parsePrimary_atom ?_ depth
    exact a.left.denotes.typ_ne_lparen
  have hreadable : (Expr.atom a).Readable ↔ a.startsWithBool = false := by
    rw [Expr.Readable, Expr.atoms, List.forall_mem_singleton]
  constructor
  · intro hread
    refine ⟨a.node, ?_, a.truth_node⟩
    rw [hprimary, hgood (hreadable.mp hread)]
  · intro hnot node rest' hparse
    rw [hreadable, Bool.not_eq_false] at hnot
    obtain ⟨node', stuck, hstuck, hs⟩ := hbad hnot
    rw [hprimary, hstuck] at hparse
    obtain ⟨-, rfl⟩ := Prod.mk.inj (Except.ok.inj hparse)
    exact hs

/-- An expression in parentheses. -/
theorem levelReads_paren {e : Expr P} {ts : List Token} (h : LevelReads .disj e ts) :
    LevelReads .primary e (⟨.lparen, "("⟩ :: (ts ++ [⟨.rparen, ")"⟩])) := by
  intro depth hdepth rest hrest
  rw [List.length_cons, List.length_append] at hdepth
  obtain ⟨n, rfl⟩ : ∃ n, depth = n + 1 := ⟨depth - 1, by omega⟩
  have hfollows : FollowsConj (⟨.rparen, ")"⟩ :: rest) := by
    refine ⟨fun t ht => ?_, rfl⟩
    obtain rfl := Option.some.inj ht
    exact .inr (.inl rfl)
  have hinner := h n (by omega) (⟨.rparen, ")"⟩ :: rest) hfollows rfl
  have hparse : parsePrimary P (n + 1) (⟨.lparen, "("⟩ :: (ts ++ [⟨.rparen, ")"⟩]) ++ rest) =
      parseOr (parsePrimary P n) (ts ++ ⟨.rparen, ")"⟩ :: rest) >>= fun r =>
        expectRParen r.2 >>= fun s => .ok (r.1, s.2) := by
    rw [List.cons_append, List.append_assoc, List.singleton_append]
    rfl
  constructor
  · intro hread
    obtain ⟨node, hnode, hvalue⟩ := hinner.value hread
    refine ⟨node, ?_, hvalue⟩
    rw [hparse, hnode]
    rfl
  · intro hnot node rest' hok
    rw [hparse] at hok
    cases hor : parseOr (parsePrimary P n) (ts ++ ⟨.rparen, ")"⟩ :: rest) with
    | error err =>
      rw [hor] at hok
      cases hok
    | ok r =>
      have hstuck := hinner.stuck hnot r.1 r.2 hor
      have hfail : expectRParen r.2 = .error .expectedParen := by
        show (if (peek r.2).typ ≠ .rparen then throw .expectedParen else pure () :
          TokenParser Unit) r.2.tail = _
        rw [if_pos (by rw [hstuck.word]; nofun)]
        rfl
      rw [hor] at hok
      replace hok : (expectRParen r.2 >>= fun s => Except.ok (r.1, s.2)) = .ok (node, rest') := hok
      rw [hfail] at hok
      cases hok

theorem Printed.levelReads {level : Level} {e : Expr P} {ts : List Token}
    (h : Printed level e ts) : LevelReads level e ts := by
  -- at the levels of the connectives the induction carries the chain
  have hmotive : match level with
      | .primary => LevelReads .primary e ts
      | .conj => IsChain "AND" .primary List.all e ts
      | .disj => IsChain "OR" .conj List.any e ts := by
    induction h with
    | atom hw => exact levelReads_atom hw
    | paren _ ih => exact levelReads_paren (levelReads_disj ih)
    | primary _ ih => exact .one (fun f => by simp) ih
    | and _ hk _ ihl ihr =>
      obtain ⟨es, hchain, hvalue, hread⟩ := ihl
      obtain ⟨es', hchain', hvalue', hread'⟩ := ihr
      refine ⟨es ++ es', hchain.append hk hchain', fun truth => ?_,
        readable_append rfl hread hread'⟩
      rw [List.all_append, hvalue, hvalue']
      rfl
    | conj _ ih => exact .one (fun f => by simp) (levelReads_conj ih)
    | or _ hk _ ihl ihr =>
      obtain ⟨es, hchain, hvalue, hread⟩ := ihl
      obtain ⟨es', hchain', hvalue', hread'⟩ := ihr
      refine ⟨es ++ es', hchain.append hk hchain', fun truth => ?_,
        readable_append rfl hread hread'⟩
      rw [List.any_append, hvalue, hvalue']
      rfl
  cases level with
  | primary => exact hmotive
  | conj => exact levelReads_conj hmotive
  | disj => exact levelReads_disj hmotive

/-! ## Texts -/

/-- The token behind the last one. -/
abbrev endToken : Token := ⟨.eof, ""⟩

/-- `ParseCondition` returns a tree with the value of the printed expression,
    AND before OR, for every truth of its atoms, exactly if no atom starts with
    a bare `true` or `false`. -/
theorem parseCondition_precedence_iff (e : Expr P) {text : String} (h : Prints e text) :
    (∃ ast, parseCondition P text = .ok ast ∧ ∀ truth, ast.truth truth = e.value truth) ↔
      ∀ a ∈ e.atoms, a.startsWithBool = false := by
  obtain ⟨ts, hprinted, hlaid⟩ := h
  have hfollows : FollowsConj [endToken] := by
    refine ⟨fun t ht => ?_, rfl⟩
    obtain rfl := Option.some.inj ht
    exact .inl rfl
  have hreads := hprinted.levelReads (ts ++ [endToken]).length
    (by rw [List.length_append]; omega) [endToken] hfollows rfl
  have hparse : parseCondition P text =
      (parseOr (parsePrimary P (ts ++ [endToken]).length) (ts ++ [endToken]) >>= fun r =>
        if (peek r.2).typ ≠ .eof then .error (.unexpectedToken (peek r.2).value) else .ok r.1) := by
    rw [parseCondition, tokenize_laid hlaid]
    rfl
  constructor
  · rintro ⟨ast, hast, -⟩
    by_contra hnot
    rw [hparse] at hast
    cases hor : parseOr (parsePrimary P (ts ++ [endToken]).length) (ts ++ [endToken]) with
    | error err =>
      rw [hor] at hast
      cases hast
    | ok r =>
      have hstuck := hreads.stuck hnot r.1 r.2 hor
      rw [hor] at hast
      replace hast : (if (peek r.2).typ ≠ .eof then
        Except.error (ParseError.unexpectedToken (peek r.2).value) else .ok r.1) = .ok ast := hast
      rw [if_pos (by rw [hstuck.word]; decide)] at hast
      cases hast
  · intro hread
    obtain ⟨node, hnode, hvalue⟩ := hreads.value hread
    refine ⟨node, ?_, hvalue⟩
    rw [hparse, hnode]
    rfl

theorem laid_space {ts : List Token} {cs : List Char} (h : Laid P ts cs) : Laid P ts (' ' :: cs) :=
  .blank rfl h

/-- Plain words with a blank behind each. -/
theorem laid_words (ws : List String) (hws : ∀ w ∈ ws, isWord w.toList = true) {ts : List Token}
    {cs : List Char} (h : Laid P ts cs) :
    Laid P (ws.map (fun w => ⟨.word, w⟩) ++ ts) (ws.flatMap (fun w => w.toList ++ [' ']) ++ cs) := by
  induction ws with
  | nil => exact h
  | cons w ws ih =>
    rw [List.forall_mem_cons] at hws
    have hends : EndsWord P w.toList (' ' :: (ws.flatMap (fun w => w.toList ++ [' ']) ++ cs)) := by
      intro c hc
      obtain rfl := Option.some.inj hc
      exact .inl rfl
    have hword := Scans.word (isWordText_of_isWord P hws.1) hends
    rw [String.ofList_toList] at hword
    have hlaid := Laid.token hword (laid_space (ih hws.2))
    rw [List.flatMap_cons, List.append_assoc, List.append_assoc]
    exact hlaid

/-! ## An expression and its text -/

def wordOf (s : String) (a : Node) (h : wordOperand .ascii s = .ok a) : Operand .ascii :=
  ⟨⟨.word, s⟩, a, .word h⟩

def stringLiteral (s : String) : Literal .ascii := ⟨⟨.string, s⟩, .string s, .string s⟩

/-- `subject.entitledResources.of('T').as('A', 'B') CONTAINS resource.id` -/
def ownsResource : Atom .ascii where
  left := wordOf "subject.entitledResources.of('T').as('A', 'B')"
    (.ref (.entitlements "T" ["A", "B"])) (by decide +kernel)
  comparison := ⟨[.words ["CONTAINS"]], .contains, false, .operand⟩
  mem := by simp [comparisons]
  right := .operand (wordOf "resource.id" (.ref (.path .resource ["id"])) (by decide +kernel))
  notAny := by
    intro _ t ht
    obtain rfl := Option.some.inj ht
    decide +kernel

/-- `resource.size GREATER THAN OR EQUALS TO 5` -/
def largeResource : Atom .ascii where
  left := wordOf "resource.size" (.ref (.path .resource ["size"])) (by decide +kernel)
  comparison := ⟨[.words ["GREATER", "THAN", "OR", "EQUALS", "TO"],
    .words ["GREATER", "THAN", "OR", "EQUAL", "TO"], .symbol ">="], .gte, false, .operand⟩
  mem := by simp [comparisons]
  right := .operand ⟨⟨.number, "5"⟩, .const (.number 5), .number (by decide +kernel)⟩
  notAny := nofun

/-- `resource.state NOT IN 'X', 'Y'` -/
def otherState : Atom .ascii where
  left := wordOf "resource.state" (.ref (.path .resource ["state"])) (by decide +kernel)
  comparison := ⟨[.words ["NOT", "IN"]], .isIn, true, .multi⟩
  mem := by simp [comparisons]
  right := .list (stringLiteral "X") [stringLiteral "Y"]
  notAny := nofun

def sampleExpr : Expr .ascii :=
  .or (.atom ownsResource) (.and (.atom largeResource) (.atom otherState))

def sampleText : String :=
  "subject.entitledResources.of('T')" ++ ".as('A', 'B') " ++ "CONTAINS resource.id or " ++
    "(resource.size greater " ++ "Than OR equals TO 5 " ++ "And ((resource.state " ++
    "NOT IN 'X', 'Y')))"

/-- The characters of the text, part by part. -/
theorem toList_sampleText : sampleText.toList =
    "subject.entitledResources.of('T')".toList ++ ".as('A', 'B') ".toList ++
      "CONTAINS resource.id or ".toList ++ "(resource.size greater ".toList ++
      "Than OR equals TO 5 ".toList ++ "And ((resource.state ".toList ++
      "NOT IN 'X', 'Y')))".toList := by
  unfold sampleText
  simp only [String.toList_append]

def sampleTokens : List Token :=
  ⟨.word, "subject.entitledResources.of('T').as('A', 'B')"⟩ ::
    (["CONTAINS", "resource.id", "or"].map (fun w => ⟨.word, w⟩) ++ ⟨.lparen, "("⟩ ::
    (["resource.size", "greater", "Than", "OR", "equals", "TO"].map (fun w => ⟨.word, w⟩) ++
    ⟨.number, "5"⟩ :: (["And"].map (fun w => ⟨.word, w⟩) ++ ⟨.lparen, "("⟩ :: ⟨.lparen, "("⟩ ::
    (["resource.state", "NOT", "IN"].map (fun w => ⟨.word, w⟩) ++ [⟨.string, "X"⟩, ⟨.comma, ","⟩,
      ⟨.string, "Y"⟩, ⟨.rparen, ")"⟩, ⟨.rparen, ")"⟩, ⟨.rparen, ")"⟩]))))

theorem printed_sample : Printed .disj sampleExpr sampleTokens := by
  have hkeyword : ∀ (s : String) {w : String}, equalFold s w = true → IsKeyword w ⟨.word, s⟩ :=
    fun _ _ h => ⟨rfl, h⟩
  have howns : ownsResource.Written [⟨.word, "subject.entitledResources.of('T').as('A', 'B')"⟩,
      ⟨.word, "CONTAINS"⟩, ⟨.word, "resource.id"⟩] :=
    ⟨_, List.mem_cons_self, [⟨.word, "CONTAINS"⟩], .cons (hkeyword _ (by decide +kernel)) .nil, rfl⟩
  have hlarge : largeResource.Written [⟨.word, "resource.size"⟩, ⟨.word, "greater"⟩,
      ⟨.word, "Than"⟩, ⟨.word, "OR"⟩, ⟨.word, "equals"⟩, ⟨.word, "TO"⟩, ⟨.number, "5"⟩] := by
    refine ⟨_, List.mem_cons_self, [⟨.word, "greater"⟩, ⟨.word, "Than"⟩, ⟨.word, "OR"⟩,
      ⟨.word, "equals"⟩, ⟨.word, "TO"⟩], ?_, rfl⟩
    exact .cons (hkeyword _ (by decide +kernel)) (.cons (hkeyword _ (by decide +kernel))
      (.cons (hkeyword _ (by decide +kernel)) (.cons (hkeyword _ (by decide +kernel))
        (.cons (hkeyword _ (by decide +kernel)) .nil))))
  have hother : otherState.Written [⟨.word, "resource.state"⟩, ⟨.word, "NOT"⟩, ⟨.word, "IN"⟩,
      ⟨.string, "X"⟩, ⟨.comma, ","⟩, ⟨.string, "Y"⟩] :=
    ⟨_, List.mem_cons_self, [⟨.word, "NOT"⟩, ⟨.word, "IN"⟩],
      .cons (hkeyword _ (by decide +kernel)) (.cons (hkeyword _ (by decide +kernel)) .nil), rfl⟩
  have hparens := Printed.paren (.conj (.primary (.paren (.conj (.primary (.atom hother))))))
  have hand := Printed.and (.primary (.atom hlarge)) (hkeyword "And" (by decide +kernel))
    (.primary hparens)
  exact Printed.or (.conj (.primary (.atom howns))) (hkeyword "or" (by decide +kernel))
    (.conj (.primary (.paren (.conj hand))))

theorem laid_sample : Laid .ascii sampleTokens sampleText.toList := by
  have hstring : ∀ (c : Char) (rest : List Char), c ≠ '\'' → c ≠ '\\' →
      Scans .ascii ['\'', c, '\''] ⟨.string, String.ofList [c]⟩ rest :=
    fun c rest hq hs => .string (.plain hq hs .nil) rest
  have hblank : ∀ {cs : List Char}, ∀ c ∈ (' ' :: cs).head?, c = ' ' :=
    fun c hc => (Option.some.inj hc).symm
  have hclose : Laid .ascii [⟨.rparen, ")"⟩, ⟨.rparen, ")"⟩, ⟨.rparen, ")"⟩] [')', ')', ')'] :=
    .token (.rparen _) (.token (.rparen _) (.token (.rparen _) .nil))
  have hlist := Laid.token (hstring 'X' _ (by decide) (by decide)) (.token (.comma _)
    (laid_space (.token (hstring 'Y' _ (by decide) (by decide)) hclose)))
  have hstate := laid_words ["resource.state", "NOT", "IN"] (by decide +kernel) hlist
  have hparens := laid_space (laid_words ["And"] (by decide +kernel)
    (.token (.lparen _) (.token (.lparen _) hstate)))
  have hnumber := Laid.token (.number (show isNumeral ['5'] = true by rfl) fun c hc => by
    rw [hblank c hc]; rfl) hparens
  have hsize := laid_words ["resource.size", "greater", "Than", "OR", "equals", "TO"]
    (by decide +kernel) hnumber
  have howns := laid_space (laid_words ["CONTAINS", "resource.id", "or"] (by decide +kernel)
    (.token (.lparen _) hsize))
  have hentitled : IsWordText .ascii
      "subject.entitledResources.of('T').as('A', 'B')".toList := by
    constructor <;> decide +kernel
  have hlaid := Laid.token (.word hentitled fun c hc => by rw [hblank c hc]; exact .inl rfl) howns
  refine cast (congr (congrArg (Laid .ascii) ?_) ?_) hlaid
  · decide +kernel
  · exact Eq.trans (by decide +kernel) toList_sampleText.symm

/-- The text is read with AND before OR. -/
theorem parseCondition_sample :
    Prints sampleExpr sampleText ∧ ∃ ast, parseCondition .ascii sampleText = .ok ast ∧
      ∀ truth, ast.truth truth = sampleExpr.value truth := by
  have hprints : Prints sampleExpr sampleText := ⟨sampleTokens, printed_sample, laid_sample⟩
  refine ⟨hprints, (parseCondition_precedence_iff sampleExpr hprints).mpr ?_⟩
  show ∀ a ∈ [ownsResource, largeResource, otherState], a.startsWithBool = false
  simp only [List.forall_mem_cons, List.not_mem_nil, false_implies, implies_true, and_true]
  refine ⟨?_, ?_, ?_⟩ <;> decide +kernel

/-- `true EQUALS resource.flag` -/
def flagIsTrue : Atom .ascii where
  left := wordOf "true" (.const (.bool true)) (by decide +kernel)
  comparison := ⟨[.words ["EQUALS"], .symbol "==", .symbol "="], .eq, false, .operand⟩
  mem := by simp [comparisons]
  right := .operand (wordOf "resource.flag" (.ref (.path .resource ["flag"])) (by decide +kernel))
  notAny := nofun

/-- The comparison with the literal on its left is refused. -/
theorem parseCondition_bool_left :
    Prints (.atom flagIsTrue) "true EQUALS resource.flag" ∧
      parseCondition .ascii "true EQUALS resource.flag" =
        .error (.unexpectedToken "EQUALS") := by
  have hwritten : flagIsTrue.Written [⟨.word, "true"⟩, ⟨.word, "EQUALS"⟩,
      ⟨.word, "resource.flag"⟩] :=
    ⟨_, List.mem_cons_self, [⟨.word, "EQUALS"⟩], .cons ⟨rfl, by decide +kernel⟩ .nil, rfl⟩
  have hflag : Scans .ascii "resource.flag".toList ⟨.word, String.ofList "resource.flag".toList⟩ [] :=
    .word (isWordText_of_isWord .ascii (by decide +kernel)) fun c hc => nomatch hc
  have hlaid := laid_words ["true", "EQUALS"] (by decide +kernel) (.token hflag .nil)
  refine ⟨⟨_, .conj (.primary (.atom hwritten)), ?_⟩, by decide +kernel⟩
  refine cast (congr (congrArg (Laid .ascii) ?_) ?_) hlaid
  · decide +kernel
  · decide +kernel

end Precedence

end AuthzAgent
