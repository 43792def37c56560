/-
  AuthzAgent.Lib.SqlText

  The tokens of an SQL text, and templates with holes for string literals.

  A literal stands in single quotes, and two quotes in it denote one.  Outside
  literals a text is words, blanks and symbols of one character.  `lex` reads a
  text one character at a time; its mode is the token it is in.

  A hole of a template is filled with the literals of a list of texts, written
  between quotes as they are, without escapes.  Two counts decide when the
  filled text has the tokens of the template with the literals in place of the
  holes: a quote in a text is one where its literal would need two
  (`quotes_lex`), and tokens that meet across a hole and are read as one make
  the list of tokens shorter (`short_fill`).
-/

import AuthzAgent.Lib.Template

namespace SqlText

open Template (Item fill fill_char fill_hole)

/-! ## The lexer -/

/-- The characters of words and the blanks. -/
structure Lexicon where
  isBlank : Char → Bool
  isWord : Char → Bool
  blank_space : isBlank ' ' = true
  comma_not_blank : isBlank ',' = false
  space_not_word : isWord ' ' = false
  comma_not_word : isWord ',' = false
  quote_not_word : isWord '\'' = false

/-- Words of ASCII letters, digits and underscores. -/
def Lexicon.ascii : Lexicon where
  isBlank := fun c => c == ' ' || c == '\t' || c == '\n' || c == '\r'
  isWord := fun c => c.isAlphanum || c == '_'
  blank_space := rfl
  comma_not_blank := rfl
  space_not_word := rfl
  comma_not_word := rfl
  quote_not_word := rfl

inductive Token where
  | word (cs : List Char)
  | symbol (c : Char)
  /-- A string literal, as the text it denotes. -/
  | literal (cs : List Char)
  /-- A string literal that the end of the text cuts off. -/
  | unclosed (cs : List Char)
deriving DecidableEq

/-- The token that the lexer is in, with what it has read of it. -/
inductive Mode where
  | outside
  | word (cs : List Char)
  | literal (cs : List Char)
  /-- After a quote in a literal, which ends it unless another quote follows. -/
  | quote (cs : List Char)

/-- The token of a mode when nothing more belongs to it. -/
def Mode.finish : Mode → List Token
  | .outside => []
  | .word cs => [.word cs]
  | .literal cs => [.unclosed cs]
  | .quote cs => [.literal cs]

/-- No literal is open. -/
def Mode.isOutside : Mode → Bool
  | .literal _ => false
  | _ => true

/-- The mode after a character that belongs to the token of a mode. -/
def Mode.extend (X : Lexicon) : Mode → Char → Option Mode
  | .outside, _ => none
  | .word cs, c => if X.isWord c then some (.word (cs ++ [c])) else none
  | .literal cs, c => if c = '\'' then some (.quote cs) else some (.literal (cs ++ [c]))
  | .quote cs, c => if c = '\'' then some (.literal (cs ++ [c])) else none

def start (X : Lexicon) (c : Char) : List Token × Mode :=
  if c = '\'' then ([], .literal [])
  else if X.isWord c then ([], .word [c])
  else if X.isBlank c then ([], .outside)
  else ([.symbol c], .outside)

def lex (X : Lexicon) : Mode → List Char → List Token
  | m, [] => m.finish
  | m, c :: cs =>
    match m.extend X c with
    | some m' => lex X m' cs
    | none => m.finish ++ (start X c).1 ++ lex X (start X c).2 cs

section Lexer

variable {X : Lexicon}

theorem lex_extend {m m' : Mode} {c : Char} (h : m.extend X c = some m') (cs : List Char) :
    lex X m (c :: cs) = lex X m' cs := by
  rw [lex, h]

theorem lex_start {m : Mode} {c : Char} (h : m.extend X c = none) (cs : List Char) :
    lex X m (c :: cs) = m.finish ++ (start X c).1 ++ lex X (start X c).2 cs := by
  rw [lex, h]

/-! ## Quotes -/

/-- The quotes of a text. -/
def quotes (cs : List Char) : Nat := cs.count '\''

theorem quotes_append (cs ds : List Char) : quotes (cs ++ ds) = quotes cs + quotes ds :=
  List.count_append

theorem quotes_quote (cs : List Char) : quotes ('\'' :: cs) = quotes cs + 1 :=
  List.count_cons_self

theorem quotes_cons {c : Char} (hc : c ≠ '\'') (cs : List Char) : quotes (c :: cs) = quotes cs :=
  List.count_cons_of_ne hc

def Token.quotes : Token → Nat
  | .word _ => 0
  | .symbol _ => 0
  | .literal cs => 2 + 2 * SqlText.quotes cs
  | .unclosed cs => 1 + 2 * SqlText.quotes cs

/-- The quotes that were read for the token of a mode. -/
def Mode.quotes : Mode → Nat
  | .outside => 0
  | .word _ => 0
  | .literal cs => 1 + 2 * SqlText.quotes cs
  | .quote cs => 2 + 2 * SqlText.quotes cs

def tokenQuotes (ts : List Token) : Nat := (ts.map Token.quotes).sum

theorem tokenQuotes_append (ts us : List Token) :
    tokenQuotes (ts ++ us) = tokenQuotes ts + tokenQuotes us := by
  rw [tokenQuotes, List.map_append, List.sum_append, tokenQuotes, tokenQuotes]

theorem tokenQuotes_finish (m : Mode) : tokenQuotes m.finish = m.quotes := by
  cases m with
  | _ => rfl

/-- The quotes of a character that belongs to a token. -/
theorem quotes_extend {m m' : Mode} {c : Char} (h : m.extend X c = some m') :
    m'.quotes = m.quotes + quotes [c] := by
  cases m with
  | outside => cases h
  | word cs =>
    rw [Mode.extend] at h
    split_ifs at h with hword
    obtain rfl := Option.some.inj h
    have hc : c ≠ '\'' := by
      rintro rfl
      rw [X.quote_not_word] at hword
      cases hword
    rw [quotes_cons hc]
    rfl
  | literal cs =>
    rw [Mode.extend] at h
    split_ifs at h with hc
    · obtain rfl := Option.some.inj h
      rw [hc, quotes_quote]
      show 2 + 2 * quotes cs = 1 + 2 * quotes cs + (0 + 1)
      omega
    · obtain rfl := Option.some.inj h
      rw [quotes_cons hc]
      show 1 + 2 * quotes (cs ++ [c]) = 1 + 2 * quotes cs + 0
      rw [quotes_append, quotes_cons hc]
      rfl
  | quote cs =>
    rw [Mode.extend] at h
    split_ifs at h with hc
    obtain rfl := Option.some.inj h
    rw [hc, quotes_quote]
    show 1 + 2 * quotes (cs ++ ['\'']) = 2 + 2 * quotes cs + (0 + 1)
    rw [quotes_append, quotes_quote]
    show 1 + 2 * (quotes cs + (0 + 1)) = _
    omega

theorem quotes_start (c : Char) :
    tokenQuotes (start X c).1 + (start X c).2.quotes = quotes [c] := by
  rw [start]
  split_ifs with hc hword hblank
  · rw [hc]
    rfl
  · rw [quotes_cons hc]
    rfl
  · rw [quotes_cons hc]
    rfl
  · rw [quotes_cons hc]
    rfl

/-- Every quote of a text is one that a token is written with. -/
theorem quotes_lex (m : Mode) (cs : List Char) :
    tokenQuotes (lex X m cs) = m.quotes + quotes cs := by
  induction cs generalizing m with
  | nil => exact tokenQuotes_finish m
  | cons c cs ih =>
    have hsplit : quotes (c :: cs) = quotes [c] + quotes cs := quotes_append [c] cs
    cases hext : m.extend X c with
    | some m' =>
      rw [lex_extend hext, ih, quotes_extend hext, hsplit]
      omega
    | none =>
      have hstart := quotes_start (X := X) c
      rw [lex_start hext, tokenQuotes_append, tokenQuotes_append, tokenQuotes_finish, ih, hsplit]
      omega

end Lexer

/-! ## Templates -/

inductive TemplateToken (κ : Type) where
  | token (t : Token)
  | hole (key : κ)

/-- The literals of texts, with commas between them. -/
def literals : List (List Char) → List Token
  | [] => []
  | [t] => [.literal t]
  | t :: u :: us => .literal t :: .symbol ',' :: literals (u :: us)

/-- Texts between quotes, with commas and blanks between them; or bare, with
    commas. -/
def showTexts (bare : Bool) (ts : List (List Char)) : List Char :=
  if bare then [','].intercalate ts
  else [',', ' '].intercalate (ts.map fun t => '\'' :: (t ++ ['\'']))

section Templates

variable {κ : Type}

def lexTemplate (X : Lexicon) : Mode → List (Item κ) → List (TemplateToken κ)
  | m, [] => m.finish.map .token
  | m, .char c :: items =>
    match m.extend X c with
    | some m' => lexTemplate X m' items
    | none => (m.finish ++ (start X c).1).map .token ++ lexTemplate X (start X c).2 items
  | m, .hole key :: items => m.finish.map .token ++ .hole key :: lexTemplate X .outside items

/-- No hole stands in a literal, from a mode on. -/
def holesOutside (X : Lexicon) : Mode → List (Item κ) → Bool
  | _, [] => true
  | m, .char c :: items => holesOutside X ((m.extend X c).getD (start X c).2) items
  | m, .hole _ :: items => m.isOutside && holesOutside X .outside items

variable (texts : κ → List (List Char)) (bare : κ → Bool)

def holeText (key : κ) : List Char := showTexts (bare key) (texts key)

/-- The tokens of a template with the literals in place of its holes. -/
def fillTokens (ts : List (TemplateToken κ)) : List Token :=
  ts.flatMap fun
    | .token t => [t]
    | .hole key => literals (texts key)

/-- The tokens that a filled template should have, from a mode on. -/
def wanted (X : Lexicon) (m : Mode) (items : List (Item κ)) : List Token :=
  fillTokens texts (lexTemplate X m items)

/-- The texts of a hole are written as the literals that denote them. -/
def Plain (key : κ) : Prop :=
  texts key = [] ∨ bare key = false ∧ ∀ t ∈ texts key, '\'' ∉ t

/-- Two characters that the lexer reads as one token. -/
def joins (X : Lexicon) (c d : Char) : Bool :=
  (c == '\'' && d == '\'') || (X.isWord c && X.isWord d)

/-- The places of a template at which tokens meet across a hole and are read as
    one: a literal in a hole and a quote, or two characters with only holes
    without texts between them.  `prev` is the last character before, and `cut`
    tells whether a hole follows it. -/
def joints (X : Lexicon) : Option Char → Bool → List (Item κ) → Nat
  | _, _, [] => 0
  | prev, cut, .char c :: items =>
    (if cut && prev.any (joins X · c) then 1 else 0) + joints X (some c) false items
  | prev, _, .hole key :: items =>
    if texts key = [] then joints X prev true items
    else (if prev = some '\'' then 1 else 0) + joints X (some '\'') true items

variable {texts bare} {X : Lexicon}

theorem fillTokens_append (ts us : List (TemplateToken κ)) :
    fillTokens texts (ts ++ us) = fillTokens texts ts ++ fillTokens texts us :=
  List.flatMap_append

theorem fillTokens_map_token (ts : List Token) :
    fillTokens texts (ts.map .token : List (TemplateToken κ)) = ts := by
  induction ts with
  | nil => rfl
  | cons t ts ih => exact congrArg (t :: ·) ih

theorem wanted_nil (m : Mode) : wanted texts X m [] = m.finish :=
  fillTokens_map_token m.finish

theorem wanted_extend {m m' : Mode} {c : Char} (h : m.extend X c = some m')
    (items : List (Item κ)) : wanted texts X m (.char c :: items) = wanted texts X m' items := by
  rw [wanted, lexTemplate, h]
  rfl

theorem wanted_start {m : Mode} {c : Char} (h : m.extend X c = none) (items : List (Item κ)) :
    wanted texts X m (.char c :: items) =
      m.finish ++ (start X c).1 ++ wanted texts X (start X c).2 items := by
  rw [wanted, lexTemplate, h]
  show fillTokens texts (_ ++ _) = _
  rw [fillTokens_append, fillTokens_map_token]
  rfl

theorem wanted_hole (m : Mode) (key : κ) (items : List (Item κ)) :
    wanted texts X m (.hole key :: items) =
      m.finish ++ (literals (texts key) ++ wanted texts X .outside items) := by
  rw [wanted, lexTemplate, fillTokens_append, fillTokens_map_token]
  rfl

/-! ## Quotes of filled templates -/

theorem tokenQuotes_literals (ts : List (List Char)) :
    tokenQuotes (literals ts) = (ts.map fun t => 2 + 2 * quotes t).sum := by
  match ts with
  | [] => rfl
  | [t] => rfl
  | t :: u :: us =>
    have ih := tokenQuotes_literals (u :: us)
    show (Token.literal t).quotes + (0 + tokenQuotes (literals (u :: us))) = _
    rw [ih, Nat.zero_add]
    rfl

theorem quotes_intercalate {sep : List Char} (hsep : quotes sep = 0) (parts : List (List Char)) :
    quotes (sep.intercalate parts) = (parts.map quotes).sum := by
  match parts with
  | [] => rfl
  | [part] => simp [List.intercalate]
  | part :: next :: parts =>
    have ih := quotes_intercalate hsep (next :: parts)
    rw [List.intercalate_cons_cons, quotes_append, quotes_append, hsep, ih]
    rfl

theorem quotes_showTexts (b : Bool) (ts : List (List Char)) :
    quotes (showTexts b ts) = (ts.map fun t => (if b then 0 else 2) + quotes t).sum := by
  cases b with
  | true =>
    rw [showTexts, if_pos rfl, quotes_intercalate rfl]
    simp
  | false =>
    rw [showTexts, if_neg Bool.false_ne_true, quotes_intercalate rfl, List.map_map]
    congr 1
    refine List.map_congr_left fun t _ => ?_
    show quotes ('\'' :: (t ++ ['\''])) = 2 + quotes t
    rw [quotes_quote, quotes_append, quotes_quote]
    show quotes t + (0 + 1) + 1 = 2 + quotes t
    omega

/-- A hole has no more quotes than the literals of its texts; as many, only
    where it is plain. -/
theorem quotes_holeText_le (key : κ) :
    quotes (holeText texts bare key) ≤ tokenQuotes (literals (texts key)) ∧
      (quotes (holeText texts bare key) = tokenQuotes (literals (texts key)) →
        Plain texts bare key) := by
  rw [holeText, quotes_showTexts, tokenQuotes_literals]
  have hle : ∀ t ∈ texts key, (if bare key then 0 else 2) + quotes t ≤ 2 + 2 * quotes t := by
    intro t _
    split_ifs <;> omega
  refine ⟨List.sum_le_sum hle, fun heq => ?_⟩
  have hsame : ∀ t ∈ texts key, (if bare key then 0 else 2) + quotes t = 2 + 2 * quotes t := by
    intro t ht
    by_contra hne
    have hlt := List.sum_lt_sum _ _ hle ⟨t, ht, lt_of_le_of_ne (hle t ht) hne⟩
    omega
  by_cases hnil : texts key = []
  · exact Or.inl hnil
  · obtain ⟨t, ht⟩ := List.exists_mem_of_ne_nil _ hnil
    have hbare : bare key = false := by
      cases hb : bare key with
      | false => rfl
      | true =>
        have htwo := hsame t ht
        rw [hb, if_pos rfl] at htwo
        omega
    refine Or.inr ⟨hbare, fun t ht hmem => ?_⟩
    have htwo := hsame t ht
    rw [hbare, if_neg Bool.false_ne_true] at htwo
    have hpos : 0 < quotes t := List.count_pos_iff.mpr hmem
    omega

/-- A filled template has no more quotes than the tokens it should have; as many,
    only where its holes are plain. -/
theorem quotes_fill_le (m : Mode) (items : List (Item κ)) :
    m.quotes + quotes (fill (holeText texts bare) items) ≤ tokenQuotes (wanted texts X m items) ∧
      (m.quotes + quotes (fill (holeText texts bare) items) = tokenQuotes (wanted texts X m items) →
        ∀ key, .hole key ∈ items → Plain texts bare key) := by
  induction items generalizing m with
  | nil =>
    rw [wanted_nil, tokenQuotes_finish]
    exact ⟨le_rfl, fun _ key hkey => nomatch hkey⟩
  | cons item items ih =>
    cases item with
    | char c =>
      have hsplit : quotes (c :: fill (holeText texts bare) items) =
          quotes [c] + quotes (fill (holeText texts bare) items) := quotes_append [c] _
      have hmem : ∀ key, Item.hole key ∈ Item.char c :: items → Item.hole key ∈ items := by
        intro key hkey
        rcases List.mem_cons.mp hkey with hkey | hkey
        · cases hkey
        · exact hkey
      rw [fill_char, hsplit]
      cases hext : m.extend X c with
      | some m' =>
        obtain ⟨hle, hplain⟩ := ih m'
        rw [quotes_extend hext] at hle hplain
        rw [wanted_extend hext]
        exact ⟨by omega, fun heq key hkey => hplain (by omega) key (hmem key hkey)⟩
      | none =>
        obtain ⟨hle, hplain⟩ := ih (start X c).2
        have hstart := quotes_start (X := X) c
        rw [wanted_start hext, tokenQuotes_append, tokenQuotes_append, tokenQuotes_finish]
        exact ⟨by omega, fun heq key hkey => hplain (by omega) key (hmem key hkey)⟩
    | hole key =>
      obtain ⟨hle, hplain⟩ := ih .outside
      obtain ⟨hhole, hkey⟩ := @quotes_holeText_le κ texts bare key
      have hzero : Mode.outside.quotes = 0 := rfl
      rw [fill_hole, quotes_append, wanted_hole, tokenQuotes_append, tokenQuotes_append,
        tokenQuotes_finish]
      refine ⟨by omega, fun heq key' hkey' => ?_⟩
      rcases List.mem_cons.mp hkey' with hkey' | hkey'
      · obtain rfl := Item.hole.inj hkey'
        exact hkey (by omega)
      · exact hplain (by omega) key' hkey'

/-! ## Tokens of filled holes -/

/-- What follows the first quote of texts between quotes. -/
def body : List Char → List (List Char) → List Char
  | t, [] => t ++ ['\'']
  | t, u :: us => t ++ '\'' :: ',' :: ' ' :: '\'' :: body u us

theorem showTexts_cons (t : List Char) (us : List (List Char)) :
    showTexts false (t :: us) = '\'' :: body t us := by
  rw [showTexts, if_neg Bool.false_ne_true]
  induction us generalizing t with
  | nil => simp [List.intercalate, body]
  | cons u us ih =>
    have hu := ih u
    rw [List.map_cons] at hu
    rw [List.map_cons, List.map_cons, List.intercalate_cons_cons, hu, body]
    simp

/-- A text without quotes is read up to the quote behind it. -/
theorem lex_literal {t : List Char} (ht : '\'' ∉ t) (acc cs : List Char) :
    lex X (.literal acc) (t ++ '\'' :: cs) = lex X (.quote (acc ++ t)) cs := by
  induction t generalizing acc with
  | nil =>
    have hext : (Mode.literal acc).extend X '\'' = some (.quote acc) := rfl
    rw [List.nil_append, lex_extend hext, List.append_nil]
  | cons c t ih =>
    rw [List.mem_cons, not_or] at ht
    have hext : (Mode.literal acc).extend X c = some (.literal (acc ++ [c])) :=
      if_neg (Ne.symm ht.1)
    rw [List.cons_append, lex_extend hext, ih ht.2, List.append_assoc]
    rfl

/-- Between two texts a literal ends, a comma follows and the next literal begins. -/
theorem lex_separator (last cs : List Char) :
    lex X (.quote last) (',' :: ' ' :: '\'' :: cs) =
      .literal last :: .symbol ',' :: lex X (.literal []) cs := by
  have hcomma : (Mode.quote last).extend X ',' = none := rfl
  have hstart : start X ',' = ([.symbol ','], .outside) := by
    rw [start, if_neg (by decide), X.comma_not_word, if_neg Bool.false_ne_true,
      X.comma_not_blank, if_neg Bool.false_ne_true]
  have hblank : start X ' ' = ([], .outside) := by
    rw [start, if_neg (by decide), X.space_not_word, if_neg Bool.false_ne_true,
      X.blank_space, if_pos rfl]
  have hquote : start X '\'' = ([], .literal []) := if_pos rfl
  rw [lex_start hcomma, hstart, lex_start rfl, hblank, lex_start rfl, hquote]
  rfl

/-- Texts without quotes are read as their literals, where what follows leaves the
    last one as it is. -/
theorem lex_body {t : List Char} {us : List (List Char)} (hts : ∀ x ∈ t :: us, '\'' ∉ x)
    (acc : List Char) {cs : List Char} {more : List Token}
    (hmore : ∀ last, lex X (.quote last) cs = .literal last :: more) :
    lex X (.literal acc) (body t us ++ cs) = literals ((acc ++ t) :: us) ++ more := by
  induction us generalizing t acc with
  | nil =>
    rw [body, List.append_assoc, List.singleton_append, lex_literal (hts t List.mem_cons_self),
      hmore]
    rfl
  | cons u us ih =>
    have hus : ∀ x ∈ u :: us, '\'' ∉ x := fun x hx => hts x (List.mem_cons_of_mem t hx)
    rw [body, List.append_assoc, List.cons_append, lex_literal (hts t List.mem_cons_self),
      List.cons_append, List.cons_append, List.cons_append, lex_separator, ih hus []]
    rfl

/-- The number of tokens that texts without quotes are read as. -/
theorem length_lex_body {t : List Char} {us : List (List Char)} (hts : ∀ x ∈ t :: us, '\'' ∉ x)
    (acc : List Char) {cs : List Char} {j n : Nat}
    (hmore : ∀ last, (lex X (.quote last) cs).length + j = 1 + n) :
    (lex X (.literal acc) (body t us ++ cs)).length + j = (literals (t :: us)).length + n := by
  induction us generalizing t acc with
  | nil =>
    rw [body, List.append_assoc, List.singleton_append, lex_literal (hts t List.mem_cons_self),
      hmore]
    rfl
  | cons u us ih =>
    have hus : ∀ x ∈ u :: us, '\'' ∉ x := fun x hx => hts x (List.mem_cons_of_mem t hx)
    have hrest := ih hus []
    rw [body, List.append_assoc, List.cons_append, lex_literal (hts t List.mem_cons_self),
      List.cons_append, List.cons_append, List.cons_append, lex_separator, literals]
    simp only [List.length_cons]
    omega

/-! ## Tokens of filled templates -/

/-- Modes of one kind, whatever was read. -/
inductive SameKind : Mode → Mode → Prop
  | outside : SameKind .outside .outside
  | word (cs ds : List Char) : SameKind (.word cs) (.word ds)
  | literal (cs ds : List Char) : SameKind (.literal cs) (.literal ds)
  | quote (cs ds : List Char) : SameKind (.quote cs) (.quote ds)

theorem SameKind.refl (m : Mode) : SameKind m m := by
  cases m with
  | outside => exact .outside
  | word cs => exact .word cs cs
  | literal cs => exact .literal cs cs
  | quote cs => exact .quote cs cs

theorem SameKind.isOutside {m m' : Mode} (h : SameKind m m') : m.isOutside = m'.isOutside := by
  cases h with
  | _ => rfl

theorem SameKind.length_finish {m m' : Mode} (h : SameKind m m') :
    m.finish.length = m'.finish.length := by
  cases h with
  | _ => rfl

/-- A character belongs to the tokens of both modes, or to neither. -/
theorem SameKind.extend {m m' : Mode} (h : SameKind m m') (c : Char) :
    (m.extend X c = none ∧ m'.extend X c = none) ∨
      ∃ n n', m.extend X c = some n ∧ m'.extend X c = some n' ∧ SameKind n n' := by
  cases h with
  | outside => exact Or.inl ⟨rfl, rfl⟩
  | word cs ds =>
    by_cases hc : X.isWord c = true
    · exact Or.inr ⟨_, _, if_pos hc, if_pos hc, .word _ _⟩
    · exact Or.inl ⟨if_neg hc, if_neg hc⟩
  | literal cs ds =>
    by_cases hc : c = '\''
    · exact Or.inr ⟨_, _, if_pos hc, if_pos hc, .quote _ _⟩
    · exact Or.inr ⟨_, _, if_neg hc, if_neg hc, .literal _ _⟩
  | quote cs ds =>
    by_cases hc : c = '\''
    · exact Or.inr ⟨_, _, if_pos hc, if_pos hc, .literal _ _⟩
    · exact Or.inl ⟨if_neg hc, if_neg hc⟩

variable (X) in
/-- The last character read, as far as a mode tells it. -/
def Seen : Mode → Option Char → Prop
  | .outside, prev => ∀ c, prev = some c → c ≠ '\'' ∧ X.isWord c = false
  | .word _, prev => ∃ c, prev = some c ∧ X.isWord c = true
  | .literal _, _ => True
  | .quote _, prev => prev = some '\''

theorem seen_extend {m m' : Mode} {c : Char} (h : m.extend X c = some m') :
    Seen X m' (some c) := by
  cases m with
  | outside => cases h
  | word cs =>
    rw [Mode.extend] at h
    split_ifs at h with hword
    obtain rfl := Option.some.inj h
    exact ⟨c, rfl, hword⟩
  | literal cs =>
    rw [Mode.extend] at h
    split_ifs at h with hc
    · obtain rfl := Option.some.inj h
      exact congrArg some hc
    · obtain rfl := Option.some.inj h
      trivial
  | quote cs =>
    rw [Mode.extend] at h
    split_ifs at h with hc
    obtain rfl := Option.some.inj h
    trivial

theorem seen_start (c : Char) : Seen X (start X c).2 (some c) := by
  rw [start]
  split_ifs with hc hword hblank
  · trivial
  · exact ⟨c, rfl, hword⟩
  · rintro d hd
    obtain rfl := Option.some.inj hd
    exact ⟨hc, Bool.eq_false_iff.mpr hword⟩
  · rintro d hd
    obtain rfl := Option.some.inj hd
    exact ⟨hc, Bool.eq_false_iff.mpr hword⟩

theorem joins_iff {c d : Char} :
    joins X c d = true ↔ c = '\'' ∧ d = '\'' ∨ X.isWord c = true ∧ X.isWord d = true := by
  simp [joins]

theorem ne_quote_of_isWord {c : Char} (h : X.isWord c = true) : c ≠ '\'' := by
  rintro rfl
  rw [X.quote_not_word] at h
  cases h

theorem start_word {c : Char} (h : X.isWord c = true) : start X c = ([], .word [c]) := by
  rw [start, if_neg (ne_quote_of_isWord h), if_pos h]

/-- Outside literals a character belongs to the token before it where the last
    character and it are read as one; it would start a token of the same kind. -/
theorem extend_of_joins {m : Mode} {prev : Option Char} {c : Char} (hseen : Seen X m prev)
    (hout : m.isOutside = true) (hjoins : prev.any (joins X · c) = true) :
    ∃ m', m.extend X c = some m' ∧ SameKind m' (start X c).2 ∧ (start X c).1 = [] ∧
      m.finish.length = 1 := by
  obtain ⟨d, hd, hdc⟩ := (Option.any_eq_true _ _).mp hjoins
  rw [joins_iff] at hdc
  cases m with
  | outside =>
    obtain ⟨hquote, hword⟩ := hseen d hd
    rcases hdc with ⟨hdq, -⟩ | ⟨hdw, -⟩
    · exact absurd hdq hquote
    · rw [hword] at hdw
      cases hdw
  | word cs =>
    obtain ⟨e, he, hword⟩ := hseen
    obtain rfl := Option.some.inj (he.symm.trans hd)
    rcases hdc with ⟨heq, -⟩ | ⟨-, hc⟩
    · exact absurd heq (ne_quote_of_isWord hword)
    · rw [start_word hc]
      exact ⟨_, if_pos hc, .word _ _, rfl, rfl⟩
  | literal cs => cases hout
  | quote cs =>
    obtain rfl := Option.some.inj (hseen.symm.trans hd)
    rcases hdc with ⟨-, rfl⟩ | ⟨hdw, -⟩
    · exact ⟨.literal (cs ++ ['\'']), rfl, .literal _ _, rfl, rfl⟩
    · exact absurd rfl (ne_quote_of_isWord hdw)

theorem extend_of_not_joins {m : Mode} {prev : Option Char} {c : Char} (hseen : Seen X m prev)
    (hout : m.isOutside = true) (hjoins : ¬ prev.any (joins X · c) = true) :
    m.extend X c = none := by
  cases m with
  | outside => rfl
  | word cs =>
    obtain ⟨d, rfl, hword⟩ := hseen
    refine if_neg fun hc => hjoins ?_
    exact joins_iff.mpr (Or.inr ⟨hword, hc⟩)
  | literal cs => cases hout
  | quote cs =>
    obtain rfl : prev = some '\'' := hseen
    refine if_neg fun hc => hjoins ?_
    exact joins_iff.mpr (Or.inl ⟨rfl, hc⟩)

/-- Tokens against those there should be, with `j` places at which two were read
    as one: there are `j` less, and none differs where `j` is zero. -/
def Short (j : Nat) (same : Prop) (ts us : List Token) : Prop :=
  ts.length + j = us.length ∧ (same → j = 0 → ts = us)

/-- A hole outside literals, where the rest of the template is read as it should
    be behind every mode outside literals. -/
theorem short_hole {key : κ} {items : List (Item κ)} (hplain : Plain texts bare key)
    (hrest : ∀ m prev, Seen X m prev → m.isOutside = true →
      Short (joints texts X prev true items) True (lex X m (fill (holeText texts bare) items))
        (m.finish ++ wanted texts X .outside items))
    {m : Mode} {prev : Option Char} (cut : Bool) (hseen : Seen X m prev)
    (hout : m.isOutside = true) :
    Short (joints texts X prev cut (.hole key :: items)) True
      (lex X m (fill (holeText texts bare) (.hole key :: items)))
      (m.finish ++ (literals (texts key) ++ wanted texts X .outside items)) := by
  rw [fill_hole, holeText, joints]
  rcases hplain with hnil | ⟨hbare, hquotes⟩
  · rw [hnil, if_pos rfl]
    have hshow : ∀ b, showTexts b [] = [] := fun b => by cases b <;> rfl
    rw [hshow]
    exact hrest m prev hseen hout
  cases htexts : texts key with
  | nil =>
    rw [if_pos rfl, hbare]
    exact hrest m prev hseen hout
  | cons t us =>
    rw [htexts] at hquotes
    rw [if_neg (List.cons_ne_nil t us), hbare, showTexts_cons, List.cons_append]
    -- the last literal of the hole is open to a quote behind it
    have hlast : ∀ last, Short (joints texts X (some '\'') true items) True
        (lex X (.quote last) (fill (holeText texts bare) items))
        (.literal last :: wanted texts X .outside items) :=
      fun last => hrest (.quote last) (some '\'') rfl rfl
    have hlength : ∀ acc, (lex X (.literal acc) (body t us ++ fill (holeText texts bare) items)).length +
        joints texts X (some '\'') true items =
          (literals (t :: us)).length + (wanted texts X .outside items).length := by
      intro acc
      refine length_lex_body hquotes acc fun last => ?_
      rw [(hlast last).1, List.length_cons]
      omega
    by_cases hprev : prev = some '\''
    · have hquote : ∃ cs, m = .quote cs := by
        cases m with
        | outside => exact absurd rfl (hseen '\'' hprev).1
        | word cs =>
          obtain ⟨c, hc, hword⟩ := hseen
          obtain rfl := Option.some.inj (hc.symm.trans hprev)
          exact absurd rfl (ne_quote_of_isWord hword)
        | literal cs => cases hout
        | quote cs => exact ⟨cs, rfl⟩
      obtain ⟨cs, rfl⟩ := hquote
      have hext : (Mode.quote cs).extend X '\'' = some (.literal (cs ++ ['\''])) := rfl
      have hlen := hlength (cs ++ ['\''])
      rw [if_pos hprev, lex_extend hext]
      refine ⟨?_, fun _ hj => by omega⟩
      rw [List.length_append, List.length_append]
      show _ = 1 + _
      omega
    · have hext : m.extend X '\'' = none := by
        refine extend_of_not_joins hseen hout fun hjoins => hprev ?_
        obtain ⟨d, hd, hdc⟩ := (Option.any_eq_true _ _).mp hjoins
        rcases joins_iff.mp hdc with ⟨hdq, -⟩ | ⟨-, hword⟩
        · rw [hd, hdq]
        · exact absurd rfl (ne_quote_of_isWord hword)
      have hstart : start X '\'' = ([], .literal []) := rfl
      have hlen := hlength []
      rw [if_neg hprev, Nat.zero_add, lex_start hext, hstart, List.append_nil]
      dsimp only
      refine ⟨?_, fun _ hj => ?_⟩
      · rw [List.length_append, List.length_append, List.length_append]
        omega
      · rw [lex_body hquotes [] fun last => (hlast last).2 trivial hj]
        rfl

/-- The filled template has as many tokens less than it should have as there are
    joints, and without joints it has those it should have: behind a character
    from modes of one kind on, and behind a hole from any mode outside literals. -/
theorem short_fill {items : List (Item κ)}
    (hplain : ∀ key, .hole key ∈ items → Plain texts bare key) :
    (∀ m m' prev, SameKind m m' → Seen X m prev → holesOutside X m' items = true →
      Short (joints texts X prev false items) (m = m') (lex X m (fill (holeText texts bare) items))
        (wanted texts X m' items)) ∧
    ∀ m prev, Seen X m prev → m.isOutside = true → holesOutside X .outside items = true →
      Short (joints texts X prev true items) True (lex X m (fill (holeText texts bare) items))
        (m.finish ++ wanted texts X .outside items) := by
  induction items with
  | nil =>
    refine ⟨fun m m' prev hkind _ _ => ?_, fun m prev _ _ _ => ?_⟩
    · rw [wanted_nil]
      refine ⟨hkind.length_finish, ?_⟩
      rintro rfl -
      rfl
    · rw [wanted_nil]
      exact ⟨by rw [List.length_append]; rfl, fun _ _ => (List.append_nil _).symm⟩
  | cons item items ih =>
    have hitems : ∀ key, .hole key ∈ items → Plain texts bare key :=
      fun key hkey => hplain key (List.mem_cons_of_mem item hkey)
    obtain ⟨hchar, hhole⟩ := ih hitems
    cases item with
    | hole key =>
      have hkey := hplain key List.mem_cons_self
      refine ⟨fun m m' prev hkind hseen houtside => ?_, fun m prev hseen hout houtside => ?_⟩
      · rw [holesOutside, Bool.and_eq_true] at houtside
        have hrest := short_hole hkey (fun m prev hs ho => hhole m prev hs ho houtside.2) false
          hseen (hkind.isOutside.trans houtside.1)
        rw [wanted_hole]
        refine ⟨?_, ?_⟩
        · have hlen := hrest.1
          have hfinish := hkind.length_finish
          rw [List.length_append] at hlen ⊢
          omega
        · rintro rfl hj
          exact hrest.2 trivial hj
      · rw [holesOutside, Bool.and_eq_true] at houtside
        rw [wanted_hole]
        exact short_hole hkey (fun m prev hs ho => hhole m prev hs ho houtside.2) true hseen hout
    | char c =>
      have hseenStart := seen_start (X := X) c
      refine ⟨fun m m' prev hkind hseen houtside => ?_, fun m prev hseen hout houtside => ?_⟩
      · rw [fill_char, joints]
        rw [holesOutside] at houtside
        simp only [Bool.false_and, Bool.false_eq_true, if_false, Nat.zero_add]
        rcases hkind.extend (X := X) c with ⟨hm, hm'⟩ | ⟨n, n', hn, hn', hkind'⟩
        · rw [hm', Option.getD_none] at houtside
          obtain ⟨hlen, heq⟩ := hchar _ _ _ (.refl _) hseenStart houtside
          rw [lex_start hm, wanted_start hm']
          refine ⟨?_, ?_⟩
          · rw [List.length_append, List.length_append, List.length_append, List.length_append,
              hkind.length_finish]
            omega
          · rintro rfl hj
            rw [heq rfl hj]
        · rw [hn', Option.getD_some] at houtside
          obtain ⟨hlen, heq⟩ := hchar n n' (some c) hkind' (seen_extend hn) houtside
          rw [lex_extend hn, wanted_extend hn']
          refine ⟨hlen, ?_⟩
          rintro rfl hj
          exact heq (Option.some.inj (hn.symm.trans hn')) hj
      · rw [holesOutside] at houtside
        replace houtside : holesOutside X (start X c).2 items = true := houtside
        have hoff : Mode.outside.extend X c = none := rfl
        rw [fill_char, joints, wanted_start hoff]
        simp only [Bool.true_and]
        by_cases hjoins : prev.any (joins X · c) = true
        · obtain ⟨m', hext, hkind, hnone, hone⟩ := extend_of_joins hseen hout hjoins
          obtain ⟨hlen, -⟩ := hchar m' _ (some c) hkind (seen_extend hext) houtside
          rw [if_pos hjoins, lex_extend hext, hnone]
          refine ⟨?_, fun _ hj => by omega⟩
          rw [List.length_append, List.length_append, hone, List.append_nil]
          show _ = 1 + (0 + _)
          omega
        · have hext := extend_of_not_joins hseen hout hjoins
          obtain ⟨hlen, heq⟩ := hchar _ _ (some c) (.refl _) hseenStart houtside
          rw [if_neg hjoins, Nat.zero_add, lex_start hext]
          refine ⟨?_, fun _ hj => ?_⟩
          · simp only [List.length_append]
            show _ = _ + (0 + _ + _)
            omega
          · rw [heq rfl hj, List.append_assoc]
            rfl

/-- A filled template has the tokens of the template with the literals in place of
    its holes exactly where no text has a quote, no hole with texts is bare, and
    no tokens are read as one across a hole. -/
theorem lex_fill_iff {items : List (Item κ)} (houtside : holesOutside X .outside items = true) :
    lex X .outside (fill (holeText texts bare) items) = fillTokens texts (lexTemplate X .outside items) ↔
      (∀ key, .hole key ∈ items → Plain texts bare key) ∧ joints texts X none false items = 0 := by
  have hseen : Seen X .outside none := fun _ h => nomatch h
  constructor
  · intro h
    have hquotes := quotes_lex (X := X) .outside (fill (holeText texts bare) items)
    rw [h] at hquotes
    have hplain := (quotes_fill_le .outside items).2 hquotes.symm
    obtain ⟨hlen, -⟩ := (short_fill hplain).1 .outside .outside none .outside hseen houtside
    rw [h] at hlen
    refine ⟨hplain, ?_⟩
    have hsame : (fillTokens texts (lexTemplate X .outside items)).length =
        (wanted texts X .outside items).length := rfl
    omega
  · rintro ⟨hplain, hjoints⟩
    exact ((short_fill hplain).1 .outside .outside none .outside hseen houtside).2 rfl hjoints

end Templates

end SqlText
