/-
  AuthzAgent.Lib.GoQuote

  `strconv.Quote` of Go on texts of valid characters.  Which characters are
  printed as they are is a parameter.  `unquote` reads a quoted text back and
  returns what follows it, so a quoted text is no start of another one.
-/

import Mathlib

namespace GoQuote

/-- The hexadecimal digit of a number below 16. -/
def hexChar (n : Nat) : Char :=
  if n < 10 then Char.ofNat (48 + n) else Char.ofNat (87 + n)

def hexValue (c : Char) : Nat :=
  if c.toNat < 58 then c.toNat - 48 else c.toNat - 87

theorem hexValue_hexChar {n : Nat} (h : n < 16) : hexValue (hexChar n) = n := by
  have hall : ∀ m : Fin 16, hexValue (hexChar m.val) = m.val := by decide
  exact hall ⟨n, h⟩

/-- A number in a fixed count of hexadecimal digits. -/
def hexDigits : Nat → Nat → List Char
  | 0, _ => []
  | width + 1, n => hexDigits width (n / 16) ++ [hexChar (n % 16)]

def hexNumber (cs : List Char) : Nat := cs.foldl (fun n c => 16 * n + hexValue c) 0

theorem length_hexDigits (width n : Nat) : (hexDigits width n).length = width := by
  induction width generalizing n with
  | zero => rfl
  | succ width ih => rw [hexDigits, List.length_append, ih, List.length_singleton]

theorem hexNumber_hexDigits {width n : Nat} (h : n < 16 ^ width) :
    hexNumber (hexDigits width n) = n := by
  induction width generalizing n with
  | zero =>
    have hzero : n = 0 := by simpa using h
    rw [hzero]
    rfl
  | succ width ih =>
    have hdiv : n / 16 < 16 ^ width := by
      rw [Nat.pow_succ] at h
      omega
    have hmod : n % 16 < 16 := Nat.mod_lt n (by decide)
    have hprev := ih hdiv
    rw [hexNumber] at hprev
    rw [hexNumber, hexDigits, List.foldl_append, hprev]
    show 16 * (n / 16) + hexValue (hexChar (n % 16)) = n
    rw [hexValue_hexChar hmod]
    omega

/-! ## Characters -/

def controlLetter : Char → Option Char
  | '\x07' => some 'a'
  | '\x08' => some 'b'
  | '\x0c' => some 'f'
  | '\n' => some 'n'
  | '\r' => some 'r'
  | '\t' => some 't'
  | '\x0b' => some 'v'
  | _ => none

def letterControl : Char → Option Char
  | 'a' => some '\x07'
  | 'b' => some '\x08'
  | 'f' => some '\x0c'
  | 'n' => some '\n'
  | 'r' => some '\r'
  | 't' => some '\t'
  | 'v' => some '\x0b'
  | _ => none

theorem letterControl_of_controlLetter {c l : Char} (h : controlLetter c = some l) :
    letterControl l = some c := by
  unfold controlLetter at h
  split at h <;> first | (obtain rfl := Option.some.inj h; rfl) | cases h

theorem not_hex_of_letterControl {l c : Char} (h : letterControl l = some c) :
    l ≠ 'x' ∧ l ≠ 'u' ∧ l ≠ 'U' := by
  unfold letterControl at h
  split at h <;> first | decide | cases h

/-- The escape of a character that is not printed. -/
def escapeChar (c : Char) : List Char :=
  match controlLetter c with
  | some l => ['\\', l]
  | none =>
    if c.toNat < 0x20 ∨ c.toNat = 0x7f then '\\' :: 'x' :: hexDigits 2 c.toNat
    else if c.toNat < 0x10000 then '\\' :: 'u' :: hexDigits 4 c.toNat
    else '\\' :: 'U' :: hexDigits 8 c.toNat

/-- The character at the start of a quoted text, and what follows it. -/
def unquoteChar : List Char → Option (Char × List Char)
  | '\\' :: 'x' :: cs => some (Char.ofNat (hexNumber (cs.take 2)), cs.drop 2)
  | '\\' :: 'u' :: cs => some (Char.ofNat (hexNumber (cs.take 4)), cs.drop 4)
  | '\\' :: 'U' :: cs => some (Char.ofNat (hexNumber (cs.take 8)), cs.drop 8)
  | '\\' :: l :: cs => some ((letterControl l).getD l, cs)
  | c :: cs => some (c, cs)
  | [] => none

theorem ofNat_hexNumber (width : Nat) {c : Char} (h : c.toNat < 16 ^ width) (rest : List Char) :
    (Char.ofNat (hexNumber ((hexDigits width c.toNat ++ rest).take width)),
      (hexDigits width c.toNat ++ rest).drop width) = (c, rest) := by
  have hlen := length_hexDigits width c.toNat
  rw [List.take_left' hlen, List.drop_left' hlen, hexNumber_hexDigits h, Char.ofNat_toNat]

theorem unquoteChar_letter {l : Char} (hx : l ≠ 'x') (hu : l ≠ 'u') (hU : l ≠ 'U')
    (rest : List Char) :
    unquoteChar ('\\' :: l :: rest) = some ((letterControl l).getD l, rest) := by
  rw [unquoteChar] <;> assumption

theorem unquoteChar_plain {c : Char} (h : c ≠ '\\') (rest : List Char) :
    unquoteChar (c :: rest) = some (c, rest) := by
  simp [unquoteChar, h]

theorem toNat_lt (c : Char) : c.toNat < 16 ^ 8 := by
  rcases c.valid with h | h
  · exact Nat.lt_trans h (by decide)
  · exact Nat.lt_trans h.2 (by decide)

theorem unquoteChar_escapeChar (c : Char) (rest : List Char) :
    unquoteChar (escapeChar c ++ rest) = some (c, rest) := by
  rw [escapeChar]
  cases hletter : controlLetter c with
  | some l =>
    have hcontrol := letterControl_of_controlLetter hletter
    obtain ⟨hx, hu, hU⟩ := not_hex_of_letterControl hcontrol
    show unquoteChar ('\\' :: l :: rest) = some (c, rest)
    rw [unquoteChar_letter hx hu hU, hcontrol, Option.getD_some]
  | none =>
    dsimp only
    split_ifs with hcontrol hbmp
    · have htwo : c.toNat < 16 ^ 2 := by omega
      exact congrArg some (ofNat_hexNumber 2 htwo rest)
    · have hfour : c.toNat < 16 ^ 4 := by omega
      exact congrArg some (ofNat_hexNumber 4 hfour rest)
    · exact congrArg some (ofNat_hexNumber 8 (toNat_lt c) rest)

theorem head?_escapeChar (c : Char) : (escapeChar c).head? = some '\\' := by
  rw [escapeChar]
  cases controlLetter c with
  | some l => rfl
  | none =>
    dsimp only
    split_ifs <;> rfl

/-! ## Texts -/

section Quote

variable (isPrint : Char → Bool)

/-- `appendEscapedRune` -/
def quoteChar (c : Char) : List Char :=
  if c = '"' ∨ c = '\\' then ['\\', c]
  else if isPrint c then [c]
  else escapeChar c

/-- `AppendQuote` -/
def quote (s : String) : List Char := '"' :: (s.toList.flatMap (quoteChar isPrint) ++ ['"'])

/-- A quoted character is read back. -/
theorem unquoteChar_quoteChar (c : Char) (rest : List Char) :
    unquoteChar (quoteChar isPrint c ++ rest) = some (c, rest) := by
  rw [quoteChar]
  split_ifs with hspecial hprint
  · rcases hspecial with rfl | rfl <;> rfl
  · rw [not_or] at hspecial
    exact unquoteChar_plain hspecial.2 rest
  · exact unquoteChar_escapeChar c rest

/-- A quoted character does not start with the closing quote. -/
theorem head?_quoteChar (c : Char) (rest : List Char) :
    (quoteChar isPrint c ++ rest).head? ≠ some '"' := by
  rw [quoteChar]
  split_ifs with hspecial hprint
  · exact fun h => absurd (Option.some.inj h) (by decide)
  · rw [not_or] at hspecial
    exact fun h => hspecial.1 (Option.some.inj h)
  · rw [List.head?_append, head?_escapeChar]
    exact fun h => absurd (Option.some.inj h) (by decide)

/-- A quoted text ends where it ends: no other one starts with it. -/
theorem quote_append_inj {s t : String} {r r' : List Char}
    (h : quote isPrint s ++ r = quote isPrint t ++ r') : s = t ∧ r = r' := by
  have hchars : ∀ cs ds : List Char,
      cs.flatMap (quoteChar isPrint) ++ '"' :: r = ds.flatMap (quoteChar isPrint) ++ '"' :: r' →
        cs = ds ∧ r = r' := by
    intro cs
    induction cs with
    | nil =>
      intro ds h
      cases ds with
      | nil => exact ⟨rfl, (List.cons.inj h).2⟩
      | cons d ds =>
        rw [List.flatMap_cons, List.append_assoc] at h
        exact absurd (by rw [← h]; rfl) (head?_quoteChar isPrint d _)
    | cons c cs ih =>
      intro ds h
      cases ds with
      | nil =>
        rw [List.flatMap_cons, List.append_assoc] at h
        exact absurd (by rw [h]; rfl) (head?_quoteChar isPrint c _)
      | cons d ds =>
        rw [List.flatMap_cons, List.append_assoc, List.flatMap_cons, List.append_assoc] at h
        have hread := unquoteChar_quoteChar isPrint c
          (cs.flatMap (quoteChar isPrint) ++ '"' :: r)
        rw [h, unquoteChar_quoteChar] at hread
        obtain ⟨hcd, hrest⟩ := Prod.mk.inj (Option.some.inj hread)
        obtain ⟨hcs, hr⟩ := ih ds hrest.symm
        exact ⟨by rw [hcd, hcs], hr⟩
  rw [quote, quote, List.cons_append, List.cons_append, List.append_assoc,
    List.append_assoc] at h
  have htail := (List.cons.inj h).2
  obtain ⟨hlist, hr⟩ := hchars s.toList t.toList htail
  exact ⟨String.toList_inj.mp hlist, hr⟩

end Quote

end GoQuote
