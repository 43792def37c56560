/-
  AuthzAgent.Lib.Url

  The components of a URL as RFC 3986 parses them, its path without dot segments,
  and the keys of its query; and `url.QueryEscape`, which writes a text with
  characters that delimit none of these.

  A path without dot segments is what a stack leaves: "." leaves it, ".." takes
  the last segment off.  The number of its segments is a count (`countFrom`), and
  two lists of segments of which the second has dot segments where the first has
  none have one count exactly where the first comes back to the root behind the
  places at which they differ (`countFrom_eq_iff`).
-/

import Mathlib

namespace Url

/-! ## Components -/

/-- The components of a URL; the fragment is left out. -/
structure Parts where
  scheme : Option (List Char)
  authority : Option (List Char)
  path : List Char
  query : Option (List Char)
deriving DecidableEq

def endsAuthority (c : Char) : Bool := c == '/' || c == '?' || c == '#'

def endsScheme (c : Char) : Bool := c == ':' || endsAuthority c

def endsPath (c : Char) : Bool := c == '?' || c == '#'

/-- The scheme, if there is one, and what follows its colon. -/
def splitScheme (cs : List Char) : Option (List Char) × List Char :=
  match cs.takeWhile (fun c => !endsScheme c), cs.dropWhile (fun c => !endsScheme c) with
  | c :: scheme, ':' :: rest => (some (c :: scheme), rest)
  | _, _ => (none, cs)

/-- The authority, if there is one, and what follows it. -/
def splitAuthority : List Char → Option (List Char) × List Char
  | '/' :: '/' :: rest =>
    (some (rest.takeWhile fun c => !endsAuthority c), rest.dropWhile fun c => !endsAuthority c)
  | cs => (none, cs)

/-- The path of what follows the authority. -/
def pathOf (cs : List Char) : List Char := cs.takeWhile fun c => !endsPath c

/-- The query of what follows the authority: from the question mark behind the
    path up to a fragment. -/
def queryOf (cs : List Char) : Option (List Char) :=
  match cs.dropWhile fun c => !endsPath c with
  | '?' :: query => some (query.takeWhile fun c => !(c == '#'))
  | _ => none

/-- The parse of RFC 3986, appendix B. -/
def parse (cs : List Char) : Parts :=
  let scheme := splitScheme cs
  let authority := splitAuthority scheme.2
  ⟨scheme.1, authority.1, pathOf authority.2, queryOf authority.2⟩

/-! ## Dot segments -/

/-- The segments of a path: what stands between its slashes, without the empty
    text before a slash at its start. -/
def segments : List Char → List (List Char)
  | [] => []
  | '/' :: rest => rest.splitOnP (· == '/')
  | cs => cs.splitOnP (· == '/')

/-- What a segment does to the path before it. -/
inductive Step where
  | plain | dot | dotdot
deriving DecidableEq, Repr

def stepOf (segment : List Char) : Step :=
  if segment = ['.'] then .dot else if segment = ['.', '.'] then .dotdot else .plain

/-- The segments without dot segments (RFC 3986, 5.2.4): `kept` is what is left of
    the path so far, the last segment first.  A dot segment at the end leaves an
    empty segment behind. -/
def removeDots (kept : List (List Char)) : List (List Char) → List (List Char)
  | [] => kept.reverse
  | [segment] =>
    match stepOf segment with
    | .plain => (segment :: kept).reverse
    | .dot => ([] :: kept).reverse
    | .dotdot => ([] :: kept.tail).reverse
  | segment :: next :: rest =>
    match stepOf segment with
    | .plain => removeDots (segment :: kept) (next :: rest)
    | .dot => removeDots kept (next :: rest)
    | .dotdot => removeDots kept.tail (next :: rest)

/-- The number of segments after a step. -/
def depthAfter (depth : Nat) : Step → Nat
  | .plain => depth + 1
  | .dot => depth
  | .dotdot => depth - 1

/-- The number of segments that steps leave, from a depth on. -/
def countFrom : Nat → List Step → Nat
  | depth, [] => depth
  | depth, [step] => (if step = .dotdot then depth - 1 else depth) + 1
  | depth, step :: next :: rest => countFrom (depthAfter depth step) (next :: rest)

theorem length_removeDots (kept segs : List (List Char)) :
    (removeDots kept segs).length = countFrom kept.length (segs.map stepOf) := by
  fun_induction removeDots kept segs with
  | case1 kept => simp [countFrom]
  | case2 kept segment h => simp [countFrom, h]
  | case3 kept segment h => simp [countFrom, h]
  | case4 kept segment h => simp [countFrom, h]
  | case5 kept segment next rest h ih => simpa [countFrom, h, depthAfter] using ih
  | case6 kept segment next rest h ih => simpa [countFrom, h, depthAfter] using ih
  | case7 kept segment next rest h ih => simpa [countFrom, h, depthAfter] using ih

/-- Steps with what becomes of each leave the same number of segments.  `behind`
    tells whether a changed step stands before that the path, which is `depth`
    deep without the changes, has not come back to the root from. -/
def settles : Bool → Nat → List (Step × Step) → Bool
  | _, _, [] => true
  | behind, depth, [(step, changed)] =>
    if behind then step == .dotdot && changed == .dotdot && depth == 1
    else step == changed || changed == .dot || (changed == .dotdot && depth == 0)
  | behind, depth, (step, changed) :: next :: rest =>
    settles ((behind || step != changed) && depthAfter depth step != 0) (depthAfter depth step)
      (next :: rest)

/-- One step keeps the order of the depths with and without the changes, and the
    two meet at the root. -/
theorem depthAfter_changed {behind : Bool} {depth depth' : Nat} {step changed : Step}
    (hstep : step = changed ∨ step = .plain)
    (hdepth : if behind then depth' < depth else depth' = depth) :
    if (behind || step != changed) && depthAfter depth step != 0 then
      depthAfter depth' changed < depthAfter depth step
    else depthAfter depth' changed = depthAfter depth step := by
  rcases hstep with rfl | rfl
  · cases behind with
    | false =>
      obtain rfl : depth' = depth := hdepth
      simp
    | true =>
      replace hdepth : depth' < depth := hdepth
      by_cases hroot : depthAfter depth step = 0
      · simp only [hroot, bne_self_eq_false, Bool.and_false, Bool.false_eq_true, if_false]
        cases step with
        | plain => cases hroot
        | _ => simp only [depthAfter] at hroot ⊢; omega
      · simp only [Bool.true_or, Bool.true_and, bne_iff_ne, ne_eq, hroot, not_false_iff, if_true]
        cases step with
        | _ => simp only [depthAfter] at hroot ⊢; omega
  · have hle : depth' ≤ depth := by
      cases behind with
      | false => exact Nat.le_of_eq hdepth
      | true => exact Nat.le_of_lt hdepth
    have hnot : depthAfter depth .plain ≠ 0 := Nat.succ_ne_zero depth
    cases changed with
    | plain =>
      cases behind with
      | false =>
        obtain rfl : depth' = depth := hdepth
        simp
      | true =>
        replace hdepth : depth' < depth := hdepth
        simpa [depthAfter] using hdepth
    | dot => simpa [depthAfter] using Nat.lt_succ_of_le hle
    | dotdot =>
      have hlt : depth' - 1 < depth + 1 := by omega
      simpa [depthAfter] using hlt

/-- Changing plain steps keeps the number of segments exactly where the path comes
    back to the root behind every change, or the change is the last step and
    takes nothing off. -/
theorem countFrom_eq_iff {steps : List (Step × Step)}
    (h : ∀ s ∈ steps, s.1 = s.2 ∨ s.1 = .plain) {behind : Bool} {depth depth' : Nat}
    (hdepth : if behind then depth' < depth else depth' = depth) (hne : steps ≠ []) :
    countFrom depth' (steps.map Prod.snd) = countFrom depth (steps.map Prod.fst) ↔
      settles behind depth steps = true := by
  fun_induction settles behind depth steps generalizing depth' with
  | case1 => exact absurd rfl hne
  | case2 depth step changed =>
    -- behind a change the depths differ, and only a last step to the root meets
    have hstep : step = changed ∨ step = .plain := h _ List.mem_cons_self
    replace hdepth : depth' < depth := hdepth
    rcases hstep with rfl | rfl
    · cases step with
      | plain => simp [countFrom]; omega
      | dot => simp [countFrom]; omega
      | dotdot => simp [countFrom]; omega
    · cases changed with
      | plain => simp [countFrom]; omega
      | dot => simp [countFrom]; omega
      | dotdot => simp [countFrom]; omega
  | case3 behind depth step changed hbehind =>
    have hstep : step = changed ∨ step = .plain := h _ List.mem_cons_self
    rw [if_neg hbehind] at hdepth
    subst hdepth
    rcases hstep with rfl | rfl
    · simp
    · cases changed with
      | plain => simp
      | dot => simp [countFrom]
      | dotdot => simp [countFrom]; omega
  | case4 behind depth step changed next rest ih =>
    exact ih (fun s hs => h s (List.mem_cons_of_mem _ hs))
      (depthAfter_changed (h _ List.mem_cons_self) hdepth) (List.cons_ne_nil next rest)

/-! ## Keys of a query -/

/-- The keys of a query, in order: what stands before the equals sign in each of
    its parts. -/
def keysIn (query : List Char) : List (List Char) :=
  (query.splitOnP (· == '&')).map fun part => part.takeWhile fun c => !(c == '=')

/-- The number of segments of a URL's path. -/
def segmentCount (url : List Char) : Nat := (removeDots [] (segments (parse url).path)).length

def queryKeys (url : List Char) : List (List Char) := ((parse url).query.map keysIn).getD []

/-- Two URLs with one structure: scheme, authority, number of path segments and
    query keys. -/
structure SameShape (url url' : List Char) : Prop where
  scheme : (parse url).scheme = (parse url').scheme
  authority : (parse url).authority = (parse url').authority
  segments : segmentCount url = segmentCount url'
  keys : ∀ key, key ∈ queryKeys url ↔ key ∈ queryKeys url'

/-! ## A scheme and an authority that are written out -/

theorem splitScheme_written {scheme : List Char} (hne : scheme ≠ [])
    (h : ∀ c ∈ scheme, endsScheme c = false) (rest : List Char) :
    splitScheme (scheme ++ ':' :: rest) = (some scheme, rest) := by
  have hpos : ∀ c ∈ scheme, (!endsScheme c) = true := fun c hc => by rw [h c hc]; rfl
  have htake : (scheme ++ ':' :: rest).takeWhile (fun c => !endsScheme c) = scheme := by
    rw [List.takeWhile_append_of_pos hpos]
    simp [endsScheme]
  have hdrop : (scheme ++ ':' :: rest).dropWhile (fun c => !endsScheme c) = ':' :: rest := by
    rw [List.dropWhile_append_of_pos hpos]
    simp [endsScheme]
  obtain ⟨c, scheme', rfl⟩ := List.exists_cons_of_ne_nil hne
  rw [splitScheme, htake, hdrop]
  rfl

theorem splitAuthority_written {host tail : List Char} (h : ∀ c ∈ host, endsAuthority c = false)
    (htail : ∀ c ∈ tail.head?, endsAuthority c = true) :
    splitAuthority ('/' :: '/' :: (host ++ tail)) = (some host, tail) := by
  have hpos : ∀ c ∈ host, (!endsAuthority c) = true := fun c hc => by rw [h c hc]; rfl
  rw [splitAuthority, List.takeWhile_append_of_pos hpos, List.dropWhile_append_of_pos hpos]
  cases tail with
  | nil => simp
  | cons c tail =>
    have hc : endsAuthority c = true := htail c rfl
    simp [hc]

/-- A URL that writes its scheme and its host out. -/
theorem parse_written {scheme host tail : List Char} (hne : scheme ≠ [])
    (hscheme : ∀ c ∈ scheme, endsScheme c = false) (hhost : ∀ c ∈ host, endsAuthority c = false)
    (htail : ∀ c ∈ tail.head?, endsAuthority c = true) :
    parse (scheme ++ ':' :: '/' :: '/' :: (host ++ tail)) =
      ⟨some scheme, some host, pathOf tail, queryOf tail⟩ := by
  rw [parse, splitScheme_written hne hscheme, splitAuthority_written hhost htail]

/-! ## Escapes -/

/-- The characters that delimit the components of a URL and of its query. -/
def isDelimiter (c : Char) : Bool :=
  c == ':' || c == '/' || c == '?' || c == '#' || c == '&' || c == '='

/-- The characters that `url.QueryEscape` leaves as they are. -/
def isUnreserved (c : Char) : Bool :=
  c.isAlphanum || c == '-' || c == '_' || c == '.' || c == '~'

def upperHex (n : Nat) : Char := Char.ofNat (if n < 10 then 48 + n else 55 + n)

def escapeByte (b : UInt8) : List Char := ['%', upperHex (b.toNat / 16), upperHex (b.toNat % 16)]

/-- `url.QueryEscape` of one character, byte by byte of its UTF-8 encoding. -/
def queryEscapeChar (c : Char) : List Char :=
  if isUnreserved c then [c]
  else if c = ' ' then ['+']
  else (String.utf8EncodeChar c).flatMap escapeByte

def queryEscape (cs : List Char) : List Char := cs.flatMap queryEscapeChar

theorem isDelimiter_upperHex {n : Nat} (h : n < 16) : isDelimiter (upperHex n) = false :=
  (by decide : ∀ n < 16, isDelimiter (upperHex n) = false) n h

theorem isDelimiter_of_isUnreserved {c : Char} (h : isUnreserved c = true) :
    isDelimiter c = false := by
  by_contra hc
  simp only [isDelimiter, Bool.not_eq_false, Bool.or_eq_true, beq_iff_eq] at hc
  rcases hc with ((((rfl | rfl) | rfl) | rfl) | rfl) | rfl <;> exact absurd h (by decide)

/-- An escaped text delimits nothing. -/
theorem isDelimiter_of_mem_queryEscape {c : Char} {cs : List Char} (h : c ∈ queryEscape cs) :
    isDelimiter c = false := by
  obtain ⟨d, -, hd⟩ := List.mem_flatMap.mp h
  by_cases hplain : isUnreserved d = true
  · rw [queryEscapeChar, if_pos hplain, List.mem_singleton] at hd
    subst hd
    exact isDelimiter_of_isUnreserved hplain
  rw [queryEscapeChar, if_neg hplain] at hd
  by_cases hspace : d = ' '
  · rw [if_pos hspace, List.mem_singleton] at hd
    subst hd
    decide
  rw [if_neg hspace] at hd
  obtain ⟨b, -, hb⟩ := List.mem_flatMap.mp hd
  have hbyte : b.toNat < 256 := b.toNat_lt_size
  simp only [escapeByte, List.mem_cons, List.not_mem_nil, or_false] at hb
  rcases hb with rfl | rfl | rfl
  · decide
  · exact isDelimiter_upperHex (by omega)
  · exact isDelimiter_upperHex (Nat.mod_lt _ (by decide))

end Url
