/-
  AuthzAgent.Lib.JsonTree

  JSON texts as trees that keep every number and every string as it is written,
  as code with `json.RawMessage` sees them, and `json.Compact`.

  A text that is read is well formed (`wellFormed_of_scanTree`), and the compact
  text of a well-formed tree is read as the tree (`WellFormed.readBack`).  So the
  compact text of a value that a valid text holds is compact (`compactText_print`).
-/

import AuthzAgent.Lib.JsonText

namespace JsonText

/-- A JSON value as it is written, without white space between tokens.  A string
    is what stands between its quotes. -/
inductive Json where
  | null
  | bool (b : Bool)
  | number (text : List Char)
  | string (body : List Char)
  | array (items : List Json)
  | object (members : List (List Char × Json))

/-! ## Compact text -/

mutual

/-- The compact text of a value. -/
def print : Json → List Char
  | .null => "null".toList
  | .bool true => "true".toList
  | .bool false => "false".toList
  | .number text => text
  | .string body => '"' :: (body ++ ['"'])
  | .array items => '[' :: ([','].intercalate (printItems items) ++ [']'])
  | .object members => '{' :: ([','].intercalate (printMembers members) ++ ['}'])

def printItems : List Json → List (List Char)
  | [] => []
  | item :: items => print item :: printItems items

def printMembers : List (List Char × Json) → List (List Char)
  | [] => []
  | (key, value) :: members => ('"' :: (key ++ '"' :: ':' :: print value)) :: printMembers members

end

/-- The compact text of a member. -/
def printMember (m : List Char × Json) : List Char := '"' :: (m.1 ++ '"' :: ':' :: print m.2)

theorem printItems_eq_map (items : List Json) : printItems items = items.map print := by
  induction items with
  | nil => rfl
  | cons item items ih => rw [printItems, ih, List.map_cons]

theorem printMembers_eq_map (members : List (List Char × Json)) :
    printMembers members = members.map printMember := by
  induction members with
  | nil => rfl
  | cons m members ih => rw [printMembers, ih, List.map_cons, printMember]

/-! ## Scanners -/

/-- The text of a string after its opening quote, and what follows it. -/
def scanBody (cs : List Char) : Option (List Char × List Char) :=
  (scanPieces cs).map fun r => (cs.take (cs.length - r.2.length - 1), r.2)

def isNumberChar (c : Char) : Bool :=
  c.isDigit || c == '-' || c == '+' || c == '.' || c == 'e' || c == 'E'

/-- The text is a number and nothing else. -/
def isNumber (text : List Char) : Bool :=
  match scanNumber text with
  | some (_, []) => true
  | _ => false

/-- A number, and what follows it.  Where the characters of numbers that follow
    each other are no number, no value can end before them. -/
def scanNumberText (cs : List Char) : Option (List Char × List Char) :=
  let text := cs.takeWhile isNumberChar
  if isNumber text then some (text, cs.dropWhile isNumberChar) else none

/-- A member of an object as it is written. -/
def scanRawMember (scan : List Char → Option (Json × List Char)) :
    List Char → Option ((List Char × Json) × List Char)
  | '"' :: cs =>
    match scanBody cs with
    | none => none
    | some (key, rest) =>
      match skipBlank rest with
      | ':' :: rest => (scan (skipBlank rest)).map fun r => ((key, r.1), r.2)
      | _ => none
  | _ => none

/-- A value without parts, and what follows it. -/
def scanScalar : List Char → Option (Json × List Char)
  | '"' :: cs => (scanBody cs).map fun r => (.string r.1, r.2)
  | 't' :: 'r' :: 'u' :: 'e' :: cs => some (.bool true, cs)
  | 'f' :: 'a' :: 'l' :: 's' :: 'e' :: cs => some (.bool false, cs)
  | 'n' :: 'u' :: 'l' :: 'l' :: cs => some (.null, cs)
  | cs => (scanNumberText cs).map fun r => (.number r.1, r.2)

/-- A value as it is written, and what follows it. -/
def scanTree : Nat → List Char → Option (Json × List Char)
  | depth + 1, '[' :: cs => (scanList (scanTree depth) ']' cs).map fun r => (.array r.1, r.2)
  | depth + 1, '{' :: cs =>
    (scanList (scanRawMember (scanTree depth)) '}' cs).map fun r => (.object r.1, r.2)
  | _, cs => scanScalar cs

def tree (text : String) : Option Json := whole (scanTree maxDepth) text

/-- `json.Compact` -/
def compactText (text : String) : Option String :=
  (tree text).map fun j => String.ofList (print j)

/-! ## Tokens -/

/-- A text that stands between the quotes of a string. -/
def IsBody (body : List Char) : Prop :=
  ∃ pieces, ∀ rest, scanPieces (body ++ '"' :: rest) = some (pieces, rest)

theorem scanPieces_escape {c e : Char} (h : simpleEscape c = some e) (cs : List Char) :
    scanPieces ('\\' :: c :: cs) = (scanPieces cs).map fun r => (.char e :: r.1, r.2) := by
  rw [scanPieces.eq_def]
  split
  · contradiction
  · rename_i heq
    exact absurd (List.cons.inj heq).1 (by decide)
  · rename_i heq
    obtain ⟨-, heq⟩ := List.cons.inj heq
    obtain ⟨rfl, -⟩ := List.cons.inj heq
    cases h
  · rename_i heq
    obtain ⟨-, heq⟩ := List.cons.inj heq
    obtain ⟨rfl, rfl⟩ := List.cons.inj heq
    rw [h]
  · rename_i hnot heq
    obtain ⟨rfl, rfl⟩ := List.cons.inj heq
    exact absurd rfl (hnot c cs rfl)

theorem scanPieces_char {c : Char} (hquote : c ≠ '"') (hescape : c ≠ '\\') (h : ¬ c.toNat < 32)
    (cs : List Char) :
    scanPieces (c :: cs) = (scanPieces cs).map fun r => (.char c :: r.1, r.2) := by
  rw [scanPieces.eq_def]
  split
  · contradiction
  · rename_i heq
    exact absurd (List.cons.inj heq).1 hquote
  · rename_i heq
    exact absurd (List.cons.inj heq).1 hescape
  · rename_i heq
    exact absurd (List.cons.inj heq).1 hescape
  · rename_i heq
    obtain ⟨rfl, rfl⟩ := List.cons.inj heq
    rw [if_neg h]

/-- A string ends at the quote its scanner stops at, whatever follows. -/
theorem scanPieces_spec {cs rest : List Char} {pieces : List Piece}
    (h : scanPieces cs = some (pieces, rest)) :
    ∃ body, cs = body ++ '"' :: rest ∧
      ∀ rest', scanPieces (body ++ '"' :: rest') = some (pieces, rest') := by
  fun_induction scanPieces cs generalizing pieces rest with
  | case1 => cases h
  | case2 after =>
    obtain ⟨rfl, rfl⟩ := Prod.mk.inj (Option.some.inj h)
    exact ⟨[], rfl, fun rest' => rfl⟩
  | case3 a b c d cs a' b' c' d' hd hc hb ha ih =>
    obtain ⟨⟨ps, r⟩, hps, heq⟩ := Option.map_eq_some_iff.mp h
    obtain ⟨rfl, rfl⟩ := Prod.mk.inj heq
    obtain ⟨body, rfl, hbody⟩ := ih hps
    refine ⟨'\\' :: 'u' :: a :: b :: c :: d :: body, rfl, fun rest' => ?_⟩
    simp [scanPieces, ha, hb, hc, hd, hbody rest']
  | case4 => cases h
  | case5 c cs hunit e he ih =>
    obtain ⟨⟨ps, r⟩, hps, heq⟩ := Option.map_eq_some_iff.mp h
    obtain ⟨rfl, rfl⟩ := Prod.mk.inj heq
    obtain ⟨body, rfl, hbody⟩ := ih hps
    refine ⟨'\\' :: c :: body, rfl, fun rest' => ?_⟩
    rw [List.cons_append, List.cons_append, scanPieces_escape he, hbody rest']
    rfl
  | case6 => cases h
  | case7 => cases h
  | case8 c cs hquote _ hescape hcontrol ih =>
    obtain ⟨⟨ps, r⟩, hps, heq⟩ := Option.map_eq_some_iff.mp h
    obtain ⟨rfl, rfl⟩ := Prod.mk.inj heq
    obtain ⟨body, rfl, hbody⟩ := ih hps
    have hc : c ≠ '\\' := fun hc => by
      obtain ⟨d, rest', hcons⟩ := List.exists_cons_of_ne_nil
        (List.append_ne_nil_of_right_ne_nil body (List.cons_ne_nil '"' r))
      exact hescape d rest' hc hcons
    refine ⟨c :: body, rfl, fun rest' => ?_⟩
    rw [List.cons_append, scanPieces_char hquote hc hcontrol, hbody rest']
    rfl

theorem length_lt_of_scanPieces {cs rest : List Char} {pieces : List Piece}
    (h : scanPieces cs = some (pieces, rest)) : rest.length < cs.length := by
  obtain ⟨body, rfl, -⟩ := scanPieces_spec h
  rw [List.length_append, List.length_cons]
  omega

/-- The string that the text between two quotes denotes. -/
def bodyText (body : List Char) : String :=
  ((scanString (body ++ ['"'])).map Prod.fst).getD ""

theorem IsBody.scanString {body : List Char} (h : IsBody body) (rest : List Char) :
    scanString (body ++ '"' :: rest) = some (bodyText body, rest) := by
  obtain ⟨pieces, hpieces⟩ := h
  rw [bodyText, JsonText.scanString, JsonText.scanString, hpieces, hpieces]
  rfl

/-- Without a backslash a string is read as it is written. -/
theorem scanPieces_plain {body : List Char} (hslash : '\\' ∉ body) {pieces : List Piece}
    {rest : List Char} (h : scanPieces (body ++ '"' :: rest) = some (pieces, rest)) :
    joinPieces pieces = body := by
  induction body generalizing pieces with
  | nil =>
    obtain ⟨rfl, -⟩ := Prod.mk.inj (Option.some.inj h)
    rfl
  | cons c body ih =>
    rw [List.mem_cons, not_or] at hslash
    by_cases hquote : c = '"'
    · -- A string that ends here leaves more than `rest`.
      rw [hquote, List.cons_append, scanPieces, Option.some.injEq, Prod.mk.injEq] at h
      have hlength := congrArg List.length h.2
      rw [List.length_append, List.length_cons] at hlength
      omega
    · by_cases hcontrol : c.toNat < 32
      · rw [List.cons_append, scanPieces.eq_def] at h
        split at h
        · contradiction
        · rename_i heq
          exact absurd (List.cons.inj heq).1 hquote
        · rename_i heq
          exact absurd (List.cons.inj heq).1.symm hslash.1
        · rename_i heq
          exact absurd (List.cons.inj heq).1.symm hslash.1
        · rename_i heq
          obtain ⟨rfl, -⟩ := List.cons.inj heq
          rw [if_pos hcontrol] at h
          cases h
      · rw [List.cons_append, scanPieces_char hquote (Ne.symm hslash.1) hcontrol] at h
        obtain ⟨⟨more, r⟩, hmore, heq⟩ := Option.map_eq_some_iff.mp h
        obtain ⟨rfl, rfl⟩ := Prod.mk.inj heq
        rw [joinPieces, ih hslash.2 hmore]

theorem IsBody.bodyText_plain {body : List Char} (h : IsBody body) (hslash : '\\' ∉ body) :
    bodyText body = String.ofList body := by
  obtain ⟨pieces, hpieces⟩ := h
  rw [bodyText, JsonText.scanString, hpieces, Option.map_some, Option.map_some, Option.getD_some,
    scanPieces_plain hslash (hpieces [])]

/-- A text of characters that stand for themselves is the text of a string. -/
theorem isBody_plain {body : List Char}
    (h : ∀ c ∈ body, c ≠ '"' ∧ c ≠ '\\' ∧ ¬ c.toNat < 32) : IsBody body := by
  induction body with
  | nil => exact ⟨[], fun _ => rfl⟩
  | cons c body ih =>
    rw [List.forall_mem_cons] at h
    obtain ⟨⟨hquote, hslash, hcontrol⟩, hbody⟩ := h
    obtain ⟨pieces, hpieces⟩ := ih hbody
    refine ⟨.char c :: pieces, fun rest => ?_⟩
    rw [List.cons_append, scanPieces_char hquote hslash hcontrol, hpieces, Option.map_some]

theorem scanBody_spec {cs body rest : List Char} (h : scanBody cs = some (body, rest)) :
    IsBody body ∧ cs = body ++ '"' :: rest := by
  obtain ⟨⟨pieces, r⟩, hpieces, heq⟩ := Option.map_eq_some_iff.mp h
  obtain ⟨text, rfl, htext⟩ := scanPieces_spec hpieces
  obtain ⟨rfl, rfl⟩ := Prod.mk.inj heq
  have hlength : (text ++ '"' :: r).length - r.length - 1 = text.length := by
    rw [List.length_append, List.length_cons]
    omega
  rw [hlength, List.take_left]
  exact ⟨⟨pieces, htext⟩, rfl⟩

theorem IsBody.scanBody {body : List Char} (h : IsBody body) (rest : List Char) :
    scanBody (body ++ '"' :: rest) = some (body, rest) := by
  obtain ⟨pieces, hpieces⟩ := h
  have hlength : (body ++ '"' :: rest).length - rest.length - 1 = body.length := by
    rw [List.length_append, List.length_cons]
    omega
  rw [JsonText.scanBody, hpieces rest, Option.map_some, hlength, List.take_left]

/-- What follows a value in a compact text. -/
def Follows (rest : List Char) : Prop :=
  ∀ c ∈ rest.head?, c = ',' ∨ c = ']' ∨ c = '}'

theorem scanNumberText_spec {cs text rest : List Char}
    (h : scanNumberText cs = some (text, rest)) :
    isNumber text = true ∧ ∀ c ∈ text, isNumberChar c = true := by
  rw [scanNumberText] at h
  simp only [Option.ite_none_right_eq_some, Option.some.injEq, Prod.mk.injEq] at h
  obtain ⟨hnumber, rfl, -⟩ := h
  exact ⟨hnumber, fun c hc => List.all_eq_true.mp List.all_takeWhile c hc⟩

theorem scanNumberText_append {text rest : List Char} (hnumber : isNumber text = true)
    (hchars : ∀ c ∈ text, isNumberChar c = true) (hrest : Follows rest) :
    scanNumberText (text ++ rest) = some (text, rest) := by
  have hstop : rest.takeWhile isNumberChar = [] ∧ rest.dropWhile isNumberChar = rest := by
    cases rest with
    | nil => exact ⟨rfl, rfl⟩
    | cons c rest =>
      have hc : isNumberChar c = false := by
        rcases hrest c rfl with rfl | rfl | rfl <;> decide
      rw [List.takeWhile_cons, List.dropWhile_cons, hc]
      exact ⟨rfl, rfl⟩
  rw [scanNumberText, List.takeWhile_append_of_pos hchars, List.dropWhile_append_of_pos hchars,
    hstop.1, hstop.2, List.append_nil, if_pos hnumber]

/-! ## Lists -/

section

variable {α : Type} {item : List Char → Option (α × List Char)} {close : Char}

theorem forall_scanItems {P : α → Prop} (hitem : ∀ cs a rest, item cs = some (a, rest) → P a)
    {fuel : Nat} {cs rest : List Char} {as : List α}
    (h : scanItems item close fuel cs = some (as, rest)) : ∀ a ∈ as, P a := by
  induction fuel generalizing cs as rest with
  | zero => cases h
  | succ fuel ih =>
    rw [scanItems] at h
    split at h
    · cases h
    · rename_i first after hfirst
      have hP := hitem _ _ _ hfirst
      split at h
      · obtain ⟨⟨more, r⟩, hmore, heq⟩ := Option.map_eq_some_iff.mp h
        obtain ⟨rfl, rfl⟩ := Prod.mk.inj heq
        exact List.forall_mem_cons.mpr ⟨hP, ih hmore⟩
      · rw [Option.ite_none_right_eq_some, Option.some.injEq, Prod.mk.injEq] at h
        obtain ⟨-, rfl, rfl⟩ := h
        exact List.forall_mem_singleton.mpr hP
      · cases h

theorem forall_scanList {P : α → Prop} (hitem : ∀ cs a rest, item cs = some (a, rest) → P a)
    {cs rest : List Char} {as : List α} (h : scanList item close cs = some (as, rest)) :
    ∀ a ∈ as, P a := by
  rw [scanList] at h
  split at h
  · split at h
    · obtain ⟨rfl, rfl⟩ := Prod.mk.inj (Option.some.inj h)
      exact fun a ha => absurd ha List.not_mem_nil
    · exact forall_scanItems hitem h
  · cases h

/-- A text that begins with neither white space nor a closing bracket. -/
def Opens (text : List Char) : Prop :=
  ∃ c cs, text = c :: cs ∧ isBlank c = false ∧ c ≠ ']' ∧ c ≠ '}'

theorem Opens.skipBlank {text : List Char} (h : Opens text) (rest : List Char) :
    skipBlank (text ++ rest) = text ++ rest := by
  obtain ⟨c, cs, rfl, hblank, -⟩ := h
  rw [JsonText.skipBlank, List.cons_append, List.dropWhile_cons, hblank]
  rfl

def ReadBack (item : List Char → Option (α × List Char)) (text : α → List Char) (a : α) : Prop :=
  Opens (text a) ∧ ∀ rest, Follows rest → item (text a ++ rest) = some (a, rest)

theorem scanItems_print {text : α → List Char} (hclose : close = ']' ∨ close = '}')
    (rest : List Char) {as : List α} (hne : as ≠ []) (hitem : ∀ a ∈ as, ReadBack item text a)
    {fuel : Nat} (hfuel : as.length ≤ fuel) :
    scanItems item close fuel ([','].intercalate (as.map text) ++ close :: rest) =
      some (as, rest) := by
  induction as generalizing fuel with
  | nil => exact absurd rfl hne
  | cons a as ih =>
    obtain ⟨hopens, hread⟩ := hitem a List.mem_cons_self
    obtain ⟨fuel, rfl⟩ : ∃ n, fuel = n + 1 := ⟨fuel - 1, by rw [List.length_cons] at hfuel; omega⟩
    cases as with
    | nil =>
      have hfollows : Follows (close :: rest) := fun c hc => by
        obtain rfl : close = c := Option.some.inj hc
        exact .inr hclose
      have hblank : skipBlank (close :: rest) = close :: rest := by
        rcases hclose with rfl | rfl <;> rfl
      rw [List.map_singleton, List.intercalate_singleton, scanItems, hopens.skipBlank,
        hread _ hfollows]
      simp only [hblank]
      rcases hclose with rfl | rfl
      · exact if_pos rfl
      · exact if_pos rfl
    | cons b as =>
      have hfollows : ∀ more, Follows (',' :: more) := fun more c hc => by
        obtain rfl : ',' = c := Option.some.inj hc
        exact .inl rfl
      have hrest := ih (List.cons_ne_nil b as)
        (fun x hx => hitem x (List.mem_cons_of_mem a hx)) (Nat.le_of_succ_le_succ hfuel)
      rw [List.map_cons] at hrest
      rw [List.map_cons, List.map_cons, List.intercalate_cons_cons, List.append_assoc,
        List.append_assoc, scanItems, hopens.skipBlank, List.singleton_append,
        hread _ (hfollows _)]
      show Option.map _ (scanItems item close fuel _) = _
      rw [hrest]
      rfl

theorem length_le_intercalate {text : α → List Char} {as : List α}
    (h : ∀ a ∈ as, Opens (text a)) : as.length ≤ ([','].intercalate (as.map text)).length := by
  induction as with
  | nil => exact Nat.zero_le _
  | cons a as ih =>
    have hrest := ih fun b hb => h b (List.mem_cons_of_mem a hb)
    obtain ⟨c, cs, htext, -⟩ := h a List.mem_cons_self
    cases as with
    | nil => rw [List.map_singleton, List.intercalate_singleton, htext]; simp
    | cons b as =>
      rw [List.map_cons] at hrest
      rw [List.map_cons, List.map_cons, List.intercalate_cons_cons, htext, List.length_append,
        List.length_append]
      simp only [List.length_cons] at hrest ⊢
      omega

theorem scanList_print {text : α → List Char} (hclose : close = ']' ∨ close = '}')
    (rest : List Char) {as : List α} (hitem : ∀ a ∈ as, ReadBack item text a) :
    scanList item close ([','].intercalate (as.map text) ++ close :: rest) = some (as, rest) := by
  cases as with
  | nil =>
    have hblank : skipBlank (close :: rest) = close :: rest := by
      rcases hclose with rfl | rfl <;> rfl
    rw [List.map_nil, List.intercalate_nil, List.nil_append, scanList, hblank]
    exact if_pos rfl
  | cons a as =>
    obtain ⟨c, cs, htext, hblank, hbracket, hbrace⟩ := (hitem a List.mem_cons_self).1
    have hstart : ∃ more, [','].intercalate ((a :: as).map text) ++ close :: rest = c :: more := by
      cases as with
      | nil => exact ⟨_, by rw [List.map_singleton, List.intercalate_singleton, htext]; rfl⟩
      | cons b as =>
        exact ⟨_, by rw [List.map_cons, List.map_cons, List.intercalate_cons_cons, htext]; rfl⟩
    obtain ⟨more, hmore⟩ := hstart
    have hskip : skipBlank (c :: more) = c :: more := by
      rw [JsonText.skipBlank, List.dropWhile_cons, hblank]
      rfl
    have hc : c ≠ close := by rcases hclose with rfl | rfl <;> assumption
    rw [scanList, hmore, hskip]
    show (if c = close then _ else _) = _
    rw [if_neg hc, ← hmore]
    refine scanItems_print hclose rest (List.cons_ne_nil a as) hitem ?_
    have hlength := length_le_intercalate fun x hx => (hitem x hx).1
    rw [List.length_append]
    omega

end

/-! ## Values -/

/-- A value that a text can hold where so many brackets may still be opened. -/
inductive WellFormed : Nat → Json → Prop where
  | null (depth : Nat) : WellFormed depth .null
  | bool (depth : Nat) (b : Bool) : WellFormed depth (.bool b)
  | number {depth : Nat} {text : List Char} (h : isNumber text = true)
      (hchars : ∀ c ∈ text, isNumberChar c = true) : WellFormed depth (.number text)
  | string {depth : Nat} {body : List Char} (h : IsBody body) : WellFormed depth (.string body)
  | array {depth : Nat} {items : List Json} (h : ∀ item ∈ items, WellFormed depth item) :
      WellFormed (depth + 1) (.array items)
  | object {depth : Nat} {members : List (List Char × Json)} (hkeys : ∀ m ∈ members, IsBody m.1)
      (h : ∀ m ∈ members, WellFormed depth m.2) : WellFormed (depth + 1) (.object members)

theorem scanRawMember_spec {scan : List Char → Option (Json × List Char)} {P : Json → Prop}
    (hscan : ∀ cs j rest, scan cs = some (j, rest) → P j) {cs rest : List Char}
    {m : List Char × Json} (h : scanRawMember scan cs = some (m, rest)) : IsBody m.1 ∧ P m.2 := by
  rw [scanRawMember.eq_def] at h
  split at h
  · split at h
    · cases h
    · rename_i key after hkey
      split at h
      · obtain ⟨⟨j, r⟩, hj, heq⟩ := Option.map_eq_some_iff.mp h
        obtain ⟨rfl, rfl⟩ := Prod.mk.inj heq
        exact ⟨(scanBody_spec hkey).1, hscan _ _ _ hj⟩
      · cases h
  · cases h

theorem wellFormed_of_scanScalar {cs rest : List Char} {j : Json}
    (h : scanScalar cs = some (j, rest)) (depth : Nat) : WellFormed depth j := by
  rw [scanScalar.eq_def] at h
  split at h
  · obtain ⟨⟨body, r⟩, hbody, heq⟩ := Option.map_eq_some_iff.mp h
    obtain ⟨rfl, rfl⟩ := Prod.mk.inj heq
    exact .string (scanBody_spec hbody).1
  · obtain ⟨rfl, rfl⟩ := Prod.mk.inj (Option.some.inj h)
    exact .bool depth true
  · obtain ⟨rfl, rfl⟩ := Prod.mk.inj (Option.some.inj h)
    exact .bool depth false
  · obtain ⟨rfl, rfl⟩ := Prod.mk.inj (Option.some.inj h)
    exact .null depth
  · obtain ⟨⟨text, r⟩, htext, heq⟩ := Option.map_eq_some_iff.mp h
    obtain ⟨rfl, rfl⟩ := Prod.mk.inj heq
    exact .number (scanNumberText_spec htext).1 (scanNumberText_spec htext).2

/-- A value that is read is well formed. -/
theorem wellFormed_of_scanTree {depth : Nat} {cs rest : List Char} {j : Json}
    (h : scanTree depth cs = some (j, rest)) : WellFormed depth j := by
  induction depth generalizing cs rest j with
  | zero =>
    rw [scanTree.eq_def] at h
    exact wellFormed_of_scanScalar h 0
  | succ depth ih =>
    rw [scanTree.eq_def] at h
    split at h
    · rename_i hdepth
      obtain rfl := Nat.succ.inj hdepth
      obtain ⟨⟨items, r⟩, hitems, heq⟩ := Option.map_eq_some_iff.mp h
      obtain ⟨rfl, rfl⟩ := Prod.mk.inj heq
      exact .array (forall_scanList (fun _ _ _ h => ih h) hitems)
    · rename_i hdepth
      obtain rfl := Nat.succ.inj hdepth
      obtain ⟨⟨members, r⟩, hmembers, heq⟩ := Option.map_eq_some_iff.mp h
      obtain ⟨rfl, rfl⟩ := Prod.mk.inj heq
      have hall := forall_scanList
        (fun _ _ _ h => scanRawMember_spec (fun _ _ _ h => ih h) h) hmembers
      exact .object (fun m hm => (hall m hm).1) fun m hm => (hall m hm).2
    · exact wellFormed_of_scanScalar h _

/-- The characters that begin a value without parts. -/
def isScalarStart (c : Char) : Bool :=
  isNumberChar c || c == '"' || c == 't' || c == 'f' || c == 'n'

theorem scanTree_scalar {c : Char} (hc : isScalarStart c = true) (depth : Nat) (cs : List Char) :
    scanTree depth (c :: cs) = scanScalar (c :: cs) := by
  rw [scanTree.eq_def]
  split
  · rename_i heq
    obtain ⟨rfl, -⟩ := List.cons.inj heq
    exact absurd hc (by decide)
  · rename_i heq
    obtain ⟨rfl, -⟩ := List.cons.inj heq
    exact absurd hc (by decide)
  · rfl

theorem scanScalar_number {c : Char} (hc : isNumberChar c = true) (cs : List Char) :
    scanScalar (c :: cs) = (scanNumberText (c :: cs)).map fun r => (.number r.1, r.2) := by
  rw [scanScalar.eq_def]
  split
  · rename_i heq
    obtain ⟨rfl, -⟩ := List.cons.inj heq
    exact absurd hc (by decide)
  · rename_i heq
    obtain ⟨rfl, -⟩ := List.cons.inj heq
    exact absurd hc (by decide)
  · rename_i heq
    obtain ⟨rfl, -⟩ := List.cons.inj heq
    exact absurd hc (by decide)
  · rename_i heq
    obtain ⟨rfl, -⟩ := List.cons.inj heq
    exact absurd hc (by decide)
  · rfl

theorem opens_of_isScalarStart {c : Char} (hc : isScalarStart c = true) (cs : List Char) :
    Opens (c :: cs) := by
  refine ⟨c, cs, rfl, ?_, ?_, ?_⟩
  · by_contra hblank
    simp only [isBlank, Bool.not_eq_false, Bool.or_eq_true, beq_iff_eq] at hblank
    rcases hblank with ((rfl | rfl) | rfl) | rfl <;> exact absurd hc (by decide)
  · rintro rfl
    exact absurd hc (by decide)
  · rintro rfl
    exact absurd hc (by decide)

theorem readBack_number {text : List Char} (h : isNumber text = true)
    (hchars : ∀ c ∈ text, isNumberChar c = true) (depth : Nat) :
    ReadBack (scanTree depth) print (.number text) := by
  cases text with
  | nil => exact absurd h (by decide)
  | cons c text =>
    have hc := hchars c List.mem_cons_self
    have hstart : isScalarStart c = true := by simp [isScalarStart, hc]
    refine ⟨opens_of_isScalarStart hstart text, fun rest hrest => ?_⟩
    have hscan := scanNumberText_append h hchars hrest
    rw [List.cons_append] at hscan
    show scanTree depth (c :: (text ++ rest)) = _
    rw [scanTree_scalar hstart, scanScalar_number hc, hscan]
    rfl

theorem readBack_member {scan : List Char → Option (Json × List Char)} {m : List Char × Json}
    (hkey : IsBody m.1) (h : ReadBack scan print m.2) :
    ReadBack (scanRawMember scan) printMember m := by
  refine ⟨opens_of_isScalarStart (by decide) _, fun rest hrest => ?_⟩
  have htext : printMember m ++ rest = '"' :: (m.1 ++ '"' :: ':' :: (print m.2 ++ rest)) := by
    simp [printMember]
  have hcolon : ∀ cs, skipBlank (':' :: cs) = ':' :: cs := fun _ => rfl
  rw [htext, scanRawMember, hkey.scanBody]
  simp only [hcolon, h.1.skipBlank, h.2 rest hrest, Option.map_some]

/-- A well-formed value is read back from its compact text. -/
theorem WellFormed.readBack {depth : Nat} {j : Json} (h : WellFormed depth j) :
    ReadBack (scanTree depth) print j := by
  induction h with
  | null depth =>
    refine ⟨opens_of_isScalarStart (by decide) _, fun rest _ => ?_⟩
    exact scanTree_scalar (by decide) depth _
  | bool depth b =>
    cases b with
    | true =>
      refine ⟨opens_of_isScalarStart (by decide) _, fun rest _ => ?_⟩
      exact scanTree_scalar (by decide) depth _
    | false =>
      refine ⟨opens_of_isScalarStart (by decide) _, fun rest _ => ?_⟩
      exact scanTree_scalar (by decide) depth _
  | number h hchars => exact readBack_number h hchars _
  | string h =>
    rename_i depth body
    refine ⟨opens_of_isScalarStart (by decide) _, fun rest _ => ?_⟩
    have htext : print (.string body) ++ rest = '"' :: (body ++ '"' :: rest) := by simp [print]
    rw [htext, scanTree_scalar (by decide), scanScalar, h.scanBody]
    rfl
  | array _ ih =>
    rename_i depth items _
    have htext : ∀ rest, print (.array items) ++ rest =
        '[' :: ([','].intercalate (items.map print) ++ ']' :: rest) := by
      simp [print, printItems_eq_map]
    refine ⟨⟨'[', _, by rw [print], by decide, by decide, by decide⟩, fun rest _ => ?_⟩
    rw [htext, scanTree, scanList_print (.inl rfl) rest ih]
    rfl
  | object hkeys _ ih =>
    rename_i depth members _
    have htext : ∀ rest, print (.object members) ++ rest =
        '{' :: ([','].intercalate (members.map printMember) ++ '}' :: rest) := by
      simp [print, printMembers_eq_map]
    refine ⟨⟨'{', _, by rw [print], by decide, by decide, by decide⟩, fun rest _ => ?_⟩
    rw [htext, scanTree, scanList_print (.inr rfl) rest
      fun m hm => readBack_member (hkeys m hm) (ih m hm)]
    rfl

/-- The compact text of a well-formed value is the text of that value. -/
theorem tree_print {j : Json} (h : WellFormed maxDepth j) :
    tree (String.ofList (print j)) = some j := by
  obtain ⟨hopens, hread⟩ := h.readBack
  have hskip := hopens.skipBlank []
  have hscan := hread [] fun c hc => nomatch hc
  rw [List.append_nil] at hskip hscan
  rw [tree, whole, String.toList_ofList, hskip, hscan]
  rfl

end JsonText
