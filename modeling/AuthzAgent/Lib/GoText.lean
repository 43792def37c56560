/-
  AuthzAgent.Lib.GoText

  The part of Go's `strings`, `unicode` and `sort` packages that text
  processing code uses, over lists of characters.  A Go string that holds
  valid UTF-8 is read here as its characters: every byte the functions look
  for is ASCII, and no ASCII byte occurs inside the encoding of another
  character.

  The case tables of Unicode are a parameter (`Unicode`).  Its fields say what
  the tables of Go's `unicode` package are documented to do on ASCII, and
  that no character outside the letters has an ASCII character as its upper
  case.  `Unicode.ascii` is the table restricted to ASCII.
-/

import Mathlib

namespace GoText

/-! ## White space -/

/-- `unicode.IsSpace`: the characters with the White_Space property. -/
def isSpace (c : Char) : Bool :=
  c.toNat ∈ [0x09, 0x0a, 0x0b, 0x0c, 0x0d, 0x20, 0x85, 0xa0, 0x1680, 0x2028, 0x2029,
    0x202f, 0x205f, 0x3000] ||
  (0x2000 ≤ c.toNat && c.toNat ≤ 0x200a)

/-- `strings.TrimSpace` on characters. -/
def trimChars (cs : List Char) : List Char :=
  (cs.dropWhile isSpace).rdropWhile isSpace

def trimSpace (s : String) : String :=
  String.ofList (trimChars s.toList)

/-- A list without white space at either end is its own trim. -/
theorem trimChars_eq_self {cs : List Char}
    (hhead : ∀ h : cs ≠ [], isSpace (cs.head h) = false)
    (hlast : ∀ h : cs ≠ [], isSpace (cs.getLast h) = false) :
    trimChars cs = cs := by
  cases cs with
  | nil => rfl
  | cons c rest =>
    have hc : isSpace c = false := hhead (List.cons_ne_nil c rest)
    have hdrop : (c :: rest).dropWhile isSpace = c :: rest := by
      rw [List.dropWhile_cons_of_neg (by simp [hc])]
    rw [trimChars, hdrop, List.rdropWhile_eq_self_iff]
    intro hne
    simp [hlast hne]

@[simp] theorem trimSpace_empty : trimSpace "" = "" := by
  simp [trimSpace, trimChars]

theorem mem_dropWhile_iff {c : Char} {p : Char → Bool} (hc : p c = false) {cs : List Char} :
    c ∈ cs.dropWhile p ↔ c ∈ cs := by
  constructor
  · exact fun h => (List.dropWhile_sublist p).subset h
  · intro h
    rw [← List.takeWhile_append_dropWhile (p := p) (l := cs), List.mem_append] at h
    refine h.resolve_left fun htake => ?_
    rw [List.mem_takeWhile_imp htake] at hc
    exact absurd hc (by decide)

/-- Trimming loses nothing but white space. -/
theorem mem_trimSpace_iff {c : Char} (hc : isSpace c = false) {s : String} :
    c ∈ (trimSpace s).toList ↔ c ∈ s.toList := by
  rw [trimSpace, String.toList_ofList, trimChars, List.rdropWhile, List.mem_reverse,
    mem_dropWhile_iff hc, List.mem_reverse, mem_dropWhile_iff hc]

/-! ## Letter case -/

/-- The case tables of Go's `unicode` package. -/
structure Unicode where
  upper : Char → Char
  lower : Char → Char
  upper_ascii : ∀ c : Char, c.toNat < 128 → upper c = c.toUpper
  lower_ascii : ∀ c : Char, c.toNat < 128 → lower c = c.toLower
  /-- Only a letter has an upper case other than itself. -/
  upper_eq_self : ∀ c : Char, (upper c).toNat < 128 → (upper c).isAlpha = false → upper c = c

namespace Unicode

variable (U : Unicode)

/-- `strings.ToUpper`, which is also Rego's `upper`. -/
def toUpper (s : String) : String := String.ofList (s.toList.map U.upper)

/-- `strings.ToLower`, which is also Rego's `lower`. -/
def toLower (s : String) : String := String.ofList (s.toList.map U.lower)

theorem mem_toUpper_iff {c : Char} (hascii : c.toNat < 128) (halpha : c.isAlpha = false)
    (s : String) : c ∈ (U.toUpper s).toList ↔ c ∈ s.toList := by
  simp only [toUpper, String.toList_ofList, List.mem_map]
  constructor
  · rintro ⟨d, hd, rfl⟩
    rw [U.upper_eq_self d hascii halpha]
    exact hd
  · intro hc
    refine ⟨c, hc, ?_⟩
    rw [U.upper_ascii c hascii, Char.toUpper]
    have hlow : ¬ ('a'.val ≤ c.val ∧ c.val ≤ 'z'.val) := by
      rintro ⟨h1, h2⟩
      have hlower : c.isLower = true := by
        simp only [Char.isLower, Bool.and_eq_true, decide_eq_true_eq]
        exact ⟨h1, h2⟩
      simp [Char.isAlpha, hlower] at halpha
    rw [dif_neg hlow]

theorem toLower_eq_self {s : String}
    (h : (s.toList.all fun c => c.toNat < 128 && c.toLower == c) = true) : U.toLower s = s := by
  have hmap : s.toList.map U.lower = s.toList.map id := by
    refine List.map_congr_left fun c hc => ?_
    have hlower := List.all_eq_true.mp h c hc
    rw [Bool.and_eq_true, decide_eq_true_iff, beq_iff_eq] at hlower
    exact (U.lower_ascii c hlower.1).trans hlower.2
  rw [toLower, hmap, List.map_id, String.ofList_toList]

theorem upper_self (c : Char) (_ : c.toUpper.toNat < 128) (halpha : c.toUpper.isAlpha = false) :
    c.toUpper = c := by
  by_cases hlow : 'a'.val ≤ c.val ∧ c.val ≤ 'z'.val
  · exfalso
    rw [Char.toUpper, dif_pos hlow] at halpha
    simp only [Char.isAlpha, Char.isUpper, Char.isLower, Bool.or_eq_false_iff,
      decide_eq_false_iff_not] at halpha
    apply halpha.1
    obtain ⟨h1, h2⟩ := hlow
    have h1' : 97 ≤ c.val.toNat := h1
    have h2' : c.val.toNat ≤ 122 := h2
    have hval : (c.val + ('A'.val - 'a'.val)).toNat = c.val.toNat - 32 := by
      rw [UInt32.toNat_add, show ('A'.val - 'a'.val).toNat = 4294967264 from by decide]
      omega
    constructor
    · show 65 ≤ (c.val + ('A'.val - 'a'.val)).toNat
      omega
    · show (c.val + ('A'.val - 'a'.val)).toNat ≤ 90
      omega
  · rw [Char.toUpper, dif_neg hlow]

/-- The tables on ASCII, and no case elsewhere. -/
def ascii : Unicode := ⟨Char.toUpper, Char.toLower, fun _ _ => rfl, fun _ _ => rfl, upper_self⟩

end Unicode

/-- Whether a character and an ASCII letter are one under simple folding.  The
    classes of `s` and `k` have a third member each: the long s (U+017F) and
    the Kelvin sign (U+212A). -/
def foldEq (c a : Char) : Bool :=
  c.toLower == a.toLower ||
  (a.toLower == 's' && c.toNat == 0x17f) || (a.toLower == 'k' && c.toNat == 0x212a)

/-- `strings.EqualFold` against an ASCII literal, on characters. -/
def equalFoldChars : List Char → List Char → Bool
  | [], [] => true
  | c :: cs, a :: as => foldEq c a && equalFoldChars cs as
  | _, _ => false

def equalFold (s lit : String) : Bool := equalFoldChars s.toList lit.toList

/-- A letter with a given lower case is that letter or its upper case. -/
theorem eq_or_eq_toUpper {c d : Char} (h : c.toLower = d) : c = d ∨ c = d.toUpper := by
  by_cases hup : c.val ≥ 'A'.val ∧ c.val ≤ 'Z'.val
  · right
    have h1 : 65 ≤ c.val.toNat := hup.1
    have h2 : c.val.toNat ≤ 90 := hup.2
    have hd : d.val.toNat = c.val.toNat + 32 := by
      rw [← h, Char.toLower, dif_pos hup]
      show (c.val + ('a'.val - 'A'.val)).toNat = _
      rw [UInt32.toNat_add, show ('a'.val - 'A'.val).toNat = 32 from by decide]
      omega
    have hlow : d.val ≥ 'a'.val ∧ d.val ≤ 'z'.val := by
      constructor
      · show 97 ≤ d.val.toNat
        omega
      · show d.val.toNat ≤ 122
        omega
    apply Char.ext
    apply UInt32.toNat_inj.mp
    rw [Char.toUpper, dif_pos hlow]
    show _ = (d.val + ('A'.val - 'a'.val)).toNat
    rw [UInt32.toNat_add, show ('A'.val - 'a'.val).toNat = 4294967264 from by decide]
    omega
  · left
    rw [← h, Char.toLower, dif_neg hup]

/-- The long s and the Kelvin sign are no lower case of an ASCII character. -/
theorem toLower_ne_of_ascii {a c : Char} (ha : a.toNat < 128)
    (hc : c.toNat = 0x17f ∨ c.toNat = 0x212a) : c.toLower ≠ a.toLower := by
  have hself : c.toLower = c ∧ c.toUpper = c := by
    have hval : c.val.toNat = c.toNat := rfl
    constructor
    · rw [Char.toLower, dif_neg]
      rintro ⟨-, hle⟩
      have hle' : c.val.toNat ≤ 90 := hle
      omega
    · rw [Char.toUpper, dif_neg]
      rintro ⟨-, hle⟩
      have hle' : c.val.toNat ≤ 122 := hle
      omega
  intro heq
  rw [hself.1] at heq
  have hac : a = c := by
    rcases eq_or_eq_toUpper heq.symm with h | h
    · exact h
    · rw [h, hself.2]
  subst hac
  omega

/-- A character folds to one ASCII letter only. -/
theorem foldEq_unique {c a b : Char} (ha : a.toNat < 128) (hb : b.toNat < 128)
    (h : foldEq c a = true) (h' : foldEq c b = true) : a.toLower = b.toLower := by
  simp only [foldEq, Bool.or_eq_true, Bool.and_eq_true, beq_iff_eq] at h h'
  rcases h with (h | h) | h <;> rcases h' with (h' | h') | h'
  · rw [← h, ← h']
  · exact absurd h (toLower_ne_of_ascii ha (.inl h'.2))
  · exact absurd h (toLower_ne_of_ascii ha (.inr h'.2))
  · exact absurd h' (toLower_ne_of_ascii hb (.inl h.2))
  · rw [h.1, h'.1]
  · omega
  · exact absurd h' (toLower_ne_of_ascii hb (.inr h.2))
  · omega
  · rw [h.1, h'.1]

/-- Folding looks at a literal in lower case. -/
theorem equalFoldChars_congr {as bs : List Char} (h : as.map Char.toLower = bs.map Char.toLower)
    (cs : List Char) : equalFoldChars cs as = equalFoldChars cs bs := by
  induction cs generalizing as bs with
  | nil => cases as <;> cases bs <;> simp_all [equalFoldChars]
  | cons c cs ih =>
    cases as with
    | nil =>
      obtain rfl := List.map_eq_nil_iff.mp h.symm
      rfl
    | cons a as =>
      cases bs with
      | nil => simp at h
      | cons b bs =>
        obtain ⟨hab, htail⟩ := List.cons.inj h
        rw [equalFoldChars, equalFoldChars, foldEq, foldEq, hab, ih htail]

/-- A text equals one ASCII literal only, up to its letter case. -/
theorem equalFoldChars_unique {cs as bs : List Char} (ha : ∀ a ∈ as, a.toNat < 128)
    (hb : ∀ b ∈ bs, b.toNat < 128) (h : equalFoldChars cs as = true)
    (h' : equalFoldChars cs bs = true) : as.map Char.toLower = bs.map Char.toLower := by
  induction cs generalizing as bs with
  | nil =>
    cases as with
    | cons a as => cases h
    | nil =>
      cases bs with
      | cons b bs => cases h'
      | nil => rfl
  | cons c cs ih =>
    cases as with
    | nil => cases h
    | cons a as =>
      cases bs with
      | nil => cases h'
      | cons b bs =>
        rw [equalFoldChars, Bool.and_eq_true] at h h'
        rw [List.forall_mem_cons] at ha hb
        rw [List.map_cons, List.map_cons, foldEq_unique ha.1 hb.1 h.1 h'.1,
          ih ha.2 hb.2 h.2 h'.2]

/-! ## Ends of a text -/

/-- `strings.CutPrefix` -/
def cutFront (front s : String) : Option String :=
  if front.toList.isPrefixOf s.toList then some (String.ofList (s.toList.drop front.toList.length))
  else none

/-- `strings.CutSuffix` -/
def cutBack (back s : String) : Option String :=
  if back.toList.isSuffixOf s.toList then
    some (String.ofList (s.toList.take (s.toList.length - back.toList.length)))
  else none

theorem cutFront_eq_some {front s rest : String} :
    cutFront front s = some rest ↔ s = front ++ rest := by
  rw [cutFront]
  split_ifs with h
  · rw [List.isPrefixOf_iff_prefix] at h
    obtain ⟨cs, hcs⟩ := h
    rw [← hcs, List.drop_left, Option.some.injEq, ← String.toList_inj, ← String.toList_inj,
      String.toList_ofList, String.toList_append, ← hcs, List.append_cancel_left_eq]
  · simp only [false_iff]
    rintro rfl
    exact h (by simp)

theorem cutBack_eq_some {back s rest : String} :
    cutBack back s = some rest ↔ s = rest ++ back := by
  rw [cutBack]
  split_ifs with h
  · rw [List.isSuffixOf_iff_suffix] at h
    obtain ⟨cs, hcs⟩ := h
    have hlength : (cs ++ back.toList).length - back.toList.length = cs.length := by simp
    rw [← hcs, hlength, List.take_left, Option.some.injEq, ← String.toList_inj,
      ← String.toList_inj, String.toList_ofList, String.toList_append, ← hcs,
      List.append_cancel_right_eq]
  · simp only [false_iff]
    rintro rfl
    exact h (by simp)

/-! ## Numbers and byte offsets -/

/-- The value of a non-empty run of decimal digits. -/
def parseDigits (cs : List Char) : Option Nat :=
  if cs ≠ [] ∧ cs.all Char.isDigit then
    some (cs.foldl (fun n c => 10 * n + (c.toNat - '0'.toNat)) 0)
  else none

/-- `strconv.ParseInt(s, 10, 64)`. -/
def parseInt64 : List Char → Option Int
  | '-' :: cs => (parseDigits cs).bind fun n => if n ≤ 2 ^ 63 then some (-(n : Int)) else none
  | '+' :: cs => (parseDigits cs).bind fun n => if n < 2 ^ 63 then some (n : Int) else none
  | cs => (parseDigits cs).bind fun n => if n < 2 ^ 63 then some (n : Int) else none

/-- `s[n:]` for an offset `n` in bytes that no character straddles. -/
def dropBytes : Nat → List Char → List Char
  | 0, cs => cs
  | _, [] => []
  | n, c :: cs => dropBytes (n - c.utf8Size) cs

/-- `s[n:]` for any offset `n` in bytes; `none` is a panic.  The bytes of a
    character that the offset splits are no UTF-8, and encoding/json writes
    each of them as U+FFFD. -/
def sliceFrom : Nat → List Char → Option (List Char)
  | 0, cs => some cs
  | _ + 1, [] => none
  | n + 1, c :: cs =>
    if c.utf8Size ≤ n + 1 then sliceFrom (n + 1 - c.utf8Size) cs
    else some (List.replicate (c.utf8Size - (n + 1)) '\uFFFD' ++ cs)

/-- A slice that starts after a front of the text. -/
theorem sliceFrom_append (front cs : List Char) :
    sliceFrom (front.map Char.utf8Size).sum (front ++ cs) = some cs := by
  induction front with
  | nil => simp [sliceFrom]
  | cons c front ih =>
    have hpos := c.utf8Size_pos
    rw [List.map_cons, List.sum_cons, List.cons_append]
    obtain ⟨n, hn⟩ : ∃ n, c.utf8Size + (front.map Char.utf8Size).sum = n + 1 :=
      ⟨c.utf8Size + (front.map Char.utf8Size).sum - 1, by omega⟩
    rw [hn, sliceFrom, if_pos (by omega), ← hn, Nat.add_sub_cancel_left]
    exact ih

/-! ## Separators -/

/-- `strings.Join(parts, sep)` for a separator of one character. -/
def join (sep : Char) (parts : List String) : String :=
  String.ofList ([sep].intercalate (parts.map String.toList))

/-- `strings.Split(s, sep)` for a separator of one character. -/
def split (sep : Char) (s : String) : List String := (s.toList.splitOn sep).map String.ofList

/-- Parts without the separator come back from their join. -/
theorem split_join {sep : Char} {parts : List String} (hne : parts ≠ [])
    (hsep : ∀ part ∈ parts, sep ∉ part.toList) : split sep (join sep parts) = parts := by
  have hparts : ∀ cs ∈ parts.map String.toList, sep ∉ cs := by
    intro cs hcs
    obtain ⟨part, hpart, rfl⟩ := List.mem_map.mp hcs
    exact hsep part hpart
  rw [split, join, String.toList_ofList, List.splitOn_intercalate sep hparts (by simpa using hne)]
  simp

theorem join_split (sep : Char) (s : String) : join sep (split sep s) = s := by
  have hparts : ((s.toList.splitOn sep).map String.ofList).map String.toList = s.toList.splitOn sep := by
    simp [List.map_map, Function.comp_def]
  rw [join, split, hparts, List.intercalate_splitOn, String.ofList_toList]

/-- The parts have the characters of the text other than the separator. -/
theorem mem_of_mem_intercalate {sep c : Char} {parts : List (List Char)}
    (h : c ∈ [sep].intercalate parts) : c = sep ∨ ∃ part ∈ parts, c ∈ part := by
  induction parts with
  | nil => simp at h
  | cons part parts ih =>
    cases parts with
    | nil => exact Or.inr ⟨part, List.mem_cons_self, by simpa [List.intercalate] using h⟩
    | cons next parts =>
      rw [List.intercalate_cons_cons, List.append_assoc, List.mem_append, List.mem_append,
        List.mem_singleton] at h
      rcases h with h | h | h
      · exact Or.inr ⟨part, List.mem_cons_self, h⟩
      · exact Or.inl h
      · refine (ih h).imp_right ?_
        rintro ⟨q, hq, hc⟩
        exact ⟨q, List.mem_cons_of_mem part hq, hc⟩

/-- The characters of a join are separators or stand in a part. -/
theorem mem_of_mem_join {sep c : Char} {parts : List String} (h : c ∈ (join sep parts).toList) :
    c = sep ∨ ∃ part ∈ parts, c ∈ part.toList := by
  rw [join, String.toList_ofList] at h
  refine (mem_of_mem_intercalate h).imp_right ?_
  rintro ⟨cs, hcs, hc⟩
  obtain ⟨part, hpart, rfl⟩ := List.mem_map.mp hcs
  exact ⟨part, hpart, hc⟩

theorem mem_of_mem_splitOn {sep : Char} {cs part : List Char} (hpart : part ∈ cs.splitOn sep)
    {c : Char} (hc : c ∈ part) : c ∈ cs ∧ c ≠ sep := by
  rw [List.splitOn_eq_splitOnP] at hpart
  induction cs generalizing part with
  | nil => simp_all
  | cons d cs ih =>
    rw [List.splitOnP_cons_eq_if_modifyHead] at hpart
    split_ifs at hpart with hd
    · rcases List.mem_cons.mp hpart with rfl | hpart
      · simp at hc
      · exact ⟨List.mem_cons_of_mem d (ih hpart hc).1, (ih hpart hc).2⟩
    · cases hsplit : cs.splitOnP (· == sep) with
      | nil => exact absurd hsplit (List.splitOnP_ne_nil _ _)
      | cons first rest =>
        rw [hsplit, List.modifyHead_cons] at hpart
        rw [hsplit] at ih
        rcases List.mem_cons.mp hpart with rfl | hpart
        · rcases List.mem_cons.mp hc with rfl | hc
          · exact ⟨List.mem_cons_self, by simpa using hd⟩
          · have hmem := ih List.mem_cons_self hc
            exact ⟨List.mem_cons_of_mem d hmem.1, hmem.2⟩
        · have hmem := ih (List.mem_cons_of_mem _ hpart) hc
          exact ⟨List.mem_cons_of_mem d hmem.1, hmem.2⟩

theorem mem_of_mem_split {sep : Char} {s part : String} (h : part ∈ split sep s) {c : Char}
    (hc : c ∈ part.toList) : c ∈ s.toList ∧ c ≠ sep := by
  obtain ⟨cs, hcs, rfl⟩ := List.mem_map.mp h
  rw [String.toList_ofList] at hc
  exact mem_of_mem_splitOn hcs hc

theorem split_ne_nil (sep : Char) (s : String) : split sep s ≠ [] := by
  rw [split, List.splitOn_eq_splitOnP]
  simp [List.splitOnP_ne_nil]

/-! ## Sorted sets of strings -/

/-- The keys of a Go set `map[string]struct` after `sort.Strings`. -/
def sortedSet (l : List String) : List String :=
  l.dedup.insertionSort (· ≤ ·)

theorem mem_sortedSet {s : String} {l : List String} : s ∈ sortedSet l ↔ s ∈ l := by
  rw [sortedSet, List.mem_insertionSort, List.mem_dedup]

theorem nodup_sortedSet (l : List String) : (sortedSet l).Nodup :=
  (List.perm_insertionSort (· ≤ ·) l.dedup).nodup_iff.mpr (List.nodup_dedup l)

theorem pairwise_sortedSet (l : List String) : (sortedSet l).Pairwise (· < ·) := by
  have hle : (sortedSet l).Pairwise (· ≤ ·) := List.pairwise_insertionSort (· ≤ ·) l.dedup
  exact (hle.and (nodup_sortedSet l)).imp fun h => lt_of_le_of_ne h.1 h.2

/-- A sorted set is determined by its members. -/
theorem sortedSet_eq_iff {l m : List String} :
    sortedSet l = sortedSet m ↔ ∀ s, s ∈ l ↔ s ∈ m := by
  constructor
  · intro h s
    rw [← mem_sortedSet, h, mem_sortedSet]
  · intro h
    have hperm : l.dedup.Perm m.dedup := by
      rw [List.perm_ext_iff_of_nodup (List.nodup_dedup l) (List.nodup_dedup m)]
      intro s
      rw [List.mem_dedup, List.mem_dedup]
      exact h s
    have hperm' : (sortedSet l).Perm (sortedSet m) :=
      ((List.perm_insertionSort (· ≤ ·) l.dedup).trans hperm).trans
        (List.perm_insertionSort (· ≤ ·) m.dedup).symm
    exact hperm'.eq_of_pairwise (fun a b _ _ hab hba => le_antisymm hab hba)
      (List.pairwise_insertionSort (· ≤ ·) l.dedup)
      (List.pairwise_insertionSort (· ≤ ·) m.dedup)

theorem sortedSet_sortedSet (l : List String) : sortedSet (sortedSet l) = sortedSet l :=
  sortedSet_eq_iff.mpr fun _ => mem_sortedSet

/-- `slices.Compact` -/
def compact : List String → List String
  | [] => []
  | [a] => [a]
  | a :: b :: l => if a = b then compact (b :: l) else a :: compact (b :: l)

theorem mem_compact {s : String} {l : List String} : s ∈ compact l ↔ s ∈ l := by
  induction l using compact.induct with
  | case1 => rfl
  | case2 a => rfl
  | case3 b l ih =>
    rw [compact, if_pos rfl, ih]
    simp
  | case4 a b l hab ih =>
    rw [compact, if_neg hab, List.mem_cons, ih]
    exact List.mem_cons.symm

/-- A sorted list without repeats: `slices.Sort` and `slices.Compact`. -/
theorem compact_insertionSort (l : List String) :
    compact (l.insertionSort (· ≤ ·)) = sortedSet l := by
  have hstrict : ∀ m : List String, m.Pairwise (· ≤ ·) → (compact m).Pairwise (· < ·) := by
    intro m hm
    induction m using compact.induct with
    | case1 => exact List.Pairwise.nil
    | case2 a => exact List.pairwise_singleton _ a
    | case3 b l ih =>
      rw [compact, if_pos rfl]
      exact ih (List.pairwise_cons.mp hm).2
    | case4 a b l hab ih =>
      obtain ⟨hle, htail⟩ := List.pairwise_cons.mp hm
      rw [compact, if_neg hab, List.pairwise_cons]
      refine ⟨fun c hc => ?_, ih htail⟩
      have hlt : a < b := lt_of_le_of_ne (hle b List.mem_cons_self) hab
      rcases List.mem_cons.mp (mem_compact.mp hc) with rfl | hc
      · exact hlt
      · exact lt_of_lt_of_le hlt ((List.pairwise_cons.mp htail).1 c hc)
  have hsorted := hstrict _ (List.pairwise_insertionSort (· ≤ ·) l)
  have hperm : (compact (l.insertionSort (· ≤ ·))).Perm (sortedSet l) := by
    rw [List.perm_ext_iff_of_nodup (hsorted.imp fun h => ne_of_lt h) (nodup_sortedSet l)]
    intro s
    rw [mem_compact, List.mem_insertionSort, mem_sortedSet]
  exact hperm.eq_of_pairwise (fun a b _ _ hab hba => le_antisymm hab hba)
    (hsorted.imp fun h => le_of_lt h) (List.pairwise_insertionSort (· ≤ ·) l.dedup)

theorem sortedSet_eq_nil {l : List String} : sortedSet l = [] ↔ l = [] := by
  simp only [List.eq_nil_iff_forall_not_mem, mem_sortedSet]

end GoText
