/-
  AuthzAgent.Lib.UrlTemplate

  URLs written as templates.  Where the texts of the holes delimit nothing, the
  components of the filled URL are the filled components of the template, so the
  texts change the structure of a URL in three ways only: the authority can have
  holes itself, a path segment with holes can become a dot segment, and a query
  that the template begins can have keys with holes (`KeepsShape`).

  A query that is put behind a URL without one, as sorted pairs, has, as a set, the
  same keys for all values
  (`mem_shownKeys_pairs`), although the values can change the order of the pairs
  and a key may hold any character: a key with a number sign ends the query at the
  first pair that has one.
-/

import AuthzAgent.Lib.Template
import AuthzAgent.Lib.Url

namespace Url

open Template

/-! ## Components of a filled template -/

section

variable {κ : Type} {f : κ → List Char}

/-- The path of a template for what follows the authority. -/
def pathItems (items : List (Item κ)) : List (Item κ) :=
  items.takeWhile fun item => !item.isAt endsPath

/-- The query of a template for what follows the authority. -/
def queryItems (items : List (Item κ)) : Option (List (Item κ)) :=
  match items.dropWhile fun item => !item.isAt endsPath with
  | .char '?' :: query => some (query.takeWhile fun item => !item.isAt (· == '#'))
  | _ => none

/-- The segments of the template of a path that is empty or begins with a slash. -/
def segmentItems (path : List (Item κ)) : List (List (Item κ)) :=
  match path with
  | [] => []
  | _ :: rest => rest.splitOnP (Item.isAt (· == '/'))

/-- The texts of holes delimit nothing. -/
def Inert (f : κ → List Char) : Prop := Avoids isDelimiter f

theorem Inert.avoids (h : Inert f) {p : Char → Bool} (hp : ∀ c, p c = true → isDelimiter c = true) :
    Avoids p f := by
  intro key c hc
  by_contra hnot
  rw [Bool.not_eq_false] at hnot
  exact Bool.false_ne_true ((h key c hc).symm.trans (hp c hnot))

theorem Inert.avoids_char (h : Inert f) {d : Char} (hd : isDelimiter d = true) :
    Avoids (· == d) f :=
  h.avoids fun _ hc => beq_iff_eq.mp hc ▸ hd

theorem isDelimiter_of_endsPath (c : Char) (h : endsPath c = true) : isDelimiter c = true := by
  simp only [endsPath, Bool.or_eq_true, beq_iff_eq] at h
  rcases h with rfl | rfl <;> decide

theorem pathOf_fill (h : Inert f) (items : List (Item κ)) :
    pathOf (fill f items) = fill f (pathItems items) :=
  takeWhile_fill (h.avoids isDelimiter_of_endsPath) items

theorem queryOf_fill (h : Inert f) (items : List (Item κ)) :
    queryOf (fill f items) = (queryItems items).map (fill f) := by
  have hhash : Avoids (· == '#') f := h.avoids_char (by decide)
  rw [queryOf, queryItems, dropWhile_fill (h.avoids isDelimiter_of_endsPath)]
  cases hrest : items.dropWhile fun item => !item.isAt endsPath with
  | nil => rfl
  | cons item rest =>
    have hend : item.isAt endsPath = true := by
      have hhead := List.head?_dropWhile_not (fun item : Item κ => !item.isAt endsPath) items
      rw [hrest] at hhead
      simpa using hhead
    cases item with
    | hole key => cases hend
    | char c =>
      rw [fill_char]
      by_cases hc : c = '?'
      · subst hc
        exact congrArg some (takeWhile_fill hhash rest)
      · have hc' : endsPath c = true := hend
        simp only [endsPath, Bool.or_eq_true, beq_iff_eq, hc, false_or] at hc'
        subst hc'
        rfl

theorem segments_fill (h : Inert f) {path : List (Item κ)}
    (hpath : ∀ item ∈ path.head?, item = .char '/') :
    segments (fill f path) = (segmentItems path).map (fill f) := by
  have hslash : Avoids (· == '/') f := h.avoids_char (by decide)
  cases path with
  | nil => rfl
  | cons item rest =>
    obtain rfl : item = .char '/' := hpath item rfl
    rw [fill_char]
    exact splitOnP_fill hslash rest

/-- The text of a word in the place of every hole. -/
def word : κ → List Char := fun _ => ['x']

theorem inert_word : Inert (word : κ → List Char) := by
  intro key c hc
  obtain rfl := List.mem_singleton.mp hc
  decide

/-- A part that the word and the texts fill differently has a hole, and then it is
    no dot segment with the word. -/
theorem stepOf_fill_word (part : List (Item κ)) :
    stepOf (fill word part) = stepOf (fill f part) ∨ stepOf (fill word part) = .plain := by
  by_cases hhole : ∃ key, .hole key ∈ part
  · obtain ⟨key, hkey⟩ := hhole
    have hx : 'x' ∈ fill word part := mem_fill_of_hole hkey (List.mem_singleton.mpr rfl)
    right
    rw [stepOf, if_neg, if_neg]
    · intro hdots
      rw [hdots] at hx
      exact absurd hx (by decide)
    · intro hdot
      rw [hdot] at hx
      exact absurd hx (by decide)
  · left
    rw [fill_eq_of_no_hole fun key hkey => hhole ⟨key, hkey⟩]

/-- What the segments of a path do with the word and with the texts. -/
def segmentSteps (f : κ → List Char) (parts : List (List (Item κ))) : List (Step × Step) :=
  parts.map fun part => (stepOf (fill word part), stepOf (fill f part))

/-- The texts keep the number of segments exactly where the path settles behind
    the segments that they turn into dot segments. -/
theorem count_fill_iff (parts : List (List (Item κ))) :
    (removeDots [] (parts.map (fill f))).length =
        (removeDots [] (parts.map (fill word))).length ↔
      settles false 0 (segmentSteps f parts) = true := by
  cases parts with
  | nil => exact iff_of_true rfl rfl
  | cons part parts =>
    have hsteps : ∀ s ∈ segmentSteps f (part :: parts), s.1 = s.2 ∨ s.1 = .plain := by
      intro s hs
      obtain ⟨p, -, rfl⟩ := List.mem_map.mp hs
      exact stepOf_fill_word p
    have hroot : if false = true then (0 : Nat) < 0 else (0 : Nat) = 0 := rfl
    rw [← countFrom_eq_iff hsteps hroot (List.cons_ne_nil _ _), length_removeDots, length_removeDots, segmentSteps, List.map_map, List.map_map,
      List.map_map, List.map_map]
    rfl

end

/-! ## Keys of sorted pairs -/

/-- A pair of a query. -/
def pairText (pair : List Char × List Char) : List Char := pair.1 ++ '=' :: pair.2

/-- A text up to its first number sign. -/
def cut (cs : List Char) : List Char := cs.takeWhile fun c => !(c == '#')

theorem keysIn_ne_nil (query : List Char) : keysIn query ≠ [] := by
  rw [keysIn, ne_eq, List.map_eq_nil_iff]
  exact List.splitOnP_ne_nil _ query

theorem keysIn_cons (c : Char) (query : List Char) :
    keysIn (c :: query) =
      if c = '&' then [] :: keysIn query
      else (keysIn query).modifyHead fun key => if c = '=' then [] else c :: key := by
  rw [keysIn, keysIn, List.splitOnP_cons_eq_if_modifyHead]
  by_cases hamp : c = '&'
  · simp [hamp]
  · rw [if_neg hamp, if_neg (by simpa using hamp)]
    cases query.splitOnP (· == '&') with
    | nil => rfl
    | cons part parts =>
      by_cases heq : c = '='
      · simp [heq]
      · simp [heq]

/-- What follows an equals sign adds keys only from its second part on. -/
theorem keysIn_append_equals (key rest : List Char) :
    keysIn (key ++ '=' :: rest) = keysIn key ++ (keysIn rest).tail := by
  induction key with
  | nil =>
    rw [List.nil_append, keysIn_cons, if_neg (by decide)]
    obtain ⟨first, more, hrest⟩ := List.exists_cons_of_ne_nil (keysIn_ne_nil rest)
    rw [hrest]
    rfl
  | cons c key ih =>
    rw [List.cons_append, keysIn_cons, keysIn_cons, ih]
    by_cases hamp : c = '&'
    · rw [if_pos hamp, if_pos hamp, List.cons_append]
    · rw [if_neg hamp, if_neg hamp]
      obtain ⟨first, more, hkey⟩ := List.exists_cons_of_ne_nil (keysIn_ne_nil key)
      rw [hkey]
      rfl

theorem keysIn_append_amp (query more : List Char) :
    keysIn (query ++ '&' :: more) = keysIn query ++ keysIn more := by
  rw [keysIn, List.splitOnP_append_cons _ _ (by decide), List.map_append]
  rfl

theorem cut_append_of_not_mem {pre : List Char} (h : '#' ∉ pre) (rest : List Char) :
    cut (pre ++ rest) = pre ++ cut rest :=
  List.takeWhile_append_of_pos fun c hc => by
    simpa using fun hhash : c = '#' => h (hhash ▸ hc)

theorem cut_append_of_mem {pre : List Char} (h : '#' ∈ pre) (rest : List Char) :
    cut (pre ++ rest) = cut pre := by
  induction pre with
  | nil => cases h
  | cons c pre ih =>
    rw [cut, cut, List.cons_append, List.takeWhile_cons, List.takeWhile_cons]
    by_cases hc : c = '#'
    · simp [hc]
    · have hpre : '#' ∈ pre := (List.mem_cons.mp h).resolve_left fun hhash => hc hhash.symm
      simpa [hc, cut] using ih hpre

theorem cut_eq_self {cs : List Char} (h : '#' ∉ cs) : cut cs = cs := by
  have hcut : cut (cs ++ []) = cs ++ [] := cut_append_of_not_mem h []
  rwa [List.append_nil] at hcut

/-- A text with a number sign begins with what stands before it. -/
theorem exists_eq_cut_append {cs : List Char} (h : '#' ∈ cs) : ∃ rest, cs = cut cs ++ '#' :: rest := by
  obtain ⟨pre, rest, rfl, hpre⟩ := List.eq_append_cons_of_mem h
  exact ⟨rest, by rw [cut_append_of_not_mem hpre]; simp [cut]⟩

theorem not_mem_cut (cs : List Char) : '#' ∉ cut cs := fun h => by
  simpa using List.all_eq_true.mp (List.all_takeWhile (l := cs)) '#' h

/-- The keys of a query that joins parts, up to a number sign. -/
def shownKeys : List (List Char) → List (List Char)
  | [] => []
  | part :: parts =>
    if '#' ∈ part then keysIn (cut part) else keysIn part ++ shownKeys parts

theorem keysIn_cut_intercalate {parts : List (List Char)} (h : parts ≠ []) :
    keysIn (cut (['&'].intercalate parts)) = shownKeys parts := by
  induction parts with
  | nil => exact absurd rfl h
  | cons part parts ih =>
    cases parts with
    | nil =>
      rw [List.intercalate_singleton, shownKeys, shownKeys, List.append_nil]
      split_ifs with hhash
      · rfl
      · rw [cut_eq_self hhash]
    | cons next rest =>
      rw [List.intercalate_cons_cons, shownKeys, List.append_assoc]
      split_ifs with hhash
      · rw [cut_append_of_mem hhash]
      · rw [cut_append_of_not_mem hhash, ← ih (List.cons_ne_nil next rest),
          ← keysIn_append_amp]
        rfl

/-- The keys of sorted parts: those of the parts that no part with a number sign
    comes before. -/
theorem mem_shownKeys {parts : List (List Char)} (hsorted : parts.Pairwise (· ≤ ·))
    {key : List Char} :
    key ∈ shownKeys parts ↔
      ∃ part ∈ parts, (∀ other ∈ parts, '#' ∈ other → part ≤ other) ∧ key ∈ keysIn (cut part) := by
  induction parts with
  | nil => simp [shownKeys]
  | cons part parts ih =>
    obtain ⟨hfirst, hsorted⟩ := List.pairwise_cons.mp hsorted
    have hle : ∀ other ∈ part :: parts, part ≤ other := fun other hother => by
      rcases List.mem_cons.mp hother with rfl | hother
      · exact le_refl other
      · exact hfirst other hother
    rw [shownKeys]
    by_cases hhash : '#' ∈ part
    · rw [if_pos hhash]
      constructor
      · exact fun hkey => ⟨part, List.mem_cons_self, fun other hother _ => hle other hother, hkey⟩
      · rintro ⟨shown, hshown, hbefore, hkey⟩
        have hsame : shown = part :=
          le_antisymm (hbefore part List.mem_cons_self hhash) (hle shown hshown)
        exact hsame ▸ hkey
    · rw [if_neg hhash, List.mem_append, ih hsorted]
      constructor
      · rintro (hkey | ⟨shown, hshown, hbefore, hkey⟩)
        · exact ⟨part, List.mem_cons_self, fun other hother _ => hle other hother,
            (cut_eq_self hhash).symm ▸ hkey⟩
        · refine ⟨shown, List.mem_cons_of_mem part hshown, fun other hother hmem => ?_, hkey⟩
          rcases List.mem_cons.mp hother with rfl | hother
          · exact absurd hmem hhash
          · exact hbefore other hother hmem
      · rintro ⟨shown, hshown, hbefore, hkey⟩
        rcases List.mem_cons.mp hshown with rfl | hshown
        · exact .inl (cut_eq_self hhash ▸ hkey)
        · exact .inr ⟨shown, hshown,
            fun other hother => hbefore other (List.mem_cons_of_mem part hother), hkey⟩

/-- Texts that begin differently are ordered by their beginnings. -/
theorem not_lt_of_le_of_not_isPrefix {a b : List Char} (hab : ¬ a <+: b) (hba : ¬ b <+: a)
    {s t s' t' : List Char} (h : a ++ s ≤ b ++ t) : ¬ b ++ t' < a ++ s' := by
  induction a generalizing b with
  | nil => exact absurd (List.nil_prefix) hab
  | cons x a ih =>
    cases b with
    | nil => exact absurd (List.nil_prefix) hba
    | cons y b =>
      rw [List.cons_append, List.cons_append] at h ⊢
      rw [← not_lt, List.cons_lt_cons_iff] at h
      rw [List.cons_lt_cons_iff]
      rw [List.cons_prefix_cons] at hab hba
      rintro (hgt | ⟨rfl, hgt⟩)
      · exact h (.inl hgt)
      · have hrest : a ++ s ≤ b ++ t := not_lt.mp fun hlt => h (.inr ⟨rfl, hlt⟩)
        exact ih (fun hp => hab ⟨rfl, hp⟩) (fun hp => hba ⟨rfl, hp⟩) hrest hgt

/-- What a pair begins with whatever its value is: its key up to a number sign, or
    up to the equals sign. -/
def keyStart (key : List Char) : List Char :=
  if '#' ∈ key then cut key ++ ['#'] else key ++ ['=']

theorem keyStart_prefix_pairText (pair : List Char × List Char) :
    ∃ rest, pairText pair = keyStart pair.1 ++ rest := by
  by_cases hhash : '#' ∈ pair.1
  · obtain ⟨rest, hkey⟩ := exists_eq_cut_append hhash
    refine ⟨rest ++ '=' :: pair.2, ?_⟩
    rw [pairText, keyStart, if_pos hhash]
    nth_rewrite 1 [hkey]
    simp
  · exact ⟨pair.2, by rw [pairText, keyStart, if_neg hhash, List.append_assoc]; rfl⟩

theorem eq_of_append_hash_start {xs ys : List Char} (hxs : '#' ∉ xs) (hys : '#' ∉ ys)
    (h : xs ++ ['#'] <+: ys ++ ['#']) : xs = ys := by
  obtain ⟨rest, hrest⟩ := h
  have hcut := congrArg cut hrest
  rw [List.append_assoc, cut_append_of_not_mem hxs, cut_append_of_not_mem hys] at hcut
  simpa [cut] using hcut

/-- A key that begins like one with a number sign has its keys among those before
    the number sign. -/
theorem keysIn_cut_subset {key hashed : List Char} (hhash : '#' ∈ hashed)
    (h : keyStart key <+: keyStart hashed ∨ keyStart hashed <+: keyStart key) {k : List Char}
    (hk : k ∈ keysIn (cut key)) : k ∈ keysIn (cut hashed) := by
  have hstart : keyStart hashed = cut hashed ++ ['#'] := if_pos hhash
  rw [hstart] at h
  by_cases hkey : '#' ∈ key
  · rw [keyStart, if_pos hkey] at h
    have hsame : cut key = cut hashed := by
      rcases h with h | h
      · exact eq_of_append_hash_start (not_mem_cut key) (not_mem_cut hashed) h
      · exact (eq_of_append_hash_start (not_mem_cut hashed) (not_mem_cut key) h).symm
    exact hsame ▸ hk
  · rw [keyStart, if_neg hkey] at h
    rcases h with h | h
    · rcases List.prefix_concat_iff.mp h with hsame | ⟨rest, hrest⟩
      · have hlast := congrArg List.getLast? hsame
        simp at hlast
      · rw [← hrest, List.append_assoc]
        rw [cut_eq_self hkey] at hk
        exact (keysIn_append_equals key rest) ▸ List.mem_append_left _ hk
    · have hmem : '#' ∈ key ++ ['='] := h.subset (List.mem_append_right _ (List.mem_singleton.mpr rfl))
      simp [hkey] at hmem

/-- The parts of a query: its pairs, sorted, with values that delimit nothing. -/
structure Sorts (query : List (List Char × List Char)) (parts : List (List Char)) : Prop where
  sorted : parts.Pairwise (· ≤ ·)
  perm : parts.Perm (query.map pairText)
  inert : ∀ pair ∈ query, ∀ c ∈ pair.2, isDelimiter c = false

section

variable {query query' : List (List Char × List Char)} {parts parts' : List (List Char)}

theorem Sorts.mem_iff (h : Sorts query parts) {part : List Char} :
    part ∈ parts ↔ ∃ pair ∈ query, pairText pair = part := by
  rw [h.perm.mem_iff, List.mem_map]

theorem Sorts.hash_mem_iff (h : Sorts query parts) {pair : List Char × List Char}
    (hpair : pair ∈ query) : '#' ∈ pairText pair ↔ '#' ∈ pair.1 := by
  have hvalue : '#' ∉ pair.2 := fun hmem => by
    have hnot := h.inert pair hpair '#' hmem
    exact absurd hnot (by decide)
  simp [pairText, hvalue]

theorem Sorts.keysIn_cut (h : Sorts query parts) {pair : List Char × List Char}
    (hpair : pair ∈ query) : keysIn (cut (pairText pair)) = keysIn (cut pair.1) := by
  by_cases hhash : '#' ∈ pair.1
  · rw [pairText, cut_append_of_mem hhash]
  · have hnone : '#' ∉ pairText pair := fun hmem => hhash ((h.hash_mem_iff hpair).mp hmem)
    have hamp : (keysIn pair.2).tail = [] := by
      have hone : ∀ c ∈ pair.2, (c == '&') = false := fun c hc => by
        have hnot := h.inert pair hpair c hc
        by_contra hc'
        rw [Bool.not_eq_false, beq_iff_eq] at hc'
        subst hc'
        exact absurd hnot (by decide)
      rw [keysIn, List.splitOnP_eq_singleton hone]
      rfl
    rw [cut_eq_self hnone, cut_eq_self hhash, pairText, keysIn_append_equals, hamp, List.append_nil]

/-- The least part with a number sign. -/
theorem exists_least_hash {part : List Char} (hmem : part ∈ parts) (hhash : '#' ∈ part) :
    ∃ least ∈ parts, '#' ∈ least ∧ ∀ other ∈ parts, '#' ∈ other → least ≤ other := by
  have hne : (parts.toFinset.filter fun p => '#' ∈ p).Nonempty :=
    ⟨part, Finset.mem_filter.mpr ⟨List.mem_toFinset.mpr hmem, hhash⟩⟩
  obtain ⟨least, hleast, hmin⟩ := Finset.exists_min_image _ id hne
  obtain ⟨hleast, hleasthash⟩ := Finset.mem_filter.mp hleast
  exact ⟨least, List.mem_toFinset.mp hleast, hleasthash, fun other hother hotherhash =>
    hmin other (Finset.mem_filter.mpr ⟨List.mem_toFinset.mpr hother, hotherhash⟩)⟩

theorem shownKeys_subset (h : Sorts query parts) (h' : Sorts query' parts')
    (hkeys : ∀ k, k ∈ query.map Prod.fst ↔ k ∈ query'.map Prod.fst) {key : List Char}
    (hkey : key ∈ shownKeys parts) : key ∈ shownKeys parts' := by
  obtain ⟨_, hpart, hbefore, hkey⟩ := (mem_shownKeys h.sorted).mp hkey
  obtain ⟨pair, hpair, rfl⟩ := h.mem_iff.mp hpart
  rw [h.keysIn_cut hpair] at hkey
  rw [mem_shownKeys h'.sorted]
  -- the pair with the same key in the other query
  obtain ⟨pair', hpair', hfst⟩ := List.mem_map.mp ((hkeys pair.1).mp (List.mem_map_of_mem hpair))
  by_cases hshown : ∀ other ∈ parts', '#' ∈ other → pairText pair' ≤ other
  · refine ⟨pairText pair', h'.mem_iff.mpr ⟨pair', hpair', rfl⟩, hshown, ?_⟩
    rw [h'.keysIn_cut hpair', hfst]
    exact hkey
  · -- a pair with a number sign comes before it: the least one has the key as well
    push Not at hshown
    obtain ⟨other, hother, hhash, hlt⟩ := hshown
    obtain ⟨_, hleast, hleasthash, hmin⟩ := exists_least_hash hother hhash
    obtain ⟨least, hmem, rfl⟩ := h'.mem_iff.mp hleast
    refine ⟨pairText least, hleast, hmin, ?_⟩
    rw [h'.keysIn_cut hmem]
    have hleastkey : '#' ∈ least.1 := (h'.hash_mem_iff hmem).mp hleasthash
    refine keysIn_cut_subset hleastkey ?_ hkey
    by_contra hnot
    rw [not_or] at hnot
    -- in the first query the pair comes before that key's, in the other behind it
    obtain ⟨same, hsame, hsamefst⟩ :=
      List.mem_map.mp ((hkeys least.1).mpr (List.mem_map_of_mem hmem))
    have hle : pairText pair ≤ pairText same :=
      hbefore _ (h.mem_iff.mpr ⟨same, hsame, rfl⟩)
        ((h.hash_mem_iff hsame).mpr (hsamefst.symm ▸ hleastkey))
    have hlt' : pairText least < pairText pair' := lt_of_le_of_lt (hmin other hother hhash) hlt
    obtain ⟨_, htext⟩ := keyStart_prefix_pairText pair
    obtain ⟨_, htext'⟩ := keyStart_prefix_pairText pair'
    obtain ⟨_, hleasttext⟩ := keyStart_prefix_pairText least
    obtain ⟨_, hsametext⟩ := keyStart_prefix_pairText same
    rw [htext, hsametext, hsamefst] at hle
    rw [hleasttext, htext', hfst] at hlt'
    exact not_lt_of_le_of_not_isPrefix hnot.1 hnot.2 hle hlt'

theorem mem_shownKeys_pairs (h : Sorts query parts) (h' : Sorts query' parts')
    (hkeys : ∀ k, k ∈ query.map Prod.fst ↔ k ∈ query'.map Prod.fst) (key : List Char) :
    key ∈ shownKeys parts ↔ key ∈ shownKeys parts' :=
  ⟨shownKeys_subset h h' hkeys, shownKeys_subset h' h fun k => (hkeys k).symm⟩

end

/-! ## The structure of a filled URL -/

section

variable {κ : Type} {f : κ → List Char} {scheme : List Char} {authority tail : List (Item κ)}

/-- A template that writes its scheme out, cut where the authority ends. -/
structure Written (scheme : List Char) (authority tail : List (Item κ)) : Prop where
  scheme_ne : scheme ≠ []
  in_scheme : ∀ c ∈ scheme, endsScheme c = false
  in_authority : ∀ item ∈ authority, item.isAt endsAuthority = false
  tail_start : ∀ item ∈ tail.head?, item.isAt endsAuthority = true

def writtenItems (scheme : List Char) (authority tail : List (Item κ)) : List (Item κ) :=
  (scheme ++ [':', '/', '/']).map .char ++ (authority ++ tail)

theorem fill_writtenItems (f : κ → List Char) (scheme : List Char) (authority tail : List (Item κ)) :
    fill f (writtenItems scheme authority tail) =
      scheme ++ ':' :: '/' :: '/' :: (fill f authority ++ fill f tail) := by
  rw [writtenItems, fill_append, fill_append, fill_map_char]
  simp

theorem isDelimiter_of_endsAuthority (c : Char) (h : endsAuthority c = true) :
    isDelimiter c = true := by
  simp only [endsAuthority, Bool.or_eq_true, beq_iff_eq] at h
  rcases h with (rfl | rfl) | rfl <;> decide

theorem Written.in_fill_authority (h : Written scheme authority tail) (hf : Inert f) :
    ∀ c ∈ fill f authority, endsAuthority c = false := by
  intro c hc
  obtain ⟨item, hitem, hmem⟩ := List.mem_flatMap.mp hc
  cases item with
  | char d =>
    obtain rfl := List.mem_singleton.mp hmem
    exact h.in_authority _ hitem
  | hole key => exact hf.avoids isDelimiter_of_endsAuthority key c hmem

theorem Written.head_fill (h : Written scheme authority tail) (f : κ → List Char)
    {more : List Char} (hmore : ∀ c ∈ more.head?, endsAuthority c = true) :
    ∀ c ∈ (fill f tail ++ more).head?, endsAuthority c = true := by
  cases tail with
  | nil => exact hmore
  | cons item tail =>
    have hitem := h.tail_start item rfl
    cases item with
    | hole key => cases hitem
    | char d =>
      intro c hc
      obtain rfl : d = c := Option.some.inj hc
      exact hitem

/-- The keys of a query, if there is one. -/
def keysOf (query : Option (List Char)) : List (List Char) := (query.map keysIn).getD []

theorem sameShape_written_iff (hne : scheme ≠ []) (hscheme : ∀ c ∈ scheme, endsScheme c = false)
    {host host' rest rest' : List Char} (hhost : ∀ c ∈ host, endsAuthority c = false)
    (hhost' : ∀ c ∈ host', endsAuthority c = false)
    (hrest : ∀ c ∈ rest.head?, endsAuthority c = true)
    (hrest' : ∀ c ∈ rest'.head?, endsAuthority c = true) :
    SameShape (scheme ++ ':' :: '/' :: '/' :: (host ++ rest))
        (scheme ++ ':' :: '/' :: '/' :: (host' ++ rest')) ↔
      host = host' ∧
        (removeDots [] (segments (pathOf rest))).length =
          (removeDots [] (segments (pathOf rest'))).length ∧
        ∀ key, key ∈ keysOf (queryOf rest) ↔ key ∈ keysOf (queryOf rest') := by
  have hparse := parse_written hne hscheme hhost hrest
  have hparse' := parse_written hne hscheme hhost' hrest'
  constructor
  · rintro ⟨-, hauthority, hcount, hkeys⟩
    rw [hparse, hparse'] at hauthority
    rw [segmentCount, segmentCount, hparse, hparse'] at hcount
    simp only [queryKeys, hparse, hparse'] at hkeys
    exact ⟨Option.some.inj hauthority, hcount, hkeys⟩
  · rintro ⟨rfl, hcount, hkeys⟩
    refine ⟨by rw [hparse, hparse'], by rw [hparse, hparse'], ?_, ?_⟩
    · rw [segmentCount, segmentCount, hparse, hparse']
      exact hcount
    · simp only [queryKeys, hparse, hparse']
      exact hkeys

theorem Written.head_pathItems (h : Written scheme authority tail) :
    ∀ item ∈ (pathItems tail).head?, item = .char '/' := by
  cases tail with
  | nil => intro item hitem; cases hitem
  | cons first tail =>
    have hfirst := h.tail_start first rfl
    cases first with
    | hole key => cases hfirst
    | char c =>
      intro item hitem
      rw [pathItems, List.takeWhile_cons] at hitem
      by_cases hend : endsPath c = true
      · simp [Item.isAt, hend] at hitem
      · have hslash : c = '/' := by
          simp only [Item.isAt, endsAuthority, Bool.or_eq_true, beq_iff_eq] at hfirst
          simp only [endsPath, Bool.or_eq_true, beq_iff_eq, not_or] at hend
          rcases hfirst with (hc | hc) | hc
          · exact hc
          · exact absurd hc hend.1
          · exact absurd hc hend.2
        simp only [Item.isAt, hend, Bool.not_false, if_true, List.head?_cons,
          Option.mem_some_iff] at hitem
        rw [← hitem, hslash]

/-- The number of segments of a filled URL. -/
theorem Written.count_iff (h : Written scheme authority tail) (hf : Inert f) :
    (removeDots [] (segments (pathOf (fill f tail)))).length =
        (removeDots [] (segments (pathOf (fill word tail)))).length ↔
      settles false 0 (segmentSteps f (segmentItems (pathItems tail))) = true := by
  rw [pathOf_fill hf, pathOf_fill inert_word, segments_fill hf h.head_pathItems,
    segments_fill inert_word h.head_pathItems]
  exact count_fill_iff _

/-- A template for what follows the authority that begins a fragment. -/
def hasFragment (tail : List (Item κ)) : Bool := tail.any (Item.isAt (· == '#'))

/-- The query of a filled URL whose template begins one.  A text that is put behind
    the URL belongs to it, up to a number sign, unless a fragment begins before. -/
def ownQuery (f : κ → List Char) (tail : List (Item κ)) (more : List Char) : Option (List Char) :=
  (queryItems tail).map fun query => fill f query ++ if hasFragment tail then [] else cut more

/-- The texts keep the structure of a URL, with texts put behind it: the authority
    stays the same, the path settles, and where the URL begins a query, the keys of
    it stay the same. -/
structure KeepsShape (f : κ → List Char) (authority tail : List (Item κ))
    (more more' : List Char) : Prop where
  authority : fill f authority = fill word authority
  path : settles false 0 (segmentSteps f (segmentItems (pathItems tail))) = true
  keys : ∀ key, key ∈ keysOf (ownQuery f tail more) ↔ key ∈ keysOf (ownQuery word tail more')

theorem keepsShape_iff {more more' : List Char} :
    KeepsShape f authority tail more more' ↔
      fill f authority = fill word authority ∧
        settles false 0 (segmentSteps f (segmentItems (pathItems tail))) = true ∧
        ∀ key, key ∈ keysOf (ownQuery f tail more) ↔ key ∈ keysOf (ownQuery word tail more') :=
  ⟨fun h => ⟨h.authority, h.path, h.keys⟩, fun h => ⟨h.1, h.2.1, h.2.2⟩⟩

theorem ownQuery_nil (hf : Inert f) (tail : List (Item κ)) :
    ownQuery f tail [] = queryOf (fill f tail) := by
  rw [queryOf_fill hf, ownQuery]
  refine congrArg (fun g => (queryItems tail).map g) (funext fun query => ?_)
  rw [show cut [] = [] from rfl, ite_self, List.append_nil]

theorem Written.sameShape_iff (h : Written scheme authority tail) (hf : Inert f) :
    SameShape (fill f (writtenItems scheme authority tail))
        (fill word (writtenItems scheme authority tail)) ↔
      KeepsShape f authority tail [] [] := by
  have hhead : ∀ g : κ → List Char, ∀ c ∈ (fill g tail).head?, endsAuthority c = true := by
    intro g
    have hmore : ∀ c ∈ (fill g tail ++ []).head?, endsAuthority c = true :=
      h.head_fill g (by intro c hc; cases hc)
    rwa [List.append_nil] at hmore
  rw [fill_writtenItems, fill_writtenItems,
    sameShape_written_iff h.scheme_ne h.in_scheme (h.in_fill_authority hf)
      (h.in_fill_authority inert_word) (hhead f) (hhead word), h.count_iff hf, keepsShape_iff,
    ownQuery_nil hf, ownQuery_nil inert_word]

theorem mem_fill_iff_char {d : Char} (h : Avoids (· == d) f) {items : List (Item κ)} :
    d ∈ fill f items ↔ .char d ∈ items := by
  constructor
  · intro hd
    obtain ⟨item, hitem, hmem⟩ := List.mem_flatMap.mp hd
    cases item with
    | char c => exact List.mem_singleton.mp hmem ▸ hitem
    | hole key => exact absurd (h key d hmem) (by simp)
  · exact fun hd => List.mem_flatMap.mpr ⟨_, hd, List.mem_singleton.mpr rfl⟩

theorem hasFragment_iff (hf : Inert f) : hasFragment tail = true ↔ '#' ∈ fill f tail := by
  rw [mem_fill_iff_char (hf.avoids_char (by decide)), hasFragment, List.any_eq_true]
  constructor
  · rintro ⟨item, hitem, hhash⟩
    cases item with
    | hole key => cases hhash
    | char c => exact beq_iff_eq.mp hhash ▸ hitem
  · exact fun hmem => ⟨_, hmem, rfl⟩

theorem pathOf_append_query (rest query : List Char) :
    pathOf (rest ++ '?' :: query) = pathOf rest := by
  induction rest with
  | nil => rfl
  | cons c rest ih =>
    rw [pathOf, pathOf] at ih ⊢
    rw [List.cons_append, List.takeWhile_cons, List.takeWhile_cons, ih]

/-- A text behind a question mark extends the query before it, or is the query,
    unless a fragment stands before it. -/
theorem queryOf_append_query (rest query : List Char) :
    queryOf (rest ++ '?' :: query) =
      if '#' ∈ rest then queryOf rest
      else some (((queryOf rest).map (· ++ ['?'])).getD [] ++ cut query) := by
  induction rest with
  | nil => rfl
  | cons c rest ih =>
    by_cases hmark : c = '?'
    · subst hmark
      show some (cut (rest ++ '?' :: query)) = if '#' ∈ '?' :: rest then some (cut rest) else
        some (cut rest ++ ['?'] ++ cut query)
      by_cases hhash : '#' ∈ rest
      · rw [if_pos (List.mem_cons_of_mem _ hhash), cut_append_of_mem hhash]
      · rw [if_neg (by simpa using hhash), cut_append_of_not_mem hhash, cut_eq_self hhash,
          List.append_assoc]
        rfl
    · by_cases hhash : c = '#'
      · subst hhash
        rw [if_pos List.mem_cons_self]
        rfl
      · have hnext : ∀ cs, queryOf (c :: cs) = queryOf cs := by
          intro cs
          rw [queryOf, List.dropWhile_cons, queryOf]
          simp [endsPath, hmark, hhash]
        rw [List.cons_append, hnext, hnext, ih]
        simp [Ne.symm hhash]

/-- The query of a filled URL with a query behind it: the URL's own one extended,
    or the one behind it. -/
theorem queryOf_fill_append (hf : Inert f) (tail : List (Item κ)) (query : List Char) :
    queryOf (fill f tail ++ '?' :: query) =
      if (queryItems tail).isSome then ownQuery f tail ('?' :: query)
      else if hasFragment tail then none else some (cut query) := by
  rw [queryOf_append_query, queryOf_fill hf, ownQuery]
  have hcut : cut ('?' :: query) = '?' :: cut query := rfl
  by_cases hhash : hasFragment tail = true
  · rw [if_pos ((hasFragment_iff hf).mp hhash), if_pos hhash]
    cases queryItems tail with
    | none => simp [hhash]
    | some own => simp
  · rw [if_neg fun hmem => hhash ((hasFragment_iff hf).mpr hmem), if_neg hhash, hcut]
    cases queryItems tail with
    | none => simp [hhash]
    | some own => simp

/-- The same with a query of sorted pairs behind the URL. -/
theorem Written.sameShape_query_iff (h : Written scheme authority tail) (hf : Inert f)
    {query query' : List (List Char × List Char)} {parts parts' : List (List Char)}
    (hsorts : Sorts query parts) (hsorts' : Sorts query' parts')
    (hkeys : ∀ k, k ∈ query.map Prod.fst ↔ k ∈ query'.map Prod.fst)
    (hne : parts ≠ []) (hne' : parts' ≠ []) :
    SameShape (fill f (writtenItems scheme authority tail) ++ '?' :: ['&'].intercalate parts)
        (fill word (writtenItems scheme authority tail) ++ '?' :: ['&'].intercalate parts') ↔
      KeepsShape f authority tail ('?' :: ['&'].intercalate parts)
        ('?' :: ['&'].intercalate parts') := by
  have hmark : ∀ (q : List Char), ∀ c ∈ ('?' :: q).head?, endsAuthority c = true :=
    fun q c hc => Option.some.inj hc ▸ rfl
  have hassoc : ∀ (g : κ → List Char) (more : List Char),
      fill g (writtenItems scheme authority tail) ++ more =
        scheme ++ ':' :: '/' :: '/' :: (fill g authority ++ (fill g tail ++ more)) := by
    intro g more
    rw [fill_writtenItems]
    simp
  rw [hassoc, hassoc, sameShape_written_iff h.scheme_ne h.in_scheme (h.in_fill_authority hf)
    (h.in_fill_authority inert_word) (h.head_fill f (hmark _)) (h.head_fill word (hmark _)),
    pathOf_append_query, pathOf_append_query, h.count_iff hf, keepsShape_iff,
    queryOf_fill_append hf, queryOf_fill_append inert_word]
  refine and_congr_right fun _ => and_congr_right fun _ => ?_
  by_cases hown : (queryItems tail).isSome = true
  · rw [if_pos hown, if_pos hown]
  · -- no query of its own: the pairs have the same keys whatever the values are
    have hnone : ∀ g more, ownQuery g tail more = none := by
      intro g more
      rw [ownQuery, Option.not_isSome_iff_eq_none.mp hown]
      rfl
    rw [if_neg hown, if_neg hown, hnone, hnone]
    refine iff_of_true (fun key => ?_) fun key => Iff.rfl
    by_cases hhash : hasFragment tail = true
    · rw [if_pos hhash, if_pos hhash]
    · rw [if_neg hhash, if_neg hhash]
      show key ∈ keysIn _ ↔ key ∈ keysIn _
      rw [keysIn_cut_intercalate hne, keysIn_cut_intercalate hne']
      exact mem_shownKeys_pairs hsorts hsorts' hkeys key

end

end Url
