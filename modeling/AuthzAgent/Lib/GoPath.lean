/-
  AuthzAgent.Lib.GoPath

  Paths and file name patterns of Go's `path/filepath` on Unix.  A path is the
  join of its elements, and a pattern is matched against a path element by
  element: `*` stands for any characters, `?` for one, `[…]` for one of a set
  of ranges, and a backslash takes the meaning from the character after it.

  A directory without any of these characters matches itself
  (`globMatches_of_plain`), which a directory with one need not do.
-/

import AuthzAgent.Lib.GoText

namespace GoPath

open GoText

/-! ## Paths -/

/-- One element of a path in `filepath.Clean`. -/
def cleanStep (rooted : Bool) (out : List String) (part : String) : List String :=
  if part = "" ∨ part = "." then out
  else if part = ".." then
    match out.getLast? with
    | none => if rooted then [] else [".."]
    | some last => if last = ".." then out ++ [".."] else out.dropLast
  else out ++ [part]

/-- The elements of a cleaned path; the first one is empty for a rooted path. -/
def cleanParts (path : String) : List String :=
  let parts := split '/' path
  let rooted := parts.head? == some ""
  (if rooted then [""] else []) ++ parts.foldl (cleanStep rooted) []

/-- `filepath.Join(dir, name)` for a name of one element other than "." and "..". -/
def joinPath (dir name : String) : String := join '/' (cleanParts dir ++ [name])

/-- `filepath.Base` of the path of a file. -/
def base (path : String) : String := (split '/' path).getLastD ""

theorem mem_cleanStep {rooted : Bool} {out : List String} {part p : String}
    (h : p ∈ cleanStep rooted out part) : p ∈ out ∨ p = part := by
  rw [cleanStep] at h
  by_cases hskip : part = "" ∨ part = "."
  · rw [if_pos hskip] at h
    exact Or.inl h
  rw [if_neg hskip] at h
  by_cases hup : part = ".."
  · subst hup
    rw [if_pos rfl] at h
    cases hlast : out.getLast? with
    | none =>
      cases rooted <;> simp [hlast] at h
      exact Or.inr h
    | some last =>
      simp only [hlast] at h
      split_ifs at h
      · simpa using h
      · exact Or.inl (List.mem_of_mem_dropLast h)
  · rw [if_neg hup] at h
    simpa using h

/-- Cleaning adds no element. -/
theorem mem_cleanParts {dir part : String} (h : part ∈ cleanParts dir) : part ∈ split '/' dir := by
  have hsteps : ∀ (rooted : Bool) (parts out : List String) (p : String),
      p ∈ parts.foldl (cleanStep rooted) out → p ∈ out ∨ p ∈ parts := by
    intro rooted parts
    induction parts with
    | nil => exact fun _ _ hp => Or.inl hp
    | cons q parts ih =>
      intro out p hp
      rcases ih _ p hp with hp | hp
      · rcases mem_cleanStep hp with hp | rfl
        · exact Or.inl hp
        · exact Or.inr List.mem_cons_self
      · exact Or.inr (List.mem_cons_of_mem q hp)
  rw [cleanParts] at h
  rcases List.mem_append.mp h with h | h
  · split_ifs at h with hrooted
    · rw [List.mem_singleton.mp h]
      exact List.mem_of_mem_head? (by simpa using hrooted)
    · cases h
  · exact (hsteps _ _ [] part h).resolve_left (by simp)

theorem split_joinPath (dir : String) {name : String} (hname : '/' ∉ name.toList) :
    split '/' (joinPath dir name) = cleanParts dir ++ [name] := by
  apply split_join (by simp)
  intro part hpart
  rcases List.mem_append.mp hpart with hpart | hpart
  · exact fun h => (mem_of_mem_split (mem_cleanParts hpart) h).2 rfl
  · rwa [List.mem_singleton.mp hpart]

theorem base_joinPath (dir : String) {name : String} (hname : '/' ∉ name.toList) :
    base (joinPath dir name) = name := by
  rw [base, split_joinPath dir hname]
  simp

/-! ## Patterns -/

/-- A piece of a pattern. -/
inductive Glob where
  | star
  | any
  | char (c : Char)
  | ranges (negated : Bool) (rs : List (Char × Char))
deriving DecidableEq

/-- One end of a range (`getEsc`), and what follows it. -/
def getEsc : List Char → Option (Char × List Char)
  | '\\' :: c :: c' :: cs => some (c, c' :: cs)
  | '\\' :: _ => none
  | c :: c' :: cs => if c = '-' ∨ c = ']' then none else some (c, c' :: cs)
  | _ => none

/-- The ranges of a set up to its bracket.  A range takes a character, so the
    number of characters bounds the rounds. -/
def parseRanges : Nat → List (Char × Char) → List Char → Option (List (Char × Char) × List Char)
  | 0, _, _ => none
  | fuel + 1, rs, cs =>
    match cs with
    | ']' :: rest =>
      if rs = [] then none else some (rs, rest)
    | _ =>
      match getEsc cs with
      | none => none
      | some (lo, '-' :: cs) =>
        match getEsc cs with
        | none => none
        | some (hi, cs) => parseRanges fuel (rs ++ [(lo, hi)]) cs
      | some (lo, cs) => parseRanges fuel (rs ++ [(lo, lo)]) cs

/-- The pieces of a pattern for one element, or `none` for `ErrBadPattern`. -/
def parseGlob : Nat → List Char → Option (List Glob)
  | 0, _ => none
  | _ + 1, [] => some []
  | fuel + 1, c :: cs =>
    if c = '*' then (parseGlob fuel cs).map (.star :: ·)
    else if c = '?' then (parseGlob fuel cs).map (.any :: ·)
    else if c = '\\' then
      match cs with
      | [] => none
      | d :: cs => (parseGlob fuel cs).map (.char d :: ·)
    else if c = '[' then
      let negated := cs.head? == some '^'
      match parseRanges (cs.length + 1) [] (if negated then cs.tail else cs) with
      | none => none
      | some (rs, cs) => (parseGlob fuel cs).map (.ranges negated rs :: ·)
    else (parseGlob fuel cs).map (.char c :: ·)

/-- `filepath.Match` of the pieces of a pattern and one element of a path. -/
def matchGlob : List Glob → List Char → Bool
  | [], cs => cs.isEmpty
  | .star :: ps, cs => cs.tails.any (matchGlob ps)
  | .any :: ps, cs => !cs.isEmpty && matchGlob ps cs.tail
  | .char c :: ps, cs => cs.head? == some c && matchGlob ps cs.tail
  | .ranges negated rs :: ps, cs =>
    cs.head?.any (fun c => (rs.any fun r => r.1 ≤ c && c ≤ r.2) != negated) && matchGlob ps cs.tail

/-- The elements of a pattern and of a path match, one by one. -/
def matchesAll : List (List Glob) → List String → Bool
  | [], parts => parts.isEmpty
  | ps :: pss, parts =>
    parts.head?.any (fun part => matchGlob ps part.toList) && matchesAll pss parts.tail

def parsePart (part : String) : Option (List Glob) := parseGlob (part.length + 1) part.toList

/-- Whether `filepath.Glob(filepath.Join(dir, file))` finds a path that exists.  A
    malformed pattern finds nothing. -/
def globMatches (dir file path : String) : Bool :=
  match (cleanParts dir ++ [file]).mapM parsePart with
  | none => false
  | some pss => matchesAll pss (split '/' path)

/-! ## Plain directories -/

/-- A character that stands for itself in a pattern. -/
def isPlain (c : Char) : Bool := c != '*' && c != '?' && c != '[' && c != '\\'

theorem parseGlob_cons {c : Char} (hc : isPlain c = true) (fuel : Nat) (cs : List Char) :
    parseGlob (fuel + 1) (c :: cs) = (parseGlob fuel cs).map (.char c :: ·) := by
  simp only [isPlain, Bool.and_eq_true, bne_iff_ne] at hc
  obtain ⟨⟨⟨h1, h2⟩, h3⟩, h4⟩ := hc
  simp only [parseGlob, if_neg h1, if_neg h2, if_neg h4, if_neg h3]

theorem parseGlob_append {cs : List Char} (hcs : ∀ c ∈ cs, isPlain c = true) (fuel : Nat)
    (rest : List Char) : parseGlob (cs.length + fuel) (cs ++ rest) =
      (parseGlob fuel rest).map (cs.map Glob.char ++ ·) := by
  induction cs with
  | nil => simp
  | cons c cs ih =>
    rw [List.length_cons, Nat.add_right_comm, List.cons_append,
      parseGlob_cons (hcs c List.mem_cons_self), ih fun d hd => hcs d (List.mem_cons_of_mem c hd),
      Option.map_map]
    rfl

theorem matchGlob_char_append (cs : List Char) (ps : List Glob) (ds : List Char) :
    matchGlob (cs.map Glob.char ++ ps) (cs ++ ds) = matchGlob ps ds := by
  induction cs with
  | nil => rfl
  | cons c cs ih => simpa [matchGlob] using ih

/-- An element of plain characters is a pattern for itself. -/
theorem parsePart_plain {part : String} (h : ∀ c ∈ part.toList, isPlain c = true) :
    parsePart part = some (part.toList.map Glob.char) := by
  have hparse := parseGlob_append h 1 []
  rwa [List.append_nil, parseGlob, Option.map_some, List.append_nil, String.length_toList] at hparse

/-- A pattern with one star. -/
theorem parsePart_star {pre post : String} (hpre : ∀ c ∈ pre.toList, isPlain c = true)
    (hpost : ∀ c ∈ post.toList, isPlain c = true) :
    parsePart (pre ++ "*" ++ post) =
      some (pre.toList.map Glob.char ++ Glob.star :: post.toList.map Glob.char) := by
  have hrest := parsePart_plain hpost
  have hparse := parseGlob_append hpre (post.length + 2) ('*' :: post.toList)
  have hstar : parseGlob (post.length + 2) ('*' :: post.toList) =
      some (Glob.star :: post.toList.map Glob.char) := by
    rw [parsePart] at hrest
    simp only [parseGlob, if_pos, hrest, Option.map_some]
  rw [hstar, Option.map_some] at hparse
  have hlength : (pre ++ "*" ++ post).length + 1 = pre.toList.length + (post.length + 2) := by
    rw [String.length_append, String.length_append, String.length_toList,
      show "*".length = 1 from rfl]
    omega
  have htext : (pre ++ "*" ++ post).toList = pre.toList ++ '*' :: post.toList := by simp
  rw [parsePart, hlength, htext, hparse]

/-- A directory of plain characters matches itself, so a pattern for the files in
    it finds them. -/
theorem globMatches_of_plain {dir pre mid post : String}
    (hdir : ∀ c ∈ dir.toList, isPlain c = true) (hpre : ∀ c ∈ pre.toList, isPlain c = true)
    (hpost : ∀ c ∈ post.toList, isPlain c = true) (hname : '/' ∉ (pre ++ mid ++ post).toList) :
    globMatches dir (pre ++ "*" ++ post) (joinPath dir (pre ++ mid ++ post)) = true := by
  have hparts : ∀ parts : List String, (∀ part ∈ parts, ∀ c ∈ part.toList, isPlain c = true) →
      ∃ pss, (parts ++ [pre ++ "*" ++ post]).mapM parsePart = some pss ∧
        matchesAll pss (parts ++ [pre ++ mid ++ post]) = true := by
    intro parts
    induction parts with
    | nil =>
      intro _
      refine ⟨[_], by simp [parsePart_star hpre hpost]; rfl, ?_⟩
      simp only [List.nil_append, matchesAll, List.head?_cons, Option.any_some, List.tail_cons,
        List.isEmpty_nil, Bool.and_true, String.toList_append, List.append_assoc,
        matchGlob_char_append, matchGlob, List.any_eq_true]
      refine ⟨post.toList, (List.mem_tails _ _).mpr (List.suffix_append _ _), ?_⟩
      have hself := matchGlob_char_append post.toList [] []
      simpa [matchGlob] using hself
    | cons part parts ih =>
      intro hplain
      obtain ⟨pss, hmap, hmatch⟩ := ih fun q hq => hplain q (List.mem_cons_of_mem part hq)
      refine ⟨part.toList.map Glob.char :: pss, ?_, ?_⟩
      · rw [List.cons_append, List.mapM_cons, parsePart_plain (hplain part List.mem_cons_self), hmap]
        rfl
      · have hself := matchGlob_char_append part.toList [] []
        simp only [List.append_nil, matchGlob, List.isEmpty_nil] at hself
        simpa [matchesAll, hself] using hmatch
  obtain ⟨pss, hmap, hmatch⟩ := hparts (cleanParts dir) fun part hpart c hc =>
    hdir c (mem_of_mem_split (mem_cleanParts hpart) hc).1
  rw [globMatches, hmap, split_joinPath dir hname]
  exact hmatch

theorem matchGlob_char_iff {cs ds : List Char} : matchGlob (cs.map Glob.char) ds = true ↔ ds = cs := by
  induction cs generalizing ds with
  | nil => simp [matchGlob]
  | cons c cs ih =>
    cases ds with
    | nil => simp [matchGlob]
    | cons d ds => simp [matchGlob, ih]

/-- A directory of plain characters matches nothing but itself. -/
theorem eq_joinPath_of_globMatches {dir file path : String}
    (hdir : ∀ c ∈ dir.toList, isPlain c = true) (h : globMatches dir file path = true) :
    path = joinPath dir (base path) := by
  have hparts : ∀ (parts rest : List String) (pss : List (List Glob)),
      (∀ part ∈ parts, ∀ c ∈ part.toList, isPlain c = true) →
      (parts ++ [file]).mapM parsePart = some pss → matchesAll pss rest = true →
      ∃ name, rest = parts ++ [name] := by
    intro parts
    induction parts with
    | nil =>
      intro rest pss _ hmap hmatch
      rw [List.nil_append, List.mapM_cons, List.mapM_nil] at hmap
      obtain ⟨ps, -, hmap⟩ := Option.bind_eq_some_iff.mp hmap
      obtain rfl := Option.some.inj hmap
      rcases rest with _ | ⟨name, _ | ⟨other, rest⟩⟩
      · simp [matchesAll] at hmatch
      · exact ⟨name, rfl⟩
      · simp [matchesAll] at hmatch
    | cons part parts ih =>
      intro rest pss hplain hmap hmatch
      rw [List.cons_append, List.mapM_cons, parsePart_plain (hplain part List.mem_cons_self)] at hmap
      obtain ⟨ps, hps, hmap⟩ := Option.bind_eq_some_iff.mp hmap
      obtain rfl := Option.some.inj hps
      obtain ⟨pss', hmap', hmap⟩ := Option.bind_eq_some_iff.mp hmap
      obtain rfl := Option.some.inj hmap
      cases rest with
      | nil => simp [matchesAll] at hmatch
      | cons first rest =>
        rw [matchesAll, List.head?_cons, Option.any_some, Bool.and_eq_true, matchGlob_char_iff,
          String.toList_inj] at hmatch
        obtain ⟨name, hname⟩ := ih rest pss' (fun q hq => hplain q (List.mem_cons_of_mem part hq))
          hmap' hmatch.2
        exact ⟨name, by rw [hmatch.1, hname, List.cons_append]⟩
  rw [globMatches] at h
  cases hmap : (cleanParts dir ++ [file]).mapM parsePart with
  | none => simp [hmap] at h
  | some pss =>
    simp only [hmap] at h
    obtain ⟨name, hname⟩ := hparts _ _ pss (fun part hpart c hc =>
      hdir c (mem_of_mem_split (mem_cleanParts hpart) hc).1) hmap h
    have hbase : base path = name := by rw [base, hname]; simp
    rw [joinPath, hbase, ← hname, join_split]

end GoPath
