/-
  AuthzAgent.Pips.Path

  The jsonPath subset that a PIP may use (contract.go of pips): a walk over the
  text of a path, and that what it accepts is a list of segments, each a field,
  an index or a wildcard.
-/

import AuthzAgent.Lib.GoText

namespace AuthzAgent.Pips

/-! ## The check -/

inductive PathError where
  | noDollar (path : String)
  | emptySegment (path : String)
  | emptyField
  | invalidField (name : String)
  | unclosed (path : String)
  | bracket (inner path : String)
  | unexpected (rest path : String)
deriving DecidableEq, Repr

/-- The text of an error, with `quote` for the `%q` format. -/
def PathError.message (quote : String → String) : PathError → String
  | .noDollar path => "jsonPath must start with '$' (got " ++ quote path ++ ")"
  | .emptySegment path =>
    "empty path segment in " ++ quote path ++ " (recursive descent '..' is not supported)"
  | .emptyField => "empty field name"
  | .invalidField name => "invalid field name " ++ quote name
  | .unclosed path => "unclosed '[' in " ++ quote path
  | .bracket inner path => "unsupported bracket [" ++ inner ++ "] in " ++ quote path ++
      " (only [n] and [*]; filters/recursive-descent are deferred)"
  | .unexpected rest path => "unexpected token at " ++ quote rest ++ " in " ++ quote path

def endsField (c : Char) : Bool := c == '.' || c == '['

/-- What a field name may not hold. -/
def isReserved (c : Char) : Bool := c == '$' || c == '*' || c == '?' || c == '[' || c == ']'

def checkField (field : List Char) : Except PathError Unit :=
  if field = [] then .error .emptyField
  else if field.any isReserved then .error (.invalidField (String.ofList field))
  else .ok ()

/-- A decimal digit. -/
def isDigit (c : Char) : Bool := '0' ≤ c && c ≤ '9'

def isAllDigits (s : List Char) : Bool := s ≠ [] && s.all isDigit

/-- One round of the loop of `validatePath`: the length of the segment at the
    head of a text. -/
def segmentLength (path : String) : List Char → Except PathError Nat
  | '.' :: cs =>
    let field := cs.takeWhile fun c => !endsField c
    if field = [] then .error (.emptySegment path)
    else (checkField field).map fun _ => field.length + 1
  | '[' :: cs =>
    let inner := cs.takeWhile (· ≠ ']')
    if inner.length = cs.length then .error (.unclosed path)
    else if inner ≠ ['*'] ∧ isAllDigits inner = false then
      .error (.bracket (String.ofList inner) path)
    else .ok (inner.length + 2)
  | rest => .error (.unexpected (String.ofList rest) path)

/-- The loop of `validatePath`.  The first number counts the characters of the
    last segment still to step over. -/
def validateSegments (path : String) : Nat → List Char → Except PathError Unit
  | _, [] => .ok ()
  | skip + 1, _ :: cs => validateSegments path skip cs
  | 0, c :: cs =>
    match segmentLength path (c :: cs) with
    | .error e => .error e
    | .ok length => validateSegments path (length - 1) cs

def validatePath (path : String) (absolute : Bool) : Except PathError Unit :=
  if absolute then
    match path.toList with
    | '$' :: cs => validateSegments path 0 cs
    | _ => .error (.noDollar path)
  else
    -- the first segment is a bare field name
    let field := path.toList.takeWhile fun c => !endsField c
    match checkField field with
    | .error e => .error e
    | .ok _ => validateSegments path 0 (path.toList.drop field.length)

/-! ## Segments -/

/-- A segment of a path. -/
inductive PathSeg where
  | field (name : List Char)
  | index (digits : List Char)
  | wildcard
deriving DecidableEq, Repr

/-- The text of a segment. -/
def PathSeg.text : PathSeg → List Char
  | .field name => '.' :: name
  | .index digits => '[' :: (digits ++ [']'])
  | .wildcard => ['[', '*', ']']

/-- A field has a name without the characters of the syntax, an index digits. -/
def PathSeg.Valid : PathSeg → Prop
  | .field name => name ≠ [] ∧ ∀ c ∈ name, endsField c = false ∧ isReserved c = false
  | .index digits => digits ≠ [] ∧ ∀ c ∈ digits, isDigit c = true
  | .wildcard => True

/-- The text of a path after the dollar. -/
def segmentsText (segs : List PathSeg) : List Char := segs.flatMap PathSeg.text

theorem checkField_eq_ok {field : List Char} (h : checkField field = .ok ()) :
    field ≠ [] ∧ ∀ c ∈ field, isReserved c = false := by
  rw [checkField] at h
  split_ifs at h with hnil hany
  refine ⟨hnil, fun c hc => ?_⟩
  by_contra hres
  exact hany (List.any_eq_true.mpr ⟨c, hc, Bool.eq_true_of_not_eq_false hres⟩)

/-- The loop steps over a segment. -/
theorem validateSegments_append (path : String) (xs rest : List Char) :
    validateSegments path xs.length (xs ++ rest) = validateSegments path 0 rest := by
  induction xs with
  | nil => rfl
  | cons x xs ih => exact ih

/-- A segment that is accepted. -/
theorem exists_segment {path : String} {cs : List Char} {length : Nat}
    (h : segmentLength path cs = .ok length) :
    ∃ (seg : PathSeg) (rest : List Char), seg.Valid ∧ cs = seg.text ++ rest ∧
      length = seg.text.length := by
  rw [segmentLength.eq_def] at h
  split at h
  · rename_i cs
    obtain ⟨name, hname⟩ : ∃ name, cs.takeWhile (fun c => !endsField c) = name := ⟨_, rfl⟩
    simp only [hname] at h
    split_ifs at h with hnil
    cases hcheck : checkField name with
    | error e => rw [hcheck] at h; cases h
    | ok u =>
      rw [hcheck] at h
      have hreserved := (checkField_eq_ok hcheck).2
      refine ⟨.field name, cs.dropWhile fun c => !endsField c, ⟨hnil, fun c hc => ⟨?_, hreserved c hc⟩⟩,
        ?_, (Except.ok.inj h).symm⟩
      · rw [← hname] at hc
        simpa using List.all_eq_true.mp List.all_takeWhile c hc
      · rw [PathSeg.text, List.cons_append, ← hname, List.takeWhile_append_dropWhile]
  · rename_i cs
    obtain ⟨inner, hinner⟩ : ∃ inner, cs.takeWhile (· ≠ ']') = inner := ⟨_, rfl⟩
    simp only [hinner] at h
    split_ifs at h with hshort hkind
    have hsplit : cs = inner ++ cs.dropWhile (· ≠ ']') := by
      rw [← hinner, List.takeWhile_append_dropWhile]
    have hclose : ∃ rest, cs.dropWhile (· ≠ ']') = ']' :: rest := by
      cases hdrop : cs.dropWhile (· ≠ ']') with
      | nil =>
        rw [hdrop, List.append_nil] at hsplit
        exact absurd (by rw [← hsplit]) hshort
      | cons c rest =>
        have hhead := List.head?_dropWhile_not (fun c : Char => decide (c ≠ ']')) cs
        rw [hdrop] at hhead
        have hc : c = ']' := by simpa using hhead
        exact ⟨rest, by rw [hc]⟩
    obtain ⟨rest, hrest⟩ := hclose
    rw [hrest] at hsplit
    have hlength : length = inner.length + 2 := (Except.ok.inj h).symm
    by_cases hstar : inner = ['*']
    · refine ⟨.wildcard, rest, True.intro, ?_, ?_⟩
      · rw [hsplit, hstar]
        rfl
      · rw [hlength, hstar]
        rfl
    · have hdigits : isAllDigits inner = true :=
        Bool.eq_true_of_not_eq_false fun hfalse => hkind ⟨hstar, hfalse⟩
      rw [isAllDigits, Bool.and_eq_true, decide_eq_true_eq, List.all_eq_true] at hdigits
      refine ⟨.index inner, rest, hdigits, ?_, ?_⟩
      · rw [PathSeg.text, List.cons_append, List.append_assoc, List.singleton_append]
        exact congrArg _ hsplit
      · rw [hlength, PathSeg.text, List.length_cons, List.length_append]
        rfl
  · cases h

theorem exists_segments {path : String} {cs : List Char} (h : validateSegments path 0 cs = .ok ()) :
    ∃ segs : List PathSeg, (∀ seg ∈ segs, seg.Valid) ∧ cs = segmentsText segs := by
  induction hn : cs.length using Nat.strong_induction_on generalizing cs with
  | _ n ih =>
    cases cs with
    | nil => exact ⟨[], fun _ h => absurd h List.not_mem_nil, rfl⟩
    | cons c cs =>
      rw [validateSegments] at h
      cases hseg : segmentLength path (c :: cs) with
      | error e => rw [hseg] at h; cases h
      | ok length =>
        rw [hseg] at h
        obtain ⟨seg, rest, hvalid, htext, hlength⟩ := exists_segment hseg
        -- the text of a segment is not empty
        obtain ⟨d, ds, hds⟩ : ∃ d ds, seg.text = d :: ds := by
          cases seg <;> exact ⟨_, _, rfl⟩
        rw [hds, List.cons_append] at htext
        obtain ⟨rfl, rfl⟩ := List.cons.inj htext
        have hrest : validateSegments path 0 rest = .ok () := by
          rw [hlength, hds] at h
          rw [← validateSegments_append path ds rest]
          exact h
        have hlt : rest.length < n := by
          rw [← hn, List.length_cons, List.length_append]
          omega
        obtain ⟨segs, hsegs, rfl⟩ := ih rest.length hlt hrest rfl
        refine ⟨seg :: segs, ?_, ?_⟩
        · intro s hs
          rcases List.mem_cons.mp hs with rfl | hs
          · exact hvalid
          · exact hsegs s hs
        · show c :: (ds ++ segmentsText segs) = seg.text ++ segmentsText segs
          rw [hds, List.cons_append]

theorem exists_segments_of_validatePath {path : String} (h : validatePath path true = .ok ()) :
    ∃ segs : List PathSeg, (∀ seg ∈ segs, seg.Valid) ∧ path.toList = '$' :: segmentsText segs := by
  rw [validatePath, if_pos rfl] at h
  split at h
  · rename_i cs hcs
    obtain ⟨segs, hsegs, rfl⟩ := exists_segments h
    exact ⟨segs, hsegs, hcs⟩
  · cases h

/-! ## Texts of segments -/

/-- The text after a segment starts another one, or is empty. -/
theorem head_segmentsText (segs : List PathSeg) :
    ∀ c ∈ (segmentsText segs).head?, endsField c = true := by
  intro c hc
  cases segs with
  | nil => cases hc
  | cons seg segs =>
    cases seg with
    | field name =>
      obtain rfl : '.' = c := Option.some.inj hc
      rfl
    | index digits =>
      obtain rfl : '[' = c := Option.some.inj hc
      rfl
    | wildcard =>
      obtain rfl : '[' = c := Option.some.inj hc
      rfl

/-- Taking characters stops at the end of a run of them. -/
theorem takeWhile_run {p : Char → Bool} {run rest : List Char} (hrun : ∀ c ∈ run, p c = true)
    (hrest : ∀ c ∈ rest.head?, p c = false) : (run ++ rest).takeWhile p = run := by
  rw [List.takeWhile_append_of_pos hrun]
  cases rest with
  | nil => rw [List.takeWhile_nil, List.append_nil]
  | cons c rest =>
    rw [List.takeWhile_cons_of_neg (ne_true_of_eq_false (hrest c rfl)), List.append_nil]

/-- A segment is accepted. -/
theorem segmentLength_text (path : String) {seg : PathSeg} (hseg : seg.Valid) (segs : List PathSeg) :
    segmentLength path (seg.text ++ segmentsText segs) = .ok seg.text.length := by
  have hinner : ∀ inner : List Char, (∀ c ∈ inner, c ≠ ']') →
      (inner ++ ']' :: segmentsText segs).takeWhile (· ≠ ']') = inner := by
    intro inner hinner
    refine takeWhile_run (fun c hc => decide_eq_true (hinner c hc)) fun c hc => ?_
    obtain rfl : ']' = c := Option.some.inj hc
    rfl
  cases seg with
  | field name =>
    have htake : (name ++ segmentsText segs).takeWhile (fun c => !endsField c) = name := by
      refine takeWhile_run (fun c hc => ?_) fun c hc => ?_
      · rw [(hseg.2 c hc).1]
        rfl
      · rw [head_segmentsText segs c hc]
        rfl
    have hcheck : checkField name = .ok () := by
      rw [checkField, if_neg hseg.1, if_neg]
      rw [Bool.not_eq_true, List.any_eq_false]
      exact fun c hc => ne_true_of_eq_false (hseg.2 c hc).2
    rw [PathSeg.text, List.cons_append, segmentLength]
    simp only [htake]
    rw [if_neg hseg.1, hcheck]
    rfl
  | index digits =>
    have hdigits : ∀ c ∈ digits, c ≠ ']' := by
      intro c hc heq
      have hdigit := hseg.2 c hc
      rw [heq] at hdigit
      cases hdigit
    have hall : isAllDigits digits = true := by
      rw [isAllDigits, Bool.and_eq_true, decide_eq_true_eq, List.all_eq_true]
      exact hseg
    rw [PathSeg.text, List.cons_append, List.append_assoc, List.singleton_append, segmentLength]
    simp only [hinner digits hdigits]
    rw [if_neg (by simp), if_neg (by simp [hall])]
    simp
  | wildcard =>
    have hstar := hinner ['*'] (by simp)
    show segmentLength path ('[' :: (['*'] ++ ']' :: segmentsText segs)) = _
    rw [segmentLength]
    simp only [hstar]
    rw [if_neg (by simp), if_neg (by simp)]
    rfl

theorem validateSegments_text (path : String) {segs : List PathSeg}
    (hsegs : ∀ seg ∈ segs, seg.Valid) : validateSegments path 0 (segmentsText segs) = .ok () := by
  induction segs with
  | nil => rfl
  | cons seg segs ih =>
    have hlength := segmentLength_text path (hsegs seg List.mem_cons_self) segs
    obtain ⟨c, cs, hcs⟩ : ∃ c cs, seg.text = c :: cs := by
      cases seg <;> exact ⟨_, _, rfl⟩
    show validateSegments path 0 (seg.text ++ segmentsText segs) = _
    rw [hcs, List.cons_append] at hlength ⊢
    rw [validateSegments, hlength]
    show validateSegments path cs.length (cs ++ segmentsText segs) = _
    rw [validateSegments_append]
    exact ih fun s hs => hsegs s (List.mem_cons_of_mem seg hs)

theorem validatePath_text {path : String} {segs : List PathSeg} (hsegs : ∀ seg ∈ segs, seg.Valid)
    (hpath : path.toList = '$' :: segmentsText segs) : validatePath path true = .ok () := by
  rw [validatePath, if_pos rfl, hpath]
  exact validateSegments_text path hsegs

end AuthzAgent.Pips
