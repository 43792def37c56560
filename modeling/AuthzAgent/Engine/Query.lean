/-
  AuthzAgent.Engine.Query

  The queries of the Rego engine (engine.go in authz-agent): the text that
  `Query` builds for a data path, how Rego's lexer reads it, and the cache of
  prepared queries, which the text keys.

  A string of Rego is written as a JSON string is, so `JsonText.scanString` is
  its lexer.  `Query` escapes the quotes of a segment and not its backslashes.
  The text of a path is therefore read as that path exactly when no segment
  holds a backslash: a string that denotes a backslash takes two characters of
  the text, and the text has one.  Two paths never share a text.
-/

import AuthzAgent.Lib.Dict
import AuthzAgent.Lib.JsonTree

namespace AuthzAgent

open JsonText (Piece scanPieces joinPieces scanString simpleEscape)

namespace Engine

/-! ## Queries -/

/-- The replacement of one character by `strings.ReplaceAll(s, "\"", "\\\"")`. -/
def escapeQuote (c : Char) : List Char := if c = '"' then ['\\', '"'] else [c]

/-- What `Query` writes for a segment. -/
def segmentText (s : String) : List Char :=
  '[' :: '"' :: (s.toList.flatMap escapeQuote ++ ['"', ']'])

def query (segments : List String) : List Char :=
  "data".toList ++ segments.flatMap segmentText

/-! ## Rego's reading of a reference -/

/-- Bracketed strings up to the end of the text. -/
def readBrackets : Nat → List Char → Option (List String)
  | _, [] => some []
  | fuel + 1, '[' :: '"' :: cs =>
    match scanString cs with
    | some (s, ']' :: rest) => (readBrackets fuel rest).map (s :: ·)
    | _ => none
  | _, _ => none

/-- The segments of a text that is the reference `data` with bracketed strings
    behind it, and nothing else. -/
def readReference : List Char → Option (List String)
  | 'd' :: 'a' :: 't' :: 'a' :: rest => readBrackets rest.length rest
  | _ => none

/-- A segment without control characters. -/
def Printable (s : String) : Prop := ∀ c ∈ s.toList, ¬ c.toNat < 0x20

/-! ## Reading back -/

theorem scanPieces_escapeQuotes {cs : List Char} (hprint : ∀ c ∈ cs, ¬ c.toNat < 0x20)
    (hslash : '\\' ∉ cs) (rest : List Char) :
    scanPieces (cs.flatMap escapeQuote ++ '"' :: rest) = some (cs.map Piece.char, rest) := by
  induction cs with
  | nil => rfl
  | cons c cs ih =>
    rw [List.forall_mem_cons] at hprint
    rw [List.mem_cons, not_or] at hslash
    have hrest := ih hprint.2 hslash.2
    rw [List.flatMap_cons, escapeQuote, List.map_cons]
    by_cases hquote : c = '"'
    · rw [if_pos hquote, hquote]
      show Option.map _ (scanPieces (cs.flatMap escapeQuote ++ '"' :: rest)) = _
      rw [hrest]
      rfl
    · rw [if_neg hquote, List.singleton_append, List.cons_append,
        JsonText.scanPieces_char hquote (Ne.symm hslash.1) hprint.1, hrest]
      rfl

theorem joinPieces_chars (cs : List Char) : joinPieces (cs.map Piece.char) = cs := by
  induction cs with
  | nil => rfl
  | cons c cs ih => rw [List.map_cons, joinPieces, ih]

theorem scanString_segment {s : String} (hprint : Printable s) (hslash : '\\' ∉ s.toList)
    (rest : List Char) :
    scanString (s.toList.flatMap escapeQuote ++ '"' :: rest) = some (s, rest) := by
  rw [scanString, scanPieces_escapeQuotes hprint hslash rest, Option.map_some, joinPieces_chars,
    String.ofList_toList]

theorem readBrackets_segments {segments : List String} (hprint : ∀ s ∈ segments, Printable s)
    (hslash : ∀ s ∈ segments, '\\' ∉ s.toList) {fuel : Nat} (hfuel : segments.length ≤ fuel) :
    readBrackets fuel (segments.flatMap segmentText) = some segments := by
  induction segments generalizing fuel with
  | nil => rw [List.flatMap_nil, readBrackets]
  | cons s segments ih =>
    rw [List.forall_mem_cons] at hprint hslash
    obtain ⟨fuel, rfl⟩ : ∃ n, fuel = n + 1 :=
      ⟨fuel - 1, by rw [List.length_cons] at hfuel; omega⟩
    have hrest := ih hprint.2 hslash.2 (Nat.le_of_succ_le_succ hfuel)
    have htext : (s :: segments).flatMap segmentText = '[' :: '"' ::
        (s.toList.flatMap escapeQuote ++ '"' :: ']' :: segments.flatMap segmentText) := by
      simp [segmentText]
    rw [htext, readBrackets, scanString_segment hprint.1 hslash.1]
    show (readBrackets fuel (segments.flatMap segmentText)).map _ = _
    rw [hrest]
    rfl

theorem length_le_segmentTexts (segments : List String) :
    segments.length ≤ (segments.flatMap segmentText).length := by
  induction segments with
  | nil => exact Nat.zero_le _
  | cons s segments ih =>
    rw [List.flatMap_cons, List.length_append, List.length_cons, segmentText, List.length_cons]
    omega

/-! ## The room that a string takes -/

/-- The characters that the shortest string literal for a text takes: a quote
    and a backslash take two. -/
def room (cs : List Char) : Nat := cs.length + cs.count '"' + cs.count '\\'

theorem room_cons (c : Char) (cs : List Char) :
    room (c :: cs) = (if c = '"' ∨ c = '\\' then 2 else 1) + room cs := by
  rw [room, room, List.length_cons, List.count_cons, List.count_cons]
  simp only [beq_iff_eq]
  by_cases hquote : c = '"'
  · have hslash : ¬ c = '\\' := by rw [hquote]; decide
    rw [if_pos hquote, if_neg hslash, if_pos (Or.inl hquote)]
    omega
  · by_cases hslash : c = '\\'
    · rw [if_neg hquote, if_pos hslash, if_pos (Or.inr hslash)]
      omega
    · rw [if_neg hquote, if_neg hslash, if_neg (not_or.mpr ⟨hquote, hslash⟩)]
      omega

theorem room_cons_le (c : Char) (cs : List Char) : room (c :: cs) ≤ 2 + room cs := by
  rw [room_cons]
  split <;> omega

def pieceRoom : Piece → Nat
  | .char c => room [c]
  | .codeUnit _ => 2

theorem room_joinPieces_le (ps : List Piece) : room (joinPieces ps) ≤ (ps.map pieceRoom).sum := by
  fun_induction joinPieces ps with
  | case1 => exact Nat.le_refl 0
  | case2 c rest ih =>
    have hc : pieceRoom (.char c) = (if c = '"' ∨ c = '\\' then 2 else 1) + 0 := room_cons c []
    rw [room_cons, List.map_cons, List.sum_cons, hc]
    omega
  | case3 hi lo rest hpair ih =>
    have hroom := room_cons_le
      (Char.ofNat (0x10000 + (hi - 0xd800) * 0x400 + (lo - 0xdc00))) (joinPieces rest)
    rw [List.map_cons, List.map_cons, List.sum_cons, List.sum_cons, pieceRoom, pieceRoom]
    omega
  | case4 hi lo rest hpair ih =>
    have hroom := room_cons_le (JsonText.loneUnit hi) (joinPieces (.codeUnit lo :: rest))
    rw [List.map_cons, List.sum_cons, pieceRoom]
    omega
  | case5 n rest hpair ih =>
    have hroom := room_cons_le (JsonText.loneUnit n) (joinPieces rest)
    rw [List.map_cons, List.sum_cons, pieceRoom]
    omega

/-- A literal takes the room of its text, and its closing quote. -/
theorem pieceRoom_scanPieces {cs rest : List Char} {ps : List Piece}
    (h : scanPieces cs = some (ps, rest)) : (ps.map pieceRoom).sum + 1 + rest.length ≤ cs.length := by
  fun_induction scanPieces cs generalizing ps rest with
  | case1 => cases h
  | case2 after =>
    obtain ⟨rfl, rfl⟩ := Prod.mk.inj (Option.some.inj h)
    rw [List.map_nil, List.sum_nil, List.length_cons]
    omega
  | case3 a b c d cs a' b' c' d' hd hc hb ha ih =>
    obtain ⟨⟨qs, r⟩, hqs, heq⟩ := Option.map_eq_some_iff.mp h
    obtain ⟨rfl, rfl⟩ := Prod.mk.inj heq
    have hle := ih hqs
    simp only [List.map_cons, List.sum_cons, pieceRoom, List.length_cons]
    omega
  | case4 => cases h
  | case5 c cs hunit e he ih =>
    obtain ⟨⟨qs, r⟩, hqs, heq⟩ := Option.map_eq_some_iff.mp h
    obtain ⟨rfl, rfl⟩ := Prod.mk.inj heq
    have hle := ih hqs
    have hroom : room [e] ≤ 2 + room [] := room_cons_le e []
    have hnil : room [] = 0 := rfl
    simp only [List.map_cons, List.sum_cons, pieceRoom, List.length_cons]
    omega
  | case6 => cases h
  | case7 => cases h
  | case8 c cs hquote _ hescape hcontrol ih =>
    obtain ⟨⟨qs, r⟩, hqs, heq⟩ := Option.map_eq_some_iff.mp h
    obtain ⟨rfl, rfl⟩ := Prod.mk.inj heq
    have hle := ih hqs
    have hslash : c ≠ '\\' := fun hc => by
      obtain ⟨d, more, hcons⟩ : ∃ d more, cs = d :: more := by
        cases cs with
        | nil => cases hqs
        | cons d more => exact ⟨d, more, rfl⟩
      exact hescape d more hc hcons
    have hroom : room [c] = 1 := by
      rw [room_cons, if_neg (not_or.mpr ⟨hquote, hslash⟩)]
      rfl
    simp only [List.map_cons, List.sum_cons, pieceRoom, List.length_cons, hroom]
    omega

theorem room_scanString {cs rest : List Char} {s : String} (h : scanString cs = some (s, rest)) :
    room s.toList + 1 + rest.length ≤ cs.length := by
  obtain ⟨⟨ps, r⟩, hps, heq⟩ := Option.map_eq_some_iff.mp h
  obtain ⟨rfl, rfl⟩ := Prod.mk.inj heq
  have hle := pieceRoom_scanPieces hps
  have hjoin := room_joinPieces_le ps
  show room (String.ofList (joinPieces ps)).toList + 1 + r.length ≤ cs.length
  rw [String.toList_ofList]
  omega

theorem room_readBrackets {fuel : Nat} {cs : List Char} {segments : List String}
    (h : readBrackets fuel cs = some segments) :
    (segments.map fun s => room s.toList + 4).sum ≤ cs.length := by
  fun_induction readBrackets fuel cs generalizing segments with
  | case1 =>
    obtain rfl := Option.some.inj h
    exact Nat.le_refl 0
  | case2 fuel cs s rest hs ih =>
    obtain ⟨more, hmore, rfl⟩ := Option.map_eq_some_iff.mp h
    have hle := ih hmore
    have hroom := room_scanString hs
    simp only [List.map_cons, List.sum_cons, List.length_cons] at hroom ⊢
    omega
  | case3 => cases h
  | case4 => cases h

/-! ## What the text of a path is read as -/

theorem length_flatMap_escapeQuote (cs : List Char) :
    (cs.flatMap escapeQuote).length = cs.length + cs.count '"' := by
  induction cs with
  | nil => rfl
  | cons c cs ih =>
    rw [List.flatMap_cons, List.length_append, ih, escapeQuote, List.length_cons,
      List.count_cons]
    simp only [beq_iff_eq]
    split
    · rw [List.length_cons, List.length_singleton]
      omega
    · rw [List.length_singleton]
      omega

/-- The text of a path is shorter than the room of its segments by their
    backslashes. -/
theorem length_segmentTexts (segments : List String) :
    (segments.flatMap segmentText).length + (segments.map fun s => s.toList.count '\\').sum =
      (segments.map fun s => room s.toList + 4).sum := by
  induction segments with
  | nil => rfl
  | cons s segments ih =>
    simp only [List.flatMap_cons, List.length_append, List.map_cons, List.sum_cons, segmentText,
      List.length_cons, length_flatMap_escapeQuote, List.length_nil, room] at ih ⊢
    omega

/-- The text of a path is read as that path exactly when no segment holds a
    backslash. -/
theorem readReference_query {segments : List String} (hprint : ∀ s ∈ segments, Printable s) :
    readReference (query segments) = some segments ↔ ∀ s ∈ segments, '\\' ∉ s.toList := by
  have hread : readReference (query segments) =
      readBrackets (segments.flatMap segmentText).length (segments.flatMap segmentText) := rfl
  rw [hread]
  constructor
  · intro h s hs
    have hroom := room_readBrackets h
    have htext := length_segmentTexts segments
    have hle := List.le_sum_of_mem
      (List.mem_map_of_mem hs : s.toList.count '\\' ∈ segments.map fun s => s.toList.count '\\')
    exact List.count_eq_zero.mp (by omega)
  · intro hslash
    exact readBrackets_segments hprint hslash (length_le_segmentTexts segments)

/-! ## Different paths -/

/-- A segment does not begin with a quote in the text. -/
theorem head_escaped {cs : List Char} {r : List Char} (hne : cs ≠ []) :
    (cs.flatMap escapeQuote ++ r).head? ≠ some '"' := by
  cases cs with
  | nil => exact absurd rfl hne
  | cons c cs =>
    rw [List.flatMap_cons, escapeQuote]
    split
    · exact fun h => absurd (Option.some.inj h) (by decide)
    · rename_i hc
      exact fun h => hc (Option.some.inj h)

/-- What a segment begins with in the text, other than a quote or a backslash,
    it begins with itself. -/
theorem exists_of_escaped {cs r t : List Char} {c : Char} (hquote : c ≠ '"') (hslash : c ≠ '\\')
    (h : cs.flatMap escapeQuote ++ '"' :: r = c :: t) :
    ∃ ds, cs = c :: ds ∧ ds.flatMap escapeQuote ++ '"' :: r = t := by
  cases cs with
  | nil => exact absurd (List.cons.inj h).1 (Ne.symm hquote)
  | cons d ds =>
    rw [List.flatMap_cons, escapeQuote] at h
    split at h
    · exact absurd (List.cons.inj h).1 (Ne.symm hslash)
    · obtain ⟨rfl, ht⟩ := List.cons.inj h
      exact ⟨ds, rfl, ht⟩

/-- Where one path is through with a segment and the other is not, the texts
    differ. -/
theorem segmentTexts_ne (as bs : List String) (cs : List Char) :
    ']' :: as.flatMap segmentText ≠
      cs.flatMap escapeQuote ++ '"' :: ']' :: bs.flatMap segmentText := by
  -- The remainders change sides with each segment, so the induction is on both.
  induction hn : as.length + bs.length using Nat.strong_induction_on generalizing as bs cs with
  | h n ih =>
    intro h
    obtain ⟨ds, -, hbracket⟩ := exists_of_escaped (by decide) (by decide) h.symm
    cases as with
    | nil => exact List.append_ne_nil_of_right_ne_nil _ (List.cons_ne_nil _ _) hbracket
    | cons a as =>
      rw [List.flatMap_cons] at hbracket
      obtain ⟨es, -, hquote⟩ := exists_of_escaped (by decide) (by decide) hbracket
      -- The quote behind the bracket can only be the one that ends the segment.
      have hnil : es = [] := by
        by_contra hne
        exact head_escaped hne (congrArg List.head? hquote)
      rw [hnil] at hquote
      have hrest := (List.cons.inj hquote).2
      rw [List.append_eq, List.append_assoc] at hrest
      rw [List.length_cons] at hn
      exact ih (bs.length + as.length) (by omega) bs as a.toList rfl hrest

theorem escaped_inj {cs ds : List Char} {as bs : List String}
    (h : cs.flatMap escapeQuote ++ '"' :: ']' :: as.flatMap segmentText =
      ds.flatMap escapeQuote ++ '"' :: ']' :: bs.flatMap segmentText) :
    cs = ds ∧ as.flatMap segmentText = bs.flatMap segmentText := by
  induction cs generalizing ds with
  | nil =>
    have hds : ds = [] := by
      by_contra hne
      exact head_escaped hne (congrArg List.head? h.symm)
    rw [hds, List.flatMap_nil, List.nil_append, List.nil_append, List.cons.injEq,
      List.cons.injEq] at h
    exact ⟨hds.symm, h.2.2⟩
  | cons c cs ih =>
    by_cases hquote : c = '"'
    · rw [hquote, List.flatMap_cons, escapeQuote, if_pos rfl] at h
      cases ds with
      | nil => exact absurd (List.cons.inj h).1 (by decide)
      | cons d ds =>
        rw [List.flatMap_cons, escapeQuote] at h
        split at h
        · rename_i hd
          obtain ⟨rfl, hrest⟩ := ih (List.cons.inj (List.cons.inj h).2).2
          exact ⟨by rw [hquote, hd], hrest⟩
        · -- A backslash of its own is followed by the end of its segment.
          obtain ⟨-, h⟩ := List.cons.inj h
          have hnil : ds = [] := by
            by_contra hne
            exact head_escaped hne (congrArg List.head? h.symm)
          rw [hnil] at h
          exact absurd (List.cons.inj h).2.symm (segmentTexts_ne bs as cs)
    · by_cases hslash : c = '\\'
      · rw [hslash, List.flatMap_cons, escapeQuote, if_neg (by decide)] at h
        cases ds with
        | nil => exact absurd (List.cons.inj h).1 (by decide)
        | cons d ds =>
          rw [List.flatMap_cons, escapeQuote] at h
          split at h
          · obtain ⟨-, h⟩ := List.cons.inj h
            have hnil : cs = [] := by
              by_contra hne
              exact head_escaped hne (congrArg List.head? h)
            rw [hnil] at h
            exact absurd (List.cons.inj h).2 (segmentTexts_ne as bs ds)
          · obtain ⟨hd, htail⟩ := List.cons.inj h
            obtain ⟨rfl, hrest⟩ := ih htail
            exact ⟨by rw [hslash, hd], hrest⟩
      · rw [List.flatMap_cons, escapeQuote, if_neg hquote] at h
        obtain ⟨es, hds, htail⟩ := exists_of_escaped hquote hslash h.symm
        obtain ⟨rfl, hrest⟩ := ih htail.symm
        exact ⟨hds.symm, hrest⟩

/-- Different paths have different texts, also where a text is not read as its
    path. -/
theorem query_injective : Function.Injective query := by
  intro as bs h
  replace h : as.flatMap segmentText = bs.flatMap segmentText := List.append_cancel_left h
  induction as generalizing bs with
  | nil =>
    cases bs with
    | nil => rfl
    | cons b bs => exact absurd h.symm (by rw [List.flatMap_cons]; exact List.cons_ne_nil _ _)
  | cons a as ih =>
    cases bs with
    | nil => exact absurd h (by rw [List.flatMap_cons]; exact List.cons_ne_nil _ _)
    | cons b bs =>
      simp only [List.flatMap_cons, segmentText, List.cons_append, List.append_assoc,
        List.nil_append, List.cons.injEq, true_and] at h
      obtain ⟨hab, hrest⟩ := escaped_inj h
      rw [String.toList_injective hab, ih hrest]

/-- A path stays in its query exactly when no segment holds a backslash: the
    text is read as the segments of the path, and no other path has it. -/
theorem query_confines_iff (segments : List String) (hprint : ∀ s ∈ segments, Printable s) :
    (readReference (query segments) = some segments ∧
        ∀ others, query others = query segments → others = segments) ↔
      ∀ s ∈ segments, '\\' ∉ s.toList := by
  rw [readReference_query hprint]
  exact ⟨fun h => h.1, fun h => ⟨h, fun others heq => query_injective heq⟩⟩

theorem query_confines_quote :
    (∀ s ∈ ["opa", "a\"b"], Printable s) ∧
      readReference (query ["opa", "a\"b"]) = some ["opa", "a\"b"] :=
  have hprint : ∀ s ∈ ["opa", "a\"b"], Printable s := by
    intro s hs
    rcases List.mem_pair.mp hs with rfl | rfl <;> exact JsonText.forall_mem_of_all rfl
  ⟨hprint, ((query_confines_iff ["opa", "a\"b"] hprint).mpr (by decide)).1⟩

/-- A backslash in a segment is read with the character behind it. -/
theorem query_backslash_escapes :
    (∀ s ∈ ["a\\tb"], Printable s) ∧ readReference (query ["a\\tb"]) = some ["a\tb"] := by
  refine ⟨fun s hs => ?_, by decide⟩
  obtain rfl := List.mem_singleton.mp hs
  exact JsonText.forall_mem_of_all rfl

/-! ## Prepared queries -/

section

variable {ε π : Type} (compile : String → Except ε π)

/-- `Engine.prepare`: the prepared query, and the cache with it. -/
def prepare (prepared : Dict π) (q : String) : Except ε (π × Dict π) :=
  match prepared.lookup q with
  | some pq => .ok (pq, prepared)
  | none => (compile q).map fun pq => (pq, prepared.insert q pq)

/-- The cache after `Eval` of a path; a query that does not compile leaves it. -/
def cacheAfter (prepared : Dict π) (segments : List String) : Dict π :=
  match prepare compile prepared (String.ofList (query segments)) with
  | .ok r => r.2
  | .error _ => prepared

/-- Every entry is what its text compiles to. -/
def Faithful (prepared : Dict π) : Prop :=
  ∀ q pq, prepared.lookup q = some pq → compile q = .ok pq

variable {compile} {prepared : Dict π}

theorem Faithful.insert (h : Faithful compile prepared) {q : String} {pq : π}
    (hq : compile q = .ok pq) : Faithful compile (prepared.insert q pq) := by
  intro r pr hr
  by_cases hrq : r = q
  · rw [hrq, AList.lookup_insert, Option.some.injEq] at hr
    rw [hrq, hq, hr]
  · rw [AList.lookup_insert_ne hrq] at hr
    exact h r pr hr

/-- A cache that is faithful gives what the text compiles to, and stays so. -/
theorem Faithful.prepare (h : Faithful compile prepared) (q : String) :
    (prepare compile prepared q).map Prod.fst = compile q ∧
      ∀ r, Engine.prepare compile prepared q = .ok r → Faithful compile r.2 := by
  rw [Engine.prepare]
  cases hlookup : prepared.lookup q with
  | some pq =>
    refine ⟨(h q pq hlookup).symm, fun r hr => ?_⟩
    rw [← Except.ok.inj hr]
    exact h
  | none =>
    cases hq : compile q with
    | error e => exact ⟨rfl, fun r hr => (by cases hr)⟩
    | ok pq =>
      refine ⟨rfl, fun r hr => ?_⟩
      rw [← Except.ok.inj hr]
      exact h.insert hq

theorem Faithful.cacheAfter (h : Faithful compile prepared) (segments : List String) :
    Faithful compile (cacheAfter compile prepared segments) := by
  rw [Engine.cacheAfter]
  split
  · rename_i r hr
    exact (h.prepare _).2 r hr
  · exact h

/-- Whatever was evaluated before, a path runs what its own text compiles to. -/
theorem prepare_after (paths : List (List String)) (segments : List String) :
    (prepare compile (paths.foldl (cacheAfter compile) ∅) (String.ofList (query segments))).map
      Prod.fst = compile (String.ofList (query segments)) := by
  have hrun (prepared : Dict π) (h : Faithful compile prepared) :
      Faithful compile (paths.foldl (Engine.cacheAfter compile) prepared) := by
    induction paths generalizing prepared with
    | nil => exact h
    | cons path paths ih => exact ih _ (h.cacheAfter path)
  refine ((hrun ∅ fun q pq hq => ?_).prepare _).1
  rw [AList.lookup_empty] at hq
  cases hq

end

end Engine

end AuthzAgent
