/-
  AuthzAgent.PolicyIr.Offsets

  The offsets that the exact-key filter computes, along a text that writes a
  value (`JsonText.Written`): a value ends where its text ends (`valueEnd_eq`),
  the key of a member is read as JSON reads it (`key_eq`), and the table of
  brackets has the end of every container of the value (`exists_containerEnds`).
-/

import AuthzAgent.Lib.JsonWritten
import AuthzAgent.PolicyIr.ExactFilter

namespace AuthzAgent

open JsonText (Json Blank Written Listed WrittenMember Stops Opens IsBody Piece isBlank scanPieces
  joinPieces WellFormed)

namespace PolicyIr

namespace ExactFilter

variable {data : List Char}

/-! ## Positions -/

theorem getElem?_of_drop {i : Nat} {c : Char} {cs : List Char} (h : data.drop i = c :: cs) :
    data[i]? = some c := by
  rw [← List.head?_drop, h, List.head?_cons]

theorem drop_of_drop {i : Nat} {w rest : List Char} (h : data.drop i = w ++ rest) :
    data.drop (i + w.length) = rest := by
  rw [← List.drop_drop, h, List.drop_left]

theorem length_of_drop {i : Nat} {w rest : List Char} (h : data.drop i = w ++ rest)
    (hne : w ≠ []) : i + w.length + rest.length = data.length := by
  have hlength := congrArg List.length h
  have hpos := List.length_pos_iff.mpr hne
  rw [List.length_drop, List.length_append] at hlength
  omega

theorem slice_of_drop {i : Nat} {w rest : List Char} (h : data.drop i = w ++ rest) (hne : w ≠ []) :
    slice data i (i + w.length) = some w := by
  have hlength := length_of_drop h hne
  rw [slice, if_pos ⟨by omega, by omega⟩, h, Nat.add_sub_cancel_left, List.take_left]

theorem skipSpace_of_drop {i : Nat} {b rest : List Char} (hb : Blank b)
    (hrest : ∀ c ∈ rest.head?, isBlank c = false) (h : data.drop i = b ++ rest) :
    skipSpace data i = i + b.length := by
  have hstop : rest.takeWhile isBlank = [] := by
    cases rest with
    | nil => rfl
    | cons c rest => rw [List.takeWhile_cons, hrest c rfl]; rfl
  rw [skipSpace, h, List.takeWhile_append_of_pos hb, hstop, List.append_nil]

theorem opens_head {w rest : List Char} (h : Opens w) :
    ∀ c ∈ (w ++ rest).head?, isBlank c = false := by
  obtain ⟨c, cs, rfl, hblank, -⟩ := h
  intro d hd
  obtain rfl : c = d := Option.some.inj hd
  exact hblank

/-! ## Strings -/

theorem hexDigit_ne {c : Char} {n : Nat} (h : JsonText.hexDigit c = some n) :
    c ≠ '"' ∧ c ≠ '\\' := by
  constructor
  · rintro rfl
    have hnone : JsonText.hexDigit '"' = none := by decide
    rw [hnone] at h
    cases h
  · rintro rfl
    have hnone : JsonText.hexDigit '\\' = none := by decide
    rw [hnone] at h
    cases h

theorem stringEndFrom_char {c : Char} (h : c ≠ '"' ∧ c ≠ '\\') (i : Nat) (cs : List Char) :
    stringEndFrom i (c :: cs) = stringEndFrom (i + 1) cs := by
  rw [stringEndFrom.eq_def]
  split
  · contradiction
  · rename_i heq
    exact absurd (List.cons.inj heq).1 h.1
  · rename_i heq
    exact absurd (List.cons.inj heq).1 h.2
  · rename_i heq
    rw [(List.cons.inj heq).2]

theorem stringEndFrom_of_scanPieces {cs rest : List Char} {ps : List Piece}
    (h : scanPieces cs = some (ps, rest)) (i : Nat) :
    stringEndFrom i cs = some (i + (cs.length - rest.length)) := by
  fun_induction scanPieces cs generalizing ps rest i with
  | case1 => cases h
  | case2 after =>
    obtain ⟨-, rfl⟩ := Prod.mk.inj (Option.some.inj h)
    rw [stringEndFrom, List.length_cons]
    congr 1
    omega
  | case3 a b c d cs a' b' c' d' hd hc hb ha ih =>
    obtain ⟨⟨qs, r⟩, hqs, heq⟩ := Option.map_eq_some_iff.mp h
    obtain ⟨-, rfl⟩ := Prod.mk.inj heq
    have hr := JsonText.length_lt_of_scanPieces hqs
    rw [stringEndFrom, stringEndFrom_char (hexDigit_ne ha), stringEndFrom_char (hexDigit_ne hb),
      stringEndFrom_char (hexDigit_ne hc), stringEndFrom_char (hexDigit_ne hd), ih hqs]
    simp only [List.length_cons]
    congr 1
    omega
  | case4 => cases h
  | case5 c cs hunit e he ih =>
    obtain ⟨⟨qs, r⟩, hqs, heq⟩ := Option.map_eq_some_iff.mp h
    obtain ⟨-, rfl⟩ := Prod.mk.inj heq
    have hr := JsonText.length_lt_of_scanPieces hqs
    rw [stringEndFrom, ih hqs]
    simp only [List.length_cons]
    congr 1
    omega
  | case6 => cases h
  | case7 => cases h
  | case8 c cs hquote _ hescape hcontrol ih =>
    obtain ⟨⟨qs, r⟩, hqs, heq⟩ := Option.map_eq_some_iff.mp h
    obtain ⟨-, rfl⟩ := Prod.mk.inj heq
    obtain ⟨body, hcs, -⟩ := JsonText.scanPieces_spec hqs
    have hr := JsonText.length_lt_of_scanPieces hqs
    have hslash : c ≠ '\\' := fun hc => by
      obtain ⟨d, more, hcons⟩ := List.exists_cons_of_ne_nil
        (List.append_ne_nil_of_right_ne_nil body (List.cons_ne_nil '"' r))
      exact hescape d more hc (hcs.trans hcons)
    rw [stringEndFrom_char ⟨hquote, hslash⟩, ih hqs]
    simp only [List.length_cons]
    congr 1
    omega

theorem stringEnd_eq {i : Nat} {body rest : List Char} (hbody : IsBody body)
    (h : data.drop i = '"' :: (body ++ '"' :: rest)) :
    stringEnd data i = some (i + body.length + 2) := by
  obtain ⟨ps, hps⟩ := hbody
  have hdrop : data.drop (i + 1) = body ++ '"' :: rest :=
    drop_of_drop (w := ['"']) h
  rw [stringEnd, hdrop, stringEndFrom_of_scanPieces (hps rest), List.length_append,
    List.length_cons]
  congr 1
  omega

/-- The key of a member is the string that its text denotes. -/
theorem key_eq {i : Nat} {body rest : List Char} (hbody : IsBody body)
    (h : data.drop i = '"' :: (body ++ '"' :: rest)) :
    key data i (i + body.length + 2) = some (JsonText.bodyText body) := by
  have hraw : slice data i (i + body.length + 2) = some ('"' :: (body ++ ['"'])) := by
    have hdrop : data.drop i = ('"' :: (body ++ ['"'])) ++ rest := by rw [h]; simp
    have hslice := slice_of_drop hdrop (List.cons_ne_nil _ _)
    rw [List.length_cons, List.length_append, List.length_singleton] at hslice
    exact hslice
  rw [key, hraw, Option.map_some]
  congr 1
  split
  · have hstring : JsonText.string (String.ofList ('"' :: (body ++ ['"']))) =
        some (JsonText.bodyText body) := by
      have hskip : JsonText.skipBlank ('"' :: (body ++ ['"'])) = '"' :: (body ++ ['"']) := rfl
      rw [JsonText.string, JsonText.whole, String.toList_ofList, hskip]
      simp only [hbody.scanString []]
      rfl
    rw [hstring, Option.getD_some]
  · rename_i hslash
    have hplain : '\\' ∉ body := fun hmem =>
      hslash (List.mem_cons_of_mem _ (List.mem_append_left _ hmem))
    rw [List.tail_cons, List.dropLast_concat, hbody.bodyText_plain hplain]

/-! ## Ends of values -/

/-- The table has an entry for a container. -/
def Entry (ends : Ends) (i e : Nat) : Prop := ends.lookup i = some e

theorem endsValue_iff {c : Char} :
    endsValue c = true ↔ c = ',' ∨ c = ']' ∨ c = '}' ∨ isBlank c = true := by
  simp only [endsValue, List.contains_eq_mem, List.mem_cons, List.not_mem_nil, or_false,
    decide_eq_true_eq, isBlank, Bool.or_eq_true, beq_iff_eq]
  tauto

theorem not_endsValue_of_isNumberChar {c : Char} (h : JsonText.isNumberChar c = true) :
    endsValue c = false := by
  by_contra hc
  rw [Bool.not_eq_false, endsValue_iff] at hc
  have hfalse := (JsonText.stops_cons hc []).not_isNumberChar c rfl
  rw [h] at hfalse
  cases hfalse

theorem takeWhile_endsValue {w rest : List Char} (hw : ∀ c ∈ w, endsValue c = false)
    (hrest : Stops rest) : (w ++ rest).takeWhile (!endsValue ·) = w := by
  have hstop : rest.takeWhile (!endsValue ·) = [] := by
    cases rest with
    | nil => rfl
    | cons c rest =>
      rw [List.takeWhile_cons, endsValue_iff.mpr (hrest c rfl)]
      rfl
  have hall : ∀ c ∈ w, (!endsValue c) = true := fun c hc => by rw [hw c hc]; rfl
  rw [List.takeWhile_append_of_pos hall, hstop, List.append_nil]

theorem valueEnd_scalar {i : Nat} {j : Json} (hj : WellFormed 0 j) {rest : List Char}
    (hrest : Stops rest) (h : data.drop i = JsonText.print j ++ rest) (ends : Ends) :
    valueEnd data ends i = some (i + (JsonText.print j).length) := by
  have hplain {c : Char} {cs : List Char} (hp : JsonText.print j = c :: cs)
      (hc : ¬ (c = '{' ∨ c = '[')) (hquote : c ≠ '"')
      (hall : ∀ d ∈ JsonText.print j, endsValue d = false) :
      valueEnd data ends i = some (i + (JsonText.print j).length) := by
    have hat : data[i]? = some c := getElem?_of_drop (by rw [h, hp]; rfl)
    rw [valueEnd, hat]
    simp only [if_neg hc, if_neg hquote]
    rw [h, takeWhile_endsValue hall hrest]
  cases hj with
  | null => exact hplain rfl (by decide) (by decide) (JsonText.forall_mem_of_all rfl)
  | bool _ b =>
    cases b with
    | true => exact hplain rfl (by decide) (by decide) (JsonText.forall_mem_of_all rfl)
    | false => exact hplain rfl (by decide) (by decide) (JsonText.forall_mem_of_all rfl)
  | string hbody =>
    rename_i body
    have hdrop : data.drop i = '"' :: (body ++ '"' :: rest) := by rw [h]; simp [JsonText.print]
    rw [valueEnd, getElem?_of_drop hdrop]
    simp only [Char.reduceEq, or_self, if_false, if_true]
    rw [stringEnd_eq hbody hdrop]
    simp [JsonText.print]
    omega
  | number hnumber hchars =>
    rename_i text
    cases text with
    | nil => exact absurd hnumber (by decide)
    | cons c text =>
      have hc := hchars c List.mem_cons_self
      refine hplain rfl ?_ ?_ fun d hd => not_endsValue_of_isNumberChar (hchars d hd)
      · rintro (rfl | rfl) <;> exact absurd hc (by decide)
      · rintro rfl
        exact absurd hc (by decide)

theorem valueEnd_eq {ends : Ends} {depth i : Nat} {j : Json} {w rest : List Char}
    (hw : Written (Entry ends) depth i j w) (hrest : Stops rest) (h : data.drop i = w ++ rest) :
    valueEnd data ends i = some (i + w.length) := by
  rcases hw.form with ⟨hentry, text, rfl⟩ | ⟨hentry, text, rfl⟩ | ⟨hj, rfl⟩
  · rw [valueEnd, getElem?_of_drop (by rw [h]; rfl)]
    simp only [or_true, if_true]
    rw [hentry, Option.getD_some]
  · rw [valueEnd, getElem?_of_drop (by rw [h]; rfl)]
    simp only [true_or, if_true]
    rw [hentry, Option.getD_some]
  · exact valueEnd_scalar hj hrest h ends

/-- Behind a value, `next` steps over the blanks, and over a comma and its blanks. -/
theorem next_eq {ends : Ends} {depth i : Nat} {j : Json} {w b : List Char} {c : Char}
    {rest : List Char} (hw : Written (Entry ends) depth i j w) (hb : Blank b)
    (hc : c = ',' ∨ c = ']' ∨ c = '}') (h : data.drop i = w ++ (b ++ c :: rest)) :
    next data ends i = some (if c = ',' then skipSpace data (i + w.length + b.length + 1)
      else i + w.length + b.length) := by
  have hstops : Stops (b ++ c :: rest) :=
    JsonText.stops_blank hb (JsonText.stops_cons (by tauto) rest)
  have hblank : isBlank c = false := by rcases hc with rfl | rfl | rfl <;> decide
  have hhead : ∀ d ∈ (c :: rest).head?, isBlank d = false := by
    intro d hd
    obtain rfl : c = d := Option.some.inj hd
    exact hblank
  have hdrop := drop_of_drop h
  have hskip : skipSpace data (i + w.length) = i + w.length + b.length :=
    skipSpace_of_drop hb hhead hdrop
  rw [next, valueEnd_eq hw hstops h]
  simp only [hskip, getElem?_of_drop (drop_of_drop hdrop)]

/-! ## The table of brackets -/

/-- No entry from an offset on. -/
def Fresh (ends : Ends) (i : Nat) : Prop := ∀ k, i ≤ k → ends.lookup k = none

/-- The loop of `containerEnds` goes from one offset to another with the brackets
    opened before as they are; the entries that it adds lie between. -/
structure Walks (data : List Char) (ends : Ends) (i e : Nat) (ends' : Ends) : Prop where
  le : i ≤ e
  run : ∃ n ≤ e - i, ∀ fuel opened,
    containerEndsFrom data (fuel + n) i opened ends = containerEndsFrom data fuel e opened ends'
  below : ∀ k < i, ends'.lookup k = ends.lookup k
  fresh : Fresh ends i → Fresh ends' e

variable {ends ends' ends'' : Ends} {i m e : Nat}

theorem Walks.refl (data : List Char) (ends : Ends) (i : Nat) : Walks data ends i i ends :=
  ⟨Nat.le_refl i, ⟨0, Nat.zero_le _, fun _ _ => rfl⟩, fun _ _ => rfl, fun h => h⟩

theorem Walks.trans (h : Walks data ends i m ends') (h' : Walks data ends' m e ends'') :
    Walks data ends i e ends'' := by
  obtain ⟨n, hn, hrun⟩ := h.run
  obtain ⟨n', hn', hrun'⟩ := h'.run
  have hle := h.le
  have hle' := h'.le
  refine ⟨by omega, ⟨n' + n, by omega, fun fuel opened => ?_⟩, fun k hk => ?_,
    fun hfresh => h'.fresh (h.fresh hfresh)⟩
  · rw [← Nat.add_assoc, hrun, hrun']
  · rw [h'.below k (by omega), h.below k hk]

/-- The entries stay where the loop goes on. -/
theorem Walks.entry (h : Walks data ends i e ends') (hfresh : Fresh ends i) {k l : Nat}
    (hentry : Entry ends k l) : Entry ends' k l := by
  have hk : k < i := by
    by_contra hge
    rw [Entry, hfresh k (by omega)] at hentry
    cases hentry
  rw [Entry, h.below k hk]
  exact hentry

theorem containerEndsFrom_quote {fuel : Nat} {opened : List Nat} (h : data[i]? = some '"')
    (hend : stringEnd data i = some e) :
    containerEndsFrom data (fuel + 1) i opened ends = containerEndsFrom data fuel e opened ends := by
  rw [containerEndsFrom.eq_def]
  simp only [h, hend]

theorem containerEndsFrom_char {fuel : Nat} {opened : List Nat} {c : Char}
    (h : data[i]? = some c) (hquote : c ≠ '"') :
    containerEndsFrom data (fuel + 1) i opened ends =
      if c = '{' ∨ c = '[' then containerEndsFrom data fuel (i + 1) (i :: opened) ends
      else if c = '}' ∨ c = ']' then
        match opened with
        | o :: opened => containerEndsFrom data fuel (i + 1) opened ((o, i + 1) :: ends)
        | [] => none
      else containerEndsFrom data fuel (i + 1) opened ends := by
  rw [containerEndsFrom.eq_def]
  dsimp only
  split
  · rename_i hnone
    rw [h] at hnone
    cases hnone
  · rename_i hsome
    rw [h] at hsome
    exact absurd (Option.some.inj hsome) hquote
  · rename_i hsome
    rw [h] at hsome
    obtain rfl := Option.some.inj hsome
    rfl

theorem walks_char {c : Char} {cs : List Char} (h : data.drop i = c :: cs) (hquote : c ≠ '"')
    (hopen : ¬ (c = '{' ∨ c = '[')) (hclose : ¬ (c = '}' ∨ c = ']')) (ends : Ends) :
    Walks data ends i (i + 1) ends := by
  refine ⟨by omega, ⟨1, by omega, fun fuel opened => ?_⟩, fun _ _ => rfl,
    fun hfresh k hk => hfresh k (by omega)⟩
  rw [containerEndsFrom_char (getElem?_of_drop h) hquote, if_neg hopen, if_neg hclose]

/-- Characters that are no quotes and no brackets. -/
def PlainText (w : List Char) : Prop :=
  ∀ c ∈ w, c ≠ '"' ∧ ¬ (c = '{' ∨ c = '[') ∧ ¬ (c = '}' ∨ c = ']')

theorem walks_plain {w rest : List Char} (hw : PlainText w) (h : data.drop i = w ++ rest)
    (ends : Ends) : Walks data ends i (i + w.length) ends := by
  induction w generalizing i with
  | nil => exact Walks.refl data ends i
  | cons c w ih =>
    obtain ⟨hquote, hopen, hclose⟩ := hw c List.mem_cons_self
    have hstep := walks_char h hquote hopen hclose ends
    have hrest := ih (fun d hd => hw d (List.mem_cons_of_mem c hd))
      (drop_of_drop (w := [c]) h)
    rw [List.length_cons, Nat.add_comm w.length, ← Nat.add_assoc]
    exact hstep.trans hrest

theorem plainText_blank {b : List Char} (hb : Blank b) : PlainText b := by
  intro c hc
  have hblank := hb c hc
  simp only [isBlank, Bool.or_eq_true, beq_iff_eq] at hblank
  rcases hblank with ((rfl | rfl) | rfl) | rfl <;> decide

theorem walks_string {body rest : List Char} (hbody : IsBody body)
    (h : data.drop i = '"' :: (body ++ '"' :: rest)) (ends : Ends) :
    Walks data ends i (i + body.length + 2) ends := by
  refine ⟨by omega, ⟨1, by omega, fun fuel opened => ?_⟩, fun _ _ => rfl,
    fun hfresh k hk => hfresh k (by omega)⟩
  rw [containerEndsFrom_quote (getElem?_of_drop h) (stringEnd_eq hbody h)]

theorem walks_scalar {j : Json} (hj : WellFormed 0 j) {rest : List Char}
    (h : data.drop i = JsonText.print j ++ rest) (ends : Ends) :
    Walks data ends i (i + (JsonText.print j).length) ends := by
  cases hj with
  | null => exact walks_plain (JsonText.forall_mem_of_all rfl) h ends
  | bool _ b =>
    cases b with
    | true => exact walks_plain (JsonText.forall_mem_of_all rfl) h ends
    | false => exact walks_plain (JsonText.forall_mem_of_all rfl) h ends
  | string hbody =>
    rename_i body
    have hdrop : data.drop i = '"' :: (body ++ '"' :: rest) := by rw [h]; simp [JsonText.print]
    have hwalk := walks_string hbody hdrop ends
    have hlength : (JsonText.print (.string body)).length = body.length + 2 := by
      simp [JsonText.print]
    rw [hlength]
    exact hwalk
  | number hnumber hchars =>
    refine walks_plain (fun c hc => ?_) h ends
    have hnum := hchars c hc
    refine ⟨?_, ?_, ?_⟩
    · rintro rfl
      exact absurd hnum (by decide)
    · rintro (rfl | rfl) <;> exact absurd hnum (by decide)
    · rintro (rfl | rfl) <;> exact absurd hnum (by decide)

/-- A container: its opening bracket, what is inside, and its closing bracket. -/
theorem walks_container {o c : Char} (hbrackets : o = '[' ∧ c = ']' ∨ o = '{' ∧ c = '}')
    {inner rest : List Char} (h : data.drop i = o :: (inner ++ c :: rest)) (hfresh : Fresh ends i)
    (hinner : Walks data ends (i + 1) (i + 1 + inner.length) ends') :
    Walks data ends i (i + inner.length + 2) ((i, i + inner.length + 2) :: ends') := by
  obtain ⟨n, hn, hrun⟩ := hinner.run
  have hdrop : data.drop (i + 1) = inner ++ c :: rest := drop_of_drop (w := [o]) h
  have hopen : data[i]? = some o := getElem?_of_drop h
  have hclose : data[i + 1 + inner.length]? = some c := getElem?_of_drop (drop_of_drop hdrop)
  have hbelow : ∀ k ≤ i, ends'.lookup k = ends.lookup k := fun k hk => hinner.below k (by omega)
  refine ⟨by omega, ⟨n + 2, by omega, fun fuel opened => ?_⟩, fun k hk => ?_, fun _ k hk => ?_⟩
  · have hfirst : containerEndsFrom data (fuel + (n + 2)) i opened ends =
        containerEndsFrom data (fuel + 1 + n) (i + 1) (i :: opened) ends := by
      have hfuel : fuel + (n + 2) = (fuel + 1 + n) + 1 := by omega
      rcases hbrackets with ⟨rfl, -⟩ | ⟨rfl, -⟩
      · rw [hfuel, containerEndsFrom_char hopen (by decide), if_pos (by decide)]
      · rw [hfuel, containerEndsFrom_char hopen (by decide), if_pos (by decide)]
    have hsum : i + 1 + inner.length + 1 = i + inner.length + 2 := by omega
    rw [hfirst, hrun]
    rcases hbrackets with ⟨-, rfl⟩ | ⟨-, rfl⟩
    · rw [containerEndsFrom_char hclose (by decide), if_neg (by decide), if_pos (by decide), hsum]
    · rw [containerEndsFrom_char hclose (by decide), if_neg (by decide), if_pos (by decide), hsum]
  · have hne : (k == i) = false := beq_eq_false_iff_ne.mpr (by omega)
    rw [List.lookup_cons, hne]
    exact hbelow k (by omega)
  · have hne : (k == i) = false := beq_eq_false_iff_ne.mpr (by omega)
    have hinside : Fresh ends (i + 1) := fun l hl => hfresh l (by omega)
    rw [List.lookup_cons, hne]
    exact hinner.fresh hinside k (by omega)

theorem walks_listed {α : Type} {P : Nat → α → List Char → Prop}
    {P' : Ends → Nat → α → List Char → Prop} {close : Char}
    (hmono : ∀ {ends ends' i a w}, (∀ k l, Entry ends k l → Entry ends' k l) →
      P' ends i a w → P' ends' i a w)
    (hitem : ∀ {i a w rest ends}, P i a w → data.drop i = w ++ rest → Fresh ends i →
      ∃ ends', Walks data ends i (i + w.length) ends' ∧ P' ends' i a w)
    {as : List α} {text rest : List Char} (hlist : Listed P close i as text)
    (h : data.drop i = text ++ rest) (hfresh : Fresh ends i) :
    ∃ inner ends', text = inner ++ [close] ∧ Walks data ends i (i + inner.length) ends' ∧
      Listed (P' ends') close i as text := by
  induction hlist generalizing ends with
  | @nil i b hb =>
    have hdrop : data.drop i = b ++ close :: rest := by
      rw [h, List.append_assoc, List.singleton_append]
    exact ⟨b, ends, rfl, walks_plain (plainText_blank hb) hdrop ends, .nil hb⟩
  | @one i a b w b' hb hw hb' =>
    have hdrop : data.drop i = b ++ (w ++ (b' ++ close :: rest)) := by rw [h]; simp
    have hfirst := walks_plain (plainText_blank hb) hdrop ends
    obtain ⟨ends', hwalk, hP⟩ := hitem hw (drop_of_drop hdrop) (hfirst.fresh hfresh)
    have hlast := walks_plain (plainText_blank hb') (drop_of_drop (drop_of_drop hdrop)) ends'
    refine ⟨b ++ (w ++ b'), ends', by simp, ?_, .one hb hP hb'⟩
    rw [List.length_append, List.length_append, ← Nat.add_assoc, ← Nat.add_assoc]
    exact (hfirst.trans hwalk).trans hlast
  | @cons i a as b w b' text hb hw hb' hne _ ih =>
    have hdrop : data.drop i = b ++ (w ++ (b' ++ ',' :: (text ++ rest))) := by rw [h]; simp
    have hfirst := walks_plain (plainText_blank hb) hdrop ends
    obtain ⟨ends', hwalk, hP⟩ := hitem hw (drop_of_drop hdrop) (hfirst.fresh hfresh)
    have hblank := drop_of_drop (drop_of_drop hdrop)
    have hcomma := drop_of_drop hblank
    have hlast := (walks_plain (plainText_blank hb') hblank ends').trans
      (walks_char hcomma (by decide) (by decide) (by decide) ends')
    have hbefore := (hfirst.trans hwalk).trans hlast
    obtain ⟨inner, ends'', htext, hwalks, hlist⟩ :=
      ih (drop_of_drop (w := [',']) hcomma) (hbefore.fresh hfresh)
    refine ⟨b ++ (w ++ (b' ++ ',' :: inner)), ends'', by simp [htext], ?_,
      .cons hb (hmono (fun k l => hwalks.entry (hbefore.fresh hfresh)) hP) hb' hne hlist⟩
    have hlength : i + (b ++ (w ++ (b' ++ ',' :: inner))).length =
        i + b.length + w.length + b'.length + 1 + inner.length := by
      simp only [List.length_append, List.length_cons]
      omega
    rw [hlength]
    exact hbefore.trans hwalks

theorem walks_member {P : Nat → Json → List Char → Prop}
    {P' : Ends → Nat → Json → List Char → Prop}
    (hvalue : ∀ {i j w rest ends}, P i j w → data.drop i = w ++ rest → Fresh ends i →
      ∃ ends', Walks data ends i (i + w.length) ends' ∧ P' ends' i j w)
    {m : List Char × Json} {w rest : List Char} (hm : WrittenMember P i m w)
    (h : data.drop i = w ++ rest) (hfresh : Fresh ends i) :
    ∃ ends', Walks data ends i (i + w.length) ends' ∧ WrittenMember (P' ends') i m w := by
  obtain ⟨hkey, hb, hb', hv⟩ := hm
  rename_i key j b b' v
  have hdrop : data.drop i = '"' :: (key ++ '"' :: (b ++ ':' :: (b' ++ (v ++ rest)))) := by
    rw [h]
    simp
  have hstring := walks_string hkey hdrop ends
  have hblank : data.drop (i + key.length + 2) = b ++ ':' :: (b' ++ (v ++ rest)) := by
    have hdrop' : data.drop i = ('"' :: (key ++ ['"'])) ++ (b ++ ':' :: (b' ++ (v ++ rest))) := by
      rw [hdrop]
      simp
    have hafter := drop_of_drop hdrop'
    rw [List.length_cons, List.length_append, List.length_singleton] at hafter
    exact hafter
  have hcolon := drop_of_drop hblank
  have hblank' := drop_of_drop (w := [':']) hcolon
  have hbefore := ((hstring.trans (walks_plain (plainText_blank hb) hblank ends)).trans
    (walks_char hcolon (by decide) (by decide) (by decide) ends)).trans
    (walks_plain (plainText_blank hb') hblank' ends)
  obtain ⟨ends', hwalks, hP⟩ := hvalue hv (drop_of_drop hblank') (hbefore.fresh hfresh)
  have hlength : i + ('"' :: (key ++ '"' :: (b ++ ':' :: (b' ++ v)))).length =
      i + key.length + 2 + b.length + 1 + b'.length + v.length := by
    simp only [List.length_append, List.length_cons]
    omega
  rw [hlength]
  exact ⟨ends', hbefore.trans hwalks, hkey, hb, hb', hP⟩

/-- Along a value, the loop adds the entries of its containers. -/
theorem walks_written {depth : Nat} {j : Json} {w rest : List Char}
    (hw : Written (fun _ _ => True) depth i j w) (h : data.drop i = w ++ rest)
    (hfresh : Fresh ends i) :
    ∃ ends', Walks data ends i (i + w.length) ends' ∧ Written (Entry ends') depth i j w := by
  induction depth generalizing i j w rest ends with
  | zero =>
    rw [Written] at hw
    · obtain ⟨hj, rfl⟩ := hw
      exact ⟨ends, walks_scalar hj h ends, (JsonText.written_scalar hj 0 i).mpr rfl⟩
    · exact fun _ _ h => absurd h (Nat.succ_ne_zero _).symm
    · exact fun _ _ h => absurd h (Nat.succ_ne_zero _).symm
  | succ depth ih =>
    -- The bracket that closes a container adds its entry to those of its parts.
    have hcontainer {α : Type} {P : Nat → α → List Char → Prop}
        {P' : Ends → Nat → α → List Char → Prop} {o c : Char}
        (hbrackets : o = '[' ∧ c = ']' ∨ o = '{' ∧ c = '}')
        (hmono : ∀ {ends ends' i a w}, (∀ k l, Entry ends k l → Entry ends' k l) →
          P' ends i a w → P' ends' i a w)
        (hitem : ∀ {i a w rest ends}, P i a w → data.drop i = w ++ rest → Fresh ends i →
          ∃ ends', Walks data ends i (i + w.length) ends' ∧ P' ends' i a w)
        {as : List α} {text : List Char} (hlist : Listed P c (i + 1) as text)
        (hdrop : data.drop i = o :: (text ++ rest)) :
        ∃ ends', Walks data ends i (i + (text.length + 1)) ends' ∧
          Entry ends' i (i + (text.length + 1)) ∧ Listed (P' ends') c (i + 1) as text := by
      obtain ⟨inner, mid, rfl, hwalks, hplaced⟩ := walks_listed @hmono @hitem hlist
        (drop_of_drop (w := [o]) hdrop) fun k hk => hfresh k (by omega)
      have hdrop' : data.drop i = o :: (inner ++ c :: rest) := by rw [hdrop]; simp
      have hlength : i + ((inner ++ [c]).length + 1) = i + inner.length + 2 := by
        rw [List.length_append, List.length_singleton]
        omega
      rw [hlength]
      refine ⟨_, walks_container hbrackets hdrop' hfresh hwalks, ?_, ?_⟩
      · rw [Entry, List.lookup_cons, beq_self_eq_true]
      · refine hplaced.mono fun k a w => hmono fun l e hentry => ?_
        have hne : (l == i) = false := by
          refine beq_eq_false_iff_ne.mpr ?_
          rintro rfl
          rw [Entry, hwalks.below l (by omega), hfresh l (Nat.le_refl l)] at hentry
          cases hentry
        rw [Entry, List.lookup_cons, hne]
        exact hentry
    cases j with
    | array items =>
      obtain ⟨-, text, rfl, hlist⟩ := hw
      obtain ⟨ends', hwalks, hentry, hplaced⟩ := hcontainer (.inl ⟨rfl, rfl⟩)
        (fun hent hw => hw.mono hent (Nat.le_refl depth)) (fun hw => ih hw) hlist h
      exact ⟨ends', hwalks, hentry, text, rfl, hplaced⟩
    | object members =>
      obtain ⟨-, text, rfl, hlist⟩ := hw
      obtain ⟨ends', hwalks, hentry, hplaced⟩ := hcontainer (.inr ⟨rfl, rfl⟩)
        (fun hent hw => hw.mono fun _ _ _ hw => hw.mono hent (Nat.le_refl depth))
        (fun hw => walks_member (fun hw => ih hw) hw) hlist h
      exact ⟨ends', hwalks, hentry, text, rfl, hplaced⟩
    | null =>
      obtain ⟨hj, rfl⟩ := hw
      exact ⟨ends, walks_scalar hj h ends, hj, rfl⟩
    | bool b =>
      obtain ⟨hj, rfl⟩ := hw
      exact ⟨ends, walks_scalar hj h ends, hj, rfl⟩
    | number text =>
      obtain ⟨hj, rfl⟩ := hw
      exact ⟨ends, walks_scalar hj h ends, hj, rfl⟩
    | string body =>
      obtain ⟨hj, rfl⟩ := hw
      exact ⟨ends, walks_scalar hj h ends, hj, rfl⟩

theorem exists_containerEnds {text : String} {j : Json} (h : JsonText.tree text = some j) :
    ∃ ends b w b', containerEnds text.toList = some ends ∧ Blank b ∧ Blank b' ∧
      text.toList = b ++ (w ++ b') ∧ Written (Entry ends) JsonText.maxDepth b.length j w := by
  obtain ⟨b, w, b', hb, hb', htext, hw⟩ := JsonText.exists_written h
  have hdrop : text.toList.drop 0 = b ++ (w ++ b') := htext
  have hfresh : Fresh [] 0 := fun k _ => rfl
  have hfirst := walks_plain (plainText_blank hb) hdrop []
  rw [Nat.zero_add] at hfirst
  have hvalue := drop_of_drop hdrop
  rw [Nat.zero_add] at hvalue
  obtain ⟨ends, hwalks, hplaced⟩ := walks_written (hw b.length) hvalue (hfirst.fresh hfresh)
  have hrest := drop_of_drop hvalue
  have hend : text.toList.drop (b.length + w.length) = b' ++ [] := by
    rw [hrest, List.append_nil]
  have hlast := walks_plain (plainText_blank hb') hend ends
  have hall := (hfirst.trans hwalks).trans hlast
  refine ⟨ends, b, w, b', ?_, hb, hb', htext, hplaced⟩
  obtain ⟨n, hn, hrun⟩ := hall.run
  have hlength : text.toList.length = b.length + w.length + b'.length := by
    rw [htext]
    simp only [List.length_append]
    omega
  have hfuel : text.toList.length + 1 = text.toList.length + 1 - n + n := by omega
  rw [containerEnds, hfuel, hrun]
  obtain ⟨fuel, hsucc⟩ : ∃ fuel, text.toList.length + 1 - n = fuel + 1 :=
    ⟨text.toList.length - n, by omega⟩
  rw [hsucc, containerEndsFrom.eq_def]
  simp only [← hlength, List.getElem?_length]

end ExactFilter

end PolicyIr

end AuthzAgent
