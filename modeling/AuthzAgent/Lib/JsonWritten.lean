/-
  AuthzAgent.Lib.JsonWritten

  JSON texts as they are written, white space included: `Written mark d i j w`
  says that the text `w` at the offset `i` writes the value `j` with at most `d`
  brackets open at once, and that `mark` holds of the offsets at which each of
  its containers begins and ends.  With `mark` trivial this is what the scanner
  of `JsonTree` reads (`written_of_scanTree`, `Written.scanTree`); a program that
  walks a text by offsets is followed along it, with `mark` for what the program
  knows about the brackets.
-/

import AuthzAgent.Lib.JsonTree

namespace JsonText

variable {α : Type}

def Blank (b : List Char) : Prop := ∀ c ∈ b, isBlank c = true

/-! ## The grammar -/

/-- The text behind an opening bracket, up to its closing one, which writes a
    list; the offset is that of the text. -/
inductive Listed (item : Nat → α → List Char → Prop) (close : Char) :
    Nat → List α → List Char → Prop where
  | nil {i : Nat} {b : List Char} (hb : Blank b) : Listed item close i [] (b ++ [close])
  | one {i : Nat} {a : α} {b w b' : List Char} (hb : Blank b) (hitem : item (i + b.length) a w)
      (hb' : Blank b') : Listed item close i [a] (b ++ (w ++ (b' ++ [close])))
  | cons {i : Nat} {a : α} {as : List α} {b w b' text : List Char} (hb : Blank b)
      (hitem : item (i + b.length) a w) (hb' : Blank b') (hne : as ≠ [])
      (hrest : Listed item close (i + b.length + w.length + b'.length + 1) as text) :
      Listed item close i (a :: as) (b ++ (w ++ (b' ++ ',' :: text)))

inductive WrittenMember (value : Nat → Json → List Char → Prop) (i : Nat) :
    List Char × Json → List Char → Prop where
  | mk {key : List Char} {j : Json} {b b' v : List Char} (hkey : IsBody key) (hb : Blank b)
      (hb' : Blank b') (hvalue : value (i + key.length + 2 + b.length + 1 + b'.length) j v) :
      WrittenMember value i (key, j) ('"' :: (key ++ '"' :: (b ++ ':' :: (b' ++ v))))

/-- The text of a value. -/
def Written (mark : Nat → Nat → Prop) : Nat → Nat → Json → List Char → Prop
  | depth + 1, i, .array items, w =>
    mark i (i + w.length) ∧
      ∃ text, w = '[' :: text ∧ Listed (Written mark depth) ']' (i + 1) items text
  | depth + 1, i, .object members, w =>
    mark i (i + w.length) ∧ ∃ text, w = '{' :: text ∧
      Listed (WrittenMember (Written mark depth)) '}' (i + 1) members text
  | _, _, j, w => WellFormed 0 j ∧ w = print j

/-- A list, an object, or a value without parts. -/
theorem Written.form {mark : Nat → Nat → Prop} {depth i : Nat} {j : Json} {w : List Char}
    (h : Written mark depth i j w) :
    (mark i (i + w.length) ∧ ∃ text, w = '[' :: text) ∨
      (mark i (i + w.length) ∧ ∃ text, w = '\x7b' :: text) ∨ (WellFormed 0 j ∧ w = print j) := by
  cases depth with
  | zero => cases j <;> exact .inr (.inr h)
  | succ depth =>
    cases j with
    | array items =>
      obtain ⟨hmark, text, hw, -⟩ := h
      exact .inl ⟨hmark, text, hw⟩
    | object members =>
      obtain ⟨hmark, text, hw, -⟩ := h
      exact .inr (.inl ⟨hmark, text, hw⟩)
    | _ => exact .inr (.inr h)

theorem Listed.mono {item item' : Nat → α → List Char → Prop} {close : Char}
    (h : ∀ i a w, item i a w → item' i a w) {i : Nat} {as : List α} {text : List Char}
    (hlist : Listed item close i as text) : Listed item' close i as text := by
  induction hlist with
  | nil hb => exact .nil hb
  | one hb hitem hb' => exact .one hb (h _ _ _ hitem) hb'
  | cons hb hitem hb' hne _ ih => exact .cons hb (h _ _ _ hitem) hb' hne ih

theorem WrittenMember.mono {value value' : Nat → Json → List Char → Prop}
    (h : ∀ i j w, value i j w → value' i j w) {i : Nat} {m : List Char × Json} {w : List Char}
    (hm : WrittenMember value i m w) : WrittenMember value' i m w := by
  obtain ⟨hkey, hb, hb', hvalue⟩ := hm
  exact ⟨hkey, hb, hb', h _ _ _ hvalue⟩

theorem written_scalar {mark : Nat → Nat → Prop} {j : Json} {w : List Char} (h : WellFormed 0 j)
    (depth i : Nat) : Written mark depth i j w ↔ w = print j := by
  cases h with
  | null => cases depth <;> simp [Written, WellFormed.null]
  | bool _ b => cases depth <;> simp [Written, WellFormed.bool]
  | number h hchars => cases depth <;> simp [Written, WellFormed.number h hchars]
  | string h => cases depth <;> simp [Written, WellFormed.string h]

theorem Written.mono {mark mark' : Nat → Nat → Prop} (hmark : ∀ i e, mark i e → mark' i e)
    {depth depth' : Nat} (hdepth : depth ≤ depth') {i : Nat} {j : Json} {w : List Char}
    (h : Written mark depth i j w) : Written mark' depth' i j w := by
  induction depth generalizing depth' i j w with
  | zero =>
    rw [Written] at h
    · exact (written_scalar h.1 depth' i).mpr h.2
    · exact fun _ _ h => absurd h (Nat.succ_ne_zero _).symm
    · exact fun _ _ h => absurd h (Nat.succ_ne_zero _).symm
  | succ depth ih =>
    obtain ⟨depth', rfl⟩ : ∃ k, depth' = k + 1 := ⟨depth' - 1, by omega⟩
    have hle := Nat.le_of_succ_le_succ hdepth
    cases j with
    | array items =>
      obtain ⟨hm, text, rfl, hlist⟩ := h
      exact ⟨hmark _ _ hm, text, rfl, hlist.mono fun _ _ _ h => ih hle h⟩
    | object members =>
      obtain ⟨hm, text, rfl, hlist⟩ := h
      exact ⟨hmark _ _ hm, text, rfl,
        hlist.mono fun _ _ _ h => h.mono fun _ _ _ h => ih hle h⟩
    | null => exact h
    | bool b => exact h
    | number text => exact h
    | string body => exact h

/-! ## What is read is written -/

theorem blank_takeWhile (cs : List Char) : Blank (cs.takeWhile isBlank) :=
  fun c hc => List.all_eq_true.mp List.all_takeWhile c hc

theorem skipBlank_split (cs : List Char) : ∃ b, Blank b ∧ cs = b ++ skipBlank cs :=
  ⟨cs.takeWhile isBlank, blank_takeWhile cs, List.takeWhile_append_dropWhile.symm⟩

def ReadsText (item : List Char → Option (α × List Char)) (P : Nat → α → List Char → Prop) : Prop :=
  ∀ cs a rest, item cs = some (a, rest) → ∃ w, cs = w ++ rest ∧ ∀ i, P i a w

section

variable {item : List Char → Option (α × List Char)} {P : Nat → α → List Char → Prop}

theorem listed_of_scanItems (hitem : ReadsText item P) {close : Char} {fuel : Nat}
    {cs rest : List Char} {as : List α} (h : scanItems item close fuel cs = some (as, rest)) :
    as ≠ [] ∧ ∃ text, cs = text ++ rest ∧ ∀ i, Listed P close i as text := by
  induction fuel generalizing cs as rest with
  | zero => cases h
  | succ fuel ih =>
    obtain ⟨b, hb, hcs⟩ := skipBlank_split cs
    rw [scanItems] at h
    split at h
    · cases h
    · rename_i a after ha
      obtain ⟨w, hw, hP⟩ := hitem _ _ _ ha
      obtain ⟨b', hb', hafter⟩ := skipBlank_split after
      split at h
      · rename_i more hcomma
        obtain ⟨⟨as', r⟩, hmore, heq⟩ := Option.map_eq_some_iff.mp h
        obtain ⟨rfl, rfl⟩ := Prod.mk.inj heq
        obtain ⟨hne, text, rfl, hlist⟩ := ih hmore
        refine ⟨List.cons_ne_nil a as', b ++ (w ++ (b' ++ ',' :: text)), ?_,
          fun i => .cons hb (hP _) hb' hne (hlist _)⟩
        rw [hcs, hw, hafter, hcomma]
        simp
      · rename_i c more _ hclose
        rw [Option.ite_none_right_eq_some, Option.some.injEq, Prod.mk.injEq] at h
        obtain ⟨rfl, rfl, rfl⟩ := h
        refine ⟨List.cons_ne_nil a [], b ++ (w ++ (b' ++ [c])), ?_, fun i => .one hb (hP _) hb'⟩
        rw [hcs, hw, hafter, hclose]
        simp
      · cases h

theorem listed_of_scanList (hitem : ReadsText item P) {close : Char} {cs rest : List Char}
    {as : List α} (h : scanList item close cs = some (as, rest)) :
    ∃ text, cs = text ++ rest ∧ ∀ i, Listed P close i as text := by
  rw [scanList] at h
  split at h
  · rename_i c more hskip
    split at h
    · rename_i hc
      obtain ⟨rfl, rfl⟩ := Prod.mk.inj (Option.some.inj h)
      obtain ⟨b, hb, hcs⟩ := skipBlank_split cs
      refine ⟨b ++ [close], ?_, fun i => .nil hb⟩
      rw [hcs, hskip, hc, List.append_assoc, List.singleton_append]
    · exact (listed_of_scanItems hitem h).2
  · cases h

end

theorem readsText_member {scan : List Char → Option (Json × List Char)}
    {P : Nat → Json → List Char → Prop} (hscan : ReadsText scan P) :
    ReadsText (scanRawMember scan) (WrittenMember P) := by
  intro cs m rest h
  rw [scanRawMember.eq_def] at h
  split at h
  · split at h
    · cases h
    · rename_i key after hkey
      obtain ⟨hbody, rfl⟩ := scanBody_spec hkey
      obtain ⟨b, hb, hafter⟩ := skipBlank_split after
      split at h
      · rename_i more hcolon
        obtain ⟨⟨j, r⟩, hj, heq⟩ := Option.map_eq_some_iff.mp h
        obtain ⟨rfl, rfl⟩ := Prod.mk.inj heq
        obtain ⟨b', hb', hmore⟩ := skipBlank_split more
        obtain ⟨v, hv, hP⟩ := hscan _ _ _ hj
        refine ⟨'"' :: (key ++ '"' :: (b ++ ':' :: (b' ++ v))), ?_, fun i => ⟨hbody, hb, hb', hP _⟩⟩
        rw [hafter, hcolon, hmore, hv]
        simp
      · cases h
  · cases h

theorem print_of_scanScalar {cs rest : List Char} {j : Json} (h : scanScalar cs = some (j, rest)) :
    cs = print j ++ rest := by
  rw [scanScalar.eq_def] at h
  split at h
  · obtain ⟨⟨body, r⟩, hbody, heq⟩ := Option.map_eq_some_iff.mp h
    obtain ⟨rfl, rfl⟩ := Prod.mk.inj heq
    obtain ⟨-, rfl⟩ := scanBody_spec hbody
    simp [print]
  · obtain ⟨rfl, rfl⟩ := Prod.mk.inj (Option.some.inj h)
    rfl
  · obtain ⟨rfl, rfl⟩ := Prod.mk.inj (Option.some.inj h)
    rfl
  · obtain ⟨rfl, rfl⟩ := Prod.mk.inj (Option.some.inj h)
    rfl
  · obtain ⟨⟨text, r⟩, htext, heq⟩ := Option.map_eq_some_iff.mp h
    obtain ⟨rfl, rfl⟩ := Prod.mk.inj heq
    rw [scanNumberText, Option.ite_none_right_eq_some, Option.some.injEq, Prod.mk.injEq] at htext
    obtain ⟨-, rfl, rfl⟩ := htext
    exact List.takeWhile_append_dropWhile.symm

theorem written_of_scanTree (depth : Nat) :
    ReadsText (scanTree depth) (Written (fun _ _ => True) depth) := by
  have hscalar (depth : Nat) {cs rest : List Char} {j : Json}
      (h : scanScalar cs = some (j, rest)) :
      ∃ w, cs = w ++ rest ∧ ∀ i, Written (fun _ _ => True) depth i j w :=
    ⟨print j, print_of_scanScalar h,
      fun i => (written_scalar (wellFormed_of_scanScalar h 0) depth i).mpr rfl⟩
  induction depth with
  | zero =>
    intro cs j rest h
    rw [scanTree.eq_def] at h
    exact hscalar 0 h
  | succ depth ih =>
    intro cs j rest h
    rw [scanTree.eq_def] at h
    split at h
    · rename_i hdepth
      obtain rfl := Nat.succ.inj hdepth
      obtain ⟨⟨items, r⟩, hitems, heq⟩ := Option.map_eq_some_iff.mp h
      obtain ⟨rfl, rfl⟩ := Prod.mk.inj heq
      obtain ⟨text, rfl, hlist⟩ := listed_of_scanList ih hitems
      exact ⟨'[' :: text, rfl, fun i => ⟨trivial, text, rfl, hlist _⟩⟩
    · rename_i hdepth
      obtain rfl := Nat.succ.inj hdepth
      obtain ⟨⟨members, r⟩, hmembers, heq⟩ := Option.map_eq_some_iff.mp h
      obtain ⟨rfl, rfl⟩ := Prod.mk.inj heq
      obtain ⟨text, rfl, hlist⟩ := listed_of_scanList (readsText_member ih) hmembers
      exact ⟨'{' :: text, rfl, fun i => ⟨trivial, text, rfl, hlist _⟩⟩
    · exact hscalar (depth + 1) h

/-! ## What is written is read -/

/-- What may follow a value. -/
def Stops (rest : List Char) : Prop :=
  ∀ c ∈ rest.head?, c = ',' ∨ c = ']' ∨ c = '}' ∨ isBlank c = true

theorem stops_cons {c : Char} (h : c = ',' ∨ c = ']' ∨ c = '}' ∨ isBlank c = true)
    (rest : List Char) : Stops (c :: rest) := by
  intro d hd
  obtain rfl : c = d := Option.some.inj hd
  exact h

/-- Blanks and a separator stop a value. -/
theorem stops_blank {b rest : List Char} (hb : Blank b) (hrest : Stops rest) : Stops (b ++ rest) := by
  cases b with
  | nil => exact hrest
  | cons c b => exact stops_cons (.inr (.inr (.inr (hb c List.mem_cons_self)))) _

theorem Stops.not_isNumberChar {rest : List Char} (h : Stops rest) :
    ∀ c ∈ rest.head?, isNumberChar c = false := by
  intro c hc
  rcases h c hc with rfl | rfl | rfl | hblank
  · decide
  · decide
  · decide
  · simp only [isBlank, Bool.or_eq_true, beq_iff_eq] at hblank
    rcases hblank with ((rfl | rfl) | rfl) | rfl <;> decide

theorem scanNumberText_stops {text rest : List Char} (hnumber : isNumber text = true)
    (hchars : ∀ c ∈ text, isNumberChar c = true) (hrest : Stops rest) :
    scanNumberText (text ++ rest) = some (text, rest) := by
  have hstop : rest.takeWhile isNumberChar = [] ∧ rest.dropWhile isNumberChar = rest := by
    cases rest with
    | nil => exact ⟨rfl, rfl⟩
    | cons c rest =>
      rw [List.takeWhile_cons, List.dropWhile_cons, hrest.not_isNumberChar c rfl]
      exact ⟨rfl, rfl⟩
  rw [scanNumberText, List.takeWhile_append_of_pos hchars, List.dropWhile_append_of_pos hchars,
    hstop.1, hstop.2, List.append_nil, if_pos hnumber]

/-- A value without parts is read from its text. -/
theorem scanTree_print_scalar {j : Json} (h : WellFormed 0 j) (depth : Nat) {rest : List Char}
    (hrest : Stops rest) : scanTree depth (print j ++ rest) = some (j, rest) := by
  cases h with
  | null => exact scanTree_scalar (by decide) depth _
  | bool _ b => cases b <;> exact scanTree_scalar (by decide) depth _
  | string h =>
    rename_i body
    show scanTree depth ('"' :: ((body ++ ['"']) ++ rest)) = _
    rw [List.append_assoc, List.singleton_append, scanTree_scalar (by decide)]
    show (scanBody (body ++ '"' :: rest)).map _ = _
    rw [h.scanBody]
    rfl
  | number h hchars =>
    rename_i text
    cases text with
    | nil => exact absurd h (by decide)
    | cons c text =>
      have hc := hchars c List.mem_cons_self
      have hstart : isScalarStart c = true := by simp [isScalarStart, hc]
      have hscan := scanNumberText_stops h hchars hrest
      rw [List.cons_append] at hscan
      show scanTree depth (c :: (text ++ rest)) = _
      rw [scanTree_scalar hstart, scanScalar_number hc, hscan]
      rfl

theorem skipBlank_blank {b : List Char} (hb : Blank b) (cs : List Char) :
    skipBlank (b ++ cs) = skipBlank cs := List.dropWhile_append_of_pos hb

theorem skipBlank_close {c : Char} (hc : c = ',' ∨ c = ']' ∨ c = '}' ∨ c = ':')
    (cs : List Char) : skipBlank (c :: cs) = c :: cs := by
  rcases hc with rfl | rfl | rfl | rfl <;> rfl

structure Reads (item : List Char → Option (α × List Char)) (P : Nat → α → List Char → Prop) :
    Prop where
  opens : ∀ i a w, P i a w → Opens w
  reads : ∀ i a w rest, P i a w → Stops rest → item (w ++ rest) = some (a, rest)

section

variable {item : List Char → Option (α × List Char)} {P : Nat → α → List Char → Prop}
  {close : Char} {i : Nat} {as : List α} {text : List Char}

theorem Listed.length_le (h : Listed P close i as text) :
    as.length ≤ text.length := by
  induction h with
  | nil => exact Nat.zero_le _
  | one => simp only [List.length_append, List.length_singleton]; omega
  | cons _ _ _ _ _ ih =>
    simp only [List.length_append, List.length_cons] at ih ⊢
    omega

theorem Listed.scanItems (hitem : Reads item P) (hclose : close = ']' ∨ close = '}')
    (h : Listed P close i as text) (hne : as ≠ []) {fuel : Nat} (hfuel : as.length ≤ fuel)
    (rest : List Char) : scanItems item close fuel (text ++ rest) = some (as, rest) := by
  have hsep : close = ',' ∨ close = ']' ∨ close = '}' ∨ close = ':' := by
    rcases hclose with h | h
    · exact .inr (.inl h)
    · exact .inr (.inr (.inl h))
  have hstop : close = ',' ∨ close = ']' ∨ close = '}' ∨ isBlank close = true := by
    rcases hclose with h | h
    · exact .inr (.inl h)
    · exact .inr (.inr (.inl h))
  induction h generalizing fuel with
  | nil => exact absurd rfl hne
  | @one i a b w b' hb hw hb' =>
    obtain ⟨fuel, rfl⟩ : ∃ n, fuel = n + 1 :=
      ⟨fuel - 1, by rw [List.length_singleton] at hfuel; omega⟩
    have htext : b ++ (w ++ (b' ++ [close])) ++ rest = b ++ (w ++ (b' ++ close :: rest)) := by simp
    rw [htext, JsonText.scanItems, skipBlank_blank hb, (hitem.opens _ _ _ hw).skipBlank,
      hitem.reads _ _ _ _ hw (stops_blank hb' (stops_cons hstop rest))]
    simp only [skipBlank_blank hb', skipBlank_close hsep]
    rcases hclose with rfl | rfl
    · exact if_pos rfl
    · exact if_pos rfl
  | @cons i a as b w b' text hb hw hb' hne' _ ih =>
    obtain ⟨fuel, rfl⟩ : ∃ n, fuel = n + 1 :=
      ⟨fuel - 1, by rw [List.length_cons] at hfuel; omega⟩
    have htext : b ++ (w ++ (b' ++ ',' :: text)) ++ rest =
        b ++ (w ++ (b' ++ ',' :: (text ++ rest))) := by simp
    have hrest := ih hne' (Nat.le_of_succ_le_succ hfuel)
    rw [htext, JsonText.scanItems, skipBlank_blank hb, (hitem.opens _ _ _ hw).skipBlank,
      hitem.reads _ _ _ _ hw (stops_blank hb' (stops_cons (.inl rfl) _))]
    simp only [skipBlank_blank hb', skipBlank_close (.inl rfl)]
    rw [hrest]
    rfl

theorem Listed.scanList (hitem : Reads item P) (hclose : close = ']' ∨ close = '}')
    (h : Listed P close i as text) (rest : List Char) :
    scanList item close (text ++ rest) = some (as, rest) := by
  have hlength := h.length_le
  have hall (hne : as ≠ []) :
      JsonText.scanItems item close (text ++ rest).length (text ++ rest) = some (as, rest) :=
    h.scanItems hitem hclose hne (by rw [List.length_append]; omega) rest
  -- Where the list is not empty, its first item opens the text behind the blanks.
  have hfirst {a : α} {as' : List α} {b w more : List Char} (hb : Blank b) {k : Nat}
      (hw : P k a w) (has : as = a :: as') (htext : text = b ++ (w ++ more)) :
      JsonText.scanList item close (text ++ rest) = some (as, rest) := by
    obtain ⟨c, cs, hwc, hblank, hbracket, hbrace⟩ := hitem.opens _ _ _ hw
    have hskip : skipBlank (text ++ rest) = c :: (cs ++ more ++ rest) := by
      rw [htext, List.append_assoc, skipBlank_blank hb, hwc, List.append_assoc, List.cons_append,
        skipBlank, List.dropWhile_cons, hblank]
      simp
    have hc : c ≠ close := by rcases hclose with rfl | rfl <;> assumption
    rw [JsonText.scanList, hskip]
    simp only [if_neg hc]
    exact hall (by rw [has]; exact List.cons_ne_nil _ _)
  cases h with
  | nil hb =>
    rename_i b
    have hskip : skipBlank (b ++ [close] ++ rest) = close :: rest := by
      rw [List.append_assoc, skipBlank_blank hb]
      rcases hclose with rfl | rfl <;> rfl
    rw [JsonText.scanList, hskip]
    exact if_pos rfl
  | one hb hw hb' => exact hfirst hb hw rfl rfl
  | cons hb hw hb' hne hrest => exact hfirst hb hw rfl rfl

end

theorem reads_member {scan : List Char → Option (Json × List Char)}
    {P : Nat → Json → List Char → Prop} (hscan : Reads scan P) :
    Reads (scanRawMember scan) (WrittenMember P) where
  opens i m w h := by
    obtain ⟨_, _, _, _⟩ := h
    exact opens_of_isScalarStart (by decide) _
  reads i m w rest h hrest := by
    obtain ⟨hkey, hb, hb', hv⟩ := h
    rename_i key j b b' v
    have htext : '"' :: (key ++ '"' :: (b ++ ':' :: (b' ++ v))) ++ rest =
        '"' :: (key ++ '"' :: (b ++ ':' :: (b' ++ (v ++ rest)))) := by simp
    rw [htext, scanRawMember, hkey.scanBody]
    simp only [skipBlank_blank hb, skipBlank_close (.inr (.inr (.inr rfl))), skipBlank_blank hb',
      (hscan.opens _ _ _ hv).skipBlank, hscan.reads _ _ _ _ hv hrest, Option.map_some]

theorem reads_written (mark : Nat → Nat → Prop) (depth : Nat) :
    Reads (scanTree depth) (Written mark depth) := by
  have hscalar (depth i : Nat) {j : Json} {w : List Char} (h : WellFormed 0 j ∧ w = print j) :
      Opens w ∧ ∀ rest, Stops rest → scanTree depth (w ++ rest) = some (j, rest) := by
    obtain ⟨hj, rfl⟩ := h
    exact ⟨hj.readBack.1, fun rest hrest => scanTree_print_scalar hj depth hrest⟩
  suffices h : ∀ i j w, Written mark depth i j w →
      Opens w ∧ ∀ rest, Stops rest → scanTree depth (w ++ rest) = some (j, rest) from
    ⟨fun i j w hw => (h i j w hw).1, fun i j w rest hw => (h i j w hw).2 rest⟩
  induction depth with
  | zero =>
    intro i j w h
    rw [Written] at h
    · exact hscalar 0 i h
    · exact fun _ _ h => absurd h (Nat.succ_ne_zero _).symm
    · exact fun _ _ h => absurd h (Nat.succ_ne_zero _).symm
  | succ depth ih =>
    have hreads : Reads (scanTree depth) (Written mark depth) :=
      ⟨fun i j w hw => (ih i j w hw).1, fun i j w rest hw => (ih i j w hw).2 rest⟩
    intro i j w h
    cases j with
    | array items =>
      obtain ⟨-, text, rfl, hlist⟩ := h
      refine ⟨⟨'[', text, rfl, by decide, by decide, by decide⟩, fun rest _ => ?_⟩
      rw [List.cons_append, scanTree, hlist.scanList hreads (.inl rfl)]
      rfl
    | object members =>
      obtain ⟨-, text, rfl, hlist⟩ := h
      refine ⟨⟨'{', text, rfl, by decide, by decide, by decide⟩, fun rest _ => ?_⟩
      rw [List.cons_append, scanTree, hlist.scanList (reads_member hreads) (.inr rfl)]
      rfl
    | null => exact hscalar (depth + 1) i h
    | bool b => exact hscalar (depth + 1) i h
    | number text => exact hscalar (depth + 1) i h
    | string body => exact hscalar (depth + 1) i h

theorem Written.wellFormed {mark : Nat → Nat → Prop} {depth i : Nat} {j : Json} {w : List Char}
    (h : Written mark depth i j w) : WellFormed depth j :=
  wellFormed_of_scanTree ((reads_written mark depth).reads _ _ _ [] h fun _ hc => nomatch hc)

/-- A text that writes a value, with nothing around it, holds that value. -/
theorem Written.tree {mark : Nat → Nat → Prop} {depth i : Nat} (hdepth : depth ≤ maxDepth)
    {j : Json} {w : List Char} (h : Written mark depth i j w) :
    tree (String.ofList w) = some j := by
  have hreads := reads_written mark maxDepth
  have hw := h.mono (fun _ _ h => h) hdepth
  have hskip := (hreads.opens _ _ _ hw).skipBlank []
  have hscan := hreads.reads _ _ _ [] hw fun _ hc => nomatch hc
  rw [List.append_nil] at hskip hscan
  rw [JsonText.tree, whole, String.toList_ofList, hskip, hscan]
  rfl

/-- A valid text is a value with blanks around it. -/
theorem exists_written {text : String} {j : Json} (h : JsonText.tree text = some j) :
    ∃ b w b', Blank b ∧ Blank b' ∧ text.toList = b ++ (w ++ b') ∧
      ∀ i, Written (fun _ _ => True) maxDepth i j w := by
  rw [JsonText.tree, whole] at h
  split at h
  · rename_i j' rest hscan
    rw [Option.ite_none_right_eq_some, Option.some.injEq] at h
    obtain ⟨hrest, rfl⟩ := h
    obtain ⟨b, hb, htext⟩ := skipBlank_split text.toList
    obtain ⟨w, hw, hwritten⟩ := written_of_scanTree maxDepth _ _ _ hscan
    refine ⟨b, w, rest, hb, ?_, by rw [htext, hw], hwritten⟩
    have hsplit := skipBlank_split rest
    rw [hrest] at hsplit
    obtain ⟨b', hb', heq⟩ := hsplit
    rw [List.append_nil] at heq
    exact heq ▸ hb'
  · cases h

end JsonText
