/-
  AuthzAgent.PolicyIr.AttrScanner

  The attribute scanner of policyir (token.go) with its two tables, and the
  legacy attribute token as a regular language.

  `attrToken` of `PolicyIr.Scan` is the scanner without tables: it reads a suffix
  of the text.  The tables hold what `openLength` and a run of characters find at
  each index (`openEnds_eq`, `getD_runEnds`), so that `tokenLen` is the length of
  `attrToken` (`tokenLen_eq`).  An automaton stands between `attrToken` and the
  language: its words from the first letter on are the language
  (`reaches_iff_mem`), and `attrToken` is the longest start it accepts
  (`longest_attrFrom`).

  A text is a list of characters.  With every byte read as the character of its
  number, it is a Go string and an index is a byte index: the scanner compares
  with ASCII characters only.
-/

import AuthzAgent.Lib.Automaton
import AuthzAgent.Lib.Loop
import AuthzAgent.PolicyIr.Scan

open scoped Computability

namespace AuthzAgent.PolicyIr

open Automaton

/-! ## The scanner -/

/-- `attrScanner`.  In `openEnd`, `none` stands for -1. -/
structure AttrScanner where
  s : List Char
  runEnd : List Nat
  openEnd : List (Option Nat)
deriving DecidableEq, Repr

/-- The first loop of `newAttrScanner`: the entries of `runEnd` from an index on,
    for the text from there on. -/
def runEnds : Nat → List Char → List Nat
  | j, [] => [j]
  | j, c :: cs =>
    let later := runEnds (j + 1) cs
    (if isRunChar c then later.headD j else j) :: later

def openEntry (s : List Char) (runEnd : List Nat) (j : Nat) (later : List (Option Nat)) :
    Option Nat :=
  let k := runEnd.getD j 0
  match s[k]? with
  | none => none
  | some c =>
    if c = '[' then later.getD (k - j) none
    else if c = ']' ∧ j < k then some (k + 1)
    else none

/-- The second loop of `newAttrScanner`, for the entries that are still to fill. -/
def openEnds (s : List Char) (runEnd : List Nat) : Nat → List (Option Nat) → List (Option Nat)
  | 0, later => later
  | j + 1, later => openEnds s runEnd j (openEntry s runEnd j later :: later)

def newAttrScanner (s : List Char) : AttrScanner where
  s := s
  runEnd := runEnds 0 s
  openEnd := openEnds s (runEnds 0 s) s.length [none]

/-- Where the token goes on behind index `j`, at which no attribute character
    stands. -/
def AttrScanner.next (a : AttrScanner) (j seg : Nat) : Option Nat :=
  match a.s[j]? with
  | none => none
  | some c =>
    if c = ' ' then
      let k := a.runEnd.getD j 0
      if a.s[k]? = some ']' then some (k + 1) else none
    else if c = '[' then a.openEnd.getD (j + 1) none
    else if c = ']' ∧ seg < j then some (j + 1)
    else none

/-- One pass of the loop of `tokenLen`, which starts with `j` and `seg`. -/
def AttrScanner.pass (a : AttrScanner) : Nat × Nat → (Nat × Nat) ⊕ Nat
  | (start, seg) =>
    let j := start + ((a.s.drop start).takeWhile isAttrChar).length
    match a.next j seg with
    | some next => .inl (next, next)
    | none => .inr j

/-- `attrScanner.tokenLen`.  Each pass moves forward, so the length of the text
    bounds their number. -/
def AttrScanner.tokenLen (a : AttrScanner) (i : Nat) : Nat :=
  match a.s[i]? with
  | none => 0
  | some c =>
    if isNameStart c then (Loop.run a.pass (a.s.length + 1) (i + 1, i + 1)).getD i - i
    else 0

/-! ## The tables -/

theorem runEnds_head (j : Nat) (cs : List Char) :
    ∃ later, runEnds j cs = (j + (cs.takeWhile isRunChar).length) :: later := by
  induction cs generalizing j with
  | nil => exact ⟨[], rfl⟩
  | cons c cs ih =>
    obtain ⟨later, hlater⟩ := ih (j + 1)
    refine ⟨runEnds (j + 1) cs, ?_⟩
    rw [runEnds, hlater, List.takeWhile_cons]
    split_ifs with hc
    · rw [List.headD_cons, List.length_cons]
      congr 1
      omega
    · rfl

theorem getD_runEnds (s : List Char) {j : Nat} (hj : j ≤ s.length) (i : Nat) :
    (runEnds i s).getD j 0 = i + j + ((s.drop j).takeWhile isRunChar).length := by
  induction s generalizing i j with
  | nil =>
    obtain rfl : j = 0 := Nat.le_zero.mp hj
    rfl
  | cons c cs ih =>
    cases j with
    | zero =>
      obtain ⟨later, hlater⟩ := runEnds_head i (c :: cs)
      rw [hlater]
      rfl
    | succ j =>
      have hrest := ih (Nat.le_of_succ_le_succ hj) (i + 1)
      rw [runEnds, List.getD_cons_succ, hrest, List.drop_succ_cons]
      omega

theorem openLength_open (seen : Bool) (cs : List Char) :
    openLength seen ('[' :: cs) = (openLength false cs).map (· + 1) := rfl

/-- A run of characters is passed over. -/
theorem openLength_run {run : List Char} (hrun : ∀ c ∈ run, isRunChar c = true) (seen : Bool)
    (cs : List Char) :
    openLength seen (run ++ cs) =
      (openLength (seen || !run.isEmpty) cs).map (run.length + ·) := by
  induction run generalizing seen with
  | nil => simp
  | cons c run ih =>
    have hc := hrun c List.mem_cons_self
    rw [List.cons_append, openLength, if_pos hc, ih fun d hd => hrun d (List.mem_cons_of_mem c hd),
      Option.map_map]
    simp only [Bool.true_or, List.isEmpty_cons, Bool.not_false, Bool.or_true, List.length_cons]
    congr 1
    funext n
    show run.length + n + 1 = run.length + 1 + n
    omega

/-- What stands behind the run of characters decides. -/
theorem openLength_eq {cs : List Char} {n : Nat} (hn : (cs.takeWhile isRunChar).length = n) :
    openLength false cs =
      match cs[n]? with
      | none => none
      | some c =>
        if c = '[' then (openLength false (cs.drop (n + 1))).map (n + 1 + ·)
        else if c = ']' ∧ 0 < n then some (n + 1)
        else none := by
  have hrun : ∀ c ∈ cs.takeWhile isRunChar, isRunChar c = true :=
    fun c hc => List.all_eq_true.mp List.all_takeWhile c hc
  have hsplit := openLength_run hrun false (cs.dropWhile isRunChar)
  have hcs : cs = cs.takeWhile isRunChar ++ cs.dropWhile isRunChar :=
    List.takeWhile_append_dropWhile.symm
  have hmoved : (!(cs.takeWhile isRunChar).isEmpty) = decide (0 < n) := by
    rw [← hn]
    cases cs.takeWhile isRunChar <;> rfl
  rw [← hcs, hn, Bool.false_or, hmoved] at hsplit
  rw [hsplit]
  cases hrest : cs.dropWhile isRunChar with
  | nil =>
    have hlen : cs.length = n := by rw [hcs, hrest, List.append_nil, hn]
    rw [List.getElem?_eq_none (Nat.le_of_eq hlen)]
    rfl
  | cons d rest =>
    have hd : isRunChar d = false := by
      have := List.head?_dropWhile_not isRunChar cs
      simpa [hrest] using this
    have hdrop : cs.drop n = d :: rest := by
      rw [hcs, hrest, List.drop_left' hn]
    have hat : cs[n]? = some d := by rw [← List.head?_drop, hdrop]; rfl
    have hlater : cs.drop (n + 1) = rest := by rw [← List.tail_drop, hdrop]; rfl
    rw [hat, hlater]
    show _ = if d = '[' then _ else _
    by_cases hopen : d = '['
    · subst hopen
      rw [openLength_open, if_pos rfl, Option.map_map]
      congr 1
      funext m
      show n + (m + 1) = n + 1 + m
      omega
    · rw [if_neg hopen, openLength, if_neg (by rw [hd]; exact Bool.false_ne_true), if_neg hopen]
      simp only [decide_eq_true_eq]
      split_ifs <;> rfl

/-- What `openEnd` holds at an index. -/
def openAt (s : List Char) (j : Nat) : Option Nat := (openLength false (s.drop j)).map (j + ·)

theorem openEntry_eq (s : List Char) {j : Nat} (hj : j < s.length) {later : List (Option Nat)}
    (hlater : ∀ m, j + 1 + m ≤ s.length → later.getD m none = openAt s (j + 1 + m)) :
    openEntry s (runEnds 0 s) j later = openAt s j := by
  obtain ⟨n, hn⟩ : ∃ n, ((s.drop j).takeWhile isRunChar).length = n := ⟨_, rfl⟩
  rw [openEntry, openAt, openLength_eq hn, getD_runEnds s (Nat.le_of_lt hj), hn]
  simp only [Nat.zero_add, List.getElem?_drop, List.drop_drop]
  cases hat : s[j + n]? with
  | none => rfl
  | some c =>
    have hlt : j + n < s.length := (List.getElem?_eq_some_iff.mp hat).1
    simp only
    by_cases hopen : c = '['
    · rw [if_pos hopen, if_pos hopen, Nat.add_sub_cancel_left, hlater n (by omega), openAt,
        Option.map_map, show j + 1 + n = j + (n + 1) by omega]
      congr 1
      funext m
      show j + (n + 1) + m = j + (n + 1 + m)
      omega
    · rw [if_neg hopen, if_neg hopen]
      simp only [show (j < j + n) = (0 < n) by simp]
      split_ifs <;> simp [Nat.add_assoc]

theorem openEnds_eq (s : List Char) {j : Nat} (hj : j ≤ s.length) {later : List (Option Nat)}
    (hlater : ∀ m, j + m ≤ s.length → later.getD m none = openAt s (j + m)) {m : Nat}
    (hm : m ≤ s.length) : (openEnds s (runEnds 0 s) j later).getD m none = openAt s m := by
  induction j generalizing later with
  | zero => rw [openEnds, hlater m (by omega), Nat.zero_add]
  | succ j ih =>
    refine ih (Nat.le_of_succ_le hj) fun q hq => ?_
    cases q with
    | zero => exact openEntry_eq s hj hlater
    | succ q =>
      rw [List.getD_cons_succ, hlater q (by omega)]
      congr 1
      omega

theorem getD_openEnd (s : List Char) {m : Nat} (hm : m ≤ s.length) :
    (newAttrScanner s).openEnd.getD m none = openAt s m := by
  refine openEnds_eq s (Nat.le_refl _) (fun q hq => ?_) hm
  obtain rfl : q = 0 := by omega
  rw [Nat.add_zero, openAt, List.drop_length]
  rfl

/-! ## The loop -/

theorem openLength_le {seen : Bool} {cs : List Char} {n : Nat} (h : openLength seen cs = some n) :
    n ≤ cs.length := by
  induction cs generalizing seen n with
  | nil => cases h
  | cons c cs ih =>
    rw [openLength] at h
    split_ifs at h
    · obtain ⟨m, hm, rfl⟩ := Option.map_eq_some_iff.mp h
      exact Nat.succ_le_succ (ih hm)
    · obtain ⟨m, hm, rfl⟩ := Option.map_eq_some_iff.mp h
      exact Nat.succ_le_succ (ih hm)
    · obtain rfl := Option.some.inj h
      exact Nat.le_add_left 1 cs.length

theorem jump_space (moved : Bool) (cs : List Char) :
    jump moved ' ' cs =
      if cs[(cs.takeWhile isRunChar).length]? = some ']'
      then some ((cs.takeWhile isRunChar).length + 1) else none := by
  rw [← List.head?_drop]
  rfl

theorem jump_le {moved : Bool} {c : Char} {cs : List Char} {n : Nat}
    (h : jump moved c cs = some n) : n ≤ cs.length := by
  by_cases hspace : c = ' '
  · subst hspace
    rw [jump_space] at h
    split_ifs at h with hclose
    obtain rfl := Option.some.inj h
    exact (List.getElem?_eq_some_iff.mp hclose).1
  · rw [jump, if_neg hspace] at h
    split_ifs at h
    · exact openLength_le h
    · obtain rfl := Option.some.inj h
      exact Nat.zero_le _

theorem attrFrom_skip {n : Nat} {cs : List Char} (h : n ≤ cs.length) :
    attrFrom n false cs = cs.take n ++ attrFrom 0 false (cs.drop n) := by
  induction n generalizing cs with
  | zero => rfl
  | succ n ih =>
    cases cs with
    | nil => cases h
    | cons c cs =>
      rw [attrFrom, ih (Nat.le_of_succ_le_succ h), List.take_succ_cons, List.drop_succ_cons]
      rfl

theorem attrFrom_run {run : List Char} (hrun : ∀ c ∈ run, isAttrChar c = true) (moved : Bool)
    (cs : List Char) :
    attrFrom 0 moved (run ++ cs) = run ++ attrFrom 0 (moved || !run.isEmpty) cs := by
  induction run generalizing moved with
  | nil => simp
  | cons c run ih =>
    have hrest := ih (fun d hd => hrun d (List.mem_cons_of_mem c hd)) true
    rw [List.cons_append, attrFrom, if_pos (hrun c List.mem_cons_self), hrest]
    simp

/-- `next` finds in the tables what `jump` finds in the text. -/
theorem next_eq {s : List Char} {j : Nat} {c : Char} (hc : s[j]? = some c) (seg : Nat) :
    (newAttrScanner s).next j seg =
      (jump (decide (seg < j)) c (s.drop (j + 1))).map (j + 1 + ·) := by
  have hj : j < s.length := (List.getElem?_eq_some_iff.mp hc).1
  have hdrop : s.drop j = c :: s.drop (j + 1) := by
    rw [List.drop_eq_getElem_cons hj, (List.getElem?_eq_some_iff.mp hc).2]
  rw [AttrScanner.next, show (newAttrScanner s).s = s from rfl, hc]
  show (if c = ' ' then _ else _) = _
  by_cases hspace : c = ' '
  · subst hspace
    have hrun : (newAttrScanner s).runEnd.getD j 0 =
        j + 1 + ((s.drop (j + 1)).takeWhile isRunChar).length := by
      rw [show (newAttrScanner s).runEnd = runEnds 0 s from rfl, getD_runEnds s (Nat.le_of_lt hj),
        hdrop, List.takeWhile_cons, if_pos (by decide), List.length_cons]
      omega
    rw [if_pos rfl, jump_space, hrun, List.getElem?_drop]
    show (if _ then _ else _) = _
    split_ifs <;> rfl
  · rw [if_neg hspace, jump, if_neg hspace]
    by_cases hopen : c = '['
    · rw [if_pos hopen, if_pos hopen, getD_openEnd s hj, openAt]
    · rw [if_neg hopen, if_neg hopen]
      simp only [decide_eq_true_eq]
      split_ifs <;> rfl

/-- The passes from an index on take what `attrFrom` takes from there. -/
theorem run_pass (s : List Char) {fuel j : Nat} (hj : j ≤ s.length) (hfuel : s.length < fuel + j) :
    Loop.run (newAttrScanner s).pass fuel (j, j) =
      some (j + (attrFrom 0 false (s.drop j)).length) := by
  induction fuel generalizing j with
  | zero => omega
  | succ fuel ih =>
    obtain ⟨run, hrun⟩ : ∃ run, (s.drop j).takeWhile isAttrChar = run := ⟨_, rfl⟩
    have hattr : ∀ c ∈ run, isAttrChar c = true := by
      intro c hc
      rw [← hrun] at hc
      exact List.all_eq_true.mp List.all_takeWhile c hc
    have hsplit : run ++ (s.drop j).dropWhile isAttrChar = s.drop j := by
      rw [← hrun, List.takeWhile_append_dropWhile]
    have hrest : s.drop (j + run.length) = (s.drop j).dropWhile isAttrChar := by
      rw [← List.drop_drop, ← hsplit, List.drop_left, hsplit]
    have hmoved : (!run.isEmpty) = decide (j < j + run.length) := by
      cases run <;> simp
    have htaken : attrFrom 0 false (s.drop j) =
        run ++ attrFrom 0 (decide (j < j + run.length)) (s.drop (j + run.length)) := by
      rw [hrest, ← hmoved, ← Bool.false_or (!run.isEmpty), ← attrFrom_run hattr, hsplit]
    have hpass : (newAttrScanner s).pass (j, j) =
        match (newAttrScanner s).next (j + run.length) j with
        | some next => .inl (next, next)
        | none => .inr (j + run.length) := by
      rw [AttrScanner.pass, show (newAttrScanner s).s = s from rfl, hrun]
    cases hat : s[j + run.length]? with
    | none =>
      have hnext : (newAttrScanner s).next (j + run.length) j = none := by
        rw [AttrScanner.next, show (newAttrScanner s).s = s from rfl, hat]
      rw [hnext] at hpass
      rw [Loop.run_inr hpass, htaken, List.drop_eq_nil_iff.mpr (List.getElem?_eq_none_iff.mp hat)]
      simp [attrFrom]
    | some c =>
      obtain ⟨hlt, hc⟩ := List.getElem?_eq_some_iff.mp hat
      have hdrop : s.drop (j + run.length) = c :: s.drop (j + run.length + 1) := by
        rw [List.drop_eq_getElem_cons hlt, hc]
      have hstop : isAttrChar c = false := by
        have hhead := List.head?_dropWhile_not isAttrChar (s.drop j)
        rw [← hrest, hdrop] at hhead
        exact hhead
      rw [next_eq hat] at hpass
      rw [htaken, hdrop, attrFrom, if_neg (by rw [hstop]; exact Bool.false_ne_true)]
      cases hjump : jump (decide (j < j + run.length)) c (s.drop (j + run.length + 1)) with
      | none =>
        rw [hjump] at hpass
        rw [Loop.run_inr hpass]
        simp
      | some n =>
        have hskip := attrFrom_skip (jump_le hjump)
        have hle := jump_le hjump
        rw [List.length_drop] at hle
        rw [hjump, Option.map_some] at hpass
        rw [Loop.run_inl hpass, ih (by omega) (by omega)]
        show _ = some (j + (run ++ c :: attrFrom n false _).length)
        rw [hskip, List.drop_drop]
        simp only [List.length_append, List.length_cons, List.length_take, List.length_drop]
        rw [Nat.min_eq_left hle]
        congr 1
        omega

theorem tokenLen_eq (s : List Char) (i : Nat) :
    (newAttrScanner s).tokenLen i = (attrToken (s.drop i)).length := by
  rw [AttrScanner.tokenLen, show (newAttrScanner s).s = s from rfl]
  cases hat : s[i]? with
  | none =>
    rw [List.drop_eq_nil_iff.mpr (List.getElem?_eq_none_iff.mp hat)]
    rfl
  | some c =>
    obtain ⟨hlt, hc⟩ := List.getElem?_eq_some_iff.mp hat
    rw [List.drop_eq_getElem_cons hlt, hc, attrToken]
    show (if isNameStart c then _ else _) = _
    split_ifs
    · rw [run_pass s (show i + 1 ≤ s.length from hlt) (by omega), Option.getD_some, List.length_cons]
      omega
    · rfl

example : (newAttrScanner "a[0] b]c == 1".toList).tokenLen 0 = 8 := by decide +kernel

/-! ## The automaton of a token -/

/-- Where a scan stands behind the first letter: outside of brackets, with
    whether a character stands behind the last closing bracket; behind a space,
    which a bracket has to close; or in a bracketed part, with whether a character
    stands behind the last opening bracket. -/
inductive AttrState where
  | outside (moved : Bool)
  | spaced
  | bracket (seen : Bool)
deriving DecidableEq, Repr

/-- A token may end here. -/
def AttrState.Accepting : AttrState → Prop
  | .outside _ => True
  | _ => False

/-- What a character of a token does. -/
def attrStep : AttrState → Char → Option AttrState
  | .outside moved, c =>
    if isAttrChar c then some (.outside true)
    else if c = ' ' then some .spaced
    else if c = '[' then some (.bracket false)
    else if c = ']' ∧ moved = true then some (.outside false)
    else none
  | .spaced, c =>
    if isRunChar c then some .spaced
    else if c = ']' then some (.outside false)
    else none
  | .bracket seen, c =>
    if isRunChar c then some (.bracket true)
    else if c = '[' then some (.bracket false)
    else if c = ']' ∧ seen = true then some (.outside false)
    else none

theorem steps_bracket {seen : Bool} {cs : List Char} {n : Nat} (h : openLength seen cs = some n) :
    steps attrStep (.bracket seen) (cs.take n) = some (.outside false) := by
  induction cs generalizing seen n with
  | nil => cases h
  | cons c cs ih =>
    rw [openLength] at h
    split_ifs at h with hrun hopen hclose
    · obtain ⟨m, hm, rfl⟩ := Option.map_eq_some_iff.mp h
      have hstep : attrStep (.bracket seen) c = some (.bracket true) := if_pos hrun
      rw [List.take_succ_cons, steps_cons_of_eq attrStep hstep, ih hm]
    · obtain ⟨m, hm, rfl⟩ := Option.map_eq_some_iff.mp h
      have hstep : attrStep (.bracket seen) c = some (.bracket false) := by
        rw [attrStep, if_neg hrun, if_pos hopen]
      rw [List.take_succ_cons, steps_cons_of_eq attrStep hstep, ih hm]
    · obtain rfl := Option.some.inj h
      have hstep : attrStep (.bracket seen) c = some (.outside false) := by
        rw [attrStep, if_neg hrun, if_neg hopen, if_pos hclose]
      rw [List.take_succ_cons, steps_cons_of_eq attrStep hstep, List.take_zero, steps_nil]

theorem steps_spaced {cs : List Char} (h : cs[(cs.takeWhile isRunChar).length]? = some ']') :
    steps attrStep .spaced (cs.take ((cs.takeWhile isRunChar).length + 1)) =
      some (.outside false) := by
  induction cs with
  | nil => cases h
  | cons c cs ih =>
    rw [List.takeWhile_cons] at h ⊢
    split_ifs at h ⊢ with hrun
    · rw [List.length_cons, List.getElem?_cons_succ] at h
      have hstep : attrStep .spaced c = some .spaced := if_pos hrun
      rw [List.length_cons, List.take_succ_cons, steps_cons_of_eq attrStep hstep, ih h]
    · obtain rfl : c = ']' := Option.some.inj h
      rfl

theorem steps_jump {moved : Bool} {c : Char} {cs : List Char} {n : Nat}
    (hc : isAttrChar c = false) (h : jump moved c cs = some n) :
    steps attrStep (.outside moved) (c :: cs.take n) = some (.outside false) := by
  have hattr : ¬isAttrChar c = true := by rw [hc]; exact Bool.false_ne_true
  by_cases hspace : c = ' '
  · subst hspace
    rw [jump_space] at h
    split_ifs at h with hclose
    obtain rfl := Option.some.inj h
    have hstep : attrStep (.outside moved) ' ' = some .spaced := rfl
    rw [steps_cons_of_eq attrStep hstep, steps_spaced hclose]
  · rw [jump, if_neg hspace] at h
    split_ifs at h with hopen hclose
    · have hstep : attrStep (.outside moved) c = some (.bracket false) := by
        rw [attrStep, if_neg hattr, if_neg hspace, if_pos hopen]
      rw [steps_cons_of_eq attrStep hstep, steps_bracket h]
    · obtain rfl := Option.some.inj h
      have hstep : attrStep (.outside moved) c = some (.outside false) := by
        rw [attrStep, if_neg hattr, if_neg hspace, if_neg hopen, if_pos hclose]
      rw [steps_cons_of_eq attrStep hstep, List.take_zero, steps_nil]

/-- A word that leads to an accepting state from a state that is not goes on. -/
theorem exists_step_of_reaches {state : AttrState} {v cs : List Char} (hstate : ¬state.Accepting)
    (hv : v <+: cs) (h : Reaches attrStep AttrState.Accepting state v) :
    ∃ c cs' v' next, cs = c :: cs' ∧ v' <+: cs' ∧ attrStep state c = some next ∧
      Reaches attrStep AttrState.Accepting next v' := by
  obtain ⟨t, ht, haccept⟩ := h
  cases v with
  | nil => exact absurd (Option.some.inj ht ▸ haccept) hstate
  | cons c v =>
    obtain ⟨rest, rfl⟩ := hv
    rw [steps_cons] at ht
    obtain ⟨next, hnext, hrest⟩ := Option.bind_eq_some_iff.mp ht
    exact ⟨c, v ++ rest, v, next, rfl, List.prefix_append v rest, hnext, t, hrest, haccept⟩

theorem not_reaches_bracket {seen : Bool} {cs v : List Char} (h : openLength seen cs = none)
    (hv : v <+: cs) : ¬Reaches attrStep AttrState.Accepting (.bracket seen) v := by
  intro hreach
  have hstate : ∀ seen, ¬(AttrState.bracket seen).Accepting := fun _ => id
  induction cs generalizing seen v with
  | nil =>
    obtain ⟨c, cs', _, _, heq, _⟩ := exists_step_of_reaches (hstate seen) hv hreach
    cases heq
  | cons d cs ih =>
    obtain ⟨c, cs', v', next, heq, hv', hstep, hrest⟩ := exists_step_of_reaches (hstate seen) hv hreach
    obtain ⟨rfl, rfl⟩ := List.cons.inj heq
    rw [openLength] at h
    rw [attrStep] at hstep
    split_ifs at h hstep with hrun hopen hclose
    · exact ih (Option.map_eq_none_iff.mp h) hv' (Option.some.inj hstep ▸ hrest)
    · exact ih (Option.map_eq_none_iff.mp h) hv' (Option.some.inj hstep ▸ hrest)

theorem not_reaches_spaced {cs v : List Char}
    (h : cs[(cs.takeWhile isRunChar).length]? ≠ some ']') (hv : v <+: cs) :
    ¬Reaches attrStep AttrState.Accepting .spaced v := by
  intro hreach
  have hstate : ¬AttrState.spaced.Accepting := id
  induction cs generalizing v with
  | nil =>
    obtain ⟨c, cs', _, _, heq, _⟩ := exists_step_of_reaches hstate hv hreach
    cases heq
  | cons d cs ih =>
    obtain ⟨c, cs', v', next, heq, hv', hstep, hrest⟩ := exists_step_of_reaches hstate hv hreach
    obtain ⟨rfl, rfl⟩ := List.cons.inj heq
    rw [List.takeWhile_cons] at h
    rw [attrStep] at hstep
    split_ifs at h hstep with hrun hclose
    · exact ih h hv' (Option.some.inj hstep ▸ hrest)
    · exact h (by rw [hclose]; rfl)

/-- Where the scanner stops, no longer start of the text is a token. -/
theorem eq_nil_of_jump {moved : Bool} {c : Char} {cs v : List Char} (hc : isAttrChar c = false)
    (h : jump moved c cs = none) (hv : v <+: c :: cs)
    (hreach : Reaches attrStep AttrState.Accepting (.outside moved) v) : v = [] := by
  have hattr : ¬isAttrChar c = true := by rw [hc]; exact Bool.false_ne_true
  cases v with
  | nil => rfl
  | cons d v =>
    obtain ⟨rfl, hvs⟩ := List.cons_prefix_cons.mp hv
    obtain ⟨t, ht, haccept⟩ := hreach
    rw [steps_cons] at ht
    obtain ⟨next, hstep, hrest⟩ := Option.bind_eq_some_iff.mp ht
    have hreach : Reaches attrStep AttrState.Accepting next v := ⟨t, hrest, haccept⟩
    rw [attrStep, if_neg hattr] at hstep
    by_cases hspace : d = ' '
    · rw [if_pos hspace] at hstep
      subst hspace
      rw [jump_space] at h
      split_ifs at h with hclose
      exact absurd (Option.some.inj hstep ▸ hreach) (not_reaches_spaced hclose hvs)
    · rw [jump, if_neg hspace] at h
      rw [if_neg hspace] at hstep
      split_ifs at h hstep with hopen hclose
      exact absurd (Option.some.inj hstep ▸ hreach) (not_reaches_bracket h hvs)

/-- The loop of the scanner takes the longest start that the automaton accepts. -/
theorem longest_attrFrom (moved : Bool) (cs : List Char) :
    Longest attrStep AttrState.Accepting (.outside moved) cs (attrFrom 0 moved cs) := by
  induction hlen : cs.length using Nat.strongRecOn generalizing moved cs with
  | ind n ih =>
    cases cs with
    | nil => exact .empty trivial fun v hv _ => List.prefix_nil.mp hv
    | cons c cs =>
      rw [List.length_cons] at hlen
      rw [attrFrom]
      by_cases hc : isAttrChar c = true
      · have hstep : attrStep (.outside moved) c = some (.outside true) := if_pos hc
        rw [if_pos hc]
        exact .through (steps_cons_of_eq attrStep hstep []) (ih cs.length (by omega) true cs rfl)
      · rw [if_neg hc]
        have hc' : isAttrChar c = false := Bool.eq_false_of_not_eq_true hc
        cases hjump : jump moved c cs with
        | none => exact .empty trivial fun v hv => eq_nil_of_jump hc' hjump hv
        | some m =>
          have hrest := ih (cs.drop m).length (by rw [List.length_drop]; omega) false _ rfl
          have hthrough := Longest.through (steps_jump hc' hjump) hrest
          rw [List.cons_append, List.cons_append, List.take_append_drop,
            ← attrFrom_skip (jump_le hjump)] at hthrough
          exact hthrough

/-! ## The legacy rule -/

/-- `c`: the characters of a token outside of brackets. -/
def attrChar : Language Char := letter isAttrChar

/-- `x`: these characters and the space. -/
def runChar : Language Char := letter isRunChar

/-- `'[' x*` -/
def openPart : Language Char := letter (· == '[') * runChar∗

/-- `x+ ']'` -/
def closedPart : Language Char := plus runChar * letter (· == ']')

/-- `( '[' x* )* ( x+ ']' )+ c*` -/
def attributeGroup : Language Char := openPart∗ * plus closedPart * attrChar∗

/-- What follows the first letter of a token. -/
def attributeTail : Language Char := attrChar∗ * attributeGroup∗

/-- The legacy attribute token: `[A-Za-z_] c* ( ( '[' x* )* ( x+ ']' )+ c* )*`. -/
def attributeToken : Language Char := letter isNameStart * (attrChar∗ * attributeGroup∗)

/-- Where a bracketed part may be opened. -/
def AttrState.Opens : AttrState → Prop
  | .spaced => False
  | _ => True

/-- Where a bracketed part may be closed. -/
def AttrState.Closes : AttrState → Prop
  | .outside moved => moved = true
  | .spaced => True
  | .bracket seen => seen = true

theorem AttrState.Accepting.opens {state : AttrState} (h : state.Accepting) : state.Opens := by
  cases state with
  | outside => trivial
  | spaced => exact h
  | bracket => exact h.elim

theorem isRunChar_of_isAttrChar {c : Char} (h : isAttrChar c = true) : isRunChar c = true := by
  rw [isRunChar, h, Bool.true_or]

/-- A character of a run that is no attribute character is a space. -/
theorem eq_space_of_isRunChar {c : Char} (h : isRunChar c = true) (hattr : ¬isAttrChar c = true) :
    c = ' ' := by
  rw [isRunChar, Bool.or_eq_true] at h
  exact beq_iff_eq.mp (h.resolve_left hattr)

theorem leads_attrChar : Leads attrStep AttrState.Accepting attrChar AttrState.Accepting := by
  refine .letter fun state hstate c hc => ?_
  cases state with
  | outside moved => exact ⟨.outside true, if_pos hc, trivial⟩
  | spaced => exact hstate.elim
  | bracket => exact hstate.elim

theorem exists_step_runChar (state : AttrState) {c : Char} (hc : isRunChar c = true) :
    ∃ next, attrStep state c = some next ∧ next.Closes := by
  cases state with
  | outside moved =>
    by_cases hattr : isAttrChar c = true
    · exact ⟨.outside true, if_pos hattr, rfl⟩
    · refine ⟨.spaced, ?_, trivial⟩
      rw [attrStep, if_neg hattr, if_pos (eq_space_of_isRunChar hc hattr)]
  | spaced => exact ⟨.spaced, if_pos hc, trivial⟩
  | bracket seen => exact ⟨.bracket true, if_pos hc, rfl⟩

theorem leads_openPart : Leads attrStep AttrState.Opens openPart AttrState.Opens := by
  have hopen : Leads attrStep AttrState.Opens (letter (· == '[')) fun s => ∃ seen, s = .bracket seen := by
    refine .letter fun state hstate c hc => ⟨.bracket false, ?_, false, rfl⟩
    obtain rfl := beq_iff_eq.mp hc
    cases state with
    | outside => rfl
    | spaced => exact hstate.elim
    | bracket => rfl
  have hrun : Leads attrStep (fun s => ∃ seen, s = .bracket seen) runChar
      fun s => ∃ seen, s = .bracket seen := by
    refine .letter fun state hstate c hc => ?_
    obtain ⟨seen, rfl⟩ := hstate
    exact ⟨.bracket true, if_pos hc, true, rfl⟩
  refine (hopen.mul hrun.kstar).mono (fun _ h => h) fun state hstate => ?_
  obtain ⟨seen, rfl⟩ := hstate
  trivial

theorem leads_closedPart : Leads attrStep AttrState.Opens closedPart AttrState.Accepting := by
  have hfirst : Leads attrStep AttrState.Opens runChar AttrState.Closes :=
    .letter fun state _ c hc => exists_step_runChar state hc
  have hrun : Leads attrStep AttrState.Closes runChar AttrState.Closes :=
    .letter fun state _ c hc => exists_step_runChar state hc
  have hclose : Leads attrStep AttrState.Closes (letter (· == ']')) AttrState.Accepting := by
    refine .letter fun state hstate c hc => ⟨.outside false, ?_, trivial⟩
    obtain rfl := beq_iff_eq.mp hc
    cases state with
    | outside moved => obtain rfl : moved = true := hstate; rfl
    | spaced => rfl
    | bracket seen => obtain rfl : seen = true := hstate; rfl
  exact (hfirst.mul hrun.kstar).mul hclose

theorem leads_attributeTail :
    Leads attrStep AttrState.Accepting attributeTail AttrState.Accepting := by
  have hclosed : Leads attrStep AttrState.Opens (plus closedPart) AttrState.Accepting :=
    leads_closedPart.mul
      (leads_closedPart.mono (fun _ => AttrState.Accepting.opens) fun _ h => h).kstar
  have hgroup : Leads attrStep AttrState.Accepting attributeGroup AttrState.Accepting :=
    ((leads_openPart.kstar.mul hclosed).mul leads_attrChar.kstar).mono
      (fun _ => AttrState.Accepting.opens) fun _ h => h
  exact leads_attrChar.kstar.mul hgroup.kstar

/-- What the characters that a scan has read behind the first letter are. -/
def Taken : AttrState → List Char → Prop
  | .outside moved, u =>
    ∃ t ∈ attributeTail, ∃ v ∈ attrChar∗, (moved = true → v ∈ plus attrChar) ∧ u = t ++ v
  | .spaced, u => ∃ t ∈ attributeTail, ∃ v ∈ plus runChar, u = t ++ v
  | .bracket seen, u =>
    ∃ t ∈ attributeTail, ∃ o ∈ openPart∗, ∃ v ∈ runChar∗,
      (seen = true → v ∈ plus runChar) ∧ u = t ++ (o ++ '[' :: v)

theorem attributeTail_mul_attrChar : attributeTail * attrChar∗ ≤ attributeTail := by
  have hgroup : attributeGroup * attrChar ≤ attributeGroup := by
    rw [attributeGroup, mul_assoc]
    exact mul_le_mul_right kstar_mul_le_kstar _
  have hchars : attrChar∗ * attrChar ≤ attributeTail :=
    kstar_mul_le_kstar.trans (le_mul_of_one_le_right' one_le_kstar)
  apply mul_kstar_le_self
  calc attributeTail * attrChar
      = attrChar∗ * (1 + attributeGroup∗ * attributeGroup) * attrChar := by
        rw [one_add_kstar_mul, attributeTail]
    _ = attrChar∗ * attrChar + attrChar∗ * (attributeGroup∗ * (attributeGroup * attrChar)) := by
        rw [mul_add, mul_one, add_mul]
        simp only [mul_assoc]
    _ ≤ attributeTail := by
        refine add_le hchars ?_
        rw [attributeTail]
        exact mul_le_mul_right ((mul_le_mul_right hgroup _).trans kstar_mul_le_kstar) _

theorem attributeTail_append_attrChar {t v : List Char} (ht : t ∈ attributeTail)
    (hv : v ∈ attrChar∗) : t ++ v ∈ attributeTail :=
  attributeTail_mul_attrChar (Language.append_mem_mul ht hv)

theorem attributeTail_append_group {t g : List Char} (ht : t ∈ attributeTail)
    (hg : g ∈ attributeGroup) : t ++ g ∈ attributeTail := by
  obtain ⟨cs, hcs, groups, hgroups, rfl⟩ := Language.mem_mul.mp ht
  rw [List.append_assoc]
  exact Language.append_mem_mul hcs (append_mem_kstar hgroups hg)

/-- A run of characters and the bracket that closes it, behind opening brackets. -/
theorem mem_attributeGroup {o v : List Char} (ho : o ∈ openPart∗) (hv : v ∈ plus runChar) :
    o ++ (v ++ [']']) ∈ attributeGroup := by
  have hclosed : v ++ [']'] ∈ closedPart :=
    Language.append_mem_mul hv (mem_letter (by decide))
  have hgroup : o ++ (v ++ [']']) ++ [] ∈ attributeGroup :=
    Language.append_mem_mul (Language.append_mem_mul ho (mem_plus hclosed))
      (Language.nil_mem_kstar attrChar)
  rwa [List.append_nil] at hgroup

theorem attrChar_le_runChar : attrChar ≤ runChar := by
  rintro w ⟨c, hc, rfl⟩
  exact mem_letter (isRunChar_of_isAttrChar hc)

theorem mem_kstar_of_mem_plus {l : Language Char} {w : List Char} (h : w ∈ plus l) : w ∈ l∗ := by
  have hle : l * l∗ ≤ l∗ := mul_kstar_le_kstar
  exact hle h

theorem Taken.mem_attributeTail {moved : Bool} {u : List Char} (h : Taken (.outside moved) u) :
    u ∈ attributeTail := by
  obtain ⟨t, ht, v, hv, -, rfl⟩ := h
  exact attributeTail_append_attrChar ht hv

theorem taken_outside {u : List Char} (h : u ∈ attributeTail) : Taken (.outside false) u :=
  ⟨u, h, [], Language.nil_mem_kstar _, fun hmoved => (Bool.false_ne_true hmoved).elim,
    (List.append_nil u).symm⟩

/-- A closing bracket behind a run of characters and opening brackets. -/
theorem taken_close {t o v : List Char} (ht : t ∈ attributeTail) (ho : o ∈ openPart∗)
    (hv : v ∈ plus runChar) : Taken (.outside false) (t ++ (o ++ v) ++ [']']) := by
  have hgroup := attributeTail_append_group ht (mem_attributeGroup ho hv)
  rw [← List.append_assoc o, ← List.append_assoc] at hgroup
  exact taken_outside hgroup

theorem taken_step_outside {moved : Bool} {next : AttrState} {u : List Char} {c : Char}
    (h : Taken (.outside moved) u) (hstep : attrStep (.outside moved) c = some next) :
    Taken next (u ++ [c]) := by
  obtain ⟨t, ht, v, hv, hmoved, rfl⟩ := h
  rw [attrStep] at hstep
  split_ifs at hstep with hattr hspace hopen hclose
  · obtain rfl := Option.some.inj hstep
    have hplus : v ++ [c] ∈ plus attrChar := append_mem_plus hv (mem_letter hattr)
    exact ⟨t, ht, v ++ [c], mem_kstar_of_mem_plus hplus, fun _ => hplus, List.append_assoc t v [c]⟩
  · obtain rfl := Option.some.inj hstep
    have hrun : v ∈ runChar∗ := kstar_mono attrChar_le_runChar hv
    have hc : isRunChar c = true := by rw [hspace]; decide
    exact ⟨t, ht, v ++ [c], append_mem_plus hrun (mem_letter hc), List.append_assoc t v [c]⟩
  · obtain rfl := Option.some.inj hstep
    refine ⟨t ++ v, attributeTail_append_attrChar ht hv, [], Language.nil_mem_kstar _, [],
      Language.nil_mem_kstar _, fun hseen => (Bool.false_ne_true hseen).elim, ?_⟩
    rw [hopen, List.nil_append]
  · obtain rfl := Option.some.inj hstep
    have hplus : v ∈ plus runChar :=
      mul_le_mul' attrChar_le_runChar (kstar_mono attrChar_le_runChar) (hmoved hclose.2)
    rw [hclose.1]
    exact taken_close ht (Language.nil_mem_kstar _) hplus

theorem taken_step_spaced {next : AttrState} {u : List Char} {c : Char} (h : Taken .spaced u)
    (hstep : attrStep .spaced c = some next) : Taken next (u ++ [c]) := by
  obtain ⟨t, ht, v, hv, rfl⟩ := h
  rw [attrStep] at hstep
  split_ifs at hstep with hrun hclose
  · obtain rfl := Option.some.inj hstep
    exact ⟨t, ht, v ++ [c], append_mem_plus (mem_kstar_of_mem_plus hv) (mem_letter hrun),
      List.append_assoc t v [c]⟩
  · obtain rfl := Option.some.inj hstep
    rw [hclose]
    exact taken_close ht (Language.nil_mem_kstar _) hv

theorem taken_step_bracket {seen : Bool} {next : AttrState} {u : List Char} {c : Char}
    (h : Taken (.bracket seen) u) (hstep : attrStep (.bracket seen) c = some next) :
    Taken next (u ++ [c]) := by
  obtain ⟨t, ht, o, ho, v, hv, hseen, rfl⟩ := h
  have hopened : ∀ w ∈ runChar∗, o ++ '[' :: w ∈ openPart∗ := fun w hw =>
    append_mem_kstar ho (Language.append_mem_mul (mem_letter (by decide)) hw)
  rw [attrStep] at hstep
  split_ifs at hstep with hrun hopen hclose
  · obtain rfl := Option.some.inj hstep
    have hplus : v ++ [c] ∈ plus runChar := append_mem_plus hv (mem_letter hrun)
    exact ⟨t, ht, o, ho, v ++ [c], mem_kstar_of_mem_plus hplus, fun _ => hplus, by simp⟩
  · obtain rfl := Option.some.inj hstep
    refine ⟨t, ht, o ++ '[' :: v, hopened v hv, [], Language.nil_mem_kstar _,
      fun hfalse => (Bool.false_ne_true hfalse).elim, ?_⟩
    rw [hopen, List.append_assoc]
  · obtain rfl := Option.some.inj hstep
    have hclosed := taken_close ht (hopened [] (Language.nil_mem_kstar _)) (hseen hclose.2)
    rw [hclose.1]
    simpa using hclosed

theorem taken_steps {state next : AttrState} {u w : List Char} (h : Taken state u)
    (hw : steps attrStep state w = some next) : Taken next (u ++ w) := by
  induction w generalizing state u with
  | nil => rw [List.append_nil]; exact Option.some.inj hw ▸ h
  | cons c w ih =>
    rw [steps_cons] at hw
    obtain ⟨mid, hstep, hrest⟩ := Option.bind_eq_some_iff.mp hw
    have hmid : Taken mid (u ++ [c]) := by
      cases state with
      | outside moved => exact taken_step_outside h hstep
      | spaced => exact taken_step_spaced h hstep
      | bracket seen => exact taken_step_bracket h hstep
    rw [List.append_cons]
    exact ih hmid hrest

/-- The automaton accepts what may follow the first letter of a token. -/
theorem reaches_iff_mem (w : List Char) :
    Reaches attrStep AttrState.Accepting (.outside false) w ↔ w ∈ attributeTail := by
  have hnil : ([] : List Char) ∈ attributeTail :=
    Language.append_mem_mul (Language.nil_mem_kstar attrChar) (Language.nil_mem_kstar attributeGroup)
  constructor
  · rintro ⟨t, ht, haccept⟩
    have htaken : Taken t w := taken_steps (taken_outside hnil) ht
    cases t with
    | outside moved => exact htaken.mem_attributeTail
    | spaced => exact haccept.elim
    | bracket => exact haccept.elim
  · intro hw
    exact leads_attributeTail (.outside false) trivial w hw

/-! ## The longest token -/

theorem mem_attributeToken {p : List Char} :
    p ∈ attributeToken ↔ ∃ c w, p = c :: w ∧ isNameStart c = true ∧ w ∈ attributeTail := by
  constructor
  · intro hp
    obtain ⟨first, ⟨c, hc, rfl⟩, w, hw, rfl⟩ := Language.mem_mul.mp hp
    exact ⟨c, w, rfl, hc, hw⟩
  · rintro ⟨c, w, rfl, hc, hw⟩
    exact Language.append_mem_mul (mem_letter hc) hw

/-- `tokenLen` finds the longest token at an index, and nothing where no token
    starts. -/
theorem tokenLen_longest (s : List Char) (i : Nat) :
    IsGreatest {n | ∃ p ∈ attributeToken, p <+: s.drop i ∧ p.length = n}
        ((newAttrScanner s).tokenLen i) ∨
      (newAttrScanner s).tokenLen i = 0 ∧ ∀ p ∈ attributeToken, ¬p <+: s.drop i := by
  rw [tokenLen_eq]
  cases hrest : s.drop i with
  | nil =>
    right
    refine ⟨rfl, fun p hp hstart => ?_⟩
    obtain ⟨c, w, rfl, -⟩ := mem_attributeToken.mp hp
    cases List.prefix_nil.mp hstart
  | cons c cs =>
    rw [attrToken]
    by_cases hc : isNameStart c = true
    · left
      have hlongest := longest_attrFrom false cs
      rw [if_pos hc]
      constructor
      · refine ⟨c :: attrFrom 0 false cs, mem_attributeToken.mpr ⟨c, _, rfl, hc, ?_⟩,
          List.cons_prefix_cons.mpr ⟨rfl, hlongest.starts⟩, rfl⟩
        exact (reaches_iff_mem _).mp hlongest.reaches
      · rintro n ⟨p, hp, hstart, rfl⟩
        obtain ⟨d, w, rfl, -, hw⟩ := mem_attributeToken.mp hp
        have hw' := hlongest.longest w (List.cons_prefix_cons.mp hstart).2 ((reaches_iff_mem w).mpr hw)
        exact Nat.succ_le_succ hw'
    · right
      rw [if_neg hc]
      refine ⟨rfl, fun p hp hstart => ?_⟩
      obtain ⟨d, w, rfl, hd, -⟩ := mem_attributeToken.mp hp
      exact hc ((List.cons_prefix_cons.mp hstart).1 ▸ hd)

end AuthzAgent.PolicyIr
