/-
  AuthzAgent.Lib.Delimited

  Trees printed as one flat text: words, quoted texts, lists in brackets and
  objects in braces, with commas between the entries.  `print_injective` reads
  the text back without ambiguity.

  The argument is the usual one for a text that is read from the left.  A
  printed tree is followed by nothing or by a character that closes or separates
  entries (`Stops`), and a word holds no such character, so the first character
  tells the kind of a tree and the stop tells its end.
-/

import Mathlib

namespace Delimited

/-- A tree of words and quoted texts. -/
inductive Tree where
  | word (text : List Char)
  | quoted (s : String)
  | list (items : List Tree)
  | object (members : List (String × Tree))

/-- A character that ends the entry before it. -/
def isStop (c : Char) : Bool := c == ',' || c == ']' || c == '\x7d'

/-- A character that opens a quoted text, a list or an object. -/
def isOpen (c : Char) : Bool := c == '"' || c == '[' || c == '\x7b'

/-- A text that stands after a printed tree. -/
def Stops (r : List Char) : Prop := ∀ c ∈ r.head?, isStop c = true

theorem Stops.nil : Stops [] := fun _ h => by cases h

theorem Stops.cons {c : Char} (h : isStop c = true) (r : List Char) : Stops (c :: r) := by
  rintro d hd
  obtain rfl := Option.some.inj hd
  exact h

theorem no_stop_of_all {text : List Char} (h : (text.all fun c => !isStop c) = true) :
    ∀ c ∈ text, isStop c = false := by
  intro c hc
  have hstop := List.all_eq_true.mp h c hc
  rwa [Bool.not_eq_true'] at hstop

structure IsWord (text : List Char) : Prop where
  no_stop : ∀ c ∈ text, isStop c = false
  no_open : ∃ c ∈ text.head?, isOpen c = false

theorem IsWord.exists_head {text : List Char} (h : IsWord text) :
    ∃ c rest, text = c :: rest ∧ isOpen c = false ∧ isStop c = false := by
  obtain ⟨c, hc, hopen⟩ := h.no_open
  cases text with
  | nil => cases hc
  | cons d rest =>
    obtain rfl := Option.some.inj hc
    exact ⟨d, rest, rfl, hopen, h.no_stop d List.mem_cons_self⟩

/-- Two words with stops after them are the same word. -/
theorem append_inj_of_stops {x y r r' : List Char} (hx : ∀ c ∈ x, isStop c = false)
    (hy : ∀ c ∈ y, isStop c = false) (hr : Stops r) (hr' : Stops r') (h : x ++ r = y ++ r') :
    x = y ∧ r = r' := by
  have htake : ∀ {z t : List Char}, (∀ c ∈ z, isStop c = false) → Stops t →
      (z ++ t).takeWhile (fun c => !isStop c) = z := by
    intro z t hz ht
    have hall : ∀ c ∈ z, (!isStop c) = true := fun c hc => by rw [hz c hc]; rfl
    rw [List.takeWhile_append_of_pos hall]
    cases t with
    | nil => rw [List.takeWhile_nil, List.append_nil]
    | cons c t =>
      rw [List.takeWhile_cons, ht c rfl]
      exact List.append_nil z
  have hxy : x = y := by rw [← htake hx hr, h, htake hy hr']
  subst hxy
  exact ⟨rfl, List.append_cancel_left h⟩

/-! ## Printing -/

/-- A quotation whose end can be told from what follows. -/
structure Quotation where
  quote : String → List Char
  head : ∀ s, (quote s).head? = some '"'
  append_inj : ∀ {s t : String} {r r' : List Char}, quote s ++ r = quote t ++ r' → s = t ∧ r = r'

section Print

variable (Q : Quotation)

mutual

def print : Tree → List Char
  | .word text => text
  | .quoted s => Q.quote s
  | .list items => '[' :: (List.intercalate [','] (printItems items) ++ [']'])
  | .object members => '\x7b' :: (List.intercalate [','] (printMembers members) ++ ['\x7d'])

def printItems : List Tree → List (List Char)
  | [] => []
  | t :: ts => print t :: printItems ts

def printMembers : List (String × Tree) → List (List Char)
  | [] => []
  | (k, t) :: ts => (Q.quote k ++ ':' :: print t) :: printMembers ts

end

theorem printItems_eq_map (ts : List Tree) : printItems Q ts = ts.map (print Q) := by
  induction ts with
  | nil => rfl
  | cons t ts ih => rw [printItems, ih, List.map_cons]

theorem printMembers_eq_map (ms : List (String × Tree)) :
    printMembers Q ms = ms.map fun m => Q.quote m.1 ++ ':' :: print Q m.2 := by
  induction ms with
  | nil => rfl
  | cons m ms ih =>
    obtain ⟨k, t⟩ := m
    rw [printMembers, ih, List.map_cons]

end Print

/-! ## Reading back -/

/-- An entry that can be told from every entry of a set, with stops after both. -/
def ReadsBack {α : Type} (f : α → List Char) (S : α → Prop) (a : α) : Prop :=
  ∀ b, S b → ∀ r r', Stops r → Stops r' → f a ++ r = f b ++ r' → a = b ∧ r = r'

section Entries

variable {α : Type} {f : α → List Char} {S : α → Prop} {close : Char}

theorem intercalate_comma_cons (x : List Char) (xs : List (List Char)) :
    List.intercalate [','] (x :: xs) = x ++ (xs.flatMap (',' :: ·)) := by
  induction xs generalizing x with
  | nil => simp
  | cons y ys ih =>
    rw [List.intercalate_cons_cons, ih, List.flatMap_cons]
    simp

/-- Entries that read back are read back one after the other. -/
theorem flatMap_comma_inj (hclose : isStop close = true) (hcomma : close ≠ ',')
    {as : List α} (hread : ∀ a ∈ as, ReadsBack f S a) :
    ∀ {bs : List α}, (∀ b ∈ bs, S b) → ∀ {r r' : List Char},
      (as.flatMap fun a => ',' :: f a) ++ close :: r =
        (bs.flatMap fun b => ',' :: f b) ++ close :: r' → as = bs ∧ r = r' := by
  induction as with
  | nil =>
    intro bs _ r r' h
    cases bs with
    | nil => exact ⟨rfl, (List.cons.inj h).2⟩
    | cons b bs => exact absurd (List.cons.inj h).1 hcomma
  | cons a as ih =>
    intro bs hbs r r' h
    cases bs with
    | nil => exact absurd (List.cons.inj h).1.symm hcomma
    | cons b bs =>
      rw [List.flatMap_cons, List.flatMap_cons, List.append_assoc, List.append_assoc] at h
      have hstops : ∀ (cs : List α) (t : List Char),
          Stops ((cs.flatMap fun c => ',' :: f c) ++ close :: t) := by
        intro cs t
        cases cs with
        | nil => exact Stops.cons hclose t
        | cons c cs => exact Stops.cons (by decide) _
      obtain ⟨hab, hrest⟩ := hread a List.mem_cons_self b (hbs b List.mem_cons_self) _ _
        (hstops as r) (hstops bs r') (List.cons.inj h).2
      obtain ⟨hlist, hr⟩ := ih (fun a' ha' => hread a' (List.mem_cons_of_mem a ha'))
        (fun b' hb' => hbs b' (List.mem_cons_of_mem b hb')) hrest
      exact ⟨by rw [hab, hlist], hr⟩

/-- A list of entries with a closing character is read back. -/
theorem intercalate_inj (hclose : isStop close = true) (hcomma : close ≠ ',')
    (hne : ∀ a, S a → ∃ c ∈ (f a).head?, isStop c = false)
    {as bs : List α} (has : ∀ a ∈ as, S a) (hread : ∀ a ∈ as, ReadsBack f S a)
    (hbs : ∀ b ∈ bs, S b) {r r' : List Char}
    (h : List.intercalate [','] (as.map f) ++ close :: r =
      List.intercalate [','] (bs.map f) ++ close :: r') : as = bs ∧ r = r' := by
  have hstart : ∀ a, S a → ∀ t u : List Char, close :: t ≠ f a ++ u := by
    intro a ha t u heq
    obtain ⟨c, hc, hstop⟩ := hne a ha
    cases hfa : f a with
    | nil => rw [hfa] at hc; cases hc
    | cons d ds =>
      rw [hfa] at hc heq
      obtain rfl := Option.some.inj hc
      rw [← (List.cons.inj heq).1, hclose] at hstop
      cases hstop
  cases as with
  | nil =>
    cases bs with
    | nil => exact ⟨rfl, (List.cons.inj h).2⟩
    | cons b bs =>
      rw [List.map_cons, intercalate_comma_cons, List.append_assoc] at h
      exact absurd h (hstart b (hbs b List.mem_cons_self) _ _)
  | cons a as =>
    cases bs with
    | nil =>
      rw [List.map_cons, intercalate_comma_cons, List.append_assoc] at h
      exact absurd h.symm (hstart a (has a List.mem_cons_self) _ _)
    | cons b bs =>
      have hcons : (',' : Char) :: (List.intercalate [','] ((a :: as).map f) ++ close :: r) =
          ',' :: (List.intercalate [','] ((b :: bs).map f) ++ close :: r') := by rw [h]
      rw [List.map_cons, List.map_cons, intercalate_comma_cons, intercalate_comma_cons,
        List.flatMap_map, List.flatMap_map] at hcons
      exact flatMap_comma_inj hclose hcomma hread hbs hcons

end Entries

/-- A tree whose words are words. -/
inductive Tree.WellFormed : Tree → Prop where
  | word {text : List Char} (h : IsWord text) : WellFormed (.word text)
  | quoted (s : String) : WellFormed (.quoted s)
  | list {items : List Tree} (h : ∀ t ∈ items, WellFormed t) : WellFormed (.list items)
  | object {members : List (String × Tree)} (h : ∀ m ∈ members, WellFormed m.2) :
      WellFormed (.object members)

/-- The character that opens a tree. -/
def Tree.opener : Tree → Option Char
  | .word _ => none
  | .quoted _ => some '"'
  | .list _ => some '['
  | .object _ => some '\x7b'

section Injective

variable (Q : Quotation)

/-- The first character tells the kind of a tree. -/
theorem head?_print {t : Tree} (h : t.WellFormed) (r : List Char) :
    (print Q t ++ r).head?.filter isOpen = t.opener := by
  cases h with
  | word h =>
    obtain ⟨c, rest, rfl, hopen, -⟩ := h.exists_head
    show (some c).filter isOpen = none
    rw [Option.filter_some, hopen]
    rfl
  | quoted s =>
    have hhead : (Q.quote s ++ r).head? = some '"' := by rw [List.head?_append, Q.head]; rfl
    show (Q.quote s ++ r).head?.filter isOpen = some '"'
    rw [hhead]
    rfl
  | list h => rfl
  | object h => rfl

theorem head?_print_not_stop {t : Tree} (h : t.WellFormed) :
    ∃ c ∈ (print Q t).head?, isStop c = false := by
  cases h with
  | word h =>
    obtain ⟨c, rest, rfl, -, hstop⟩ := h.exists_head
    exact ⟨c, rfl, hstop⟩
  | quoted s => exact ⟨'"', Q.head s, by decide⟩
  | list h => exact ⟨'[', rfl, by decide⟩
  | object h => exact ⟨'\x7b', rfl, by decide⟩

theorem readsBack_member {m : String × Tree}
    (h : ReadsBack (print Q) Tree.WellFormed m.2) :
    ReadsBack (fun m : String × Tree => Q.quote m.1 ++ ':' :: print Q m.2)
      (fun m => m.2.WellFormed) m := by
  intro n hn r r' hr hr' heq
  simp only [List.append_assoc, List.cons_append] at heq
  obtain ⟨hkey, hrest⟩ := Q.append_inj heq
  obtain ⟨hvalue, hr⟩ := h n.2 hn r r' hr hr' (List.cons.inj hrest).2
  exact ⟨Prod.ext hkey hvalue, hr⟩

theorem readsBack_print {t : Tree} (ht : t.WellFormed) :
    ReadsBack (print Q) Tree.WellFormed t := by
  induction ht with
  | word h =>
    intro u hu r r' hr hr' heq
    have hopener := head?_print Q hu r'
    rw [← heq, head?_print Q (.word h) r] at hopener
    cases hu with
    | word h' =>
      obtain ⟨hxy, hrr⟩ := append_inj_of_stops h.no_stop h'.no_stop hr hr' heq
      exact ⟨by rw [hxy], hrr⟩
    | quoted | list | object => cases hopener
  | quoted s =>
    intro u hu r r' hr hr' heq
    have hopener := head?_print Q hu r'
    rw [← heq, head?_print Q (.quoted s) r] at hopener
    cases hu with
    | quoted s' =>
      obtain ⟨hxy, hrr⟩ := Q.append_inj heq
      exact ⟨by rw [hxy], hrr⟩
    | word | list | object => cases hopener
  | list h ih =>
    intro u hu r r' hr hr' heq
    have hopener := head?_print Q hu r'
    rw [← heq, head?_print Q (.list h) r] at hopener
    cases hu with
    | list h' =>
      rw [print, print, printItems_eq_map, printItems_eq_map] at heq
      simp only [List.cons_append, List.append_assoc, List.nil_append] at heq
      obtain ⟨hitems, hrr⟩ := intercalate_inj (by decide) (by decide)
        (fun t ht => head?_print_not_stop Q ht) h ih h' (List.cons.inj heq).2
      exact ⟨by rw [hitems], hrr⟩
    | word | quoted | object => cases hopener
  | object h ih =>
    intro u hu r r' hr hr' heq
    have hopener := head?_print Q hu r'
    rw [← heq, head?_print Q (.object h) r] at hopener
    cases hu with
    | object h' =>
      rw [print, print, printMembers_eq_map, printMembers_eq_map] at heq
      simp only [List.cons_append, List.append_assoc, List.nil_append] at heq
      have hhead : ∀ m : String × Tree, m.2.WellFormed →
          ∃ c ∈ (Q.quote m.1 ++ ':' :: print Q m.2).head?, isStop c = false := by
        intro m _
        refine ⟨'"', ?_, by decide⟩
        rw [List.head?_append, Q.head]
        rfl
      obtain ⟨hmembers, hrr⟩ := intercalate_inj (by decide) (by decide) hhead h
        (fun m hm => readsBack_member Q (ih m hm)) h' (List.cons.inj heq).2
      exact ⟨by rw [hmembers], hrr⟩
    | word | quoted | list => cases hopener

/-- Two trees with one text are one tree. -/
theorem print_injective {t u : Tree} (ht : t.WellFormed) (hu : u.WellFormed)
    (h : print Q t = print Q u) : t = u := by
  refine (readsBack_print Q ht u hu [] [] .nil .nil ?_).1
  rw [h]

end Injective

end Delimited
