/-
  AuthzAgent.Lib.Template

  Texts with holes.  A template is a list of characters and holes, and `fill`
  puts a text in the place of each hole.  Where the texts avoid a set of
  characters, cutting the filled text at these characters is cutting the
  template (`takeWhile_fill`, `dropWhile_fill`, `splitOnP_fill`), whatever the
  texts are.
-/

import Mathlib

namespace Template

/-- A character or a hole of a template. -/
inductive Item (κ : Type) where
  | char (c : Char)
  | hole (key : κ)
deriving DecidableEq

section

variable {κ : Type}

/-- A character of the template that is in a set; a hole is not. -/
def Item.isAt (p : Char → Bool) : Item κ → Bool
  | .char c => p c
  | .hole _ => false

/-- The text of a template whose holes are filled. -/
def fill (f : κ → List Char) (items : List (Item κ)) : List Char :=
  items.flatMap fun
    | .char c => [c]
    | .hole key => f key

/-- The texts of holes have no character of a set. -/
def Avoids (p : Char → Bool) (f : κ → List Char) : Prop := ∀ key, ∀ c ∈ f key, p c = false

variable {f g : κ → List Char} {p : Char → Bool}

theorem fill_char (c : Char) (items : List (Item κ)) :
    fill f (.char c :: items) = c :: fill f items := rfl

theorem fill_hole (key : κ) (items : List (Item κ)) :
    fill f (.hole key :: items) = f key ++ fill f items := rfl

theorem fill_append (items more : List (Item κ)) :
    fill f (items ++ more) = fill f items ++ fill f more :=
  List.flatMap_append

theorem fill_map_char (cs : List Char) : fill f (cs.map Item.char) = cs := by
  induction cs with
  | nil => rfl
  | cons c cs ih => rw [List.map_cons, fill_char, ih]

/-- A template without holes is its text. -/
theorem fill_eq_of_no_hole {items : List (Item κ)} (h : ∀ key, .hole key ∉ items) :
    fill f items = fill g items := by
  induction items with
  | nil => rfl
  | cons item items ih =>
    have hrest := ih fun key hkey => h key (List.mem_cons_of_mem item hkey)
    cases item with
    | char c => rw [fill_char, fill_char, hrest]
    | hole key => exact absurd List.mem_cons_self (h key)

theorem mem_fill_of_hole {items : List (Item κ)} {key : κ} (h : .hole key ∈ items) {c : Char}
    (hc : c ∈ f key) : c ∈ fill f items :=
  List.mem_flatMap.mpr ⟨_, h, hc⟩

theorem takeWhile_fill (h : Avoids p f) (items : List (Item κ)) :
    (fill f items).takeWhile (fun c => !p c) =
      fill f (items.takeWhile fun item => !item.isAt p) := by
  induction items with
  | nil => rfl
  | cons item items ih =>
    cases item with
    | char c =>
      rw [fill_char, List.takeWhile_cons, List.takeWhile_cons]
      show (if !p c then _ else _) = fill f (if !p c then _ else _)
      split_ifs
      · rw [fill_char, ih]
      · rfl
    | hole key =>
      have hkey : ∀ c ∈ f key, (!p c) = true := fun c hc => by rw [h key c hc]; rfl
      rw [fill_hole, List.takeWhile_append_of_pos hkey, ih]
      rfl

theorem dropWhile_fill (h : Avoids p f) (items : List (Item κ)) :
    (fill f items).dropWhile (fun c => !p c) =
      fill f (items.dropWhile fun item => !item.isAt p) := by
  induction items with
  | nil => rfl
  | cons item items ih =>
    cases item with
    | char c =>
      rw [fill_char, List.dropWhile_cons, List.dropWhile_cons]
      show (if !p c then _ else _) = fill f (if !p c then _ else _)
      split_ifs
      · exact ih
      · rfl
    | hole key =>
      have hkey : ∀ c ∈ f key, (!p c) = true := fun c hc => by rw [h key c hc]; rfl
      rw [fill_hole, List.dropWhile_append_of_pos hkey, ih]
      rfl

/-- A part without separators goes to the first piece. -/
theorem splitOnP_append_of_neg {α : Type} {p : α → Bool} {xs : List α}
    (h : ∀ x ∈ xs, p x = false) (ys : List α) :
    (xs ++ ys).splitOnP p = (ys.splitOnP p).modifyHead (xs ++ ·) := by
  induction xs with
  | nil =>
    cases hys : ys.splitOnP p with
    | nil => exact absurd hys (List.splitOnP_ne_nil p ys)
    | cons piece pieces => rw [List.nil_append, hys]; rfl
  | cons x xs ih =>
    rw [List.cons_append, List.splitOnP_cons_eq_if_modifyHead, h x List.mem_cons_self,
      if_neg Bool.false_ne_true, ih fun y hy => h y (List.mem_cons_of_mem x hy),
      List.modifyHead_modifyHead]
    rfl

theorem splitOnP_fill (h : Avoids p f) (items : List (Item κ)) :
    (fill f items).splitOnP p = (items.splitOnP (Item.isAt p)).map (fill f) := by
  induction items with
  | nil => rfl
  | cons item items ih =>
    have hhead : ∀ pre : List (Item κ), ((items.splitOnP (Item.isAt p)).modifyHead (pre ++ ·)).map
        (fill f) = ((items.splitOnP (Item.isAt p)).map (fill f)).modifyHead (fill f pre ++ ·) := by
      intro pre
      cases items.splitOnP (Item.isAt p) with
      | nil => rfl
      | cons piece pieces => simp [fill_append]
    cases item with
    | char c =>
      rw [fill_char, List.splitOnP_cons_eq_if_modifyHead, List.splitOnP_cons_eq_if_modifyHead, ih]
      show (if p c then _ else _) = List.map (fill f) (if p c then _ else _)
      split_ifs
      · rfl
      · exact (hhead [.char c]).symm
    | hole key =>
      rw [fill_hole, splitOnP_append_of_neg (h key), ih, List.splitOnP_cons_eq_if_modifyHead]
      show _ = List.map (fill f) (if false = true then _ else _)
      rw [if_neg Bool.false_ne_true]
      have hkey := hhead [.hole key]
      rw [fill_hole] at hkey
      simpa [fill] using hkey.symm

end

/-! ## The end of a placeholder -/

theorem takeWhile_brace {inner : List Char} (h : '}' ∉ inner) (rest : List Char) :
    (inner ++ '}' :: rest).takeWhile (· ≠ '}') = inner := by
  rw [List.takeWhile_append_of_pos]
  · simp
  · intro c hc
    exact decide_eq_true fun heq => h (heq ▸ hc)

theorem brace_not_mem_takeWhile (cs : List Char) : '}' ∉ cs.takeWhile (· ≠ '}') := fun h => by
  simpa using List.mem_takeWhile_imp h

/-- A text that does not end before a `}`. -/
theorem exists_rest_of_length_lt {cs : List Char}
    (h : (cs.takeWhile (· ≠ '}')).length < cs.length) :
    ∃ rest, cs = cs.takeWhile (· ≠ '}') ++ '}' :: rest := by
  have hsplit := List.takeWhile_append_dropWhile (p := (· ≠ '}')) (l := cs)
  cases hdrop : cs.dropWhile (· ≠ '}') with
  | nil =>
    rw [hdrop, List.append_nil] at hsplit
    rw [hsplit] at h
    exact absurd h (lt_irrefl _)
  | cons c rest =>
    have hhead := List.head?_dropWhile_not (fun c => decide (c ≠ '}')) cs
    rw [hdrop] at hhead hsplit
    obtain rfl : c = '}' := by simpa using hhead
    exact ⟨rest, hsplit.symm⟩

end Template
