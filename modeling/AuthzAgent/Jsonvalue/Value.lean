/-
  AuthzAgent.Jsonvalue.Value

  JSON values as the document has them (value.go of jsonvalue): a number keeps
  its text and an object the order of its members.

  An `Object` of the source holds its keys in order and a map, and sets a key
  once.  Here an object is its members in order; `Value.WellFormed` says that
  each key stands once, at every depth, and that the text of a number is a Go
  string, whose length fits an `int`.  `Json` carries it.
-/

import AuthzAgent.Jsonvalue.Compare

namespace AuthzAgent.Jsonvalue

inductive Value where
  | null
  | bool (b : Bool)
  | number (text : String)
  | string (s : String)
  | list (items : List Value)
  | object (members : List (String × Value))
deriving Inhabited

namespace Value

/-- Induction over the values inside a value. -/
@[elab_as_elim]
theorem ind {P : Value → Prop} (null : P .null) (bool : ∀ b, P (.bool b))
    (number : ∀ text, P (.number text)) (string : ∀ s, P (.string s))
    (list : ∀ items, (∀ v ∈ items, P v) → P (.list items))
    (object : ∀ members, (∀ m ∈ members, P m.2) → P (.object members)) : ∀ v, P v
  | .null => null
  | .bool b => bool b
  | .number text => number text
  | .string s => string s
  | .list items => list items (indItems items)
  | .object members => object members (indMembers members)
where
  indItems : ∀ items : List Value, ∀ v ∈ items, P v
    | [] => fun _ hv => absurd hv List.not_mem_nil
    | w :: ws =>
      List.forall_mem_cons.mpr ⟨ind null bool number string list object w, indItems ws⟩
  indMembers : ∀ members : List (String × Value), ∀ m ∈ members, P m.2
    | [] => fun _ hm => absurd hm List.not_mem_nil
    | (_, w) :: ms =>
      List.forall_mem_cons.mpr ⟨ind null bool number string list object w, indMembers ms⟩

mutual

/-- Each key of an object stands once, and each text is a Go string. -/
def WellFormed : Value → Prop
  | .null => True
  | .bool _ => True
  | .number text => text.toList.length < 2 ^ 62
  | .string _ => True
  | .list items => WellFormedItems items
  | .object members => (members.map Prod.fst).Nodup ∧ WellFormedMembers members

def WellFormedItems : List Value → Prop
  | [] => True
  | v :: vs => WellFormed v ∧ WellFormedItems vs

def WellFormedMembers : List (String × Value) → Prop
  | [] => True
  | (_, v) :: ms => WellFormed v ∧ WellFormedMembers ms

end

theorem wellFormed_list {items : List Value} :
    WellFormed (.list items) ↔ ∀ v ∈ items, v.WellFormed := by
  rw [WellFormed]
  induction items with
  | nil => simp [WellFormedItems]
  | cons v vs ih => rw [WellFormedItems, ih, List.forall_mem_cons]

theorem wellFormed_object {members : List (String × Value)} :
    WellFormed (.object members) ↔
      (members.map Prod.fst).Nodup ∧ ∀ m ∈ members, m.2.WellFormed := by
  have hmembers : WellFormedMembers members ↔ ∀ m ∈ members, m.2.WellFormed := by
    induction members with
    | nil => simp [WellFormedMembers]
    | cons m ms ih =>
      obtain ⟨k, v⟩ := m
      rw [WellFormedMembers, ih, List.forall_mem_cons]
  rw [WellFormed, hmembers]

end Value

/-- A value that a document can hold. -/
structure Json where
  value : Value
  wellFormed : value.WellFormed

end AuthzAgent.Jsonvalue
