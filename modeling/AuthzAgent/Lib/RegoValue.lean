/-
  AuthzAgent.Lib.RegoValue

  The values of the Rego language that a JSON document can hold, with the
  builtins of OPA that read them.  A builtin that OPA leaves undefined on an
  operand of the wrong type returns `none` here, so that an expression that
  uses it is undefined as well.

  The members of an object stand in key order, each key once.  Equality of
  values is then structural, as OPA compares objects by their sorted keys.
  `setField` and `unionFields` keep that order.
-/

import Mathlib

namespace Rego

/-- A JSON value as Rego sees it.  A number is its exact value. -/
inductive Value where
  | null
  | bool (b : Bool)
  | number (q : Rat)
  | string (s : String)
  | array (items : List Value)
  | object (fields : List (String × Value))
deriving Inhabited

namespace Value

/-! ## Equality -/

mutual

/-- Rego's `==`. -/
def beq : Value → Value → Bool
  | .null, .null => true
  | .bool a, .bool b => a == b
  | .number a, .number b => decide (a = b)
  | .string a, .string b => a == b
  | .array a, .array b => beqItems a b
  | .object a, .object b => beqFields a b
  | _, _ => false

def beqItems : List Value → List Value → Bool
  | [], [] => true
  | a :: as, b :: bs => beq a b && beqItems as bs
  | _, _ => false

def beqFields : List (String × Value) → List (String × Value) → Bool
  | [], [] => true
  | (k, a) :: as, (l, b) :: bs => (k == l) && (beq a b && beqFields as bs)
  | _, _ => false

end

mutual

theorem beq_iff_eq : ∀ a b : Value, beq a b = true ↔ a = b
  | .null, b => by cases b <;> simp [beq]
  | .bool a, b => by cases b <;> simp [beq]
  | .number a, b => by cases b <;> simp [beq]
  | .string a, b => by cases b <;> simp [beq]
  | .array a, b => by
    cases b with
    | array b => simp [beq, beqItems_iff_eq a b]
    | _ => simp [beq]
  | .object a, b => by
    cases b with
    | object b => simp [beq, beqFields_iff_eq a b]
    | _ => simp [beq]

theorem beqItems_iff_eq : ∀ as bs : List Value, beqItems as bs = true ↔ as = bs
  | [], bs => by cases bs <;> simp [beqItems]
  | a :: as, bs => by
    cases bs with
    | nil => simp [beqItems]
    | cons b bs => simp [beqItems, beq_iff_eq a b, beqItems_iff_eq as bs]

theorem beqFields_iff_eq : ∀ as bs : List (String × Value), beqFields as bs = true ↔ as = bs
  | [], bs => by cases bs <;> simp [beqFields]
  | (k, a) :: as, bs => by
    cases bs with
    | nil => simp [beqFields]
    | cons b bs =>
      obtain ⟨l, b⟩ := b
      simp [beqFields, beq_iff_eq a b, beqFields_iff_eq as bs, and_assoc]

end

instance : DecidableEq Value := fun a b => decidable_of_iff _ (beq_iff_eq a b)

/-! ## Order -/

/-- The place of a value's type in Rego's order of types. -/
def rank : Value → Nat
  | .null => 0
  | .bool _ => 1
  | .number _ => 2
  | .string _ => 3
  | .array _ => 4
  | .object _ => 5

mutual

/-- Rego's order of values: by type, then by content; arrays and objects
    compare element by element, and the shorter one comes first. -/
def cmp : Value → Value → Ordering
  | .bool a, .bool b => compare a b
  | .number a, .number b => compareOfLessAndEq a b
  | .string a, .string b => compareOfLessAndEq a b
  | .array a, .array b => cmpItems a b
  | .object a, .object b => cmpFields a b
  | a, b => compare a.rank b.rank

def cmpItems : List Value → List Value → Ordering
  | [], [] => .eq
  | [], _ :: _ => .lt
  | _ :: _, [] => .gt
  | a :: as, b :: bs => (cmp a b).then (cmpItems as bs)

def cmpFields : List (String × Value) → List (String × Value) → Ordering
  | [], [] => .eq
  | [], _ :: _ => .lt
  | _ :: _, [] => .gt
  | (k, a) :: as, (l, b) :: bs =>
    (compareOfLessAndEq k l).then ((cmp a b).then (cmpFields as bs))

end

/-- `sort` of a set of values: each value once, in Rego's order. -/
def sortSet (vs : List Value) : List Value :=
  vs.dedup.insertionSort fun a b => cmp a b ≠ .gt

/-! ## Objects -/

/-- Bind `k` to `v`, in key order. -/
def setField (k : String) (v : Value) : List (String × Value) → List (String × Value)
  | [] => [(k, v)]
  | (l, w) :: rest =>
    if k = l then (k, v) :: rest
    else if k < l then (k, v) :: (l, w) :: rest
    else (l, w) :: setField k v rest

theorem lookup_setField_self (k : String) (v : Value) (fs : List (String × Value)) :
    (setField k v fs).lookup k = some v := by
  induction fs with
  | nil => simp [setField]
  | cons f rest ih =>
    obtain ⟨l, w⟩ := f
    by_cases hkl : k = l
    · simp [setField, hkl]
    · by_cases hlt : k < l
      · simp [setField, hkl, hlt]
      · have hb : (k == l) = false := beq_eq_false_iff_ne.mpr hkl
        simp [setField, hkl, hlt, List.lookup_cons, hb, ih]

theorem lookup_setField_ne {k l : String} (h : l ≠ k) (v : Value)
    (fs : List (String × Value)) :
    (setField k v fs).lookup l = fs.lookup l := by
  have hb : (l == k) = false := beq_eq_false_iff_ne.mpr h
  induction fs with
  | nil => simp [setField, h]
  | cons f rest ih =>
    obtain ⟨m, w⟩ := f
    by_cases hkm : k = m
    · subst hkm
      simp [setField, List.lookup_cons, hb]
    · by_cases hlt : k < m
      · simp [setField, hkm, hlt, List.lookup_cons, hb]
      · simp only [setField, hkm, hlt, if_false, List.lookup_cons, ih]

/-- The member `k` of an object; undefined on any other value. -/
def field (v : Value) (k : String) : Option Value :=
  match v with
  | .object fs => fs.lookup k
  | _ => none

def objectGet (v : Value) (k : String) (dflt : Value) : Option Value :=
  match v with
  | .object fs => some ((fs.lookup k).getD dflt)
  | _ => none

mutual

/-- The value `object.union` gives a key that both objects bind. -/
def unionValue : Value → Value → Value
  | .object a, .object b => .object (unionFields a b)
  | _, w => w

/-- `object.union`: the members of both objects; objects under one key are
    united in turn, and otherwise the second object wins. -/
def unionFields (a : List (String × Value)) : List (String × Value) → List (String × Value)
  | [] => a
  | (k, w) :: rest =>
    setField k (match a.lookup k with
      | some v => unionValue v w
      | none => w) (unionFields a rest)

end

/-- The members of a collection, as `v[_]` enumerates them. -/
def elements : Value → List Value
  | .array items => items
  | .object fs => fs.map Prod.snd
  | _ => []

mutual

def mapNumbers (f : Rat → Rat) : Value → Value
  | .number q => .number (f q)
  | .array items => .array (mapNumbersItems f items)
  | .object fields => .object (mapNumbersFields f fields)
  | v => v

def mapNumbersItems (f : Rat → Rat) : List Value → List Value
  | [] => []
  | v :: vs => mapNumbers f v :: mapNumbersItems f vs

def mapNumbersFields (f : Rat → Rat) : List (String × Value) → List (String × Value)
  | [] => []
  | (k, v) :: vs => (k, mapNumbers f v) :: mapNumbersFields f vs

end

mutual

theorem mapNumbers_idem {f : Rat → Rat} (hf : ∀ q, f (f q) = f q) :
    ∀ v : Value, mapNumbers f (mapNumbers f v) = mapNumbers f v
  | .null | .bool _ | .string _ => by simp [mapNumbers]
  | .number q => by simp [mapNumbers, hf]
  | .array items => by simp [mapNumbers, mapNumbersItems_idem hf items]
  | .object fields => by simp [mapNumbers, mapNumbersFields_idem hf fields]

theorem mapNumbersItems_idem {f : Rat → Rat} (hf : ∀ q, f (f q) = f q) :
    ∀ vs : List Value, mapNumbersItems f (mapNumbersItems f vs) = mapNumbersItems f vs
  | [] => rfl
  | v :: vs => by simp [mapNumbersItems, mapNumbers_idem hf v, mapNumbersItems_idem hf vs]

theorem mapNumbersFields_idem {f : Rat → Rat} (hf : ∀ q, f (f q) = f q) :
    ∀ vs : List (String × Value),
      mapNumbersFields f (mapNumbersFields f vs) = mapNumbersFields f vs
  | [] => rfl
  | (k, v) :: vs => by
    simp [mapNumbersFields, mapNumbers_idem hf v, mapNumbersFields_idem hf vs]

end

/-- The object with these members. -/
def ofMembers (members : List (String × Value)) : List (String × Value) :=
  members.foldr (fun m fields => setField m.1 m.2 fields) []

def text : Value → Option String
  | .string s => some s
  | _ => none

mutual

/-- `walk(v)`: every value inside a value, itself included, with the path of
    keys and indexes that leads to it. -/
def walk : Value → List (List Value × Value)
  | .array items => ([], .array items) :: walkItems 0 items
  | .object fields => ([], .object fields) :: walkFields fields
  | v => [([], v)]

def walkItems : Nat → List Value → List (List Value × Value)
  | _, [] => []
  | i, v :: vs => (walk v).map (fun node => (.number i :: node.1, node.2)) ++ walkItems (i + 1) vs

def walkFields : List (String × Value) → List (List Value × Value)
  | [] => []
  | (k, v) :: vs => (walk v).map (fun node => (.string k :: node.1, node.2)) ++ walkFields vs

end

/-- `count(v)`; undefined on a scalar that is not a string. -/
def count : Value → Option Nat
  | .array items => some items.length
  | .object fs => some fs.length
  | .string s => some s.length
  | _ => none

end Value

end Rego
