/-
  AuthzAgent.Jsonpath.Select

  Selection by a compiled path (jsonpath.go of jsonpath): the steps, the deep
  walk, and the functions that may end a path.

  The steps are written over any way of charging for work (Lib.Metered).  `select`
  runs them against the budget of the source, where a refused charge ends the
  selection with `tooLarge`.  A filter is its predicate with the keys it reads.
  The operations on float64 values are parameters.
-/

import AuthzAgent.Jsonpath.Budget
import AuthzAgent.Jsonvalue.DecimalText
import AuthzAgent.Lib.Metered

namespace AuthzAgent.Jsonpath

open Jsonvalue Metered

/-! ## Paths and results -/

/-- The functions that a last step names. -/
inductive Function where
  | length | min | max | avg | sum | first | last | keys
deriving DecidableEq

inductive Step where
  | key (key : String)
  | deep (key : String)
  | star
  | filter (test : Value → Bool) (reads : List String)
  | index (index : Int)
  | indexList (list : List Int)
  | slice (lo hi : Option Int)
  | rootBracket
  | function (name : Function)

structure Path where
  steps : List Step

inductive Result where
  | one (v : Value)
  | many (vs : List Value)
  | missing
  | nullParent
  | indexOutOfBounds
  | bracket
  | tooLarge

/-- The float64 values and `DoubleText`. -/
structure Floats where
  Float : Type
  zero : Float
  ofNat : Nat → Float
  /-- The value of `strconv.ParseFloat(s, 64)`, also where it returns an error. -/
  parseFloat : String → Float
  add : Float → Float → Float
  div : Float → Float → Float
  less : Float → Float → Bool
  doubleText : Float → String

/-! ## Functions -/

/-- How a function over one value ends. -/
inductive Outcome where
  | computed (v : Value)
  | empty
  | thrown

/-- `strconv.Itoa` of a length. -/
def itoa (n : Nat) : String := String.ofList (formatInt n)

def numbersOf (F : Floats) : List Value → List F.Float
  | [] => []
  | .number n :: vs => F.add (F.parseFloat n) F.zero :: numbersOf F vs
  | _ :: vs => numbersOf F vs

/-- The index that a function reads: the last one or the first one, and none of an
    empty slice. -/
def endIndex (name : Function) (n : Nat) : Option Nat :=
  if n = 0 then none else some (if name = .last then n - 1 else 0)

/-- What `min`, `max`, `sum` and `avg` compute over numbers, from the first one. -/
def accumulateFloats (F : Floats) (name : Function) (acc : F.Float) (nums : List F.Float) :
    F.Float :=
  match name with
  | .sum => nums.foldl F.add F.zero
  | .avg => F.div (nums.foldl F.add F.zero) (F.ofNat nums.length)
  | .max => (nums.drop 1).foldl (fun acc f => if F.less acc f then f else acc) acc
  | _ => (nums.drop 1).foldl (fun acc f => if F.less f acc then f else acc) acc

/-- The functions over the numbers of a list. -/
def applyNumbers (F : Floats) (name : Function) : Value → Outcome
  | .list items =>
    let nums := numbersOf F items
    match endIndex name nums.length with
    | none => .thrown
    | some i =>
      .computed (.number (F.doubleText (accumulateFloats F name (nums[i]?.getD F.zero) nums)))
  | _ => .thrown

/-- `first` and `last`. -/
def applyEnd (name : Function) : Value → Outcome
  | .list items =>
    match endIndex name items.length with
    | none => .empty
    | some i => .computed (items[i]?.getD .null)
  | _ => .thrown

def apply (F : Floats) : Function → Value → Outcome
  | .length, .list items => .computed (.number (itoa items.length))
  | .length, .object members => .computed (.number (itoa members.length))
  | .length, _ => .computed .null
  | .keys, .object members =>
    .computed (.string ("[" ++ String.intercalate ", " (members.map Prod.fst) ++ "]"))
  | .keys, _ => .computed .null
  | .first, v => applyEnd .first v
  | .last, v => applyEnd .last v
  | name, v => applyNumbers F name v

/-- The loop of `function` over several values, `none` where one of them throws. -/
def applyAll (F : Floats) (name : Function) : List Value → Option (List Value)
  | [] => some []
  | v :: vs =>
    match apply F name v with
    | .computed w => (applyAll F name vs).map (w :: ·)
    | .empty => applyAll F name vs
    | .thrown => none

def function (F : Floats) (name : Function) (cur : List Value) (many : Bool) : Result :=
  if many then
    match applyAll F name cur with
    | some out => .many out
    | none => .missing
  else
    -- One value is current where no step selected several.
    match apply F name (cur.head?.getD .null) with
    | .computed v => .one v
    | _ => .missing

def functionInput : Value → Nat
  | .list items => items.foldl (fun n e =>
    match e with
    | .number text => n + 1 + text.utf8ByteSize
    | _ => n + 1) 1
  | .object members => members.foldl (fun n m => n + (1 + m.1.utf8ByteSize)) 1
  | _ => 1

/-! ## Steps without charges -/

/-- `Get` of an object, nothing for another value. -/
def getMember (key : String) : Value → Option Value
  | .object members => members.lookup key
  | _ => none

/-- `member`: the element itself for an empty key. -/
def member (e : Value) (key : String) : Option Value :=
  if key = "" then some e else getMember key e

/-- What a key that is not there gives, before any step that selects several. -/
def missingKey (pos : Nat) : Value → Result
  | .null => if pos = 0 then .missing else .nullParent
  | .object [] => if pos = 0 then .missing else .nullParent
  | _ => .missing

/-- The loop of a key step. -/
def selectKey (key : String) (pos : Nat) (many : Bool) : List Value → Except Result (List Value)
  | [] => .ok []
  | v :: vs =>
    match getMember key v with
    | some m => (selectKey key pos many vs).map (m :: ·)
    | none => if many then selectKey key pos many vs else .error (missingKey pos v)

/-- The index that an index step reads of a list of some length, where a negative
    one counts from the end. -/
def elementIndex (n : Nat) (i : Int) : Option Int :=
  if i ≥ -n ∧ i < n then some ((i + n) % n) else none

def elementAt (list : List Value) (i : Int) : Option Value :=
  (elementIndex list.length i).bind fun p => list[p.toNat]?

/-- The loop of an index step. -/
def selectIndex (index : Int) (many : Bool) : List Value → Except Result (List Value)
  | [] => .ok []
  | .list items :: vs =>
    match elementAt items index with
    | some e => (selectIndex index many vs).map (e :: ·)
    | none => if many then selectIndex index many vs else .error .indexOutOfBounds
  | _ :: vs => if many then selectIndex index many vs else .error .missing

/-- The bound of a slice inside a list. -/
def clamp (n : Int) (bound : Option Int) (dflt : Int) : Int :=
  match bound with
  | none => dflt
  | some i => max 0 (min n (if i < 0 then i + n else i))

/-- The bounds of a slice that is not empty. -/
def sliceBounds (n : Nat) (lo hi : Option Int) : Option (Int × Int) :=
  let a := clamp n lo 0
  let b := clamp n hi n
  if a ≥ b then none else some (a, b)

def slice (list : List Value) (lo hi : Option Int) : List Value :=
  match sliceBounds list.length lo hi with
  | none => []
  | some (a, b) => (list.drop a.toNat).take (b - a).toNat

/-! ## Steps with charges -/

section Steps

variable {m : Type → Type} [Charging Charge m]

/-- `if !b.charge(n) { return tooLarge }` -/
def charge (n : Nat) : m Unit := Charging.charge (.units n)

/-- `if !b.chargeWeight(v) { return tooLarge }` -/
def chargeWeight (v : Value) : m Unit := Charging.charge (.value v)

mutual

def walk (key : String) (out : List Value) : Value → m (List Value)
  | .object members => do
    charge 1
    walkMembers key (out ++ (members.lookup key).toList) members
  | .list items => do
    charge 1
    walkItems key out items
  | .null => do charge 1; pure out
  | .bool _ => do charge 1; pure out
  | .number _ => do charge 1; pure out
  | .string _ => do charge 1; pure out

def walkItems (key : String) (out : List Value) : List Value → m (List Value)
  | [] => pure out
  | v :: vs => do
    let out ← walk key out v
    walkItems key out vs

def walkMembers (key : String) (out : List Value) : List (String × Value) → m (List Value)
  | [] => pure out
  | (_, v) :: ms => do
    let out ← walk key out v
    walkMembers key out ms

end

/-- A value of a star step: every element or member. -/
def selectStar (next : List Value) : Value → m (List Value)
  | .list items => do
    charge items.length
    pure (next ++ items)
  | .object members => do
    charge members.length
    pure (next ++ members.map Prod.snd)
  | _ => pure next

def testElement (test : Value → Bool) (reads : List String) (next : List Value) (e : Value) :
    m (List Value) := do
  -- A member that is not there weighs as null does.
  forM reads fun key => chargeWeight ((member e key).getD .null)
  pure (if test e then next ++ [e] else next)

def tested : Value → Option (List Value)
  | .list items => some items
  | .object members => some [.object members]
  | _ => none

/-- The loop of a filter step. -/
def selectFilter (test : Value → Bool) (reads : List String) (many : Bool) (next : List Value) :
    List Value → m (Except Result (List Value))
  | [] => pure (.ok next)
  | v :: vs =>
    match tested v with
    | none =>
      if many then selectFilter test reads many next vs else pure (.error .missing)
    | some elements => do
      let next ← elements.foldlM (testElement test reads) next
      selectFilter test reads many next vs

def selectIndexList (list : List Int) (next : List Value) : Value → m (List Value)
  | .list items => do
    charge list.length
    pure (next ++ list.filterMap (elementAt items))
  | _ => pure next

def selectSlice (lo hi : Option Int) (next : List Value) : Value → m (List Value)
  | .list items => do
    charge items.length
    pure (next ++ slice items lo hi)
  | _ => pure next

def firstIsList (cur : List Value) : Bool :=
  match cur.head? with
  | some (.list _) => true
  | _ => false

/-- A list step: over one value that is no list it selects nothing. -/
def selectLists (select : List Value → Value → m (List Value)) (many : Bool) (cur : List Value) :
    m (Except Result (Bool × List Value)) :=
  if !many && !firstIsList cur then pure (.error .missing)
  else do
    let next ← cur.foldlM select []
    pure (.ok (true, next))

/-- A step of `Select`: the result where it returns, else whether the path can
    have selected several values, and the current values. -/
def advance (F : Floats) (pos : Nat) (many : Bool) (cur : List Value) :
    Step → m (Except Result (Bool × List Value))
  | .function name => do
    forM cur fun v => charge (functionInput v)
    pure (.error (function F name cur many))
  | .rootBracket => pure (.error .bracket)
  | .deep key => do
    let next ← cur.foldlM (walk key) []
    pure (.ok (true, next))
  | .key key => pure ((selectKey key pos many cur).map fun next => (many, next))
  | .star => do
    let next ← cur.foldlM selectStar []
    pure (.ok (true, next))
  | .filter test reads => do
    let next ← selectFilter test reads many [] cur
    pure (next.map fun next => (true, next))
  | .indexList list => selectLists (selectIndexList list) many cur
  | .slice lo hi => selectLists (selectSlice lo hi) many cur
  | .index index => pure ((selectIndex index many cur).map fun next => (many, next))

/-- The loop of `Select` over steps. -/
def advanceAll (F : Floats) (pos : Nat) (many : Bool) (cur : List Value) :
    List Step → m (Except Result (Bool × List Value))
  | [] => pure (.ok (many, cur))
  | s :: steps => do
    match ← advance F pos many cur s with
    | .error r => pure (.error r)
    | .ok (many, cur) => advanceAll F (pos + 1) many cur steps

/-- The end of `Select`: a selection of several values is weighed. -/
def finish (many : Bool) (cur : List Value) : m Result :=
  if many then do
    forM cur chargeWeight
    pure (.many cur)
  else pure (.one (cur.head?.getD .null))

/-- What `Select` returns after the loop, unless a step returned. -/
def conclude : Except Result (Bool × List Value) → m Result
  | .error r => pure r
  | .ok (many, cur) => finish many cur

/-- `Select` over a document that is not refused. -/
def selectSteps (F : Floats) (p : Path) (doc : Value) : m Result := do
  let r ← advanceAll F 0 false [doc] p.steps
  conclude r

end Steps

/-- Whether a path starts with `['key']`. -/
def Path.startsWithBracket (p : Path) : Bool :=
  match p.steps with
  | .rootBracket :: _ => true
  | _ => false

/-- A null document, which only a path that starts with `['key']` reads. -/
def refusesDocument (p : Path) (doc : Value) : Bool :=
  match doc with
  | .null => !p.startsWithBracket
  | _ => false

def select (F : Floats) (p : Path) (doc : Value) : Result :=
  if refusesDocument p doc then .missing
  else
    match (selectSteps F p doc : Work Budget.call Result) (.fresh doc) with
    | some (r, _) => r
    | none => .tooLarge

/-! ## Selection as a trace -/

section Interp

abbrev replay {α : Type} (t : Trace Charge α) : Work Budget.call α := t.interp Budget.call

/-- The constructs of a program commute with the replay of its trace. -/
theorem replay_bind {α γ : Type} (x : Trace Charge α) (f : α → Trace Charge γ) :
    replay (x >>= f) = replay x >>= fun a => replay (f a) := interp_bind _ x f

theorem replay_charge (n : Nat) : replay (charge n) = charge n := interp_charge _ _

theorem replay_chargeWeight (v : Value) : replay (chargeWeight v) = chargeWeight v :=
  interp_charge _ _

theorem replay_foldlM {α γ : Type} {f : γ → α → Trace Charge γ} {f' : γ → α → Work Budget.call γ}
    (h : ∀ g a, replay (f g a) = f' g a) (as : List α) (g : γ) :
    replay (as.foldlM f g) = as.foldlM f' g := by
  have hf : (fun g a => replay (f g a)) = f' := funext fun g => funext fun a => h g a
  rw [← hf]
  exact interp_foldlM _ f as g

theorem replay_forM {α : Type} {f : α → Trace Charge PUnit} {f' : α → Work Budget.call PUnit}
    (h : ∀ a, replay (f a) = f' a) (as : List α) : replay (forM as f) = forM as f' := by
  have hf : (fun a => replay (f a)) = f' := funext h
  rw [← hf]
  exact interp_forM _ f as

theorem replay_walk (key : String) (v : Value) (out : List Value) :
    replay (walk key out v) = walk key out v := by
  induction v using Value.ind generalizing out with
  | null | bool | number | string =>
    rw [walk, walk, replay_bind, replay_charge]
    rfl
  | list items ih =>
    rw [walk, walk, replay_bind, replay_charge]
    congr 1
    funext _
    induction items generalizing out with
    | nil => rfl
    | cons v vs ihs =>
      rw [walkItems, walkItems, replay_bind, ih v List.mem_cons_self]
      congr 1
      funext out
      exact ihs (fun u hu => ih u (List.mem_cons_of_mem v hu)) out
  | object members ih =>
    rw [walk, walk, replay_bind, replay_charge]
    congr 1
    funext _
    generalize out ++ (members.lookup key).toList = out
    induction members generalizing out with
    | nil => rfl
    | cons n ns ihs =>
      obtain ⟨k, v⟩ := n
      rw [walkMembers, walkMembers, replay_bind, ih (k, v) List.mem_cons_self]
      congr 1
      funext out
      exact ihs (fun u hu => ih u (List.mem_cons_of_mem (k, v) hu)) out

theorem replay_selectFilter (test : Value → Bool) (reads : List String) (many : Bool)
    (cur next : List Value) :
    replay (selectFilter test reads many next cur) = selectFilter test reads many next cur := by
  have htest : ∀ next e, replay (testElement test reads next e) = testElement test reads next e := by
    intro next e
    rw [testElement, testElement, replay_bind, replay_forM fun key => replay_chargeWeight _]
    rfl
  induction cur generalizing next with
  | nil => rfl
  | cons v vs ih =>
    rw [selectFilter, selectFilter]
    cases tested v with
    | none =>
      dsimp only
      split_ifs
      · exact ih next
      · rfl
    | some elements =>
      dsimp only
      rw [replay_bind, replay_foldlM htest]
      congr 1
      funext next
      exact ih next

theorem replay_selectLists {select : List Value → Value → Trace Charge (List Value)}
    {select' : List Value → Value → Work Budget.call (List Value)}
    (h : ∀ next v, replay (select next v) = select' next v) (many : Bool) (cur : List Value) :
    replay (selectLists select many cur) = selectLists select' many cur := by
  rw [selectLists, selectLists]
  split_ifs
  · rfl
  · rw [replay_bind, replay_foldlM h]
    rfl

theorem replay_advance (F : Floats) (pos : Nat) (many : Bool) (cur : List Value) (s : Step) :
    replay (advance F pos many cur s) = advance F pos many cur s := by
  cases s with
  | function name =>
    rw [advance, advance, replay_bind, replay_forM fun v => replay_charge _]
    rfl
  | rootBracket => rfl
  | deep key =>
    rw [advance, advance, replay_bind, replay_foldlM fun out v => replay_walk key v out]
    rfl
  | key key => rfl
  | star =>
    have hstar : ∀ next v, replay (selectStar next v) = selectStar next v := by
      intro next v
      cases v with
      | list items | object members =>
        rw [selectStar, selectStar, replay_bind, replay_charge]
        rfl
      | _ => rfl
    rw [advance, advance, replay_bind, replay_foldlM hstar]
    rfl
  | filter test reads =>
    rw [advance, advance, replay_bind, replay_selectFilter]
    rfl
  | indexList list =>
    refine replay_selectLists (fun next v => ?_) many cur
    cases v with
    | list items =>
      rw [selectIndexList, selectIndexList, replay_bind, replay_charge]
      rfl
    | _ => rfl
  | slice lo hi =>
    refine replay_selectLists (fun next v => ?_) many cur
    cases v with
    | list items =>
      rw [selectSlice, selectSlice, replay_bind, replay_charge]
      rfl
    | _ => rfl
  | index index => rfl

theorem replay_advanceAll (F : Floats) (steps : List Step) (pos : Nat) (many : Bool)
    (cur : List Value) : replay (advanceAll F pos many cur steps) = advanceAll F pos many cur steps := by
  induction steps generalizing pos many cur with
  | nil => rfl
  | cons s steps ih =>
    rw [advanceAll, advanceAll, replay_bind, replay_advance]
    congr 1
    funext r
    cases r with
    | error r => rfl
    | ok state => exact ih (pos + 1) state.1 state.2

theorem replay_finish (many : Bool) (cur : List Value) :
    replay (finish many cur) = finish many cur := by
  rw [finish, finish]
  split_ifs
  · rw [replay_bind, replay_forM replay_chargeWeight]
    rfl
  · rfl

/-- A selection against the budget is its trace replayed. -/
theorem replay_selectSteps (F : Floats) (p : Path) (doc : Value) :
    replay (selectSteps F p doc) = selectSteps F p doc := by
  rw [selectSteps, selectSteps, replay_bind, replay_advanceAll]
  congr 1
  funext r
  cases r with
  | error r => rfl
  | ok state => exact replay_finish state.1 state.2

def totalWork (cs : List Charge) : Nat := (cs.map Charge.work).sum

/-- The budget allows charges exactly when their work fits the document. -/
theorem isSome_perform (cs : List Charge) {b : Budget} (hb : b.Knows) {total : Nat}
    (ht : b.Tracks total) (hle : (total : Int) ≤ limitOf b.doc) :
    (perform Budget.call cs b).isSome = true ↔ (total + totalWork cs : Nat) ≤ limitOf b.doc := by
  induction cs generalizing b total with
  | nil => exact iff_of_true rfl hle
  | cons c cs ih =>
    obtain ⟨hok, htracks⟩ := Budget.call_spec hb ht c
    obtain ⟨hdoc, hknows⟩ := Budget.call_keeps hb c
    have hwork : total + totalWork (c :: cs) = total + c.work + totalWork cs := by
      rw [totalWork, List.map_cons, List.sum_cons, ← Nat.add_assoc]
      rfl
    rw [perform, hwork]
    split_ifs with hcall
    · rw [← hdoc]
      exact ih hknows htracks (by rw [hdoc]; exact hok.mp hcall)
    · refine iff_of_false Bool.false_ne_true fun hfits => hcall (hok.mpr ?_)
      push_cast at hfits ⊢
      omega

/-- What a path selects of a document, and the work of it, without a budget. -/
def trace (F : Floats) (p : Path) (doc : Value) : Trace Charge Result := selectSteps F p doc

/-- `Select` gives what the path selects where its work fits the document, and
    refuses otherwise. -/
theorem select_eq {F : Floats} {p : Path} {doc : Value} (h : refusesDocument p doc = false) :
    select F p doc =
      if (totalWork (trace F p doc).charges : Int) ≤ limitOf doc then (trace F p doc).value
      else .tooLarge := by
  have hperform : (perform Budget.call (trace F p doc).charges (.fresh doc)).isSome = true ↔
      (totalWork (trace F p doc).charges : Int) ≤ limitOf doc := by
    have hspec := isSome_perform (trace F p doc).charges (Budget.knows_fresh doc)
      (Or.inl rfl : (Budget.fresh doc).Tracks 0)
      (by simp only [limitOf, allowed, budgetFactor, budgetFloor]; omega)
    rwa [Nat.zero_add] at hspec
  rw [select, h, if_neg Bool.false_ne_true, ← replay_selectSteps]
  show (match (perform Budget.call (trace F p doc).charges (.fresh doc)).map
    (fun b => ((trace F p doc).value, b)) with
    | some (r, _) => r
    | none => .tooLarge) = _
  cases hrun : perform Budget.call (trace F p doc).charges (.fresh doc) with
  | some b =>
    rw [hrun] at hperform
    rw [if_pos (hperform.mp rfl)]
    rfl
  | none =>
    rw [hrun] at hperform
    rw [if_neg fun hfits => Bool.false_ne_true (hperform.mpr hfits)]
    rfl

end Interp

end AuthzAgent.Jsonpath
