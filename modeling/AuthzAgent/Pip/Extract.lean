/-
  AuthzAgent.Pip.Extract

  `json_extract` against stepwise evaluation.  The policy enumerates every node
  of a document with its path, keeps the paths that match the segments and
  sorts them.  What is kept is, in the order of the walk, what following the
  segments one by one reaches (`map_snd_found`), and that order is the order of
  the sort (`pairwise_found`).

  A segment whose index `to_number` does not convert is left out of the parsed
  path.  `missed` builds, for a path with such an index, a document that shows
  the difference.
-/

import AuthzAgent.Pip.Template
import AuthzAgent.Pips.Path

namespace AuthzAgent

open Rego (Value)
open Pips (PathSeg segmentsText validatePath)

namespace Pip

/-! ## Stepwise evaluation -/

/-- The number that digits write. -/
def indexValue (digits : List Char) : Nat :=
  digits.foldl (fun n c => 10 * n + (c.toNat - '0'.toNat)) 0

/-- An element of an array. -/
def itemAt (n : Nat) : Value → Option Value
  | .array items => items[n]?
  | _ => none

/-- The elements of an array. -/
def elements : Value → List Value
  | .array items => items
  | _ => []

/-- The value that segments without a wildcard lead to. -/
def follow : List PathSeg → Value → Option Value
  | [], v => some v
  | .field name :: segs, v => (v.field (String.ofList name)).bind (follow segs)
  | .index digits :: segs, v => (itemAt (indexValue digits) v).bind (follow segs)
  | .wildcard :: _, _ => none

/-- The values that segments lead to, with every element of an array at a
    wildcard. -/
def collect : List PathSeg → Value → List Value
  | [], v => [v]
  | .field name :: segs, v => (v.field (String.ofList name)).toList.flatMap (collect segs)
  | .index digits :: segs, v => (itemAt (indexValue digits) v).toList.flatMap (collect segs)
  | .wildcard :: segs, v => (elements v).flatMap (collect segs)

/-- What a path selects of a document: a list with a wildcard, else a value. -/
def evaluate (segs : List PathSeg) (doc : Value) : Option Value :=
  if .wildcard ∈ segs then some (.array (collect segs doc)) else follow segs doc

/-- Without a wildcard there is at most one value. -/
theorem collect_eq_toList {segs : List PathSeg} (h : .wildcard ∉ segs) (v : Value) :
    collect segs v = (follow segs v).toList := by
  induction segs generalizing v with
  | nil => rfl
  | cons seg segs ih =>
    obtain ⟨hseg, hsegs⟩ := not_or.mp (fun hor => h (List.mem_cons.mpr hor))
    have hstep : ∀ o : Option Value,
        o.toList.flatMap (collect segs) = (o.bind (follow segs)).toList := by
      intro o
      cases o with
      | none => rfl
      | some w => rw [Option.toList_some, List.flatMap_singleton, ih hsegs, Option.bind_some]
    cases seg with
    | field name => exact hstep _
    | index digits => exact hstep _
    | wildcard => exact absurd rfl hseg

/-! ## The nodes of a walk -/

/-- The keys of every object differ. -/
inductive UniqueKeys : Value → Prop where
  | null : UniqueKeys .null
  | bool (b : Bool) : UniqueKeys (.bool b)
  | number (q : Rat) : UniqueKeys (.number q)
  | string (s : String) : UniqueKeys (.string s)
  | array {items : List Value} (h : ∀ v ∈ items, UniqueKeys v) : UniqueKeys (.array items)
  | object {fields : List (String × Value)} (hkeys : (fields.map Prod.fst).Nodup)
      (h : ∀ f ∈ fields, UniqueKeys f.2) : UniqueKeys (.object fields)

/-- The nodes that match, in the order of the walk. -/
def found (segs : List Seg) (doc : Value) : List (List Value × Value) :=
  doc.walk.filter fun node => jpPathMatches segs node.1

/-- A node one level down. -/
def under (key : Value) (node : List Value × Value) : List Value × Value := (key :: node.1, node.2)

/-- The nodes one level down that match. -/
theorem filter_under (segs : List Seg) (key v : Value) :
    (v.walk.map (under key)).filter (fun node => jpPathMatches segs node.1) =
      match segs with
      | [] => []
      | seg :: segs => if jpSegMatches seg key then (found segs v).map (under key) else [] := by
  rw [List.filter_map]
  cases segs with
  | nil =>
    have hnone : v.walk.filter ((fun node => jpPathMatches [] node.1) ∘ under key) = [] :=
      List.filter_eq_nil_iff.mpr fun _ _ => Bool.false_ne_true
    rw [hnone, List.map_nil]
  | cons seg segs =>
    have hpath : (fun node => jpPathMatches (seg :: segs) node.1) ∘ under key =
        fun node => jpSegMatches seg key && jpPathMatches segs node.1 := rfl
    rw [hpath]
    show _ = if jpSegMatches seg key then (found segs v).map (under key) else []
    cases jpSegMatches seg key with
    | false =>
      have hnone : v.walk.filter (fun node => false && jpPathMatches segs node.1) = [] :=
        List.filter_eq_nil_iff.mpr fun _ _ => Bool.false_ne_true
      rw [hnone, List.map_nil]
      rfl
    | true => rfl

theorem filter_walkItems (segs : List Seg) (items : List Value) (i : Nat) :
    (Value.walkItems i items).filter (fun node => jpPathMatches segs node.1) =
      (items.zipIdx i).flatMap fun e =>
        (e.1.walk.map (under (.number e.2))).filter fun node => jpPathMatches segs node.1 := by
  induction items generalizing i with
  | nil => rfl
  | cons v vs ih =>
    rw [Value.walkItems, List.filter_append, ih, List.zipIdx_cons, List.flatMap_cons]
    rfl

theorem filter_walkFields (segs : List Seg) (fields : List (String × Value)) :
    (Value.walkFields fields).filter (fun node => jpPathMatches segs node.1) =
      fields.flatMap fun f =>
        (f.2.walk.map (under (.string f.1))).filter fun node => jpPathMatches segs node.1 := by
  induction fields with
  | nil => rfl
  | cons f fs ih =>
    obtain ⟨k, v⟩ := f
    rw [Value.walkFields, List.filter_append, ih, List.flatMap_cons]
    rfl

theorem found_nil (doc : Value) : found [] doc = [([], doc)] := by
  rw [found]
  cases doc with
  | array items =>
    rw [Value.walk, List.filter_cons_of_pos rfl, filter_walkItems]
    simp only [filter_under]
    rw [List.flatMap_eq_nil_iff.mpr fun _ _ => rfl]
  | object fields =>
    rw [Value.walk, List.filter_cons_of_pos rfl, filter_walkFields]
    simp only [filter_under]
    rw [List.flatMap_eq_nil_iff.mpr fun _ _ => rfl]
  | _ => rfl

theorem found_array (seg : Seg) (segs : List Seg) (items : List Value) :
    found (seg :: segs) (.array items) =
      items.zipIdx.flatMap fun e =>
        if jpSegMatches seg (.number e.2) then (found segs e.1).map (under (.number e.2)) else [] := by
  rw [found, Value.walk, List.filter_cons_of_neg Bool.false_ne_true, filter_walkItems]
  simp only [filter_under]

theorem found_object (seg : Seg) (segs : List Seg) (fields : List (String × Value)) :
    found (seg :: segs) (.object fields) =
      fields.flatMap fun f =>
        if jpSegMatches seg (.string f.1) then (found segs f.2).map (under (.string f.1)) else [] := by
  rw [found, Value.walk, List.filter_cons_of_neg Bool.false_ne_true, filter_walkFields]
  simp only [filter_under]

/-- A scalar has nothing inside. -/
theorem found_scalar {seg : Seg} {segs : List Seg} {v : Value} (h : v.walk = [([], v)]) :
    found (seg :: segs) v = [] := by
  rw [found, h]
  rfl

/-! ## Steps -/

/-- One element of a list by its position. -/
theorem flatMap_zipIdx_eq {α γ : Type} (f : α → List γ) (items : List α) (n i : Nat) :
    ((items.zipIdx i).flatMap fun e => if e.2 = n then f e.1 else []) =
      if i ≤ n then (items[n - i]?).toList.flatMap f else [] := by
  induction items generalizing i with
  | nil => split_ifs <;> rfl
  | cons x xs ih =>
    rw [List.zipIdx_cons, List.flatMap_cons, ih]
    by_cases hi : i = n
    · subst hi
      simp
    · rw [if_neg hi, List.nil_append]
      by_cases hle : i ≤ n
      · rw [if_pos hle, if_pos (by omega), show n - i = (n - (i + 1)) + 1 by omega,
          List.getElem?_cons_succ]
      · rw [if_neg hle, if_neg (by omega)]

theorem flatMap_fst_zipIdx {α γ : Type} (f : α → List γ) (items : List α) (i : Nat) :
    ((items.zipIdx i).flatMap fun e => f e.1) = items.flatMap f := by
  induction items generalizing i with
  | nil => rfl
  | cons x xs ih => rw [List.zipIdx_cons, List.flatMap_cons, List.flatMap_cons, ih]

/-- One field of an object by its key. -/
theorem flatMap_fields_eq {γ : Type} (f : Value → List γ) {fields : List (String × Value)}
    (hkeys : (fields.map Prod.fst).Nodup) (name : String) :
    (fields.flatMap fun e => if e.1 = name then f e.2 else []) =
      (fields.lookup name).toList.flatMap f := by
  induction fields with
  | nil => rfl
  | cons e es ih =>
    obtain ⟨k, v⟩ := e
    obtain ⟨hk, hes⟩ := List.nodup_cons.mp hkeys
    replace hk : k ∉ es.map Prod.fst := hk
    rw [List.flatMap_cons, ih hes, List.lookup_cons]
    by_cases hname : k = name
    · subst hname
      have hnone : es.lookup k = none := by
        rw [List.lookup_eq_none_iff]
        intro p hp
        have hne : k ≠ p.1 := by
          intro heq
          apply hk
          rw [heq]
          exact List.mem_map_of_mem hp
        simpa using hne
      simp [hnone]
    · have hbeq : (name == k) = false := beq_eq_false_iff_ne.mpr (Ne.symm hname)
      rw [if_neg hname, hbeq]
      rfl

/-- The segment that the policy parses. -/
def parsed : PathSeg → Seg
  | .field name => .field (String.ofList name)
  | .index digits => .index (indexValue digits)
  | .wildcard => .wildcard

theorem UniqueKeys.of_field {v w : Value} {name : String} (h : UniqueKeys v)
    (hw : v.field name = some w) : UniqueKeys w := by
  cases h with
  | object hkeys h =>
    obtain ⟨l₁, l₂, rfl, -⟩ := List.lookup_eq_some_iff.mp hw
    exact h (name, w) (List.mem_append_right _ List.mem_cons_self)
  | _ => cases hw

theorem UniqueKeys.of_mem_items {v w : Value} (h : UniqueKeys v) (hw : w ∈ elements v) :
    UniqueKeys w := by
  cases h with
  | array h => exact h w hw
  | _ => cases hw

theorem mem_elements_of_itemAt {v w : Value} {n : Nat} (h : itemAt n v = some w) :
    w ∈ elements v := by
  cases v with
  | array items => exact List.mem_of_getElem? h
  | _ => cases h

/-- Where nothing matches, nothing is found. -/
theorem flatMap_if_false {α γ : Type} {p : α → Bool} {f : α → List γ} {l : List α}
    (h : ∀ a ∈ l, p a = false) : (l.flatMap fun a => if p a then f a else []) = [] :=
  List.flatMap_eq_nil_iff.mpr fun a ha => by rw [h a ha]; rfl

/-- The nodes found through a field. -/
theorem found_field {name : String} {segs : List Seg} {doc : Value} (hdoc : UniqueKeys doc) :
    found (.field name :: segs) doc =
      (doc.field name).toList.flatMap fun v => (found segs v).map (under (.string name)) := by
  cases hdoc with
  | @object fields hkeys h =>
    have hmatch : ∀ f : String × Value,
        (if jpSegMatches (.field name) (.string f.1) = true then
          (found segs f.2).map (under (.string f.1)) else []) =
        if f.1 = name then (found segs f.2).map (under (.string name)) else [] := by
      intro f
      by_cases hf : f.1 = name
      · simp [jpSegMatches, hf]
      · simp [jpSegMatches, hf]
    rw [found_object]
    simp only [hmatch]
    exact flatMap_fields_eq (fun v => (found segs v).map (under (.string name))) hkeys name
  | array h =>
    rw [found_array, flatMap_if_false fun _ _ => by simp [jpSegMatches]]
    rfl
  | _ => exact found_scalar rfl

/-- The nodes found through an index. -/
theorem found_index {n : Nat} {segs : List Seg} {doc : Value} :
    found (.index n :: segs) doc =
      (itemAt n doc).toList.flatMap fun v => (found segs v).map (under (.number n)) := by
  cases doc with
  | array items =>
    have hmatch : ∀ e : Value × Nat,
        (if jpSegMatches (.index n) (.number e.2) = true then
          (found segs e.1).map (under (.number e.2)) else []) =
        if e.2 = n then (found segs e.1).map (under (.number n)) else [] := by
      intro e
      by_cases he : e.2 = n
      · simp [jpSegMatches, he]
      · simp [jpSegMatches, he]
    rw [found_array]
    simp only [hmatch]
    have hone := flatMap_zipIdx_eq (fun v => (found segs v).map (under (.number n))) items n 0
    rw [if_pos (Nat.zero_le n), Nat.sub_zero] at hone
    exact hone
  | object fields =>
    rw [found_object, flatMap_if_false fun _ _ => by simp [jpSegMatches]]
    rfl
  | _ => exact found_scalar rfl

/-- The nodes found through a wildcard. -/
theorem found_wildcard {segs : List Seg} {doc : Value} :
    found (.wildcard :: segs) doc =
      (elements doc).zipIdx.flatMap fun e => (found segs e.1).map (under (.number e.2)) := by
  cases doc with
  | array items => exact found_array _ _ _
  | object fields =>
    rw [found_object]
    exact flatMap_if_false fun _ _ => rfl
  | _ => exact found_scalar rfl

theorem map_snd_under (key : Value) (nodes : List (List Value × Value)) :
    (nodes.map (under key)).map Prod.snd = nodes.map Prod.snd := by
  rw [List.map_map]
  rfl

/-- What is found is what following the segments reaches. -/
theorem map_snd_found (segs : List PathSeg) {doc : Value} (hdoc : UniqueKeys doc) :
    (found (segs.map parsed) doc).map Prod.snd = collect segs doc := by
  induction segs generalizing doc with
  | nil =>
    rw [List.map_nil, found_nil]
    rfl
  | cons seg segs ih =>
    rw [List.map_cons]
    cases seg with
    | field name =>
      rw [parsed, found_field hdoc, List.map_flatMap, collect]
      refine List.flatMap_congr fun v hv => ?_
      rw [map_snd_under, ih (hdoc.of_field (Option.mem_toList.mp hv))]
    | index digits =>
      rw [parsed, found_index, List.map_flatMap, collect]
      refine List.flatMap_congr fun v hv => ?_
      rw [map_snd_under, ih (hdoc.of_mem_items (mem_elements_of_itemAt (Option.mem_toList.mp hv)))]
    | wildcard =>
      have hitems : ∀ e ∈ (elements doc).zipIdx,
          ((found (segs.map parsed) e.1).map (under (.number e.2))).map Prod.snd =
            collect segs e.1 := by
        intro e he
        rw [map_snd_under, ih (hdoc.of_mem_items (List.fst_mem_of_mem_zipIdx he))]
      rw [parsed, found_wildcard, List.map_flatMap, List.flatMap_congr hitems, collect]
      exact flatMap_fst_zipIdx (collect segs) (elements doc) 0

/-! ## The order of the sort -/

/-- The order of the `[path, value]` pairs. -/
def nodeCmp (a b : List Value × Value) : Ordering :=
  Value.cmp (.array [.array a.1, a.2]) (.array [.array b.1, b.2])

theorem nodeCmp_under {key : Value} (hkey : Value.cmp key key = .eq) (a b : List Value × Value) :
    nodeCmp (under key a) (under key b) = nodeCmp a b := by
  simp only [nodeCmp, under, Value.cmp, Value.cmpItems, hkey, Ordering.eq_then]

theorem cmp_number (i j : Nat) : Value.cmp (.number i) (.number j) = compareOfLessAndEq i j := by
  rw [Value.cmp, compareOfLessAndEq, compareOfLessAndEq]
  simp only [Nat.cast_lt, Nat.cast_inj]

theorem cmp_string_self (s : String) : Value.cmp (.string s) (.string s) = .eq := by
  rw [Value.cmp, compareOfLessAndEq, if_neg (lt_irrefl s), if_pos rfl]

theorem nodeCmp_under_lt {i j : Nat} (h : i < j) (a b : List Value × Value) :
    nodeCmp (under (.number i) a) (under (.number j) b) = .lt := by
  have hcmp : Value.cmp (.number i) (.number j) = .lt := by
    rw [cmp_number, compareOfLessAndEq, if_pos h]
  simp only [nodeCmp, under, Value.cmp, Value.cmpItems]
  rw [Value.cmp] at hcmp
  simp [hcmp]

theorem pairwise_under {key : Value} (hkey : Value.cmp key key = .eq)
    {nodes : List (List Value × Value)} (h : nodes.Pairwise fun a b => nodeCmp a b ≠ .gt) :
    (nodes.map (under key)).Pairwise fun a b => nodeCmp a b ≠ .gt := by
  rw [List.pairwise_map]
  exact h.imp fun hab => by rwa [nodeCmp_under hkey]

/-- The walk finds the nodes in the order of their paths. -/
theorem pairwise_found (segs : List PathSeg) {doc : Value} (hdoc : UniqueKeys doc) :
    (found (segs.map parsed) doc).Pairwise fun a b => nodeCmp a b ≠ .gt := by
  induction segs generalizing doc with
  | nil =>
    rw [List.map_nil, found_nil]
    exact List.pairwise_singleton _ _
  | cons seg segs ih =>
    have hnumber : ∀ n : Nat, Value.cmp (.number n) (.number n) = .eq := by
      intro n
      rw [cmp_number, compareOfLessAndEq, if_neg (Nat.lt_irrefl n), if_pos rfl]
    rw [List.map_cons]
    cases seg with
    | field name =>
      rw [parsed, found_field hdoc]
      cases hv : doc.field (String.ofList name) with
      | none => exact .nil
      | some v =>
        rw [Option.toList_some, List.flatMap_singleton]
        exact pairwise_under (cmp_string_self _) (ih (hdoc.of_field hv))
    | index digits =>
      rw [parsed, found_index]
      cases hv : itemAt (indexValue digits) doc with
      | none => exact .nil
      | some v =>
        rw [Option.toList_some, List.flatMap_singleton]
        exact pairwise_under (hnumber _) (ih (hdoc.of_mem_items (mem_elements_of_itemAt hv)))
    | wildcard =>
      rw [parsed, found_wildcard, List.pairwise_flatMap]
      refine ⟨fun e he => ?_, ?_⟩
      · exact pairwise_under (hnumber _) (ih (hdoc.of_mem_items (List.fst_mem_of_mem_zipIdx he)))
      · -- an earlier element has the smaller index
        have hindexes : ((elements doc).zipIdx).Pairwise fun a b => a.2 < b.2 := by
          have hmap := List.pairwise_lt_range' (s := 0) (n := (elements doc).length)
          rw [← List.zipIdx_map_snd, List.pairwise_map] at hmap
          exact hmap
        refine hindexes.imp fun {a b} hlt x hx y hy => ?_
        obtain ⟨x', -, rfl⟩ := List.mem_map.mp hx
        obtain ⟨y', -, rfl⟩ := List.mem_map.mp hy
        rw [nodeCmp_under_lt hlt]
        nofun

/-- The sort keeps the order of the walk. -/
theorem sortNodes_found (segs : List PathSeg) {doc : Value} (hdoc : UniqueKeys doc) :
    sortNodes (found (segs.map parsed) doc) = found (segs.map parsed) doc := by
  have hpairwise := pairwise_found segs hdoc
  exact List.Pairwise.insertionSort_eq hpairwise

/-! ## Parsing -/

/-- The match of the segment pattern for a segment. -/
def segMatchOf : PathSeg → SegMatch
  | .field name => .field (String.ofList name)
  | .index digits => .index (String.ofList digits)
  | .wildcard => .wildcard

theorem segMatchAt_text {seg : PathSeg} (hseg : seg.Valid) (segs : List PathSeg) :
    segMatchAt (seg.text ++ segmentsText segs) = some (segMatchOf seg, seg.text.length) := by
  cases seg with
  | field name =>
    have htake : (name ++ segmentsText segs).takeWhile (fun c => c ≠ '.' ∧ c ≠ '[') = name := by
      refine Pips.takeWhile_run (fun c hc => ?_) fun c hc => ?_
      · have hend := (hseg.2 c hc).1
        simpa [Pips.endsField] using hend
      · have hend := Pips.head_segmentsText segs c hc
        simpa [Pips.endsField, or_iff_not_imp_left] using hend
    rw [PathSeg.text, List.cons_append, segMatchAt]
    simp only [htake]
    rw [if_neg hseg.1]
    rfl
  | index digits =>
    have htake : (digits ++ ']' :: segmentsText segs).takeWhile
        (fun c => '0' ≤ c ∧ c ≤ '9') = digits := by
      refine Pips.takeWhile_run (fun c hc => ?_) fun c hc => ?_
      · have hdigit := hseg.2 c hc
        simpa [Pips.isDigit] using hdigit
      · obtain rfl : ']' = c := Option.some.inj hc
        decide
    rw [PathSeg.text, List.cons_append, List.append_assoc, List.singleton_append, segMatchAt]
    simp only [htake]
    rw [if_pos ⟨hseg.1, by rw [List.drop_left]; rfl⟩]
    simp [segMatchOf]
  | wildcard => rfl

theorem segMatches_append (xs rest : List Char) :
    segMatches xs.length (xs ++ rest) = segMatches 0 rest := by
  induction xs with
  | nil => rfl
  | cons x xs ih => exact ih

/-- The pattern finds the segments of a path. -/
theorem segMatches_text {segs : List PathSeg} (hsegs : ∀ seg ∈ segs, seg.Valid) :
    segMatches 0 (segmentsText segs) = segs.map segMatchOf := by
  induction segs with
  | nil => rfl
  | cons seg segs ih =>
    have hmatch := segMatchAt_text (hsegs seg List.mem_cons_self) segs
    have htail := ih fun s hs => hsegs s (List.mem_cons_of_mem seg hs)
    obtain ⟨c, cs, hcs⟩ : ∃ c cs, seg.text = c :: cs := by
      cases seg <;> exact ⟨_, _, rfl⟩
    show segMatches 0 (seg.text ++ segmentsText segs) = _
    rw [hcs, List.cons_append] at hmatch ⊢
    rw [segMatches, hmatch, List.map_cons, ← htail]
    exact congrArg _ (segMatches_append cs (segmentsText segs))

section

variable (B : Builtins)

/-- `to_number` converts the index of a segment. -/
def accepts : PathSeg → Bool
  | .index digits => (B.platform.toNumber (String.ofList digits)).isSome
  | _ => true

def NoLeadingZeros (segs : List PathSeg) : Prop :=
  ∀ digits, .index digits ∈ segs → digits = ['0'] ∨ digits.head? ≠ some '0'

/-- Where `to_number` converts the digits of an index, it gives its value. -/
def Converts : Prop :=
  ∀ (digits : List Char) (q : Rat), (∀ c ∈ digits, Pips.isDigit c = true) →
    (digits = ['0'] ∨ digits.head? ≠ some '0') →
    B.platform.toNumber (String.ofList digits) = some q → q = indexValue digits

theorem jpParse_text (hB : Converts B) {path : String} {segs : List PathSeg}
    (hsegs : ∀ seg ∈ segs, seg.Valid) (hzeros : NoLeadingZeros segs)
    (hpath : path.toList = '$' :: segmentsText segs) :
    jpParse B path = (segs.filter (accepts B)).map parsed := by
  rw [jpParse, hpath, trimDollar, segMatches_text hsegs]
  clear hpath
  induction segs with
  | nil => rfl
  | cons seg segs ih =>
    have htail := ih (fun s hs => hsegs s (List.mem_cons_of_mem seg hs))
      fun digits hd => hzeros digits (List.mem_cons_of_mem seg hd)
    rw [List.map_cons, List.filterMap_cons, htail, List.filter_cons]
    cases seg with
    | field name => rfl
    | wildcard => rfl
    | index digits =>
      rw [segMatchOf, jpSeg, accepts]
      cases hnumber : B.platform.toNumber (String.ofList digits) with
      | none => rfl
      | some q =>
        obtain rfl := hB digits q (hsegs _ List.mem_cons_self).2
          (hzeros digits List.mem_cons_self) hnumber
        rfl

/-! ## Agreement -/

/-- A text holds the characters of what it contains. -/
theorem mem_of_containsText {part cs : List Char} (h : containsText part cs = true) {c : Char}
    (hc : c ∈ part) : c ∈ cs := by
  induction cs with
  | nil =>
    rw [containsText, List.isEmpty_iff] at h
    rw [h] at hc
    cases hc
  | cons d cs ih =>
    rw [containsText, Bool.or_eq_true] at h
    rcases h with h | h
    · exact (List.isPrefixOf_iff_prefix.mp h).subset hc
    · exact List.mem_cons_of_mem d (ih h)

theorem containsText_append (part xs ys : List Char) :
    containsText part (xs ++ (part ++ ys)) = true := by
  induction xs with
  | nil =>
    rw [List.nil_append]
    cases hp : part ++ ys with
    | nil =>
      rw [(List.append_eq_nil_iff.mp hp).1]
      rfl
    | cons c cs =>
      rw [containsText, ← hp, List.isPrefixOf_iff_prefix.mpr (List.prefix_append part ys)]
      rfl
  | cons x xs ih => rw [List.cons_append, containsText, ih, Bool.or_true]

theorem wildcard_of_mem_star {segs : List PathSeg} (hsegs : ∀ seg ∈ segs, seg.Valid)
    (h : '*' ∈ segmentsText segs) : .wildcard ∈ segs := by
  obtain ⟨seg, hseg, hstar⟩ := List.mem_flatMap.mp h
  have hvalid := hsegs seg hseg
  cases seg with
  | wildcard => exact hseg
  | field name =>
    rcases List.mem_cons.mp hstar with heq | hname
    · cases heq
    · cases (hvalid.2 '*' hname).2
  | index digits =>
    rcases List.mem_cons.mp hstar with heq | hrest
    · cases heq
    · rcases List.mem_append.mp hrest with hdigit | hclose
      · cases hvalid.2 '*' hdigit
      · cases List.mem_singleton.mp hclose

/-- The path is read as one with a wildcard exactly when it has one. -/
theorem containsText_wildcard {path : String} {segs : List PathSeg}
    (hsegs : ∀ seg ∈ segs, seg.Valid) (hpath : path.toList = '$' :: segmentsText segs) :
    containsText "[*]".toList path.toList = true ↔ .wildcard ∈ segs := by
  rw [hpath]
  constructor
  · intro h
    have hstar : '*' ∈ '$' :: segmentsText segs := mem_of_containsText h (by simp)
    rcases List.mem_cons.mp hstar with heq | hstar
    · cases heq
    · exact wildcard_of_mem_star hsegs hstar
  · intro h
    obtain ⟨before, after, rfl⟩ := List.append_of_mem h
    have htext : '$' :: segmentsText (before ++ .wildcard :: after) =
        ('$' :: segmentsText before) ++ ("[*]".toList ++ segmentsText after) := by
      simp [segmentsText, PathSeg.text]
    rw [htext]
    exact containsText_append _ _ _

theorem jsonExtract_eq (hB : Converts B) {path : String} {segs : List PathSeg}
    (hsegs : ∀ seg ∈ segs, seg.Valid) (hzeros : NoLeadingZeros segs)
    (hpath : path.toList = '$' :: segmentsText segs) {doc : Value} (hdoc : UniqueKeys doc) :
    jsonExtract B doc path = evaluate (segs.filter (accepts B)) doc := by
  have hwild : .wildcard ∈ segs.filter (accepts B) ↔ .wildcard ∈ segs :=
    List.mem_filter.trans (and_iff_left rfl)
  have hvalues := map_snd_found (segs.filter (accepts B)) hdoc
  have hfound : (doc.walk.filter fun node => jpPathMatches (jpParse B path) node.1) =
      found ((segs.filter (accepts B)).map parsed) doc := by
    rw [jpParse_text B hB hsegs hzeros hpath]
    rfl
  rw [jsonExtract]
  simp only [hfound]
  rw [sortNodes_found _ hdoc, evaluate]
  by_cases hw : .wildcard ∈ segs
  · rw [if_pos ((containsText_wildcard hsegs hpath).mpr hw), if_pos (hwild.mpr hw), hvalues]
  · rw [if_neg fun h => hw ((containsText_wildcard hsegs hpath).mp h), if_neg (mt hwild.mp hw)]
    rw [collect_eq_toList (mt hwild.mp hw)] at hvalues
    cases hfollow : follow (segs.filter (accepts B)) doc with
    | none =>
      rw [hfollow, Option.toList_none, List.map_eq_nil_iff] at hvalues
      rw [hvalues]
    | some v =>
      rw [hfollow, Option.toList_some] at hvalues
      obtain ⟨node, hnode, rfl⟩ := List.map_eq_singleton_iff.mp hvalues
      rw [hnode]

end

/-! ## A segment that is left out -/

/-- A document in which segments lead to a null, and no longer path leads
    anywhere. -/
def reaching : List PathSeg → Value
  | [] => .null
  | .field name :: segs => .object [(String.ofList name, reaching segs)]
  | .index digits :: segs =>
    .array (List.replicate (indexValue digits) .null ++ [reaching segs])
  | .wildcard :: segs => .array [reaching segs]

theorem uniqueKeys_reaching (segs : List PathSeg) : UniqueKeys (reaching segs) := by
  induction segs with
  | nil => exact .null
  | cons seg segs ih =>
    cases seg with
    | field name =>
      refine .object (List.nodup_singleton _) fun f hf => ?_
      rw [List.mem_singleton.mp hf]
      exact ih
    | index digits =>
      refine .array fun v hv => ?_
      rcases List.mem_append.mp hv with hv | hv
      · rw [List.eq_of_mem_replicate hv]
        exact .null
      · rw [List.mem_singleton.mp hv]
        exact ih
    | wildcard =>
      refine .array fun v hv => ?_
      rw [List.mem_singleton.mp hv]
      exact ih

theorem collect_reaching (segs : List PathSeg) : collect segs (reaching segs) = [.null] := by
  induction segs with
  | nil => rfl
  | cons seg segs ih =>
    cases seg with
    | field name =>
      have hfield : (reaching (.field name :: segs)).field (String.ofList name) =
          some (reaching segs) := List.lookup_cons_self
      rw [collect, hfield, Option.toList_some, List.flatMap_singleton, ih]
    | index digits =>
      have hitem : itemAt (indexValue digits) (reaching (.index digits :: segs)) =
          some (reaching segs) := by
        rw [reaching, itemAt, List.getElem?_append_right (by rw [List.length_replicate]),
          List.length_replicate, Nat.sub_self]
        rfl
      rw [collect, hitem, Option.toList_some, List.flatMap_singleton, ih]
    | wildcard => rw [collect, reaching, elements, List.flatMap_singleton, ih]

theorem collect_null {segs : List PathSeg} (h : segs ≠ []) : collect segs .null = [] := by
  cases segs with
  | nil => exact absurd rfl h
  | cons seg segs => cases seg <;> rfl

/-- A longer path does not end in the document. -/
theorem collect_reaching_of_lt {kept segs : List PathSeg} (h : kept.length < segs.length) :
    collect segs (reaching kept) = [] := by
  induction kept generalizing segs with
  | nil => exact collect_null (List.ne_nil_of_length_pos h)
  | cons k kept ih =>
    cases segs with
    | nil => exact absurd h (Nat.not_lt_zero _)
    | cons seg segs =>
      have hlt : kept.length < segs.length := Nat.lt_of_succ_lt_succ h
      have hne : segs ≠ [] := List.ne_nil_of_length_pos (Nat.zero_lt_of_lt hlt)
      -- every child is a null or reaches the rest
      have hfield : ∀ name v, (reaching (k :: kept)).field name = some v → collect segs v = [] := by
        intro name v hv
        cases k with
        | field name' =>
          rw [reaching, Value.field, List.lookup_cons] at hv
          split at hv
          · rw [← Option.some.inj hv]
            exact ih hlt
          · cases hv
        | index digits => cases hv
        | wildcard => cases hv
      have hitem : ∀ v ∈ elements (reaching (k :: kept)), collect segs v = [] := by
        intro v hv
        cases k with
        | field name => cases hv
        | index digits =>
          rcases List.mem_append.mp hv with hv | hv
          · rw [List.eq_of_mem_replicate hv]
            exact collect_null hne
          · rw [List.mem_singleton.mp hv]
            exact ih hlt
        | wildcard =>
          rw [List.mem_singleton.mp hv]
          exact ih hlt
      cases seg with
      | field name =>
        exact List.flatMap_eq_nil_iff.mpr fun v hv => hfield _ v (Option.mem_toList.mp hv)
      | index digits =>
        exact List.flatMap_eq_nil_iff.mpr fun v hv =>
          hitem v (mem_elements_of_itemAt (Option.mem_toList.mp hv))
      | wildcard => exact List.flatMap_eq_nil_iff.mpr hitem

/-- A path with a segment left out selects something that the whole path does
    not. -/
theorem evaluate_reaching_ne {kept segs : List PathSeg} (hlt : kept.length < segs.length)
    (hwild : .wildcard ∈ kept ↔ .wildcard ∈ segs) :
    evaluate kept (reaching kept) ≠ evaluate segs (reaching kept) := by
  rw [evaluate, evaluate]
  by_cases hw : .wildcard ∈ segs
  · rw [if_pos (hwild.mpr hw), if_pos hw, collect_reaching, collect_reaching_of_lt hlt]
    intro heq
    cases Value.array.inj (Option.some.inj heq)
  · rw [if_neg (mt hwild.mp hw), if_neg hw]
    have hkept := collect_eq_toList (mt hwild.mp hw) (reaching kept)
    have hall := collect_eq_toList hw (reaching kept)
    rw [collect_reaching] at hkept
    rw [collect_reaching_of_lt hlt] at hall
    intro heq
    rw [← heq, ← hkept] at hall
    cases hall

/-- On the paths that `validatePath` accepts, `json_extract` is stepwise
    evaluation exactly where `to_number` converts every index. -/
theorem jsonExtract_stepwise_iff (B : Builtins) (hB : Converts B) {path : String}
    (h : validatePath path true = .ok ()) :
    (∃ segs : List PathSeg, (∀ seg ∈ segs, seg.Valid) ∧ path.toList = '$' :: segmentsText segs) ∧
    ∀ segs : List PathSeg, (∀ seg ∈ segs, seg.Valid) → path.toList = '$' :: segmentsText segs →
      NoLeadingZeros segs →
      ((∀ doc, UniqueKeys doc → jsonExtract B doc path = evaluate segs doc) ↔
        ∀ digits, .index digits ∈ segs →
          (B.platform.toNumber (String.ofList digits)).isSome = true) := by
  refine ⟨Pips.exists_segments_of_validatePath h, fun segs hsegs hpath hzeros => ?_⟩
  constructor
  · intro hagree digits hdigits
    by_contra hreject
    have hlt : (segs.filter (accepts B)).length < segs.length := by
      refine List.length_filter_lt_length_iff_exists.mpr ⟨.index digits, hdigits, hreject⟩
    have hwild : .wildcard ∈ segs.filter (accepts B) ↔ .wildcard ∈ segs :=
      List.mem_filter.trans (and_iff_left rfl)
    have hdoc := uniqueKeys_reaching (segs.filter (accepts B))
    have hextract := jsonExtract_eq B hB hsegs hzeros hpath hdoc
    rw [hagree _ hdoc] at hextract
    exact evaluate_reaching_ne hlt hwild hextract.symm
  · intro hall doc hdoc
    have hkept : segs.filter (accepts B) = segs := by
      refine List.filter_eq_self.mpr fun seg hseg => ?_
      cases seg with
      | index digits => exact hall digits hseg
      | field name => rfl
      | wildcard => rfl
    rw [jsonExtract_eq B hB hsegs hzeros hpath hdoc, hkept]

/-- `to_number` of digits, which `strconv.ParseFloat` reads first: a number that
    a `float64` cannot hold is refused. -/
def digitsToNumber (s : String) : Option Rat :=
  if s.toList.all Pips.isDigit ∧ indexValue s.toList < 2 ^ 1024 - 2 ^ 970 then
    some (indexValue s.toList)
  else none

def digitBuiltins : Builtins where
  platform := { Platform.ascii with toNumber := digitsToNumber }
  urlqueryEncode := id
  jsonUnmarshal := fun _ => none
  jsonPatch := fun _ _ => none
  uuidRfc4122 := id

theorem converts_digitBuiltins : Converts digitBuiltins := by
  intro digits q _ _ h
  replace h : digitsToNumber (String.ofList digits) = some q := h
  rw [digitsToNumber, String.toList_ofList] at h
  split_ifs at h
  exact (Option.some.inj h).symm

theorem jsonExtract_first_id :
    validatePath "$[0].id" true = .ok () ∧
      jsonExtract digitBuiltins (.array [.object [("id", .null)]]) "$[0].id" =
        evaluate [.index ['0'], .field ['i', 'd']] (.array [.object [("id", .null)]]) := by
  have hvalid : validatePath "$[0].id" true = .ok () := by decide +kernel
  obtain ⟨-, hiff⟩ := jsonExtract_stepwise_iff digitBuiltins converts_digitBuiltins hvalid
  have hsegs : ∀ seg ∈ [PathSeg.index ['0'], .field ['i', 'd']], seg.Valid := by
    simp [PathSeg.Valid, Pips.isDigit, Pips.endsField, Pips.isReserved]
  have hzeros : NoLeadingZeros [.index ['0'], .field ['i', 'd']] := by
    intro digits hd
    simp only [List.mem_cons, PathSeg.index.injEq, List.not_mem_nil, or_false, reduceCtorEq] at hd
    exact .inl hd
  have hall : ∀ digits, .index digits ∈ [PathSeg.index ['0'], .field ['i', 'd']] →
      (digitBuiltins.platform.toNumber (String.ofList digits)).isSome = true := by
    intro digits hd
    simp only [List.mem_cons, PathSeg.index.injEq, List.not_mem_nil, or_false, reduceCtorEq] at hd
    rw [hd]
    decide +kernel
  have hdoc : UniqueKeys (.array [.object [("id", .null)]]) :=
    uniqueKeys_reaching [.index ['0'], .field ['i', 'd']]
  exact ⟨hvalid, (hiff _ hsegs (by simp [segmentsText, PathSeg.text]) hzeros).mpr hall _ hdoc⟩

/-- An index of 400 digits. -/
def hugeDigits : List Char := List.replicate 400 '9'

theorem indexValue_nines (n : Nat) : indexValue (List.replicate n '9') + 1 = 10 ^ n := by
  induction n with
  | zero => rfl
  | succ n ih =>
    rw [indexValue] at ih
    rw [List.replicate_succ', indexValue, List.foldl_append, Nat.pow_succ, ← ih]
    show 10 * List.foldl _ 0 _ + 9 + 1 = _
    omega

/-- The digits write a number beyond every `float64`. -/
theorem hugeDigits_large : 2 ^ 1024 ≤ indexValue hugeDigits := by
  have hvalue : indexValue hugeDigits + 1 = 10 ^ 400 := indexValue_nines 400
  have hpow : 2 ^ 1024 + 1 ≤ 10 ^ 400 := by decide +kernel
  omega

/-- The list has one element. -/
theorem evaluate_out_of_range {digits : List Char} (h : 1 ≤ indexValue digits) :
    evaluate [.field ['i', 'd', 's'], .index digits] (.object [("ids", .array [.null])]) = none := by
  have hitem : itemAt (indexValue digits) (.array [.null]) = none := List.getElem?_eq_none h
  have hfield : (Value.object [("ids", .array [.null])]).field (String.ofList ['i', 'd', 's']) =
      some (.array [.null]) := by decide +kernel
  rw [evaluate, if_neg (by simp), follow, hfield, Option.bind_some, follow, hitem, Option.bind_none]

/-- The segments of `$.ids[99…9]`. -/
def hugeIndex : List PathSeg := [.field ['i', 'd', 's'], .index hugeDigits]

theorem hugeIndex_valid : ∀ seg ∈ hugeIndex, seg.Valid := by
  intro seg hseg
  rcases List.mem_cons.mp hseg with rfl | hseg
  · simp [PathSeg.Valid, Pips.endsField, Pips.isReserved]
  · rw [List.mem_singleton.mp hseg]
    have hne : hugeDigits ≠ [] := List.replicate_eq_nil_iff '9' |>.not.mpr (by omega)
    refine ⟨hne, fun c hc => ?_⟩
    rw [List.eq_of_mem_replicate hc]
    rfl

/-- An index beyond every `float64` is dropped. -/
theorem accepts_large {digits : List Char} (h : 2 ^ 1024 ≤ indexValue digits) :
    accepts digitBuiltins (.index digits) = false := by
  show (digitsToNumber (String.ofList digits)).isSome = false
  rw [digitsToNumber, String.toList_ofList, if_neg]
  · rfl
  · rintro ⟨-, hlt⟩
    omega

theorem hugeIndex_filter : hugeIndex.filter (accepts digitBuiltins) = [.field ['i', 'd', 's']] := by
  have hreject := accepts_large hugeDigits_large
  rw [hugeIndex, List.filter_cons_of_pos rfl,
    List.filter_cons_of_neg (ne_true_of_eq_false hreject), List.filter_nil]

/-- A path with an index that no `float64` holds selects the whole list. -/
theorem hugeIndex_selects_list :
    validatePath (String.ofList ('$' :: segmentsText hugeIndex)) true = .ok () ∧
      jsonExtract digitBuiltins (.object [("ids", .array [.null])])
        (String.ofList ('$' :: segmentsText hugeIndex)) = some (.array [.null]) ∧
      evaluate hugeIndex (.object [("ids", .array [.null])]) = none := by
  have hpath : (String.ofList ('$' :: segmentsText hugeIndex)).toList =
      '$' :: segmentsText hugeIndex := String.toList_ofList
  have hzeros : NoLeadingZeros hugeIndex := by
    intro digits hd
    rcases List.mem_cons.mp hd with heq | hd
    · cases heq
    · rw [PathSeg.index.inj (List.mem_singleton.mp hd)]
      exact .inr nofun
  have hdoc : UniqueKeys (.object [("ids", .array [.null])]) :=
    uniqueKeys_reaching [.field ['i', 'd', 's'], .wildcard]
  have hone : 1 ≤ indexValue hugeDigits := Nat.le_trans Nat.one_le_two_pow hugeDigits_large
  refine ⟨Pips.validatePath_text hugeIndex_valid hpath, ?_, evaluate_out_of_range hone⟩
  rw [jsonExtract_eq _ converts_digitBuiltins hugeIndex_valid hzeros hpath hdoc, hugeIndex_filter]
  decide +kernel

end Pip

end AuthzAgent
