/-
  AuthzAgent.PolicyIr.Filtered

  What the exact-key filter is for, on JSON values: `purge` removes from every
  object that is decoded into a struct the members that no field names and all
  but the last member of each other key, and `unknownKeys` lists the paths of
  the keys it removes, without the ignored ones.  The filter writes the purged
  value, with the fields of a struct in the order of their names (`Writes`), and
  reports these paths (`run_spec`): on a valid text no offset runs past the text.
-/

import AuthzAgent.PolicyIr.Offsets

namespace AuthzAgent

open JsonText (Json Blank Written Listed WrittenMember Stops Opens IsBody WellFormed bodyText)

namespace PolicyIr

variable {τ : Type}

/-! ## The filter on values -/

/-- A member of an object as it is written. -/
abbrev Member := List Char × Json

def lastMember (name : String) (members : List Member) : Option Json :=
  (members.reverse.find? fun m => bodyText m.1 = name).map Prod.snd

/-- The type of the field with a name. -/
def Types.shapeOf (T : Types τ) (t : τ) (name : String) : Option (Shape τ) :=
  (T.fields t).lookup name

/-- The field names of a struct are distinct, and each is its own JSON text. -/
structure Types.Wf (T : Types τ) : Prop where
  names : ∀ t, ((T.fields t).map Prod.fst).Nodup
  plain : ∀ t, ∀ f ∈ T.fields t, ∀ c ∈ f.1.toList, c ≠ '"' ∧ c ≠ '\\' ∧ ¬ c.toNat < 32

/-- The name of a field is its own JSON text. -/
theorem Types.Wf.bodyText_name {T : Types τ} (hT : T.Wf) {t : τ} {f : String × Shape τ}
    (hf : f ∈ T.fields t) : bodyText f.1.toList = f.1 := by
  have hslash : '\\' ∉ f.1.toList := fun hmem => (hT.plain t f hf _ hmem).2.1 rfl
  rw [(JsonText.isBody_plain (hT.plain t f hf)).bodyText_plain hslash, String.ofList_toList]

section

variable (T : Types τ)

mutual

/-- The value that is decoded. -/
def purge (shape : Shape τ) : Json → Json
  | .object members =>
    match shape with
    | .struct t => .object (purgeMembers t members)
    | _ => .object members
  | .array items =>
    match shape with
    | .slice elem => .array (purgeItems elem items)
    | _ => .array items
  | j => j

def purgeItems (elem : Shape τ) : List Json → List Json
  | [] => []
  | item :: items => purge elem item :: purgeItems elem items

def purgeMembers (t : τ) : List Member → List Member
  | [] => []
  | (key, value) :: members =>
    match T.shapeOf t (bodyText key) with
    | some shape =>
      if members.any (bodyText ·.1 = bodyText key) then purgeMembers t members
      else (key, purge shape value) :: purgeMembers t members
    | none => purgeMembers t members

end

mutual

def unknownKeys (shape : Shape τ) (path : List KeyStep) : Json → List String
  | .object members =>
    match shape with
    | .struct t => unknownMembers t path members
    | _ => []
  | .array items =>
    match shape with
    | .slice elem => unknownItems elem path 0 items
    | _ => []
  | _ => []

def unknownItems (elem : Shape τ) (path : List KeyStep) : Nat → List Json → List String
  | _, [] => []
  | n, item :: items =>
    unknownKeys elem (path ++ [.elem n]) item ++ unknownItems elem path (n + 1) items

def unknownMembers (t : τ) (path : List KeyStep) : List Member → List String
  | [] => []
  | (key, value) :: members =>
    (match T.shapeOf t (bodyText key) with
      | some shape =>
        if members.any (bodyText ·.1 = bodyText key) then []
        else unknownKeys shape (path ++ [.key (bodyText key)]) value
      | none =>
        if bodyText key ∈ T.ignoredKeysOf t then []
        else [pathText (path ++ [.key (bodyText key)])]) ++ unknownMembers t path members

end

/-- The members of some fields, in the order of the fields. -/
def fieldMembers (fields : List (String × Shape τ)) (g : String × Shape τ → Option Json) :
    List Member :=
  fields.filterMap fun f => (g f).map fun v => (f.1.toList, v)

/-- A value whose parts the filter looks at for a type. -/
def Shape.opens : Shape τ → Json → Bool
  | .struct _, .object _ => true
  | .slice _, .array _ => true
  | _, _ => false

/-- How the filter writes a purged value: of a struct it writes the fields in the
    order of their names, each with the one member that is left of it. -/
inductive Writes : Shape τ → Json → Json → Prop where
  | same {shape : Shape τ} {j : Json} (h : shape.opens j = false) : Writes shape j j
  | struct {t : τ} {members : List Member} {g : String × Shape τ → Option Json}
      (hnamed : ∀ m ∈ members, (T.shapeOf t (bodyText m.1)).isSome = true)
      (hsome : ∀ f ∈ T.fields t, (lastMember f.1 members).isSome = (g f).isSome)
      (hvalue : ∀ f ∈ T.fields t, ∀ v v', lastMember f.1 members = some v → g f = some v' →
        Writes f.2 v v') :
      Writes (.struct t) (.object members) (.object (fieldMembers (T.fieldsOf t) g))
  | slice {elem : Shape τ} {items items' : List Json} (hlength : items.length = items'.length)
      (hitem : ∀ (i : Nat) v v', items[i]? = some v → items'[i]? = some v' → Writes elem v v') :
      Writes (.slice elem) (.array items) (.array items')

end

/-! ## Members -/

theorem lastMember_cons (name : String) (m : Member) (members : List Member) :
    lastMember name (m :: members) =
      (lastMember name members).or (if bodyText m.1 = name then some m.2 else none) := by
  rw [lastMember, lastMember, List.reverse_cons, List.find?_append, Option.map_or]
  congr 1
  by_cases h : bodyText m.1 = name
  · rw [if_pos h, List.find?_cons_of_pos (by simpa using h)]
    rfl
  · rw [if_neg h, List.find?_cons_of_neg (by simpa using h)]
    rfl

theorem lastMember_eq_none {name : String} {members : List Member} :
    lastMember name members = none ↔ members.any (bodyText ·.1 = name) = false := by
  rw [lastMember, Option.map_eq_none_iff, List.find?_eq_none, List.any_eq_false]
  simp only [List.mem_reverse, decide_eq_true_eq]

theorem lastMember_purge (T : Types τ) (t : τ) {name : String} {shape : Shape τ}
    (hshape : T.shapeOf t name = some shape) (members : List Member) :
    lastMember name (purgeMembers T t members) = (lastMember name members).map (purge T shape) := by
  induction members with
  | nil => rfl
  | cons m members ih =>
    obtain ⟨key, value⟩ := m
    rw [purgeMembers, lastMember_cons]
    cases hkey : T.shapeOf t (bodyText key) with
    | none =>
      have hne : ¬ bodyText key = name := by
        rintro rfl
        rw [hshape] at hkey
        cases hkey
      rw [if_neg hne, Option.or_none]
      exact ih
    | some shape' =>
      simp only
      by_cases hlater : members.any (bodyText ·.1 = bodyText key) = true
      · rw [if_pos hlater, ih]
        by_cases hname : bodyText key = name
        · rw [hname] at hlater
          have hsome : lastMember name members ≠ none := fun hnone => by
            rw [lastMember_eq_none.mp hnone] at hlater
            cases hlater
          obtain ⟨v, hv⟩ := Option.ne_none_iff_exists'.mp hsome
          rw [hv, Option.some_or]
        · rw [if_neg hname, Option.or_none]
      · rw [if_neg hlater, lastMember_cons, ih]
        by_cases hname : bodyText key = name
        · rw [hname, hshape] at hkey
          obtain rfl := Option.some.inj hkey
          rw [if_pos hname, if_pos hname]
          cases lastMember name members <;> rfl
        · rw [if_neg hname, if_neg hname, Option.or_none, Option.or_none]

/-- Only named members are left. -/
theorem isSome_shapeOf_of_mem_purgeMembers (T : Types τ) (t : τ) {members : List Member}
    {m : Member} (h : m ∈ purgeMembers T t members) : (T.shapeOf t (bodyText m.1)).isSome = true := by
  induction members with
  | nil => cases h
  | cons m' members ih =>
    obtain ⟨key, value⟩ := m'
    rw [purgeMembers] at h
    cases hkey : T.shapeOf t (bodyText key) with
    | none =>
      simp only [hkey] at h
      exact ih h
    | some shape =>
      simp only [hkey] at h
      split_ifs at h
      · exact ih h
      · rcases List.mem_cons.mp h with rfl | h
        · rw [hkey]
          rfl
        · exact ih h

namespace ExactFilter

/-! ## Reports -/

/-- The unknown keys that a stretch of the text reports: in the order of their
    offsets, which lie in the stretch, they have these paths. -/
def Found (i e : Nat) (paths : List String) (unknown : List (Nat × String)) : Prop :=
  ∃ doc, unknown.Perm doc ∧ doc.Pairwise (·.1 < ·.1) ∧ (∀ u ∈ doc, i ≤ u.1 ∧ u.1 < e) ∧
    doc.map Prod.snd = paths

theorem found_nil (i e : Nat) : Found i e [] [] :=
  ⟨[], .nil, .nil, fun _ hu => absurd hu List.not_mem_nil, rfl⟩

theorem Found.append {i m m' e : Nat} {ps qs : List String} {us vs : List (Nat × String)}
    (h : Found i m ps us) (h' : Found m' e qs vs) (hm : m ≤ m') (him : i ≤ m') (hme : m ≤ e) :
    Found i e (ps ++ qs) (us ++ vs) := by
  obtain ⟨doc, hperm, hsorted, hrange, rfl⟩ := h
  obtain ⟨doc', hperm', hsorted', hrange', rfl⟩ := h'
  refine ⟨doc ++ doc', hperm.append hperm', ?_, fun u hu => ?_, List.map_append⟩
  · refine List.pairwise_append.mpr ⟨hsorted, hsorted', fun u hu v hv => ?_⟩
    have hu' := (hrange u hu).2
    have hv' := (hrange' v hv).1
    omega
  · rcases List.mem_append.mp hu with hu | hu
    · have := hrange u hu
      omega
    · have := hrange' u hu
      omega

theorem Found.mono {i i' e e' : Nat} {ps : List String} {us : List (Nat × String)}
    (h : Found i e ps us) (hi : i' ≤ i) (he : e ≤ e') : Found i' e' ps us := by
  obtain ⟨doc, hperm, hsorted, hrange, hpaths⟩ := h
  refine ⟨doc, hperm, hsorted, fun u hu => ?_, hpaths⟩
  have := hrange u hu
  omega

/-- Sorting by the offsets puts the report in the order of the text. -/
theorem Found.sorted {i e : Nat} {paths : List String} {unknown : List (Nat × String)}
    (h : Found i e paths unknown) :
    (unknown.insertionSort fun a b => a.1 ≤ b.1).map Prod.snd = paths := by
  obtain ⟨doc, hperm, hsorted, -, rfl⟩ := h
  congr 1
  have hperm' := (List.perm_insertionSort (fun a b : Nat × String => a.1 ≤ b.1) unknown).trans hperm
  have hle : doc.Pairwise fun a b => a.1 ≤ b.1 := hsorted.imp Nat.le_of_lt
  have hins : (unknown.insertionSort fun a b => a.1 ≤ b.1).Pairwise fun a b => a.1 ≤ b.1 :=
    List.pairwise_insertionSort _ unknown
  have hnodup : (doc.map Prod.fst).Nodup :=
    List.pairwise_map.mpr (hsorted.imp fun h => Nat.ne_of_lt h)
  refine hperm'.eq_of_pairwise (fun a b ha hb hab hba => ?_) hins hle
  exact List.inj_on_of_nodup_map hnodup (hperm'.mem_iff.mp ha) hb (Nat.le_antisymm hab hba)

/-! ## Lists -/

/-- Texts with commas between them, and one before them where `lead`. -/
def joined (lead : Bool) : List (List Char) → List Char
  | [] => []
  | text :: texts => (if lead then [','] else []) ++ text ++ joined true texts

theorem joined_false (texts : List (List Char)) : joined false texts = [','].intercalate texts := by
  cases texts with
  | nil => rfl
  | cons text texts =>
    rw [joined]
    induction texts generalizing text with
    | nil => simp [joined]
    | cons text' texts ih =>
      rw [List.intercalate_cons_cons, ← ih text', joined]
      simp

section

variable {data : List Char} {ends : Ends} {T : Types τ}

/-- A value stands at an offset and ends at another. -/
def Placed (data : List Char) (ends : Ends) (depth i e : Nat) (j : Json) : Prop :=
  ∃ w rest, Written (Entry ends) depth i j w ∧ data.drop i = w ++ rest ∧ Stops rest ∧
    e = i + w.length

/-- What the filter gives for a value at a place: the purged value, and the unknown
    keys. -/
def Filters (T : Types τ) (output : Option Output) (shape : Shape τ) (path : List KeyStep)
    (depth i e : Nat) (j : Json) : Prop :=
  ∃ j' unknown, output = some (JsonText.print j', unknown) ∧ WellFormed depth j' ∧
    Writes T shape (purge T shape j) j' ∧ Found i e (unknownKeys T shape path j) unknown

theorem opens_written {depth i : Nat} {j : Json} {w : List Char}
    (hw : Written (Entry ends) depth i j w) : Opens w :=
  (JsonText.reads_written _ depth).opens _ _ _ hw

theorem skipSpace_written {depth k : Nat} {j : Json} {b w rest : List Char} (hb : Blank b)
    (hw : Written (Entry ends) depth (k + b.length) j w) (h : data.drop k = b ++ (w ++ rest)) :
    skipSpace data k = k + b.length :=
  skipSpace_of_drop hb (opens_head (opens_written hw)) h

/-- One round of the loop of `array`. -/
theorem writeItems_round {value : Nat → Shape τ → List KeyStep → Option Output} {elem : Shape τ}
    {path : List KeyStep} {depth k n fuel : Nat} {j : Json} {b w b' rest : List Char} {c : Char}
    (hb : Blank b) (hw : Written (Entry ends) depth (k + b.length) j w) (hb' : Blank b')
    (hc : c = ',' ∨ c = ']') (h : data.drop k = b ++ (w ++ (b' ++ c :: rest)))
    {text more : List Char} {unknown unknowns : List (Nat × String)}
    (hvalue : value (k + b.length) elem (path ++ [.elem n]) = some (text, unknown))
    (hmore : writeItems data ends value elem path fuel
      (if c = ',' then skipSpace data (k + b.length + w.length + b'.length + 1)
        else k + b.length + w.length + b'.length) (n + 1) = some (more, unknowns)) :
    writeItems data ends value elem path (fuel + 1) (skipSpace data k) n =
      some ((if n ≠ 0 then [','] else []) ++ text ++ more, unknown ++ unknowns) := by
  have hdrop := drop_of_drop h
  obtain ⟨d, ds, hd, -, hbracket, -⟩ := opens_written hw
  have hat : data[k + b.length]? = some d := getElem?_of_drop (by rw [hdrop, hd]; rfl)
  have hnext := next_eq hw hb' (by tauto) hdrop
  rw [writeItems, skipSpace_written hb hw h, hat]
  simp only [if_neg hbracket]
  rw [hvalue, hnext]
  simp only [bind, Option.bind, pure]
  rw [hmore]

/-- The loop of `array` along the text of its items. -/
theorem writeItems_spec {value : Nat → Shape τ → List KeyStep → Option Output} {elem : Shape τ}
    {path : List KeyStep} {depth bound : Nat}
    (hvalue : ∀ i e j path, Placed data ends depth i e j → e ≤ i + bound →
      Filters T (value i elem path) elem path depth i e j)
    {k : Nat} {items : List Json} {text rest : List Char}
    (hlist : Listed (Written (Entry ends) depth) ']' k items text) (hbound : text.length ≤ bound)
    (h : data.drop k = text ++ rest) {fuel : Nat} (hfuel : items.length < fuel) (n : Nat) :
    ∃ items' unknown,
      writeItems data ends value elem path fuel (skipSpace data k) n =
        some (joined (n ≠ 0) (items'.map JsonText.print), unknown) ∧
      (∀ j ∈ items', WellFormed depth j) ∧
      List.Forall₂ (Writes T elem) (purgeItems T elem items) items' ∧
      Found k (k + text.length) (unknownItems T elem path n items) unknown := by
  induction hlist generalizing fuel n with
  | @nil k b hb =>
    obtain ⟨fuel, rfl⟩ : ∃ m, fuel = m + 1 := ⟨fuel - 1, by omega⟩
    have hdrop : data.drop k = b ++ ']' :: rest := by rw [h]; simp
    have hskip : skipSpace data k = k + b.length :=
      skipSpace_of_drop hb (by simp [JsonText.isBlank]) hdrop
    refine ⟨[], [], ?_, by simp, .nil, found_nil _ _⟩
    rw [writeItems, hskip, getElem?_of_drop (drop_of_drop hdrop)]
    rfl
  | @one k j b w b' hb hw hb' =>
    obtain ⟨fuel, rfl⟩ : ∃ m, fuel = m + 2 := ⟨fuel - 2, by rw [List.length_singleton] at hfuel; omega⟩
    have hdrop : data.drop k = b ++ (w ++ (b' ++ ']' :: rest)) := by rw [h]; simp
    have hafter := drop_of_drop (drop_of_drop (drop_of_drop hdrop))
    simp only [List.length_append, List.length_singleton] at hbound ⊢
    obtain ⟨j', unknown, hout, hwf, hwrites, hfound⟩ := hvalue (k + b.length) _ j
      (path ++ [.elem n]) ⟨w, _, hw, drop_of_drop hdrop,
        JsonText.stops_blank hb' (JsonText.stops_cons (.inr (.inl rfl)) rest), rfl⟩ (by omega)
    have hclose : writeItems data ends value elem path (fuel + 1)
        (k + b.length + w.length + b'.length) (n + 1) = some ([], []) := by
      rw [writeItems, getElem?_of_drop hafter]
      rfl
    refine ⟨[j'], unknown, ?_, by simpa using hwf, .cons hwrites .nil, ?_⟩
    · rw [writeItems_round hb hw hb' (.inr rfl) hdrop hout hclose]
      by_cases hn : n = 0 <;> simp [joined, hn]
    · rw [unknownItems, unknownItems, List.append_nil]
      exact hfound.mono (by omega) (by omega)
  | @cons k j items b w b' text hb hw hb' hne hrest ih =>
    obtain ⟨fuel, rfl⟩ : ∃ m, fuel = m + 1 := ⟨fuel - 1, by omega⟩
    have hdrop : data.drop k = b ++ (w ++ (b' ++ ',' :: (text ++ rest))) := by rw [h]; simp
    have hafter := drop_of_drop (w := [',']) (drop_of_drop (drop_of_drop (drop_of_drop hdrop)))
    simp only [List.length_append, List.length_cons] at hbound hfuel ⊢
    obtain ⟨j', unknown, hout, hwf, hwrites, hfound⟩ := hvalue (k + b.length) _ j
      (path ++ [.elem n]) ⟨w, _, hw, drop_of_drop hdrop,
        JsonText.stops_blank hb' (JsonText.stops_cons (.inl rfl) _), rfl⟩ (by omega)
    obtain ⟨items', unknowns, houts, hwfs, hall, hfounds⟩ :=
      ih (by omega) hafter (by omega : items.length < fuel) (n + 1)
    refine ⟨j' :: items', unknown ++ unknowns, ?_, List.forall_mem_cons.mpr ⟨hwf, hwfs⟩,
      .cons hwrites hall, ?_⟩
    · rw [writeItems_round hb hw hb' (.inl rfl) hdrop hout houts]
      by_cases hn : n = 0 <;> simp [joined, hn]
    · rw [unknownItems]
      exact (hfound.append hfounds (by omega) (by omega) (by omega)).mono (by omega) (by omega)

/-! ## Members and their places -/

/-- A member with the offsets at which its value begins and ends. -/
structure Spot where
  start : Nat
  stop : Nat
  member : Member

/-- The key of the member. -/
def Spot.name (s : Spot) : String := bodyText s.member.1

/-- The field of a struct that a name belongs to. -/
theorem any_fieldsOf (T : Types τ) (t : τ) (name : String) :
    (T.fieldsOf t).any (·.1 = name) = (T.shapeOf t name).isSome := by
  rw [Bool.eq_iff_iff, Types.shapeOf, List.lookup_isSome_iff, List.any_eq_true]
  refine exists_congr fun f => and_congr (List.mem_insertionSort _) ?_
  rw [decide_eq_true_eq, beq_iff_eq]
  exact eq_comm

def ownUnknown (T : Types τ) (t : τ) (path : List KeyStep) (s : Spot) : List (Nat × String) :=
  if (T.shapeOf t s.name).isSome ∨ s.name ∈ T.ignoredKeysOf t then []
  else [(s.start, pathText (path ++ [.key s.name]))]

/-- What the loop of `object` keeps of a member. -/
def keepLast (T : Types τ) (t : τ) (last : Dict Nat) (s : Spot) : Dict Nat :=
  if (T.shapeOf t s.name).isSome then last.insert s.name s.start else last

/-- The members of an object stand in their order, each with its value. -/
structure Spots (data : List Char) (ends : Ends) (depth k e : Nat) (members : List Member)
    (spots : List Spot) : Prop where
  members : spots.map Spot.member = members
  placed : ∀ s ∈ spots, Placed data ends depth s.start s.stop s.member.2
  range : ∀ s ∈ spots, k ≤ s.start ∧ s.start < s.stop ∧ s.stop ≤ e
  order : spots.Pairwise fun s s' => s.stop ≤ s'.start

/-- One round of the first loop of `object`. -/
theorem readMembers_round (T : Types τ) (t : τ) (path : List KeyStep) (fuel : Nat) {depth k : Nat}
    {m : Member} {b w b' rest : List Char} {c : Char} (hb : Blank b)
    (hw : WrittenMember (Written (Entry ends) depth) (k + b.length) m w) (hb' : Blank b')
    (hc : c = ',' ∨ c = '}') (h : data.drop k = b ++ (w ++ (b' ++ c :: rest))) :
    ∃ s : Spot, s.member = m ∧ Placed data ends depth s.start s.stop m.2 ∧ k ≤ s.start ∧
      s.start < s.stop ∧ s.stop = k + b.length + w.length ∧
      ∀ last last' more,
        readMembers data T ends t path fuel
          (if c = ',' then skipSpace data (k + b.length + w.length + b'.length + 1)
            else k + b.length + w.length + b'.length) (keepLast T t last s) = some (last', more) →
        readMembers data T ends t path (fuel + 1) (skipSpace data k) last =
          some (last', ownUnknown T t path s ++ more) := by
  obtain ⟨hkey, hc₁, hc₂, hv⟩ := hw
  rename_i key j b₁ b₂ v
  have hdrop : data.drop (k + b.length) = '"' :: (key ++ '"' :: (b₁ ++ ':' :: (b₂ ++
      (v ++ (b' ++ c :: rest))))) := by
    rw [drop_of_drop h]
    simp
  have hblank : data.drop (k + b.length + key.length + 2) = b₁ ++ ':' :: (b₂ ++
      (v ++ (b' ++ c :: rest))) := by
    have hdrop' : data.drop (k + b.length) = ('"' :: (key ++ ['"'])) ++ (b₁ ++ ':' :: (b₂ ++
        (v ++ (b' ++ c :: rest)))) := by
      rw [hdrop]
      simp
    have hafter := drop_of_drop hdrop'
    rw [List.length_cons, List.length_append, List.length_singleton] at hafter
    exact hafter
  have hcolon := drop_of_drop hblank
  have hblank' := drop_of_drop (w := [':']) hcolon
  have hvalue := drop_of_drop hblank'
  have hopens := opens_written hv
  have hskip : skipSpace data k = k + b.length :=
    skipSpace_of_drop hb (opens_head (JsonText.opens_of_isScalarStart (by decide) _)) h
  have hskip₁ : skipSpace data (k + b.length + key.length + 2) =
      k + b.length + key.length + 2 + b₁.length :=
    skipSpace_of_drop hc₁ (by simp [JsonText.isBlank]) hblank
  have hskip₂ : skipSpace data (k + b.length + key.length + 2 + b₁.length + 1) =
      k + b.length + key.length + 2 + b₁.length + 1 + b₂.length :=
    skipSpace_of_drop hc₂ (opens_head hopens) hblank'
  have hsum : k + b.length + ('"' :: (key ++ '"' :: (b₁ ++ ':' :: (b₂ ++ v)))).length =
      k + b.length + key.length + 2 + b₁.length + 1 + b₂.length + v.length := by
    simp only [List.length_append, List.length_cons]
    omega
  have hpos : 0 < v.length := by
    obtain ⟨d, ds, rfl, -⟩ := hopens
    rw [List.length_cons]
    omega
  have hnext := next_eq hv hb' (by tauto) hvalue
  have hplaced : Placed data ends depth (k + b.length + key.length + 2 + b₁.length + 1 + b₂.length)
      (k + b.length + key.length + 2 + b₁.length + 1 + b₂.length + v.length) j :=
    ⟨v, _, hv, hvalue, JsonText.stops_blank hb' (JsonText.stops_cons (by tauto) rest), rfl⟩
  refine ⟨⟨k + b.length + key.length + 2 + b₁.length + 1 + b₂.length,
    k + b.length + key.length + 2 + b₁.length + 1 + b₂.length + v.length, (key, j)⟩, rfl, hplaced,
    by show k ≤ k + b.length + key.length + 2 + b₁.length + 1 + b₂.length; omega,
    Nat.lt_add_of_pos_right hpos,
    hsum.symm, fun last last' more hmore => ?_⟩
  rw [readMembers, hskip, getElem?_of_drop hdrop]
  simp only [Char.reduceEq, if_false, stringEnd_eq hkey hdrop, key_eq hkey hdrop, hskip₁, hskip₂,
    hnext, bind, Option.bind, pure]
  rw [hsum, keepLast, Spot.name] at hmore
  rw [any_fieldsOf, hmore]
  rfl

/-- The first loop of `object` along the text of its members. -/
theorem readMembers_spec (T : Types τ) (t : τ) (path : List KeyStep) {depth k : Nat}
    {members : List Member} {text rest : List Char}
    (hlist : Listed (WrittenMember (Written (Entry ends) depth)) '}' k members text)
    (h : data.drop k = text ++ rest) {fuel : Nat} (hfuel : members.length < fuel) :
    ∃ spots, Spots data ends depth k (k + text.length) members spots ∧
      ∀ last, readMembers data T ends t path fuel (skipSpace data k) last =
        some (spots.foldl (keepLast T t) last, spots.flatMap (ownUnknown T t path)) := by
  induction hlist generalizing fuel with
  | @nil k b hb =>
    obtain ⟨fuel, rfl⟩ : ∃ m, fuel = m + 1 := ⟨fuel - 1, by omega⟩
    have hdrop : data.drop k = b ++ '}' :: rest := by rw [h]; simp
    have hskip : skipSpace data k = k + b.length :=
      skipSpace_of_drop hb (by simp [JsonText.isBlank]) hdrop
    refine ⟨[], ⟨rfl, by simp, by simp, .nil⟩, fun last => ?_⟩
    rw [readMembers, hskip, getElem?_of_drop (drop_of_drop hdrop)]
    rfl
  | @one k m b w b' hb hw hb' =>
    obtain ⟨fuel, rfl⟩ : ∃ n, fuel = n + 2 :=
      ⟨fuel - 2, by rw [List.length_singleton] at hfuel; omega⟩
    have hdrop : data.drop k = b ++ (w ++ (b' ++ '}' :: rest)) := by rw [h]; simp
    have hafter := drop_of_drop (drop_of_drop (drop_of_drop hdrop))
    obtain ⟨s, rfl, hplaced, hstart, hpos, hstop, hround⟩ :=
      readMembers_round T t path (fuel + 1) hb hw hb' (.inr rfl) hdrop
    simp only [List.length_append, List.length_singleton]
    refine ⟨[s], ⟨rfl, List.forall_mem_singleton.mpr hplaced,
      List.forall_mem_singleton.mpr ⟨hstart, hpos, by omega⟩, List.pairwise_singleton _ s⟩,
      fun last => ?_⟩
    have hclose : readMembers data T ends t path (fuel + 1)
        (k + b.length + w.length + b'.length) (keepLast T t last s) =
          some (keepLast T t last s, []) := by
      rw [readMembers, getElem?_of_drop hafter]
      rfl
    rw [hround last _ _ hclose, List.flatMap_cons, List.flatMap_nil]
    rfl
  | @cons k m members b w b' text hb hw hb' hne hrest ih =>
    obtain ⟨fuel, rfl⟩ : ∃ n, fuel = n + 1 := ⟨fuel - 1, by omega⟩
    have hdrop : data.drop k = b ++ (w ++ (b' ++ ',' :: (text ++ rest))) := by rw [h]; simp
    have hafter := drop_of_drop (w := [',']) (drop_of_drop (drop_of_drop (drop_of_drop hdrop)))
    obtain ⟨s, rfl, hplaced, hstart, hpos, hstop, hround⟩ :=
      readMembers_round T t path fuel hb hw hb' (.inl rfl) hdrop
    simp only [List.length_append, List.length_cons] at hfuel ⊢
    obtain ⟨spots, hspots, hread⟩ := ih hafter (by omega : members.length < fuel)
    refine ⟨s :: spots, ⟨by rw [List.map_cons, hspots.members],
      List.forall_mem_cons.mpr ⟨hplaced, hspots.placed⟩,
      List.forall_mem_cons.mpr ⟨⟨hstart, hpos, by omega⟩, fun s' hs' => ?_⟩,
      List.pairwise_cons.mpr ⟨fun s' hs' => ?_, hspots.order⟩⟩, fun last => ?_⟩
    · have hrange := hspots.range s' hs'
      omega
    · have hrange := hspots.range s' hs'
      omega
    · rw [hround last _ _ (hread _), List.flatMap_cons]
      rfl

/-! ## Fields -/

/-- The place of the last member with a key. -/
def lastSpot (name : String) (spots : List Spot) : Option Spot :=
  spots.reverse.find? fun s => s.name = name

theorem lastSpot_cons (name : String) (s : Spot) (spots : List Spot) :
    lastSpot name (s :: spots) =
      (lastSpot name spots).or (if s.name = name then some s else none) := by
  rw [lastSpot, lastSpot, List.reverse_cons, List.find?_append]
  congr 1
  by_cases h : s.name = name
  · rw [if_pos h, List.find?_cons_of_pos (by simpa using h)]
  · rw [if_neg h, List.find?_cons_of_neg (by simpa using h), List.find?_nil]

theorem lastSpot_eq_some {name : String} {spots : List Spot} {s : Spot}
    (h : lastSpot name spots = some s) : s ∈ spots ∧ s.name = name := by
  refine ⟨List.mem_reverse.mp (List.mem_of_find?_eq_some h), ?_⟩
  have hname := List.find?_some h
  exact of_decide_eq_true hname

theorem lastMember_spots (name : String) (spots : List Spot) :
    lastMember name (spots.map Spot.member) = (lastSpot name spots).map (·.member.2) := by
  rw [lastMember, lastSpot, ← List.map_reverse, List.find?_map, Option.map_map]
  rfl

theorem lookup_keepLast {t : τ} {name : String} (hknown : (T.shapeOf t name).isSome = true)
    (spots : List Spot) (last : Dict Nat) :
    (spots.foldl (keepLast T t) last).lookup name =
      ((lastSpot name spots).map Spot.start).or (last.lookup name) := by
  induction spots generalizing last with
  | nil => rfl
  | cons s spots ih =>
    rw [List.foldl_cons, ih, lastSpot_cons, keepLast]
    cases hlast : lastSpot name spots with
    | some s' => rfl
    | none =>
      by_cases hname : s.name = name
      · rw [if_pos hname, hname, if_pos hknown, AList.lookup_insert]
        rfl
      · rw [if_neg hname]
        split
        · rw [AList.lookup_insert_ne (Ne.symm hname)]
          rfl
        · rfl

theorem fieldMembers_cons (f : String × Shape τ) (fields : List (String × Shape τ))
    (g : String × Shape τ → Option Json) :
    fieldMembers (f :: fields) g =
      ((g f).map fun v => (f.1.toList, v)).toList ++ fieldMembers fields g := by
  rw [fieldMembers, List.filterMap_cons]
  cases g f <;> rfl

theorem lastMember_fieldMembers_none {fields : List (String × Shape τ)}
    {g : String × Shape τ → Option Json} (hplain : ∀ f ∈ fields, bodyText f.1.toList = f.1)
    {name : String} (hname : name ∉ fields.map Prod.fst) :
    lastMember name (fieldMembers fields g) = none := by
  rw [lastMember_eq_none, List.any_eq_false]
  intro m hm
  obtain ⟨f, hf, hm⟩ := List.mem_filterMap.mp hm
  obtain ⟨v, -, rfl⟩ := Option.map_eq_some_iff.mp hm
  rw [decide_eq_true_eq, hplain f hf]
  rintro rfl
  exact hname (List.mem_map_of_mem hf)

theorem lastMember_fieldMembers {fields : List (String × Shape τ)}
    {g : String × Shape τ → Option Json} (hplain : ∀ f ∈ fields, bodyText f.1.toList = f.1)
    (hnodup : (fields.map Prod.fst).Nodup) {f : String × Shape τ} (hf : f ∈ fields) :
    lastMember f.1 (fieldMembers fields g) = g f := by
  induction fields with
  | nil => exact absurd hf List.not_mem_nil
  | cons f' fields ih =>
    rw [List.forall_mem_cons] at hplain
    rw [List.map_cons, List.nodup_cons] at hnodup
    rw [fieldMembers_cons]
    rcases List.mem_cons.mp hf with rfl | hf
    · have hnone := lastMember_fieldMembers_none (g := g) hplain.2 hnodup.1
      cases g f with
      | none => exact hnone
      | some v =>
        rw [Option.map_some, Option.toList_some, List.singleton_append, lastMember_cons, hnone,
          if_pos hplain.1, Option.none_or]
    · have hne : ¬ bodyText f'.1.toList = f.1 := fun heq =>
        hnodup.1 (by rw [← hplain.1, heq]; exact List.mem_map_of_mem hf)
      cases g f' with
      | none => exact ih hplain.2 hnodup.2 hf
      | some v =>
        rw [Option.map_some, Option.toList_some, List.singleton_append, lastMember_cons,
          if_neg hne, Option.or_none]
        exact ih hplain.2 hnodup.2 hf

/-- The second loop of `object`, where `value` gives a value and its report for
    the last member of each field. -/
theorem writeFields_eq {value : Nat → Shape τ → List KeyStep → Option Output} {last : Dict Nat}
    {path : List KeyStep} {spots : List Spot} {result : Spot → Json}
    {report : Spot → List (Nat × String)} {fields : List (String × Shape τ)}
    (hlast : ∀ f ∈ fields, last.lookup f.1 = (lastSpot f.1 spots).map Spot.start)
    (hvalue : ∀ f ∈ fields, ∀ s, lastSpot f.1 spots = some s →
      value s.start f.2 (path ++ [.key f.1]) = some (JsonText.print (result s), report s))
    (first : Bool) :
    writeFields value last path first fields =
      some (joined (!first) ((fieldMembers fields fun f =>
          (lastSpot f.1 spots).map result).map JsonText.printMember),
        (fields.filterMap fun f => lastSpot f.1 spots).flatMap report) := by
  induction fields generalizing first with
  | nil => rfl
  | cons f fields ih =>
    obtain ⟨name, shape⟩ := f
    rw [List.forall_mem_cons] at hlast hvalue
    have hrest := ih hlast.2 hvalue.2
    rw [writeFields, hlast.1]
    cases hspot : lastSpot name spots with
    | none =>
      rw [fieldMembers_cons, List.filterMap_cons_none
        (f := fun g : String × Shape τ => lastSpot g.1 spots) hspot, hspot]
      exact hrest first
    | some s =>
      rw [fieldMembers_cons, List.filterMap_cons_some
        (f := fun g : String × Shape τ => lastSpot g.1 spots) hspot, hspot]
      simp only [Option.map_some, hvalue.1 s hspot, bind, Option.bind, pure]
      rw [hrest false, Option.toList_some, List.singleton_append, List.map_cons, joined,
        List.flatMap_cons, JsonText.printMember]
      cases first <;> rfl

/-! ## The order of the report -/

/-- The places of the members that are kept. -/
def keptSpots (T : Types τ) (t : τ) : List Spot → List Spot
  | [] => []
  | s :: spots =>
    if (T.shapeOf t s.name).isSome ∧ spots.any (·.name = s.name) = false then
      s :: keptSpots T t spots
    else keptSpots T t spots

/-- The report in the order of the text, with `report` for what a kept member
    adds. -/
def docReport (T : Types τ) (t : τ) (path : List KeyStep) (report : Spot → List (Nat × String)) :
    List Spot → List (Nat × String)
  | [] => []
  | s :: spots =>
    ownUnknown T t path s ++
      ((if (T.shapeOf t s.name).isSome ∧ spots.any (·.name = s.name) = false then report s else [])
        ++ docReport T t path report spots)

theorem lastSpot_eq_none {name : String} {spots : List Spot} :
    lastSpot name spots = none ↔ spots.any (·.name = name) = false := by
  rw [lastSpot, List.find?_eq_none, List.any_eq_false]
  simp only [List.mem_reverse, decide_eq_true_eq]

theorem mem_keptSpots {t : τ} {spots : List Spot} {s : Spot} :
    s ∈ keptSpots T t spots ↔
      (T.shapeOf t s.name).isSome = true ∧ lastSpot s.name spots = some s := by
  induction spots with
  | nil => simp [keptSpots, lastSpot]
  | cons s' spots ih =>
    rw [keptSpots, lastSpot_cons]
    by_cases hkeep : (T.shapeOf t s'.name).isSome = true ∧ spots.any (·.name = s'.name) = false
    · rw [if_pos hkeep, List.mem_cons, ih]
      constructor
      · rintro (rfl | ⟨hknown, hlast⟩)
        · rw [lastSpot_eq_none.mpr hkeep.2, if_pos rfl]
          exact ⟨hkeep.1, rfl⟩
        · rw [hlast]
          exact ⟨hknown, rfl⟩
      · rintro ⟨hknown, hlast⟩
        cases hspot : lastSpot s.name spots with
        | some s'' =>
          rw [hspot, Option.some_or, Option.some.injEq] at hlast
          exact .inr ⟨hknown, by rw [hlast]⟩
        | none =>
          rw [hspot, Option.none_or, Option.ite_none_right_eq_some, Option.some.injEq] at hlast
          exact .inl hlast.2.symm
    · rw [if_neg hkeep, ih]
      refine and_congr_right fun hknown => ?_
      cases hspot : lastSpot s.name spots with
      | some s'' => rw [Option.some_or]
      | none =>
        rw [Option.none_or, Option.ite_none_right_eq_some, Option.some.injEq]
        refine ⟨fun h => (by cases h), fun ⟨hname, hs⟩ => absurd ⟨?_, ?_⟩ hkeep⟩
        · rw [hname]
          exact hknown
        · rw [hname]
          exact lastSpot_eq_none.mp hspot

theorem mem_keptSpots_cons {t : τ} {spots : List Spot} {s' : Spot} (s : Spot)
    (h : s' ∈ keptSpots T t spots) : s' ∈ keptSpots T t (s :: spots) := by
  rw [keptSpots]
  split
  · exact List.mem_cons_of_mem s h
  · exact h

theorem nodup_keptSpots (t : τ) (spots : List Spot) :
    ((keptSpots T t spots).map Spot.name).Nodup := by
  induction spots with
  | nil => exact List.nodup_nil
  | cons s spots ih =>
    rw [keptSpots]
    split
    · rename_i hkeep
      rw [List.map_cons, List.nodup_cons]
      refine ⟨fun hmem => ?_, ih⟩
      obtain ⟨s', hs', hname⟩ := List.mem_map.mp hmem
      obtain ⟨-, hlast⟩ := mem_keptSpots.mp hs'
      rw [hname, lastSpot_eq_none.mpr hkeep.2] at hlast
      cases hlast
    · exact ih

/-- The last members of the fields are the kept members, in another order. -/
theorem perm_keptSpots (hT : T.Wf) (t : τ) (spots : List Spot) :
    ((T.fieldsOf t).filterMap fun f => lastSpot f.1 spots).Perm (keptSpots T t spots) := by
  have hnames : ((T.fieldsOf t).map Prod.fst).Nodup :=
    ((List.perm_insertionSort _ (T.fields t)).map Prod.fst).nodup_iff.mpr (hT.names t)
  have hmap : ((T.fieldsOf t).filterMap fun f => lastSpot f.1 spots) =
      ((T.fieldsOf t).map Prod.fst).filterMap fun name => lastSpot name spots := by
    rw [List.filterMap_map]
    rfl
  have hnodup : (((T.fieldsOf t).map Prod.fst).filterMap fun name => lastSpot name spots).Nodup := by
    refine hnames.filterMap fun name name' s hs hs' => ?_
    rw [← (lastSpot_eq_some hs).2, ← (lastSpot_eq_some hs').2]
  rw [hmap]
  refine (List.perm_ext_iff_of_nodup hnodup (nodup_keptSpots t spots).of_map).mpr fun s => ?_
  rw [mem_keptSpots, ← any_fieldsOf, List.any_eq_true]
  simp only [List.mem_filterMap, List.mem_map, decide_eq_true_eq]
  constructor
  · rintro ⟨name, ⟨f, hf, rfl⟩, hs⟩
    obtain ⟨-, hname⟩ := lastSpot_eq_some hs
    rw [hname]
    exact ⟨⟨f, hf, rfl⟩, hs⟩
  · rintro ⟨⟨f, hf, hname⟩, hs⟩
    exact ⟨s.name, ⟨f, hf, hname⟩, hs⟩

theorem perm_docReport (t : τ) (path : List KeyStep) (report : Spot → List (Nat × String))
    (spots : List Spot) :
    (docReport T t path report spots).Perm
      (spots.flatMap (ownUnknown T t path) ++ (keptSpots T t spots).flatMap report) := by
  induction spots with
  | nil => exact .nil
  | cons s spots ih =>
    rw [docReport, List.flatMap_cons, keptSpots, List.append_assoc]
    refine List.Perm.append_left _ ?_
    split
    · rw [List.flatMap_cons]
      have hswap := List.perm_append_comm_assoc (report s)
        (spots.flatMap (ownUnknown T t path)) ((keptSpots T t spots).flatMap report)
      exact (ih.append_left (report s)).trans hswap
    · exact ih

/-- What a member reports, of its key or of its value, lies in its value. -/
theorem ownUnknown_spec (t : τ) (path : List KeyStep) (s : Spot) (hpos : s.start < s.stop) :
    (ownUnknown T t path s).Pairwise (·.1 < ·.1) ∧
      (∀ u ∈ ownUnknown T t path s, s.start ≤ u.1 ∧ u.1 < s.stop) ∧
      ((T.shapeOf t s.name).isSome = true → ownUnknown T t path s = []) := by
  rw [ownUnknown]
  split
  · exact ⟨.nil, fun u hu => absurd hu List.not_mem_nil, fun _ => rfl⟩
  · rename_i hunknown
    refine ⟨List.pairwise_singleton _ _, List.forall_mem_singleton.mpr ⟨Nat.le_refl _, hpos⟩,
      fun hknown => absurd (.inl hknown) hunknown⟩

/-- The report is sorted where each kept member reports inside its value. -/
theorem pairwise_docReport {t : τ} (path : List KeyStep) {report : Spot → List (Nat × String)}
    {spots : List Spot} (horder : spots.Pairwise fun s s' => s.stop ≤ s'.start)
    (hpos : ∀ s ∈ spots, s.start < s.stop)
    (hsorted : ∀ s ∈ keptSpots T t spots, (report s).Pairwise (·.1 < ·.1))
    (hrange : ∀ s ∈ keptSpots T t spots, ∀ u ∈ report s, s.start ≤ u.1 ∧ u.1 < s.stop) :
    (docReport T t path report spots).Pairwise (·.1 < ·.1) ∧
      ∀ u ∈ docReport T t path report spots, ∃ s ∈ spots, s.start ≤ u.1 ∧ u.1 < s.stop := by
  induction spots with
  | nil => exact ⟨.nil, fun u hu => absurd hu List.not_mem_nil⟩
  | cons s spots ih =>
    rw [List.pairwise_cons] at horder
    rw [List.forall_mem_cons] at hpos
    obtain ⟨hown, hownRange, hownNil⟩ := ownUnknown_spec (T := T) t path s hpos.1
    obtain ⟨hdoc, hdocRange⟩ := ih horder.2 hpos.2 (fun s' hs' => hsorted s' (mem_keptSpots_cons s hs'))
      fun s' hs' => hrange s' (mem_keptSpots_cons s hs')
    -- What this member reports comes before what the later ones report.
    have hpart : ∀ part : List (Nat × String), part.Pairwise (·.1 < ·.1) →
        (∀ u ∈ part, s.start ≤ u.1 ∧ u.1 < s.stop) →
        (part ++ docReport T t path report spots).Pairwise (·.1 < ·.1) ∧
          ∀ u ∈ part ++ docReport T t path report spots,
            ∃ s' ∈ s :: spots, s'.start ≤ u.1 ∧ u.1 < s'.stop := by
      intro part hpart hpartRange
      refine ⟨List.pairwise_append.mpr ⟨hpart, hdoc, fun u hu v hv => ?_⟩, fun u hu => ?_⟩
      · obtain ⟨s', hs', hle, -⟩ := hdocRange v hv
        have hlt := (hpartRange u hu).2
        have hstop := horder.1 s' hs'
        omega
      · rcases List.mem_append.mp hu with hu | hu
        · exact ⟨s, List.mem_cons_self, hpartRange u hu⟩
        · obtain ⟨s', hs', hle⟩ := hdocRange u hu
          exact ⟨s', List.mem_cons_of_mem s hs', hle⟩
    rw [docReport]
    split
    · rename_i hkeep
      have hmem : s ∈ keptSpots T t (s :: spots) := by
        rw [keptSpots, if_pos hkeep]
        exact List.mem_cons_self
      rw [hownNil hkeep.1, List.nil_append]
      exact hpart (report s) (hsorted s hmem) (hrange s hmem)
    · rw [List.nil_append]
      exact hpart _ hown hownRange

theorem map_docReport {t : τ} {path : List KeyStep} {report : Spot → List (Nat × String)}
    {spots : List Spot}
    (hpaths : ∀ s ∈ keptSpots T t spots, ∀ shape, T.shapeOf t s.name = some shape →
      (report s).map Prod.snd = unknownKeys T shape (path ++ [.key s.name]) s.member.2) :
    (docReport T t path report spots).map Prod.snd =
      unknownMembers T t path (spots.map Spot.member) := by
  induction spots with
  | nil => rfl
  | cons s spots ih =>
    have hrest := ih fun s' hs' => hpaths s' (mem_keptSpots_cons s hs')
    have hany : (spots.map Spot.member).any (bodyText ·.1 = bodyText s.member.1) =
        spots.any (·.name = s.name) := by
      rw [List.any_map]
      rfl
    rw [docReport, List.map_append, List.map_append, hrest, List.map_cons, unknownMembers, hany]
    rw [← List.append_assoc]
    congr 1
    cases hshape : T.shapeOf t s.name with
    | none =>
      have hshape' : T.shapeOf t (bodyText s.member.1) = none := hshape
      rw [hshape', ownUnknown, hshape]
      simp only [Option.isSome_none, Bool.false_eq_true, false_or, false_and, if_false,
        List.map_nil, List.append_nil]
      split
      · rename_i hignored
        exact (if_pos hignored).symm
      · rename_i hignored
        exact (if_neg hignored).symm
    | some shape =>
      have hshape' : T.shapeOf t (bodyText s.member.1) = some shape := hshape
      rw [hshape', ownUnknown, hshape]
      simp only [Option.isSome_some, true_or, true_and, if_true, List.map_nil, List.nil_append]
      by_cases hlater : spots.any (·.name = s.name) = true
      · rw [if_pos hlater, if_neg (by rw [hlater]; decide)]
        rfl
      · rw [if_neg hlater, if_pos (Bool.not_eq_true _ ▸ hlater)]
        refine hpaths s ?_ shape hshape
        rw [keptSpots, if_pos ⟨by rw [hshape]; rfl, Bool.not_eq_true _ ▸ hlater⟩]
        exact List.mem_cons_self

/-! ## Values -/

theorem lookup_of_mem {β : Type} {l : List (String × β)} (hnodup : (l.map Prod.fst).Nodup)
    {f : String × β} (hf : f ∈ l) : l.lookup f.1 = some f.2 := by
  induction l with
  | nil => exact absurd hf List.not_mem_nil
  | cons g l ih =>
    rw [List.map_cons, List.nodup_cons] at hnodup
    rw [List.lookup_cons]
    rcases List.mem_cons.mp hf with rfl | hf
    · rw [beq_self_eq_true]
    · have hne : (f.1 == g.1) = false := by
        refine beq_eq_false_iff_ne.mpr fun heq => hnodup.1 ?_
        rw [← heq]
        exact List.mem_map_of_mem hf
      rw [hne]
      exact ih hnodup.2 hf

/-- Each field has its own member. -/
theorem lastMember_fieldsOf (hT : T.Wf) {t : τ} {f : String × Shape τ} (hf : f ∈ T.fields t)
    (g : String × Shape τ → Option Json) :
    lastMember f.1 (fieldMembers (T.fieldsOf t) g) = g f := by
  have hplain : ∀ f ∈ T.fieldsOf t, bodyText f.1.toList = f.1 := fun f hf =>
    hT.bodyText_name ((List.mem_insertionSort _).mp hf)
  have hnodup : ((T.fieldsOf t).map Prod.fst).Nodup :=
    ((List.perm_insertionSort _ (T.fields t)).map Prod.fst).nodup_iff.mpr (hT.names t)
  exact lastMember_fieldMembers hplain hnodup ((List.mem_insertionSort _).mpr hf)

theorem object_spec (hT : T.Wf) {value : Nat → Shape τ → List KeyStep → Option Output}
    {depth : Nat} (bound : Nat)
    (hvalue : ∀ i e j shape path, Placed data ends depth i e j → e ≤ i + bound →
      Filters T (value i shape path) shape path depth i e j)
    {i : Nat} {t : τ} {path : List KeyStep} {members : List Member} {text rest : List Char}
    (hlist : Listed (WrittenMember (Written (Entry ends) depth)) '}' (i + 1) members text)
    (hbound : text.length ≤ bound) (h : data.drop i = '{' :: (text ++ rest)) :
    Filters T (object data T ends value i t path) (.struct t) path (depth + 1) i
      (i + (text.length + 1)) (.object members) := by
  have hdrop : data.drop (i + 1) = text ++ rest := drop_of_drop (w := ['{']) h
  have hlength := length_of_drop (w := '{' :: text) h (List.cons_ne_nil _ _)
  rw [List.length_cons] at hlength
  have hmembers := hlist.length_le
  obtain ⟨spots, hspots, hread⟩ := readMembers_spec T t path hlist hdrop
    (by omega : members.length < data.length + 1)
  have : Nonempty Json := ⟨.null⟩
  have hkept : ∀ s ∈ keptSpots T t spots, ∃ j' report doc, ∀ shape,
      T.shapeOf t s.name = some shape →
      value s.start shape (path ++ [.key s.name]) = some (JsonText.print j', report) ∧
        WellFormed depth j' ∧ Writes T shape (purge T shape s.member.2) j' ∧
        report.Perm doc ∧ doc.Pairwise (·.1 < ·.1) ∧
        (∀ u ∈ doc, s.start ≤ u.1 ∧ u.1 < s.stop) ∧
        doc.map Prod.snd = unknownKeys T shape (path ++ [.key s.name]) s.member.2 := by
    intro s hs
    obtain ⟨hknown, hlast⟩ := mem_keptSpots.mp hs
    obtain ⟨shape, hshape⟩ := Option.isSome_iff_exists.mp hknown
    obtain ⟨hmem, -⟩ := lastSpot_eq_some hlast
    have hrange := hspots.range s hmem
    obtain ⟨j', report, hout, hwf, hwrites, doc, hperm, hsorted, hin, hpaths⟩ :=
      hvalue _ _ _ shape (path ++ [.key s.name]) (hspots.placed s hmem) (by omega)
    refine ⟨j', report, doc, fun shape' hshape' => ?_⟩
    rw [hshape, Option.some.injEq] at hshape'
    subst hshape'
    exact ⟨hout, hwf, hwrites, hperm, hsorted, hin, hpaths⟩
  choose! result report doc hresult using hkept
  have hfield : ∀ f ∈ T.fields t, ∀ s, lastSpot f.1 spots = some s →
      s ∈ keptSpots T t spots ∧ T.shapeOf t s.name = some f.2 ∧ s.name = f.1 := by
    intro f hf s hs
    obtain ⟨-, hname⟩ := lastSpot_eq_some hs
    have hshape : T.shapeOf t f.1 = some f.2 := lookup_of_mem (hT.names t) hf
    rw [hname, mem_keptSpots, hname, hshape]
    exact ⟨⟨rfl, hs⟩, rfl, rfl⟩
  have hsub : ∀ {f}, f ∈ T.fieldsOf t → f ∈ T.fields t := fun hf => (List.mem_insertionSort _).mp hf
  have hwrite : writeFields value (spots.foldl (keepLast T t) ∅) path true (T.fieldsOf t) =
      some (joined false ((fieldMembers (T.fieldsOf t) fun f =>
          (lastSpot f.1 spots).map result).map JsonText.printMember),
        ((T.fieldsOf t).filterMap fun f => lastSpot f.1 spots).flatMap report) := by
    refine writeFields_eq (fun f hf => ?_) (fun f hf s hs => ?_) true
    · have hshape : T.shapeOf t f.1 = some f.2 := lookup_of_mem (hT.names t) (hsub hf)
      rw [lookup_keepLast (by rw [hshape]; rfl), AList.lookup_empty, Option.or_none]
    · obtain ⟨hkept, hshape, hname⟩ := hfield f (hsub hf) s hs
      have hout := (hresult s hkept f.2 hshape).1
      rw [hname] at hout
      exact hout
  have hbody : ∀ f ∈ T.fields t, IsBody f.1.toList := fun f hf =>
    JsonText.isBody_plain (hT.plain t f hf)
  have hpurged : ∀ f ∈ T.fields t, lastMember f.1 (purgeMembers T t members) =
      (lastSpot f.1 spots).map fun s => purge T f.2 s.member.2 := by
    intro f hf
    rw [lastMember_purge T t (lookup_of_mem (hT.names t) hf), ← hspots.members, lastMember_spots,
      Option.map_map]
    rfl
  have hshapes : ∀ s ∈ keptSpots T t spots, ∃ shape, T.shapeOf t s.name = some shape :=
    fun s hs => Option.isSome_iff_exists.mp (mem_keptSpots.mp hs).1
  have hdocs := pairwise_docReport path hspots.order
    (fun s hs => (hspots.range s hs).2.1)
    (fun s hs => by
      obtain ⟨shape, hshape⟩ := hshapes s hs
      exact (hresult s hs shape hshape).2.2.2.2.1)
    fun s hs => by
      obtain ⟨shape, hshape⟩ := hshapes s hs
      exact (hresult s hs shape hshape).2.2.2.2.2.1
  refine ⟨.object (fieldMembers (T.fieldsOf t) fun f => (lastSpot f.1 spots).map result),
    spots.flatMap (ownUnknown T t path) ++
      ((T.fieldsOf t).filterMap fun f => lastSpot f.1 spots).flatMap report, ?_, ?_, ?_,
    docReport T t path doc spots, ?_, ?_, ?_, ?_⟩
  · rw [object, hread]
    simp only [bind, Option.bind, pure]
    rw [hwrite, JsonText.print, JsonText.printMembers_eq_map, joined_false]
  · refine .object (fun m hm => ?_) fun m hm => ?_
    · obtain ⟨f, hf, hm⟩ := List.mem_filterMap.mp hm
      obtain ⟨v, -, rfl⟩ := Option.map_eq_some_iff.mp hm
      exact hbody f (hsub hf)
    · obtain ⟨f, hf, hm⟩ := List.mem_filterMap.mp hm
      obtain ⟨v, hv, rfl⟩ := Option.map_eq_some_iff.mp hm
      obtain ⟨s, hs, rfl⟩ := Option.map_eq_some_iff.mp hv
      obtain ⟨hkept, hshape, -⟩ := hfield f (hsub hf) s hs
      exact (hresult s hkept f.2 hshape).2.1
  · rw [purge]
    refine .struct (fun m hm => isSome_shapeOf_of_mem_purgeMembers T t hm) (fun f hf => ?_)
      fun f hf v v' hv hv' => ?_
    · rw [hpurged f hf, Option.isSome_map, Option.isSome_map]
    · rw [hpurged f hf] at hv
      obtain ⟨s, hs, rfl⟩ := Option.map_eq_some_iff.mp hv
      obtain ⟨s', hs', rfl⟩ := Option.map_eq_some_iff.mp hv'
      obtain rfl : s = s' := Option.some.inj (hs.symm.trans hs')
      obtain ⟨hkept, hshape, -⟩ := hfield f hf s hs
      exact (hresult s hkept f.2 hshape).2.2.1
  · refine List.Perm.trans ?_ (perm_docReport t path doc spots).symm
    refine List.Perm.append_left _ ((perm_keptSpots hT t spots).flatMap fun s hs => ?_)
    obtain ⟨shape, hshape⟩ := hshapes s ((perm_keptSpots hT t spots).mem_iff.mp hs)
    exact (hresult s ((perm_keptSpots hT t spots).mem_iff.mp hs) shape hshape).2.2.2.1
  · exact hdocs.1
  · intro u hu
    obtain ⟨s, hs, hle⟩ := hdocs.2 u hu
    have hrange := hspots.range s hs
    omega
  · rw [unknownKeys, ← hspots.members]
    exact map_docReport fun s hs shape hshape => (hresult s hs shape hshape).2.2.2.2.2.2

theorem writes_items {elem : Shape τ} {items items' : List Json}
    (h : List.Forall₂ (Writes T elem) items items') :
    Writes T (.slice elem) (.array items) (.array items') := by
  refine .slice h.length_eq fun i v v' hv hv' => ?_
  obtain ⟨hi, rfl⟩ := List.getElem?_eq_some_iff.mp hv
  obtain ⟨hi', rfl⟩ := List.getElem?_eq_some_iff.mp hv'
  exact (List.forall₂_iff_get.mp h).2 i hi hi'

theorem array_spec {value : Nat → Shape τ → List KeyStep → Option Output} {depth : Nat}
    (bound : Nat) {elem : Shape τ}
    (hvalue : ∀ i e j path, Placed data ends depth i e j → e ≤ i + bound →
      Filters T (value i elem path) elem path depth i e j)
    {i : Nat} {path : List KeyStep} {items : List Json} {text rest : List Char}
    (hlist : Listed (Written (Entry ends) depth) ']' (i + 1) items text)
    (hbound : text.length ≤ bound) (h : data.drop i = '[' :: (text ++ rest)) :
    Filters T (array data ends value i elem path) (.slice elem) path (depth + 1) i
      (i + (text.length + 1)) (.array items) := by
  have hdrop : data.drop (i + 1) = text ++ rest := drop_of_drop (w := ['[']) h
  have hlength := length_of_drop (w := '[' :: text) h (List.cons_ne_nil _ _)
  rw [List.length_cons] at hlength
  have hitems := hlist.length_le
  obtain ⟨items', unknown, hwrite, hwf, hwrites, hfound⟩ := writeItems_spec hvalue hlist hbound hdrop
    (by omega : items.length < data.length + 1) 0
  refine ⟨.array items', unknown, ?_, .array hwf, ?_, ?_⟩
  · rw [array, hwrite]
    simp only [bind, Option.bind, pure, ne_eq, not_true_eq_false, decide_false]
    rw [joined_false, JsonText.print, JsonText.printItems_eq_map]
  · rw [purge]
    exact writes_items hwrites
  · rw [unknownKeys]
    exact hfound.mono (by omega) (by omega)

theorem compactValue_eq {depth i e : Nat} {j : Json} (hdepth : depth ≤ JsonText.maxDepth)
    (h : Placed data ends depth i e j) :
    compactValue data ends i = some (JsonText.print j, []) := by
  obtain ⟨w, rest, hw, hdrop, hstops, rfl⟩ := h
  obtain ⟨c, cs, rfl, -⟩ := opens_written hw
  have htree := hw.tree hdepth
  rw [compactValue, valueEnd_eq hw hstops hdrop]
  simp only [bind, Option.bind, pure]
  rw [slice_of_drop hdrop (List.cons_ne_nil c cs)]
  simp only [JsonText.compactText, htree, Option.map_some, Option.getD_some, String.toList_ofList]

theorem filters_compactValue {depth i e : Nat} {j : Json} (hdepth : depth ≤ JsonText.maxDepth)
    (h : Placed data ends depth i e j) {shape : Shape τ} {path : List KeyStep}
    (hclosed : shape.opens j = false) (hpurge : purge T shape j = j)
    (hunknown : unknownKeys T shape path j = []) :
    Filters T (compactValue data ends i) shape path depth i e j := by
  obtain ⟨w, rest, hw, -⟩ := id h
  refine ⟨j, [], compactValue_eq hdepth h, hw.wellFormed, ?_, ?_⟩
  · rw [hpurge]
    exact .same hclosed
  · rw [hunknown]
    exact found_nil i e

/-- A value without parts begins with no bracket. -/
theorem scalar_head {j : Json} (hj : WellFormed 0 j) {c : Char} {cs : List Char}
    (h : JsonText.print j = c :: cs) : c ≠ '{' ∧ c ≠ '[' := by
  cases hj with
  | null =>
    obtain ⟨rfl, -⟩ := List.cons.inj h
    decide
  | bool _ b =>
    cases b with
    | true =>
      obtain ⟨rfl, -⟩ := List.cons.inj h
      decide
    | false =>
      obtain ⟨rfl, -⟩ := List.cons.inj h
      decide
  | number hnumber hchars =>
    have hc := hchars c (by rw [JsonText.print] at h; rw [h]; exact List.mem_cons_self)
    constructor <;> rintro rfl <;> exact absurd hc (by decide)
  | string hbody =>
    obtain ⟨rfl, -⟩ := List.cons.inj h
    decide

theorem value_scalar {depth : Nat} (hdepth : depth ≤ JsonText.maxDepth) {i e : Nat} {j : Json}
    (hj : WellFormed 0 j) (h : Placed data ends depth i e j) (shape : Shape τ)
    (path : List KeyStep) (fuel : Nat) :
    Filters T (value data T ends (fuel + 1) i shape path) shape path depth i e j := by
  have hfilters : Filters T (compactValue data ends i) shape path depth i e j :=
    filters_compactValue hdepth h (by cases hj <;> cases shape <;> rfl) (by cases hj <;> rfl)
      (by cases hj <;> rfl)
  obtain ⟨w, rest, hw, hdrop, -, -⟩ := h
  obtain rfl := (JsonText.written_scalar hj depth i).mp hw
  obtain ⟨c, cs, hprint, -⟩ := hj.readBack.1
  obtain ⟨hbrace, hbracket⟩ := scalar_head hj hprint
  rw [value, getElem?_of_drop (by rw [hdrop, hprint]; rfl)]
  cases shape with
  | struct t =>
    simp only [if_neg hbrace]
    exact hfilters
  | slice elem =>
    simp only [if_neg hbracket]
    exact hfilters
  | other => exact hfilters

theorem value_spec (hT : T.Wf) {depth i e : Nat} (hdepth : depth ≤ JsonText.maxDepth) {j : Json}
    (h : Placed data ends depth i e j) (shape : Shape τ) (path : List KeyStep) {fuel : Nat}
    (hfuel : e < i + fuel) :
    Filters T (value data T ends fuel i shape path) shape path depth i e j := by
  induction depth generalizing i e j shape path fuel with
  | zero =>
    obtain ⟨w, rest, hw, hrest⟩ := id h
    have hj := hw.wellFormed
    obtain ⟨fuel, rfl⟩ : ∃ n, fuel = n + 1 := ⟨fuel - 1, by omega⟩
    exact value_scalar hdepth hj h shape path fuel
  | succ depth ih =>
    obtain ⟨w, rest, hw, hdrop, hstops, rfl⟩ := id h
    obtain ⟨fuel, rfl⟩ : ∃ n, fuel = n + 1 := ⟨fuel - 1, by omega⟩
    have hvalue : ∀ i e j shape path, Placed data ends depth i e j → e < i + fuel →
        Filters T (value data T ends fuel i shape path) shape path depth i e j :=
      fun i e j shape path hplaced hlt => ih (by omega) hplaced shape path hlt
    cases j with
    | object members =>
      obtain ⟨-, text, rfl, hlist⟩ := hw
      rw [List.length_cons] at hfuel h ⊢
      rw [value, getElem?_of_drop (by rw [hdrop]; rfl)]
      cases shape with
      | struct t =>
        simp only [if_true]
        exact object_spec hT (fuel - 1)
          (fun i e j shape path hplaced hle => hvalue i e j shape path hplaced (by omega))
          hlist (by omega) hdrop
      | slice elem =>
        simp only [Char.reduceEq, if_false]
        exact filters_compactValue hdepth h rfl rfl rfl
      | other => exact filters_compactValue hdepth h rfl rfl rfl
    | array items =>
      obtain ⟨-, text, rfl, hlist⟩ := hw
      rw [List.length_cons] at hfuel h ⊢
      rw [value, getElem?_of_drop (by rw [hdrop]; rfl)]
      cases shape with
      | slice elem =>
        simp only [if_true]
        exact array_spec (fuel - 1)
          (fun i e j path hplaced hle => hvalue i e j elem path hplaced (by omega))
          hlist (by omega) hdrop
      | struct t =>
        simp only [Char.reduceEq, if_false]
        exact filters_compactValue hdepth h rfl rfl rfl
      | other => exact filters_compactValue hdepth h rfl rfl rfl
    | null => exact value_scalar hdepth (.null 0) h shape path fuel
    | bool b => exact value_scalar hdepth (.bool 0 b) h shape path fuel
    | number text => exact value_scalar hdepth hw.1 h shape path fuel
    | string body => exact value_scalar hdepth hw.1 h shape path fuel

/-- On a valid text the filter runs to its end: it writes the purged value, and
    reports the unknown keys in the order of the text. -/
theorem run_spec (hT : T.Wf) {text : String} {j : Json} (h : JsonText.tree text = some j)
    (shape : Shape τ) :
    ∃ j', run text.toList T shape = some (JsonText.print j', unknownKeys T shape [] j) ∧
      WellFormed JsonText.maxDepth j' ∧ Writes T shape (purge T shape j) j' := by
  obtain ⟨ends, b, w, b', hends, hb, hb', htext, hw⟩ := exists_containerEnds h
  have hdrop : text.toList.drop 0 = b ++ (w ++ b') := htext
  have hskip : skipSpace text.toList 0 = b.length := by
    rw [skipSpace_of_drop hb (opens_head (opens_written hw)) hdrop, Nat.zero_add]
  have hvalue : text.toList.drop b.length = w ++ b' := by
    rw [htext, List.drop_left]
  have hstops : Stops b' := by
    have hblank := JsonText.stops_blank hb' (fun c hc => nomatch hc : Stops [])
    rwa [List.append_nil] at hblank
  have hlength : text.toList.length = b.length + w.length + b'.length := by
    rw [htext]
    simp only [List.length_append]
    omega
  obtain ⟨j', unknown, hout, hwf, hwrites, hfound⟩ := value_spec hT (Nat.le_refl _)
    ⟨w, b', hw, hvalue, hstops, rfl⟩ shape []
    (by omega : b.length + w.length < b.length + (text.toList.length + 1))
  refine ⟨j', ?_, hwf, hwrites⟩
  rw [run, hends]
  simp only [bind, Option.bind, pure, hskip]
  rw [hout]
  simp only [hfound.sorted]

end

end ExactFilter

end PolicyIr

end AuthzAgent
