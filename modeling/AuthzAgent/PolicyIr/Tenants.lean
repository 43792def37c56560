/-
  AuthzAgent.PolicyIr.Tenants

  Tenants do not interfere in `FromRegular`.

  The view of a tenant is whether it is known, and its record without the text
  of its error.  A step for another tenant, or for an orphan, leaves the view as
  it is, and a step for the tenant changes it by the element only: the position
  of the element among all elements is read by the text of an error alone.  So
  the view after the passes is a run over the tenant's own elements
  (`view_readAll`), and the outcome of the tenant is read off its view.
-/

import AuthzAgent.Lib.Runs
import AuthzAgent.PolicyIr.Export

namespace AuthzAgent.PolicyIr

/-! ## Views -/

/-- A record without the text of its error. -/
def Tenant.blur (t : Tenant) : Tenant :=
  { t with err := t.err.map fun _ => .decode 0 .wrongType }

/-- What there is of a tenant: whether it is in the order, and its record. -/
structure View where
  known : Bool
  tenant : Option Tenant

/-- The view of a tenant. -/
def Reading.view (T : String) (st : Reading) : View :=
  ⟨decide (T ∈ st.order), (st.tenants.lookup T).map Tenant.blur⟩

def View.record (v : View) : Tenant := v.tenant.getD {}

/-- `Reading.open_`, for the tenant of the view. -/
def View.open_ (v : View) : View :=
  match v.tenant with
  | some _ => v
  | none => ⟨true, some {}⟩

def View.update (v : View) (f : Tenant → Tenant) : View := ⟨v.known, some (f v.record).blur⟩

theorem Tenant.blur_blur (t : Tenant) : t.blur.blur = t.blur := by
  simp only [blur, Option.map_map]
  rfl

theorem Tenant.isSome_err_blur (t : Tenant) : t.blur.err.isSome = t.err.isSome :=
  Option.isSome_map

theorem record_view (T : String) (st : Reading) :
    (st.view T).record = (st.tenants.getD T {}).blur := by
  rw [View.record, Reading.view, Dict.getD]
  cases st.tenants.lookup T with
  | none => rfl
  | some t => rfl

theorem view_open (T : String) (st : Reading) : (st.open_ T).view T = (st.view T).open_ := by
  rw [Reading.open_, Reading.view, View.open_]
  cases h : st.tenants.lookup T with
  | none => simp [Reading.view, h, Tenant.blur]
  | some t => simp [Reading.view, h]

theorem view_open_ne {T tenant : String} (h : T ≠ tenant) (st : Reading) :
    (st.open_ tenant).view T = st.view T := by
  rw [Reading.open_]
  cases st.tenants.lookup tenant with
  | none => simp [Reading.view, h, AList.lookup_insert_ne h]
  | some t => rfl

/-- A change of the record that the text of an error has no part in. -/
def Blurs (f f' : Tenant → Tenant) : Prop := ∀ t, (f t).blur = (f' t.blur).blur

theorem view_update {T : String} {f f' : Tenant → Tenant} (hf : Blurs f f') (st : Reading)
    (lines : Tenant → List String) :
    (st.update T f lines).view T = (st.view T).update f' := by
  rw [View.update, record_view, ← hf, Reading.update, Reading.view]
  simp [Reading.view, AList.lookup_insert]

theorem view_update_ne {T tenant : String} (h : T ≠ tenant) (st : Reading)
    (f : Tenant → Tenant) (lines : Tenant → List String) :
    (st.update tenant f lines).view T = st.view T := by
  rw [Reading.update, Reading.view, Reading.view]
  simp [AList.lookup_insert_ne h]

/-! ## Steps -/

/-- A change may be looked at where there is an error, and where there is none. -/
theorem blurs_of_cases {f f' : Tenant → Tenant}
    (herr : ∀ t, t.err.isSome = true → f t = t ∧ f' t = t)
    (hnone : ∀ t, t.err = none → (f t).blur = (f' t).blur) : Blurs f f' := by
  intro t
  cases ht : t.err with
  | some e =>
    have hsome : t.err.isSome = true := by rw [ht]; rfl
    rw [(herr t hsome).1, (herr t.blur (t.isSome_err_blur ▸ hsome)).2, t.blur_blur]
  | none =>
    have hblur : t.blur = t := by
      rw [Tenant.blur, ht, Option.map_none, ← ht]
    rw [hblur, hnone t ht]

theorem blurs_countSet (head : ExportHead) :
    Blurs (Tenant.countSet head) (Tenant.countSet head) := by
  intro t
  have hcomm : Tenant.countSet head t.blur = (Tenant.countSet head t).blur := rfl
  rw [hcomm, Tenant.blur_blur]

section

variable (W : ReaderWords)

theorem blurs_addSet (T raw : String) (i : Nat) :
    Blurs (Tenant.addSet W T i raw) (Tenant.addSet W T 0 raw) := by
  refine blurs_of_cases (fun t ht => ?_) fun t ht => ?_
  · exact ⟨if_pos (.inl ht), if_pos (.inl ht)⟩
  · rw [Tenant.addSet, Tenant.addSet]
    split
    · rfl
    · cases decode .set raw with
      | error e => rfl
      | ok s => rfl

theorem blurs_addPIP (raw : String) (i : Nat) :
    Blurs (Tenant.addPIP i raw) (Tenant.addPIP 0 raw) := by
  refine blurs_of_cases (fun t ht => ?_) fun t ht => ?_
  · exact ⟨if_pos ht, if_pos ht⟩
  · rw [Tenant.addPIP, Tenant.addPIP]
    split
    · rfl
    · cases readPIP raw with
      | error e => rfl
      | ok p => rfl

/-! ## Passes -/

/-- An element as its tenant sees it. -/
def ownElement (T : String) (raw : String × Nat) : Option String :=
  if (readHead raw.1).tenant = some T then some raw.1 else none

/-- A round of the passes, for the tenant of the view. -/
def View.countSet (v : View) (raw : String) : View :=
  v.open_.update (Tenant.countSet (readHead raw))

def View.addSet (T : String) (v : View) (raw : String) : View := v.update (Tenant.addSet W T 0 raw)

def View.addPIP (v : View) (raw : String) : View := v.open_.update (Tenant.addPIP 0 raw)

theorem view_countSet (T : String) (st : Reading) (raw : String × Nat) :
    (st.countSet raw).view T =
      (ownElement T raw).elim (st.view T) (View.countSet (st.view T)) := by
  rw [Reading.countSet, ownElement]
  cases htenant : (readHead raw.1).tenant with
  | none => rfl
  | some tenant =>
    by_cases hT : T = tenant
    · subst hT
      rw [if_pos rfl, Option.elim_some, View.countSet, ← view_open]
      exact view_update (blurs_countSet _) _ _
    · rw [if_neg fun h => hT (Option.some.inj h).symm, Option.elim_none]
      exact (view_update_ne hT _ _ _).trans (view_open_ne hT st)

theorem view_addSet (T : String) (st : Reading) (raw : String × Nat) :
    (st.addSet W raw).view T =
      (ownElement T raw).elim (st.view T) (View.addSet W T (st.view T)) := by
  rw [Reading.addSet, ownElement]
  cases htenant : (readHead raw.1).tenant with
  | none => rfl
  | some tenant =>
    by_cases hT : T = tenant
    · subst hT
      rw [if_pos rfl, Option.elim_some, View.addSet]
      exact view_update (blurs_addSet W T raw.1 raw.2) _ _
    · rw [if_neg fun h => hT (Option.some.inj h).symm, Option.elim_none]
      exact view_update_ne hT _ _ _

theorem view_addPIP (T : String) (st : Reading) (raw : String × Nat) :
    (st.addPIP W raw).view T =
      (ownElement T raw).elim (st.view T) (View.addPIP (st.view T)) := by
  rw [Reading.addPIP, ownElement]
  cases htenant : (readHead raw.1).tenant with
  | none => rfl
  | some tenant =>
    by_cases hT : T = tenant
    · subst hT
      rw [if_pos rfl, Option.elim_some, View.addPIP, ← view_open]
      exact view_update (blurs_addPIP raw.1 raw.2) _ _
    · rw [if_neg fun h => hT (Option.some.inj h).symm, Option.elim_none]
      exact (view_update_ne hT _ _ _).trans (view_open_ne hT st)

/-- The elements that name a tenant. -/
def elementsOf (T : String) (raws : List String) : List String :=
  raws.filter fun raw => (readHead raw).tenantID = some T

/-- The elements of a tenant; an empty ID names none. -/
def tenantElements (T : String) (raws : List String) : List String :=
  if T = "" then [] else elementsOf T raws

theorem filterMap_ownElement (T : String) (raws : List String) :
    raws.zipIdx.filterMap (ownElement T) = tenantElements T raws := by
  have hown : ∀ raw : String,
      ((readHead raw).tenant = some T) ↔ T ≠ "" ∧ (readHead raw).tenantID = some T := by
    intro raw
    rw [ExportHead.tenant, Option.filter_eq_some_iff, and_comm, decide_eq_true_eq]
  have hfst : ∀ l : List (String × Nat), l.filterMap (ownElement T) =
      (l.map Prod.fst).filter fun raw => (readHead raw).tenant = some T := by
    intro l
    rw [List.filter_map, ← List.filterMap_eq_map, List.filterMap_filter]
    apply List.filterMap_congr
    intro raw _
    by_cases h : (readHead raw.1).tenant = some T <;> simp [ownElement, h]
  rw [hfst, List.zipIdx_map_fst, tenantElements]
  by_cases hT : T = ""
  · rw [if_pos hT, List.filter_eq_nil_iff]
    intro raw _ h
    exact ((hown raw).1 (of_decide_eq_true h)).1 hT
  · rw [if_neg hT, elementsOf]
    apply List.filter_congr
    intro raw _
    rw [decide_eq_decide, hown raw]
    exact and_iff_right hT

/-- The passes over the elements of one tenant. -/
def View.readAll (T : String) (sets pips : List String) : View :=
  let v := sets.foldl View.countSet ⟨false, none⟩
  let v := sets.foldl (View.addSet W T) v
  pips.foldl View.addPIP v

/-- A tenant's view of the passes is a run over its own elements. -/
theorem view_readAll (T : String) (sets pips : List String) :
    (readAll W sets pips).view T =
      View.readAll W T (tenantElements T sets) (tenantElements T pips) := by
  rw [readAll, Runs.foldl_view (view_addPIP W T), Runs.foldl_view (view_addSet W T),
    Runs.foldl_view (view_countSet T), filterMap_ownElement, filterMap_ownElement]
  rfl

/-! ## Outcomes -/

/-- The error of a tenant without a tree. -/
def Tenant.failure (t : Tenant) : Option TenantError :=
  match t.tree W with
  | .ok _ => none
  | .error e => some e

def View.tree (v : View) : Option Tree := if v.known then (v.record.tree W).toOption else none

/-- Whether a tenant with a view fails. -/
def View.fails (v : View) : Bool := v.known && (v.record.failure W).isSome

/-- A tree, or that there is none, with the text of the error left out. -/
theorem toOption_tree_blur (t : Tenant) : (t.blur.tree W).toOption = (t.tree W).toOption := by
  rw [Tenant.tree, Tenant.tree, Tenant.blur]
  cases h : t.err with
  | none => simp
  | some e => simp [Except.toOption]

theorem isSome_failure (t : Tenant) : (t.failure W).isSome = (t.tree W).toOption.isNone := by
  rw [Tenant.failure]
  cases t.tree W <;> rfl

theorem trees_foldl_add (T : String) (tenants : Dict Tenant) (order : List String)
    (out : Export) :
    (order.foldl (Export.add W tenants) out).trees.lookup T =
      (if T ∈ order then ((tenants.getD T {}).tree W).toOption else none).or
        (out.trees.lookup T) := by
  have hstep : ∀ (out : Export) (tenant : String), (out.add W tenants tenant).trees =
      Dict.insertSome out.trees tenant ((tenants.getD tenant {}).tree W).toOption := by
    intro out tenant
    rw [Export.add]
    cases (tenants.getD tenant {}).tree W <;> rfl
  rw [← Dict.lookup_foldl_keys fun k => ((tenants.getD k {}).tree W).toOption,
    List.foldl_hom Export.trees fun out k => (hstep out k).symm]

theorem failed_foldl_add (T : String) (tenants : Dict Tenant) (order : List String)
    (out : Export) :
    (order.foldl (Export.add W tenants) out).failed.lookup T =
      (if T ∈ order then (tenants.getD T {}).failure W else none).or (out.failed.lookup T) := by
  have hstep : ∀ (out : Export) (tenant : String), (out.add W tenants tenant).failed =
      Dict.insertSome out.failed tenant ((tenants.getD tenant {}).failure W) := by
    intro out tenant
    rw [Export.add, Tenant.failure]
    cases (tenants.getD tenant {}).tree W <;> rfl
  rw [← Dict.lookup_foldl_keys fun k => (tenants.getD k {}).failure W,
    List.foldl_hom Export.failed fun out k => (hstep out k).symm]

theorem exists_fromRegular {policySets pips : String} {sets decls : List String}
    (hsets : setElements policySets = .ok sets) (hpips : pipElements pips = .ok decls) :
    ∃ out, fromRegular W policySets pips = .ok out := by
  rw [fromRegular, hsets, hpips]
  exact ⟨_, rfl⟩

/-- What a tenant gets is a function of its own elements. -/
theorem lookup_fromRegular {policySets pips : String} {sets decls : List String} {out : Export}
    (hsets : setElements policySets = .ok sets) (hpips : pipElements pips = .ok decls)
    (h : fromRegular W policySets pips = .ok out) (T : String) :
    out.trees.lookup T =
        (View.readAll W T (tenantElements T sets) (tenantElements T decls)).tree W ∧
      (out.failed.lookup T).isSome =
        (View.readAll W T (tenantElements T sets) (tenantElements T decls)).fails W := by
  rw [fromRegular, hsets, hpips] at h
  cases h
  rw [trees_foldl_add, failed_foldl_add, AList.lookup_empty, AList.lookup_empty, Option.or_none,
    Option.or_none, ← view_readAll, View.tree, View.fails, record_view, isSome_failure,
    toOption_tree_blur, Reading.view]
  refine ⟨by simp only [decide_eq_true_eq], ?_⟩
  by_cases hT : T ∈ (readAll W sets decls).order
  · rw [if_pos hT, decide_eq_true hT, isSome_failure, Bool.true_and]
  · rw [if_neg hT, decide_eq_false hT, Bool.false_and]
    rfl

/-- Tenants do not interfere: two exports with the same elements of a tenant, at
    any positions and among any others, give it the same tree, or none, and fail
    it or not alike. -/
theorem fromRegular_noninterference {policySets policySets' pips pips' : String}
    {sets sets' decls decls' : List String} {out out' : Export}
    (hsets : setElements policySets = .ok sets) (hpips : pipElements pips = .ok decls)
    (h : fromRegular W policySets pips = .ok out)
    (hsets' : setElements policySets' = .ok sets') (hpips' : pipElements pips' = .ok decls')
    (h' : fromRegular W policySets' pips' = .ok out') (T : String)
    (hown : elementsOf T sets = elementsOf T sets')
    (hdecls : elementsOf T decls = elementsOf T decls') :
    out.trees.lookup T = out'.trees.lookup T ∧
      (out.failed.lookup T).isSome = (out'.failed.lookup T).isSome := by
  obtain ⟨htree, hfails⟩ := lookup_fromRegular W hsets hpips h T
  obtain ⟨htree', hfails'⟩ := lookup_fromRegular W hsets' hpips' h' T
  have hs : tenantElements T sets = tenantElements T sets' := by
    rw [tenantElements, tenantElements, hown]
  have hd : tenantElements T decls = tenantElements T decls' := by
    rw [tenantElements, tenantElements, hdecls]
  rw [htree, htree', hfails, hfails', hs, hd]
  exact ⟨rfl, rfl⟩

end

theorem fromRegular_noninterference_unknown_algorithm :
    ∃ out out',
      fromRegular ⟨⟨Char.isAlpha, Char.isDigit, fun _ => true⟩, fun _ => true⟩
        "\x7b\"policySets\":[\x7b\"tenantId\":\"b\",\"combiningAlgorithm\":\"X\"\x7d,\x7b\"tenantId\":\"a\"\x7d]\x7d"
        "\x7b\"pips\":[]\x7d" = .ok out ∧
      fromRegular ⟨⟨Char.isAlpha, Char.isDigit, fun _ => true⟩, fun _ => true⟩
        "\x7b\"policySets\":[\x7b\"tenantId\":\"a\"\x7d]\x7d" "\x7b\"pips\":[\x7b\x7d]\x7d" = .ok out' ∧
      out.trees.lookup "a" = out'.trees.lookup "a" ∧
      (out.failed.lookup "a").isSome = (out'.failed.lookup "a").isSome := by
  have hsets : setElements
      "\x7b\"policySets\":[\x7b\"tenantId\":\"b\",\"combiningAlgorithm\":\"X\"\x7d,\x7b\"tenantId\":\"a\"\x7d]\x7d" =
        .ok ["\x7b\"tenantId\":\"b\",\"combiningAlgorithm\":\"X\"\x7d", "\x7b\"tenantId\":\"a\"\x7d"] := by
    decide +kernel
  have hsets' : setElements "\x7b\"policySets\":[\x7b\"tenantId\":\"a\"\x7d]\x7d" =
      .ok ["\x7b\"tenantId\":\"a\"\x7d"] := by decide +kernel
  have hpips : pipElements "\x7b\"pips\":[]\x7d" = .ok [] := by decide +kernel
  have hpips' : pipElements "\x7b\"pips\":[\x7b\x7d]\x7d" = .ok ["\x7b\x7d"] := by decide +kernel
  obtain ⟨out, h⟩ := exists_fromRegular _ hsets hpips
  obtain ⟨out', h'⟩ := exists_fromRegular _ hsets' hpips'
  exact ⟨out, out', h, h', fromRegular_noninterference _ hsets hpips h hsets' hpips' h' "a"
    (by decide +kernel) (by decide +kernel)⟩

end AuthzAgent.PolicyIr
