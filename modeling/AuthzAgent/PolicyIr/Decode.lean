/-
  AuthzAgent.PolicyIr.Decode

  The export types and `decodeReporting` (export.go in policyir).

  `json.Unmarshal` fills a field with the member that has its name, or a name
  that differs from it in letter case and is that of no other field; null is the
  zero value, and any other type is an error.  Of several members for one field
  the last counts, whatever the ones before it leave in a struct or a map: the
  filter leaves one.  Which member an error names is left out, so there is one
  error for a wrong type.  A `json.RawMessage` is the value it holds.
-/

import AuthzAgent.Lib.Checked
import AuthzAgent.PolicyIr.Filtered

namespace AuthzAgent

open JsonText (Json bodyText)

namespace PolicyIr

/-! ## Types -/

/-- The struct types that the reader decodes into. -/
inductive ExportType where
  | setsDoc | pipsDoc | head | set | iterate | policy | rule | custom | pip
deriving DecidableEq

/-- The fields of the export types, and their `ignoredKeys`. -/
def exportTypes : Types ExportType where
  fields
    | .setsDoc => [("policySets", .slice .other)]
    | .pipsDoc => [("pips", .slice .other)]
    | .head => [("tenantId", .other), ("policySetId", .other), ("status", .other)]
    | .set => [("tenantId", .other), ("policySetId", .other), ("name", .other), ("type", .other),
        ("domain", .other), ("component", .other), ("status", .other), ("target", .other),
        ("combiningAlgorithm", .other), ("iterate", .struct .iterate),
        ("policies", .slice (.struct .policy)), ("policySets", .slice (.struct .set)),
        ("externalId", .other)]
    | .iterate => [("foreach", .other), ("combiningAlgorithm", .other)]
    | .policy => [("tenantId", .other), ("policyId", .other), ("name", .other), ("target", .other),
        ("combiningAlgorithm", .other), ("rules", .slice (.struct .rule))]
    | .rule => [("tenantId", .other), ("ruleId", .other), ("name", .other), ("ruleType", .other),
        ("target", .other), ("condition", .other), ("effect", .other), ("rsqlPredicate", .other),
        ("sqlPredicate", .other), ("mongodbPredicate", .other), ("predicate", .other),
        ("customPredicate", .struct .custom)]
    | .custom => [("predicate", .other), ("params", .other)]
    | .pip => [("tenantId", .other), ("name", .other), ("pipType", .other), ("type", .other),
        ("domain", .other), ("url", .other), ("httpMethod", .other), ("header", .other),
        ("claim", .other), ("beanName", .other), ("jsonPath", .other), ("resourceType", .other),
        ("defaultValue", .other), ("headers", .other), ("requestAttributes", .other),
        ("productMapping", .other), ("customMapping", .other), ("cacheable", .other),
        ("cachePeriod", .other), ("query", .other), ("body", .other), ("timeoutSeconds", .other),
        ("response", .other)]
  ignoredKeysOf
    | .set => ["description", "deprecated", "uiTarget", "previousStatus"]
    | .policy => ["description", "deprecated", "uiTarget"]
    | .rule => ["description", "deprecated", "uiTarget", "uiCondition"]
    | .pip => ["description", "deprecated"]
    | _ => []

structure ExportIterate where
  foreach : String
  combiningAlgorithm : String

structure ExportCustom where
  predicate : String
  params : Dict Json

structure ExportRule where
  tenantID : Option String
  ruleID : String
  name : String
  ruleType : String
  target : Option String
  condition : Option String
  effect : String
  rsqlPredicate : String
  sqlPredicate : String
  mongodbPredicate : String
  predicate : String
  customPredicate : Option ExportCustom

structure ExportPolicy where
  tenantID : Option String
  policyID : String
  name : String
  target : Option String
  combiningAlgorithm : String
  rules : List ExportRule

structure ExportSet where
  tenantID : Option String
  policySetID : String
  name : String
  type : String
  domain : String
  component : Option String
  status : String
  target : Option String
  combiningAlgorithm : String
  iterate : Option ExportIterate
  policies : List ExportPolicy
  policySets : List ExportSet
  externalID : String

structure ExportPIP where
  tenantID : Option String
  name : Option String
  pipType : String
  type : String
  domain : String
  url : String
  httpMethod : String
  header : String
  claim : String
  beanName : String
  jsonPath : String
  resourceType : String
  defaultValue : Option Json
  headers : Option Json
  requestAttributes : Dict Json
  productMapping : Option Json
  customMapping : Option Json
  cacheable : Option Json
  cachePeriod : Option Json
  query : Option Json
  body : Option Json
  timeoutSeconds : Option Json
  response : Option Json

/-- The fields that `readHead` decodes. -/
structure HeadFields where
  tenantID : Option Json
  policySetID : Option Json
  status : Option Json

/-! ## Unmarshalling -/

/-- What keeps a text from being decoded. -/
inductive DecodeError where
  | syntaxError
  | wrongType
deriving DecidableEq, Repr

/-- The results of decoding. -/
abbrev Decoded := Except DecodeError

def stringField : Option Json → Decoded String
  | none | some .null => .ok ""
  | some (.string body) => .ok (bodyText body)
  | some _ => .error .wrongType

/-- A field of type pointer to a string. -/
def stringPointer : Option Json → Decoded (Option String)
  | none | some .null => .ok none
  | some (.string body) => .ok (some (bodyText body))
  | some _ => .error .wrongType

def sliceField {α : Type} (item : Json → Decoded α) : Option Json → Decoded (List α)
  | none | some .null => .ok []
  | some (.array items) => items.mapM item
  | some _ => .error .wrongType

def pointerField {α : Type} (value : Json → Decoded α) : Option Json → Decoded (Option α)
  | none | some .null => .ok none
  | some j => (value j).map some

/-- A field that is a map to raw values; of a key written twice the last counts. -/
def rawMapField : Option Json → Decoded (Dict Json)
  | none | some .null => .ok ∅
  | some (.object members) => .ok (Dict.ofList (members.map fun m => (bodyText m.1, m.2)))
  | some _ => .error .wrongType

/-- Whether a key fills the field of a name.  A key that is the name of a field
    fills this one only. -/
def fills (t : ExportType) (name key : String) : Bool :=
  if (exportTypes.shapeOf t key).isSome then key == name else GoText.equalFold key name

/-- The member that fills a field. -/
def memberFor (t : ExportType) (members : List Member) (name : String) : Option Json :=
  (members.reverse.find? fun m => fills t name (bodyText m.1)).map Prod.snd

/-- A struct, from its members by name. -/
def structOf {α : Type} (t : ExportType) (fields : (String → Option Json) → Decoded α) :
    Json → Decoded α
  | .null => fields fun _ => none
  | .object members => fields (memberFor t members)
  | _ => .error .wrongType

def iterateFields (get : String → Option Json) : Decoded ExportIterate := do
  return {
    foreach := ← stringField (get "foreach")
    combiningAlgorithm := ← stringField (get "combiningAlgorithm") }

def customFields (get : String → Option Json) : Decoded ExportCustom := do
  return {
    predicate := ← stringField (get "predicate")
    params := ← rawMapField (get "params") }

def ruleFields (get : String → Option Json) : Decoded ExportRule := do
  return {
    tenantID := ← stringPointer (get "tenantId")
    ruleID := ← stringField (get "ruleId")
    name := ← stringField (get "name")
    ruleType := ← stringField (get "ruleType")
    target := ← stringPointer (get "target")
    condition := ← stringPointer (get "condition")
    effect := ← stringField (get "effect")
    rsqlPredicate := ← stringField (get "rsqlPredicate")
    sqlPredicate := ← stringField (get "sqlPredicate")
    mongodbPredicate := ← stringField (get "mongodbPredicate")
    predicate := ← stringField (get "predicate")
    customPredicate := ← pointerField (structOf .custom customFields) (get "customPredicate") }

def policyFields (get : String → Option Json) : Decoded ExportPolicy := do
  return {
    tenantID := ← stringPointer (get "tenantId")
    policyID := ← stringField (get "policyId")
    name := ← stringField (get "name")
    target := ← stringPointer (get "target")
    combiningAlgorithm := ← stringField (get "combiningAlgorithm")
    rules := ← sliceField (structOf .rule ruleFields) (get "rules") }

def setFields (get : String → Option Json) (sets : Decoded (List ExportSet)) :
    Decoded ExportSet := do
  return {
    tenantID := ← stringPointer (get "tenantId")
    policySetID := ← stringField (get "policySetId")
    name := ← stringField (get "name")
    type := ← stringField (get "type")
    domain := ← stringField (get "domain")
    component := ← stringPointer (get "component")
    status := ← stringField (get "status")
    target := ← stringPointer (get "target")
    combiningAlgorithm := ← stringField (get "combiningAlgorithm")
    iterate := ← pointerField (structOf .iterate iterateFields) (get "iterate")
    policies := ← sliceField (structOf .policy policyFields) (get "policies")
    policySets := ← sets
    externalID := ← stringField (get "externalId") }

mutual

def decodeSet : Json → Decoded ExportSet
  | .null => setFields (fun _ => none) (.ok [])
  | .object members => setFields (memberFor .set members) (decodeNested members)
  | _ => .error .wrongType

def decodeNested : List Member → Decoded (List ExportSet)
  | [] => .ok []
  | (key, value) :: members =>
    if fills .set "policySets" (bodyText key) = true ∧
        members.any (fun m => fills .set "policySets" (bodyText m.1)) = false then
      decodeSets value
    else decodeNested members

def decodeSets : Json → Decoded (List ExportSet)
  | .null => .ok []
  | .array items => decodeSetItems items
  | _ => .error .wrongType

def decodeSetItems : List Json → Decoded (List ExportSet)
  | [] => .ok []
  | item :: items => do
    let s ← decodeSet item
    let sets ← decodeSetItems items
    return s :: sets

end

def pipFields (get : String → Option Json) : Decoded ExportPIP := do
  return {
    tenantID := ← stringPointer (get "tenantId")
    name := ← stringPointer (get "name")
    pipType := ← stringField (get "pipType")
    type := ← stringField (get "type")
    domain := ← stringField (get "domain")
    url := ← stringField (get "url")
    httpMethod := ← stringField (get "httpMethod")
    header := ← stringField (get "header")
    claim := ← stringField (get "claim")
    beanName := ← stringField (get "beanName")
    jsonPath := ← stringField (get "jsonPath")
    resourceType := ← stringField (get "resourceType")
    defaultValue := get "defaultValue"
    headers := get "headers"
    requestAttributes := ← rawMapField (get "requestAttributes")
    productMapping := get "productMapping"
    customMapping := get "customMapping"
    cacheable := get "cacheable"
    cachePeriod := get "cachePeriod"
    query := get "query"
    body := get "body"
    timeoutSeconds := get "timeoutSeconds"
    response := get "response" }

def headFields (get : String → Option Json) : Decoded HeadFields :=
  .ok ⟨get "tenantId", get "policySetId", get "status"⟩

/-- The one array of a document; `none` where it is absent or null. -/
def arrayPointer : Option Json → Decoded (Option (List Json))
  | none | some .null => .ok none
  | some (.array items) => .ok (some items)
  | some _ => .error .wrongType

/-! ## `decodeReporting` -/

/-- The values that the reader decodes. -/
inductive Target where
  | setsDoc | pipsDoc | head | set | pip
deriving DecidableEq

namespace Target

def type : Target → ExportType
  | setsDoc => .setsDoc
  | pipsDoc => .pipsDoc
  | head => .head
  | set => .set
  | pip => .pip

/-- What a target holds once it is decoded. -/
def Val : Target → Type
  | setsDoc | pipsDoc => Option (List Json)
  | head => HeadFields
  | set => ExportSet
  | pip => ExportPIP

def unmarshal : (target : Target) → Json → Decoded target.Val
  | setsDoc => structOf .setsDoc fun get => arrayPointer (get "policySets")
  | pipsDoc => structOf .pipsDoc fun get => arrayPointer (get "pips")
  | head => structOf .head headFields
  | set => decodeSet
  | pip => structOf .pip pipFields

end Target

/-- `decodeReporting`, which is also `decodeExact`; `none` where an offset runs
    past the text. -/
def decodeReporting (target : Target) (data : String) :
    Option (Decoded (target.Val × List String)) :=
  match JsonText.tree data with
  | none => some (.error .syntaxError)
  | some _ =>
    match ExactFilter.run data.toList exportTypes (.struct target.type) with
    | none => none
    | some (out, unknown) =>
      match JsonText.tree (String.ofList out) with
      | none => some (.error .syntaxError)
      | some j => some ((target.unmarshal j).map (·, unknown))

/-! ## Decoders read the named members only -/

theorem exportTypes_wf : exportTypes.Wf := by
  have hplain : ∀ t, ((exportTypes.fields t).all fun f => f.1.toList.all fun c =>
      decide (c ≠ '"' ∧ c ≠ '\\' ∧ ¬ c.toNat < 32)) = true := by
    intro t
    cases t <;> rfl
  constructor
  · intro t
    cases t <;> decide
  · intro t f hf
    exact JsonText.forall_mem_of_all (List.all_eq_true.mp (hplain t) f hf)

/-- Two members that are absent together, and else one is written for the other. -/
def FieldWrites (shape : Shape ExportType) (o o' : Option Json) : Prop :=
  o.isSome = o'.isSome ∧
    ∀ v v', o = some v → o' = some v' → Writes exportTypes shape v v'

/-- A decoder for which a purged value and what is written for it are the same. -/
def Respects {α : Type} (shape : Shape ExportType) (decode : Json → Decoded α) : Prop :=
  ∀ j j', Writes exportTypes shape j j' → decode j = decode j'

/-- Where a value is written as it is, so is a member. -/
theorem FieldWrites.eq {shape : Shape ExportType}
    (hshape : ∀ j j', Writes exportTypes shape j j' → j = j') {o o' : Option Json}
    (h : FieldWrites shape o o') : o = o' := by
  obtain ⟨hsome, hvalue⟩ := h
  cases o with
  | none => cases o' with
      | none => rfl
      | some v' => cases hsome
  | some v => cases o' with
      | none => cases hsome
      | some v' => rw [hshape v v' (hvalue v v' rfl rfl)]

theorem eq_of_writes_other (j j' : Json) (h : Writes exportTypes .other j j') : j = j' := by
  cases h
  rfl

theorem eq_of_writes_slice (j j' : Json) (h : Writes exportTypes (.slice .other) j j') :
    j = j' := by
  cases h with
  | same => rfl
  | slice hlength hitem =>
    congr 1
    apply List.ext_getElem hlength
    intro i hi hi'
    exact eq_of_writes_other _ _
      (hitem i _ _ (List.getElem?_eq_getElem hi) (List.getElem?_eq_getElem hi'))

/-- Where the keys are names of fields, letter case does not matter. -/
theorem memberFor_eq_lastMember {t : ExportType} {members : List Member}
    (h : ∀ m ∈ members, (exportTypes.shapeOf t (bodyText m.1)).isSome = true) (name : String) :
    memberFor t members name = lastMember name members := by
  have hfind : ∀ l : List Member, (∀ m ∈ l, m ∈ members) →
      (l.find? fun m => fills t name (bodyText m.1)) = l.find? fun m => bodyText m.1 = name := by
    intro l
    induction l with
    | nil => exact fun _ => rfl
    | cons m l ih =>
      intro hl
      have hm : fills t name (bodyText m.1) = decide (bodyText m.1 = name) := by
        rw [fills, if_pos (h m (hl m List.mem_cons_self))]
        rfl
      rw [List.find?_cons, List.find?_cons, hm, ih fun m' hm' => hl m' (List.mem_cons_of_mem m hm')]
  rw [memberFor, lastMember, hfind _ fun m hm => List.mem_reverse.mp hm]

/-- The members of a struct before and after it is written. -/
theorem memberFor_writes {t : ExportType} {members : List Member}
    {g : String × Shape ExportType → Option Json}
    (hnamed : ∀ m ∈ members, (exportTypes.shapeOf t (bodyText m.1)).isSome = true)
    {f : String × Shape ExportType} (hf : f ∈ exportTypes.fields t) :
    memberFor t members f.1 = lastMember f.1 members ∧
      memberFor t (fieldMembers (exportTypes.fieldsOf t) g) f.1 = g f := by
  refine ⟨memberFor_eq_lastMember hnamed f.1, ?_⟩
  rw [memberFor_eq_lastMember, ExactFilter.lastMember_fieldsOf exportTypes_wf hf]
  intro m hm
  obtain ⟨f', hf', hm⟩ := List.mem_filterMap.mp hm
  obtain ⟨v, -, rfl⟩ := Option.map_eq_some_iff.mp hm
  have hfield := (List.mem_insertionSort _).mp hf'
  rw [exportTypes_wf.bodyText_name hfield, Types.shapeOf,
    ExactFilter.lookup_of_mem (exportTypes_wf.names t) hfield]
  rfl

theorem respects_structOf {α : Type} {t : ExportType}
    {fields : (String → Option Json) → Decoded α}
    (h : ∀ get get' : String → Option Json,
      (∀ f ∈ exportTypes.fields t, FieldWrites f.2 (get f.1) (get' f.1)) →
        fields get = fields get') :
    Respects (.struct t) (structOf t fields) := by
  intro j j' hwrites
  cases hwrites with
  | same => rfl
  | @struct _ members g hnamed hsome hvalue =>
    apply h
    intro f hf
    obtain ⟨hmember, hfield⟩ := memberFor_writes (g := g) hnamed hf
    rw [hmember, hfield]
    exact ⟨hsome f hf, hvalue f hf⟩

theorem mapM_eq_of_getElem? {α : Type} {item : Json → Decoded α} {items items' : List Json}
    (hlength : items.length = items'.length)
    (h : ∀ (i : Nat) v v', items[i]? = some v → items'[i]? = some v' → item v = item v') :
    items.mapM item = items'.mapM item := by
  have hmap : items.map item = items'.map item := by
    apply List.ext_getElem (by simpa using hlength)
    intro i hi hi'
    rw [List.length_map] at hi hi'
    rw [List.getElem_map, List.getElem_map]
    exact h i _ _ (List.getElem?_eq_getElem hi) (List.getElem?_eq_getElem hi')
  have hid : ∀ l : List Json, l.mapM item = (l.map item).mapM id := by
    intro l
    rw [List.mapM_map]
    rfl
  rw [hid, hid, hmap]

theorem sliceField_writes {α : Type} {elem : Shape ExportType} {item : Json → Decoded α}
    (hitem : Respects elem item) {o o' : Option Json} (h : FieldWrites (.slice elem) o o') :
    sliceField item o = sliceField item o' := by
  obtain ⟨hsome, hvalue⟩ := h
  cases o with
  | none => cases o' with
      | none => rfl
      | some v' => cases hsome
  | some v => cases o' with
      | none => cases hsome
      | some v' =>
        cases hvalue v v' rfl rfl with
        | same => rfl
        | slice hlength hwrite =>
          apply mapM_eq_of_getElem? hlength
          intro i w w' hw hw'
          exact hitem w w' (hwrite i w w' hw hw')

theorem pointerField_writes {α : Type} {t : ExportType} {value : Json → Decoded α}
    (hvalue : Respects (.struct t) value) {o o' : Option Json}
    (h : FieldWrites (.struct t) o o') : pointerField value o = pointerField value o' := by
  obtain ⟨hsome, hwrite⟩ := h
  cases o with
  | none => cases o' with
      | none => rfl
      | some v' => cases hsome
  | some v => cases o' with
      | none => cases hsome
      | some v' =>
        have hv := hvalue v v' (hwrite v v' rfl rfl)
        cases hwrite v v' rfl rfl with
        | same => rfl
        | struct => rw [pointerField, pointerField, hv] <;> simp

section

variable {get get' : String → Option Json} {t : ExportType}
  (h : ∀ f ∈ exportTypes.fields t, FieldWrites f.2 (get f.1) (get' f.1))

include h

/-- The members of a field that is decoded as it is. -/
theorem get_eq (name : String) (hname : (name, Shape.other) ∈ exportTypes.fields t) :
    get name = get' name :=
  FieldWrites.eq eq_of_writes_other (h (name, .other) hname)

end

theorem respects_iterate : Respects (.struct .iterate) (structOf .iterate iterateFields) := by
  apply respects_structOf
  intro get get' h
  rw [iterateFields, iterateFields, get_eq h "foreach" (by decide),
    get_eq h "combiningAlgorithm" (by decide)]

theorem respects_custom : Respects (.struct .custom) (structOf .custom customFields) := by
  apply respects_structOf
  intro get get' h
  rw [customFields, customFields, get_eq h "predicate" (by decide),
    get_eq h "params" (by decide)]

theorem respects_rule : Respects (.struct .rule) (structOf .rule ruleFields) := by
  apply respects_structOf
  intro get get' h
  have hcustom := pointerField_writes respects_custom (h ("customPredicate", .struct .custom)
    (by decide))
  rw [ruleFields, ruleFields, get_eq h "tenantId" (by decide), get_eq h "ruleId" (by decide),
    get_eq h "name" (by decide), get_eq h "ruleType" (by decide), get_eq h "target" (by decide),
    get_eq h "condition" (by decide), get_eq h "effect" (by decide),
    get_eq h "rsqlPredicate" (by decide), get_eq h "sqlPredicate" (by decide),
    get_eq h "mongodbPredicate" (by decide), get_eq h "predicate" (by decide), hcustom]

theorem respects_policy : Respects (.struct .policy) (structOf .policy policyFields) := by
  apply respects_structOf
  intro get get' h
  have hrules := sliceField_writes respects_rule (h ("rules", .slice (.struct .rule)) (by decide))
  rw [policyFields, policyFields, get_eq h "tenantId" (by decide), get_eq h "policyId" (by decide),
    get_eq h "name" (by decide), get_eq h "target" (by decide),
    get_eq h "combiningAlgorithm" (by decide), hrules]

theorem respects_pip : Respects (.struct .pip) (structOf .pip pipFields) := by
  apply respects_structOf
  intro get get' h
  have heq : ∀ f ∈ exportTypes.fields .pip, get f.1 = get' f.1 := by
    intro f hf
    have hother : f.2 = .other := by
      revert f
      decide
    exact FieldWrites.eq eq_of_writes_other (hother ▸ h f hf)
  simp only [exportTypes, List.forall_mem_cons] at heq
  simp only [pipFields, heq]

theorem respects_head : Respects (.struct .head) (structOf .head headFields) := by
  apply respects_structOf
  intro get get' h
  rw [headFields, headFields, get_eq h "tenantId" (by decide), get_eq h "policySetId" (by decide),
    get_eq h "status" (by decide)]

/-- The array of a document is read as it is. -/
theorem respects_array {t : ExportType} {name : String}
    (hname : (name, Shape.slice .other) ∈ exportTypes.fields t) :
    Respects (.struct t) (structOf t fun get => arrayPointer (get name)) := by
  apply respects_structOf
  intro get get' h
  rw [FieldWrites.eq eq_of_writes_slice (h _ hname)]

theorem decodeNested_eq (members : List Member) :
    decodeNested members = ((memberFor .set members "policySets").map decodeSets).getD (.ok []) := by
  induction members with
  | nil => rw [decodeNested]; rfl
  | cons m members ih =>
    obtain ⟨key, value⟩ := m
    rw [decodeNested, memberFor, List.reverse_cons, List.find?_append, Option.map_or]
    rw [ih, memberFor]
    by_cases hrest : (members.any fun m => fills .set "policySets" (bodyText m.1)) = false
    · have hnone : (members.reverse.find? fun m => fills .set "policySets" (bodyText m.1)) = none := by
        rw [List.find?_eq_none]
        intro m hm
        exact List.any_eq_false.mp hrest m (List.mem_reverse.mp hm)
      rw [hnone]
      cases hkey : fills .set "policySets" (bodyText key) with
      | true => simp [hrest, hkey]
      | false => simp [hkey]
    · rw [if_neg fun h => hrest h.2]
      obtain ⟨m, hm, hfills⟩ := List.any_eq_true.mp (Bool.not_eq_false _ ▸ hrest)
      cases hlast : members.reverse.find? fun m => fills .set "policySets" (bodyText m.1) with
      | none => exact absurd hfills (List.find?_eq_none.mp hlast m (List.mem_reverse.mpr hm))
      | some m' => rfl

theorem decodeSetItems_eq (items : List Json) : decodeSetItems items = items.mapM decodeSet := by
  induction items with
  | nil => rw [decodeSetItems]; rfl
  | cons item items ih => rw [decodeSetItems, List.mapM_cons, ih]

theorem decodeSets_eq (j : Json) : decodeSets j = sliceField decodeSet (some j) := by
  cases j with
  | array items => rw [decodeSets, decodeSetItems_eq]; rfl
  | _ => rw [decodeSets] <;> first | rfl | simp

theorem decodeSet_object (members : List Member) :
    decodeSet (.object members) = setFields (memberFor .set members)
      (sliceField decodeSet (memberFor .set members "policySets")) := by
  have hnested : decodeNested members =
      sliceField decodeSet (memberFor .set members "policySets") := by
    rw [decodeNested_eq]
    cases memberFor .set members "policySets" with
    | none => rfl
    | some v => exact decodeSets_eq v
  rw [decodeSet, hnested]

theorem setFields_writes {get get' : String → Option Json} (sets : Decoded (List ExportSet))
    (h : ∀ f ∈ exportTypes.fields .set, FieldWrites f.2 (get f.1) (get' f.1)) :
    setFields get sets = setFields get' sets := by
  have hiterate := pointerField_writes respects_iterate (h ("iterate", .struct .iterate)
    (by decide))
  have hpolicies := sliceField_writes respects_policy (h ("policies", .slice (.struct .policy))
    (by decide))
  rw [setFields, setFields, get_eq h "tenantId" (by decide), get_eq h "policySetId" (by decide),
    get_eq h "name" (by decide), get_eq h "type" (by decide), get_eq h "domain" (by decide),
    get_eq h "component" (by decide), get_eq h "status" (by decide), get_eq h "target" (by decide),
    get_eq h "combiningAlgorithm" (by decide), get_eq h "externalId" (by decide), hiterate,
    hpolicies]

/-- Sets nest, so the induction is on how a value is written: a set, or a slice of
    sets. -/
theorem decodeSet_writes {shape : Shape ExportType} {j j' : Json}
    (h : Writes exportTypes shape j j') :
    (shape = .struct .set → decodeSet j = decodeSet j') ∧
      (shape = .slice (.struct .set) →
        sliceField decodeSet (some j) = sliceField decodeSet (some j')) := by
  induction h with
  | same => exact ⟨fun _ => rfl, fun _ => rfl⟩
  | @struct t members g hnamed hsome hvalue ih =>
    refine ⟨fun ht => ?_, fun ht => (nomatch ht)⟩
    cases ht
    have hmem : ("policySets", Shape.slice (.struct .set)) ∈ exportTypes.fields .set := by decide
    have hnested : sliceField decodeSet (memberFor .set members "policySets") =
        sliceField decodeSet (memberFor .set (fieldMembers (exportTypes.fieldsOf .set) g)
          "policySets") := by
      obtain ⟨hmember, hfield⟩ := memberFor_writes (g := g) hnamed hmem
      rw [hmember, hfield]
      have hs := hsome _ hmem
      have hv := ih _ hmem
      revert hs hv
      cases lastMember "policySets" members with
      | none =>
        intro hs _
        rw [Option.isSome_eq_false_iff.1 hs.symm |> Option.isNone_iff_eq_none.1]
      | some v =>
        intro hs hv
        obtain ⟨v', hv'⟩ := Option.isSome_iff_exists.1 hs.symm
        rw [hv']
        exact (hv v v' rfl hv').2 rfl
    rw [decodeSet_object, decodeSet_object, hnested]
    refine setFields_writes _ fun f hf => ?_
    obtain ⟨hmember, hfield⟩ := memberFor_writes (g := g) hnamed hf
    rw [hmember, hfield]
    exact ⟨hsome f hf, hvalue f hf⟩
  | slice hlength hitem ih =>
    refine ⟨fun ht => (nomatch ht), fun ht => ?_⟩
    cases ht
    apply mapM_eq_of_getElem? hlength
    intro i v v' hv hv'
    exact (ih i v v' hv hv').1 rfl

theorem Target.respects (target : Target) : Respects (.struct target.type) target.unmarshal := by
  cases target with
  | setsDoc => exact respects_array (by decide)
  | pipsDoc => exact respects_array (by decide)
  | head => exact respects_head
  | set => exact fun j j' h => (decodeSet_writes h).1 rfl
  | pip => exact respects_pip

/-! ## The exact-key decoder -/

theorem decodeReporting_of_tree (target : Target) {data : String} {j : Json}
    (htree : JsonText.tree data = some j) :
    decodeReporting target data =
      some ((target.unmarshal (purge exportTypes (.struct target.type) j)).map
        (·, unknownKeys exportTypes (.struct target.type) [] j)) := by
  obtain ⟨j', hrun, hj', hwrites⟩ :=
    ExactFilter.run_spec exportTypes_wf htree (.struct target.type)
  rw [decodeReporting]
  simp only [htree, hrun, JsonText.tree_print hj', target.respects _ _ hwrites]

/-- `decodeReporting` decodes the document without the members that the filter
    removes, and reports the paths of the unknown keys among them.  The text that it
    decodes is the purged document, with the fields of each struct in the order of
    their names. -/
theorem decodeReporting_eq (target : Target) (data : String) :
    decodeReporting target data =
      (match JsonText.tree data with
      | none => some (.error .syntaxError)
      | some j => some ((target.unmarshal (purge exportTypes (.struct target.type) j)).map
          (·, unknownKeys exportTypes (.struct target.type) [] j))) ∧
    ∀ j, JsonText.tree data = some j →
      ∃ j', Writes exportTypes (.struct target.type)
          (purge exportTypes (.struct target.type) j) j' ∧
        ExactFilter.run data.toList exportTypes (.struct target.type) =
          some (JsonText.print j', unknownKeys exportTypes (.struct target.type) [] j) := by
  constructor
  · cases htree : JsonText.tree data with
    | none => rw [decodeReporting, htree]
    | some j => exact decodeReporting_of_tree target htree
  · intro j htree
    obtain ⟨j', hrun, -, hwrites⟩ :=
      ExactFilter.run_spec exportTypes_wf htree (.struct target.type)
    exact ⟨j', hwrites, hrun⟩

/-- Without the filter a key in another letter case would fill its field, or replace
    the member of the exact name. -/
example :
    Target.unmarshal .head (.object [("status".toList, .null), ("STATUS".toList, .bool true)]) =
        .ok ⟨none, none, some (.bool true)⟩ ∧
      Target.unmarshal .head (purge exportTypes (.struct .head)
        (.object [("status".toList, .null), ("STATUS".toList, .bool true)])) =
        .ok ⟨none, none, some .null⟩ := ⟨rfl, rfl⟩

/-! ## Decoding the elements -/

theorem isSome_decodeReporting (target : Target) (data : String) :
    (decodeReporting target data).isSome = true := by
  cases htree : JsonText.tree data with
  | none => rw [decodeReporting, htree]; rfl
  | some j => rw [decodeReporting_of_tree target htree]; rfl

/-- `decodeReporting`, which always returns. -/
def decode (target : Target) (data : String) : Decoded (target.Val × List String) :=
  (decodeReporting target data).get (isSome_decodeReporting target data)

end PolicyIr

end AuthzAgent
