/-
  AuthzAgent.Acconfig.Pips

  The PIPs of the v3 export become the PIPs that `NormalizeItems` reads
  (`convertPIPs` of acconfig).  The conversion keeps every name as it is, and
  the pull loop normalizes its result without `Validate`; so the slice that
  takes the alias out of a name is in range, and takes out the alias, only
  when the source gives every kept PIP a name with the prefix `subject.`.
-/

import AuthzAgent.Lib.Checked
import AuthzAgent.Pips.Meaning

namespace AuthzAgent

open GoText
open Rego (Value)
open Pips

namespace Acconfig

/-! ## Conversion -/

/-- A raw request attribute: a JSON string, or the text of any other value. -/
inductive RawAttribute where
  | string (s : String)
  | other (text : String)

/-- `PIPV3`, without the fields that the agent ignores. -/
structure PIPV3 where
  name : String
  pipType : String
  url : String
  httpMethod : String
  header : String
  claim : String
  beanName : String
  defaultValue : Option Value
  domain : String
  tenantID : String
  type : String
  jsonPath : String
  requestAttributes : List (String × RawAttribute)
  headers : Option Value
  query : List (String × String)
  body : Option Value
  timeoutSeconds : Option Int
  response : Option Value

/-- What the conversion takes from Go's library. -/
structure PipCodec where
  /-- `json.Unmarshal` into a `ResponseSpec`. -/
  unmarshalResponse : Value → Option ResponseSpec
  /-- `strconv.FormatFloat(f, 'f', -1, 64)`. -/
  formatFloat : Rat → String

section

variable (P : Platform) (C : PipCodec)

def rawJSONToString (raw : String) : String :=
  match parseInt64 raw.toList with
  | some i => toString i
  | none =>
    match P.parseFloat raw with
    | some f => C.formatFloat f
    | none => raw

/-- One attribute of `stringifyRequestAttributes`. -/
def stringifyAttribute : RawAttribute → String
  | .string s => s
  | .other text => rawJSONToString P C text

def normaliseHeaders : Option Value → Option Value
  | some (.array names) => some (.array names)
  | some (.object fields) => some (.object fields)
  | some (.string s) =>
    let cleaned := ((split ',' s).map trimSpace).filter (· ≠ "")
    if cleaned = [] then none else some (.array (cleaned.map .string))
  | _ => none

/-- The types that `convertPIP` filters out, whatever the other fields. -/
def unsupportedTypes : List String := ["FILTERED", "PERMISSION_SCOPE", "MAPPING", "ENTITLEMENT"]

/-- The PIP is of a type the agent supports. -/
def PIPV3.supported (p : PIPV3) : Prop :=
  p.pipType ∉ unsupportedTypes ∧ ¬ (p.pipType = "GENERAL" ∧ p.beanName ≠ "")

instance (p : PIPV3) : Decidable p.supported := inferInstanceAs (Decidable (_ ∧ _))

def convertPIP (p : PIPV3) : Option SimplifiedPIP :=
  if p.supported then some
    { name := p.name
      pipType := p.pipType
      url := p.url
      httpMethod := p.httpMethod
      header := p.header
      claim := p.claim
      beanName := p.beanName
      defaultValue := p.defaultValue
      domain := if p.domain ≠ "" then p.domain else p.tenantID
      requestAttributes := p.requestAttributes.map fun kv => (kv.1, stringifyAttribute P C kv.2)
      headers := normaliseHeaders p.headers
      type := p.type
      jsonPath := p.jsonPath
      query := p.query
      body := p.body
      timeoutSeconds := p.timeoutSeconds
      -- a block that does not decode is dropped
      response := p.response.bind C.unmarshalResponse }
  else none

def convertPIPs (ps : List PIPV3) : List SimplifiedPIP := ps.filterMap (convertPIP P C)

/-- What `PullOnce` makes of the PIPs of a response. -/
def normalizePIPs (ps : List PIPV3) : Except Crash (PIPDocument × UploadSummary) :=
  normalizeItems P (convertPIPs P C ps)

end

/-! ## Names -/

section

variable {P : Platform} {C : PipCodec}

theorem name_of_convertPIP {p : PIPV3} {item : SimplifiedPIP} (h : convertPIP P C p = some item) :
    p.supported ∧ item.name = p.name := by
  rw [convertPIP, Option.ite_none_right_eq_some, Option.some.injEq] at h
  exact ⟨h.1, by rw [← h.2]⟩

theorem convertPIPs_named_iff {ps : List PIPV3} :
    (∀ item ∈ convertPIPs P C ps, item.Named) ↔
      ∀ p ∈ ps, p.supported → ∃ rest, p.name = "subject." ++ rest := by
  constructor
  · intro h p hp hsupported
    have hitem : convertPIP P C p ≠ none := by simp [convertPIP, hsupported]
    obtain ⟨item, hitem⟩ := Option.ne_none_iff_exists'.mp hitem
    rw [← (name_of_convertPIP hitem).2]
    exact h item (List.mem_filterMap.mpr ⟨p, hp, hitem⟩)
  · intro h item hitem
    obtain ⟨p, hp, hconv⟩ := List.mem_filterMap.mp hitem
    obtain ⟨hsupported, hname⟩ := name_of_convertPIP hconv
    rw [SimplifiedPIP.Named, hname]
    exact h p hp hsupported

/-- A round of the loop keeps the names it finds and adds the name of its PIP. -/
theorem mem_byName_add {n n' : NormalizedPIPs} {item : SimplifiedPIP}
    (h : n.add P item = .ok n') (name : String) :
    name ∈ n'.byName ↔ name = item.name ∨ name ∈ n.byName := by
  obtain ⟨aliasName, -, hfile⟩ := Checked.bind_eq_ok.mp h
  rw [Checked.pure_eq_ok] at hfile
  rw [← hfile, file_byName, Dict.insertSome, AList.mem_insert]

/-- The document has an entry for every PIP of the list. -/
theorem mem_byName_of_normalize {items : List SimplifiedPIP} {n n' : NormalizedPIPs}
    (h : items.foldlM (NormalizedPIPs.add P) n = .ok n') :
    (∀ name ∈ n.byName, name ∈ n'.byName) ∧ ∀ item ∈ items, item.name ∈ n'.byName := by
  induction items generalizing n with
  | nil =>
    obtain rfl := Checked.pure_eq_ok.mp h
    exact ⟨fun _ hname => hname, fun _ hitem => absurd hitem List.not_mem_nil⟩
  | cons item items ih =>
    obtain ⟨next, hadd, hrest⟩ := Checked.bind_eq_ok.mp h
    obtain ⟨hkeep, hitems⟩ := ih hrest
    refine ⟨fun name hname => ?_, fun other hother => ?_⟩
    · exact hkeep name ((mem_byName_add hadd name).mpr (.inr hname))
    · rcases List.mem_cons.mp hother with rfl | hother
      · exact hkeep _ ((mem_byName_add hadd _).mpr (.inl rfl))
      · exact hitems other hother

end

/-- The conversion and normalization of a response returns a document, in which
    every alias is the name without its prefix. -/
def AliasesSafe (P : Platform) (C : PipCodec) (ps : List PIPV3) : Prop :=
  ∃ doc summary, normalizePIPs P C ps = .ok (doc, summary) ∧
    ∀ name aliasName, doc.normalized.HasAlias name aliasName → name = "subject." ++ aliasName

/-- The pull loop survives a list of PIPs, with right aliases, exactly when
    every PIP of a supported type has a name that starts with `subject.`. -/
theorem aliasesSafe_iff_prefixed (P : Platform) (C : PipCodec) (ps : List PIPV3) :
    AliasesSafe P C ps ↔ ∀ p ∈ ps, p.supported → ∃ rest, p.name = "subject." ++ rest := by
  rw [← convertPIPs_named_iff (P := P) (C := C)]
  constructor
  · rintro ⟨doc, summary, hdoc, hsafe⟩ item hitem
    obtain ⟨n, hfold, hok⟩ := Checked.bind_eq_ok.mp hdoc
    rw [Checked.pure_eq_ok, Prod.mk.injEq] at hok
    -- whatever its alias is, the entry of the PIP shows the prefix of its name
    have hmem := (mem_byName_of_normalize hfold).2 item hitem
    obtain ⟨e, he⟩ := Option.isSome_iff_exists.mp (AList.lookup_isSome.mpr hmem)
    rw [← hok.1] at hsafe
    exact ⟨e.aliasName, hsafe item.name e.aliasName (.inl ⟨e, he, rfl⟩)⟩
  · intro hnamed
    exact ⟨_, _, normalizeItems_of_named P hnamed, fun name aliasName halias =>
      name_eq_of_hasAlias hnamed halias⟩

/-! ## A short name -/

/-- A codec that decodes no response and formats no number. -/
def noCodec : PipCodec := ⟨fun _ => none, fun _ => ""⟩

/-- A TOKEN PIP with a name of two characters. -/
def shortNamed : PIPV3 where
  name := "id"
  pipType := "TOKEN"
  url := ""
  httpMethod := ""
  header := ""
  claim := "sub"
  beanName := ""
  defaultValue := none
  domain := ""
  tenantID := "t"
  type := ""
  jsonPath := ""
  requestAttributes := []
  headers := none
  query := []
  body := none
  timeoutSeconds := none
  response := none

theorem short_name_crashes :
    normalizePIPs .ascii noCodec [shortNamed] = .error .sliceOutOfRange ∧
    ¬ AliasesSafe .ascii noCodec [shortNamed] := by
  have hcrash : normalizePIPs .ascii noCodec [shortNamed] = .error .sliceOutOfRange := rfl
  refine ⟨hcrash, ?_⟩
  rintro ⟨doc, summary, hdoc, -⟩
  rw [hcrash] at hdoc
  cases hdoc

end Acconfig

end AuthzAgent
