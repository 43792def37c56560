/-
  AuthzAgent.PolicyAdmin.Store

  The store of authz-policy-admin (store.go) and its two upload handlers
  (handlers.go).  A store keeps the uploaded policies and PIPs by domain, with
  a content hash of each collection, and mirrors every upload to a file of its
  data directory.

  The two collections are handled alike, so the functions take the kind of the
  collection; the types of the items, their JSON form and their hash are
  parameters.  The file system is the map from the paths of its files to their
  contents; uploads go to files of the data directory, and a restart loads the
  files that it finds with the path of this directory as a pattern.  Log lines,
  temporary files and the checks of the directory at startup are left out.
-/

import AuthzAgent.Lib.Dict
import AuthzAgent.Lib.GoPath

namespace AuthzAgent

open GoPath
open GoText

namespace PolicyAdmin

/-- The two collections of a store. -/
inductive Kind where
  | policies | pips
deriving DecidableEq, Repr

def Kind.filePrefix : Kind → String
  | .policies => "policies-"
  | .pips => "pips-"

def stateFileName : String := "state.json"

structure PersistedState where
  schemaVersion : Int
  revision : Int
  policiesHash : String
  pipsHash : String
  updatedAt : String

/-- The library functions that the store calls.  A decoded collection is
    `none` for a nil slice; an error is its text. -/
structure Encoding (Item : Kind → Type) where
  /-- `json.Unmarshal(raw, &items)` -/
  unmarshal : (k : Kind) → String → Except String (Option (List (Item k)))
  /-- `hashItems` -/
  hashItems : (k : Kind) → List (Item k) → String
  /-- `json.Marshal` of a `persistedState` -/
  marshalState : PersistedState → Except String String
  /-- Numbers and texts always have a JSON form. -/
  marshalState_ok : ∀ state, ∃ text, marshalState state = .ok text
  /-- The revision of an unmarshalled `persistedState` -/
  unmarshalState : String → Except String Int

/-! ## Files -/

/-- The files of the file system by path; `none` is a file that cannot be read. -/
abbrev Disk := Dict (Option String)

/-- The characters of `domainPattern`. -/
def isDomainChar (c : Char) : Bool := c.isAlphanum || c == '.' || c == '_' || c == '-'

def validDomain (domain : String) : Bool :=
  1 ≤ domain.toList.length && domain.toList.length ≤ 64 && domain.toList.all isDomainChar &&
  domain != "." && domain != ".."

def domainFileName (k : Kind) (domain : String) : String := k.filePrefix ++ domain ++ ".json"

/-- The domain that `globDomainFiles` recovers from a file name, if the name
    has the pattern of the kind and the domain is valid. -/
def recoverDomain (k : Kind) (name : String) : Option String :=
  ((cutFront k.filePrefix name).bind (cutBack ".json")).filter validDomain

structure DomainFile where
  domain : String
  path : String

/-- The files that match `<dir>/<prefix>*.json`.  The directory is a part of the
    pattern. -/
def globDomainFiles (disk : Disk) (dir : String) (k : Kind) : List DomainFile :=
  (sortedSet (disk.keys.filter (globMatches dir (k.filePrefix ++ "*" ++ ".json")))).filterMap
    fun path => (recoverDomain k (base path)).map fun domain => ⟨domain, path⟩

def readFile (disk : Disk) (path : String) : Option String := (disk.lookup path).join

def writeFileAtomic (fault : Option String) (disk : Disk) (path content : String) :
    Except String Disk :=
  match fault with
  | some e => .error e
  | none => .ok (disk.insert path (some content))

/-! ## The store -/

variable {Item : Kind → Type}

/-- `store`; `items` holds the maps `policies` and `pips`, and `hash` their
    content hashes. -/
structure Store (Item : Kind → Type) where
  dataDir : String
  items : (k : Kind) → Dict (List (Item k))
  hash : Kind → String
  revision : Int

/-- `normalizePolicies` and `normalizePIPs` -/
def normalizeItems {α : Type} (items : Option (List α)) : List α := items.getD []

/-- `mergedPoliciesLocked` and `mergedPIPsLocked` -/
def mergedItems {α : Type} (items : Dict (List α)) : List α :=
  (sortedSet items.keys).flatMap fun domain => Dict.getD items domain []

/-- The store with another collection of one kind. -/
def Store.setItems (s : Store Item) (k : Kind) (items : Dict (List (Item k))) : Store Item :=
  { s with items := Function.update s.items k items }

section

variable (E : Encoding Item)

/-- `rehashLocked` -/
def Store.rehash (s : Store Item) : Store Item :=
  { s with hash := fun k => E.hashItems k (mergedItems (s.items k)) }

/-- One round of a loop of `loadFromDisk`: an unreadable or malformed file is
    skipped. -/
def loadFile (disk : Disk) (k : Kind) (items : Dict (List (Item k))) (f : DomainFile) :
    Dict (List (Item k)) :=
  match readFile disk f.path with
  | none => items
  | some raw =>
    match E.unmarshal k raw with
    | .error _ => items
    | .ok loaded => items.insert f.domain (normalizeItems loaded)

def loadRevision (dataDir : String) (disk : Disk) : Int :=
  match readFile disk (joinPath dataDir stateFileName) with
  | none => 0
  | some raw =>
    match E.unmarshalState raw with
    | .error _ => 0
    | .ok revision => revision

def loadFromDisk (dataDir : String) (disk : Disk) : Store Item :=
  Store.rehash E
    { dataDir := dataDir
      items := fun k => (globDomainFiles disk dataDir k).foldl (loadFile E disk k) ∅
      hash := fun _ => ""
      revision := loadRevision E dataDir disk }

/-! ## Uploads -/

/-- The outcomes of the two writes of a call; `none` is a success. -/
structure Faults where
  file : Option String
  state : Option String

/-- A store and the file system. -/
structure System (Item : Kind → Type) where
  store : Store Item
  disk : Disk

def Store.persisted (s : Store Item) (updatedAt : String) : PersistedState where
  schemaVersion := 1
  revision := s.revision
  policiesHash := s.hash .policies
  pipsHash := s.hash .pips
  updatedAt := updatedAt

/-- The second half of `commitLocked`: the state file. -/
def writeState (faults : Faults) (updatedAt : String) (s : Store Item) (disk : Disk) :
    Except String Disk :=
  match E.marshalState (s.persisted updatedAt) with
  | .error e => .error ("marshal " ++ stateFileName ++ ": " ++ e)
  | .ok state =>
    match writeFileAtomic faults.state disk (joinPath s.dataDir stateFileName) state with
    | .error e => .error ("persist " ++ stateFileName ++ ": " ++ e)
    | .ok disk => .ok disk

/-- `commitLocked`: the error, if any, and what it leaves behind. -/
def commitLocked (faults : Faults) (updatedAt : String) (sys : System Item)
    (fileName raw : String) : Option String × System Item :=
  let s := { sys.store.rehash E with revision := sys.store.revision + 1 }
  let undone := { s with revision := s.revision - 1 }
  if s.dataDir = "" then (none, ⟨s, sys.disk⟩)
  else
    match writeFileAtomic faults.file sys.disk (joinPath s.dataDir fileName) raw with
    | .error e => (some ("persist " ++ fileName ++ ": " ++ e), ⟨undone, sys.disk⟩)
    | .ok disk =>
      match writeState E faults updatedAt s disk with
      | .error e => (some e, ⟨undone, disk⟩)
      | .ok disk => (none, ⟨s, disk⟩)

/-- The common body of `SetDomainPolicies` and `SetDomainPIPs`. -/
def setDomain (k : Kind) (faults : Faults) (updatedAt : String) (sys : System Item)
    (domain : String) (items : Option (List (Item k))) (raw : String) :
    Option String × System Item :=
  let previous := (sys.store.items k).lookup domain
  let s := sys.store.setItems k ((sys.store.items k).insert domain (normalizeItems items))
  match commitLocked E faults updatedAt ⟨s, sys.disk⟩ (domainFileName k domain) raw with
  | (none, sys') => (none, sys')
  | (some e, sys') =>
    let restored := match previous with
      | some items => (sys'.store.items k).insert domain items
      | none => (sys'.store.items k).erase domain
    (some e, ⟨(sys'.store.setItems k restored).rehash E, sys'.disk⟩)

def setDomainPolicies (faults : Faults) (updatedAt : String) (sys : System Item)
    (domain : String) (items : Option (List (Item .policies))) (raw : String) :
    Option String × System Item :=
  setDomain E .policies faults updatedAt sys domain items raw

def setDomainPIPs (faults : Faults) (updatedAt : String) (sys : System Item)
    (domain : String) (items : Option (List (Item .pips))) (raw : String) :
    Option String × System Item :=
  setDomain E .pips faults updatedAt sys domain items raw

/-! ## Handlers -/

/-- An upload: the domain of its path, its body unless it cannot be read, and
    what the writes and the clock do while it is handled. -/
structure Upload where
  domain : String
  body : Option String
  faults : Faults
  updatedAt : String

/-- The answer to an upload. -/
inductive Response where
  | error (status : Nat) (text : String)
  | updated (domain : String) (count : Nat) (hash : String) (revision : Int)
deriving DecidableEq, Repr

def errorText (e : String) : String := "\x7b\"error\":\"" ++ e ++ "\"\x7d"

def invalidDomainText : String :=
  "invalid domain name: allowed characters are letters, digits, dot, underscore and dash"

/-- The common body of the two upload handlers, on the setter of the kind. -/
def handlePut (k : Kind)
    (set : Faults → String → System Item → String → Option (List (Item k)) → String →
      Option String × System Item)
    (sys : System Item) (u : Upload) : Response × System Item :=
  if validDomain u.domain = false then (.error 400 (errorText invalidDomainText), sys)
  else
    match u.body with
    | none => (.error 400 (errorText "read body"), sys)
    | some raw =>
      match E.unmarshal k raw with
      | .error e => (.error 400 (errorText e), sys)
      | .ok items =>
        match set u.faults u.updatedAt sys u.domain items raw with
        | (some e, sys') => (.error 500 (errorText e), sys')
        | (none, sys') =>
          (.updated u.domain (normalizeItems items).length (sys'.store.hash k)
            sys'.store.revision, sys')

def handlePutDomainPolicies (sys : System Item) (u : Upload) : Response × System Item :=
  handlePut E .policies (setDomainPolicies E) sys u

def handlePutDomainPIPs (sys : System Item) (u : Upload) : Response × System Item :=
  handlePut E .pips (setDomainPIPs E) sys u

/-- A request to one of the two upload routes. -/
structure Request where
  kind : Kind
  upload : Upload

/-- The routes of the uploads. -/
def serve (sys : System Item) (r : Request) : Response × System Item :=
  match r.kind with
  | .policies => handlePutDomainPolicies E sys r.upload
  | .pips => handlePutDomainPIPs E sys r.upload

end

end PolicyAdmin

end AuthzAgent
