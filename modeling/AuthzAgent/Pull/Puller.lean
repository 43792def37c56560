/-
  AuthzAgent.Pull.Puller

  The load of the agent's documents (pull.go), as a system of steps.  A call of
  `PullOnce` fetches and converts both documents and then stores them, first
  `data.policies` and then `data.pips`, each in a transaction of its own
  (engine.go).  Evaluations of decisions read both documents, each in one
  transaction, at any time between these steps.  The lock `loadMu` makes a call
  wait while another one is in progress.

  Up to the first `Put` a call touches nothing that an evaluation reads, so
  this part is one step.  The conversion of the PIPs, the activation index and
  the JSON round trip are parameters.  Log lines and the token of the fetches
  are left out.
-/

import AuthzAgent.Acconfig.Convert

namespace AuthzAgent

open Acconfig

namespace Pull

/-- The functions of a load that are not spelled out; an error is its text. -/
structure Conversions (PIP PIPDocument Doc : Type) where
  /-- `json.Unmarshal` of a policy sets response, in `ConvertPolicySets` -/
  parsePolicySets : String → Except String (List PolicySetV3)
  /-- `ConvertPIPs` -/
  convertPIPs : String → Except String (List PIP)
  /-- `pips.NormalizeItems` -/
  normalizeItems : List PIP → Except String PIPDocument
  /-- `ApplyEntitlementsOverride` with the configuration of the puller -/
  applyEntitlementsOverride : PIPDocument → PIPDocument
  /-- The document with the index of `BuildActivationIndexFromPolicies` -/
  withActivationIndex : Simplified.PolicyDoc → PIPDocument → PIPDocument
  /-- `roundTrip` of the policies -/
  encodePolicies : Simplified.PolicyDoc → Except String Doc
  /-- `roundTrip` of the normalized PIPs -/
  encodePIPs : PIPDocument → Except String Doc

/-- The outcomes of the two fetches of a call. -/
structure Fetches where
  policySets : Except String String
  pips : Except String String

/-- What a call is about to store. -/
structure Prepared (Doc : Type) where
  policies : Doc
  pips : Doc
  conversion : Stats

section

variable {PIP PIPDocument Doc : Type}

/-- `PullOnce` up to the first `Put`. -/
def prepare (P : Platform) (quote : String → String) (C : Conversions PIP PIPDocument Doc)
    (fetches : Fetches) : Except String (Prepared Doc) := do
  let policySets ← fetches.policySets.mapError ("fetch policySets: " ++ ·)
  let pipsRaw ← fetches.pips.mapError ("fetch pips: " ++ ·)
  let sets ← (C.parsePolicySets policySets).mapError
    ("convert policySets: acconfig: parse policy-sets response: " ++ ·)
  let pipList ← (C.convertPIPs pipsRaw).mapError ("convert pips: " ++ ·)
  let policies ← (Simplified.normalizePolicies P (convertPolicySets sets)).mapError
    fun e => "normalize policies: " ++ e.message quote
  let pipDoc ← (C.normalizeItems pipList).mapError ("normalize pips: " ++ ·)
  let pipDoc := C.withActivationIndex policies (C.applyEntitlementsOverride pipDoc)
  let policiesDoc ← (C.encodePolicies policies).mapError ("encode policies: " ++ ·)
  let pipsDoc ← (C.encodePIPs pipDoc).mapError ("encode pips: " ++ ·)
  return { policies := policiesDoc, pips := pipsDoc, conversion := conversionStats sets }

end

/-! ## The store -/

/-- The paths that the puller writes. -/
inductive Path where
  | policies | pips
deriving DecidableEq, Repr

/-- `data.policies` and `data.pips`; `none` is an undefined document. -/
structure Documents (Doc : Type) where
  policies : Option Doc
  pips : Option Doc
deriving DecidableEq

/-- `Engine.Put`: one transaction, which replaces the document or fails. -/
def Documents.put {Doc : Type} (d : Documents Doc) (fault : Option String) (path : Path)
    (value : Doc) : Except String (Documents Doc) :=
  match fault with
  | some e => .error e
  | none =>
    match path with
    | .policies => .ok { d with policies := some value }
    | .pips => .ok { d with pips := some value }

/-! ## Steps -/

/-- A call of `PullOnce` that holds the lock and has prepared its documents.
    `before` records the store at its start. -/
structure Call (Doc : Type) where
  prepared : Prepared Doc
  before : Documents Doc
  policiesStored : Bool

/-- The agent: the store, the call in progress, and the counts of the last
    conversion.  `loaded` records the documents of the last call that returned
    without an error. -/
structure Agent (Doc : Type) where
  store : Documents Doc
  call : Option (Call Doc)
  lastConversion : Option Stats
  loaded : Documents Doc

/-- The agent at its start. -/
def Agent.initial (Doc : Type) : Agent Doc where
  store := ⟨none, none⟩
  call := none
  lastConversion := none
  loaded := ⟨none, none⟩

/-- What can happen next. -/
inductive Event where
  /-- A call of `PullOnce` takes the lock and runs up to its first `Put`. -/
  | pull (fetches : Fetches)
  /-- The call in progress makes its next `Put`. -/
  | put (fault : Option String)
  /-- A decision is evaluated. -/
  | evaluate

variable {PIP PIPDocument Doc : Type} (P : Platform) (quote : String → String)
  (C : Conversions PIP PIPDocument Doc)

/-- The next `Put` of a call: what the call returns, if it does, and the agent
    after it. -/
def putStep (s : Agent Doc) (c : Call Doc) (fault : Option String) :
    Option (Except String Unit) × Agent Doc :=
  if c.policiesStored then
    match s.store.put fault .pips c.prepared.pips with
    | .error e => (some (.error ("store pips: " ++ e)), { s with call := none })
    | .ok store => (some (.ok ()),
        { store := store
          call := none
          lastConversion := some c.prepared.conversion
          loaded := ⟨some c.prepared.policies, some c.prepared.pips⟩ })
  else
    match s.store.put fault .policies c.prepared.policies with
    | .error e => (some (.error ("store policies: " ++ e)), { s with call := none })
    | .ok store =>
      (none, { s with store := store, call := some { c with policiesStored := true } })

/-- One step.  A call that finds the lock taken waits, and without a call there
    is no `Put` to make: then nothing happens. -/
def step (s : Agent Doc) : Event → Option (Except String Unit) × Agent Doc
  | .pull fetches =>
    match s.call with
    | some _ => (none, s)
    | none =>
      match prepare P quote C fetches with
      | .error e => (some (.error e), s)
      | .ok prepared => (none, { s with call := some ⟨prepared, s.store, false⟩ })
  | .put fault =>
    match s.call with
    | some c => putStep s c fault
    | none => (none, s)
  | .evaluate => (none, s)

end Pull

end AuthzAgent
