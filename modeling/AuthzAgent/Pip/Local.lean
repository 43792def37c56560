/-
  AuthzAgent.Pip.Local

  What the trouble of one PIP can do to a decision.  A PIP that cannot resolve
  should leave its alias absent; an object with two values for one key ends the
  whole decision instead.

  Every object that pip.rego builds gives each key one value, whatever the
  configuration, the request and the responses are, but two: the headers to set
  of a request, whose names it folds to lower case, and the entitlements of a
  subject, which the aggregator may list in several blocks or references.
-/

import AuthzAgent.Pip.Resolve
import AuthzAgent.Pips.Meaning

namespace AuthzAgent

open Rego (Value Eval)
open Rego.Eval
open Pips
open Authorize (Fields)

namespace Pip

/-! ## Templates -/

theorem exists_of_mem_placeholderMatches {m : String × String} {skip : Nat} {cs : List Char}
    (h : m ∈ placeholderMatches skip cs) : ∃ inner, m = placeholderMatch inner := by
  induction cs generalizing skip with
  | nil => cases skip <;> cases h
  | cons c cs ih =>
    cases skip with
    | succ skip => exact ih h
    | zero =>
      rw [placeholderMatches] at h
      split at h
      · rcases List.mem_cons.mp h with rfl | h
        · exact ⟨_, rfl⟩
        · exact ih h
      · exact ih h

theorem placeholderMatch_fst_inj {inner inner' : List Char}
    (h : (placeholderMatch inner).1 = (placeholderMatch inner').1) : inner = inner' := by
  have hlist := String.ofList_injective h
  simpa using hlist

section

variable (B : Builtins) (sub resource : Value)

/-- Equal placeholders resolve to equal texts. -/
theorem determined_interpolateWith (encode : String → String) (s : String) :
    (interpolateWith B encode s sub resource).Determined := by
  refine Determined.bind ?_ fun reps => (determined_require _).bind fun _ => determined_pure _
  refine determined_object ?_ ?_
  · exact (clean_solutions _).bind fun m => (clean_ofOption _).bind fun _ => clean_pure _
  · intro k v w hv hw
    obtain ⟨m, hm, hv⟩ := hv.of_bind
    obtain ⟨m', hm', hw⟩ := hw.of_bind
    simp only [yields_ofOption_bind, yields_pure, Prod.mk.injEq] at hv hw
    obtain ⟨r, hr, rfl, rfl⟩ := hv
    obtain ⟨r', hr', hkey, rfl⟩ := hw
    obtain ⟨inner, rfl⟩ := exists_of_mem_placeholderMatches (yields_solutions.mp hm)
    obtain ⟨inner', rfl⟩ := exists_of_mem_placeholderMatches (yields_solutions.mp hm')
    obtain rfl := placeholderMatch_fst_inj hkey
    rw [hr, Option.some.injEq] at hr'
    rw [hr']

theorem determined_expandString (s : Value) : (expandString B s sub resource).Determined := by
  refine determined_rule ?_ ?_
  · simp only [List.forall_mem_cons]
    refine ⟨?_, ?_, ?_, nofun⟩
    · exact (determined_require _).bind fun _ => determined_pure _
    · exact (determined_ofOption _).bind fun t =>
        (determined_require _).bind fun _ => determined_pure _
    · exact (determined_ofOption _).bind fun t => (determined_require _).bind fun _ =>
        (determined_interpolateWith B sub resource id t).bind fun _ => determined_pure _
  · have hnone : ∀ f : String → Eval Value,
        (require s.text.isNone >>= fun _ => pure s).Agree (ofOption s.text >>= f) := by
      intro f v v' hv hv'
      rw [yields_require_bind] at hv
      obtain ⟨t, ht, -⟩ := yields_ofOption_bind.mp hv'
      rw [ht] at hv
      cases hv.1
    simp only [List.pairwise_cons, List.forall_mem_cons]
    refine ⟨⟨hnone _, hnone _, nofun⟩, ⟨?_, nofun⟩, nofun, List.Pairwise.nil⟩
    intro v v' hv hv'
    simp only [yields_require_bind, yields_ofOption_bind] at hv hv'
    obtain ⟨t, ht, hwhole, -⟩ := hv
    obtain ⟨t', ht', hpart, -⟩ := hv'
    rw [ht, Option.some.injEq] at ht'
    rw [← ht', hwhole] at hpart
    cases hpart

theorem determined_expandUrl (s : String) : (expandUrl B s sub resource).Determined := by
  refine determined_rule ?_ ?_
  · simp only [List.forall_mem_cons]
    refine ⟨?_, ?_, nofun⟩
    · exact (determined_require _).bind fun _ =>
        (determined_ofOption _).bind fun _ => determined_ofOption _
    · exact (determined_require _).bind fun _ => determined_interpolateWith B sub resource _ s
  · simp only [List.pairwise_cons, List.forall_mem_cons]
    refine ⟨⟨?_, nofun⟩, nofun, List.Pairwise.nil⟩
    intro v v' hv hv'
    rw [yields_require_bind] at hv hv'
    rw [hv.1] at hv'
    cases hv'.1

end

/-! ## Requests and responses -/

/-- A member for an entry of a map, under the key of the entry. -/
theorem determined_object_entries {β ν : Type} [DecidableEq ν] (name : String) (d : Dict β)
    {f : (Sigma fun _ : String => β) → Eval (String × ν)} (hf : ∀ entry, (f entry).Determined)
    (hkey : ∀ entry m, (f entry).Yields m → m.1 = entry.1) :
    (Eval.object name (Eval.solutions d.entries >>= f)).Determined := by
  refine determined_object_bind (clean_solutions _) hf fun entry entry' m m' he he' hm hm' heq => ?_
  refine List.inj_on_of_nodup_map d.nodupKeys (yields_solutions.mp he) (yields_solutions.mp he') ?_
  rw [← hkey entry m hm, ← hkey entry' m' hm', heq]

section

variable (E : Env) (cfg : GeneralPIPConfig) (sub resource : Value)

theorem determined_expandQuery (query : List (String × String)) :
    (expandQuery E query sub resource).Determined := by
  refine Determined.bind ?_ fun _ => (determined_require _).bind fun _ => determined_pure _
  refine determined_object_entries _ _ (fun param => ?_) fun param m hm => ?_
  · exact (determined_expandString E.builtins sub resource _).bind fun _ =>
      (determined_require _).bind fun _ => determined_pure _
  · obtain ⟨value, -, hm⟩ := hm.of_bind
    rw [yields_require_bind, yields_pure] at hm
    rw [hm.2]

theorem determined_buildBody : (buildBody E cfg sub resource).Determined := by
  refine determined_rule ?_ ?_
  · simp only [List.forall_mem_cons]
    refine ⟨?_, ?_, nofun⟩
    · exact (determined_require _).bind fun _ => determined_pure _
    · refine (determined_require _).bind fun _ => Determined.bind ?_ fun ops =>
        (determined_require _).bind fun _ => determined_ofOption _
      refine determined_collect ((clean_solutions _).bind fun leaf => ?_)
      exact (determined_expandString E.builtins sub resource leaf.2).clean.bind fun _ => clean_pure _
  · simp only [List.pairwise_cons, List.forall_mem_cons]
    refine ⟨⟨?_, nofun⟩, nofun, List.Pairwise.nil⟩
    intro v v' hv hv'
    rw [yields_require_bind, decide_eq_true_iff] at hv hv'
    exact absurd hv.1 hv'.1

theorem determined_extractResponse (body : Value) : (extractResponse E cfg body).Determined := by
  rw [extractResponse]
  split
  · exact determined_pure _
  · rename_i respCfg _
    rw [extractWithResponse]
    split
    · exact determined_ofOption _
    · exact determined_ofOption _
    · refine Determined.bind ?_ fun _ => determined_pure _
      refine determined_object_entries _ _ (fun entry => ?_) fun entry m hm => ?_
      · exact (determined_ofOption _).bind fun _ => determined_pure _
      · obtain ⟨v, -, hm⟩ := hm.of_bind
        rw [yields_pure] at hm
        rw [hm]
    · exact determined_undefined

theorem determined_responseValue (resp : HttpResponse) :
    (responseValue E cfg resp).Determined := by
  refine Determined.orElse ?_ (determined_ofOption _)
  exact (determined_require _).bind fun _ => (determined_ofOption _).bind fun body =>
    determined_extractResponse E cfg body

theorem determined_setHeaderText (v : String) : (setHeaderText E v sub resource).Determined :=
  (determined_expandString E.builtins sub resource _).bind fun _ => determined_ofOption _

/-- What is forwarded under a name depends on the name in lower case only. -/
theorem determined_forwardedHeaders : (forwardedHeaders E cfg).Determined := by
  refine determined_object ?_ fun k v w hv hw => ?_
  · exact (clean_solutions _).bind fun name => (clean_ofOption _).bind fun _ =>
      (clean_require _).bind fun _ => clean_pure _
  · obtain ⟨name, -, hv⟩ := hv.of_bind
    obtain ⟨name', -, hw⟩ := hw.of_bind
    simp only [yields_ofOption_bind, yields_require_bind, yields_pure, Prod.mk.injEq] at hv hw
    obtain ⟨a, ha, -, rfl, rfl⟩ := hv
    obtain ⟨b, hb, -, hkey, rfl⟩ := hw
    rw [hkey, hb, Option.some.injEq] at ha
    exact ha.symm

/-- Headers to set whose names differ in case only expand to one text. -/
def SetHeadersAgree : Prop :=
  ∀ h ∈ (Dict.ofList cfg.setHeaders).entries, ∀ h' ∈ (Dict.ofList cfg.setHeaders).entries,
    E.builtins.platform.toLower h.1 = E.builtins.platform.toLower h'.1 →
      (setHeaderText E h.2 sub resource).Agree (setHeaderText E h'.2 sub resource)

theorem clean_explicitHeaders_iff :
    (explicitHeaders E cfg sub resource).Clean ↔ SetHeadersAgree E cfg sub resource := by
  have htext : ∀ h : (Sigma fun _ : String => String), (do
      let text ← setHeaderText E h.2 sub resource
      return (E.builtins.platform.toLower h.1, text) : Eval (String × String)).Clean := fun h =>
    (determined_setHeaderText E sub resource h.2).clean.bind fun _ => clean_pure _
  have hclean := (clean_solutions (Dict.ofList cfg.setHeaders).entries).bind htext
  rw [explicitHeaders, clean_object, and_iff_right hclean]
  constructor
  · intro hsingle h hh h' hh' hkey t t' ht ht'
    have hmem : ∀ h ∈ (Dict.ofList cfg.setHeaders).entries, ∀ t,
        (setHeaderText E h.2 sub resource).Yields t → _ := fun h hh t ht =>
      Yields.bind hclean (yields_solutions.mpr hh)
        (Yields.bind (htext h) ht (yields_pure.mpr rfl))
    have hm' := hmem h' hh' t' ht'
    rw [← hkey] at hm'
    exact hsingle _ t t' (hmem h hh t ht) hm'
  · intro hagree k v w hv hw
    obtain ⟨h, hh, hv⟩ := hv.of_bind
    obtain ⟨h', hh', hw⟩ := hw.of_bind
    obtain ⟨t, ht, hv⟩ := hv.of_bind
    obtain ⟨t', ht', hw⟩ := hw.of_bind
    rw [yields_pure, Prod.mk.injEq] at hv hw
    obtain ⟨rfl, rfl⟩ := hv
    obtain ⟨hkey, rfl⟩ := hw
    exact hagree h (yields_solutions.mp hh) h' (yields_solutions.mp hh') hkey v w ht ht'

theorem atMostOne_buildHeaders : (buildHeaders E cfg sub resource).AtMostOne :=
  (determined_forwardedHeaders E cfg).atMostOne.bind fun _ => atMostOne_object.bind fun _ =>
    ((determined_require _).bind fun _ => determined_pure _).atMostOne

theorem clean_buildHeaders_iff :
    (buildHeaders E cfg sub resource).Clean ↔ SetHeadersAgree E cfg sub resource := by
  obtain ⟨forwarded, hforwarded⟩ := object_eq_defined (determined_forwardedHeaders E cfg).clean
  rw [← clean_explicitHeaders_iff, buildHeaders, forwardedHeaders, hforwarded, defined_bind,
    clean_bind]
  exact and_iff_left fun explicit _ => (clean_require _).bind fun _ => clean_pure _

/-- The headers to set agree wherever the request gets as far as its headers. -/
def RequestAgrees : Prop :=
  ∀ url query, (expandUrl E.builtins cfg.url sub resource).Yields url →
    (expandQuery E cfg.query sub resource).Yields query → SetHeadersAgree E cfg sub resource

theorem atMostOne_buildPipRequest : (buildPipRequest E cfg resource sub).AtMostOne :=
  (determined_expandUrl E.builtins sub resource _).atMostOne.bind fun _ =>
    (determined_expandQuery E sub resource _).atMostOne.bind fun _ =>
      (atMostOne_buildHeaders E cfg sub resource).bind fun _ =>
        ((determined_buildBody E cfg sub resource).bind fun _ => determined_pure _).atMostOne

theorem clean_buildPipRequest_iff :
    (buildPipRequest E cfg resource sub).Clean ↔ RequestAgrees E cfg sub resource := by
  have hbody : ∀ f : Value → PipRequest, (do
      let body ← buildBody E cfg sub resource
      return f body : Eval PipRequest).Clean := fun f =>
    (determined_buildBody E cfg sub resource).clean.bind fun _ => clean_pure _
  rw [buildPipRequest, clean_bind, and_iff_right (determined_expandUrl E.builtins sub resource _).clean,
    RequestAgrees]
  refine forall_congr' fun url => ?_
  rw [clean_bind, and_iff_right (determined_expandQuery E sub resource _).clean]
  constructor
  · intro h query hurl hquery
    exact (clean_buildHeaders_iff E cfg sub resource).mp (clean_bind.mp (h hurl query hquery)).1
  · intro h hurl query hquery
    exact ((clean_buildHeaders_iff E cfg sub resource).mpr (h query hurl hquery)).bind fun headers =>
      hbody _

theorem atMostOne_generalPipValue : (generalPipValue E cfg resource sub).AtMostOne :=
  (atMostOne_buildPipRequest E cfg sub resource).bind fun _ =>
    ((determined_ofOption _).bind fun resp => determined_responseValue E cfg resp).atMostOne

theorem clean_generalPipValue_iff :
    (generalPipValue E cfg resource sub).Clean ↔ RequestAgrees E cfg sub resource := by
  rw [generalPipValue, clean_bind, clean_buildPipRequest_iff]
  exact and_iff_left fun req _ =>
    (clean_ofOption _).bind fun resp => (determined_responseValue E cfg resp).clean

theorem atMostOne_hardFailureKind : (hardFailureKind E cfg resource sub).AtMostOne := by
  refine AtMostOne.orElse ?_ (AtMostOne.orElse ?_ (determined_pure _).atMostOne)
  · exact AtMostOne.bind (fun _ _ _ _ => rfl) fun _ => (determined_pure _).atMostOne
  · exact (atMostOne_buildPipRequest E cfg sub resource).bind fun _ =>
      ((determined_ofOption _).bind fun _ =>
        (determined_require _).bind fun _ => determined_pure _).atMostOne

theorem clean_hardFailureKind (h : RequestAgrees E cfg sub resource) :
    (hardFailureKind E cfg resource sub).Clean := by
  have hreq := (clean_buildPipRequest_iff E cfg sub resource).mpr h
  refine Clean.orElse ?_ (Clean.orElse ?_ (clean_pure _))
  · exact (clean_negate.mpr hreq).bind fun _ => clean_pure _
  · exact hreq.bind fun _ => (clean_ofOption _).bind fun _ =>
      (clean_require _).bind fun _ => clean_pure _

end

/-! ## Values of PIPs -/

/-- No alias stands for two names. -/
def DistinctAliases (n : NormalizedPIPs) : Prop :=
  ∀ name name' aliasName, n.HasAlias name aliasName → n.HasAlias name' aliasName → name = name'

theorem distinctAliases_of_named {P : Platform} {items : List SimplifiedPIP}
    (h : ∀ item ∈ items, item.Named) : DistinctAliases (filed P items) := by
  intro name name' aliasName hname hname'
  rw [name_eq_of_hasAlias h hname, name_eq_of_hasAlias h hname']

/-- Entries of one map with one alias are the same. -/
theorem entry_eq_of_alias {n : NormalizedPIPs} (hdistinct : DistinctAliases n) {β : Type}
    {d : Dict β} {aliasName : β → String}
    (halias : ∀ name e, d.lookup name = some e → n.HasAlias name (aliasName e))
    {entry entry' : Sigma fun _ : String => β} (he : entry ∈ d.entries) (he' : entry' ∈ d.entries)
    (heq : aliasName entry.2 = aliasName entry'.2) : entry = entry' := by
  have h := halias entry.1 entry.2 (AList.mem_lookup_iff.mpr he)
  have h' := halias entry'.1 entry'.2 (AList.mem_lookup_iff.mpr he')
  rw [← heq] at h'
  exact List.inj_on_of_nodup_map d.nodupKeys he he' (hdistinct _ _ _ h h')

/-- A member for an entry of a map, under the alias of the entry. -/
theorem determined_object_alias {n : NormalizedPIPs} (hdistinct : DistinctAliases n) {β : Type}
    {d : Dict β} {aliasName : β → String} (name : String)
    (halias : ∀ name e, d.lookup name = some e → n.HasAlias name (aliasName e))
    {f : (Sigma fun _ : String => β) → Eval (String × Value)} (hf : ∀ entry, (f entry).Determined)
    (hkey : ∀ entry m, (f entry).Yields m → m.1 = aliasName entry.2) :
    (Eval.object name (Eval.solutions d.entries >>= f)).Determined := by
  refine determined_object_bind (clean_solutions _) hf fun entry entry' m m' he he' hm hm' heq => ?_
  rw [hkey entry m hm, hkey entry' m' hm'] at heq
  exact entry_eq_of_alias hdistinct halias (yields_solutions.mp he) (yields_solutions.mp he') heq

section

variable {E : Env} (hdistinct : DistinctAliases E.pips)

include hdistinct

theorem determined_resolveTokenValues (subjectCtx : Value) :
    (resolveTokenValues E subjectCtx).Determined := by
  refine determined_ruleOr_one (Determined.bind ?_ fun _ => determined_pure _)
  refine determined_object_alias hdistinct _ (fun name e he => Or.inr (Or.inl ⟨e, he, rfl⟩))
    (fun entry => ?_) fun entry m hm => ?_
  · exact (determined_require _).bind fun _ => (determined_require _).bind fun _ =>
      (determined_ofOption _).bind fun _ => (determined_require _).bind fun _ => determined_pure _
  · simp only [yields_require_bind, yields_ofOption_bind, yields_pure] at hm
    obtain ⟨-, -, v, -, -, rfl⟩ := hm
    rfl

theorem determined_resolveHeaderValues (requestHeaders : Value) :
    (resolveHeaderValues E requestHeaders).Determined := by
  refine determined_ruleOr_one (Determined.bind ?_ fun _ => determined_pure _)
  refine determined_object_alias hdistinct _
    (fun name e he => Or.inr (Or.inr (Or.inl ⟨e, he, rfl⟩))) (fun entry => ?_) fun entry m hm => ?_
  · exact (determined_require _).bind fun _ => (determined_require _).bind fun _ =>
      (determined_ofOption _).bind fun _ => (determined_require _).bind fun _ => determined_pure _
  · simp only [yields_require_bind, yields_ofOption_bind, yields_pure] at hm
    obtain ⟨-, -, v, -, -, rfl⟩ := hm
    rfl

/-- The values of TOKEN and HEADER PIPs never end a decision. -/
theorem clean_resolveRequestLevel (subjectCtx requestHeaders : Value) :
    (resolveRequestLevel E subjectCtx requestHeaders).Clean := by
  refine (determined_ruleOr_one ?_).clean
  exact (determined_require _).bind fun _ =>
    (determined_resolveTokenValues hdistinct subjectCtx).bind fun _ =>
      (determined_resolveHeaderValues hdistinct requestHeaders).bind fun _ => determined_pure _

omit hdistinct in
theorem clean_activeConfigs (rt op : String) : (activeConfigs E rt op).Clean :=
  (clean_solutions _).bind fun _ => (clean_ofOption _).bind fun _ =>
    (clean_require _).bind fun _ => clean_pure _

omit hdistinct in
theorem yields_activeConfigs {rt op : String} {cfg : GeneralPIPConfig} :
    (activeConfigs E rt op).Yields cfg ↔
      cfg.aliasName ≠ "" ∧
        ∃ name ∈ activeGeneralPips E.activation rt op, E.pips.general.lookup name = some cfg := by
  have hname : ∀ name, (do
      let cfg ← Eval.ofOption (E.pips.general.lookup name)
      Eval.require (cfg.aliasName ≠ "")
      return cfg : Eval GeneralPIPConfig).Clean := fun name =>
    (clean_ofOption _).bind fun _ => (clean_require _).bind fun _ => clean_pure _
  rw [activeConfigs, yields_bind (clean_solutions _) hname]
  simp only [yields_solutions, yields_ofOption_bind, yields_require_bind, yields_pure,
    decide_eq_true_eq]
  constructor
  · rintro ⟨name, hactive, cfg', hlookup, hne, rfl⟩
    exact ⟨hne, name, hactive, hlookup⟩
  · rintro ⟨hne, name, hactive, hlookup⟩
    exact ⟨name, hactive, cfg, hlookup, hne, rfl⟩

/-- Active PIPs with one alias are the same. -/
theorem activeConfig_eq_of_alias {rt op : String} {cfg cfg' : GeneralPIPConfig}
    (h : (activeConfigs E rt op).Yields cfg) (h' : (activeConfigs E rt op).Yields cfg')
    (halias : cfg.aliasName = cfg'.aliasName) : cfg = cfg' := by
  obtain ⟨-, name, -, hname⟩ := yields_activeConfigs.mp h
  obtain ⟨-, name', -, hname'⟩ := yields_activeConfigs.mp h'
  have hsame : name = name' :=
    hdistinct name name' cfg.aliasName (Or.inr (Or.inr (Or.inr ⟨cfg, hname, rfl⟩)))
      (Or.inr (Or.inr (Or.inr ⟨cfg', hname', halias.symm⟩)))
  rw [hsame, hname', Option.some.injEq] at hname
  exact hname.symm

/-- The values of the active GENERAL PIPs end a decision only by the headers of
    a request. -/
theorem clean_resolveGeneralValues_iff (rt op : String) (resource sub : Value) :
    (resolveGeneralValues E rt op resource sub).Clean ↔
      ∀ cfg, (activeConfigs E rt op).Yields cfg → RequestAgrees E cfg sub resource := by
  have hmember : ∀ cfg, (do
      let value ← generalPipValue E cfg resource sub
      return (cfg.aliasName, value) : Eval (String × Value)).AtMostOne := fun cfg =>
    (atMostOne_generalPipValue E cfg sub resource).bind fun _ => (determined_pure _).atMostOne
  have hbody : ∀ cfg, (do
      let value ← generalPipValue E cfg resource sub
      return (cfg.aliasName, value) : Eval (String × Value)).Clean ↔
        RequestAgrees E cfg sub resource := fun cfg => by
    rw [clean_bind, clean_generalPipValue_iff]
    exact and_iff_left fun _ _ => clean_pure _
  rw [resolveGeneralValues, clean_ruleOr,
    clean_rule_one (atMostOne_object.bind fun _ => (determined_pure _).atMostOne), clean_bind,
    and_iff_left fun _ _ => clean_pure _, clean_object_bind hmember, clean_bind,
    and_iff_right (clean_activeConfigs rt op)]
  · simp only [hbody]
  · intro cfg cfg' m m' hcfg hcfg' hm hm' heq
    obtain ⟨v, -, hm⟩ := hm.of_bind
    obtain ⟨v', -, hm'⟩ := hm'.of_bind
    rw [yields_pure] at hm hm'
    rw [hm, hm'] at heq
    exact activeConfig_eq_of_alias hdistinct hcfg hcfg' heq

theorem clean_generalPipHardFailures {rt op : String} {resource sub : Value}
    (h : ∀ cfg, (activeConfigs E rt op).Yields cfg → RequestAgrees E cfg sub resource) :
    (generalPipHardFailures E rt op resource sub).Clean := by
  have hmember : ∀ (resolved : Fields) (cfg : GeneralPIPConfig), (do
      Eval.require (resolved.lookup cfg.aliasName).isNone
      let kind ← hardFailureKind E cfg resource sub
      return (cfg.aliasName, Value.string kind) : Eval (String × Value)).AtMostOne :=
    fun resolved cfg => (determined_require _).atMostOne.bind fun _ =>
      (atMostOne_hardFailureKind E cfg sub resource).bind fun _ => (determined_pure _).atMostOne
  have hgeneral := (clean_resolveGeneralValues_iff hdistinct rt op resource sub).mpr h
  have hatMost : (resolveGeneralValues E rt op resource sub).AtMostOne := atMostOne_ruleOr
  rw [generalPipHardFailures, clean_ruleOr]
  refine (clean_rule_one (hatMost.bind fun _ => atMostOne_object.bind fun _ =>
    (determined_pure _).atMostOne)).mpr ?_
  refine hgeneral.bind fun resolved => Clean.bind ?_ fun _ => clean_pure _
  rw [clean_object_bind (hmember resolved), clean_bind]
  · refine ⟨clean_activeConfigs rt op, fun cfg hcfg => ?_⟩
    exact (clean_require _).bind fun _ =>
      (clean_hardFailureKind E cfg sub resource (h cfg hcfg)).bind fun _ => clean_pure _
  · intro cfg cfg' m m' hcfg hcfg' hm hm' heq
    rw [yields_require_bind] at hm hm'
    obtain ⟨v, -, hm⟩ := hm.2.of_bind
    obtain ⟨v', -, hm'⟩ := hm'.2.of_bind
    rw [yields_pure] at hm hm'
    rw [hm, hm'] at heq
    exact activeConfig_eq_of_alias hdistinct hcfg hcfg' heq

end

end Pip

end AuthzAgent
