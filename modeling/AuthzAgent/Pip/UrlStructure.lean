/-
  AuthzAgent.Pip.UrlStructure

  The URL of a GENERAL PIP's request.  A text with placeholders is a template
  whose holes are the placeholders (`templateItems`), and the URL that
  `build_pip_request` assembles is the configured one with every hole filled
  once, in the url with escaped texts, and in each value of the query map before
  the value is escaped (`buildPipRequest_url`).  What a substituted text holds is
  not looked at again.

  An escaped text delimits no component of a URL, but "." and ".." are escaped as
  they are, and a segment that is one of them takes segments off the path.
-/

import AuthzAgent.Lib.UrlTemplate
import AuthzAgent.Pip.Local

namespace AuthzAgent

open Rego (Value Eval)
open Rego.Eval
open Pips
open Template (Item fill)
open Url (queryEscape)

namespace Pip

/-! ## Templates -/

/-- The characters and the placeholders of a text.  The first argument counts the
    characters of the last placeholder still to step over. -/
def templateFrom : Nat → List Char → List (Item String)
  | _, [] => []
  | skip + 1, _ :: cs => templateFrom skip cs
  | 0, c :: cs =>
    match placeholderAt (c :: cs) with
    | some inner => .hole (String.ofList inner) :: templateFrom (inner.length + 2) cs
    | none => .char c :: templateFrom 0 cs

/-- The template of a text. -/
def templateItems (s : String) : List (Item String) := templateFrom 0 s.toList

theorem templateFrom_skip (skip : Nat) (cs : List Char) :
    templateFrom skip cs = templateFrom 0 (cs.drop skip) := by
  induction cs generalizing skip with
  | nil => cases skip <;> rfl
  | cons c cs ih =>
    cases skip with
    | zero => rfl
    | succ skip => exact ih skip

/-- A placeholder ends at the first brace behind it. -/
theorem placeholderAt_eq_some_iff {cs inner : List Char} :
    placeholderAt cs = some inner ↔
      inner ≠ [] ∧ '}' ∉ inner ∧ ∃ rest, cs = '$' :: '{' :: (inner ++ '}' :: rest) := by
  constructor
  · intro h
    rw [placeholderAt.eq_def] at h
    split at h
    · rename_i cs
      simp only [Option.ite_none_right_eq_some, Option.some.injEq] at h
      obtain ⟨⟨hne, hlen⟩, rfl⟩ := h
      obtain ⟨rest, hrest⟩ := Template.exists_rest_of_length_lt hlen
      exact ⟨hne, Template.brace_not_mem_takeWhile cs, rest, by rw [← hrest]⟩
    · cases h
  · rintro ⟨hne, hbrace, rest, rfl⟩
    rw [placeholderAt]
    simp only [Template.takeWhile_brace hbrace]
    rw [if_pos ⟨hne, by simp⟩]

/-- The text of a placeholder stands where the placeholder is, and nowhere else. -/
theorem isPrefixOf_placeholder_iff {cs inner : List Char} (hne : inner ≠ []) (hbrace : '}' ∉ inner) :
    (placeholderMatch inner).1.toList.isPrefixOf cs = true ↔ placeholderAt cs = some inner := by
  rw [placeholderAt_eq_some_iff, List.isPrefixOf_iff_prefix, placeholderMatch, String.toList_ofList]
  constructor
  · rintro ⟨rest, rfl⟩
    exact ⟨hne, hbrace, rest, by simp⟩
  · rintro ⟨-, -, rest, rfl⟩
    exact ⟨rest, by simp⟩

theorem mem_placeholderMatches {skip : Nat} {cs : List Char} {m : String × String}
    (h : m ∈ placeholderMatches skip cs) :
    ∃ inner, inner ≠ [] ∧ '}' ∉ inner ∧ m = placeholderMatch inner := by
  induction cs generalizing skip with
  | nil => cases skip <;> cases h
  | cons c cs ih =>
    cases skip with
    | succ skip => exact ih h
    | zero =>
      rw [placeholderMatches] at h
      split at h
      · rename_i inner hinner
        obtain ⟨hne, hbrace, -⟩ := placeholderAt_eq_some_iff.mp hinner
        rcases List.mem_cons.mp h with rfl | h
        · exact ⟨inner, hne, hbrace, rfl⟩
        · exact ih h
      · exact ih h

theorem replaceN_eq_fill {reps : List (String × String)} {texts : String → List Char}
    (hreps : ∀ rep ∈ reps, ∃ inner, inner ≠ [] ∧ '}' ∉ inner ∧
      rep.1 = (placeholderMatch inner).1 ∧ rep.2.toList = texts (String.ofList inner))
    {skip : Nat} {cs : List Char}
    (hall : ∀ m ∈ placeholderMatches skip cs, ∃ rep ∈ reps, rep.1 = m.1) :
    replaceN reps skip cs = fill texts (templateFrom skip cs) := by
  induction cs generalizing skip with
  | nil => cases skip <;> rfl
  | cons c cs ih =>
    cases skip with
    | succ skip => exact ih hall
    | zero =>
      rw [placeholderMatches] at hall
      rw [replaceN, templateFrom]
      cases hat : placeholderAt (c :: cs) with
      | none =>
        have hnone : (reps.find? fun rep => rep.1.toList.isPrefixOf (c :: cs)) = none := by
          refine List.find?_eq_none.mpr fun rep hrep hprefix => ?_
          obtain ⟨inner, hne, hbrace, hfst, -⟩ := hreps rep hrep
          rw [hfst, isPrefixOf_placeholder_iff hne hbrace, hat] at hprefix
          cases hprefix
        rw [hat] at hall
        rw [hnone]
        exact congrArg _ (ih hall)
      | some inner =>
        rw [hat] at hall
        obtain ⟨hne, hbrace, -⟩ := placeholderAt_eq_some_iff.mp hat
        obtain ⟨rep, hrep, hfst⟩ := hall _ List.mem_cons_self
        have hsome : ∃ found, (reps.find? fun rep => rep.1.toList.isPrefixOf (c :: cs)) =
            some found := by
          refine Option.isSome_iff_exists.mp (List.find?_isSome.mpr ⟨rep, hrep, ?_⟩)
          rw [hfst]
          exact (isPrefixOf_placeholder_iff hne hbrace).mpr hat
        obtain ⟨found, hfound⟩ := hsome
        obtain ⟨inner', hne', hbrace', hfst', htext⟩ :=
          hreps found (List.mem_of_find?_eq_some hfound)
        have hprefix := List.find?_some hfound
        rw [hfst', isPrefixOf_placeholder_iff hne' hbrace', hat, Option.some.injEq] at hprefix
        subst hprefix
        rw [hfound]
        have hlength : found.1.toList.length - 1 = inner.length + 2 := by
          rw [hfst', placeholderMatch, String.toList_ofList]
          simp
        show found.2.toList ++ _ = texts _ ++ fill texts _
        rw [htext, hlength, ih fun m hm => hall m (List.mem_cons_of_mem _ hm)]

/-! ## Texts that are expanded once -/

section

variable (B : Builtins) (sub resource : Value)

/-- The text that a placeholder is replaced by, before it is escaped. -/
def placeholderText (inner : String) : Option String :=
  (resolveScope B inner sub resource).bind (scalarToString B)

/-- The texts of the placeholders of a request. -/
def substituted (inner : String) : List Char :=
  ((placeholderText B sub resource inner).getD "").toList

variable {B sub resource}

theorem interpolateWith_eq_fill {encode : String → String} {s out : String}
    (h : (interpolateWith B encode s sub resource).Yields out) :
    out.toList =
      fill (fun inner => (encode ((placeholderText B sub resource inner).getD "")).toList)
        (templateItems s) := by
  obtain ⟨reps, hobject, hout⟩ := Yields.of_bind h
  rw [yields_require_bind, yields_pure, decide_eq_true_eq] at hout
  obtain ⟨hlength, rfl⟩ := hout
  have hkey : ∀ (m rep : String × String),
      (do let replacement ← Eval.ofOption ((resolveScope B m.2 sub resource).bind (scalarToString B))
          return (m.1, encode replacement) : Eval (String × String)).Yields rep →
        rep.1 = m.1 ∧ rep.2 = encode ((placeholderText B sub resource m.2).getD "") := by
    intro m rep hrep
    rw [yields_ofOption_bind] at hrep
    obtain ⟨replacement, htext, hrep⟩ := hrep
    rw [yields_pure] at hrep
    rw [hrep, placeholderText, htext]
    exact ⟨rfl, rfl⟩
  rw [String.toList_ofList]
  refine replaceN_eq_fill (fun rep hrep => ?_)
    (hobject.exists_of_length (fun m rep hrep => (hkey m rep hrep).1) hlength)
  obtain ⟨m, hm, hrep⟩ := ((hobject.of_object.2 rep).mp hrep).of_bind
  obtain ⟨inner, hne, hbrace, rfl⟩ := mem_placeholderMatches (yields_solutions.mp hm)
  obtain ⟨hfst, hsnd⟩ := hkey _ rep hrep
  exact ⟨inner, hne, hbrace, hfst, congrArg String.toList hsnd⟩

theorem templateItems_of_wholePlaceholder {s : String} (h : wholePlaceholder s = true) :
    templateItems s = [.hole (placeholderInner s)] := by
  rw [wholePlaceholder] at h
  split at h
  · rename_i inner hat
    obtain ⟨-, -, rest, hs⟩ := placeholderAt_eq_some_iff.mp hat
    obtain rfl : rest = [] := by
      rw [hs] at h
      simpa using h
    have hinner : placeholderInner s = String.ofList inner := by
      rw [placeholderInner, hs]
      simp
    rw [hinner, templateItems, hs]
    rw [hs] at hat
    rw [templateFrom, hat]
    show Item.hole _ :: templateFrom _ _ = _
    rw [templateFrom_skip, List.drop_eq_nil_of_le (by simp)]
    rfl
  · cases h

/-- The text of a query value with its placeholders replaced. -/
theorem expandString_eq_fill {s : String} {value : Value}
    (h : (expandString B (.string s) sub resource).Yields value)
    (hscalar : isQueryScalar value = true) :
    (B.platform.regoSprint value).toList = fill (substituted B sub resource) (templateItems s) := by
  obtain ⟨body, hbody, h⟩ := h.of_rule
  simp only [List.mem_cons, List.not_mem_nil, or_false] at hbody
  rcases hbody with rfl | rfl | rfl
  · rw [yields_require_bind] at h
    exact absurd h.1 Bool.false_ne_true
  · rw [yields_ofOption_bind] at h
    obtain ⟨text, htext, h⟩ := h
    obtain rfl : s = text := Option.some.inj htext
    rw [yields_require_bind, yields_pure] at h
    obtain ⟨hwhole, rfl⟩ := h
    rw [templateItems_of_wholePlaceholder hwhole, Template.fill_hole]
    rw [resolveScopeOrNull] at hscalar ⊢
    cases hvalue : resolveScope B (placeholderInner s) sub resource with
    | none => rw [hvalue] at hscalar; cases hscalar
    | some value =>
      rw [hvalue, Option.getD_some] at hscalar
      have htext : placeholderText B sub resource (placeholderInner s) =
          some (B.platform.regoSprint value) := by
        rw [placeholderText, hvalue, Option.bind_some]
        cases value with
        | string t => rw [scalarToString, B.platform.regoSprint_string]
        | number q => rfl
        | bool b => rfl
        | _ => cases hscalar
      rw [substituted, htext, Option.getD_some, Option.getD_some]
      exact (List.append_nil _).symm
  · rw [yields_ofOption_bind] at h
    obtain ⟨text, htext, h⟩ := h
    obtain rfl : s = text := Option.some.inj htext
    rw [yields_require_bind] at h
    obtain ⟨out, hout, h⟩ := h.2.of_bind
    rw [yields_pure] at h
    rw [interpolate] at hout
    rw [h, B.platform.regoSprint_string, interpolateWith_eq_fill hout]
    rfl

end

/-! ## The URL of a request -/

/-- The members of the query map, with texts in the place of placeholders. -/
def queryWith (texts : String → List Char) (query : List (String × String)) :
    List (String × String) :=
  (Dict.ofList query).entries.map fun param =>
    (param.1, String.ofList (queryEscape (fill texts (templateItems param.2))))

/-- The URL of a configuration with texts in the place of placeholders, each
    placeholder replaced once. -/
def urlWith (texts : String → List Char) (cfg : GeneralPIPConfig) : String :=
  withQuery (String.ofList (fill (fun inner => queryEscape (texts inner)) (templateItems cfg.url)))
    (queryWith texts cfg.query)

theorem sort_eq_of_perm {l l' : List String} (h : l.Perm l') :
    l.insertionSort (· ≤ ·) = l'.insertionSort (· ≤ ·) := by
  refine List.Perm.eq_of_pairwise (fun a b _ _ => le_antisymm)
    (List.pairwise_insertionSort _ l) (List.pairwise_insertionSort _ l') ?_
  exact ((List.perm_insertionSort _ l).trans h).trans (List.perm_insertionSort _ l').symm

theorem withQuery_eq_of_perm (url : String) {query query' : List (String × String)}
    (h : query.Perm query') : withQuery url query = withQuery url query' := by
  rw [withQuery, withQuery, sort_eq_of_perm (h.map _)]
  have hempty : query = [] ↔ query' = [] := by
    rw [← List.length_eq_zero_iff, ← List.length_eq_zero_iff, h.length_eq]
  by_cases hnil : query = []
  · rw [if_pos hnil, if_pos (hempty.mp hnil)]
  · rw [if_neg hnil, if_neg fun hnil' => hnil (hempty.mpr hnil')]

section

variable {E : Env} {sub resource : Value}

/-- `urlquery.encode` is `url.QueryEscape`. -/
def Escapes (E : Env) : Prop :=
  ∀ s, (E.builtins.urlqueryEncode s).toList = queryEscape s.toList

theorem expandQuery_perm (hE : Escapes E) {query out : List (String × String)}
    (h : (expandQuery E query sub resource).Yields out) :
    out.Perm (queryWith (substituted E.builtins sub resource) query) := by
  obtain ⟨members, hobject, hout⟩ := Yields.of_bind h
  rw [yields_require_bind, yields_pure, decide_eq_true_eq] at hout
  obtain ⟨hlength, rfl⟩ := hout
  have hmember : ∀ (param : Sigma fun _ : String => String) (m : String × String),
      (do let value ← expandString E.builtins (.string param.2) sub resource
          .require (isQueryScalar value)
          return (param.1, urlqueryEncode E value) : Eval (String × String)).Yields m →
        m = (param.1, String.ofList
          (queryEscape (fill (substituted E.builtins sub resource) (templateItems param.2)))) := by
    intro param m hm
    obtain ⟨value, hvalue, hm⟩ := hm.of_bind
    rw [yields_require_bind, yields_pure] at hm
    obtain ⟨hscalar, rfl⟩ := hm
    refine Prod.ext rfl (String.toList_injective ?_)
    rw [String.toList_ofList, ← expandString_eq_fill hvalue hscalar]
    exact hE _
  have hnodup := (Dict.ofList query).nodupKeys
  have hkeys : ((Dict.ofList query).entries.map Sigma.fst).dedup =
      (Dict.ofList query).entries.map Sigma.fst := List.dedup_eq_self.mpr hnodup
  have hfound : ∀ param ∈ (Dict.ofList query).entries, ∃ m ∈ out, m.1 = param.1 :=
    hobject.exists_of_length (fun param m hm => congrArg Prod.fst (hmember param m hm))
      (by rw [hlength, hkeys, List.length_map])
  rw [queryWith, List.perm_ext_iff_of_nodup hobject.of_object.1]
  · intro m
    rw [hobject.of_object.2 m, List.mem_map]
    constructor
    · intro hm
      obtain ⟨param, hparam, hm⟩ := hm.of_bind
      exact ⟨param, yields_solutions.mp hparam, (hmember param m hm).symm⟩
    · rintro ⟨param, hparam, rfl⟩
      -- the member under the key of an entry is the one of the entry
      obtain ⟨m, hm, hfst⟩ := hfound param hparam
      have hyields := (hobject.of_object.2 m).mp hm
      obtain ⟨param', hparam', hm'⟩ := hyields.of_bind
      have hm'' := hmember param' m hm'
      have hsame : param' = param := by
        refine List.inj_on_of_nodup_map hnodup (yields_solutions.mp hparam') hparam ?_
        rw [← hfst, hm'']
      rw [← hsame, ← hm'']
      exact hyields
  · refine List.Nodup.of_map Prod.fst ?_
    rw [List.map_map]
    exact hnodup

/-- The URL of a request is the configured one, expanded once. -/
theorem buildPipRequest_url (hE : Escapes E) {cfg : GeneralPIPConfig} {req : PipRequest}
    (hwhole : wholePlaceholder cfg.url = false)
    (h : (buildPipRequest E cfg resource sub).Yields req) :
    req.url = urlWith (substituted E.builtins sub resource) cfg := by
  obtain ⟨url, hurl, h⟩ := Yields.of_bind h
  obtain ⟨query, hquery, h⟩ := Yields.of_bind h
  obtain ⟨headers, -, h⟩ := Yields.of_bind h
  obtain ⟨body, -, h⟩ := Yields.of_bind h
  rw [yields_pure] at h
  have htext : url.toList =
      fill (fun inner => queryEscape (substituted E.builtins sub resource inner))
        (templateItems cfg.url) := by
    obtain ⟨expansion, hmem, hurl⟩ := hurl.of_rule
    simp only [List.mem_cons, List.not_mem_nil, or_false] at hmem
    rcases hmem with rfl | rfl
    · rw [yields_require_bind, hwhole] at hurl
      exact absurd hurl.1 Bool.false_ne_true
    · rw [yields_require_bind, interpolateEnc] at hurl
      rw [interpolateWith_eq_fill hurl.2]
      exact congrArg (fun f => fill f (templateItems cfg.url)) (funext fun inner => hE _)
  rw [h, urlWith, ← htext, String.ofList_toList]
  exact withQuery_eq_of_perm url (expandQuery_perm hE hquery)

end

/-! ## Its structure -/

def queryPairs (query : List (String × String)) : List String :=
  (query.map fun q => q.1 ++ "=" ++ q.2).insertionSort (· ≤ ·)

/-- What the query map adds to a URL. -/
def queryText (query : List (String × String)) : List Char :=
  if query = [] then [] else '?' :: ['&'].intercalate ((queryPairs query).map String.toList)

theorem toList_withQuery (url : String) (query : List (String × String)) :
    (withQuery url query).toList = url.toList ++ queryText query := by
  rw [withQuery, queryText]
  split_ifs
  · exact (List.append_nil _).symm
  · rw [String.toList_append, String.toList_append, String.toList_intercalate, List.append_assoc]
    rfl

theorem queryPairs_ne_nil {query : List (String × String)} (h : query ≠ []) :
    (queryPairs query).map String.toList ≠ [] := by
  rw [ne_eq, List.map_eq_nil_iff, ← List.length_eq_zero_iff, queryPairs, List.length_insertionSort,
    List.length_map, List.length_eq_zero_iff]
  exact h

theorem sorts_queryPairs (texts : String → List Char) (query : List (String × String)) :
    Url.Sorts ((queryWith texts query).map fun q => (q.1.toList, q.2.toList))
      ((queryPairs (queryWith texts query)).map String.toList) where
  sorted := by
    rw [List.pairwise_map]
    exact (List.pairwise_insertionSort _ _).imp String.le_iff_toList_le.mp
  perm := by
    refine ((List.perm_insertionSort _ _).map String.toList).trans (List.Perm.of_eq ?_)
    rw [List.map_map, List.map_map]
    refine List.map_congr_left fun q _ => ?_
    show (q.1 ++ "=" ++ q.2).toList = _
    rw [String.toList_append, String.toList_append, List.append_assoc]
    rfl
  inert := by
    intro pair hpair c hc
    obtain ⟨q, hq, rfl⟩ := List.mem_map.mp hpair
    obtain ⟨param, -, rfl⟩ := List.mem_map.mp hq
    rw [String.toList_ofList] at hc
    exact Url.isDelimiter_of_mem_queryEscape hc

theorem mem_keys_queryWith (texts : String → List Char) (query : List (String × String))
    (k : List Char) :
    k ∈ ((queryWith texts query).map fun q => (q.1.toList, q.2.toList)).map Prod.fst ↔
      k ∈ (Dict.ofList query).entries.map fun param => param.1.toList := by
  rw [queryWith, List.map_map, List.map_map]
  rfl

theorem queryWith_eq_nil_iff (texts : String → List Char) (query : List (String × String)) :
    queryWith texts query = [] ↔ (Dict.ofList query).entries = [] :=
  List.map_eq_nil_iff

theorem escaped_word : (fun inner => queryEscape (Url.word inner)) = (Url.word : String → List Char) :=
  funext fun _ => (by decide : queryEscape ['x'] = ['x'])

theorem inert_escaped (texts : String → List Char) :
    Url.Inert fun inner => queryEscape (texts inner) :=
  fun _ _ hc => Url.isDelimiter_of_mem_queryEscape hc

theorem wholePlaceholder_of_written {s : String} {scheme : List Char}
    {authority tail : List (Item String)} (hne : scheme ≠ [])
    (h : templateItems s = Url.writtenItems scheme authority tail) : wholePlaceholder s = false := by
  by_contra hwhole
  rw [Bool.not_eq_false] at hwhole
  rw [templateItems_of_wholePlaceholder hwhole] at h
  obtain ⟨c, scheme, rfl⟩ := List.exists_cons_of_ne_nil hne
  cases h

/-- The values keep the structure of a configured URL: its authority, the segments
    of its path, and the keys of a query that it begins itself. -/
def KeepsUrl (texts : String → List Char) (cfg : GeneralPIPConfig)
    (authority tail : List (Item String)) : Prop :=
  Url.KeepsShape (fun inner => queryEscape (texts inner)) authority tail
    (queryText (queryWith texts cfg.query)) (queryText (queryWith Url.word cfg.query))

/-- The structure of a configured URL with texts in the place of placeholders. -/
theorem sameShape_urlWith_iff {cfg : GeneralPIPConfig} {scheme : List Char}
    {authority tail : List (Item String)} (hwritten : Url.Written scheme authority tail)
    (hurl : templateItems cfg.url = Url.writtenItems scheme authority tail)
    (texts : String → List Char) :
    Url.SameShape (urlWith texts cfg).toList (urlWith Url.word cfg).toList ↔
      KeepsUrl texts cfg authority tail := by
  rw [urlWith, urlWith, escaped_word, hurl, toList_withQuery, toList_withQuery,
    String.toList_ofList, String.toList_ofList, KeepsUrl]
  by_cases hempty : (Dict.ofList cfg.query).entries = []
  · have hnone : ∀ texts, queryText (queryWith texts cfg.query) = [] := fun texts =>
      if_pos ((queryWith_eq_nil_iff texts _).mpr hempty)
    rw [hnone, hnone, List.append_nil, List.append_nil]
    exact hwritten.sameShape_iff (inert_escaped texts)
  · have hne : ∀ texts, queryWith texts cfg.query ≠ [] := fun texts hnil =>
      hempty ((queryWith_eq_nil_iff texts _).mp hnil)
    rw [queryText, queryText, if_neg (hne _), if_neg (hne _)]
    exact hwritten.sameShape_query_iff (inert_escaped texts) (sorts_queryPairs texts cfg.query)
      (sorts_queryPairs Url.word cfg.query)
      (fun k => (mem_keys_queryWith _ _ k).trans (mem_keys_queryWith _ _ k).symm)
      (queryPairs_ne_nil (hne _)) (queryPairs_ne_nil (hne _))

/-- A request has the structure of the configured URL, and expands it once, exactly
    where the authority stays as it is, the path settles behind the segments that
    values turn into dot segments, and the keys of a query that the url begins stay
    the same. -/
theorem request_url_structure_iff (E : Env) (hE : Escapes E) (cfg : GeneralPIPConfig)
    (resource sub : Value) (req : PipRequest) (hreq : (buildPipRequest E cfg resource sub).Yields req)
    (scheme : List Char) (authority tail : List (Item String))
    (hwritten : Url.Written scheme authority tail)
    (hurl : templateItems cfg.url = Url.writtenItems scheme authority tail) :
    (Url.SameShape req.url.toList (urlWith Url.word cfg).toList ∧
        req.url = urlWith (substituted E.builtins sub resource) cfg) ↔
      KeepsUrl (substituted E.builtins sub resource) cfg authority tail := by
  have hwhole := wholePlaceholder_of_written hwritten.scheme_ne hurl
  have honce := buildPipRequest_url hE hwhole hreq
  rw [honce, and_iff_left rfl]
  exact sameShape_urlWith_iff hwritten hurl _

/-- A PIP that asks for the roles of a user. -/
def rolesPip : GeneralPIPConfig where
  name := "subject.roles"
  aliasName := "roles"
  url := "http://roles/users/$\x7bresource.id\x7d/roles"
  httpMethod := "GET"
  query := [("tenant", "$\x7bsubject.id\x7d")]
  forwardHeaders := []
  setHeaders := []
  body := none
  timeoutSeconds := 5
  response := none
  defaultValue := none

/-- An environment that escapes texts as `url.QueryEscape` does. -/
def escapingEnv : Env where
  builtins := ⟨Platform.ascii, fun s => String.ofList (queryEscape s.toList), fun _ => none,
    fun raw _ => some raw, id⟩
  send := fun _ => none
  pips := filed Platform.ascii []
  activation := ∅
  entitlements := none
  m2mBearerToken := ""
  requestId := .string "r1"
  requestHeaders := .object []

/-- A resource with an id. -/
def user (id : String) : Value := .object [("id", .string id)]

theorem escapes_escapingEnv : Escapes escapingEnv := fun _ => String.toList_ofList

/-- What follows the host in the url of `rolesPip`. -/
def rolesTail : List (Item String) :=
  "/users/".toList.map .char ++ .hole "resource.id" :: "/roles".toList.map .char

theorem roles_written :
    Url.Written "http".toList ("roles".toList.map .char) rolesTail where
  scheme_ne := by decide
  in_scheme := fun c hc => by
    have hall : "http".toList.any Url.endsScheme = false := by decide
    simpa using List.any_eq_false.mp hall c hc
  in_authority := fun item hitem => by
    have hall : (("roles".toList.map .char : List (Item String)).any
      (Item.isAt Url.endsAuthority)) = false := by decide
    simpa using List.any_eq_false.mp hall item hitem
  tail_start := fun item hitem => by
    obtain rfl : .char '/' = item := Option.some.inj hitem
    rfl

theorem user_id_keeps_structure :
    ∃ req, (buildPipRequest escapingEnv rolesPip (user "u?7/../8") (user "a=b")).Yields req ∧
      Url.SameShape req.url.toList (urlWith Url.word rolesPip).toList ∧
      req.url = urlWith (substituted escapingEnv.builtins (user "a=b") (user "u?7/../8")) rolesPip := by
  obtain ⟨req, hreq, -⟩ := exists_yields_of_any (x := buildPipRequest escapingEnv rolesPip
    (user "u?7/../8") (user "a=b")) (p := fun req =>
      req.url = "http://roles/users/u%3F7%2F..%2F8/roles?tenant=a%3Db") (by decide +kernel)
  have hurl : templateItems rolesPip.url =
      Url.writtenItems "http".toList ("roles".toList.map .char) rolesTail := by decide +kernel
  have hown : ∀ f more, Url.ownQuery f rolesTail more = none := fun f more => rfl
  have hkeeps : KeepsUrl (substituted escapingEnv.builtins (user "a=b") (user "u?7/../8")) rolesPip
      ("roles".toList.map .char) rolesTail :=
    { authority := rfl
      path := by decide +kernel
      keys := fun key => by rw [hown, hown] }
  have hiff := request_url_structure_iff escapingEnv escapes_escapingEnv rolesPip (user "u?7/../8")
    (user "a=b") req hreq "http".toList ("roles".toList.map .char) rolesTail roles_written hurl
  exact ⟨req, hreq, hiff.mpr hkeeps⟩

/-- The id ".." takes the segment before it off the path: the request asks for
    `/roles`. -/
theorem dotdot_leaves_users :
    ∃ req, (buildPipRequest escapingEnv rolesPip (user "..") (user "alice")).Yields req ∧
      req.url = "http://roles/users/../roles?tenant=alice" ∧
      ¬ Url.SameShape req.url.toList (urlWith Url.word rolesPip).toList := by
  obtain ⟨req, hreq, hurl⟩ := exists_yields_of_any (x := buildPipRequest escapingEnv rolesPip
    (user "..") (user "alice")) (p := fun req =>
      req.url = "http://roles/users/../roles?tenant=alice") (by decide +kernel)
  rw [decide_eq_true_eq] at hurl
  refine ⟨req, hreq, hurl, fun h => ?_⟩
  have hcount := h.segments
  rw [hurl] at hcount
  exact absurd hcount (by decide +kernel)

end Pip

end AuthzAgent
