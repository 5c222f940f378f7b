import MessageService.Asgi
import MessageService.Library.Documents

/-! `_problemize`: the generated OpenAPI document is edited in place until it documents the errors
the service really answers. -/
namespace OpenApi

open Documents Asgi

section Edit

/-- `int` of a text of decimal digits, of which it takes 4300. What else it takes is no status. -/
def pythonInt (s : String) : Option ℕ :=
  if s ≠ "" ∧ s.toList.all Char.isDigit ∧ s.length ≤ 4300 then
    some (s.toList.foldl (fun n c => n * 10 + (c.toNat - 48)) 0)
  else none

def appJson : String := "application/json"

/-- `content[PROBLEM_JSON] = content.pop("application/json")`, if that is there. -/
def moveContent (content : Members) : Members :=
  match get? appJson content with
  | some media => set problemJson media (pop appJson content)
  | none => content

/-- One response; only of an error is the content looked at, which has to be an object. -/
def problemizeResponse (status : String) (response : Members) : Option Members :=
  (pythonInt status).bind fun n =>
    if n ≥ 400 then within "content" (fun content => some (moveContent content)) response
    else some response

def problemizeResponses (responses : Members) : Option Members :=
  each problemizeResponse (pop "422" responses)

/-- The schemas of the default validation error. -/
def removed : List String := ["HTTPValidationError", "ValidationError"]

def dropSchemas (schemas : Members) : Members :=
  removed.foldl (fun schemas name => pop name schemas) schemas

/-- `_problemize`, where the source would raise none. -/
def problemize (schema : Members) : Option Members :=
  (within "paths" (each fun _ => each fun _ => within "responses" problemizeResponses) schema).bind
    (within "components" (within "schemas" fun schemas => some (dropSchemas schemas)))

end Edit

section Documents

/-- A response under a decimal status; an error is not documented twice. -/
structure ResponseFits (status : String) (response : Members) : Prop where
  decimal : pythonInt status ≠ none
  content : ∀ n ∈ pythonInt status, n ≥ 400 → ObjectAt "content" (fun content =>
    get? appJson content = none ∨ get? problemJson content = none) response

structure WellFormed (schema : Members) : Prop where
  paths : ObjectAt "paths" (AllObjects fun _ => AllObjects fun _ =>
    ObjectAt "responses" (AllObjects ResponseFits)) schema
  components : ObjectAt "components" (ObjectAt "schemas" fun _ => True) schema

/-- An OpenAPI document whose path items hold operations only. -/
structure Document where
  schema : Members
  wellFormed : WellFormed schema

structure ContentMoved (content content' : Members) : Prop where
  moved : ∀ media, get? appJson content = some media → get? problemJson content' = some media
  kept : get? appJson content = none → get? problemJson content' = get? problemJson content
  gone : get? appJson content' = none
  others : ∀ k, k ≠ appJson → k ≠ problemJson → get? k content' = get? k content

structure ResponseRewritten (status : String) (response response' : Members) : Prop where
  errors : ∀ n ∈ pythonInt status, n ≥ 400 → EditedAt "content" ContentMoved response response'
  others : ∀ n ∈ pythonInt status, n < 400 → response' = response
  decimal : pythonInt status ≠ none

structure ResponsesRewritten (responses responses' : Members) : Prop where
  unprocessable : get? "422" responses' = none
  others : ∀ status, status ≠ "422" →
    Edited (ResponseRewritten status) (get? status responses) (get? status responses')

def SchemasDropped (schemas schemas' : Members) : Prop :=
  ∀ name, get? name schemas' = if name ∈ removed then none else get? name schemas

/-- What the edit makes of a document, and all it makes of it. -/
structure Rewritten (schema schema' : Members) : Prop where
  paths : Edited (EditedEach fun _ => EditedEach fun _ => EditedAt "responses" ResponsesRewritten)
    (get? "paths" schema) (get? "paths" schema')
  components : Edited (EditedAt "schemas" SchemasDropped)
    (get? "components" schema) (get? "components" schema')
  others : ∀ k, k ≠ "paths" → k ≠ "components" → get? k schema' = get? k schema

end Documents

section Rewriting

theorem moveContent_absent {content : Members} (h : get? appJson content = none) :
    moveContent content = content := by
  rw [moveContent, h]

theorem moveContent_moved (content : Members) : ContentMoved content (moveContent content) := by
  cases h : get? appJson content with
  | none =>
    rw [moveContent_absent h]
    exact ⟨fun media hm => (Option.some_ne_none _ (hm.symm.trans h)).elim, fun _ => rfl, h,
      fun _ _ _ => rfl⟩
  | some media =>
    rw [moveContent, h]
    refine ⟨?_, fun hn => (Option.some_ne_none _ (h.symm.trans hn)).elim, ?_, ?_⟩
    · intro media' hm
      rw [get?_set, if_pos rfl, ← h, hm]
    · rw [get?_set, if_neg (by decide), get?_pop, if_pos rfl]
    · intro k hk hk'
      rw [get?_set, if_neg hk', get?_pop, if_neg hk]

theorem problemizeResponse_rewrites {status : String} {response : Members}
    (h : ResponseFits status response) : ∃ response',
      problemizeResponse status response = some response' ∧
        ResponseRewritten status response response' := by
  obtain ⟨n, hn⟩ := Option.ne_none_iff_exists'.mp h.decimal
  unfold problemizeResponse
  rw [hn, Option.bind_some]
  by_cases hstatus : n ≥ 400
  · rw [if_pos hstatus]
    obtain ⟨response', hedit, hmoved⟩ := within_edits (h.content n hn hstatus)
      fun content _ => ⟨_, rfl, moveContent_moved content⟩
    refine ⟨response', hedit, fun _ _ _ => hmoved, ?_, h.decimal⟩
    intro m hm hless
    obtain rfl : n = m := Option.some.inj (hn.symm.trans hm)
    omega
  · rw [if_neg hstatus]
    refine ⟨response, rfl, ?_, fun _ _ _ => rfl, h.decimal⟩
    intro m hm hmore
    obtain rfl : n = m := Option.some.inj (hn.symm.trans hm)
    exact absurd hmore hstatus

theorem problemizeResponses_rewrites {responses : Members} (h : AllObjects ResponseFits responses) :
    ∃ responses', problemizeResponses responses = some responses' ∧
      ResponsesRewritten responses responses' := by
  obtain ⟨responses', heach, hedited⟩ := each_edits (h.pop "422")
    fun status response hfits => problemizeResponse_rewrites hfits
  refine ⟨responses', heach, ?_, ?_⟩
  · exact each_absent heach (by rw [get?_pop, if_pos rfl])
  · intro status hstatus
    have hstatus' := hedited status
    rw [get?_pop, if_neg hstatus] at hstatus'
    exact hstatus'

theorem dropSchemas_dropped (schemas : Members) : SchemasDropped schemas (dropSchemas schemas) := by
  intro name
  simp only [dropSchemas, removed, List.foldl_cons, List.foldl_nil, get?_pop, List.mem_cons,
    List.not_mem_nil, or_false]
  by_cases hvalidation : name = "ValidationError"
  · simp [hvalidation]
  · by_cases hhttp : name = "HTTPValidationError"
    · simp [hhttp]
    · simp [hvalidation, hhttp]

theorem problemize_rewrites {schema : Members} (h : WellFormed schema) :
    ∃ schema', problemize schema = some schema' ∧ Rewritten schema schema' := by
  obtain ⟨edited, hpaths, hwithin⟩ := within_edits h.paths fun paths hitems =>
    each_edits hitems fun _ item hoperations =>
      each_edits hoperations fun _ operation hresponses =>
        within_edits hresponses fun responses hfits => problemizeResponses_rewrites hfits
  have hcomponents : ObjectAt "components" (ObjectAt "schemas" fun _ => True) edited := by
    intro v hv
    rw [hwithin.others _ (by decide)] at hv
    exact h.components v hv
  obtain ⟨schema', hdropped, hwithin'⟩ := within_edits hcomponents fun components hschemas =>
    within_edits hschemas fun schemas _ => ⟨_, rfl, dropSchemas_dropped schemas⟩
  refine ⟨schema', ?_, ?_, ?_, ?_⟩
  · rw [problemize, hpaths, Option.bind_some, hdropped]
  · rw [hwithin'.others _ (by decide)]
    exact hwithin.edited
  · rw [← hwithin.others "components" (by decide)]
    exact hwithin'.edited
  · intro k hp hc
    rw [hwithin'.others k hc, hwithin.others k hp]

end Rewriting

section Repeating

theorem problemizeResponse_again (status : String) (response response' : Members)
    (h : problemizeResponse status response = some response') :
    problemizeResponse status response' = some response' := by
  unfold problemizeResponse at h ⊢
  obtain ⟨n, hn, hedit⟩ := Option.bind_eq_some_iff.mp h
  rw [hn, Option.bind_some]
  by_cases hstatus : n ≥ 400
  · rw [if_pos hstatus] at hedit ⊢
    apply within_idempotent _ hedit
    intro content content' hmove
    obtain rfl := Option.some.inj hmove
    rw [moveContent_absent (moveContent_moved content).gone]
  · rw [if_neg hstatus]

theorem problemizeResponses_again (responses responses' : Members)
    (h : problemizeResponses responses = some responses') :
    problemizeResponses responses' = some responses' := by
  have hgone : get? "422" responses' = none :=
    each_absent h (by rw [get?_pop, if_pos rfl])
  unfold problemizeResponses
  rw [pop_absent hgone]
  exact each_idempotent problemizeResponse_again h

theorem dropSchemas_again (schemas : Members) :
    dropSchemas (dropSchemas schemas) = dropSchemas schemas := by
  have hgone : ∀ name ∈ removed, get? name (dropSchemas schemas) = none := by
    intro name hname
    rw [dropSchemas_dropped schemas name, if_pos hname]
  change pop _ (pop _ (dropSchemas schemas)) = _
  rw [pop_absent (hgone _ (by decide)), pop_absent (hgone _ (by decide))]

/-- The edit finds nothing more to do in what it has edited. -/
theorem problemize_again {schema schema' : Members} (h : problemize schema = some schema') :
    problemize schema' = some schema' := by
  obtain ⟨edited, hpaths, hdropped⟩ := Option.bind_eq_some_iff.mp h
  have hfixed := within_idempotent (fun _ _ => each_idempotent fun _ _ _ =>
    each_idempotent fun _ _ _ => within_idempotent problemizeResponses_again) hpaths
  have hpaths' : within "paths" (each fun _ => each fun _ => within "responses"
      problemizeResponses) schema' = some schema' := by
    rw [within_fixed_iff] at hfixed ⊢
    rw [within_others hdropped (by decide)]
    exact hfixed
  rw [problemize, hpaths', Option.bind_some]
  apply within_idempotent _ hdropped
  intro _ _
  apply within_idempotent
  intro schemas schemas' hdrop
  obtain rfl := Option.some.inj hdrop
  rw [dropSchemas_again]

end Repeating

section References

/-- A reference to a schema of the document, or into it. Of other references, say to a response,
nothing is said. -/
def SchemaRef (name ref : String) : Prop := ∃ rest, ref.toList =
  ("#/components/schemas/" ++ name).toList ++ rest ∧ ∀ c ∈ rest.head?, c = '/'

def Referenced (name : String) (schema : Members) : Prop :=
  ∃ keys, RefersAt (SchemaRef name) keys (.obj schema)

def HasSchema (name : String) (schema : Members) : Prop :=
  ∃ components schemas, get? "components" schema = some (.obj components) ∧
    get? "schemas" components = some (.obj schemas) ∧ get? name schemas ≠ none

/-- A reference to a schema that is not among the components. -/
def Dangling (name : String) (schema : Members) : Prop :=
  Referenced name schema ∧ ¬HasSchema name schema

/-- The places the edit takes out of a document. -/
def Dropped (keys : List String) : Prop :=
  (∃ path method rest, keys = "paths" :: path :: method :: "responses" :: "422" :: rest) ∨
    ∃ name rest, name ∈ removed ∧ keys = "components" :: "schemas" :: name :: rest

theorem dropped_head {k : String} {rest : List String} (h : Dropped (k :: rest)) :
    k = "paths" ∨ k = "components" := by
  obtain ⟨_, _, _, hkeys⟩ | ⟨_, _, _, hkeys⟩ := h
  · exact Or.inl (List.cons.inj hkeys).1
  · exact Or.inr (List.cons.inj hkeys).1

theorem dropped_operation {path method : String} {rest : List String}
    (h : Dropped ("paths" :: path :: method :: rest)) :
    ∃ tail, rest = "responses" :: "422" :: tail := by
  obtain ⟨_, _, tail, hkeys⟩ | ⟨_, _, _, hkeys⟩ := h
  · simp only [List.cons.injEq] at hkeys
    exact ⟨tail, hkeys.2.2.2⟩
  · exact absurd (List.cons.inj hkeys).1 (by decide)

theorem dropped_components {rest : List String} (h : Dropped ("components" :: rest)) :
    ∃ name ∈ removed, ∃ tail, rest = "schemas" :: name :: tail := by
  obtain ⟨_, _, _, hkeys⟩ | ⟨name, tail, hname, hkeys⟩ := h
  · exact absurd (List.cons.inj hkeys).1 (by decide)
  · exact ⟨name, hname, tail, (List.cons.inj hkeys).2⟩

/-- The two schemas are referred to from 422 responses and from each other only. -/
def OnlyDropped (schema : Members) : Prop :=
  ∀ name ∈ removed, ∀ keys, RefersAt (SchemaRef name) keys (.obj schema) → Dropped keys

variable {P : String → Prop} {keys : List String}

/-- A reference in moved content was in the content before. -/
theorem ContentMoved.refers {content content' : Members} (h : ContentMoved content content')
    (href : RefersAt P keys (.obj content')) : ∃ keys', RefersAt P keys' (.obj content) := by
  cases href with
  | here hget hP =>
    rw [h.others _ (by decide) (by decide)] at hget
    exact ⟨[], .here hget hP⟩
  | member hget hv =>
    rename_i k v rest
    by_cases hjson : k = appJson
    · subst hjson
      rw [h.gone] at hget
      cases hget
    · by_cases hproblem : k = problemJson
      · subst hproblem
        cases hbefore : get? appJson content with
        | none =>
          rw [h.kept hbefore] at hget
          exact ⟨problemJson :: rest, .member hget hv⟩
        | some media =>
          rw [h.moved media hbefore] at hget
          obtain rfl := Option.some.inj hget
          exact ⟨appJson :: rest, .member hbefore hv⟩
      · rw [h.others k hjson hproblem] at hget
        exact ⟨k :: rest, .member hget hv⟩

theorem ResponseRewritten.refers {status : String} {response response' : Members}
    (h : ResponseRewritten status response response') (href : RefersAt P keys (.obj response')) :
    ∃ keys', RefersAt P keys' (.obj response) := by
  obtain ⟨n, hn⟩ := Option.ne_none_iff_exists'.mp h.decimal
  by_cases hstatus : n ≥ 400
  · obtain ⟨hsame, _⟩ | ⟨rest, content, content', rfl, hget, hmoved, hrest⟩ :=
      (h.errors n hn hstatus).refers (by decide) href
    · exact ⟨keys, hsame⟩
    · obtain ⟨keys', hkeys⟩ := hmoved.refers hrest
      exact ⟨"content" :: keys', .member hget hkeys⟩
  · rw [h.others n hn (by omega)] at href
    exact ⟨keys, href⟩

/-- A reference in rewritten responses was in another response than the one that is gone. -/
theorem ResponsesRewritten.refers {responses responses' : Members}
    (h : ResponsesRewritten responses responses') (href : RefersAt P keys (.obj responses')) :
    ∃ status rest, status ≠ "422" ∧ RefersAt P (status :: rest) (.obj responses) := by
  cases href with
  | here hget hP =>
    have hedited := h.others "$ref" (by decide)
    rw [hget] at hedited
    obtain ⟨_, _, _, hstr, _⟩ := hedited.after
    cases hstr
  | member hget hv =>
    rename_i status v rest
    have hstatus : status ≠ "422" := by
      rintro rfl
      rw [h.unprocessable] at hget
      cases hget
    have hedited := h.others status hstatus
    rw [hget] at hedited
    obtain ⟨response, response', hbefore, rfl, hrewritten⟩ := hedited.after
    obtain ⟨keys', hkeys⟩ := hrewritten.refers hv
    exact ⟨status, keys', hstatus, .member hbefore hkeys⟩

theorem SchemasDropped.refers {schemas schemas' : Members} (h : SchemasDropped schemas schemas')
    (href : RefersAt P keys (.obj schemas')) :
    RefersAt P keys (.obj schemas) ∧ ∀ name ∈ keys.head?, name ∉ removed := by
  cases href with
  | here hget hP =>
    rw [h, if_neg (by decide)] at hget
    exact ⟨.here hget hP, by simp⟩
  | member hget hv =>
    rename_i name v rest
    rw [h] at hget
    by_cases hname : name ∈ removed
    · rw [if_pos hname] at hget
      cases hget
    · rw [if_neg hname] at hget
      exact ⟨.member hget hv, by simpa using hname⟩

/-- What a rewritten document refers to it referred to before, from a place that is left. -/
theorem Rewritten.refers {schema schema' : Members} (h : Rewritten schema schema')
    (href : RefersAt P keys (.obj schema')) :
    ∃ keys', RefersAt P keys' (.obj schema) ∧ ¬Dropped keys' := by
  cases href with
  | here hget hP =>
    rw [h.others _ (by decide) (by decide)] at hget
    exact ⟨[], .here hget hP, by simp [Dropped]⟩
  | member hget hv =>
    rename_i k v rest
    by_cases hpaths : k = "paths"
    · subst hpaths
      have hedited := h.paths
      rw [hget] at hedited
      obtain ⟨paths, paths', hbefore, rfl, heach⟩ := hedited.after
      obtain ⟨path, rest, item, item', rfl, hitem, hoperations, hrest⟩ := heach.refers hv
      obtain ⟨method, rest, operation, operation', rfl, hoperation, hresponses, hrest⟩ :=
        EditedEach.refers hoperations hrest
      obtain ⟨hsame, hhead⟩ | ⟨rest, responses, responses', rfl, hget, hrewritten, hrest⟩ :=
        hresponses.refers (by decide) hrest
      · refine ⟨"paths" :: path :: method :: rest,
          .member hbefore (.member hitem (.member hoperation hsame)), ?_⟩
        intro hdropped
        obtain ⟨tail, rfl⟩ := dropped_operation hdropped
        exact hhead rfl
      · obtain ⟨status, rest, hstatus, hrefers⟩ := hrewritten.refers hrest
        refine ⟨"paths" :: path :: method :: "responses" :: status :: rest,
          .member hbefore (.member hitem (.member hoperation (.member hget hrefers))), ?_⟩
        intro hdropped
        obtain ⟨tail, htail⟩ := dropped_operation hdropped
        simp only [List.cons.injEq] at htail
        exact hstatus htail.2.1
    · by_cases hcomponents : k = "components"
      · subst hcomponents
        have hedited := h.components
        rw [hget] at hedited
        obtain ⟨components, components', hbefore, rfl, hschemas⟩ := hedited.after
        obtain ⟨hsame, hhead⟩ | ⟨rest, schemas, schemas', rfl, hget, hdrop, hrest⟩ :=
          hschemas.refers (by decide) hv
        · refine ⟨"components" :: rest, .member hbefore hsame, ?_⟩
          intro hdropped
          obtain ⟨_, _, tail, rfl⟩ := dropped_components hdropped
          exact hhead rfl
        · obtain ⟨hsame, hkept⟩ := hdrop.refers hrest
          refine ⟨"components" :: "schemas" :: rest, .member hbefore (.member hget hsame), ?_⟩
          intro hdropped
          obtain ⟨name, hname, tail, htail⟩ := dropped_components hdropped
          obtain rfl := (List.cons.inj htail).2
          exact hkept _ rfl hname
      · rw [h.others k hpaths hcomponents] at hget
        refine ⟨k :: rest, .member hget hv, ?_⟩
        intro hdropped
        obtain hk | hk := dropped_head hdropped
        · exact hpaths hk
        · exact hcomponents hk

/-- The schemas that are left are those of the document, but for the two. -/
theorem Rewritten.hasSchema {schema schema' : Members} (h : Rewritten schema schema')
    {name : String} (hname : name ∉ removed) (hhas : HasSchema name schema) :
    HasSchema name schema' := by
  obtain ⟨components, schemas, hcomponents, hschemas, hget⟩ := hhas
  have hedited := h.components
  rw [hcomponents] at hedited
  obtain ⟨components', hcomponents', hat⟩ := hedited.before
  have hedited' := hat.edited
  rw [hschemas] at hedited'
  obtain ⟨schemas', hschemas', hdrop⟩ := hedited'.before
  refine ⟨components', schemas', hcomponents', hschemas', ?_⟩
  rw [hdrop, if_neg hname]
  exact hget

/-- The edit is exact, can be repeated, and leaves no reference without its schema. -/
structure Problemized (schema schema' : Members) : Prop where
  rewritten : Rewritten schema schema'
  again : problemize schema' = some schema'
  unreferenced : OnlyDropped schema → ∀ name ∈ removed, ¬Referenced name schema'
  resolved : OnlyDropped schema → ∀ name, Dangling name schema' → Dangling name schema

theorem document_problemized (d : Document) :
    ∃ schema', problemize d.schema = some schema' ∧ Problemized d.schema schema' := by
  obtain ⟨schema', hedit, hrewritten⟩ := problemize_rewrites d.wellFormed
  have hunreferenced : OnlyDropped d.schema → ∀ name ∈ removed, ¬Referenced name schema' := by
    rintro honly name hname ⟨keys, href⟩
    obtain ⟨keys', href', hkept⟩ := hrewritten.refers href
    exact hkept (honly name hname keys' href')
  refine ⟨schema', hedit, hrewritten, problemize_again hedit, hunreferenced, ?_⟩
  rintro honly name ⟨⟨keys, href⟩, hnone⟩
  have hname : name ∉ removed := fun hname => hunreferenced honly name hname ⟨keys, href⟩
  obtain ⟨keys', href', _⟩ := hrewritten.refers href
  exact ⟨⟨keys', href'⟩, fun hhas => hnone (hrewritten.hasSchema hname hhas)⟩

end References

section Generated

/-- A document of one route, with these responses. -/
def oneRoute (responses schemas : Members) : Members :=
  [("paths", .obj [("/messages/{id}", .obj [("patch", .obj [("responses", .obj responses)])])]),
    ("components", .obj [("schemas", .obj schemas)])]

theorem oneRoute_wellFormed {responses schemas : Members} (h : AllObjects ResponseFits responses) :
    WellFormed (oneRoute responses schemas) := by
  refine ⟨?_, ?_⟩
  · simpa [ObjectAt, AllObjects, oneRoute, get?] using h
  · simp [ObjectAt, oneRoute, get?]

def schemaRef (name : String) : String := "#/components/schemas/" ++ name

theorem schemaRef_refers {name other : String} : SchemaRef name (schemaRef other) ↔
    ∃ rest, other.toList = name.toList ++ rest ∧ ∀ c ∈ rest.head?, c = '/' := by
  unfold SchemaRef schemaRef
  refine exists_congr fun rest => and_congr_left fun _ => ?_
  rw [String.toList_append, String.toList_append, List.append_assoc]
  exact List.append_right_inj _

/-- `$ref` of a schema. -/
def refTo (name : String) : Doc := .obj [("$ref", .str (schemaRef name))]

def content (type name : String) : Members :=
  [("content", .obj [(type, .obj [("schema", refTo name)])])]

theorem content_fits {status name : String} (h : pythonInt status ≠ none) :
    ResponseFits status (content appJson name) := by
  refine ⟨h, fun _ _ _ => ?_⟩
  simp [ObjectAt, content, get?, appJson, problemJson]

/-- A route as it is generated, with the schemas of the default validation error. -/
def generated : Document where
  schema := oneRoute
    [("200", .obj (content appJson "MessageOut")), ("404", .obj (content appJson "Problem")),
      ("422", .obj (content appJson "HTTPValidationError"))]
    [("HTTPValidationError", .obj [("properties", .obj [("detail", .obj [("items",
        refTo "ValidationError"), ("type", .str "array")])])]),
      ("MessageOut", .obj [("type", .str "object")]), ("Problem", .obj [("type", .str "object")]),
      ("ValidationError", .obj [("type", .str "object")])]
  wellFormed := by
    apply oneRoute_wellFormed
    simp only [AllObjects, List.forall_mem_cons]
    exact ⟨⟨_, rfl, content_fits (by decide)⟩, ⟨_, rfl, content_fits (by decide)⟩,
      ⟨_, rfl, content_fits (by decide)⟩, by simp⟩

/-- The two schemas of the default validation error are referred to as the edit presumes. -/
theorem generated_onlyDropped : OnlyDropped generated.schema := by
  intro name hname keys href
  obtain ⟨ref, hmem, href⟩ := href.listed
  have hplaces : references (.obj generated.schema) =
      [(["paths", "/messages/{id}", "patch", "responses", "200", "content", appJson, "schema"],
          schemaRef "MessageOut"),
        (["paths", "/messages/{id}", "patch", "responses", "404", "content", appJson, "schema"],
          schemaRef "Problem"),
        (["paths", "/messages/{id}", "patch", "responses", "422", "content", appJson, "schema"],
          schemaRef "HTTPValidationError"),
        (["components", "schemas", "HTTPValidationError", "properties", "detail", "items"],
          schemaRef "ValidationError")] := by
    simp [references, memberReferences, memberReference, ownReference, generated, oneRoute,
      content, refTo]
  have hothers : ∀ other ∈ ["MessageOut", "Problem"], ¬SchemaRef name (schemaRef other) := by
    simp only [removed, List.mem_cons, List.not_mem_nil, or_false] at hname
    rcases hname with rfl | rfl <;> simp [schemaRef_refers]
  rw [hplaces] at hmem
  simp only [List.mem_cons, List.not_mem_nil, or_false, Prod.mk.injEq] at hmem
  rcases hmem with ⟨_, rfl⟩ | ⟨_, rfl⟩ | ⟨hkeys, _⟩ | ⟨hkeys, _⟩
  · exact absurd href (hothers _ (by simp))
  · exact absurd href (hothers _ (by simp))
  · exact Or.inl ⟨_, _, _, hkeys⟩
  · exact Or.inr ⟨_, _, by simp [removed], hkeys⟩

example : problemize generated.schema = some (oneRoute
    [("200", .obj (content appJson "MessageOut")), ("404", .obj (content problemJson "Problem"))]
    [("MessageOut", .obj [("type", .str "object")]),
      ("Problem", .obj [("type", .str "object")])]) := by
  rfl

end Generated

end OpenApi
