import MessageService.Library.JsonText
import MessageService.Library.JsonTexts
import MessageService.Requests
import MessageService.ServiceRuns

/-! The path operations of the service and the router over them.
Each operation is declared with its path, its success and the problems it documents, and its
endpoint calls one service function. -/
namespace Endpoints

open Programs Wrappers Texts Models Schemas Problems Asgi Requests JsonLoads JsonValues JsonText
open JsonTexts

section Operations

/-- The path operations, in the order in which their routers are included. -/
inductive Operation where
  | liveness | readiness
  | listMessages | getMessage | createMessage | updateMessage | deleteMessage
  | listAuthors | getAuthor | createAuthor | updateAuthor | deleteAuthor
  | listProblemTypes | getProblemType
  deriving DecidableEq, Repr

def operations : List Operation :=
  [.liveness, .readiness, .listMessages, .getMessage, .createMessage, .updateMessage,
    .deleteMessage, .listAuthors, .getAuthor, .createAuthor, .updateAuthor, .deleteAuthor,
    .listProblemTypes, .getProblemType]

theorem mem_operations (op : Operation) : op ∈ operations := by
  cases op <;> decide

/-- How an operation is declared. The path is `path`, or `path` and one parameter behind it;
`problemResponses` are the statuses of its `responses=`. -/
structure Declaration where
  method : String
  path : String
  parameter : Bool
  template : String
  statusCode : ℕ
  problemResponses : List ℕ
  deriving DecidableEq, Repr

def Operation.declared : Operation → Declaration
  | .liveness => ⟨"GET", "/health/liveness", false, "/health/liveness", 200, []⟩
  | .readiness => ⟨"GET", "/health/readiness", false, "/health/readiness", 200, []⟩
  | .listMessages => ⟨"GET", "/messages", false, "/messages", 200, [400]⟩
  | .getMessage => ⟨"GET", "/messages/", true, "/messages/{id}", 200, [400, 404]⟩
  | .createMessage => ⟨"POST", "/messages", false, "/messages", 201, [400, 404, 413]⟩
  | .updateMessage => ⟨"PATCH", "/messages/", true, "/messages/{id}", 200, [400, 404, 409, 413]⟩
  | .deleteMessage => ⟨"DELETE", "/messages/", true, "/messages/{id}", 204, [400, 404]⟩
  | .listAuthors => ⟨"GET", "/authors", false, "/authors", 200, [400]⟩
  | .getAuthor => ⟨"GET", "/authors/", true, "/authors/{id}", 200, [400, 404]⟩
  | .createAuthor => ⟨"POST", "/authors", false, "/authors", 201, [400, 409, 413]⟩
  | .updateAuthor => ⟨"PATCH", "/authors/", true, "/authors/{id}", 200, [400, 404, 409, 413]⟩
  | .deleteAuthor => ⟨"DELETE", "/authors/", true, "/authors/{id}", 204, [400, 404, 409]⟩
  | .listProblemTypes => ⟨"GET", "/problems", false, "/problems", 200, []⟩
  | .getProblemType => ⟨"GET", "/problems/", true, "/problems/{slug}", 200, [404]⟩

/-- The parameter of a path that the operation's pattern matches, or an empty one. -/
def Operation.matchPath (op : Operation) (path : String) : Option String :=
  if op.declared.parameter then segment op.declared.path path
  else if MatchesPath path op.declared.path then some ""
  else none

/-- The API documentation, which is served only when it is enabled; `content` is the content type
and the body of a page. -/
structure Docs where
  enabled : Bool
  content : String → String × Bytes

def docsPaths : List String := ["/openapi.json", "/docs", "/docs/oauth2-redirect", "/redoc"]

def Docs.page (d : Docs) (path : String) : Option (String × Bytes) :=
  if d.enabled then
    (docsPaths.find? fun p => MatchesPath path p).map d.content
  else none

inductive Found where
  | operation (op : Operation) (parameter : String)
  | page (contentType : String) (content : Bytes)
  | otherMethod (op : Option Operation)
  | none

/-- The first route that matches, or else the first one that would with another method. -/
def findRoute (docs : Docs) (method path : String) : Found :=
  match docs.page path with
  | some page =>
    if method ∈ ["GET", "HEAD"] then .page page.1 page.2 else .otherMethod .none
  | .none =>
    match operations.findSome? fun op =>
        if op.declared.method = method then (op.matchPath path).map fun p => (op, p)
        else .none with
    | some found => .operation found.1 found.2
    | .none =>
      match operations.find? fun op => (op.matchPath path).isSome with
      | some op => .otherMethod (some op)
      | .none => .none

def anyMatch (docs : Docs) (path : String) : Bool :=
  (docs.page path).isSome || operations.any fun op => (op.matchPath path).isSome

/-- The path to redirect to when there is no route: without its last slashes, or with one. -/
def slashed (path : String) : String :=
  if "/".toList <:+ path.toList then
    String.ofList (path.toList.reverse.dropWhile (· = '/')).reverse
  else path ++ "/"

end Operations

section Arguments

abbrev Query := List (String × String)

def queryLoc (name : String) : List LocPart := [.field "query", .field name]

/-- The value of a query parameter, the last one of each name. -/
def queryValue (query : Query) (name : String) : Option String :=
  (query.reverse.find? (·.1 = name)).map Prod.snd

variable [Frameworks]

/-- A query parameter `int` with `ge` and `le`. -/
def queryInt (query : Query) (name : String) (ge le default : ℕ) : Except Errors ℕ :=
  match queryValue query name with
  | none => .ok default
  | some value =>
    match Frameworks.int (.str (text value)) with
    | .error failure => .error [mistyped (queryLoc name) (.str (text value)) failure]
    | .ok n =>
      if n > le then
        .error [⟨"less_than_equal", queryLoc name,
          "Input should be less than or equal to " ++ toString le, false, none, some le, none⟩]
      else if n < ge then
        .error [⟨"greater_than_equal", queryLoc name,
          "Input should be greater than or equal to " ++ toString ge, false, some ge, none, none⟩]
      else .ok n.toNat

/-- `limit: Limit = 50` and `offset: Offset = 0` -/
def pageArguments (query : Query) : Except Errors (ℕ × ℕ) :=
  both (queryInt query "limit" 1 200 50) (queryInt query "offset" 0 maxInt4 0)

omit [Frameworks] in
/-- `include: Literal["messages"] | None = None` -/
def includeArgument (query : Query) : Except Errors Bool :=
  match queryValue query "include" with
  | none => .ok false
  | some value =>
    if value = "messages" then .ok true
    else .error [⟨"literal_error", queryLoc "include", "Input should be 'messages'", false, none,
      none, some "'messages'"⟩]

end Arguments

section Responses

/-- What a problem type's `type` resolves to. -/
def description (t : ProblemType) : String :=
  (([("bad-user-input",
      "The request was malformed or failed validation: bad JSON, a missing or blank " ++
      "required field, a value out of range, or a malformed id. The `invalidParams` member " ++
      "lists every offending field at once."),
    ("not-found",
      "The resource, or a resource the request refers to (such as the author of a new " ++
      "message), does not exist. Also returned for an unknown route."),
    ("conflict",
      "The request conflicts with the current state of the resource: a stale `version` on " ++
      "update (re-read and retry), a duplicate author email, or deleting an author who " ++
      "still has messages."),
    ("payload-too-large", "The request body exceeds the maximum size the service accepts."),
    ("internal-server-error",
      "An unexpected error occurred. The response carries no internals; the failure is " ++
      "logged server-side with the trace id.")].find? (·.1 = t.slug)).map Prod.snd).getD ""

/-- `_out` -/
def problemTypeOut (t : ProblemType) : Json :=
  .obj [("type", .str t.uri), ("title", .str (phrase t.status)), ("status", .num t.status),
    ("code", .str t.code), ("description", .str (description t))]

def jsonResponse (status : ℕ) (body : String) : Response :=
  ⟨status, some "application/json", none, .bytes (encodeUtf8 body)⟩

def healthStatus (status : String) : String := dumps (.obj [("status", .str status)])

def notFoundError (detail : String) : ApiError := ⟨404, "NOT_FOUND", none, detail, []⟩

def conflictError (detail : String) : ApiError := ⟨409, "CONFLICT", none, detail, []⟩

/-- An exception of a service function, as it leaves the endpoint. -/
def raised : Postgres.Exc → Exc
  | .notFoundError detail => .apiError (notFoundError detail)
  | .conflictError detail => .apiError (conflictError detail)
  | .integrityError _ => .exception "IntegrityError"
  | .dataError => .exception "DataError"
  | .noResultFound => .exception "NoResultFound"
  | .assertionError => .exception "AssertionError"
  | .validationError => .exception "ValidationError"
  | .other reason => .exception reason

/-- What the endpoints use of the process: the outcomes of the service functions they call, the
serialisation of their response models, the readiness flag, and the API documentation. -/
structure Backend where
  outcome : ServiceRuns.Request → Except Exc ServiceRuns.Result
  render : ServiceRuns.Result → String
  ready : Bool
  docs : Docs

/-- The `Location` header that `create_message` and `create_author` set. -/
def location : Operation → ServiceRuns.Result → Option String
  | .createMessage, .message created => some ("/messages/" ++ created.id.str)
  | .createAuthor, .author created => some ("/authors/" ++ created.id.str)
  | _, _ => none

/-- The response of an operation whose service function returned. -/
def Backend.success (b : Backend) (op : Operation) (result : ServiceRuns.Result) : Response :=
  if op.declared.statusCode = 204 then ⟨204, none, none, .bytes []⟩
  else { jsonResponse op.declared.statusCode (b.render result) with location := location op result }

/-- The operation whose endpoint takes the payload, and the service call it makes. -/
def operationOf : Payload → Operation
  | .createMessage _ => .createMessage
  | .updateMessage _ _ => .updateMessage
  | .createAuthor _ => .createAuthor
  | .updateAuthor _ _ => .updateAuthor

def requestOf : Payload → ServiceRuns.Request
  | .createMessage payload => .createMessage payload
  | .updateMessage id payload => .updateMessage id payload
  | .createAuthor payload => .createAuthor payload
  | .updateAuthor id payload => .updateAuthor id payload

/-- The endpoints of the routes with a request body. -/
def Backend.endpoint (b : Backend) (payload : Payload) : Except Exc Response :=
  (b.outcome (requestOf payload)).map (b.success (operationOf payload))

end Responses

section Routing

variable [Frameworks]

/-- An endpoint without a request body, whose arguments have been validated or not. -/
def Backend.call (b : Backend) (op : Operation) (q : Except Errors ServiceRuns.Request) : App :=
  fun scope =>
  match q with
  | .error errors => .done (.error (.requestValidationError errors), scope)
  | .ok q =>
    match b.outcome q with
    | .error exc => .done (.error exc, scope)
    | .ok result => answer (b.success op result, scope)

/-- The handler of an operation. The path is validated before the query and the body. -/
def Backend.handle (b : Backend) (patience : ℕ) (query : Query) (op : Operation)
    (parameter : String) : App := fun scope =>
  match op with
  | .liveness => answer (jsonResponse 200 (healthStatus "UP"), scope)
  | .readiness =>
    if b.ready then answer (jsonResponse 200 (healthStatus "UP"), scope)
    else answer (jsonResponse 503 (healthStatus "DOWN"), scope)
  | .listMessages =>
    b.call op ((pageArguments query).map fun r => .listMessages r.1 r.2) scope
  | .getMessage => b.call op ((pathUuid parameter).map .getMessage) scope
  | .createMessage => handleRoute patience .createMessage scope
  | .updateMessage => handleRoute patience (.updateMessage parameter) scope
  | .deleteMessage => b.call op ((pathUuid parameter).map .deleteMessage) scope
  | .listAuthors => b.call op ((pageArguments query).map fun r => .listAuthors r.1 r.2) scope
  | .getAuthor =>
    b.call op ((both (pathUuid parameter) (includeArgument query)).map fun r =>
      .getAuthor r.1 r.2) scope
  | .createAuthor => handleRoute patience .createAuthor scope
  | .updateAuthor => handleRoute patience (.updateAuthor parameter) scope
  | .deleteAuthor => b.call op ((pathUuid parameter).map .deleteAuthor) scope
  | .listProblemTypes =>
    answer (jsonResponse 200 ("[" ++ String.intercalate ","
      (problemTypes.map fun t => dumps (problemTypeOut t)) ++ "]"), scope)
  | .getProblemType =>
    match problemTypes.find? (·.slug = parameter) with
    | none => .done (.error (.apiError
        (notFoundError ("Problem type '" ++ parameter ++ "' was not found."))), scope)
    | some t => answer (jsonResponse 200 (dumps (problemTypeOut t)), scope)

/-- `Router.app` over all routes, with `redirect_slashes`. -/
def Backend.endpoints (b : Backend) (patience : ℕ) (query : Query) : App := fun scope =>
  match findRoute b.docs scope.method scope.path with
  | .operation op parameter =>
    b.handle patience query op parameter { scope with route := some op.declared.template }
  | .page contentType content => answer (⟨200, some contentType, none, .bytes content⟩, scope)
  | .otherMethod op =>
    .done (.error (.httpException 405 "Method Not Allowed"),
      { scope with route := (op.map fun op => op.declared.template).or scope.route })
  | .none =>
    if scope.path ≠ "/" ∧ anyMatch b.docs (slashed scope.path) then
      -- the header of a redirect, an absolute URL of the server, is left out
      answer (⟨307, none, none, .bytes []⟩, scope)
    else .done (.error (.httpException 404 "Not Found"), scope)

section Table

variable {b : Backend} {patience : ℕ} {query : Query} {scope : Scope}

omit [Frameworks] in
/-- No page of the documentation is a path of an operation. -/
theorem docs_apart {d : Docs} {path parameter : String} {op : Operation}
    (h : op.matchPath path = some parameter) : d.page path = none := by
  have hapart : ∀ p ∈ docsPaths, ∀ op ∈ operations, op.matchPath p = none ∧
      op.matchPath (p ++ "\n") = none := by decide
  unfold Docs.page
  split
  · cases hfind : docsPaths.find? fun p => MatchesPath path p with
    | none => rfl
    | some p =>
      obtain ⟨hfirst, hlast⟩ := hapart p (List.mem_of_find?_eq_some hfind) op (mem_operations op)
      have hpath := List.find?_some hfind
      rcases of_decide_eq_true hpath with rfl | rfl
      · rw [hfirst] at h
        cases h
      · rw [hlast] at h
        cases h
  · rfl

omit [Frameworks] in
/-- The first operation of a method and a path is found. -/
theorem found_operation {docs : Docs} {method path parameter : String} {op : Operation}
    (h : (operations.findSome? fun op => if op.declared.method = method then
      (op.matchPath path).map fun p => (op, p) else none) = some (op, parameter)) :
    findRoute docs method path = .operation op parameter := by
  obtain ⟨op', _, hop⟩ := List.exists_of_findSome?_eq_some h
  have hmatch : ∃ p, op'.matchPath path = some p := by
    split at hop
    · obtain ⟨p, hp, _⟩ := Option.map_eq_some_iff.mp hop
      exact ⟨p, hp⟩
    · cases hop
  obtain ⟨p, hp⟩ := hmatch
  unfold findRoute
  rw [docs_apart hp]
  dsimp only
  rw [h]

/-- The operation of a route with a request body, and its parameter. -/
def routeOperation : Route → Operation × String
  | .createMessage => (.createMessage, "")
  | .updateMessage id => (.updateMessage, id)
  | .createAuthor => (.createAuthor, "")
  | .updateAuthor id => (.updateAuthor, id)

omit [Frameworks] in
theorem findSome_patch (path : String) : (operations.findSome? fun op =>
    if op.declared.method = "PATCH" then (op.matchPath path).map fun p => (op, p) else none) =
      ((segment "/messages/" path).map fun id => (.updateMessage, id)).or
        ((segment "/authors/" path).map fun id => (.updateAuthor, id)) := by
  simp only [operations, Operation.declared, Operation.matchPath, List.findSome?]
  cases segment "/messages/" path with
  | some id => rfl
  | none =>
    cases segment "/authors/" path with
    | some id => rfl
    | none => rfl

omit [Frameworks] in
theorem findSome_route {route : Route} (h : matchRoute scope = some route) :
    (operations.findSome? fun op => if op.declared.method = scope.method then
      (op.matchPath scope.path).map fun p => (op, p) else none) = some (routeOperation route) := by
  unfold matchRoute at h
  split at h
  · rename_i hmethod
    rw [hmethod]
    split at h
    · rename_i hpath
      cases h
      rcases hpath with hpath | hpath <;> rw [hpath] <;> decide
    · split at h
      · rename_i hpath
        cases h
        rcases hpath with hpath | hpath <;> rw [hpath] <;> decide
      · cases h
  · split at h
    · rename_i hmethod
      rw [hmethod, findSome_patch]
      rcases Option.or_eq_some_iff.mp h with hmessage | ⟨hnone, hauthor⟩
      · obtain ⟨id, hid, rfl⟩ := Option.map_eq_some_iff.mp hmessage
        rw [hid]
        rfl
      · obtain ⟨id, hid, rfl⟩ := Option.map_eq_some_iff.mp hauthor
        rw [Option.map_eq_none_iff.mp hnone, hid]
        rfl
    · cases h

/-- The routes with a request body are found where the table of all routes has them. -/
theorem router_endpoints : router patience (b.endpoints patience query) scope =
    b.endpoints patience query scope := by
  unfold router
  cases hroute : matchRoute scope with
  | none => rfl
  | some route =>
    have hfound : findRoute b.docs scope.method scope.path =
        .operation (routeOperation route).1 (routeOperation route).2 :=
      found_operation (findSome_route hroute)
    unfold Backend.endpoints
    rw [hfound]
    cases route with
    | createMessage | updateMessage id | createAuthor | updateAuthor id => rfl

end Table

end Routing

end Endpoints
