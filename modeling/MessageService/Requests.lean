import MessageService.BodyLimit
import MessageService.Library.JsonLoads
import MessageService.RequestMetrics

/-! The application as it is built: the routes with a request body, the models their bodies are
validated against, the exception handlers, and the layers around them. FastAPI's route handler
and Starlette's exception middleware are here as far as they decide on the response. -/
namespace Requests

open Programs Wrappers Models Schemas Problems Asgi BodyLimit RequestMetrics Texts JsonLoads

section Routes

/-- A route with a request body; `id` is its path parameter as it stands in the path. -/
inductive Route where
  | createMessage
  | updateMessage (id : String)
  | createAuthor
  | updateAuthor (id : String)
  deriving DecidableEq, Repr

def Route.template : Route → String
  | .createMessage => "/messages"
  | .updateMessage _ => "/messages/{id}"
  | .createAuthor => "/authors"
  | .updateAuthor _ => "/authors/{id}"

/-- The pattern of a route ends in `$`, which also matches before a last newline. -/
def MatchesPath (path pattern : String) : Prop := path = pattern ∨ path = pattern ++ "\n"

instance (path pattern : String) : Decidable (MatchesPath path pattern) :=
  inferInstanceAs (Decidable (_ ∨ _))

/-- The one path segment after `before`. -/
def segment (before path : String) : Option String :=
  let id := path.toList.drop before.toList.length
  if before.toList.isPrefixOf path.toList ∧ id ≠ [] ∧ '/' ∉ id then some (String.ofList id)
  else none

def matchRoute (scope : Scope) : Option Route :=
  if scope.method = "POST" then
    if MatchesPath scope.path "/messages" then some .createMessage
    else if MatchesPath scope.path "/authors" then some .createAuthor
    else none
  else if scope.method = "PATCH" then
    ((segment "/messages/" scope.path).map .updateMessage).or
      ((segment "/authors/" scope.path).map .updateAuthor)
  else none

end Routes

section Validation

structure TypeFailure where
  kind : String
  msg : String
  deriving DecidableEq, Repr

/-- Which content types are JSON, how deep the JSON parser may recurse, and pydantic-core's
validators of the types of the fields. -/
class Frameworks where
  isJson : Option Bytes → Bool
  nesting : ℕ
  str : PyJson → Except TypeFailure Text
  uuid : PyJson → Except TypeFailure Uuid
  int : PyJson → Except TypeFailure ℤ

abbrev Errors := List ErrorDetails

inductive Body where
  | none
  | json (value : PyJson)
  | raw (b : Bytes)

abbrev Members := List (Text × PyJson)

/-- A member by its alias or its name, the last of each. -/
def member (members : Members) (fieldAlias name : String) : Option PyJson :=
  ((members.reverse.find? (·.1 = text fieldAlias)).or
    (members.reverse.find? (·.1 = text name))).map Prod.snd

def isNone : PyJson → Bool
  | .none => true
  | _ => false

def bodyLoc (fieldAlias : String) : List LocPart := [.field "body", .field fieldAlias]

def missing (loc : List LocPart) : ErrorDetails :=
  ⟨"missing", loc, "Field required", false, none, none, none⟩

def mistyped (loc : List LocPart) (value : PyJson) (failure : TypeFailure) : ErrorDetails :=
  ⟨failure.kind, loc, failure.msg, isNone value, none, none, none⟩

def valueError (loc : List LocPart) (message : String) : ErrorDetails :=
  ⟨"value_error", loc, valueErrorPrefix ++ message, false, none, none, none⟩

/-- The errors of both are reported. -/
def both {α β : Type} : Except Errors α → Except Errors β → Except Errors (α × β)
  | .ok a, .ok b => .ok (a, b)
  | .ok _, .error es => .error es
  | .error es, .ok _ => .error es
  | .error es, .error fs => .error (es ++ fs)

variable [Frameworks]

/-- A string of a request model with its `_check_string`. -/
def checkedString (f : Field) (value : PyJson) : Except Errors {s : Text // Checked f s} :=
  match Frameworks.str value with
  | .error failure => .error [mistyped (bodyLoc f.fieldName) value failure]
  | .ok s =>
    match h : checkString f s with
    | .error message => .error [valueError (bodyLoc f.fieldName) message]
    | .ok t => .ok ⟨t, checkString_checked h⟩

def requiredString (f : Field) (members : Members) : Except Errors {s : Text // Checked f s} :=
  match member members f.fieldName f.fieldName with
  | none => .error [missing (bodyLoc f.fieldName)]
  | some value => checkedString f value

/-- A field `str | None = None`. -/
def optionalString (f : Field) (members : Members) :
    Except Errors {s : Option Text // ∀ t ∈ s, Checked f t} :=
  match member members f.fieldName f.fieldName with
  | none | some .none => .ok ⟨none, by simp⟩
  | some value =>
    match checkedString f value with
    | .error es => .error es
    | .ok s => .ok ⟨some s.1, by simpa using s.2⟩

/-- A field or a path parameter `uuid.UUID`. -/
def checkedUuid (loc : List LocPart) (value : PyJson) : Except Errors Uuid :=
  match Frameworks.uuid value with
  | .error failure => .error [mistyped loc value failure]
  | .ok id => .ok id

def requiredUuid (fieldAlias name : String) (members : Members) : Except Errors Uuid :=
  match member members fieldAlias name with
  | none => .error [missing (bodyLoc fieldAlias)]
  | some value => checkedUuid (bodyLoc fieldAlias) value

/-- The field `version: int = Field(ge=0, le=MAX_INT4)`. -/
def version (members : Members) : Except Errors {n : ℕ // n ≤ maxInt4} :=
  match member members "version" "version" with
  | none => .error [missing (bodyLoc "version")]
  | some value =>
    match Frameworks.int value with
    | .error failure => .error [mistyped (bodyLoc "version") value failure]
    | .ok n =>
      if n < 0 then
        .error [⟨"greater_than_equal", bodyLoc "version",
          "Input should be greater than or equal to 0", false, some 0, none, none⟩]
      else if h : n.toNat ≤ maxInt4 then .ok ⟨n.toNat, h⟩
      else
        .error [⟨"less_than_equal", bodyLoc "version",
          "Input should be less than or equal to " ++ toString maxInt4, false, none,
          some maxInt4, none⟩]

def objectMembers : Body → Except Errors Members
  | .none | .json .none => .error [missing [.field "body"]]
  | .json (.dict members) => .ok members
  | _ => .error [⟨"model_attributes_type", [.field "body"],
      "Input should be a valid dictionary or object to extract fields from", false, none, none,
      none⟩]

def validateMessageCreate (members : Members) : Except Errors MessageCreate :=
  (both (requiredString .title members) (both (requiredString .content members)
    (requiredUuid "authorId" "author_id" members))).map fun r =>
      ⟨r.1.1, r.2.1.1, r.2.2, r.1.2, r.2.1.2⟩

def validateMessageUpdate (members : Members) : Except Errors MessageUpdate :=
  (both (optionalString .title members) (both (requiredString .content members)
    (version members))).map fun r => ⟨r.1.1, r.2.1.1, r.2.2.1, r.1.2, r.2.1.2, r.2.2.2⟩

def validateAuthorCreate (members : Members) : Except Errors AuthorCreate :=
  (both (requiredString .name members) (requiredString .email members)).map fun r =>
    ⟨r.1.1, r.2.1, r.1.2, r.2.2⟩

def validateAuthorUpdate (members : Members) : Except Errors AuthorUpdate :=
  (both (optionalString .name members) (optionalString .email members)).map fun r =>
    ⟨r.1.1, r.2.1, r.1.2, r.2.2⟩

def pathUuid (id : String) : Except Errors Uuid :=
  checkedUuid [.field "path", .field "id"] (.str (text id))

def solve (route : Route) (body : Body) : Except Errors Payload :=
  match route with
  | .createMessage => ((objectMembers body).bind validateMessageCreate).map .createMessage
  | .createAuthor => ((objectMembers body).bind validateAuthorCreate).map .createAuthor
  | .updateMessage id =>
    (both (pathUuid id) ((objectMembers body).bind validateMessageUpdate)).map fun r =>
      .updateMessage r.1 r.2
  | .updateAuthor id =>
    (both (pathUuid id) ((objectMembers body).bind validateAuthorUpdate)).map fun r =>
      .updateAuthor r.1 r.2

end Validation

section Handling

/-- `Request.body`. A client that is gone ends the request; `patience` bounds the messages. -/
def readBody : ℕ → Bytes → Program Effect Reply (Except Exc Bytes)
  | 0, _ => .done (.error (.exception "ClientDisconnect"))
  | patience + 1, body => .await .receive fun
    | .error exc => .done (.error exc)
    | .ok message =>
      if message.type = "http.request" then
        if message.moreBody then readBody patience (body ++ message.body.getD [])
        else .done (.ok (body ++ message.body.getD []))
      else if message.type = "http.disconnect" then
        .done (.error (.exception "ClientDisconnect"))
      else readBody patience body

/-- What FastAPI makes of an exception while the body is read or parsed. -/
def parsingError : Exc → Exc
  | .httpException status detail => .httpException status detail
  | .interrupt name => .interrupt name
  | _ => .httpException 400 "There was an error parsing the body"

def jsonInvalid (pos : ℕ) : ErrorDetails :=
  ⟨"json_invalid", [.field "body", .index pos], "JSON decode error", false, none, none, none⟩

variable [Frameworks]

def firstHeader (scope : Scope) (name : String) : Option Bytes :=
  (scope.headers.find? (·.1 = ascii name)).map Prod.snd

def parseBody (scope : Scope) (b : Bytes) : Except Exc Body :=
  if b = [] then .ok .none
  else if Frameworks.isJson (firstHeader scope "content-type") then
    match jsonLoads Frameworks.nesting b with
    | .ok value => .ok (.json value)
    | .error (.jsonDecodeError pos) => .error (.requestValidationError [jsonInvalid pos])
    | .error .unicodeDecodeError => .error (parsingError (.exception "UnicodeDecodeError"))
    | .error .valueError => .error (parsingError .valueError)
    | .error .recursionError => .error (parsingError (.exception "RecursionError"))
  else .ok (.raw b)

def payloadOf (route : Route) (scope : Scope) (b : Bytes) : Except Exc Payload :=
  (parseBody scope b).bind fun body =>
    (solve route body).mapError .requestValidationError

/-- The route handler: the body is read whole before the endpoint is called. -/
def handleRoute (patience : ℕ) (route : Route) : App := fun scope =>
  (readBody patience []).bind fun
    | .error exc => .done (.error (parsingError exc), scope)
    | .ok b =>
      match payloadOf route scope b with
      | .error exc => .done (.error exc, scope)
      | .ok payload => .await (.endpoint payload) fun
        | .error exc => .done (.error exc, scope)
        | .ok response => answer (response, scope)

/-- `others` are the routes without a request body, and the answers where no route matches. -/
def router (patience : ℕ) (others : App) : App := fun scope =>
  match matchRoute scope with
  | some route => handleRoute patience route { scope with route := some route.template }
  | none => others scope

/-- `_http_error` -/
def httpErrorCode (status : ℕ) : String :=
  if status = 404 then "NOT_FOUND" else "HTTP_" ++ toString status

/-- The handlers of `register_error_handlers`. -/
def handleError (scope : Scope) : Exc → Option (Response × Scope)
  | .apiError e =>
    some (problemResponse scope e.status e.code e.detail e.invalidParams e.typeSlug)
  | .requestValidationError errors =>
    some (problemResponse scope 400 "BAD_USER_INPUT" validationDetail (errors.map invalidParam)
      none)
  | .httpException status detail =>
    some (problemResponse scope status (httpErrorCode status) detail [] none)
  | _ => none

def sender : Wrapper Bool Effect Reply Effect Reply where
  effect e := e
  reply started e r := (r, match e with
    | .send (.start _ _ _) => true
    | _ => started)

def exceptionMiddleware (app : App) : App := fun scope =>
  (sender.wrap false (app scope)).bind fun
    | ((.ok (), scope), _) => .done (.ok (), scope)
    | ((.error exc, scope), started) =>
      match handleError scope exc with
      | none => .done (.error exc, scope)
      | some response =>
        if started then .done (.error (.exception "RuntimeError"), scope) else answer response

/-- `create_app` without origins for CORS, as it is by default, and without tracing. -/
def createApp (maxBytes patience : ℕ) (others : App) : MeteredApp :=
  requestMetrics (bodyLimit maxBytes (exceptionMiddleware (router patience others)))

end Handling

section Serving

/-- `incoming` is left of the request, `sent` is the response, `called` are the endpoints. -/
structure Client where
  incoming : List Received
  sent : List Sent
  called : List Payload

/-- After the request nothing is received but the end of the connection. -/
def server (service : Payload → Except Exc Response) : Handler Client Effect Reply
  | c, .receive =>
    match c.incoming with
    | [] => (.ok ⟨"http.disconnect", none, false⟩, c)
    | message :: incoming => (.ok message, { c with incoming := incoming })
  | c, .send message => (.ok (), { c with sent := c.sent ++ [message] })
  | c, .endpoint payload => (service payload, { c with called := c.called ++ [payload] })

def meteredServer (service : Payload → Except Exc Response) (clock : Client → ℚ) :
    Handler Client Metered MeteredReply
  | c, .asgi e => server service c e
  | c, .perfCounter => (clock c, c)
  | c, .recordDuration _ _ | c, .addRequest _ _ | c, .addError _ _ => ((), c)

def serve (service : Payload → Except Exc Response) (clock : Client → ℚ) (app : MeteredApp)
    (scope : Scope) (messages : List Received) : Client :=
  (run (meteredServer service clock) ⟨messages, [], []⟩ (app scope)).2

inductive Splits : List Received → Bytes → Prop where
  | last (b : Option Bytes) : Splits [⟨"http.request", b, false⟩] (b.getD [])
  | more {messages body} (b : Option Bytes) : Splits messages body →
      Splits (⟨"http.request", b, true⟩ :: messages) (b.getD [] ++ body)

end Serving

section Strict

/-- A string is taken as it is, also with lone surrogates. -/
def strictStr : PyJson → Except TypeFailure Text
  | .str s => .ok s
  | _ => .error ⟨"string_type", "Input should be a valid string"⟩

def strictUuid : PyJson → Except TypeFailure Uuid
  | .str s =>
    match Uuid.ofStr (string s) with
    | some id => .ok id
    | none => .error ⟨"uuid_parsing", "Input should be a valid UUID"⟩
  | _ => .error ⟨"uuid_type", "UUID input should be a string, bytes or UUID object"⟩

def strictInt : PyJson → Except TypeFailure ℤ
  | .int n => .ok n
  | .str _ => .error ⟨"int_parsing",
      "Input should be a valid integer, unable to parse string as an integer"⟩
  | _ => .error ⟨"int_type", "Input should be a valid integer"⟩

/-- Frameworks that take no value of one type for one of another. -/
abbrev strict : Frameworks where
  isJson contentType := contentType = some (ascii "application/json")
  nesting := 1000
  str := strictStr
  uuid := strictUuid
  int := strictInt

end Strict

end Requests
