import MessageService.Endpoints
import MessageService.Library.Contracts
import MessageService.ServiceContracts

/-! What the application answers, against what it documents.
Every operation declares its statuses, and every problem is of a kind that the API documents. The
argument is one contract of the endpoints, whatever their service functions do. -/
namespace Documentation

open Programs Wrappers Contracts Models Schemas Problems Asgi BodyLimit RequestMetrics Requests
open MessageJson Endpoints ServiceRuns ServiceContracts

section Kinds

/-- A kind of problem: what a client may switch on. -/
structure Kind where
  status : ℕ
  code : String
  type : String
  deriving DecidableEq, Repr

def Kind.ofType (t : ProblemType) : Kind := ⟨t.status, t.code, t.uri⟩

/-- The kind of an error that the service does not name a type for. -/
def Kind.http (status : ℕ) : Kind := ⟨status, "HTTP_" ++ toString status, "about:blank"⟩

def catalogue : List Kind := problemTypes.map .ofType ++ [.http 400, .http 405]

def kindOf (p : Problem) : Kind := ⟨p.status, p.code, p.type⟩

/-- A problem of the catalogue, with a status that may be answered. -/
structure Known (S : ℕ → Prop) (p : Problem) : Prop where
  kind : kindOf p ∈ catalogue
  title : p.title = phrase p.status
  status : S p.status

/-- The kind of the problem that is made of an error. -/
def errorKind (status : ℕ) (code : String) (typeSlug : Option String) : Kind :=
  ⟨status, code, typeUri code typeSlug⟩

theorem known_kinds : errorKind 400 "BAD_USER_INPUT" none ∈ catalogue ∧
    errorKind 404 "NOT_FOUND" none ∈ catalogue ∧ errorKind 409 "CONFLICT" none ∈ catalogue ∧
    errorKind 413 "BAD_USER_INPUT" (some "payload-too-large") ∈ catalogue ∧
    errorKind 500 "INTERNAL_SERVER_ERROR" none ∈ catalogue ∧
    errorKind 400 (httpErrorCode 400) none ∈ catalogue ∧
    errorKind 404 (httpErrorCode 404) none ∈ catalogue ∧
    errorKind 405 (httpErrorCode 405) none ∈ catalogue := by decide

end Kinds

section Statuses

/-- The statuses of an operation's own responses. -/
def answers : Operation → List ℕ
  | .readiness => [200, 503]
  | op => [op.declared.statusCode]

/-- The responses in the operation's documentation; every operation documents a 500. -/
def documented (op : Operation) : List ℕ :=
  answers op ++ op.declared.problemResponses ++ [500]

/-- The statuses of what a request finds. -/
def foundStatuses : Found → List ℕ
  | .operation op _ => documented op
  | .page _ _ => [200, 500]
  | .otherMethod _ => [405, 500]
  | .none => [307, 404, 500]

/-- What a request may be answered with; a declared length above the limit is always refused. -/
def MayAnswer (maxBytes : ℕ) (docs : Docs) (scope : Scope) (status : ℕ) : Prop :=
  status ∈ foundStatuses (findRoute docs scope.method scope.path) ∨
    (status = 413 ∧ DeclaredTooLarge maxBytes scope)

end Statuses

section Contract

/-- An exception that the application has no handler for. -/
def Outside : Exc → Prop
  | .valueError | .exception _ | .interrupt _ => True
  | _ => False

/-- What the surroundings answer an application with. -/
def Surroundings (b : Backend) : (e : Effect) → Reply e → Prop
  | .receive, r => ∀ exc, r = .error exc → Outside exc
  | .send _, r => ∀ exc, r = .error exc → Outside exc
  | .endpoint payload, r => r = b.endpoint payload

/-- The same behind the body limit. -/
def Behind (b : Backend) (maxBytes : ℕ) : (e : Effect) → Reply e → Prop
  | .receive, r => ∀ exc, r = .error exc → Outside exc ∨ exc = .apiError (tooLarge maxBytes)
  | .send _, r => ∀ exc, r = .error exc → Outside exc
  | .endpoint payload, r => r = b.endpoint payload

/-- What is sent to the client. -/
def Sends (S : ℕ → Prop) : Effect → Prop
  | .send (.start status _ _) => S status
  | .send (.body (.problem p) _) => Known S p
  | _ => True

/-- A response that may be sent. -/
structure Fine (S : ℕ → Prop) (r : Response) : Prop where
  status : S r.status
  problem : ∀ p, r.content = .problem p → Known S p

/-- An exception whose handler, if it has one, makes a response that may be sent. -/
def Reports (S : ℕ → Prop) : Exc → Prop
  | .apiError e => errorKind e.status e.code e.typeSlug ∈ catalogue ∧ S e.status
  | .requestValidationError _ => S 400
  | .httpException status _ => errorKind status (httpErrorCode status) none ∈ catalogue ∧ S status
  | _ => True

/-- What becomes of the scope of a request on the way through the application. -/
structure Left (scope scope' : Scope) : Prop where
  method : scope'.method = scope.method
  route : ∀ template, scope'.route = some template →
    ∃ op : Operation, template = op.declared.template
  code : ∀ code, scope'.errorCode = some code → ∃ k ∈ catalogue, code = k.code

/-- What an application ends with inside the exception middleware. -/
def Handled (S : ℕ → Prop) (scope : Scope) (r : Asgi.Outcome × Scope) : Prop :=
  Left scope r.2 ∧ ∀ exc, r.1 = .error exc → Reports S exc

variable {S : ℕ → Prop} {scope scope' : Scope} {exc : Exc}

theorem outside_reports (h : Outside exc) : Reports S exc := by
  cases exc with
  | valueError | exception _ | interrupt _ => trivial
  | apiError _ | requestValidationError _ | httpException _ _ => exact h.elim

theorem fine_bytes {status : ℕ} (contentType location : Option String) (content : Bytes)
    (h : S status) : Fine S ⟨status, contentType, location, .bytes content⟩ := by
  refine ⟨h, ?_⟩
  intro p hp
  cases hp

theorem fine_problem {status : ℕ} {code detail : String} {params : List InvalidParam}
    {slug : Option String} (hkind : errorKind status code slug ∈ catalogue) (h : S status) :
    Fine S (problemResponse scope status code detail params slug).1 := by
  refine ⟨h, ?_⟩
  intro p hp
  cases hp
  exact ⟨hkind, rfl, h⟩

theorem left_problem {status : ℕ} {code : String} {slug : Option String} (detail : String)
    (params : List InvalidParam) (hkind : errorKind status code slug ∈ catalogue)
    (hleft : Left scope scope') :
    Left scope (problemResponse scope' status code detail params slug).2 := by
  refine ⟨hleft.method, hleft.route, ?_⟩
  intro code' h
  cases h
  exact ⟨_, hkind, rfl⟩

/-- The handlers make responses that may be sent. -/
theorem handled_fine {r : Response × Scope} (h : handleError scope' exc = some r)
    (hexc : Reports S exc) (hleft : Left scope scope') : Fine S r.1 ∧ Left scope r.2 := by
  cases exc with
  | apiError e =>
    cases h
    exact ⟨fine_problem hexc.1 hexc.2, left_problem _ _ hexc.1 hleft⟩
  | requestValidationError errors =>
    cases h
    exact ⟨fine_problem known_kinds.1 hexc, left_problem _ _ known_kinds.1 hleft⟩
  | httpException status detail =>
    cases h
    exact ⟨fine_problem hexc.1 hexc.2, left_problem _ _ hexc.1 hleft⟩
  | valueError | exception _ | interrupt _ => cases h

variable {b : Backend} {maxBytes : ℕ}

/-- Sending a response that may be sent; only the surroundings can make it fail. -/
theorem meets_answer {r : Response} (hr : Fine S r) (scope : Scope) :
    Meets (Behind b maxBytes) (Sends S)
      (fun x => x.2 = scope ∧ ∀ exc, x.1 = .error exc → Outside exc) (answer (r, scope)) := by
  refine ⟨hr.status, ?_⟩
  rintro (exc | _) hstart
  · refine ⟨rfl, ?_⟩
    intro exc' h
    cases h
    exact hstart exc rfl
  · obtain ⟨status, contentType, location, content⟩ := r
    have hbody : Sends S (.send (.body content false)) := by
      cases content with
      | problem p => exact hr.problem p rfl
      | bytes c => trivial
    refine ⟨hbody, ?_⟩
    intro o ho
    exact ⟨rfl, ho⟩

theorem answer_handled {r : Response} (hr : Fine S r) (hleft : Left scope scope') :
    Meets (Behind b maxBytes) (Sends S) (Handled S scope) (answer (r, scope')) := by
  refine meets_mono (meets_answer hr scope') (fun _ _ h => h) (fun _ h => h) ?_
  rintro ⟨o, scope''⟩ ⟨rfl, ho⟩
  exact ⟨hleft, fun exc h => outside_reports (ho exc h)⟩

theorem done_handled (hexc : Reports S exc) (hleft : Left scope scope') :
    Meets (Behind b maxBytes) (Sends S) (Handled S scope) (.done (.error exc, scope')) := by
  refine ⟨hleft, ?_⟩
  intro exc' h
  cases h
  exact hexc

end Contract

section Services

variable [JsonCodec] {b : Backend} {S : ℕ → Prop}

/-- The endpoints call the service functions as they are; a call may also be cancelled. -/
def Honest (b : Backend) : Prop := ∀ q,
  (∃ o, Possible q o ∧ b.outcome q = o.mapError raised) ∨
    ∃ name, b.outcome q = .error (.interrupt name)

/-- The operation whose endpoint makes the call. -/
def operationFor : Request → Option Operation
  | .listMessages _ _ => some .listMessages
  | .getMessage _ => some .getMessage
  | .createMessage _ => some .createMessage
  | .updateMessage _ _ => some .updateMessage
  | .deleteMessage _ => some .deleteMessage
  | .listAuthors _ _ => some .listAuthors
  | .getAuthor _ _ => some .getAuthor
  | .createAuthor _ => some .createAuthor
  | .updateAuthor _ _ => some .updateAuthor
  | .deleteAuthor _ => some .deleteAuthor
  | .seedInitialMessage => none

omit [JsonCodec] in
theorem operation_request (payload : Payload) :
    operationFor (requestOf payload) = some (operationOf payload) := by
  cases payload <;> rfl

omit [JsonCodec] in
theorem raised_foreign {exc : Postgres.Exc} (h : Foreign exc) : Reports S (raised exc) := by
  cases exc with
  | notFoundError _ | conflictError _ => exact h.elim
  | integrityError _ | dataError | noResultFound | assertionError | validationError
  | other _ => trivial

omit [JsonCodec] in
theorem raised_notFound (detail : String) (h : S 404) :
    Reports S (raised (.notFoundError detail)) :=
  ⟨known_kinds.2.1, h⟩

omit [JsonCodec] in
theorem raised_conflict (detail : String) (h : S 409) :
    Reports S (raised (.conflictError detail)) :=
  ⟨known_kinds.2.2.1, h⟩

omit [JsonCodec] in
/-- The errors of a service function are documented by the operation that calls it. -/
theorem own_reports {q : Request} {op : Operation} {exc : Postgres.Exc}
    (hop : operationFor q = some op) (h : exc ∈ ownErrors q) (hS : ∀ s ∈ documented op, S s) :
    Reports S (raised exc) := by
  cases q with
  | listMessages _ _ | listAuthors _ _ | seedInitialMessage => cases h
  | getMessage id | deleteMessage id | createMessage payload | getAuthor id _ =>
    cases hop
    obtain rfl := List.mem_singleton.mp h
    exact raised_notFound _ (hS 404 (by decide))
  | createAuthor payload =>
    cases hop
    obtain rfl := List.mem_singleton.mp h
    exact raised_conflict _ (hS 409 (by decide))
  | updateMessage id payload | updateAuthor id payload | deleteAuthor id =>
    cases hop
    rcases List.mem_cons.mp h with rfl | h
    · exact raised_notFound _ (hS 404 (by decide))
    · obtain rfl := List.mem_singleton.mp h
      exact raised_conflict _ (hS 409 (by decide))

theorem outcome_reports (hb : Honest b) {q : Request} {op : Operation} {exc : Exc}
    (hop : operationFor q = some op) (hS : ∀ s ∈ documented op, S s)
    (h : b.outcome q = .error exc) : Reports S exc := by
  rcases hb q with ⟨o, hpossible, ho⟩ | ⟨name, hname⟩
  · rw [ho] at h
    cases o with
    | ok _ => cases h
    | error exc' =>
      obtain rfl : raised exc' = exc := Except.error.inj h
      rcases possible_expected hpossible exc' rfl with hforeign | hown
      · exact raised_foreign hforeign
      · exact own_reports hop hown hS
  · rw [hname] at h
    obtain rfl := Except.error.inj h
    trivial

omit [JsonCodec] in
theorem success_fine {op : Operation} (result : Result) (h : S op.declared.statusCode) :
    Fine S (b.success op result) := by
  unfold Backend.success
  split
  · rename_i hstatus
    exact fine_bytes _ _ _ (hstatus ▸ h)
  · exact fine_bytes _ _ _ h

omit [JsonCodec] in
theorem success_documented (op : Operation) : op.declared.statusCode ∈ documented op := by
  cases op <;> decide

end Services

section Handlers

variable [JsonCodec] [Frameworks] {b : Backend} {S : ℕ → Prop} {maxBytes patience : ℕ}
variable {scope scope' : Scope} {query : Query}

omit [JsonCodec] [Frameworks] in
theorem map_ok {ε α β : Type} {x : Except ε α} {f : α → β} {c : β} (h : x.map f = .ok c) :
    ∃ a, c = f a := by
  cases x with
  | error _ => cases h
  | ok a =>
    cases h
    exact ⟨a, rfl⟩

omit [JsonCodec] [Frameworks] in
theorem meets_readBody (patience : ℕ) (acc : Bytes) :
    Meets (Behind b maxBytes) (Sends S)
      (fun r => ∀ exc, r = .error exc → Outside exc ∨ exc = .apiError (tooLarge maxBytes))
      (readBody patience acc) := by
  have hgone : ∀ r : Except Exc Bytes, r = .error (.exception "ClientDisconnect") →
      ∀ exc, r = .error exc → Outside exc ∨ exc = .apiError (tooLarge maxBytes) := by
    rintro r rfl exc h
    cases h
    exact Or.inl trivial
  induction patience generalizing acc with
  | zero => exact hgone _ rfl
  | succ patience ih =>
    refine ⟨trivial, ?_⟩
    rintro (exc | message) hr
    · intro exc' h
      cases h
      exact hr exc rfl
    · dsimp only
      split
      · split
        · exact ih _
        · intro exc h
          cases h
      · split
        · exact hgone _ rfl
        · exact ih _

omit [JsonCodec] [Frameworks] in
/-- Whatever fails while a body is read becomes a bad request. -/
theorem parsing_reports (exc : Exc) (h : Outside exc ∨ exc = .apiError (tooLarge maxBytes))
    (h400 : S 400) : Reports S (parsingError exc) := by
  have hparsing : Reports S (.httpException 400 "There was an error parsing the body") :=
    ⟨known_kinds.2.2.2.2.2.1, h400⟩
  cases exc with
  | valueError | exception _ | apiError _ => exact hparsing
  | interrupt _ => trivial
  | requestValidationError _ | httpException _ _ =>
    rcases h with h | h
    · exact h.elim
    · cases h

omit [JsonCodec] in
theorem payload_reports {route : Route} {body : Bytes} {exc : Exc}
    (h : payloadOf route scope body = .error exc) (h400 : S 400) : Reports S exc := by
  have hparsing : Reports S (.httpException 400 "There was an error parsing the body") :=
    ⟨known_kinds.2.2.2.2.2.1, h400⟩
  unfold payloadOf at h
  cases hparse : parseBody scope body with
  | ok value =>
    rw [hparse] at h
    change (solve route value).mapError .requestValidationError = .error exc at h
    cases hsolve : solve route value with
    | ok payload =>
      rw [hsolve] at h
      cases h
    | error errors =>
      rw [hsolve] at h
      cases h
      exact h400
  | error exc' =>
    rw [hparse] at h
    obtain rfl : exc' = exc := Except.error.inj h
    unfold parseBody at hparse
    split at hparse
    · cases hparse
    · split at hparse
      · split at hparse
        · cases hparse
        · cases hparse
          exact h400
        · cases hparse
          exact hparsing
        · cases hparse
          exact hparsing
        · cases hparse
          exact hparsing
      · cases hparse

omit [JsonCodec] in
/-- An endpoint gets the payload of its own operation. -/
theorem payload_operation {route : Route} {body : Bytes} {payload : Payload}
    (h : payloadOf route scope body = .ok payload) :
    operationOf payload = (routeOperation route).1 := by
  unfold payloadOf at h
  cases hparse : parseBody scope body with
  | error exc =>
    rw [hparse] at h
    cases h
  | ok value =>
    rw [hparse] at h
    change (solve route value).mapError Exc.requestValidationError = .ok payload at h
    cases hsolve : solve route value with
    | error errors =>
      rw [hsolve] at h
      cases h
    | ok payload' =>
      rw [hsolve] at h
      obtain rfl : payload' = payload := Except.ok.inj h
      cases route with
      | createMessage | updateMessage id | createAuthor | updateAuthor id =>
        obtain ⟨a, rfl⟩ := map_ok hsolve
        rfl

/-- A route with a request body. -/
theorem meets_handleRoute (hb : Honest b) (route : Route)
    (hS : ∀ s ∈ documented (routeOperation route).1, S s) (hleft : Left scope scope') :
    Meets (Behind b maxBytes) (Sends S) (Handled S scope) (handleRoute patience route scope') := by
  have h400 : S 400 := hS 400 (by cases route <;> simp [routeOperation] <;> decide)
  unfold handleRoute
  refine meets_bind (meets_readBody patience []) ?_
  rintro (exc | body) hread
  · exact done_handled (parsing_reports exc (hread exc rfl) h400) hleft
  · dsimp only
    cases hpayload : payloadOf route scope' body with
    | error exc => exact done_handled (payload_reports hpayload h400) hleft
    | ok payload =>
      refine ⟨trivial, ?_⟩
      rintro r rfl
      have hop := payload_operation hpayload
      rw [← hop] at hS
      unfold Backend.endpoint
      cases houtcome : b.outcome (requestOf payload) with
      | error exc =>
        exact done_handled (outcome_reports hb (operation_request payload) hS houtcome) hleft
      | ok result =>
        exact answer_handled (success_fine result (hS _ (success_documented _))) hleft

omit [Frameworks] in
/-- An endpoint without a request body. -/
theorem meets_call (hb : Honest b) {op : Operation} {x : Except Errors Request}
    (hx : ∀ q, x = .ok q → operationFor q = some op) (h400 : S 400)
    (hS : ∀ s ∈ documented op, S s) (hleft : Left scope scope') :
    Meets (Behind b maxBytes) (Sends S) (Handled S scope) (b.call op x scope') := by
  unfold Backend.call
  cases x with
  | error errors =>
    have hreports : Reports S (.requestValidationError errors) := h400
    exact done_handled hreports hleft
  | ok q =>
    dsimp only
    cases houtcome : b.outcome q with
    | error exc => exact done_handled (outcome_reports hb (hx q rfl) hS houtcome) hleft
    | ok result =>
      exact answer_handled (success_fine result (hS _ (success_documented op))) hleft

/-- Every operation answers what it documents. -/
theorem meets_handle (hb : Honest b) (op : Operation) (parameter : String)
    (hS : ∀ s ∈ documented op, S s) (hleft : Left scope scope') :
    Meets (Behind b maxBytes) (Sends S) (Handled S scope)
      (b.handle patience query op parameter scope') := by
  cases op with
  | liveness => exact answer_handled (fine_bytes _ _ _ (hS 200 (by decide))) hleft
  | readiness =>
    unfold Backend.handle
    dsimp only
    split
    · exact answer_handled (fine_bytes _ _ _ (hS 200 (by decide))) hleft
    · exact answer_handled (fine_bytes _ _ _ (hS 503 (by decide))) hleft
  | createMessage => exact meets_handleRoute hb .createMessage hS hleft
  | updateMessage => exact meets_handleRoute hb (.updateMessage parameter) hS hleft
  | createAuthor => exact meets_handleRoute hb .createAuthor hS hleft
  | updateAuthor => exact meets_handleRoute hb (.updateAuthor parameter) hS hleft
  | listMessages | getMessage | deleteMessage | listAuthors | getAuthor | deleteAuthor =>
    refine meets_call hb ?_ (hS 400 (by decide)) hS hleft
    intro q hq
    obtain ⟨a, rfl⟩ := map_ok hq
    rfl
  | listProblemTypes => exact answer_handled (fine_bytes _ _ _ (hS 200 (by decide))) hleft
  | getProblemType =>
    unfold Backend.handle
    dsimp only
    split
    · exact done_handled ⟨known_kinds.2.1, hS 404 (by decide)⟩ hleft
    · exact answer_handled (fine_bytes _ _ _ (hS 200 (by decide))) hleft

end Handlers

end Documentation
