import MessageService.AcceptedBodies
import MessageService.FailedWrites
import MessageService.TextCodec
import MessageService.TrueAnswers

/-! From the bytes of a request to the store and back to the response.
Whatever way a client asks for a service call, it gets one response, and the response says what the
call did to the store or what the store has. -/
namespace ClientAnswers

open Programs Wrappers Interleaving Texts Models Schemas Problems Postgres Services ServiceRuns
open Traces FailedWrites JsonLoads Requests Layers BodyLimit RequestMetrics Endpoints
open AcceptedBodies TrueAnswers Statements Footprints MessageJson
open Asgi (Payload Response Scope Received)

section Asking

variable [frameworks : Frameworks]

/-- The service call that an operation without a request body makes of its arguments. -/
inductive Asks (query : Query) (parameter : String) : Operation → Request → Prop where
  | listMessages {limit offset} : pageArguments query = .ok (limit, offset) →
      Asks query parameter .listMessages (.listMessages limit offset)
  | getMessage {id} : pathUuid parameter = .ok id →
      Asks query parameter .getMessage (.getMessage id)
  | deleteMessage {id} : pathUuid parameter = .ok id →
      Asks query parameter .deleteMessage (.deleteMessage id)
  | listAuthors {limit offset} : pageArguments query = .ok (limit, offset) →
      Asks query parameter .listAuthors (.listAuthors limit offset)
  | getAuthor {id inc} : pathUuid parameter = .ok id → includeArgument query = .ok inc →
      Asks query parameter .getAuthor (.getAuthor id inc)
  | deleteAuthor {id} : pathUuid parameter = .ok id →
      Asks query parameter .deleteAuthor (.deleteAuthor id)

variable {b : Backend} {maxBytes patience : ℕ} {query : Query} {scope : Scope}
variable {messages incoming : List Received} {called : List Payload}
variable {clock : Client → ℚ} {parameter : String} {op : Operation} {q : Request}

/-- A client's request for a service call: what of its body is left unread, and the payload its
endpoint is called with. -/
inductive Made (b : Backend) (maxBytes patience : ℕ) (query : Query) (scope : Scope)
    (messages : List Received) :
    Operation → Request → List Received → List Payload → Prop where
  | bodyless {op : Operation} {parameter : String} {q : Request} : scope.type = "http" →
      ¬DeclaredTooLarge maxBytes scope →
      (isDigits (declared scope) = true → (declared scope).length ≤ 4300) →
      findRoute b.docs scope.method scope.path = .operation op parameter →
      Asks query parameter op q →
      Made b maxBytes patience query scope messages op q messages []
  | withBody {payload body} : Sends payload scope body → Splits messages body →
      body.length ≤ maxBytes → messages.length ≤ patience →
      Made b maxBytes patience query scope messages (operationOf payload) (requestOf payload) []
        [payload]

theorem handle_asks (h : Asks query parameter op q) :
    b.handle patience query op parameter scope = b.call op (.ok q) scope := by
  cases h with
  | listMessages hpage | listAuthors hpage =>
    unfold Backend.handle
    dsimp only
    rw [hpage]
    rfl
  | getMessage hid | deleteMessage hid | deleteAuthor hid =>
    unfold Backend.handle
    dsimp only
    rw [hid]
    rfl
  | getAuthor hid hinc =>
    unfold Backend.handle
    dsimp only
    rw [hid, hinc]
    rfl

omit frameworks in
theorem found_matches {docs : Docs} {method path : String}
    (h : findRoute docs method path = .operation op parameter) :
    op.matchPath path = some parameter := by
  unfold findRoute at h
  split at h
  · split at h
    · cases h
    · cases h
  · split at h
    · rename_i found hfound
      obtain ⟨rfl, rfl⟩ := Found.operation.inj h
      obtain ⟨op, _, hop⟩ := List.exists_of_findSome?_eq_some hfound
      split at hop
      · obtain ⟨parameter, hparameter, rfl⟩ := Option.map_eq_some_iff.mp hop
        exact hparameter
      · cases hop
    · split at h
      · cases h
      · cases h

omit frameworks in
/-- A path that an operation matches begins as the operation is declared. -/
theorem matchPath_before {path : String} (h : op.matchPath path = some parameter) :
    op.declared.path.toList <+: path.toList := by
  unfold Operation.matchPath at h
  split at h
  · exact segment_before h
  · split at h
    · rename_i hpath
      rcases hpath with rfl | rfl
      · exact List.prefix_rfl
      · rw [String.toList_append]
        exact List.prefix_append ..
    · cases h

/-- The operations on messages and authors are metered. -/
theorem asks_metered {docs : Docs} (h : Asks query parameter op q) (hhttp : scope.type = "http")
    (hfound : findRoute docs scope.method scope.path = .operation op parameter) :
    excluded scope = false := by
  have hbefore := matchPath_before (found_matches hfound)
  unfold excluded
  rw [hhttp]
  cases h <;>
  · obtain ⟨rest, hrest⟩ := hbefore
    rw [← hrest]
    rfl

omit frameworks in
theorem run_call :
    run (layers maxBytes b.endpoint clock) (false, 0, ⟨500, false⟩, ⟨messages, [], []⟩)
      (b.call op (.ok q) scope) =
        ended scope 0 messages [] ((b.outcome q).map (b.success op)) := by
  unfold Backend.call
  dsimp only
  cases b.outcome q with
  | ok result => rfl
  | error exc => rfl

/-- However a service call is asked for, the client gets what the endpoint makes of it. -/
theorem serve_made (hfaithful : Faithful frameworks)
    (h : Made b maxBytes patience query scope messages op q incoming called)
    (hexc : ∀ name, b.outcome q ≠ .error (.interrupt name)) :
    serve b.endpoint clock (createApp maxBytes patience (b.endpoints patience query)) scope
        messages =
      ⟨incoming, (replyOf scope ((b.outcome q).map (b.success op))).messages, called⟩ := by
  cases h with
  | withBody hsends hsplits hwithin hpatience =>
    exact serve_sent hfaithful hsends hsplits hwithin hpatience
      fun name => endpoint_interrupt (hexc name)
  | @bodyless _ parameter _ hhttp hdeclared hdigits hfound hasks =>
    have hrun : run (layers maxBytes b.endpoint clock)
        (false, 0, ⟨500, false⟩, ⟨messages, [], []⟩)
        (router patience (b.endpoints patience query) scope) =
          ended { scope with route := some op.declared.template } 0 messages []
            ((b.outcome q).map (b.success op)) := by
      rw [router_endpoints]
      unfold Backend.endpoints
      rw [hfound]
      dsimp only
      rw [handle_asks hasks]
      exact run_call
    refine serve_routed (asks_metered hasks hhttp hfound)
      (bodyLimit_streamed hhttp hdigits hdeclared) ?_ hrun
    intro name hmap
    cases houtcome : b.outcome q with
    | ok result =>
      rw [houtcome] at hmap
      cases hmap
    | error exc =>
      rw [houtcome] at hmap
      obtain rfl := Except.error.inj hmap
      exact hexc name houtcome

end Asking

section Settling

variable [JsonCodec] {s : SoundDb} {ρ : Run s} {c i n : ℕ} {q : Request} {exc : Exc}

/-- A refusal is one of the two exceptions that the service functions raise on purpose. -/
theorem justified_error (h : Justified ρ c i n q (.error exc)) :
    ∃ detail, exc = .notFoundError detail ∨ exc = .conflictError detail := by
  cases h with
  | told _ _ htells =>
    cases htells with
    | noMessage | noAuthor | createUnknown | updateUnknown | deleteUnknown | authorUnknown
    | deleteAuthorUnknown => exact ⟨_, .inl rfl⟩
    | emailTaken | emailClaimed | referenced => exact ⟨_, .inr rfl⟩
  | stale => exact ⟨_, .inr rfl⟩

theorem reading_unchanging {o : Outcome} (hq : Reading q) (h : ρ.Ended c q o n) :
    Unchanging ρ c := by
  obtain ⟨i, hin, he, _, _⟩ := ended_started h
  have hi := hin.trans_le h.1
  refine unchanging h hin he ?_
  intro k e x r _ _ hp
  have hsilent : Silent e := performs_only hi he (reading_silent hq) hp
  refine performs_db hp ?_
  rintro rfl
  exact hsilent

theorem refused_unchanging (hf : ρ.Faultless c) (hseed : q ≠ .seedInitialMessage)
    (h : ρ.Ended c q (.error exc) n) : Unchanging ρ c := by
  have hkind : Writing q ∨ Reading q := by
    cases q with
    | createMessage | updateMessage | deleteMessage | createAuthor | updateAuthor
    | deleteAuthor => exact .inl trivial
    | listMessages | getMessage | listAuthors | getAuthor => exact .inr trivial
    | seedInitialMessage => exact absurd rfl hseed
  rcases hkind with hwriting | hreading
  · exact faultless_unchanging hf hwriting h
  · exact reading_unchanging hreading h

/-- The response to a call says what the call did or read, or in a problem why it left the tables
alone. -/
inductive Settled (ρ : Run s) (c i n : ℕ) (b : Backend) (op : Operation) (scope : Scope)
    (q : Request) : Response → Prop where
  | done {res} : Justified ρ c i n q (.ok res) → Settled ρ c i n b op scope q (b.success op res)
  | notFound {detail} : Justified ρ c i n q (.error (.notFoundError detail)) → Unchanging ρ c →
      Settled ρ c i n b op scope q ⟨404, some "application/problem+json", none,
        .problem ⟨"/problems/not-found", "Not Found", 404, detail, quote scope.path,
          "NOT_FOUND", []⟩⟩
  | conflict {detail} : Justified ρ c i n q (.error (.conflictError detail)) → Unchanging ρ c →
      Settled ρ c i n b op scope q ⟨409, some "application/problem+json", none,
        .problem ⟨"/problems/conflict", "Conflict", 409, detail, quote scope.path, "CONFLICT", []⟩⟩

omit [JsonCodec] in
theorem replyOf_notFound (scope : Scope) (detail : String) :
    replyOf scope (.error (raised (.notFoundError detail))) =
      ⟨404, some "application/problem+json", none, .problem
        ⟨"/problems/not-found", "Not Found", 404, detail, quote scope.path, "NOT_FOUND", []⟩⟩ := by
  have htype : typeUri "NOT_FOUND" none = "/problems/not-found" := by decide
  have htitle : phrase 404 = "Not Found" := by decide
  rw [← htype, ← htitle]
  rfl

omit [JsonCodec] in
theorem replyOf_conflict (scope : Scope) (detail : String) :
    replyOf scope (.error (raised (.conflictError detail))) =
      ⟨409, some "application/problem+json", none, .problem
        ⟨"/problems/conflict", "Conflict", 409, detail, quote scope.path, "CONFLICT", []⟩⟩ := by
  have htype : typeUri "CONFLICT" none = "/problems/conflict" := by decide
  have htitle : phrase 409 = "Conflict" := by decide
  rw [← htype, ← htitle]
  rfl

variable [frameworks : Frameworks] {b : Backend} {maxBytes patience : ℕ} {query : Query}
variable {scope : Scope} {messages incoming : List Received} {called : List Payload}
variable {clock : Client → ℚ} {op : Operation} {o : Outcome}

omit frameworks in
/-- The response to a call that met no fault. -/
theorem settled_reply (hf : ρ.Faultless c) (hseed : q ≠ .seedInitialMessage)
    (hended : ρ.Ended c q o n) (hb : b.outcome q = o.mapError raised)
    (h : Justified ρ c i n q o) :
    Settled ρ c i n b op scope q (replyOf scope ((b.outcome q).map (b.success op))) := by
  rw [hb]
  cases o with
  | ok res => exact .done h
  | error exc =>
    have hkept := refused_unchanging hf hseed hended
    obtain ⟨detail, rfl | rfl⟩ := justified_error h
    · exact (replyOf_notFound scope detail).symm ▸ Settled.notFound h hkept
    · exact (replyOf_conflict scope detail).symm ▸ Settled.conflict h hkept

/-- Whatever service call a client asks for, in whatever spelling, the response is true of the
store, if the endpoint called the service function and the call met no fault. -/
theorem made_settled (hfaithful : Faithful frameworks) (ρ : Run s)
    (hmade : Made b maxBytes patience query scope messages op q incoming called)
    (hended : ρ.Ended c q o n) (hf : ρ.Faultless c) (hfit : Fitting q)
    (hb : b.outcome q = o.mapError raised) :
    ∃ response, serve b.endpoint clock
        (createApp maxBytes patience (b.endpoints patience query)) scope messages =
          ⟨incoming, response.messages, called⟩ ∧
      ∃ i < n, ρ.event i = .call c q ∧ Settled ρ c i n b op scope q response := by
  have hseed : q ≠ .seedInitialMessage := by
    cases hmade with
    | bodyless _ _ _ _ hasks => cases hasks <;> simp
    | @withBody payload => cases payload <;> simp [requestOf]
  obtain ⟨i, hin, he, hjustified⟩ := ended_justified ρ hf hfit hseed hended
  have hexc : ∀ name, b.outcome q ≠ .error (.interrupt name) := by
    intro name h
    rw [hb] at h
    cases o with
    | ok res => cases h
    | error exc =>
      obtain ⟨detail, rfl | rfl⟩ := justified_error hjustified
      · cases h
      · cases h
  exact ⟨_, serve_made hfaithful hmade hexc, i, hin, he,
    settled_reply hf hseed hended hb hjustified⟩

end Settling

section Refused

/-- The e-mail of an author is taken by the author who was created before. -/
def twice : Run .empty := scheduled .empty
  [.call 0 (.createAuthor adaCreate), act 0 1, act 0 0, .close 0,
    .call 1 (.createAuthor adaCreate), act 1 2, act 1 0, .close 1] (by decide +kernel)

def refusing : Backend where
  outcome
    | .createAuthor p => .error (raised (duplicateEmail p.email))
    | _ => .error (raised (.other "OperationalError"))
  render _ := ""
  ready := true
  docs := ⟨false, fun _ => ("", [])⟩

theorem made_settled_twice : ∃ response, serve refusing.endpoint (fun _ => 0)
    (@createApp strict 16384 2 (@Backend.endpoints strict refusing 2 [])) postSpelled parts =
      ⟨[], response.messages, [.createAuthor adaCreate]⟩ ∧
    ∃ i < 8, twice.event i = .call 1 (.createAuthor adaCreate) ∧
      Settled twice 1 i 8 refusing .createAuthor postSpelled (.createAuthor adaCreate) response :=
  @made_settled _ _ _ _ _ strict _ _ _ _ _ _ _ _ _ _ (.error (duplicateEmail (text "ada@x.org")))
    strict_faithful twice
    (@Made.withBody strict _ _ _ _ _ _ _ _ sends_spelled parts_split (by decide) (by decide))
    (by decide +kernel) (faultFree_of_events twice (by decide +kernel) 1)
    ⟨by decide +kernel, trivial⟩ rfl

end Refused

end ClientAnswers
