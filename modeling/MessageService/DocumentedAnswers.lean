import MessageService.Documentation
import MessageService.Layers
import MessageService.TextCodec

/-! The answers of the application.
The contract of the endpoints is carried through the layers around them: every response has a
documented status, every data point labels from a fixed set, and every problem a type that can be
looked up. -/
namespace DocumentedAnswers

open Programs Wrappers Contracts Models Schemas Problems Asgi BodyLimit RequestMetrics Requests
open MessageJson Layers Endpoints JsonText ServiceRuns ServiceContracts Documentation

section Middlewares

variable [JsonCodec] [Frameworks] {b : Backend} {maxBytes patience : ℕ} {scope : Scope}
variable {query : Query} {S : ℕ → Prop}

/-- A scope as the server makes it. -/
structure Requested (scope : Scope) : Prop where
  route : scope.route = none
  errorCode : scope.errorCode = none

omit [JsonCodec] [Frameworks] in
theorem left_self (h : Requested scope) : Left scope scope := by
  refine ⟨rfl, ?_, ?_⟩
  · intro template hroute
    rw [h.route] at hroute
    cases hroute
  · intro code hcode
    rw [h.errorCode] at hcode
    cases hcode

omit [JsonCodec] [Frameworks] in
theorem left_routed (h : Requested scope) (op : Operation) :
    Left scope { scope with route := some op.declared.template } := by
  refine ⟨rfl, ?_, (left_self h).code⟩
  intro template hroute
  exact ⟨op, (Option.some.inj hroute).symm⟩

theorem meets_endpoints (hb : Honest b) (h : Requested scope)
    (hS : ∀ s ∈ foundStatuses (findRoute b.docs scope.method scope.path), S s) :
    Meets (Behind b maxBytes) (Sends S) (Handled S scope) (b.endpoints patience query scope) := by
  unfold Backend.endpoints
  cases hfound : findRoute b.docs scope.method scope.path with
  | operation op parameter =>
    rw [hfound] at hS
    exact meets_handle hb op parameter hS (left_routed h op)
  | page contentType content =>
    rw [hfound] at hS
    exact answer_handled (fine_bytes _ _ _ (hS 200 (by simp [foundStatuses]))) (left_self h)
  | otherMethod op =>
    rw [hfound] at hS
    refine done_handled ⟨known_kinds.2.2.2.2.2.2.2, hS 405 (by simp [foundStatuses])⟩ ?_
    cases op with
    | none => exact left_self h
    | some op => exact left_routed h op
  | none =>
    rw [hfound] at hS
    dsimp only
    split
    · exact answer_handled (fine_bytes _ _ _ (hS 307 (by simp [foundStatuses]))) (left_self h)
    · exact done_handled ⟨known_kinds.2.2.2.2.2.2.1, hS 404 (by simp [foundStatuses])⟩
        (left_self h)

omit [JsonCodec] [Frameworks] in
theorem sender_passes : Passes sender (Behind b maxBytes) (Sends S) (Behind b maxBytes) (Sends S)
    (fun _ => True) where
  effect _ he := he
  reply _ _ _ _ _ hr := ⟨hr, trivial⟩

omit [JsonCodec] [Frameworks] in
theorem meets_exceptionMiddleware {app : App}
    (h : Meets (Behind b maxBytes) (Sends S) (Handled S scope) (app scope)) :
    Meets (Behind b maxBytes) (Sends S) (fun r => Left scope r.2)
      (exceptionMiddleware app scope) := by
  unfold exceptionMiddleware
  refine meets_bind (meets_wrap sender_passes h trivial) ?_
  rintro ⟨⟨o, scope'⟩, started⟩ ⟨⟨hleft, hexc⟩, -⟩
  cases o with
  | ok _ => exact hleft
  | error exc =>
    dsimp only
    cases hhandler : handleError scope' exc with
    | none => exact hleft
    | some r =>
      obtain ⟨hfine, hr⟩ := handled_fine hhandler (hexc exc rfl) hleft
      dsimp only
      split
      · exact hleft
      · refine meets_mono (meets_answer hfine r.2) (fun _ _ h => h) (fun _ h => h) ?_
        rintro ⟨o', scope''⟩ ⟨rfl, -⟩
        exact hr

omit [JsonCodec] [Frameworks] in
/-- The counter raises an error of its own, which the application inside may rely on. -/
theorem limiter_passes : Passes (limiter maxBytes) (Behind b maxBytes) (Sends S) (Surroundings b)
    (Sends S) (fun _ => True) where
  effect _ he := he
  reply received e r _ _ hr := by
    refine ⟨?_, trivial⟩
    cases e with
    | send _ => exact hr
    | endpoint _ => exact hr
    | receive =>
      cases r with
      | error exc =>
        intro exc' h
        cases h
        exact Or.inl (hr exc rfl)
      | ok message =>
        intro exc h
        simp only [limiter] at h
        split at h
        · split at h
          · cases h
            exact Or.inr rfl
          · cases h
        · cases h

omit [JsonCodec] [Frameworks] in
theorem surroundings_behind (maxBytes : ℕ) (e : Effect) (r : Reply e) (h : Surroundings b e r) :
    Behind b maxBytes e r := by
  cases e with
  | send _ | endpoint _ => exact h
  | receive => exact fun exc hexc => Or.inl (h exc hexc)

omit [JsonCodec] [Frameworks] in
theorem meets_streamed {app : App}
    (h : Meets (Behind b maxBytes) (Sends S) (fun r => Left scope r.2) (app scope)) :
    Meets (Surroundings b) (Sends S) (fun r => Left scope r.2) (streamed maxBytes app scope) := by
  refine meets_bind (meets_wrap limiter_passes h trivial) ?_
  rintro ⟨r, received⟩ ⟨hleft, -⟩
  exact hleft

omit [JsonCodec] [Frameworks] in
theorem meets_bodyLimit {app : App} (hrequested : Requested scope)
    (h413 : DeclaredTooLarge maxBytes scope → S 413)
    (h : Meets (Behind b maxBytes) (Sends S) (fun r => Left scope r.2) (app scope)) :
    Meets (Surroundings b) (Sends S) (fun r => Left scope r.2) (bodyLimit maxBytes app scope) := by
  have hkind := known_kinds.2.2.2.1
  unfold bodyLimit
  split
  · exact meets_mono h (surroundings_behind maxBytes) (fun _ h => h) fun _ h => h
  · split
    · rename_i hdigits
      cases hint : pythonInt (declared scope) with
      | error exc => exact left_self hrequested
      | ok n =>
        dsimp only
        split
        · rename_i hlarge
          have hS : S 413 := h413 ⟨hdigits, n, hint, hlarge⟩
          refine meets_mono (meets_answer (fine_problem hkind hS) _)
            (surroundings_behind maxBytes) (fun _ h => h) ?_
          rintro ⟨o, scope'⟩ ⟨rfl, -⟩
          exact left_problem (tooLarge maxBytes).detail [] hkind (left_self hrequested)
        · exact meets_streamed h
    · exact meets_streamed h

/-- The labels of a data point. -/
structure Labels (scope : Scope) (attrs : Attrs) : Prop where
  method : attrs.method = scope.method
  route : attrs.route = unmatchedRoute ∨ ∃ op : Operation, attrs.route = op.declared.template

/-- What the metered application does: what it sends, and the data points it records. -/
def Records (S : ℕ → Prop) (scope : Scope) : Metered → Prop
  | .asgi e => Sends S e
  | .perfCounter => True
  | .recordDuration _ attrs => Labels scope attrs
  | .addRequest attrs status => Labels scope attrs ∧ S status
  | .addError attrs code =>
    Labels scope attrs ∧ (code = "UNKNOWN" ∨ ∃ k ∈ catalogue, code = k.code)

def Outer (b : Backend) : (e : Metered) → MeteredReply e → Prop
  | .asgi e, r => Surroundings b e r
  | _, _ => True

omit [JsonCodec] [Frameworks] in
theorem watch_passes (h : ∀ e, Sends S e → Records S scope (.asgi e)) :
    Passes watch (Surroundings b) (Sends S) (Outer b) (Records S scope) (fun s => S s.status) where
  effect := h
  reply s e r hs he hr := by
    refine ⟨hr, ?_⟩
    cases e with
    | receive => exact hs
    | endpoint _ => exact hs
    | send m =>
      cases m with
      | start status contentType location => exact he
      | body _ _ => exact hs
      | other _ => exact hs

omit [JsonCodec] [Frameworks] in
theorem plain_passes : Passes plain (Surroundings b) (Sends S) (Outer b) (Records S scope)
    (fun _ => True) where
  effect _ he := he
  reply _ _ _ _ _ hr := ⟨hr, trivial⟩

omit [JsonCodec] [Frameworks] in
theorem meets_rescue {s : Watch} {r : Asgi.Outcome × Scope} (h500 : S 500) (hs : S s.status)
    (hleft : Left scope r.2) : Meets (Outer b) (Records S scope)
      (fun x => Left scope x.1.2 ∧ S x.2.status) (rescue s r) := by
  have hkind := known_kinds.2.2.2.2.1
  have hanswer : ∀ s' : Watch, S s'.status → Meets (Outer b) (Records S scope)
      (fun x => Left scope x.1.2 ∧ S x.2.status) (watch.wrap s'
        (answer (problemResponse r.2 500 "INTERNAL_SERVER_ERROR" unexpected [] none))) := by
    intro s' hs'
    have hsent : Meets (Surroundings b) (Sends S) (fun x => Left scope x.2)
        (answer (problemResponse r.2 500 "INTERNAL_SERVER_ERROR" unexpected [] none)) := ?_
    · exact meets_wrap (watch_passes fun _ h => h) hsent hs'
    refine meets_mono (meets_answer (fine_problem hkind h500) _)
      (surroundings_behind 0) (fun _ h => h) ?_
    rintro ⟨o, scope'⟩ ⟨rfl, -⟩
    exact left_problem unexpected [] hkind hleft
  obtain ⟨o, scope'⟩ := r
  cases o with
  | ok _ => exact ⟨hleft, hs⟩
  | error exc =>
    by_cases hinterrupt : ∃ name, exc = .interrupt name
    · obtain ⟨name, rfl⟩ := hinterrupt
      exact ⟨hleft, hs⟩
    · rw [rescue_exception s scope' fun name h => hinterrupt ⟨name, h⟩]
      split
      · exact ⟨hleft, h500⟩
      · exact hanswer _ h500

omit [JsonCodec] [Frameworks] in
theorem meets_record {start : ℚ} {s : Watch} {r : Asgi.Outcome × Scope} (hs : S s.status)
    (hleft : Left scope r.2) :
    Meets (Outer b) (Records S scope) (fun _ => True) (record start s r) := by
  have hlabels : Labels scope ⟨r.2.method, r.2.route.getD unmatchedRoute⟩ := by
    refine ⟨hleft.method, ?_⟩
    cases hroute : r.2.route with
    | none => exact Or.inl rfl
    | some template =>
      obtain ⟨op, hop⟩ := hleft.route template hroute
      exact Or.inr ⟨op, hop⟩
  refine ⟨trivial, fun now _ => ⟨hlabels, fun _ _ => ⟨⟨hlabels, hs⟩, fun _ _ => ?_⟩⟩⟩
  split
  · refine ⟨⟨hlabels, ?_⟩, fun _ _ => trivial⟩
    cases hcode : r.2.errorCode with
    | none => exact Or.inl rfl
    | some code => exact Or.inr (hleft.code code hcode)
  · trivial

omit [JsonCodec] [Frameworks] in
theorem meets_requestMetrics {app : App} (h500 : S 500)
    (h : Meets (Surroundings b) (Sends S) (fun r => Left scope r.2) (app scope)) :
    Meets (Outer b) (Records S scope) (fun _ => True) (requestMetrics app scope) := by
  unfold requestMetrics
  split
  · refine meets_bind (meets_wrap plain_passes h trivial) ?_
    exact fun _ _ => trivial
  · refine ⟨trivial, fun start _ => ?_⟩
    refine meets_bind (meets_wrap (watch_passes fun _ h => h) h h500) ?_
    rintro ⟨r, s⟩ ⟨hleft, hs⟩
    refine meets_bind (meets_rescue h500 hs hleft) ?_
    rintro ⟨r', s'⟩ ⟨hleft', hs'⟩
    exact meets_record hs' hleft'

omit [JsonCodec] [Frameworks] in
theorem found_500 (found : Found) : 500 ∈ foundStatuses found := by
  cases found with
  | operation op _ => simp [foundStatuses, documented]
  | page _ _ | otherMethod _ | none => simp [foundStatuses]

/-- The application keeps to its documentation. -/
theorem meets_createApp (hb : Honest b) (h : Requested scope) :
    Meets (Outer b) (Records (MayAnswer maxBytes b.docs scope) scope) (fun _ => True)
      (createApp maxBytes patience (b.endpoints patience query) scope) := by
  refine meets_requestMetrics (Or.inl (found_500 _)) (meets_bodyLimit h ?_ ?_)
  · exact fun hlarge => Or.inr ⟨rfl, hlarge⟩
  · refine meets_exceptionMiddleware ?_
    rw [router_endpoints]
    exact meets_endpoints hb h fun _ hs => Or.inl hs

end Middlewares

section Served

variable {b : Backend} {clock : Client → ℚ}

/-- The server answers an application as its surroundings may. -/
theorem server_outer (c : Client) (e : Metered) :
    Outer b e (meteredServer b.endpoint clock c e).1 := by
  cases e with
  | perfCounter | recordDuration _ _ | addRequest _ _ | addError _ _ => trivial
  | asgi e =>
    cases e with
    | endpoint payload => rfl
    | send m =>
      intro exc h
      cases h
    | receive =>
      intro exc h
      obtain ⟨_ | ⟨message, incoming⟩, sent, called⟩ := c
      · cases h
      · cases h

/-- A store without messages, and every other call cancelled. -/
def absentMessages : Backend where
  outcome
    | .getMessage id => .error (raised (Services.messageNotFound id))
    | _ => .error (.interrupt "CancelledError")
  render _ := ""
  ready := true
  docs := ⟨false, fun _ => ("", [])⟩

theorem honest_absentMessages : Honest absentMessages := by
  intro q
  cases q with
  | getMessage id =>
    refine Or.inl ⟨.error (Services.messageNotFound id), ⟨[⟨.cacheGet id.str, .ok none⟩,
      ⟨.selectMessage id, .ok none⟩], .step (.step (.here _)), ?_⟩, rfl⟩
    simp [Libraries]
  | listMessages | createMessage | updateMessage | deleteMessage | listAuthors | getAuthor
  | createAuthor | updateAuthor | deleteAuthor | seedInitialMessage => exact Or.inr ⟨_, rfl⟩

def lookup (path : String) : Scope := ⟨"http", "GET", path, [], none, none⟩

def absentMessage : Scope := lookup "/messages/00000000-0000-0000-0000-000000000007"

/-- The exchanges of a request for a message that does not exist. -/
def absentExchanges : List MeteredStep :=
  exchanges (meteredServer absentMessages.endpoint fun _ => 0) ⟨[], [], []⟩
    (@createApp strict 16384 1 (@Backend.endpoints strict absentMessages 1 []) absentMessage)

end Served

section Answers

variable [JsonCodec] [Frameworks] {b : Backend} {maxBytes patience : ℕ} {scope : Scope}
variable {query : Query} {tr : List MeteredStep}
variable {p : Program Metered MeteredReply (Asgi.Outcome × Scope)}

omit [JsonCodec] [Frameworks] in
theorem mem_clientMessages {m : Sent} (h : m ∈ clientMessages tr) :
    ∃ r, (⟨.asgi (.send m), r⟩ : MeteredStep) ∈ tr := by
  obtain ⟨⟨e, r⟩, hx, hmessage⟩ := List.mem_filterMap.mp h
  cases e with
  | asgi e =>
    cases e with
    | send m' =>
      obtain rfl := Option.some.inj hmessage
      exact ⟨r, hx⟩
    | receive | endpoint _ => cases hmessage
  | perfCounter | recordDuration _ _ | addRequest _ _ | addError _ _ => cases hmessage

/-- Every response to a request has a status that is documented for what it finds. -/
theorem answers_documented (hb : Honest b) (h : Requested scope)
    (hpath : Path (createApp maxBytes patience (b.endpoints patience query) scope) tr p)
    (htr : ∀ x ∈ tr, Outer b x.1 x.2) :
    ∀ status ∈ starts (clientMessages tr), MayAnswer maxBytes b.docs scope status := by
  intro status hstatus
  obtain ⟨m, hm, hstart⟩ := List.mem_filterMap.mp hstatus
  obtain ⟨r, hr⟩ := mem_clientMessages hm
  have howed := (meets_path hpath (meets_createApp hb h) htr).1 _ hr
  cases m with
  | start status' contentType location =>
    obtain rfl := Option.some.inj hstart
    exact howed
  | body _ _ | other _ => cases hstart

end Answers

theorem answers_documented_absent : starts (clientMessages absentExchanges) = [404] ∧
    ∀ status ∈ starts (clientMessages absentExchanges),
      MayAnswer 16384 absentMessages.docs absentMessage status :=
  ⟨by decide +kernel, @answers_documented TextCodec.textCodec strict _ _ _ _ _ _ _
    honest_absentMessages ⟨rfl, rfl⟩ (ends_exchanges _ _ _) (exchanges_allowed server_outer _ _)⟩

section Labels

def routeLabels : List String := unmatchedRoute :: operations.map fun op => op.declared.template

def statusLabels : List ℕ := [200, 201, 204, 307, 400, 404, 405, 409, 413, 500, 503]

def codeLabels : List String := "UNKNOWN" :: catalogue.map Kind.code

variable [JsonCodec] [Frameworks] {b : Backend} {maxBytes patience : ℕ} {scope : Scope}
variable {query : Query} {tr : List MeteredStep}
variable {p : Program Metered MeteredReply (Asgi.Outcome × Scope)}

/-- Of the labels of the data points only the method is the client's. -/
structure Bounded (scope : Scope) (tr : List MeteredStep) : Prop where
  durations : ∀ elapsedMs attrs r, (⟨.recordDuration elapsedMs attrs, r⟩ : MeteredStep) ∈ tr →
    attrs.method = scope.method ∧ attrs.route ∈ routeLabels
  requests : ∀ attrs status r, (⟨.addRequest attrs status, r⟩ : MeteredStep) ∈ tr →
    attrs.method = scope.method ∧ attrs.route ∈ routeLabels ∧ status ∈ statusLabels
  errors : ∀ attrs code r, (⟨.addError attrs code, r⟩ : MeteredStep) ∈ tr →
    attrs.method = scope.method ∧ attrs.route ∈ routeLabels ∧ code ∈ codeLabels

omit [JsonCodec] [Frameworks] in
theorem labels_listed {attrs : Attrs} (h : Labels scope attrs) :
    attrs.method = scope.method ∧ attrs.route ∈ routeLabels := by
  refine ⟨h.method, ?_⟩
  rcases h.route with hroute | ⟨op, hroute⟩
  · rw [hroute]
    exact List.mem_cons_self ..
  · rw [hroute]
    exact List.mem_cons_of_mem _ (List.mem_map.mpr ⟨op, mem_operations op, rfl⟩)

omit [JsonCodec] [Frameworks] in
theorem statuses_listed {docs : Docs} {status : ℕ} (h : MayAnswer maxBytes docs scope status) :
    status ∈ statusLabels := by
  have hdocumented : ∀ op ∈ operations, ∀ s ∈ documented op, s ∈ statusLabels := by decide
  rcases h with h | ⟨rfl, _⟩
  · cases hfound : findRoute docs scope.method scope.path with
    | operation op _ =>
      rw [hfound] at h
      exact hdocumented op (mem_operations op) status h
    | page _ _ | otherMethod _ | none =>
      rw [hfound] at h
      simp only [foundStatuses, List.mem_cons, List.not_mem_nil, or_false] at h
      rcases h with rfl | rfl | rfl <;> decide
  · decide

/-- The labels of the metrics are bounded, whatever is requested and however it ends. -/
theorem labels_bounded (hb : Honest b) (h : Requested scope)
    (hpath : Path (createApp maxBytes patience (b.endpoints patience query) scope) tr p)
    (htr : ∀ x ∈ tr, Outer b x.1 x.2) : Bounded scope tr := by
  have howed := (meets_path hpath (meets_createApp hb h) htr).1
  refine ⟨?_, ?_, ?_⟩
  · exact fun _ _ _ hx => labels_listed (howed _ hx)
  · intro attrs status r hx
    obtain ⟨hlabels, hstatus⟩ := howed _ hx
    obtain ⟨hmethod, hroute⟩ := labels_listed hlabels
    exact ⟨hmethod, hroute, statuses_listed hstatus⟩
  · intro attrs code r hx
    obtain ⟨hlabels, hcode⟩ := howed _ hx
    obtain ⟨hmethod, hroute⟩ := labels_listed hlabels
    refine ⟨hmethod, hroute, ?_⟩
    rcases hcode with rfl | ⟨k, hk, rfl⟩
    · exact List.mem_cons_self ..
    · exact List.mem_cons_of_mem _ (List.mem_map_of_mem hk)

end Labels

theorem labels_bounded_absent : Bounded absentMessage absentExchanges :=
  @labels_bounded TextCodec.textCodec strict _ _ _ _ _ _ _ honest_absentMessages ⟨rfl, rfl⟩
    (ends_exchanges _ _ _) (exchanges_allowed server_outer _ _)

section Dereferencing

variable [JsonCodec] [Frameworks] {b : Backend} {maxBytes patience : ℕ} {scope : Scope}
variable {query : Query} {tr : List MeteredStep}
variable {p : Program Metered MeteredReply (Asgi.Outcome × Scope)}
variable {service : Payload → Except Exc Response} {clock : Client → ℚ} {messages : List Received}

omit [JsonCodec] in
/-- An endpoint that answers without reading its request. -/
theorem serve_answered {others : App} {r : Response × Scope} (hmetered : excluded scope = false)
    (hstreamed : bodyLimit maxBytes (limited patience others) scope =
      streamed maxBytes (limited patience others) scope)
    (hrouter : router patience others scope = answer r) :
    serve service clock (createApp maxBytes patience others) scope messages =
      ⟨messages, r.1.messages, []⟩ := by
  have happ : run (watch.through (meteredServer service clock))
      (⟨500, false⟩, ⟨messages, [], []⟩) (bodyLimit maxBytes (limited patience others) scope) =
      ((.ok (), r.2), ⟨r.1.status, true⟩, ⟨messages, r.1.messages, []⟩) := by
    rw [hstreamed]
    unfold streamed limited exceptionMiddleware
    simp only [run_bind, run_wrap, hrouter]
    simp [answer, respond, run, Program.bind, Wrapper.through, sender, limiter, watch,
      meteredServer, server, Response.messages]
  exact serve_metered hmetered happ

omit [JsonCodec] in
/-- What a problem type's URI resolves to, for every state of the service. -/
theorem serve_problemType {t : ProblemType} (ht : t ∈ problemTypes) :
    serve service clock (createApp maxBytes patience (b.endpoints patience query)) (lookup t.uri)
      messages = ⟨messages, (jsonResponse 200 (dumps (problemTypeOut t))).messages, []⟩ := by
  have hfound : ∀ t ∈ problemTypes, (operations.findSome? fun op =>
      if op.declared.method = "GET" then (op.matchPath t.uri).map fun p => (op, p) else none) =
        some (.getProblemType, t.slug) ∧ excluded (lookup t.uri) = false ∧
        problemTypes.find? (·.slug = t.slug) = some t := by decide
  obtain ⟨hsome, hmetered, hslug⟩ := hfound t ht
  have hundeclared : ¬isDigits (declared (lookup t.uri)) = true := fun h => Bool.noConfusion h
  have hstreamed : bodyLimit maxBytes (limited patience (b.endpoints patience query))
      (lookup t.uri) = streamed maxBytes (limited patience (b.endpoints patience query))
        (lookup t.uri) :=
    bodyLimit_streamed rfl (fun h => absurd h hundeclared) fun h => absurd h.1 hundeclared
  have hfound : findRoute b.docs (lookup t.uri).method (lookup t.uri).path =
      .operation .getProblemType t.slug := found_operation hsome
  have hrouter : router patience (b.endpoints patience query) (lookup t.uri) =
      answer (jsonResponse 200 (dumps (problemTypeOut t)),
        { lookup t.uri with route := some Operation.getProblemType.declared.template }) := by
    rw [router_endpoints]
    unfold Backend.endpoints
    rw [hfound]
    unfold Backend.handle
    dsimp only
    rw [hslug]
  exact serve_answered hmetered hstreamed hrouter

/-- What a problem's type says: that there is no more to it than its status, or where its
documentation is, which repeats the type, the title, the status and the code. -/
inductive Dereferences (maxBytes patience : ℕ) (p : Problem) : Prop where
  | blank : p.type = "about:blank" → p.code = "HTTP_" ++ toString p.status →
      Dereferences maxBytes patience p
  | resolves (text : String) : text ≠ "" → (∀ (b : Backend) query service clock messages,
      serve service clock (createApp maxBytes patience (b.endpoints patience query))
        (lookup p.type) messages = ⟨messages, (jsonResponse 200 (dumps (.obj
          [("type", .str p.type), ("title", .str p.title), ("status", .num p.status),
            ("code", .str p.code), ("description", .str text)]))).messages, []⟩) →
      Dereferences maxBytes patience p

omit [JsonCodec] in
theorem known_dereferences {S : ℕ → Prop} {p : Problem} (h : Known S p) :
    Dereferences maxBytes patience p := by
  have hdescribed : ∀ t ∈ problemTypes, description t ≠ "" := by decide
  obtain ⟨hkind, htitle, -⟩ := h
  rcases List.mem_append.mp hkind with hkind | hkind
  · obtain ⟨t, ht, hof⟩ := List.mem_map.mp hkind
    obtain ⟨hstatus, hcode, htype⟩ := Kind.mk.inj hof
    refine .resolves (description t) (hdescribed t ht) ?_
    intro b query service clock messages
    rw [htitle, ← htype, ← hstatus, ← hcode]
    exact serve_problemType ht
  · simp only [List.mem_cons, List.not_mem_nil, or_false] at hkind
    rcases hkind with hkind | hkind
    · obtain ⟨hstatus, hcode, htype⟩ := Kind.mk.inj hkind
      exact .blank htype (by rw [hcode, hstatus])
    · obtain ⟨hstatus, hcode, htype⟩ := Kind.mk.inj hkind
      exact .blank htype (by rw [hcode, hstatus])

/-- Every problem that is sent can be looked up. -/
theorem problems_dereference (hb : Honest b) (h : Requested scope)
    (hpath : Path (createApp maxBytes patience (b.endpoints patience query) scope) tr p)
    (htr : ∀ x ∈ tr, Outer b x.1 x.2) : ∀ problem moreBody,
      .body (.problem problem) moreBody ∈ clientMessages tr →
        Dereferences maxBytes patience problem := by
  intro problem moreBody hsent
  obtain ⟨r, hr⟩ := mem_clientMessages hsent
  exact known_dereferences ((meets_path hpath (meets_createApp hb h) htr).1 _ hr)

end Dereferencing

def absentProblem : Problem :=
  problemBody absentMessage.path 404 "NOT_FOUND"
    "Message with ID '00000000-0000-0000-0000-000000000007' was not found." [] none

theorem problems_dereference_absent : @Dereferences strict 16384 1 absentProblem := by
  have hsent : .body (.problem absentProblem) false ∈ clientMessages absentExchanges := by
    decide +kernel
  have hall : ∀ problem moreBody, .body (.problem problem) moreBody ∈
      clientMessages absentExchanges → @Dereferences strict 16384 1 problem :=
    @problems_dereference TextCodec.textCodec strict _ _ _ _ _ _ _ honest_absentMessages
      ⟨rfl, rfl⟩ (ends_exchanges _ _ _) (exchanges_allowed server_outer _ _)
  exact hall absentProblem false hsent

end DocumentedAnswers
