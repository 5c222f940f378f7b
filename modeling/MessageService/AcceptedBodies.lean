import MessageService.Endpoints
import MessageService.Layers
import MessageService.Library.JsonTexts

/-! The body of a request on its way to the endpoint: whatever JSON text a client writes its
payload as, and however the text is cut into parts, the endpoint is called once, with the payload
that was written, and the client gets the endpoint's answer. -/
namespace AcceptedBodies

open Programs Wrappers Texts Models Schemas Problems Asgi BodyLimit RequestMetrics Requests
open Layers JsonLoads JsonTexts Endpoints

section Writing

/-- What the validators of the field types make of a value that is written as their type is. -/
structure Faithful (frameworks : Frameworks) : Prop where
  str : ∀ s : Text, frameworks.str (.str s) = .ok s
  uuid : ∀ id : Uuid, frameworks.uuid (.str (text id.str)) = .ok id
  int : ∀ n : ℤ, frameworks.int (.int n) = .ok n

/-- A string is written as any string that the check makes it of. -/
def WritesString (members : Members) (f : Field) (s : Text) : Prop :=
  ∃ t, member members f.fieldName f.fieldName = some (.str t) ∧ checkString f t = .ok s

/-- No value is written as null, or left out. -/
def WritesOptional (members : Members) (f : Field) : Option Text → Prop
  | none => member members f.fieldName f.fieldName = none ∨
      member members f.fieldName f.fieldName = some .none
  | some s => WritesString members f s

/-- The members of an object that a payload is written as. Their order, members of other names and
all but the last member of a name do not matter. -/
def Writes (members : Members) : Payload → Prop
  | .createMessage p => WritesString members .title p.title ∧
      WritesString members .content p.content ∧
      member members "authorId" "author_id" = some (.str (text p.authorId.str))
  | .updateMessage _ p => WritesOptional members .title p.title ∧
      WritesString members .content p.content ∧
      member members "version" "version" = some (.int p.version)
  | .createAuthor p => WritesString members .name p.name ∧ WritesString members .email p.email
  | .updateAuthor _ p => WritesOptional members .name p.name ∧
      WritesOptional members .email p.email

/-- The route of a payload, with its path parameter. -/
def routeOf : Payload → Route
  | .createMessage _ => .createMessage
  | .updateMessage id _ => .updateMessage id.str
  | .createAuthor _ => .createAuthor
  | .updateAuthor id _ => .updateAuthor id.str

/-- The method and the path a payload is sent to. -/
def address : Payload → String × String
  | .createMessage _ => ("POST", "/messages")
  | .updateMessage id _ => ("PATCH", "/messages/" ++ id.str)
  | .createAuthor _ => ("POST", "/authors")
  | .updateAuthor id _ => ("PATCH", "/authors/" ++ id.str)

theorem segment_append {before id : String} (hne : id ≠ "") (hslash : '/' ∉ id.toList) :
    segment before (before ++ id) = some id := by
  unfold Requests.segment
  rw [String.toList_append, List.drop_left]
  rw [if_pos ⟨List.isPrefixOf_iff_prefix.mpr (List.prefix_append ..), by simpa using hne, hslash⟩,
    String.ofList_toList]

/-- A UUID is one segment of a path. -/
theorem str_segment (id : Uuid) : id.str ≠ "" ∧ '/' ∉ id.str.toList := by
  constructor
  · intro h
    have hstr := ofStr_str id
    rw [h] at hstr
    cases hstr
  · rw [Uuid.str, String.toList_ofList]
    intro h
    have hdigit : '/' ∈ (hyphenate (FixedDigits.encode 16 32 id.val)).filter (· ≠ '-') :=
      List.mem_filter.mpr ⟨h, by decide⟩
    rw [filter_hyphenate fun c hc => (mem_encode_hex hc).1] at hdigit
    exact absurd (mem_encode_hex hdigit).2 (by decide)

/-- An author's path is none of a message. -/
theorem segment_author (id : String) : segment "/messages/" ("/authors/" ++ id) = none := by
  unfold Requests.segment
  rw [String.toList_append]
  exact if_neg fun h => absurd h.1 (by simp)

theorem matchRoute_address {scope : Scope} {payload : Payload}
    (hmethod : scope.method = (address payload).1) (hpath : scope.path = (address payload).2) :
    matchRoute scope = some (routeOf payload) := by
  unfold matchRoute
  rw [hmethod, hpath]
  cases payload with
  | createMessage p => rfl
  | createAuthor p => rfl
  | updateMessage id p =>
    obtain ⟨hne, hslash⟩ := str_segment id
    simp [address, routeOf, segment_append hne hslash]
  | updateAuthor id p =>
    obtain ⟨hne, hslash⟩ := str_segment id
    simp [address, routeOf, segment_author, segment_append hne hslash]

end Writing

section Validating

variable [frameworks : Frameworks] {members : Members}

theorem checkedString_ok (hfaithful : Faithful frameworks) {f : Field} {t s : Text}
    (h : checkString f t = .ok s) :
    checkedString f (.str t) = .ok ⟨s, checkString_checked h⟩ := by
  unfold checkedString
  rw [hfaithful.str]
  dsimp only
  split
  · rename_i message hmessage
    rw [h] at hmessage
    cases hmessage
  · rename_i s' hs'
    obtain rfl := Except.ok.inj (h.symm.trans hs')
    rfl

theorem requiredString_written (hfaithful : Faithful frameworks) {f : Field} {s : Text}
    (h : WritesString members f s) (hs : Checked f s) :
    requiredString f members = .ok ⟨s, hs⟩ := by
  obtain ⟨t, ht, hcheck⟩ := h
  unfold requiredString
  rw [ht]
  exact checkedString_ok hfaithful hcheck

theorem optionalString_written (hfaithful : Faithful frameworks) {f : Field} {s : Option Text}
    (h : WritesOptional members f s) (hs : ∀ t ∈ s, Checked f t) :
    optionalString f members = .ok ⟨s, hs⟩ := by
  unfold optionalString
  cases s with
  | none =>
    rcases h with h | h
    · rw [h]
    · rw [h]
  | some s =>
    obtain ⟨t, ht, hcheck⟩ := h
    rw [ht]
    dsimp only
    rw [checkedString_ok hfaithful hcheck]

theorem version_written (hfaithful : Faithful frameworks) {n : ℕ}
    (h : member members "version" "version" = some (.int n)) (hn : n ≤ maxInt4) :
    version members = .ok ⟨n, hn⟩ := by
  unfold version
  rw [h]
  dsimp only
  rw [hfaithful.int]
  dsimp only
  rw [if_neg (by omega), dif_pos (by simpa using hn)]
  rfl

/-- The arguments of the endpoint are those that were written. -/
theorem solve_written (hfaithful : Faithful frameworks) {payload : Payload}
    (h : Writes members payload) :
    solve (routeOf payload) (.json (.dict members)) = .ok payload := by
  have hpath : ∀ id : Uuid, pathUuid id.str = .ok id := by
    intro id
    unfold pathUuid checkedUuid
    rw [hfaithful.uuid]
  cases payload with
  | createMessage p =>
    obtain ⟨htitle, hcontent, hauthor⟩ := h
    have hid : requiredUuid "authorId" "author_id" members = .ok p.authorId := by
      unfold requiredUuid checkedUuid
      rw [hauthor]
      dsimp only
      rw [hfaithful.uuid]
    unfold routeOf solve objectMembers validateMessageCreate
    simp only [Except.bind]
    rw [requiredString_written hfaithful htitle p.title_checked,
      requiredString_written hfaithful hcontent p.content_checked, hid]
    rfl
  | updateMessage id p =>
    obtain ⟨htitle, hcontent, hversion⟩ := h
    unfold routeOf solve objectMembers validateMessageUpdate
    simp only [Except.bind]
    rw [optionalString_written hfaithful htitle p.title_checked,
      requiredString_written hfaithful hcontent p.content_checked,
      version_written hfaithful hversion p.version_le, hpath]
    rfl
  | createAuthor p =>
    obtain ⟨hname, hemail⟩ := h
    unfold routeOf solve objectMembers validateAuthorCreate
    simp only [Except.bind]
    rw [requiredString_written hfaithful hname p.name_checked,
      requiredString_written hfaithful hemail p.email_checked]
    rfl
  | updateAuthor id p =>
    obtain ⟨hname, hemail⟩ := h
    unfold routeOf solve objectMembers validateAuthorUpdate
    simp only [Except.bind]
    rw [optionalString_written hfaithful hname p.name_checked,
      optionalString_written hfaithful hemail p.email_checked, hpath]
    rfl

end Validating

section Calling

variable [frameworks : Frameworks] {service : Payload → Except Exc Response} {clock : Client → ℚ}
  {maxBytes patience : ℕ} {others : App} {scope : Scope} {route : Route}
  {messages : List Received} {body : Bytes} {payload : Payload}

/-- What the client gets when an endpoint returned or raised. -/
def replyOf (scope : Scope) : Except Exc Response → Response
  | .ok response => response
  | .error exc => ((handleError scope exc).map Prod.fst).getD (fallback scope)

omit frameworks in
theorem replyOf_route (template : String) (r : Except Exc Response) :
    replyOf { scope with route := some template } r = replyOf scope r := by
  cases r with
  | ok response => rfl
  | error exc => cases exc <;> rfl

/-- Where a route ends that returned or raised, after it has read `n` bytes. -/
def ended (scope : Scope) (n : ℕ) (incoming : List Received) (called : List Payload) :
    Except Exc Response → (Outcome × Scope) × Bool × ℕ × Watch × Client
  | .ok response => ((.ok (), scope), true, n, ⟨response.status, true⟩,
      ⟨incoming, response.messages, called⟩)
  | .error exc => ((.error exc, scope), false, n, ⟨500, false⟩, ⟨incoming, [], called⟩)

/-- A request whose body is read within the limit and has a payload. -/
theorem run_called (hsplits : Splits messages body) (hwithin : body.length ≤ maxBytes)
    (hpatience : messages.length ≤ patience)
    (hpayload : payloadOf route scope body = .ok payload) :
    run (layers maxBytes service clock) (false, 0, ⟨500, false⟩, ⟨messages, [], []⟩)
      (handleRoute patience route scope) =
    ended scope body.length [] [payload] (service payload) := by
  have hread : run (layers maxBytes service clock) (false, 0, ⟨500, false⟩, ⟨messages, [], []⟩)
      (readBody patience []) =
        (.ok ([] ++ body), false, 0 + body.length, ⟨500, false⟩, ⟨[], [], []⟩) :=
    read_within hsplits (by omega) hpatience
  unfold handleRoute
  rw [run_bind, hread]
  simp only [List.nil_append, hpayload, Nat.zero_add, run]
  have hcall : layers maxBytes service clock
      (false, body.length, ⟨500, false⟩, ⟨[], [], []⟩) (.endpoint payload) =
        (service payload, false, body.length, ⟨500, false⟩, ⟨[], [], [payload]⟩) := rfl
  rw [hcall]
  cases service payload with
  | ok response => rfl
  | error exc => rfl

section Around

variable {σ : Type} {h : Handler σ Effect Reply} {s s' : σ} {app : App} {scope' : Scope}
  {started : Bool} {n : ℕ}

omit frameworks in
theorem run_streamed {r : Outcome × Scope}
    (happ : run ((limiter maxBytes).through h) (0, s) (app scope) = (r, n, s')) :
    run h s (streamed maxBytes app scope) = (r, s') := by
  unfold streamed
  rw [run_bind, run_wrap, happ]
  rfl

omit frameworks in
theorem run_passed
    (happ : run (sender.through h) (false, s) (app scope) = ((.ok (), scope'), started, s')) :
    run h s (exceptionMiddleware app scope) = ((.ok (), scope'), s') := by
  unfold exceptionMiddleware
  rw [run_bind, run_wrap, happ]
  rfl

omit frameworks in
theorem run_unhandled {exc : Exc}
    (happ : run (sender.through h) (false, s) (app scope) = ((.error exc, scope'), started, s'))
    (hexc : handleError scope' exc = none) :
    run h s (exceptionMiddleware app scope) = ((.error exc, scope'), s') := by
  unfold exceptionMiddleware
  rw [run_bind, run_wrap, happ]
  dsimp only
  rw [hexc]
  rfl

end Around

/-- The middlewares around a route that ended, with or without a response. -/
theorem serve_routed {template : String} {r : Except Exc Response} {incoming : List Received}
    {called : List Payload} {n : ℕ} (hmetered : excluded scope = false)
    (hstreamed : bodyLimit maxBytes (limited patience others) scope =
      streamed maxBytes (limited patience others) scope)
    (hexc : ∀ name, r ≠ .error (.interrupt name))
    (hrun : run (layers maxBytes service clock) (false, 0, ⟨500, false⟩, ⟨messages, [], []⟩)
      (router patience others scope) =
        ended { scope with route := some template } n incoming called r) :
    serve service clock (createApp maxBytes patience others) scope messages =
      ⟨incoming, (replyOf scope r).messages, called⟩ := by
  rw [← replyOf_route template]
  generalize { scope with route := some template } = scope' at hrun ⊢
  cases r with
  | ok response =>
    have happ := run_streamed (run_passed hrun)
    rw [← hstreamed] at happ
    exact serve_metered hmetered happ
  | error exc =>
    cases hhandled : handleError scope' exc with
    | some r =>
      have hanswer : run ((limiter maxBytes).through (watch.through (meteredServer service clock)))
          (n, ⟨500, false⟩, ⟨incoming, [], called⟩) (answer r) = ((.ok (), r.2),
            n, ⟨r.1.status, true⟩, ⟨incoming, r.1.messages, called⟩) := rfl
      have happ := run_streamed ((run_exceptionMiddleware hrun hhandled).trans hanswer)
      rw [← hstreamed] at happ
      have hreply : replyOf scope' (.error exc) = r.1 := by
        rw [replyOf, hhandled]
        rfl
      rw [hreply]
      exact serve_metered hmetered happ
    | none =>
      have happ := run_streamed (run_unhandled hrun hhandled)
      rw [← hstreamed] at happ
      have hreply : replyOf scope' (.error exc) = fallback scope' := by
        rw [replyOf, hhandled]
        rfl
      have hinterrupt : ∀ name, exc ≠ .interrupt name := by
        rintro name rfl
        exact hexc name rfl
      rw [hreply]
      exact (serve_metered hmetered happ).trans (run_rescue _ hinterrupt)

/-- A route with a request body that has a payload. -/
theorem serve_called (hhttp : scope.type = "http") (hroute : matchRoute scope = some route)
    (hstreamed : bodyLimit maxBytes (limited patience others) scope =
      streamed maxBytes (limited patience others) scope)
    (hexc : ∀ name, service payload ≠ .error (.interrupt name))
    (hsplits : Splits messages body) (hwithin : body.length ≤ maxBytes)
    (hpatience : messages.length ≤ patience)
    (hpayload : payloadOf route { scope with route := some route.template } body = .ok payload) :
    serve service clock (createApp maxBytes patience others) scope messages =
      ⟨[], (replyOf scope (service payload)).messages, [payload]⟩ := by
  have hrun : run (layers maxBytes service clock) (false, 0, ⟨500, false⟩, ⟨messages, [], []⟩)
      (router patience others scope) =
        ended { scope with route := some route.template } body.length [] [payload]
          (service payload) := by
    unfold router
    rw [hroute]
    exact run_called hsplits hwithin hpatience hpayload
  exact serve_routed (route_metered hhttp hroute) hstreamed hexc hrun

end Calling

section Answers

variable [frameworks : Frameworks]

/-- A request that a client sends with a payload: any JSON text of it in UTF-8, with its length
if a length is declared. -/
structure Sends (payload : Payload) (scope : Scope) (body : Bytes) : Prop where
  http : scope.type = "http"
  method : scope.method = (address payload).1
  path : scope.path = (address payload).2
  contentType : Frameworks.isJson (firstHeader scope "content-type") = true
  length : isDigits (declared scope) = true → pythonInt (declared scope) = .ok body.length
  written : ∃ s members, body = encodeUtf8 s ∧
    Document Frameworks.nesting (.dict members) (text s) ∧ Writes members payload

variable {service : Payload → Except Exc Response} {clock : Client → ℚ} {maxBytes patience : ℕ}
  {others : App} {scope : Scope} {messages : List Received} {body : Bytes} {payload : Payload}

theorem payloadOf_sent (hfaithful : Faithful frameworks) (h : Sends payload scope body) :
    payloadOf (routeOf payload) scope body = .ok payload := by
  obtain ⟨s, members, rfl, hdocument, hwrites⟩ := h.written
  have hloads := jsonLoads_document hdocument
  have hne : encodeUtf8 s ≠ [] := by
    intro hempty
    rw [hempty] at hloads
    cases hloads
  have hparse : parseBody scope (encodeUtf8 s) = .ok (.json (.dict members)) := by
    unfold parseBody
    rw [if_neg hne, if_pos h.contentType, hloads]
  unfold payloadOf
  rw [hparse]
  change (solve _ _).mapError _ = _
  rw [solve_written hfaithful hwrites]
  rfl

/-- However a payload is written and however its text is cut into parts, its endpoint is called
once with it, and the client gets the answer of the endpoint. -/
theorem serve_sent (hfaithful : Faithful frameworks) (h : Sends payload scope body)
    (hsplits : Splits messages body) (hwithin : body.length ≤ maxBytes)
    (hpatience : messages.length ≤ patience)
    (hexc : ∀ name, service payload ≠ .error (.interrupt name)) :
    serve service clock (createApp maxBytes patience others) scope messages =
      ⟨[], (replyOf scope (service payload)).messages, [payload]⟩ := by
  have hdeclared : ¬DeclaredTooLarge maxBytes scope := by
    rintro ⟨hdigits, n, hn, hlarge⟩
    obtain rfl := Except.ok.inj ((h.length hdigits).symm.trans hn)
    omega
  have hdigits : isDigits (declared scope) = true → (declared scope).length ≤ 4300 := by
    intro hdigits
    by_contra hlong
    have hint := h.length hdigits
    rw [pythonInt, if_pos (by omega)] at hint
    cases hint
  have hstreamed : bodyLimit maxBytes (limited patience others) scope =
      streamed maxBytes (limited patience others) scope :=
    bodyLimit_streamed h.http hdigits hdeclared
  have hroute := matchRoute_address h.method h.path
  have hpayload : payloadOf (routeOf payload)
      { scope with route := some (routeOf payload).template } body = .ok payload :=
    payloadOf_sent hfaithful ⟨h.http, h.method, h.path, h.contentType, h.length, h.written⟩
  exact serve_called h.http hroute hstreamed hexc hsplits hwithin hpatience hpayload

omit frameworks in
theorem endpoint_interrupt {b : Backend} {name : String}
    (h : b.outcome (requestOf payload) ≠ .error (.interrupt name)) :
    b.endpoint payload ≠ .error (.interrupt name) := by
  unfold Backend.endpoint
  cases houtcome : b.outcome (requestOf payload) with
  | ok result => exact fun hmap => by cases hmap
  | error exc =>
    intro hmap
    obtain rfl := Except.error.inj hmap
    exact h houtcome

/-- A payload in any spelling reaches its endpoint in the application with all its routes. -/
theorem sent_accepted (hfaithful : Faithful frameworks) {b : Backend} {query : Query}
    (h : Sends payload scope body) (hsplits : Splits messages body)
    (hwithin : body.length ≤ maxBytes) (hpatience : messages.length ≤ patience)
    (hexc : ∀ name, b.outcome (requestOf payload) ≠ .error (.interrupt name)) :
    serve b.endpoint clock (createApp maxBytes patience (b.endpoints patience query)) scope
        messages =
      ⟨[], (replyOf scope (b.endpoint payload)).messages, [payload]⟩ :=
  serve_sent hfaithful h hsplits hwithin hpatience fun name => endpoint_interrupt (hexc name)

end Answers

section Spelled

theorem strict_faithful : Faithful strict where
  str s := rfl
  uuid id := by
    change strictUuid _ = _
    rw [strictUuid, string_text, ofStr_str]
  int n := rfl

/-- An author's payload with blanks, an escape, a member in another place, and one too many. -/
def spelled : String :=
  " \x7b \"email\":\"ada@x.org\" ,\"age\":36,\"name\":\" \\u0041da\"\x7d"

theorem ada_name : Checked .name (text "Ada") := by decide +kernel

theorem ada_email : Checked .email (text "ada@x.org") := by decide +kernel

def adaCreate : AuthorCreate := ⟨text "Ada", text "ada@x.org", ada_name, ada_email⟩

def postSpelled : Scope :=
  ⟨"http", "POST", "/authors", [(ascii "content-type", ascii "application/json")], none, none⟩

theorem chars_plain {s : Text} (h : ∀ c ∈ s, 32 ≤ c ∧ c ≠ 34 ∧ c ≠ 92) : Chars s s := by
  induction s with
  | nil => exact .nil
  | cons c s ih =>
    obtain ⟨hc, hquote, hback⟩ := h c (List.mem_cons_self ..)
    exact .plain hc hquote hback (ih fun d hd => h d (List.mem_cons_of_mem _ hd))

theorem blank_space : Blank [32] := by
  intro c hc
  obtain rfl := List.mem_singleton.mp hc
  rfl

theorem spelled_document : ∃ members, Document strict.nesting (.dict members) (text spelled) ∧
    Writes members (.createAuthor adaCreate) := by
  have hemail : Value 999 (.str (text "ada@x.org")) (34 :: (text "ada@x.org" ++ [34])) :=
    .string (chars_plain (by decide))
  have hdigits : Whole [51, 54] := .more (by decide) (by decide) fun c hc => by
    obtain rfl := List.mem_singleton.mp hc
    rfl
  have hage : Value 999 (.int 36) [51, 54] := .number (.int hdigits (by decide))
  have hletter : Hex 65 [48, 48, 52, 49] := @Hex.mk 48 48 52 49 0 0 4 1 rfl rfl rfl rfl
  have hname : Value 999 (.str (text " Ada")) (text "\" \\u0041da\"") :=
    .string (.plain (by decide) (by decide) (by decide)
      (.unit hletter rfl (chars_plain (s := text "da") (by decide))))
  have hlast := Members.one (chars_plain (s := text "name") (by decide)) blank_nil blank_nil hname
    blank_nil
  have hmiddle := Members.more (chars_plain (s := text "age") (by decide)) blank_nil blank_nil hage
    blank_nil blank_nil hlast
  have hmembers := Members.more (chars_plain (s := text "email") (by decide)) blank_nil blank_nil
    hemail blank_space blank_nil hmiddle
  refine ⟨_, ⟨[32], _, [], blank_space, .object blank_space hmembers, blank_nil, rfl⟩, ?_, ?_⟩
  · exact ⟨text " Ada", rfl, by decide +kernel⟩
  · exact ⟨text "ada@x.org", rfl, by decide +kernel⟩

/-- The text in two parts. -/
def parts : List Received :=
  [⟨"http.request", some ((encodeUtf8 spelled).take 20), true⟩,
    ⟨"http.request", some ((encodeUtf8 spelled).drop 20), false⟩]

theorem parts_split : Splits parts (encodeUtf8 spelled) := by
  have hsplits := Splits.more (some ((encodeUtf8 spelled).take 20))
    (.last (some ((encodeUtf8 spelled).drop 20)))
  simp only [Option.getD_some, List.take_append_drop] at hsplits
  exact hsplits

/-- A service that creates every author and does nothing else. -/
def creating : Backend where
  outcome
    | .createAuthor p => .ok (.author ⟨1, string p.name, string p.email, ServiceRuns.ada.createdAt⟩)
    | _ => .error (raised (.other "OperationalError"))
  render
    | .author a => a.name
    | _ => ""
  ready := true
  docs := ⟨false, fun _ => ("", [])⟩

theorem sends_spelled :
    @Sends strict (.createAuthor adaCreate) postSpelled (encodeUtf8 spelled) := by
  let _ := strict
  obtain ⟨members, hdocument, hwrites⟩ := spelled_document
  exact ⟨rfl, rfl, rfl, rfl, by decide, spelled, members, rfl, hdocument, hwrites⟩

theorem sent_accepted_spelled : serve creating.endpoint (fun _ => 0)
    (@createApp strict 16384 2 (@Backend.endpoints strict creating 2 [])) postSpelled parts =
      ⟨[], (creating.success .createAuthor
        (.author ⟨1, "Ada", "ada@x.org", ServiceRuns.ada.createdAt⟩)).messages,
        [.createAuthor adaCreate]⟩ :=
  @sent_accepted strict _ _ _ _ _ _ _ strict_faithful _ _ sends_spelled parts_split (by decide)
    (by decide) (by simp [creating, requestOf])

end Spelled

end AcceptedBodies
