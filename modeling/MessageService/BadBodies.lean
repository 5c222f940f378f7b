import MessageService.Layers

/-! A body that is no valid payload. What FastAPI reports of it, a syntax error of its JSON or the
failures of its fields, is answered as bad user input; every other exception of `json.loads` takes
another way. -/
namespace BadBodies

open Programs Wrappers Texts Models Schemas Problems Asgi BodyLimit RequestMetrics Requests Layers
  JsonLoads

section Reports

/-- An error that says what is wrong. -/
structure Proper (e : ErrorDetails) : Prop where
  msg : e.msg ≠ ""
  value : e.kind = "value_error" → removePrefix e.msg valueErrorPrefix ≠ ""

/-- What is reported of a failed validation. -/
structure Reported (es : Errors) : Prop where
  some : es ≠ []
  proper : ∀ e ∈ es, Proper e

variable {α β : Type}

def Reports (x : Except Errors α) : Prop := ∀ es, x = .error es → Reported es

theorem reports_ok (a : α) : Reports (.ok a) := by
  intro es h
  cases h

theorem reports_single {e : ErrorDetails} (h : Proper e) :
    Reports (.error [e] : Except Errors α) := by
  intro es hes
  obtain rfl := Except.error.inj hes
  exact ⟨by simp, by simpa using h⟩

theorem reports_both {x : Except Errors α} {y : Except Errors β} (hx : Reports x)
    (hy : Reports y) : Reports (both x y) := by
  intro es h
  cases x with
  | ok a =>
    cases y with
    | ok b => cases h
    | error fs =>
      obtain rfl := Except.error.inj h
      exact hy _ rfl
  | error ds =>
    cases y with
    | ok b =>
      obtain rfl := Except.error.inj h
      exact hx _ rfl
    | error fs =>
      obtain rfl := Except.error.inj h
      have hds := hx ds rfl
      refine ⟨by simp [hds.some], ?_⟩
      intro e he
      rcases List.mem_append.mp he with he | he
      · exact hds.proper e he
      · exact (hy fs rfl).proper e he

theorem reports_map {x : Except Errors α} {f : α → β} (hx : Reports x) : Reports (x.map f) := by
  intro es h
  cases x with
  | ok a => cases h
  | error ds =>
    obtain rfl := Except.error.inj h
    exact hx _ rfl

theorem reports_bind {x : Except Errors α} {f : α → Except Errors β} (hx : Reports x)
    (hf : ∀ a, Reports (f a)) : Reports (x.bind f) := by
  intro es h
  cases x with
  | ok a => exact hf a es h
  | error ds =>
    obtain rfl := Except.error.inj h
    exact hx _ rfl

end Reports

section Fields

/-- The texts of the service's own `ValueError`s. -/
theorem clean_text {value : Text} {name message : String} {n : ℕ}
    (h : clean value name n = .error message) : message ≠ "" := by
  unfold clean at h
  dsimp only at h
  split at h
  · obtain rfl := Except.error.inj h
    exact append_ne_empty (by decide)
  · split at h
    · obtain rfl := Except.error.inj h
      exact append_ne_empty (by decide)
    · cases h

theorem cleanEmail_text {value : Text} {name message : String} {n : ℕ}
    (h : cleanEmail value name n = .error message) : message ≠ "" := by
  unfold cleanEmail at h
  cases hc : clean value name n with
  | error e =>
    rw [hc] at h
    obtain rfl := Except.error.inj h
    exact clean_text hc
  | ok t =>
    rw [hc] at h
    simp only [bind, Except.bind] at h
    split at h
    · cases h
    · obtain rfl := Except.error.inj h
      exact append_ne_empty (by decide)

theorem checkString_text {f : Field} {value : Text} {message : String}
    (h : checkString f value = .error message) : message ≠ "" := by
  cases f with
  | email => exact cleanEmail_text h
  | title => exact clean_text h
  | content => exact clean_text h
  | name => exact clean_text h

/-- A validator of a type says why it failed, and leaves `value_error` to validators of the
service. -/
def TypeFailure.Proper (failure : TypeFailure) : Prop :=
  failure.msg ≠ "" ∧ failure.kind ≠ "value_error"

/-- What the service relies on in its frameworks. -/
structure Documented (frameworks : Frameworks) : Prop where
  json : frameworks.isJson (some (ascii "application/json")) = true
  str : ∀ value failure, frameworks.str value = .error failure → TypeFailure.Proper failure
  uuid : ∀ value failure, frameworks.uuid value = .error failure → TypeFailure.Proper failure
  int : ∀ value failure, frameworks.int value = .error failure → TypeFailure.Proper failure

variable [frameworks : Frameworks]

omit frameworks in
theorem missing_proper (loc : List LocPart) : Proper (missing loc) :=
  ⟨by simp [missing], by simp [missing]⟩

omit frameworks in
theorem mistyped_proper (loc : List LocPart) (value : PyJson) {failure : TypeFailure}
    (h : TypeFailure.Proper failure) : Proper (mistyped loc value failure) :=
  ⟨h.1, fun hkind => absurd hkind h.2⟩

omit frameworks in
theorem valueError_proper (loc : List LocPart) {message : String} (h : message ≠ "") :
    Proper (valueError loc message) :=
  ⟨append_ne_empty h, fun _ => by rw [valueError, removePrefix_append]; exact h⟩

theorem reports_checkedString (hdoc : Documented frameworks) (f : Field) (value : PyJson) :
    Reports (checkedString f value) := by
  unfold checkedString
  split
  · rename_i failure hstr
    exact reports_single (mistyped_proper _ value (hdoc.str value failure hstr))
  · split
    · rename_i message hcheck
      exact reports_single (valueError_proper _ (checkString_text hcheck))
    · exact reports_ok _

theorem reports_requiredString (hdoc : Documented frameworks) (f : Field) (members : Members) :
    Reports (requiredString f members) := by
  unfold requiredString
  split
  · exact reports_single (missing_proper _)
  · exact reports_checkedString hdoc f _

theorem reports_optionalString (hdoc : Documented frameworks) (f : Field) (members : Members) :
    Reports (optionalString f members) := by
  unfold optionalString
  split
  · exact reports_ok _
  · exact reports_ok _
  · rename_i value _ _
    have := reports_checkedString hdoc f value
    split
    · rename_i hvalue
      intro es hes
      obtain rfl := Except.error.inj hes
      exact this _ hvalue
    · exact reports_ok _

theorem reports_checkedUuid (hdoc : Documented frameworks) (loc : List LocPart) (value : PyJson) :
    Reports (checkedUuid loc value) := by
  unfold checkedUuid
  split
  · rename_i failure huuid
    exact reports_single (mistyped_proper loc value (hdoc.uuid value failure huuid))
  · exact reports_ok _

theorem reports_requiredUuid (hdoc : Documented frameworks) (fieldAlias name : String)
    (members : Members) : Reports (requiredUuid fieldAlias name members) := by
  unfold requiredUuid
  split
  · exact reports_single (missing_proper _)
  · exact reports_checkedUuid hdoc _ _

theorem reports_version (hdoc : Documented frameworks) (members : Members) :
    Reports (version members) := by
  unfold version
  split
  · exact reports_single (missing_proper _)
  · rename_i value _
    split
    · rename_i failure hint
      exact reports_single (mistyped_proper _ value (hdoc.int value failure hint))
    · split
      · exact reports_single ⟨by decide, fun h => absurd h (by decide)⟩
      · split
        · exact reports_ok _
        · exact reports_single ⟨append_left_ne_empty (by decide), fun h => absurd h (by decide)⟩

omit frameworks in
theorem reports_objectMembers (body : Body) : Reports (objectMembers body) := by
  unfold objectMembers
  split
  · exact reports_single (missing_proper _)
  · exact reports_single (missing_proper _)
  · exact reports_ok _
  · exact reports_single ⟨by decide, fun h => absurd h (by decide)⟩

/-- Whatever is wrong with the arguments of an endpoint is reported. -/
theorem reports_solve (hdoc : Documented frameworks) (route : Route) (body : Body) :
    Reports (solve route body) := by
  have hbody := reports_objectMembers body
  cases route with
  | createMessage =>
    apply reports_map
    apply reports_bind hbody
    intro members
    exact reports_map (reports_both (reports_requiredString hdoc _ _) (reports_both
      (reports_requiredString hdoc _ _) (reports_requiredUuid hdoc _ _ _)))
  | createAuthor =>
    apply reports_map
    apply reports_bind hbody
    intro members
    exact reports_map (reports_both (reports_requiredString hdoc _ _)
      (reports_requiredString hdoc _ _))
  | updateMessage id =>
    apply reports_map
    apply reports_both (reports_checkedUuid hdoc _ _)
    apply reports_bind hbody
    intro members
    exact reports_map (reports_both (reports_optionalString hdoc _ _) (reports_both
      (reports_requiredString hdoc _ _) (reports_version hdoc _)))
  | updateAuthor id =>
    apply reports_map
    apply reports_both (reports_checkedUuid hdoc _ _)
    apply reports_bind hbody
    intro members
    exact reports_map (reports_both (reports_optionalString hdoc _ _)
      (reports_optionalString hdoc _ _))

end Fields

section Answers

variable [frameworks : Frameworks] {service : Payload → Except Exc Response} {clock : Client → ℚ}
  {maxBytes patience : ℕ} {others : App} {scope : Scope} {route : Route}
  {messages : List Received} {body : Bytes}

/-- The answer to a bad body; no endpoint was called. -/
def ReportedBad (c : Client) : Prop :=
  ∃ p : Problem, c.sent = Response.messages ⟨400, some problemJson, none, .problem p⟩ ∧
    p.status = 400 ∧ p.code = "BAD_USER_INPUT" ∧ p.type = "/problems/bad-user-input" ∧
    p.invalidParams ≠ [] ∧ (∀ q ∈ p.invalidParams, q.name ≠ "" ∧ q.reason ≠ "") ∧ c.called = []

/-- The body is no JSON text that the model of the route accepts. -/
def Invalid (route : Route) (body : Bytes) : Prop :=
  ∀ value, jsonLoads Frameworks.nesting body = .ok value →
    ∀ payload, solve route (.json value) ≠ .ok payload

/-- `json.loads` raises nothing but a `JSONDecodeError`: the bytes are text in the encoding that
is detected, and up to its end or its first syntax error the text has no integer of more than 4300
digits and is not nested deeper than the parser may recurse. -/
def Readable (body : Bytes) : Prop :=
  ∃ cs, decodeText (body.map UInt8.toNat) = some cs ∧
    decode Frameworks.nesting cs ≠ .error .valueError ∧
    decode Frameworks.nesting cs ≠ .error .recursionError

omit frameworks in
theorem reported_params {errors : Errors} (h : Reported errors) :
    errors.map invalidParam ≠ [] ∧
      ∀ q ∈ errors.map invalidParam, q.name ≠ "" ∧ q.reason ≠ "" := by
  constructor
  · simpa using h.some
  · intro q hq
    obtain ⟨e, he, rfl⟩ := List.mem_map.mp hq
    have hproper := h.proper e he
    exact ⟨paramName_ne_empty _, reason_ne_empty hproper.msg hproper.value⟩

omit frameworks in
theorem jsonInvalid_proper (pos : ℕ) : Proper (jsonInvalid pos) :=
  ⟨by simp [jsonInvalid], by simp [jsonInvalid]⟩

/-- A route whose body ends in this exception, read whole. -/
theorem serve_body {exc : Exc} {r : Response × Scope} (hhttp : scope.type = "http")
    (hroute : matchRoute scope = some route)
    (hstreamed : bodyLimit maxBytes (limited patience others) scope =
      streamed maxBytes (limited patience others) scope)
    (hsplits : Splits messages body) (hwithin : body.length ≤ maxBytes)
    (hpatience : messages.length ≤ patience)
    (hpayload : payloadOf route { scope with route := some route.template } body = .error exc)
    (hexc : handleError { scope with route := some route.template } exc = some r) :
    serve service clock (createApp maxBytes patience others) scope messages =
      ⟨[], r.1.messages, []⟩ := by
  have hread : run (layers maxBytes service clock) (false, 0, ⟨500, false⟩, ⟨messages, [], []⟩)
      (readBody patience []) =
        (.ok ([] ++ body), false, 0 + body.length, ⟨500, false⟩, ⟨[], [], []⟩) :=
    read_within hsplits (by omega) hpatience
  have hrun : run (layers maxBytes service clock) (false, 0, ⟨500, false⟩, ⟨messages, [], []⟩)
      (handleRoute patience route { scope with route := some route.template }) =
        ((.error exc, { scope with route := some route.template }), false, 0 + body.length,
          ⟨500, false⟩, ⟨[], [], []⟩) := by
    unfold handleRoute
    rw [run_bind, hread]
    simp only [List.nil_append, hpayload]
    rfl
  exact serve_raised hhttp hroute hstreamed hrun hexc

omit frameworks in
theorem both_error {α : Type} (β : Type) (x : Except Errors α) (es : Errors) :
    ∃ fs, both x (.error es : Except Errors β) = .error fs := by
  cases x with
  | ok a => exact ⟨es, rfl⟩
  | error ds => exact ⟨ds ++ es, rfl⟩

/-- Every route needs a body. -/
theorem solve_none (route : Route) : ∃ es, solve route .none = .error es := by
  cases route with
  | createMessage => exact ⟨_, rfl⟩
  | createAuthor => exact ⟨_, rfl⟩
  | updateMessage id =>
    obtain ⟨fs, hfs⟩ := both_error MessageUpdate (pathUuid id) [missing [.field "body"]]
    exact ⟨fs, congrArg (Except.map _) hfs⟩
  | updateAuthor id =>
    obtain ⟨fs, hfs⟩ := both_error AuthorUpdate (pathUuid id) [missing [.field "body"]]
    exact ⟨fs, congrArg (Except.map _) hfs⟩

theorem readable_empty : Readable [] := by
  have hdecode : decode Frameworks.nesting [] = .error (.decodeError 0) := rfl
  exact ⟨[], rfl, by simp [hdecode], by simp [hdecode]⟩

/-- How the loading of a body that is not empty ends. -/
theorem payload_loaded {b : Bytes} (hne : b ≠ [])
    (hjson : Frameworks.isJson (firstHeader scope "content-type") = true) :
    payloadOf route scope b = match jsonLoads Frameworks.nesting b with
      | .ok value => (solve route (.json value)).mapError .requestValidationError
      | .error (.jsonDecodeError pos) => .error (.requestValidationError [jsonInvalid pos])
      | .error _ => .error (.httpException 400 "There was an error parsing the body") := by
  unfold payloadOf parseBody
  rw [if_neg hne, if_pos hjson]
  cases jsonLoads Frameworks.nesting b with
  | ok value => rfl
  | error e => cases e <;> rfl

theorem payload_undecoded {b : Bytes} (hne : b ≠ [])
    (hjson : Frameworks.isJson (firstHeader scope "content-type") = true)
    (htext : decodeText (b.map UInt8.toNat) = none) :
    payloadOf route scope b =
      .error (.httpException 400 "There was an error parsing the body") := by
  have hloads : jsonLoads Frameworks.nesting b = .error .unicodeDecodeError := by
    unfold jsonLoads
    rw [htext]
  rw [payload_loaded hne hjson, hloads]

/-- What the route handler makes of a bad body: the report of its errors, exactly when it is
readable. -/
theorem payload_invalid (hdoc : Documented frameworks)
    (hjson : firstHeader scope "content-type" = some (ascii "application/json"))
    (hinvalid : Invalid route body) :
    (Readable body ∧ ∃ errors, payloadOf route scope body =
        .error (.requestValidationError errors) ∧ Reported errors) ∨
      (¬Readable body ∧ payloadOf route scope body =
        .error (.httpException 400 "There was an error parsing the body")) := by
  by_cases hempty : body = []
  · subst hempty
    obtain ⟨es, hes⟩ := solve_none route
    refine .inl ⟨readable_empty, es, ?_, reports_solve hdoc route .none es hes⟩
    change (solve route .none).mapError _ = _
    rw [hes]
    rfl
  · have hisJson : Frameworks.isJson (firstHeader scope "content-type") = true := by
      rw [hjson]
      exact hdoc.json
    cases htext : decodeText (body.map UInt8.toNat) with
    | none =>
      refine .inr ⟨?_, payload_undecoded hempty hisJson htext⟩
      rintro ⟨cs, hcs, _⟩
      rw [htext] at hcs
      cases hcs
    | some cs =>
      have hloads : jsonLoads Frameworks.nesting body =
          (decode Frameworks.nesting cs).mapError (Fault.raised cs.length) := by
        unfold jsonLoads
        rw [htext]
      rw [payload_loaded hempty hisJson, hloads]
      cases hdecode : decode Frameworks.nesting cs with
      | ok value =>
        rw [hdecode] at hloads
        cases hsolve : solve route (.json value) with
        | ok payload => exact absurd hsolve (hinvalid value hloads payload)
        | error es =>
          refine .inl ⟨⟨cs, htext, by simp [hdecode], by simp [hdecode]⟩, es, ?_,
            reports_solve hdoc route _ es hsolve⟩
          simp [Except.mapError, hsolve]
      | error fault =>
        cases fault with
        | decodeError left =>
          refine .inl ⟨⟨cs, htext, by simp [hdecode], by simp [hdecode]⟩, _, rfl, by simp, ?_⟩
          simpa using jsonInvalid_proper _
        | valueError =>
          refine .inr ⟨?_, rfl⟩
          rintro ⟨ds, hds, hvalue, _⟩
          obtain rfl := Option.some.inj (htext.symm.trans hds)
          exact hvalue hdecode
        | recursionError =>
          refine .inr ⟨?_, rfl⟩
          rintro ⟨ds, hds, _, hrecursion⟩
          obtain rfl := Option.some.inj (htext.symm.trans hds)
          exact hrecursion hdecode

omit frameworks in
/-- The answer to a body that cannot be parsed has a code of its own. -/
theorem unparsed_unreported {c : Client} {path detail : String}
    (h : c.sent = Response.messages ⟨400, some problemJson, none,
      .problem (problemBody path 400 (httpErrorCode 400) detail [] none)⟩) : ¬ReportedBad c := by
  rintro ⟨p, hsent, _, hcode, _⟩
  have hbody := congrArg (fun ms => ms[1]?) (h.symm.trans hsent)
  simp only [Response.messages, List.getElem?_cons_succ, List.getElem?_cons_zero,
    Option.some.injEq, Sent.body.injEq, Content.problem.injEq, and_true] at hbody
  rw [← hbody] at hcode
  change httpErrorCode 400 = _ at hcode
  exact absurd hcode (by decide)

theorem reported_iff_readable (hdoc : Documented frameworks) (hhttp : scope.type = "http")
    (hroute : matchRoute scope = some route)
    (hjson : firstHeader scope "content-type" = some (ascii "application/json"))
    (hlength : isDigits (declared scope) = true →
      ∃ n ≤ maxBytes, pythonInt (declared scope) = .ok n)
    (hsplits : Splits messages body) (hwithin : body.length ≤ maxBytes)
    (hpatience : messages.length ≤ patience) (hinvalid : Invalid route body) :
    ReportedBad (serve service clock (createApp maxBytes patience others) scope messages) ↔
      Readable body := by
  have hdeclared : ¬DeclaredTooLarge maxBytes scope := by
    rintro ⟨hdigits, m, hm, hmax⟩
    obtain ⟨n, hn, hint⟩ := hlength hdigits
    obtain rfl := Except.ok.inj (hm.symm.trans hint)
    omega
  have hdigitsShort : isDigits (declared scope) = true → (declared scope).length ≤ 4300 := by
    intro hdigits
    obtain ⟨n, _, hint⟩ := hlength hdigits
    by_contra hlong
    rw [show pythonInt (declared scope) = .error .valueError from if_pos (by omega)] at hint
    cases hint
  have hstreamed : bodyLimit maxBytes (limited patience others) scope =
      streamed maxBytes (limited patience others) scope :=
    bodyLimit_streamed hhttp hdigitsShort hdeclared
  have hcontent : firstHeader { scope with route := some route.template } "content-type" =
      some (ascii "application/json") := hjson
  rcases payload_invalid hdoc hcontent hinvalid with
    ⟨hreadable, errors, hpayload, hreported⟩ | ⟨hunreadable, hpayload⟩
  · refine ⟨fun _ => hreadable, fun _ => ?_⟩
    rw [serve_body hhttp hroute hstreamed hsplits hwithin hpatience hpayload rfl]
    obtain ⟨hsome, hnamed⟩ := reported_params hreported
    exact ⟨_, rfl, rfl, rfl, rfl, hsome, hnamed, rfl⟩
  · refine ⟨fun h => absurd h ?_, fun h => absurd h hunreadable⟩
    rw [serve_body hhttp hroute hstreamed hsplits hwithin hpatience hpayload rfl]
    exact unparsed_unreported rfl

end Answers

section Latin

theorem strict_documented : Documented strict where
  json := by decide
  str value failure h := by
    cases value with
    | str s => cases h
    | _ =>
      obtain rfl := Except.error.inj h
      exact ⟨by decide, by decide⟩
  uuid value failure h := by
    cases value with
    | str s =>
      change strictUuid (.str s) = _ at h
      unfold strictUuid at h
      dsimp only at h
      split at h
      · cases h
      · obtain rfl := Except.error.inj h
        exact ⟨by decide, by decide⟩
    | _ =>
      obtain rfl := Except.error.inj h
      exact ⟨by decide, by decide⟩
  int value failure h := by
    cases value with
    | int n => cases h
    | _ =>
      obtain rfl := Except.error.inj h
      exact ⟨by decide, by decide⟩

def postAuthor : Scope :=
  ⟨"http", "POST", "/authors", [(ascii "content-type", ascii "application/json")], none, none⟩

/-- An author whose name is not encoded in UTF-8 but in Latin-1. -/
def latin : Bytes := ascii "\x7b\"name\":\"Ren" ++ 0xe9 :: ascii "\",\"email\":\"rene@x.org\"\x7d"

/-- An author without an e-mail. -/
def nameless : Bytes := ascii "\x7b\"name\":\"Ada\"\x7d"

def whole (b : Bytes) : List Received := [⟨"http.request", some b, false⟩]

theorem latin_unparsed : decodeText (latin.map UInt8.toNat) = none := by decide +kernel

theorem latin_invalid : @Invalid strict .createAuthor latin := by
  intro value hvalue
  unfold jsonLoads at hvalue
  rw [latin_unparsed] at hvalue
  cases hvalue

theorem latin_body_unreported : @Invalid strict .createAuthor latin ∧
    Splits (whole latin) latin ∧ latin.length ≤ 16384 ∧
    ¬ReportedBad (serve created (fun _ => 0) (@createApp strict 16384 1 absent) postAuthor
      (whole latin)) := by
  refine ⟨latin_invalid, .last _, by decide, ?_⟩
  let _ := strict
  have hpayload : payloadOf .createAuthor { postAuthor with route := some "/authors" } latin =
      .error (.httpException 400 "There was an error parsing the body") :=
    payload_undecoded (by decide) (by decide) latin_unparsed
  have hroute : matchRoute postAuthor = some .createAuthor := by decide
  have hsplits : Splits (whole latin) latin := .last latin
  rw [serve_body rfl hroute rfl hsplits (by decide) (by decide) hpayload rfl]
  exact unparsed_unreported rfl

/-- An object without an e-mail was loaded. -/
def withoutEmail : Except LoadsError PyJson → Bool
  | .ok (.dict members) => (member members "email" "email").isNone
  | _ => false

theorem nameless_loaded : withoutEmail (jsonLoads strict.nesting nameless) = true := by
  decide +kernel

theorem nameless_invalid : @Invalid strict .createAuthor nameless := by
  let _ := strict
  intro value hvalue payload hpayload
  have hloaded := nameless_loaded
  rw [hvalue] at hloaded
  cases value with
  | dict members =>
    have hnone := Option.isNone_iff_eq_none.mp hloaded
    have hemail : requiredString .email members = .error [missing (bodyLoc "email")] := by
      unfold requiredString
      rw [show member members Field.email.fieldName Field.email.fieldName = none from hnone]
      rfl
    obtain ⟨es, hes⟩ := both_error {s : Text // Checked .email s} (requiredString .name members)
      [missing (bodyLoc "email")]
    have hsolve : solve .createAuthor (.json (.dict members)) = .error es := by
      change ((both (requiredString .name members) (requiredString .email members)).map _).map _ = _
      rw [hemail, hes]
      rfl
    rw [hsolve] at hpayload
    cases hpayload
  | _ => cases hloaded

theorem reported_iff_readable_nameless :
    ReportedBad (serve created (fun _ => 0) (@createApp strict 16384 1 absent) postAuthor
      (whole nameless)) ↔ @Readable strict nameless := by
  let _ := strict
  exact reported_iff_readable strict_documented rfl rfl rfl (by decide) (.last _) (by decide)
    (by decide) nameless_invalid

end Latin

end BadBodies
