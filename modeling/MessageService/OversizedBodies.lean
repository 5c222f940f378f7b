import MessageService.Layers

/-! A body above the limit. Declared, it is refused by the body limit itself; streamed, the
exception of the body limit comes up inside the reading of the body, and FastAPI takes it for a
body that cannot be parsed. -/
namespace OversizedBodies

open Programs Wrappers Models Schemas Problems Asgi BodyLimit RequestMetrics Requests Layers

section Answers

variable [Frameworks] {service : Payload → Except Exc Response} {clock : Client → ℚ}
  {maxBytes patience : ℕ} {others : App} {scope : Scope} {route : Route}
  {messages : List Received} {body : Bytes}

/-- The answer to a body that is too large; no endpoint was called. -/
def RefusedTooLarge (c : Client) : Prop :=
  ∃ p : Problem, c.sent = Response.messages ⟨413, some problemJson, none, .problem p⟩ ∧
    p.status = 413 ∧ p.code = "BAD_USER_INPUT" ∧ p.type = "/problems/payload-too-large" ∧
    c.called = []

theorem declared_refused (hhttp : scope.type = "http") (hroute : matchRoute scope = some route)
    (h : DeclaredTooLarge maxBytes scope) :
    RefusedTooLarge (serve service clock (createApp maxBytes patience others) scope messages) := by
  have happ : run (watch.through (meteredServer service clock))
      (⟨500, false⟩, ⟨messages, [], []⟩) (bodyLimit maxBytes (limited patience others) scope) =
      run (watch.through (meteredServer service clock)) (⟨500, false⟩, ⟨messages, [], []⟩)
        (refuse maxBytes scope) := by
    rw [bodyLimit_refuses hhttp h]
  unfold refuse at happ
  rw [run_answer] at happ
  have hserve := serve_metered (route_metered hhttp hroute) happ
  refine ⟨_, congrArg Client.sent hserve, rfl, rfl, rfl, congrArg Client.called hserve⟩

/-- A streamed body that crosses the limit is answered as one that cannot be parsed. -/
theorem streamed_unparsed (hhttp : scope.type = "http") (hroute : matchRoute scope = some route)
    (hstreamed : bodyLimit maxBytes (limited patience others) scope =
      streamed maxBytes (limited patience others) scope)
    (hsplits : Splits messages body) (hoversized : maxBytes < body.length)
    (hpatience : messages.length ≤ patience) :
    ∃ incoming, serve service clock (createApp maxBytes patience others) scope messages =
      ⟨incoming, Response.messages ⟨400, some problemJson, none, .problem (problemBody scope.path
        400 "HTTP_400" "There was an error parsing the body" [] none)⟩, []⟩ := by
  obtain ⟨n, incoming, hread⟩ : ∃ n incoming,
      run (layers maxBytes service clock) (false, 0, ⟨500, false⟩, ⟨messages, [], []⟩)
        (readBody patience []) = (.error (.apiError (tooLarge maxBytes)), false, n, ⟨500, false⟩,
          ⟨incoming, [], []⟩) :=
    read_exceeded hsplits (by omega) hpatience
  refine ⟨incoming, ?_⟩
  have hrun : run (layers maxBytes service clock) (false, 0, ⟨500, false⟩, ⟨messages, [], []⟩)
      (handleRoute patience route { scope with route := some route.template }) =
        ((.error (.httpException 400 "There was an error parsing the body"),
          { scope with route := some route.template }), false, n, ⟨500, false⟩,
          ⟨incoming, [], []⟩) := by
    unfold handleRoute
    rw [run_bind, hread]
    rfl
  exact serve_raised hhttp hroute hstreamed hrun rfl

/-- A length with more digits than `int` takes is an exception for the metrics to answer. -/
theorem undigestible_failed (hhttp : scope.type = "http") (hroute : matchRoute scope = some route)
    (hdigits : isDigits (declared scope) = true) (hlong : 4300 < (declared scope).length) :
    (serve service clock (createApp maxBytes patience others) scope messages).sent =
      (fallback scope).messages := by
  have hint : pythonInt (declared scope) = .error .valueError := if_pos hlong
  have happ : run (watch.through (meteredServer service clock))
      (⟨500, false⟩, ⟨messages, [], []⟩) (bodyLimit maxBytes (limited patience others) scope) =
      ((.error .valueError, scope), ⟨500, false⟩, ⟨messages, [], []⟩) := by
    unfold bodyLimit
    rw [if_neg (not_not.mpr hhttp), if_pos hdigits, hint]
    rfl
  have hserve := serve_metered (route_metered hhttp hroute) happ
  rw [run_rescue _ (by simp)] at hserve
  exact congrArg Client.sent hserve

/-- Exactly the declared ones of the bodies above the limit are answered as too large. -/
theorem refused_iff_declared (hhttp : scope.type = "http")
    (hroute : matchRoute scope = some route) (hsplits : Splits messages body)
    (hoversized : maxBytes < body.length) (hpatience : messages.length ≤ patience) :
    RefusedTooLarge (serve service clock (createApp maxBytes patience others) scope messages) ↔
      DeclaredTooLarge maxBytes scope := by
  constructor
  · rintro ⟨p, hsent, _⟩
    by_contra hdeclared
    by_cases hlong : isDigits (declared scope) = true ∧ 4300 < (declared scope).length
    · rw [undigestible_failed hhttp hroute hlong.1 hlong.2] at hsent
      cases hsent
    · have hstreamed : bodyLimit maxBytes (limited patience others) scope =
          streamed maxBytes (limited patience others) scope :=
        bodyLimit_streamed hhttp
          (fun hdigits => by by_contra hlen; exact hlong ⟨hdigits, by omega⟩) hdeclared
      obtain ⟨incoming, hserve⟩ := @streamed_unparsed _ service clock _ _ _ _ _ _ _ hhttp
        hroute hstreamed hsplits hoversized hpatience
      rw [hserve] at hsent
      cases hsent
  · exact declared_refused hhttp hroute

end Answers

section Chunked

/-- A body of two chunks without a Content-Length, for a limit of three bytes. -/
def chunked : Scope :=
  ⟨"http", "POST", "/messages", [(ascii "content-type", ascii "application/json")], none, none⟩

def chunks : List Received :=
  [⟨"http.request", some (ascii "[1"), true⟩, ⟨"http.request", some (ascii ",2]"), false⟩]

theorem chunks_split : Splits chunks (ascii "[1,2]") := .more _ (.last _)

theorem chunked_unparsed : ∃ incoming,
    serve created (fun _ => 0) (@createApp strict 3 2 absent) chunked chunks =
      ⟨incoming, Response.messages ⟨400, some problemJson, none, .problem (problemBody "/messages"
        400 "HTTP_400" "There was an error parsing the body" [] none)⟩, []⟩ := by
  let _ := strict
  exact streamed_unparsed rfl rfl rfl chunks_split (by decide) (by decide)

/-- The answer says nothing of the size of the body. -/
theorem chunked_body_unparsed : Splits chunks (ascii "[1,2]") ∧ 3 < (ascii "[1,2]").length ∧
    ¬RefusedTooLarge
      (serve created (fun _ => 0) (@createApp strict 3 2 absent) chunked chunks) := by
  refine ⟨chunks_split, by decide, ?_⟩
  rintro ⟨p, hsent, _⟩
  obtain ⟨incoming, hserve⟩ := chunked_unparsed
  rw [hserve] at hsent
  cases hsent

/-- The same chunks with their length declared. -/
def counted : Scope := { chunked with headers := [(ascii "content-length", ascii "5")] }

theorem refused_iff_declared_counted :
    RefusedTooLarge (serve created (fun _ => 0) (@createApp strict 3 2 absent) counted chunks) ↔
      DeclaredTooLarge 3 counted := by
  let _ := strict
  exact refused_iff_declared rfl rfl chunks_split (by decide) (by decide)

end Chunked

end OversizedBodies
