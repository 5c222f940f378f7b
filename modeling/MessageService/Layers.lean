import MessageService.Requests

/-! A request to a route with a body on its way through the layers of the application. -/
namespace Layers

open Programs Wrappers Models Schemas Problems Asgi BodyLimit RequestMetrics Requests

section Middlewares

variable {service : Payload → Except Exc Response} {clock : Client → ℚ}

/-- Recording a request leaves its client alone. -/
theorem run_record (c : Client) (start : ℚ) (s : Watch) (r : Outcome × Scope) :
    run (meteredServer service clock) c (record start s r) = (r, c) := by
  unfold record
  simp only [run, meteredServer]
  split <;> rfl

/-- A request that is metered: the application runs behind `send_wrapper`, then the `except`
clause. -/
theorem serve_metered {app : App} {scope scope' : Scope} {messages : List Received} {o : Outcome}
    {s : Watch} {c : Client} (hmetered : excluded scope = false)
    (happ : run (watch.through (meteredServer service clock))
      (⟨500, false⟩, ⟨messages, [], []⟩) (app scope) = ((o, scope'), s, c)) :
    serve service clock (requestMetrics app) scope messages =
      (run (meteredServer service clock) c (rescue s (o, scope'))).2 := by
  unfold serve requestMetrics
  rw [hmetered, if_neg (by simp)]
  simp only [run, meteredServer, run_bind, run_wrap, happ, run_record]

/-- The exception middleware around an application that raised before it started a response. -/
theorem run_exceptionMiddleware {σ : Type} {h : Handler σ Effect Reply} {s s' : σ} {app : App}
    {scope scope' : Scope} {exc : Exc} {r : Response × Scope}
    (happ : run (sender.through h) (false, s) (app scope) = ((.error exc, scope'), false, s'))
    (hexc : handleError scope' exc = some r) :
    run h s (exceptionMiddleware app scope) = run h s' (answer r) := by
  unfold exceptionMiddleware
  simp only [run_bind, run_wrap, happ, hexc]
  rfl

theorem segment_before {before path id : String} (h : Requests.segment before path = some id) :
    before.toList <+: path.toList := by
  unfold Requests.segment at h
  dsimp only at h
  split at h
  · rename_i hsegment
    exact List.isPrefixOf_iff_prefix.mp hsegment.1
  · cases h

theorem path_below {path pattern : String} (h : MatchesPath path pattern) :
    pattern.toList <+: path.toList := by
  rcases h with rfl | rfl
  · exact List.prefix_rfl
  · rw [String.toList_append]
    exact List.prefix_append ..

/-- Every path of these routes is below one of the two collections. -/
theorem route_path {scope : Scope} {route : Route} (h : matchRoute scope = some route) :
    "/messages".toList <+: scope.path.toList ∨ "/authors".toList <+: scope.path.toList := by
  unfold matchRoute at h
  split at h
  · split at h
    · rename_i hpath
      exact .inl (path_below hpath)
    · split at h
      · rename_i hpath
        exact .inr (path_below hpath)
      · cases h
  · split at h
    · rcases Option.or_eq_some_iff.mp h with hmessage | ⟨_, hauthor⟩
      · obtain ⟨id, hid, _⟩ := Option.map_eq_some_iff.mp hmessage
        exact .inl ((List.prefix_append _ ['/']).trans (segment_before hid))
      · obtain ⟨id, hid, _⟩ := Option.map_eq_some_iff.mp hauthor
        exact .inr ((List.prefix_append _ ['/']).trans (segment_before hid))
    · cases h

/-- The routes with a request body are metered. -/
theorem route_metered {scope : Scope} {route : Route} (hhttp : scope.type = "http")
    (hroute : matchRoute scope = some route) : excluded scope = false := by
  unfold excluded
  rw [hhttp]
  rcases route_path hroute with ⟨rest, hrest⟩ | ⟨rest, hrest⟩
  · rw [← hrest]
    rfl
  · rw [← hrest]
    rfl

end Middlewares

section Reading

variable {service : Payload → Except Exc Response} {clock : Client → ℚ} {maxBytes : ℕ}

/-- The server as a route handler sees it, behind every layer. -/
def layers (maxBytes : ℕ) (service : Payload → Except Exc Response) (clock : Client → ℚ) :
    Handler (Bool × ℕ × Watch × Client) Effect Reply :=
  sender.through ((limiter maxBytes).through (watch.through (meteredServer service clock)))

theorem layers_receive (started : Bool) (n : ℕ) (w : Watch) (sent : List Sent)
    (called : List Payload) (b : Option Bytes) (moreBody : Bool) (incoming : List Received) :
    layers maxBytes service clock
      (started, n, w, ⟨⟨"http.request", b, moreBody⟩ :: incoming, sent, called⟩) .receive =
      (if n + (b.getD []).length > maxBytes then .error (.apiError (tooLarge maxBytes))
        else .ok ⟨"http.request", b, moreBody⟩,
        started, n + (b.getD []).length, w, ⟨incoming, sent, called⟩) := by
  rfl

/-- A body within the limit is read whole. -/
theorem read_within {messages : List Received} {body acc : Bytes} {n patience : ℕ}
    {started : Bool} {w : Watch} {sent : List Sent} {called : List Payload}
    (hsplits : Splits messages body) (hwithin : n + body.length ≤ maxBytes)
    (hpatience : messages.length ≤ patience) :
    run (layers maxBytes service clock) (started, n, w, ⟨messages, sent, called⟩)
      (readBody patience acc) =
      (.ok (acc ++ body), started, n + body.length, w, ⟨[], sent, called⟩) := by
  induction hsplits generalizing acc n patience with
  | last b =>
    obtain ⟨patience, rfl⟩ : ∃ k, patience = k + 1 := ⟨patience - 1, by simp at hpatience; omega⟩
    simp only [readBody, run, layers_receive]
    rw [if_neg (by omega)]
    rfl
  | more b hsplits ih =>
    rename_i messages body
    simp only [List.length_append, List.length_cons] at hwithin hpatience
    obtain ⟨patience, rfl⟩ : ∃ k, patience = k + 1 := ⟨patience - 1, by omega⟩
    simp only [readBody, run, layers_receive]
    rw [if_neg (by omega)]
    have hrest : run (layers maxBytes service clock)
        (started, n + (b.getD []).length, w, ⟨messages, sent, called⟩)
        (readBody patience (acc ++ b.getD [])) = (.ok (acc ++ b.getD [] ++ body), started,
          n + (b.getD []).length + body.length, w, ⟨[], sent, called⟩) :=
      ih (by omega) (by omega)
    rw [List.append_assoc, Nat.add_assoc] at hrest
    rw [List.length_append]
    exact hrest

/-- The part of a body that crosses the limit ends the reading. -/
theorem read_exceeded {messages : List Received} {body acc : Bytes} {n patience : ℕ}
    {started : Bool} {w : Watch} {sent : List Sent} {called : List Payload}
    (hsplits : Splits messages body) (hexceeded : maxBytes < n + body.length)
    (hpatience : messages.length ≤ patience) :
    ∃ n' incoming, run (layers maxBytes service clock)
      (started, n, w, ⟨messages, sent, called⟩) (readBody patience acc) =
      (.error (.apiError (tooLarge maxBytes)), started, n', w, ⟨incoming, sent, called⟩) := by
  induction hsplits generalizing acc n patience with
  | last b =>
    obtain ⟨patience, rfl⟩ : ∃ k, patience = k + 1 := ⟨patience - 1, by simp at hpatience; omega⟩
    simp only [readBody, run, layers_receive]
    rw [if_pos (by omega)]
    exact ⟨_, _, rfl⟩
  | more b hsplits ih =>
    rename_i messages body
    simp only [List.length_append, List.length_cons] at hexceeded hpatience
    obtain ⟨patience, rfl⟩ : ∃ k, patience = k + 1 := ⟨patience - 1, by omega⟩
    simp only [readBody, run, layers_receive]
    by_cases hnow : n + (b.getD []).length > maxBytes
    · rw [if_pos hnow]
      exact ⟨_, _, rfl⟩
    · rw [if_neg hnow]
      exact ih (by omega) (by omega)

end Reading

section Responses

variable [Frameworks] {service : Payload → Except Exc Response} {clock : Client → ℚ}
  {maxBytes patience : ℕ} {others : App} {scope scope' : Scope} {route : Route}

omit [Frameworks] in
/-- A response sent by a layer around the exception middleware. -/
theorem run_answer (c : Client) (w : Watch) (r : Response × Scope) :
    run (watch.through (meteredServer service clock)) (w, c) (answer r) =
      ((.ok (), r.2), ⟨r.1.status, true⟩, { c with sent := c.sent ++ r.1.messages }) := by
  simp [answer, respond, run, Program.bind, Wrapper.through, watch, meteredServer, server,
    Response.messages]

omit [Frameworks] in
/-- The answer in place of an application that raised before it had started one. -/
theorem run_rescue (c : Client) {exc : Exc} (hexc : ∀ name, exc ≠ .interrupt name) :
    (run (meteredServer service clock) c (rescue ⟨500, false⟩ (.error exc, scope))).2 =
      { c with sent := c.sent ++ (fallback scope).messages } := by
  have hrescue : rescue ⟨500, false⟩ (.error exc, scope) = watch.wrap ⟨500, false⟩
      (answer (problemResponse scope 500 "INTERNAL_SERVER_ERROR" unexpected [] none)) := by
    cases exc with
    | interrupt name => exact absurd rfl (hexc name)
    | _ => rfl
  rw [hrescue, run_wrap, run_answer]
  rfl

/-- The application behind a body limit that does not refuse the request. -/
abbrev limited (patience : ℕ) (others : App) : App := exceptionMiddleware (router patience others)

/-- A route that raises before it answers: the client gets the response of the exception's
handler, and nothing is called. -/
theorem serve_raised {messages incoming : List Received} {exc : Exc} {n : ℕ}
    {r : Response × Scope} (hhttp : scope.type = "http") (hroute : matchRoute scope = some route)
    (hstreamed : bodyLimit maxBytes (limited patience others) scope =
      streamed maxBytes (limited patience others) scope)
    (hrun : run (layers maxBytes service clock) (false, 0, ⟨500, false⟩, ⟨messages, [], []⟩)
      (handleRoute patience route { scope with route := some route.template }) =
        ((.error exc, scope'), false, n, ⟨500, false⟩, ⟨incoming, [], []⟩))
    (hexc : handleError scope' exc = some r) :
    serve service clock (createApp maxBytes patience others) scope messages =
      ⟨incoming, r.1.messages, []⟩ := by
  have hrouter : router patience others scope =
      handleRoute patience route { scope with route := some route.template } := by
    unfold router
    rw [hroute]
  rw [← hrouter] at hrun
  have happ : run (watch.through (meteredServer service clock))
      (⟨500, false⟩, ⟨messages, [], []⟩) (bodyLimit maxBytes (limited patience others) scope) =
      ((.ok (), r.2), ⟨r.1.status, true⟩, ⟨incoming, r.1.messages, []⟩) := by
    rw [hstreamed]
    unfold streamed
    rw [run_bind, run_wrap, run_exceptionMiddleware hrun hexc]
    simp [answer, respond, run, Program.bind, Wrapper.through, limiter, watch, meteredServer,
      server, Response.messages]
  exact congrArg id (serve_metered (route_metered hhttp hroute) happ)

end Responses

section Stubs

/-- A service that creates whatever it is asked to. -/
def created : Payload → Except Exc Response := fun _ =>
  .ok ⟨201, some "application/json", none, .bytes []⟩

/-- Nothing but the routes with a body. -/
def absent : App := fun scope => .done (.error (.httpException 404 "Not Found"), scope)

end Stubs

end Layers
