import Mathlib.Data.Rat.Init
import MessageService.Asgi
import MessageService.Library.Wrappers

/-! `RequestMetricsMiddleware`: the outermost layer of a request, which records it and answers
for an application that raised. Logging is left out. -/
namespace RequestMetrics

open Programs Wrappers Problems Asgi

/-- The attributes of every data point. -/
structure Attrs where
  method : String
  route : String
  deriving DecidableEq, Repr

inductive Metered where
  | asgi (e : Effect)
  | perfCounter
  | recordDuration (elapsedMs : ℚ) (attrs : Attrs)
  | addRequest (attrs : Attrs) (statusCode : ℕ)
  | addError (attrs : Attrs) (errorCode : String)
  deriving DecidableEq

abbrev MeteredReply : Metered → Type
  | .asgi e => Reply e
  | .perfCounter => ℚ
  | .recordDuration _ _ | .addRequest _ _ | .addError _ _ => Unit

abbrev MeteredApp := Scope → Program Metered MeteredReply (Outcome × Scope)

def excludedPrefix : String := "/health/"
def unmatchedRoute : String := "unmatched"

/-- `status` and `started`, which `send_wrapper` keeps. -/
structure Watch where
  status : ℕ
  started : Bool
  deriving DecidableEq, Repr

/-- `send_wrapper` in place of `send`. -/
def watch : Wrapper Watch Effect Reply Metered MeteredReply where
  effect e := .asgi e
  reply s e r := (r, match e with
    | .send (.start status _ _) => ⟨status, true⟩
    | _ => s)

/-- The application as it is. -/
def plain : Wrapper Unit Effect Reply Metered MeteredReply where
  effect e := .asgi e
  reply s _ r := (r, s)

def unexpected : String := "An unexpected error occurred."

/-- The `except Exception` clause, which answers when the application has not. -/
def rescue (s : Watch) :
    Outcome × Scope → Program Metered MeteredReply ((Outcome × Scope) × Watch)
  | (.ok (), scope) => .done ((.ok (), scope), s)
  | (.error (.interrupt name), scope) => .done ((.error (.interrupt name), scope), s)
  | (.error _, scope) =>
    if s.started then .done ((.ok (), scope), { s with status := 500 })
    else watch.wrap { s with status := 500 }
      (answer (problemResponse scope 500 "INTERNAL_SERVER_ERROR" unexpected [] none))

/-- The `finally` clause. -/
def record (start : ℚ) (s : Watch) (r : Outcome × Scope) :
    Program Metered MeteredReply (Outcome × Scope) :=
  .await .perfCounter fun now =>
    let attrs : Attrs := ⟨r.2.method, r.2.route.getD unmatchedRoute⟩
    .await (.recordDuration ((now - start) * 1000) attrs) fun _ =>
    .await (.addRequest attrs s.status) fun _ =>
    if s.status ≥ 400 then
      .await (.addError attrs (r.2.errorCode.getD "UNKNOWN")) fun _ => .done r
    else .done r

/-- Scopes that are not metered. -/
def excluded (scope : Scope) : Bool :=
  scope.type ≠ "http" || excludedPrefix.toList.isPrefixOf scope.path.toList

def requestMetrics (app : App) : MeteredApp := fun scope =>
  if excluded scope then (plain.wrap () (app scope)).bind fun r => .done r.1
  else .await .perfCounter fun start =>
    (watch.wrap ⟨500, false⟩ (app scope)).bind fun r =>
    (rescue r.2 r.1).bind fun r => record start r.2 r.1

section Runs

/-- An exchange of a metered application. -/
abbrev MeteredStep := Exchange Metered MeteredReply

def lift (x : Step) : MeteredStep := ⟨.asgi x.1, x.2⟩

def startStatus : Sent → Option ℕ
  | .start status _ _ => some status
  | _ => none

/-- The statuses of the responses that are started. -/
def starts (ms : List Sent) : List ℕ := ms.filterMap startStatus

def clientMessage : MeteredStep → Option Sent
  | ⟨.asgi (.send m), _⟩ => some m
  | _ => none

/-- The messages to the client. -/
def clientMessages (tr : List MeteredStep) : List Sent := tr.filterMap clientMessage

/-- Every `send` to the client succeeds. -/
def ClientTakes (tr : List MeteredStep) : Prop :=
  ∀ m r, (⟨.asgi (.send m), r⟩ : MeteredStep) ∈ tr → r = .ok ()

/-- One data point: a duration, a request with its status code or an error with its code. -/
inductive Point where
  | duration (elapsedMs : ℚ)
  | request (statusCode : ℕ)
  | error (errorCode : String)
  deriving DecidableEq

def point : MeteredStep → Option Point
  | ⟨.recordDuration elapsedMs _, _⟩ => some (.duration elapsedMs)
  | ⟨.addRequest _ statusCode, _⟩ => some (.request statusCode)
  | ⟨.addError _ errorCode, _⟩ => some (.error errorCode)
  | _ => none

/-- What is recorded, in order. -/
def points (tr : List MeteredStep) : List Point := tr.filterMap point

theorem clientMessages_append (tr ts : List MeteredStep) :
    clientMessages (tr ++ ts) = clientMessages tr ++ clientMessages ts :=
  List.filterMap_append

theorem points_append (tr ts : List MeteredStep) : points (tr ++ ts) = points tr ++ points ts :=
  List.filterMap_append

theorem starts_append (ms ns : List Sent) : starts (ms ++ ns) = starts ms ++ starts ns :=
  List.filterMap_append

theorem clientMessages_lift (tr : List Step) : clientMessages (tr.map lift) = sent tr := by
  unfold clientMessages sent
  rw [List.filterMap_map]
  congr 1
  funext ⟨e, r⟩
  cases e <;> rfl

theorem points_lift (tr : List Step) : points (tr.map lift) = [] := by
  unfold points
  rw [List.filterMap_map]
  apply List.filterMap_eq_nil_iff.mpr
  intro x _
  rfl

def watched (s : Watch) (statuses : List ℕ) : Watch :=
  statuses.foldl (fun _ status => ⟨status, true⟩) s

/-- `send_wrapper` shows every exchange as it is, and remembers the last start. -/
theorem watch_views {s t : Watch} {inner : List Step} {tr : List MeteredStep}
    (h : watch.Views s inner tr t) :
    tr = inner.map lift ∧ t = watched s (starts (sent inner)) := by
  induction h with
  | nil s => exact ⟨rfl, rfl⟩
  | cons _ ih =>
    rename_i s e r inner outer t _
    obtain ⟨rfl, ht⟩ := ih
    refine ⟨rfl, ht.trans ?_⟩
    cases e with
    | send m => cases m <;> rfl
    | receive => rfl
    | endpoint _ => rfl

theorem plain_views {s t : Unit} {inner : List Step} {tr : List MeteredStep}
    (h : plain.Views s inner tr t) : tr = inner.map lift := by
  induction h with
  | nil s => rfl
  | cons _ ih =>
    subst ih
    rfl

/-- A duration and a request, and for a status from 400 on an error: each once. -/
def Recorded (status : ℕ) (ps : List Point) : Prop :=
  ∃ elapsedMs errorCode, ps = [.duration elapsedMs, .request status] ++
    if status ≥ 400 then [.error errorCode] else []

/-- The response in place of one the application did not start. -/
def fallback (scope : Scope) : Response :=
  (problemResponse scope 500 "INTERNAL_SERVER_ERROR" unexpected [] none).1

/-- A complete response that says of a failure that there was one, and where. -/
def SaysUnexpected (scope : Scope) (ms : List Sent) : Prop :=
  ∃ p : Problem,
    ms = [.start 500 (some "application/problem+json") none, .body (.problem p) false] ∧
    p.type = "/problems/internal-server-error" ∧ p.title = "Internal Server Error" ∧
    p.status = 500 ∧ p.detail = "An unexpected error occurred." ∧
    p.instancePath = quote scope.path ∧ p.code = "INTERNAL_SERVER_ERROR" ∧ p.invalidParams = []

theorem fallback_says (scope : Scope) : SaysUnexpected scope (fallback scope).messages := by
  have htype : typeUri "INTERNAL_SERVER_ERROR" none = "/problems/internal-server-error" := by decide
  have htitle : phrase 500 = "Internal Server Error" := by decide
  exact ⟨problemBody scope.path 500 "INTERNAL_SERVER_ERROR" unexpected [] none, rfl, htype, htitle,
    rfl, rfl, rfl, rfl, rfl⟩

theorem ends_record {start : ℚ} {s : Watch} {r r' : Outcome × Scope} {tr : List MeteredStep}
    (h : Ends (record start s r) tr r') :
    r' = r ∧ clientMessages tr = [] ∧ Recorded s.status (points tr) := by
  obtain ⟨now, rest, rfl, hclock⟩ := ends_await h
  obtain ⟨_, rest, rfl, hduration⟩ := ends_await hclock
  obtain ⟨_, rest, rfl, hrequest⟩ := ends_await hduration
  split at hrequest
  · rename_i hstatus
    obtain ⟨_, rest, rfl, herror⟩ := ends_await hrequest
    obtain ⟨rfl, rfl⟩ := ends_done herror
    refine ⟨rfl, rfl, (now - start) * 1000, r.2.errorCode.getD "UNKNOWN", ?_⟩
    rw [if_pos hstatus]
    rfl
  · rename_i hstatus
    obtain ⟨rfl, rfl⟩ := ends_done hrequest
    refine ⟨rfl, rfl, (now - start) * 1000, "", ?_⟩
    rw [if_neg hstatus]
    rfl

/-- An answer through `send_wrapper` to a client that takes it. -/
theorem ends_watched_answer {s s' : Watch} {response : Response} {scope : Scope}
    {tr : List MeteredStep} {r : Outcome × Scope}
    (h : Ends (watch.wrap s (answer (response, scope))) tr (r, s')) (htakes : ClientTakes tr) :
    r = (.ok (), scope) ∧ clientMessages tr = response.messages ∧ points tr = [] ∧
      s' = ⟨response.status, true⟩ := by
  obtain ⟨inner, hinner, hviews⟩ := ends_wrap h
  obtain ⟨rfl, rfl⟩ := watch_views hviews
  have hsends : SendsSucceed inner := by
    intro m r hm
    exact htakes m r (List.mem_map_of_mem (f := lift) hm)
  obtain ⟨hsent, hr⟩ := ends_answer hinner hsends
  refine ⟨hr, ?_, points_lift inner, ?_⟩
  · rw [clientMessages_lift, hsent]
  · rw [hsent]
    rfl

/-- An exception that is an `Exception` reaches the clause. -/
theorem rescue_exception (s : Watch) {exc : Exc} (scope : Scope)
    (hexc : ∀ name, exc ≠ .interrupt name) : rescue s (.error exc, scope) =
      if s.started then .done ((.ok (), scope), { s with status := 500 })
      else watch.wrap { s with status := 500 }
        (answer (problemResponse scope 500 "INTERNAL_SERVER_ERROR" unexpected [] none)) := by
  cases exc with
  | interrupt name => exact absurd rfl (hexc name)
  | _ => rfl

/-- What the `except` clause makes of an exception: the application that has started a response
is left alone, for the other one the fallback is sent. -/
theorem ends_rescue {s s' : Watch} {exc : Exc} {scope : Scope} {tr : List MeteredStep}
    {r : Outcome × Scope} (h : Ends (rescue s (.error exc, scope)) tr (r, s'))
    (hexc : ∀ name, exc ≠ .interrupt name) (htakes : ClientTakes tr) :
    r.1 = .ok () ∧ points tr = [] ∧ s'.status = 500 ∧
      clientMessages tr = if s.started then [] else (fallback scope).messages := by
  rw [rescue_exception s scope hexc] at h
  by_cases hstarted : s.started = true
  · rw [if_pos hstarted] at h ⊢
    obtain ⟨rfl, hr⟩ := ends_done h
    obtain ⟨rfl, rfl⟩ := Prod.mk.inj hr
    exact ⟨rfl, rfl, rfl, rfl⟩
  · rw [if_neg hstarted] at h ⊢
    obtain ⟨rfl, hsent, hpoints, rfl⟩ := ends_watched_answer h htakes
    exact ⟨rfl, hpoints, rfl, hsent⟩

end Runs

section Metering

/-- What is asked of an application: it starts at most one response, returns only after it has
started one, and what it raises is an `Exception`. -/
structure Behaves (inner : List Step) (o : Outcome) : Prop where
  single : (starts (sent inner)).length ≤ 1
  returned : o = .ok () → starts (sent inner) ≠ []
  exception : ∀ name, o ≠ .error (.interrupt name)

/-- The application raised after it had started its response. -/
def RaisedLate (inner : List Step) (o : Outcome) : Prop := o ≠ .ok () ∧ starts (sent inner) ≠ []

/-- The client gets one response, and one request is counted. -/
structure Answered (inner : List Step) (o : Outcome) (scope : Scope) (tr : List MeteredStep)
    (r : Outcome × Scope) : Prop where
  /-- No exception escapes. -/
  returns : r.1 = .ok ()
  relays : starts (sent inner) ≠ [] → clientMessages tr = sent inner
  rescues : starts (sent inner) = [] →
    ∃ answer, clientMessages tr = sent inner ++ answer ∧ SaysUnexpected scope answer
  counted : ∃ received status, starts (clientMessages tr) = [received] ∧
    Recorded status (points tr) ∧ (RaisedLate inner o → status = 500) ∧
    (¬RaisedLate inner o → status = received)

/-- Every request outside the health checks is answered once and counted once; the others are not
metered. -/
structure MetersRequests (app : App) (scope : Scope) : Prop where
  meters : excluded scope = false → ∀ tr r, Ends (requestMetrics app scope) tr r →
    ClientTakes tr → ∃ start inner rest o scope', Ends (app scope) inner (o, scope') ∧
      tr = ⟨.perfCounter, start⟩ :: (inner.map lift ++ rest) ∧
      (Behaves inner o → Answered inner o scope' tr r)
  passes : excluded scope = true → ∀ tr r, Ends (requestMetrics app scope) tr r →
    ∃ inner, Ends (app scope) inner r ∧ tr = inner.map lift ∧ points tr = []

theorem Behaves.not_interrupt {inner : List Step} {exc : Exc} (h : Behaves inner (.error exc)) :
    ∀ name, exc ≠ .interrupt name := by
  rintro name rfl
  exact h.exception name rfl

theorem starts_single {inner : List Step} (hsingle : (starts (sent inner)).length ≤ 1)
    (hstarted : starts (sent inner) ≠ []) : ∃ status, starts (sent inner) = [status] := by
  apply List.length_eq_one_iff.mp
  have := List.length_pos_iff.mpr hstarted
  omega

/-- The application, the `except` clause and the `finally` clause of one request. -/
theorem answered_request {inner : List Step} {o : Outcome} {scope : Scope} {s s' : Watch}
    {start now : ℚ} {r r' : Outcome × Scope} {tr ts : List MeteredStep}
    (hbehaves : Behaves inner o) (hs : s = watched ⟨500, false⟩ (starts (sent inner)))
    (hrescue : Ends (rescue s (o, scope)) tr (r, s')) (hrecord : Ends (record start s' r) ts r')
    (htakes : ClientTakes tr) :
    Answered inner o scope (⟨.perfCounter, now⟩ :: (inner.map lift ++ (tr ++ ts))) r' := by
  obtain ⟨rfl, hsilent, hrecorded⟩ := ends_record hrecord
  have hclient : clientMessages (⟨.perfCounter, now⟩ :: (inner.map lift ++ (tr ++ ts))) =
      sent inner ++ clientMessages tr := by
    change clientMessages (inner.map lift ++ (tr ++ ts)) = _
    rw [clientMessages_append, clientMessages_append, clientMessages_lift, hsilent, List.append_nil]
  have hpoints : points (⟨.perfCounter, now⟩ :: (inner.map lift ++ (tr ++ ts))) =
      points tr ++ points ts := by
    change points (inner.map lift ++ (tr ++ ts)) = _
    rw [points_append, points_append, points_lift, List.nil_append]
  by_cases hstarted : starts (sent inner) = []
  · -- nothing was started: the application raised, and the fallback is the one response
    cases o with
    | ok _ => exact absurd hstarted (hbehaves.returned rfl)
    | error exc =>
      have hexc := hbehaves.not_interrupt
      obtain ⟨hreturns, hnone, hstatus, hfallback⟩ := ends_rescue hrescue hexc htakes
      rw [hs, hstarted, if_neg (by simp [watched])] at hfallback
      rw [hstatus] at hrecorded
      refine ⟨hreturns, fun h => absurd hstarted h,
        fun _ => ⟨_, by rw [hclient, hfallback], fallback_says scope⟩,
        500, 500, ?_, ?_, fun _ => rfl, fun _ => rfl⟩
      · rw [hclient, hfallback, starts_append, hstarted]
        rfl
      · rw [hpoints, hnone]
        exact hrecorded
  · obtain ⟨status, hstatus⟩ := starts_single hbehaves.single hstarted
    have hwatch : s = ⟨status, true⟩ := by
      rw [hs, hstatus]
      rfl
    cases o with
    | ok _ =>
      obtain ⟨rfl, hr⟩ := ends_done hrescue
      obtain ⟨rfl, rfl⟩ := Prod.mk.inj hr
      refine ⟨rfl, fun _ => hclient.trans (List.append_nil _), fun h => absurd h hstarted,
        status, status, ?_, ?_, fun h => absurd rfl h.1, fun _ => rfl⟩
      · rw [hclient, starts_append, hstatus]
        rfl
      · rw [hpoints]
        rw [hwatch] at hrecorded
        exact hrecorded
    | error exc =>
      have hexc := hbehaves.not_interrupt
      obtain ⟨hreturns, hnone, hfailed, hquiet⟩ := ends_rescue hrescue hexc htakes
      rw [hwatch, if_pos rfl] at hquiet
      rw [hfailed] at hrecorded
      have hlate : RaisedLate inner (.error exc) := ⟨by simp, hstarted⟩
      refine ⟨hreturns, fun _ => ?_, fun h => absurd h hstarted,
        status, 500, ?_, ?_, fun _ => rfl, fun h => absurd hlate h⟩
      · rw [hclient, hquiet, List.append_nil]
      · rw [hclient, hquiet, List.append_nil, hstatus]
      · rw [hpoints, hnone]
        exact hrecorded

/-- A metered request is the application, then the `except` clause, then the `finally` clause. -/
theorem ends_metered {app : App} {scope : Scope} {tr : List MeteredStep} {r : Outcome × Scope}
    (h : excluded scope = false) (hends : Ends (requestMetrics app scope) tr r) :
    ∃ start inner o scope' r' s' tr₁ tr₂, Ends (app scope) inner (o, scope') ∧
      Ends (rescue (watched ⟨500, false⟩ (starts (sent inner))) (o, scope')) tr₁ (r', s') ∧
      Ends (record start s' r') tr₂ r ∧
      tr = ⟨.perfCounter, start⟩ :: (inner.map lift ++ (tr₁ ++ tr₂)) := by
  unfold requestMetrics at hends
  rw [h, if_neg (by simp)] at hends
  obtain ⟨start, rest, rfl, hstarted⟩ := ends_await hends
  obtain ⟨⟨⟨o, scope'⟩, s⟩, tr₁, tr₂, happ, hrest, rfl⟩ := ends_bind hstarted
  obtain ⟨⟨r', s'⟩, tr₃, tr₄, hrescue, hrecord, rfl⟩ := ends_bind hrest
  obtain ⟨inner, hinner, hviews⟩ := ends_wrap happ
  obtain ⟨rfl, rfl⟩ := watch_views hviews
  exact ⟨start, inner, o, scope', r', s', tr₃, tr₄, hinner, hrescue, hrecord, rfl⟩

theorem meters_requests (app : App) (scope : Scope) : MetersRequests app scope where
  meters h tr r hends htakes := by
    obtain ⟨start, inner, o, scope', r', s', tr₁, tr₂, hinner, hrescue, hrecord, rfl⟩ :=
      ends_metered h hends
    refine ⟨start, inner, tr₁ ++ tr₂, o, scope', hinner, rfl, ?_⟩
    intro hbehaves
    apply answered_request hbehaves rfl hrescue hrecord
    intro m r hm
    exact htakes m r (by simp [hm])
  passes h tr r hends := by
    unfold requestMetrics at hends
    rw [if_pos h] at hends
    obtain ⟨r, tr₁, tr₂, happ, hdone, rfl⟩ := ends_bind hends
    obtain ⟨rfl, rfl⟩ := ends_done hdone
    obtain ⟨inner, hinner, hviews⟩ := ends_wrap happ
    obtain rfl := plain_views hviews
    refine ⟨inner, hinner, List.append_nil _, ?_⟩
    rw [List.append_nil]
    exact points_lift inner

end Metering

section Failing

/-- An application that raises before it starts a response. -/
def fails : App := fun scope => .done (.error (.exception "RuntimeError"), scope)

def getMessages : Scope := ⟨"http", "GET", "/messages", [], some "/messages", none⟩

def serverError : Scope := { getMessages with errorCode := some "INTERNAL_SERVER_ERROR" }

def failed : List MeteredStep :=
  ⟨.perfCounter, (0 : ℚ)⟩ :: ((fallback getMessages).messages.map fun m =>
    (⟨.asgi (.send m), .ok ()⟩ : MeteredStep)) ++ [⟨.perfCounter, (0 : ℚ)⟩,
    ⟨.recordDuration ((0 - 0) * 1000) ⟨"GET", "/messages"⟩, ()⟩,
    ⟨.addRequest ⟨"GET", "/messages"⟩ 500, ()⟩,
    ⟨.addError ⟨"GET", "/messages"⟩ "INTERNAL_SERVER_ERROR", ()⟩]

theorem meters_requests_failed :
    Ends (requestMetrics fails getMessages) failed (.ok (), serverError) ∧
      SaysUnexpected getMessages (clientMessages failed) ∧
      points failed =
        [.duration ((0 - 0) * 1000), .request 500, .error "INTERNAL_SERVER_ERROR"] := by
  have hends : Ends (requestMetrics fails getMessages) failed (.ok (), serverError) :=
    .step (.step (.step (.step (.step (.step (.step (.here _)))))))
  have htakes : ClientTakes failed := by
    intro m r hm
    simp [failed, Response.messages] at hm
    rcases hm with hm | hm
    · exact hm.2
    · exact hm.2
  refine ⟨hends, ?_, rfl⟩
  obtain ⟨start, inner, rest, o, scope', hinner, _, hanswered⟩ :=
    (meters_requests fails getMessages).meters (by decide) failed _ hends htakes
  obtain ⟨rfl, hraised⟩ := ends_done hinner
  obtain ⟨rfl, rfl⟩ := Prod.mk.inj hraised
  obtain ⟨answer, hanswer, hsays⟩ :=
    (hanswered ⟨by decide, by simp, by simp⟩).rescues rfl
  rw [hanswer]
  exact hsays

end Failing

end RequestMetrics
