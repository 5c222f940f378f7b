import MessageService.RequestMetrics

/-! The codes of the error metric. The code of a data point is the one the last problem built on
the scope has left there, whether or not that problem is what the client got. -/
namespace ErrorCodes

open Programs Wrappers Problems Asgi RequestMetrics

section Codes

def pointCode : Point → Option String
  | .error errorCode => some errorCode
  | _ => none

/-- The codes added to the error metric. -/
def errorCodes (tr : List MeteredStep) : List String := (points tr).filterMap pointCode

def sentProblem : Sent → Option Problem
  | .body (.problem p) _ => some p
  | _ => none

/-- The problem bodies among the messages to the client. -/
def problems (ms : List Sent) : List Problem := ms.filterMap sentProblem

/-- The code in a scope once these problems have been built on it. -/
def codeAfter (code : Option String) (built : List Problem) : Option String :=
  built.foldl (fun _ p => some p.code) code

/-- A problem response is built on its scope. -/
theorem problemResponse_built (scope : Scope) (status : ℕ) (code detail : String)
    (invalidParams : List InvalidParam) (typeSlug : Option String) :
    ∃ p, (problemResponse scope status code detail invalidParams typeSlug).1 =
        ⟨status, some problemJson, none, .problem p⟩ ∧ p.code = code ∧ p.status = status ∧
      (problemResponse scope status code detail invalidParams typeSlug).2.errorCode =
        codeAfter scope.errorCode [p] :=
  ⟨problemBody scope.path status code detail invalidParams typeSlug, rfl, rfl, rfl, rfl⟩

theorem codeAfter_built (code : Option String) {built : List Problem} (h : built ≠ []) :
    ∃ p ∈ built, codeAfter code built = some p.code := by
  induction built generalizing code with
  | nil => exact absurd rfl h
  | cons p built ih =>
    by_cases hb : built = []
    · subst hb
      exact ⟨p, List.mem_cons_self .., rfl⟩
    · obtain ⟨q, hq, hcode⟩ := ih (some p.code) hb
      exact ⟨q, List.mem_cons_of_mem _ hq, hcode⟩

theorem errorCodes_append (tr ts : List MeteredStep) :
    errorCodes (tr ++ ts) = errorCodes tr ++ errorCodes ts := by
  rw [errorCodes, points_append, List.filterMap_append]
  rfl

theorem errorCodes_silent {tr : List MeteredStep} (h : points tr = []) : errorCodes tr = [] := by
  rw [errorCodes, h]
  rfl

/-- The `finally` clause counts the code it finds in the scope. -/
theorem ends_record_codes {start : ℚ} {s : Watch} {r r' : Outcome × Scope} {tr : List MeteredStep}
    (h : Ends (record start s r) tr r') :
    errorCodes tr = if s.status ≥ 400 then [r.2.errorCode.getD "UNKNOWN"] else [] := by
  obtain ⟨now, rest, rfl, hclock⟩ := ends_await h
  obtain ⟨_, rest, rfl, hduration⟩ := ends_await hclock
  obtain ⟨_, rest, rfl, hrequest⟩ := ends_await hduration
  by_cases hstatus : s.status ≥ 400
  · rw [if_pos hstatus] at hrequest ⊢
    obtain ⟨_, rest, rfl, herror⟩ := ends_await hrequest
    obtain ⟨rfl, _⟩ := ends_done herror
    rfl
  · rw [if_neg hstatus] at hrequest ⊢
    obtain ⟨rfl, _⟩ := ends_done hrequest
    rfl

/-- The code in the scope is set by the `except` clause only with the fallback. -/
theorem ends_rescue_code {s s' : Watch} {exc : Exc} {scope : Scope} {tr : List MeteredStep}
    {r : Outcome × Scope} (h : Ends (rescue s (.error exc, scope)) tr (r, s'))
    (hexc : ∀ name, exc ≠ .interrupt name) (htakes : ClientTakes tr) :
    r.2.errorCode = if s.started then scope.errorCode else some "INTERNAL_SERVER_ERROR" := by
  rw [rescue_exception s scope hexc] at h
  by_cases hstarted : s.started = true
  · rw [if_pos hstarted] at h ⊢
    obtain ⟨_, hr⟩ := ends_done h
    obtain ⟨rfl, _⟩ := Prod.mk.inj hr
    rfl
  · rw [if_neg hstarted] at h ⊢
    obtain ⟨rfl, _⟩ := ends_watched_answer h htakes
    rfl

end Codes

section Visibility

/-- What is asked of an application: on its scope it builds the problems `built`, and a response
from 400 on that it sends before it returns is one of them, sent whole. -/
structure SendsBuilt (scope scope' : Scope) (inner : List Step) (o : Outcome)
    (built : List Problem) : Prop extends Behaves inner o where
  code : scope'.errorCode = codeAfter scope.errorCode built
  sends : o = .ok () → ∀ status ∈ starts (sent inner), status ≥ 400 →
    ∃ p ∈ built, p.status = status ∧
      sent inner = Response.messages ⟨status, some problemJson, none, .problem p⟩

/-- The codes counted for a request say what became of it. -/
structure CodesVisible (inner : List Step) (o : Outcome) (tr : List MeteredStep) : Prop where
  raised : o ≠ .ok () → errorCodes tr = ["INTERNAL_SERVER_ERROR"]
  returned : o = .ok () → ∀ status ∈ starts (sent inner), clientMessages tr = sent inner ∧
    errorCodes tr = if status ≥ 400 then (problems (sent inner)).map Problem.code else []

/-- The last problem built is the one the data point stands for. -/
structure CodeStands (scope : Scope) (inner : List Step) (o : Outcome) (built : List Problem) :
    Prop where
  raised : RaisedLate inner o → codeAfter scope.errorCode built = some "INTERNAL_SERVER_ERROR"
  returned : o = .ok () → ∀ status ∈ starts (sent inner), status ≥ 400 →
    ∀ p ∈ problems (sent inner), codeAfter scope.errorCode built = some p.code

/-- The codes of the requests outside the health checks are visible exactly when the last problem
built stands for them. -/
structure CountsCodes (app : App) (scope : Scope) : Prop where
  counts : excluded scope = false → ∀ tr r, Ends (requestMetrics app scope) tr r →
    ClientTakes tr → ∃ start inner rest o scope', Ends (app scope) inner (o, scope') ∧
      tr = ⟨.perfCounter, start⟩ :: (inner.map lift ++ rest) ∧
      ∀ built, SendsBuilt scope scope' inner o built →
        (CodesVisible inner o tr ↔ CodeStands scope inner o built)

variable {inner : List Step} {scope scope' : Scope} {start now : ℚ} {s' : Watch}
  {r r' : Outcome × Scope} {tr ts : List MeteredStep} {built : List Problem}

theorem errorCodes_request (now : ℚ) (inner : List Step) (htr : points tr = []) :
    errorCodes (⟨.perfCounter, now⟩ :: (inner.map lift ++ (tr ++ ts))) = errorCodes ts := by
  change errorCodes (inner.map lift ++ (tr ++ ts)) = _
  rw [errorCodes_append, errorCodes_append, errorCodes_silent (points_lift inner),
    errorCodes_silent htr, List.nil_append, List.nil_append]

/-- An exception before the start is answered and counted as what it is; after the start it is
counted under the code that is in the scope. -/
theorem raised_visible_iff {exc : Exc} (hbuilt : SendsBuilt scope scope' inner (.error exc) built)
    (hrescue : Ends (rescue (watched ⟨500, false⟩ (starts (sent inner))) (.error exc, scope')) tr
      (r, s')) (hrecord : Ends (record start s' r) ts r') (htakes : ClientTakes tr) :
    CodesVisible inner (.error exc) (⟨.perfCounter, now⟩ :: (inner.map lift ++ (tr ++ ts))) ↔
      CodeStands scope inner (.error exc) built := by
  have hexc := hbuilt.not_interrupt
  obtain ⟨_, hsilent, hstatus, _⟩ := ends_rescue hrescue hexc htakes
  have hcode := ends_rescue_code hrescue hexc htakes
  have hcodes := ends_record_codes hrecord
  rw [hstatus, if_pos (by decide)] at hcodes
  rw [← errorCodes_request now inner hsilent] at hcodes
  by_cases hstarted : starts (sent inner) = []
  · rw [hstarted, if_neg (by simp [watched])] at hcode
    rw [hcode] at hcodes
    constructor
    · intro _
      exact ⟨fun h => absurd hstarted h.2, fun h => by cases h⟩
    · intro _
      exact ⟨fun _ => hcodes, fun h => by cases h⟩
  · obtain ⟨status, hone⟩ := starts_single hbuilt.single hstarted
    rw [hone] at hcode
    change r.2.errorCode = scope'.errorCode at hcode
    rw [hcode, hbuilt.code] at hcodes
    have hlate : RaisedLate inner (.error exc) := ⟨by simp, hstarted⟩
    constructor
    · intro h
      refine ⟨fun _ => ?_, fun h => by cases h⟩
      have hcounted := hcodes.symm.trans (h.raised (by simp))
      cases hafter : codeAfter scope.errorCode built with
      | none =>
        rw [hafter] at hcounted
        exact absurd hcounted (by decide)
      | some code =>
        rw [hafter] at hcounted
        exact congrArg some (List.cons.inj hcounted).1
    · intro h
      refine ⟨fun _ => ?_, fun h => by cases h⟩
      rw [hcodes, h.raised hlate]
      rfl

/-- A response is counted under the code that is in the scope when the application returns. -/
theorem returned_visible_iff (hbuilt : SendsBuilt scope scope' inner (.ok ()) built)
    (hrescue : Ends (rescue (watched ⟨500, false⟩ (starts (sent inner))) (.ok (), scope')) tr
      (r, s')) (hrecord : Ends (record start s' r) ts r') :
    CodesVisible inner (.ok ()) (⟨.perfCounter, now⟩ :: (inner.map lift ++ (tr ++ ts))) ↔
      CodeStands scope inner (.ok ()) built := by
  obtain ⟨status, hone⟩ := starts_single hbuilt.single (hbuilt.returned rfl)
  obtain ⟨rfl, hr⟩ := ends_done hrescue
  obtain ⟨rfl, rfl⟩ := Prod.mk.inj hr
  have hclient : clientMessages (⟨.perfCounter, now⟩ :: (inner.map lift ++ ([] ++ ts))) =
      sent inner := by
    obtain ⟨_, hquiet, _⟩ := ends_record hrecord
    change clientMessages (inner.map lift ++ ([] ++ ts)) = _
    rw [List.nil_append, clientMessages_append, clientMessages_lift, hquiet, List.append_nil]
  have hcodes := ends_record_codes hrecord
  have hnone : points [] = [] := rfl
  rw [hone, hbuilt.code, ← errorCodes_request now inner hnone] at hcodes
  change errorCodes _ = if status ≥ 400 then [(codeAfter scope.errorCode built).getD "UNKNOWN"]
    else [] at hcodes
  by_cases hfailed : status ≥ 400
  · obtain ⟨p, hp, _, hsent⟩ := hbuilt.sends rfl status (by simp [hone]) hfailed
    have hproblems : problems (sent inner) = [p] := by
      rw [hsent]
      rfl
    obtain ⟨q, _, hafter⟩ := codeAfter_built scope.errorCode (List.ne_nil_of_mem hp)
    rw [if_pos hfailed, hafter] at hcodes
    constructor
    · intro h
      refine ⟨fun hraised => absurd rfl hraised.1, fun _ _ _ _ => ?_⟩
      obtain ⟨_, hcounted⟩ := h.returned rfl status (by simp [hone])
      rw [if_pos hfailed, hproblems, hcodes] at hcounted
      intro p' hp'
      rw [hproblems, List.mem_singleton] at hp'
      rw [hafter, hp']
      exact congrArg some (List.cons.inj hcounted).1
    · intro h
      refine ⟨fun hraised => absurd rfl hraised, ?_⟩
      intro _ status' hstatus'
      rw [hone, List.mem_singleton] at hstatus'
      subst hstatus'
      have hlast := h.returned rfl status' (by simp [hone]) hfailed p (by simp [hproblems])
      rw [hafter] at hlast
      refine ⟨hclient, ?_⟩
      rw [hcodes, if_pos hfailed, hproblems]
      exact congrArg (fun code => [code]) (Option.some.inj hlast)
  · rw [if_neg hfailed] at hcodes
    constructor
    · intro _
      refine ⟨fun hraised => absurd rfl hraised.1, ?_⟩
      intro _ status' hstatus' hfailed'
      rw [hone, List.mem_singleton] at hstatus'
      exact absurd (hstatus' ▸ hfailed') hfailed
    · intro _
      refine ⟨fun hraised => absurd rfl hraised, ?_⟩
      intro _ status' hstatus'
      rw [hone, List.mem_singleton] at hstatus'
      subst hstatus'
      exact ⟨hclient, by rw [hcodes, if_neg hfailed]⟩

theorem counts_codes (app : App) (scope : Scope) : CountsCodes app scope where
  counts h tr r hends htakes := by
    obtain ⟨start, inner, o, scope', r', s', tr₁, tr₂, hinner, hrescue, hrecord, rfl⟩ :=
      ends_metered h hends
    refine ⟨start, inner, tr₁ ++ tr₂, o, scope', hinner, rfl, ?_⟩
    intro built hbuilt
    cases o with
    | ok _ => exact returned_visible_iff hbuilt hrescue hrecord
    | error exc =>
      apply raised_visible_iff hbuilt hrescue hrecord
      intro m r hm
      exact htakes m r (by simp [hm])

end Visibility

section Late

/-- A response that is begun, and then an exception. -/
def breaksOff : App := fun scope =>
  .await (.send (.start 200 (some "application/json") none)) fun
    | .error exc => .done (.error exc, scope)
    | .ok _ => .done (.error (.exception "RuntimeError"), scope)

def begun : List Step := [⟨.send (.start 200 (some "application/json") none), .ok ()⟩]

def brokenOff : List MeteredStep :=
  ⟨.perfCounter, (0 : ℚ)⟩ :: (begun.map lift ++ [⟨.perfCounter, (0 : ℚ)⟩,
    ⟨.recordDuration ((0 - 0) * 1000) ⟨"GET", "/messages"⟩, ()⟩,
    ⟨.addRequest ⟨"GET", "/messages"⟩ 500, ()⟩, ⟨.addError ⟨"GET", "/messages"⟩ "UNKNOWN", ()⟩])

/-- An exception after the start is counted under no code of the service. -/
theorem late_exception_unknown :
    excluded getMessages = false ∧ ClientTakes brokenOff ∧
      Ends (requestMetrics breaksOff getMessages) brokenOff (.ok (), getMessages) ∧
      Ends (breaksOff getMessages) begun (.error (.exception "RuntimeError"), getMessages) ∧
      SendsBuilt getMessages getMessages begun (.error (.exception "RuntimeError")) [] ∧
      errorCodes brokenOff = ["UNKNOWN"] ∧
      ¬CodesVisible begun (.error (.exception "RuntimeError")) brokenOff := by
  refine ⟨by decide, ?_, ?_, ?_, ?_, rfl, ?_⟩
  · intro m r hm
    simp [brokenOff, begun, lift] at hm
    exact hm.2
  · exact .step (.step (.step (.step (.step (.step (.here _))))))
  · exact .step (.here _)
  · exact ⟨⟨by decide, by simp, by simp⟩, rfl, by simp⟩
  · intro h
    exact absurd (h.raised (by simp)) (by decide)

end Late

end ErrorCodes
