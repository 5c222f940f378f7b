import MessageService.Asgi
import MessageService.Library.Wrappers

/-! `BodyLimitMiddleware`: a declared length is refused up front, a streamed body is counted.
The application inside sees its exchanges through the counter. -/
namespace BodyLimit

open Programs Wrappers Problems Asgi

/-- `bytes.isdigit` -/
def isDigits (b : Bytes) : Bool := b ≠ [] && b.all fun c => 48 ≤ c && c ≤ 57

/-- `int` of ASCII digits, which refuses more than 4300 of them. -/
def pythonInt (b : Bytes) : Except Exc ℕ :=
  if b.length > 4300 then .error .valueError
  else .ok (b.foldl (fun n c => n * 10 + (c.toNat - 48)) 0)

/-- `dict(scope["headers"]).get(name, b"")`: of headers with one name the last counts. -/
def header (scope : Scope) (name : String) : Bytes :=
  ((scope.headers.reverse.find? (·.1 = ascii name)).map Prod.snd).getD []

def declared (scope : Scope) : Bytes := header scope "content-length"

/-- `_too_large` -/
def tooLarge (maxBytes : ℕ) : ApiError :=
  payloadTooLargeError ("Request body must not exceed " ++ toString maxBytes ++ " bytes.")

/-- What a reply to `receive` adds to the bytes received. -/
def bodyBytes : Except Exc Received → ℕ
  | .ok message => if message.type = "http.request" then (message.body.getD []).length else 0
  | .error _ => 0

/-- `limited_receive` in place of `receive`; the state is `received`. -/
def limiter (maxBytes : ℕ) : Wrapper ℕ Effect Reply Effect Reply where
  effect e := e
  reply received
    | .receive, .ok message =>
      if message.type = "http.request" then
        let received := received + (message.body.getD []).length
        (if received > maxBytes then .error (.apiError (tooLarge maxBytes)) else .ok message,
          received)
      else (.ok message, received)
    | _, r => (r, received)

def streamed (maxBytes : ℕ) (app : App) : App := fun scope =>
  ((limiter maxBytes).wrap 0 (app scope)).bind fun r => .done r.1

/-- The answer to a declared length above the limit. -/
def refuse (maxBytes : ℕ) : App := fun scope =>
  let error := tooLarge maxBytes
  answer (problemResponse scope error.status error.code error.detail [] error.typeSlug)

def bodyLimit (maxBytes : ℕ) (app : App) : App := fun scope =>
  if scope.type ≠ "http" then app scope
  else if isDigits (declared scope) then
    match pythonInt (declared scope) with
    | .error exc => .done (.error exc, scope)
    | .ok n => if n > maxBytes then refuse maxBytes scope else streamed maxBytes app scope
  else streamed maxBytes app scope

section Counting

/-- The body bytes a step receives. -/
def stepBytes : Step → ℕ
  | ⟨.receive, r⟩ => bodyBytes r
  | _ => 0

def totalBytes (tr : List Step) : ℕ := (tr.map stepBytes).sum

/-- A step that receives a part of the body. -/
def isRequest : Step → Bool
  | ⟨.receive, .ok message⟩ => message.type = "http.request"
  | _ => false

/-- What the application inside has instead of a step, once `received` bytes have come in all. -/
def limitedStep (maxBytes received : ℕ) (x : Step) : Step :=
  if isRequest x ∧ received > maxBytes then ⟨.receive, .error (.apiError (tooLarge maxBytes))⟩
  else x

@[simp] theorem totalBytes_nil : totalBytes [] = 0 := rfl

@[simp] theorem totalBytes_cons (x : Step) (tr : List Step) :
    totalBytes (x :: tr) = stepBytes x + totalBytes tr := by
  simp [totalBytes]

variable {maxBytes : ℕ}

theorem bytes_request {x : Step} (h : isRequest x = false) : stepBytes x = 0 := by
  obtain ⟨e, r⟩ := x
  cases e with
  | send _ => rfl
  | endpoint _ => rfl
  | receive =>
    cases r with
    | error _ => rfl
    | ok message =>
      have htype : ¬message.type = "http.request" := by simpa [isRequest] using h
      simp [stepBytes, bodyBytes, htype]

theorem limitedStep_within {received : ℕ} {x : Step} (h : received ≤ maxBytes) :
    limitedStep maxBytes received x = x := by
  unfold limitedStep
  rw [if_neg]
  rintro ⟨_, hmax⟩
  omega

/-- One step of the counter. -/
theorem limiter_step (maxBytes received : ℕ) (e : Effect) (r : Reply e) :
    ((limiter maxBytes).reply received e r).2 = received + stepBytes ⟨e, r⟩ ∧
      (⟨e, ((limiter maxBytes).reply received e r).1⟩ : Step) =
        limitedStep maxBytes (received + stepBytes ⟨e, r⟩) ⟨e, r⟩ := by
  cases e with
  | send _ => exact ⟨rfl, rfl⟩
  | endpoint _ => exact ⟨rfl, rfl⟩
  | receive =>
    cases r with
    | error _ => exact ⟨rfl, rfl⟩
    | ok message =>
      by_cases htype : message.type = "http.request"
      · by_cases hmax : received + (message.body.getD []).length > maxBytes
        · simp [limiter, limitedStep, isRequest, stepBytes, bodyBytes, htype, hmax]
        · simp [limiter, limitedStep, isRequest, stepBytes, bodyBytes, htype, hmax]
      · simp [limiter, limitedStep, isRequest, stepBytes, bodyBytes, htype]

section Views

variable {received t : ℕ} {inner tr : List Step}

/-- Step by step the application sees the limited exchanges. -/
theorem views_step (h : (limiter maxBytes).Views received inner tr t) (j : ℕ) :
    inner[j]? = (tr[j]?).map
      (limitedStep maxBytes (received + totalBytes (tr.take (j + 1)))) := by
  induction h generalizing j with
  | nil s => rfl
  | cons _ ih =>
    rename_i s e r inner outer t _
    obtain ⟨hcount, hseen⟩ := limiter_step maxBytes s e r
    cases j with
    | zero =>
      rw [List.getElem?_cons_zero, List.getElem?_cons_zero, Option.map_some, List.take_succ_cons,
        List.take_zero, totalBytes_cons, totalBytes_nil, Nat.add_zero]
      exact congrArg some hseen
    | succ j =>
      rw [List.getElem?_cons_succ, List.getElem?_cons_succ, ih j, hcount, List.take_succ_cons,
        totalBytes_cons, Nat.add_assoc]
      rfl

theorem views_bounded (h : (limiter maxBytes).Views received inner tr t) :
    totalBytes inner ≤ maxBytes - received := by
  induction h with
  | nil s => exact Nat.zero_le _
  | cons _ ih =>
    rename_i s e r inner outer t _
    obtain ⟨hcount, hseen⟩ := limiter_step maxBytes s e r
    rw [hcount] at ih
    rw [totalBytes_cons, hseen]
    unfold limitedStep
    split
    · -- the part that crosses the limit is not given to the application
      change 0 + _ ≤ _
      omega
    · rename_i hpass
      by_cases hreq : isRequest ⟨e, r⟩ = true
      · have : ¬s + stepBytes ⟨e, r⟩ > maxBytes := fun hmax => hpass ⟨hreq, hmax⟩
        omega
      · have := bytes_request (x := ⟨e, r⟩) (by simpa using hreq)
        omega

theorem views_transparent (h : (limiter maxBytes).Views received inner tr t)
    (htotal : received + totalBytes tr ≤ maxBytes) : inner = tr := by
  induction h with
  | nil s => rfl
  | cons _ ih =>
    rename_i s e r inner outer t _
    obtain ⟨hcount, hseen⟩ := limiter_step maxBytes s e r
    change s + totalBytes (⟨e, r⟩ :: outer) ≤ maxBytes at htotal
    rw [totalBytes_cons] at htotal
    rw [hseen, limitedStep_within (by omega), ih (by rw [hcount]; omega)]
    rfl

/-- While the total stays within the limit the wrapper shows every step as it is. -/
theorem transparent_views (htotal : received + totalBytes tr ≤ maxBytes) :
    (limiter maxBytes).Views received tr tr (received + totalBytes tr) := by
  induction tr generalizing received with
  | nil => exact .nil received
  | cons x tr ih =>
    obtain ⟨e, r⟩ := x
    obtain ⟨hcount, hseen⟩ := limiter_step maxBytes received e r
    rw [totalBytes_cons] at htotal ⊢
    have hsame : limitedStep maxBytes (received + stepBytes ⟨e, r⟩) ⟨e, r⟩ = ⟨e, r⟩ :=
      limitedStep_within (by omega)
    have hview := Wrapper.Views.cons (w := limiter maxBytes) (s := received) (e := e) (r := r)
      (by rw [hcount]; exact ih (by omega))
    rw [hseen, hsame, Nat.add_assoc] at hview
    exact hview

end Views

end Counting

section Limits

variable {maxBytes : ℕ} {app : App} {scope : Scope}

/-- An all-digit Content-Length above the limit. -/
def DeclaredTooLarge (maxBytes : ℕ) (scope : Scope) : Prop :=
  isDigits (declared scope) = true ∧ ∃ n, pythonInt (declared scope) = .ok n ∧ maxBytes < n

/-- What the application inside has in place of the exchanges `tr` of its surroundings. -/
structure Limited (maxBytes : ℕ) (tr inner : List Step) : Prop where
  length : inner.length = tr.length
  bounded : totalBytes inner ≤ maxBytes
  transparent : totalBytes tr ≤ maxBytes → inner = tr
  exceeded : ∀ (i j : ℕ) (x : Step), i ≤ j → maxBytes < totalBytes (tr.take (i + 1)) →
    tr[j]? = some x →
    isRequest x = true → inner[j]? = some ⟨.receive, .error (.apiError (tooLarge maxBytes))⟩
  others : ∀ (j : ℕ) (x : Step), tr[j]? = some x → isRequest x = false → inner[j]? = some x

theorem totalBytes_take_le (tr : List Step) {i j : ℕ} (h : i ≤ j) :
    totalBytes (tr.take i) ≤ totalBytes (tr.take j) := by
  induction tr generalizing i j with
  | nil => simp
  | cons x tr ih =>
    cases i with
    | zero => simp
    | succ i =>
      cases j with
      | zero => omega
      | succ j =>
        have := ih (Nat.le_of_succ_le_succ h)
        simp only [List.take_succ_cons, totalBytes_cons]
        omega

theorem views_limited {inner tr : List Step} {t : ℕ}
    (h : (limiter maxBytes).Views 0 inner tr t) : Limited maxBytes tr inner where
  length := by
    have hnone := views_step h tr.length
    have hlen := views_step h inner.length
    simp only [List.getElem?_eq_none (Nat.le_refl _), Option.map_none,
      List.getElem?_eq_none_iff] at hnone
    rw [List.getElem?_eq_none (Nat.le_refl _)] at hlen
    have := List.getElem?_eq_none_iff.mp (Option.map_eq_none_iff.mp hlen.symm)
    omega
  bounded := views_bounded h
  transparent htotal := views_transparent h (by omega)
  exceeded i j x hij hmax hx hreq := by
    have := totalBytes_take_le tr (show i + 1 ≤ j + 1 by omega)
    rw [views_step h j, hx, Option.map_some, limitedStep, if_pos ⟨hreq, by omega⟩]
  others j x hx hreq := by
    rw [views_step h j, hx, Option.map_some, limitedStep, if_neg (by simp [hreq])]

/-- The body limit is exact and transparent. -/
structure LimitsBody (maxBytes : ℕ) (app : App) (scope : Scope) : Prop where
  refuses : scope.type = "http" → DeclaredTooLarge maxBytes scope → ∃ p, p.status = 413 ∧
    p.code = "BAD_USER_INPUT" ∧ p.type = "/problems/payload-too-large" ∧
    bodyLimit maxBytes app scope = answer (⟨413, some problemJson, none, .problem p⟩,
      { scope with errorCode := some "BAD_USER_INPUT" })
  /-- Every run of the limited application is a run of the application on what it is given. -/
  limits : scope.type = "http" → ¬DeclaredTooLarge maxBytes scope → ∀ tr q,
    Path (bodyLimit maxBytes app scope) tr q → ∃ inner p, Path (app scope) inner p ∧
      Limited maxBytes tr inner ∧ ∀ a, q = .done a → p = .done a
  /-- Within the limit every run of the application is a run of the limited one. -/
  allows : scope.type = "http" → ¬DeclaredTooLarge maxBytes scope → ∀ tr p,
    Path (app scope) tr p → totalBytes tr ≤ maxBytes → ∃ q,
      Path (bodyLimit maxBytes app scope) tr q ∧ ∀ a, p = .done a → q = .done a
  passes : scope.type ≠ "http" → bodyLimit maxBytes app scope = app scope

theorem bodyLimit_streamed (hhttp : scope.type = "http")
    (hdigits : isDigits (declared scope) = true → (declared scope).length ≤ 4300)
    (h : ¬DeclaredTooLarge maxBytes scope) :
    bodyLimit maxBytes app scope = streamed maxBytes app scope := by
  unfold bodyLimit
  rw [if_neg (not_not.mpr hhttp)]
  split
  · rename_i hd
    have hint : pythonInt (declared scope) = .ok _ := if_neg (by have := hdigits hd; omega)
    rw [hint]
    dsimp only
    rw [if_neg]
    exact fun hmax => h ⟨hd, _, hint, hmax⟩
  · rfl

theorem bodyLimit_refuses (hhttp : scope.type = "http") (h : DeclaredTooLarge maxBytes scope) :
    bodyLimit maxBytes app scope = refuse maxBytes scope := by
  obtain ⟨hd, n, hint, hmax⟩ := h
  unfold bodyLimit
  rw [if_neg (not_not.mpr hhttp), if_pos hd, hint]
  exact if_pos hmax

theorem streamed_limits {tr : List Step} {q}
    (h : Path (streamed maxBytes app scope) tr q) : ∃ inner p, Path (app scope) inner p ∧
      Limited maxBytes tr inner ∧ ∀ a, q = .done a → p = .done a := by
  obtain ⟨r, hr, rfl⟩ := path_map h
  obtain ⟨inner, p, t, hp, hv, rfl⟩ := path_wrap hr
  refine ⟨inner, p, hp, views_limited hv, ?_⟩
  intro a ha
  cases p with
  | done b => exact congrArg _ (Program.done.inj ha)
  | await e k => cases ha

theorem streamed_allows {tr : List Step} {p} (h : Path (app scope) tr p)
    (htotal : totalBytes tr ≤ maxBytes) : ∃ q, Path (streamed maxBytes app scope) tr q ∧
      ∀ a, p = .done a → q = .done a := by
  have hviews : (limiter maxBytes).Views 0 tr tr (0 + totalBytes tr) :=
    transparent_views (by omega)
  refine ⟨_, path_bind (wrap_path h hviews), ?_⟩
  rintro a rfl
  rfl

theorem limits_body (maxBytes : ℕ) (app : App) (scope : Scope)
    (hdigits : isDigits (declared scope) = true → (declared scope).length ≤ 4300) :
    LimitsBody maxBytes app scope where
  refuses hhttp h := by
    refine ⟨problemBody scope.path 413 "BAD_USER_INPUT" (tooLarge maxBytes).detail []
      (some "payload-too-large"), rfl, rfl, rfl, ?_⟩
    rw [bodyLimit_refuses hhttp h]
    rfl
  limits hhttp h tr q hpath := by
    rw [bodyLimit_streamed hhttp hdigits h] at hpath
    exact streamed_limits hpath
  allows hhttp h tr p hpath htotal := by
    rw [bodyLimit_streamed hhttp hdigits h]
    exact streamed_allows hpath htotal
  passes hother := if_pos hother

/-- A request of twelve declared bytes, and an application that reads on after an exception. -/
def post : Scope :=
  ⟨"http", "POST", "/messages", [(ascii "content-length", ascii "12")], none, none⟩

def readTwice : App := fun scope =>
  .await .receive fun _ => .await .receive fun r => .done (r.map fun _ => (), scope)

theorem limits_body_post : LimitsBody 16384 readTwice post :=
  limits_body 16384 readTwice post (by decide)

end Limits

end BodyLimit
