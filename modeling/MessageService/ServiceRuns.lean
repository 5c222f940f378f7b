import MessageService.Library.Interleaving
import MessageService.Services

/-! Requests to the service and its runs: any number of calls over one database and cache. -/
namespace ServiceRuns

open Programs Interleaving Texts Models Schemas MessageJson Postgres Services

inductive Request where
  | listMessages (limit offset : ℕ)
  | getMessage (id : Uuid)
  | createMessage (payload : MessageCreate)
  | updateMessage (id : Uuid) (payload : MessageUpdate)
  | deleteMessage (id : Uuid)
  | listAuthors (limit offset : ℕ)
  | getAuthor (id : Uuid) (includeMessages : Bool)
  | createAuthor (payload : AuthorCreate)
  | updateAuthor (id : Uuid) (payload : AuthorUpdate)
  | deleteAuthor (id : Uuid)
  | seedInitialMessage
  deriving DecidableEq

inductive Result where
  | messages (page : Page MessageOut)
  | message (m : MessageOut)
  | authors (page : Page AuthorOut)
  | authorDetail (a : AuthorDetailOut)
  | author (a : AuthorOut)
  | none
  deriving DecidableEq, Repr

abbrev Outcome := Except Exc Result

variable [JsonCodec]

def body (q : Request) : Program Effect Reply Outcome :=
  match q with
  | .listMessages limit offset => (do return .messages (← listMessages limit offset) : Service _)
  | .getMessage id => (do return .message (← getMessage id) : Service _)
  | .createMessage payload => (do return .message (← createMessage payload) : Service _)
  | .updateMessage id payload => (do return .message (← updateMessage id payload) : Service _)
  | .deleteMessage id => (do deleteMessage id; return .none : Service _)
  | .listAuthors limit offset => (do return .authors (← listAuthors limit offset) : Service _)
  | .getAuthor id inc => (do return .authorDetail (← getAuthor id inc) : Service _)
  | .createAuthor payload => (do return .author (← createAuthor payload) : Service _)
  | .updateAuthor id payload => (do return .author (← updateAuthor id payload) : Service _)
  | .deleteAuthor id => (do deleteAuthor id; return .none : Service _)
  | .seedInitialMessage => (do seedInitialMessage; return .none : Service _)

/-- `get_session` closes the session when the request ends, which rolls back what is open. -/
abbrev host : Host where
  Shared := World
  Effect := Effect
  Reply := Reply
  Request := Request
  Outcome := Outcome
  Choice := Choice
  body := body
  answer := answer
  close c w := w.rollback c

/-- Runs that start from sound tables, an empty cache and no call. -/
abbrev Run (s : SoundDb) := Interleaving.Run host ⟨World.ofDb s.toDb, fun _ => none⟩

variable {s : SoundDb}

def Run.store (ρ : Run s) (n : ℕ) : World := (ρ.state n).shared

/-- The committed row of message `m` at instant `n`. -/
def Run.row (ρ : Run s) (n : ℕ) (m : Uuid) : Option Message := (ρ.store n).db.messages.lookup m

def Run.author (ρ : Run s) (n : ℕ) (a : Uuid) : Option Author := (ρ.store n).db.authors.lookup a

/-- Call `c` of request `q` has ended with `o` by instant `n`. -/
def Run.Ended (ρ : Run s) (c : ℕ) (q : Request) (o : Outcome) (n : ℕ) : Prop :=
  n ≤ ρ.length ∧ ∃ b, (ρ.state n).calls c = some ⟨q, .done o, b⟩

/-- The request and the outcome of a call that has ended. -/
def Run.outcome? (ρ : Run s) (c n : ℕ) : Option (Request × Outcome) :=
  match (ρ.state n).calls c with
  | some ⟨q, .done o, _⟩ => some (q, o)
  | _ => none

theorem outcome?_some {ρ : Run s} {c n : ℕ} {q : Request} {o : Outcome} :
    ρ.outcome? c n = some (q, o) ↔ ∃ b, (ρ.state n).calls c = some ⟨q, .done o, b⟩ := by
  unfold Run.outcome?
  constructor
  · intro h
    split at h
    · rename_i q' o' b hc
      obtain ⟨rfl, rfl⟩ : q' = q ∧ o' = o := by simpa using h
      exact ⟨b, hc⟩
    · cases h
  · rintro ⟨b, hc⟩
    rw [hc]

instance (ρ : Run s) (c n : ℕ) (q : Request) (o : Outcome) : Decidable (ρ.Ended c q o n) :=
  decidable_of_iff (n ≤ ρ.length ∧ ρ.outcome? c n = some (q, o)) (by rw [outcome?_some]; rfl)

/-- The call that takes a step at instant `k`, its request and the effect it awaits. -/
def Run.taking (ρ : Run s) (k : ℕ) : Option (ℕ × Request × Effect) :=
  match ρ.event k with
  | .step c _ =>
    match (ρ.state k).calls c with
    | some ⟨q, .await e _, _⟩ => some (c, q, e)
    | _ => none
  | _ => none

theorem taking_of_performs {ρ : Run s} {k c : ℕ} {e : Effect} {x} {r : Reply e}
    (hp : ρ.Performs k c e x r) {q b} {K : Reply e → host.Body}
    (hc : (ρ.state k).calls c = some ⟨q, .await e K, b⟩) : ρ.taking k = some (c, q, e) := by
  unfold Run.taking
  rw [hp.event]
  simp only [hc]

theorem performs_of_taking {ρ : Run s} {k c : ℕ} {q : Request} {e : Effect} (hk : k < ρ.length)
    (h : ρ.taking k = some (c, q, e)) : ∃ x r, ρ.Performs k c e x r ∧
      ∃ K b, (ρ.state k).calls c = some ⟨q, .await e K, b⟩ := by
  unfold Run.taking at h
  split at h
  swap
  · cases h
  rename_i d x hev
  split at h
  swap
  · cases h
  rename_i q' e' K b hcall
  obtain ⟨rfl, rfl, rfl⟩ : d = c ∧ q' = q ∧ e' = e := by simpa using h
  rcases ρ.step_cases hk with ⟨_, _, he, _⟩ | ⟨c', e, x', r, hp⟩ | ⟨_, he, _⟩
  · rw [he] at hev; cases hev
  · have hd := hp.event
    rw [hev] at hd
    obtain ⟨rfl, rfl⟩ : d = c' ∧ x = x' := by simpa using hd
    obtain ⟨q'', b', K', hcall', _⟩ := hp.awaiting
    rw [hcall] at hcall'
    simp only [Option.some.injEq, Call.mk.injEq, Program.await.injEq] at hcall'
    obtain ⟨rfl, ⟨rfl, _⟩, rfl⟩ := hcall'
    exact ⟨_, r, hp, K, b, hcall⟩
  · rw [he] at hev; cases hev

/-- No awaited step of call `c` fails for a reason outside the store. -/
def Run.Faultless (ρ : Run s) (c : ℕ) : Prop :=
  ∀ k < ρ.length, ∀ x, ρ.event k = .step c x → ∃ f, x = .proceed f

def Run.FaultFree (ρ : Run s) : Prop := ∀ c, ρ.Faultless c

/-- The events that inject no fault. -/
def faultless : Event host → Bool
  | .step _ (.raise _) | .step _ (.raiseAfter _ _) => false
  | _ => true

theorem faultFree_of_events (ρ : Run s) (h : ∀ k < ρ.length, faultless (ρ.event k) = true) :
    ρ.FaultFree := by
  intro c k hk x he
  have hk' := h k hk
  rw [he] at hk'
  cases x with
  | proceed f => exact ⟨f, rfl⟩
  | raise exc => cases hk'
  | raiseAfter f exc => cases hk'

/-- The run that a list of events makes, as an executable schedule. -/
abbrev scheduled (s : SoundDb) (es : List (Event host))
    (h : (runEvents (⟨World.ofDb s.toDb, fun _ => none⟩ : State host) es).isSome) : Run s :=
  .ofEvents _ es h

section Schedules

/-! Small tables and events for concrete schedules. -/

def ada : Author := ⟨1, "Ada", "ada@example.com", ⟨2026, 1, 1, 0, 0, 0, 0⟩⟩

def hello : Message := ⟨2, "Hello", "First", ada.id, ⟨2026, 1, 2, 0, 0, 0, 0⟩, 0⟩

def oneMessage : SoundDb where
  authors := ⟨[ada], by decide⟩
  messages := ⟨[hello], by decide⟩
  emails_unique := by decide
  foreign_keys := by decide

def second (version : ℕ) (h : version ≤ maxInt4) : MessageUpdate :=
  ⟨none, text "Second", version, by simp, by decide +kernel, h⟩

omit [JsonCodec] in
theorem zero_version : 0 ≤ maxInt4 := by decide

omit [JsonCodec] in
theorem one_version : 1 ≤ maxInt4 := by decide

omit [JsonCodec] in
theorem hello_checked : Checked .title (text "Hello") ∧ Checked .content (text "First") := by
  decide +kernel

/-- The time of an INSERT. -/
def insertedAt : Datetime := ⟨2026, 1, 3, 0, 0, 0, 0⟩

/-- The next await of call `c`, answered by the store; an INSERT uses `id`. -/
def act (c : ℕ) (id : Uuid) : Event host := .step c (.proceed ⟨id, insertedAt⟩)

end Schedules

end ServiceRuns
