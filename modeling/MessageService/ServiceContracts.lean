import MessageService.Library.Contracts
import MessageService.Statements
import MessageService.ServiceRuns

/-! Which errors a service call may end with.
The steps it awaits raise what the libraries raise. An error of the service itself is one of
those that its function declares, with their exact texts. -/
namespace ServiceContracts

open Programs Wrappers Interleaving Contracts Models Schemas MessageJson Postgres Services
open ServiceRuns Statements

/-- An exception of the libraries is none of the service's own. -/
def Foreign : Exc → Prop
  | .notFoundError _ | .conflictError _ => False
  | _ => True

def Libraries (e : Effect) (r : Reply e) : Prop := ∀ exc, r = .error exc → Foreign exc

/-- The errors a request may raise itself. -/
def ownErrors : Request → List Exc
  | .getMessage id | .deleteMessage id => [messageNotFound id]
  | .createMessage payload => [authorNotFound payload.authorId]
  | .updateMessage id payload => [messageNotFound id, staleVersion id payload.version]
  | .getAuthor id _ => [authorNotFound id]
  | .createAuthor payload => [duplicateEmail payload.email]
  | .updateAuthor id payload => [authorNotFound id, duplicateEmail (payload.email.getD [])]
  | .deleteAuthor id => [authorNotFound id, hasMessages id]
  | .listMessages _ _ | .listAuthors _ _ | .seedInitialMessage => []

def Expected (q : Request) (o : Outcome) : Prop :=
  ∀ exc, o = .error exc → Foreign exc ∨ exc ∈ ownErrors q

section Bodies

variable {q : Request} {exc : Exc}

abbrev Keeps (q : Request) (p : Program Effect Reply Outcome) : Prop :=
  Meets Libraries (fun _ => True) (Expected q) p

theorem keeps_foreign (h : Foreign exc) : Keeps q (.done (.error exc)) := by
  rintro exc' h'
  cases h'
  exact Or.inl h

/-- Where nobody catches an exception. -/
theorem keeps_fail (exc : Exc) (h : Foreign exc) : Keeps q (.done (.error exc)) :=
  keeps_foreign h

theorem keeps_own (h : exc ∈ ownErrors q) : Keeps q (.done (.error exc)) := by
  rintro exc' h'
  cases h'
  exact Or.inr h

theorem keeps_ok (a : Result) : Keeps q (.done (.ok a)) := by
  rintro exc h
  cases h

theorem keeps_await {e : Effect} {k : Reply e → Program Effect Reply Outcome}
    (herr : ∀ exc, Foreign exc → Keeps q (k (.error exc))) (hok : ∀ a, Keeps q (k (.ok a))) :
    Keeps q (.await e k) := by
  refine ⟨trivial, ?_⟩
  rintro (exc | a) hr
  · exact herr exc (hr exc rfl)
  · exact hok a

/-- An `except IntegrityError` clause translates one violation and passes on the others. -/
theorem keeps_caught {α β : Type} {translated : Exc} (violation : String) (h : Foreign exc)
    (htranslated : translated ∈ ownErrors q) (f : α → Service β) (g : β → Service Result) :
    Keeps q (Program.bind (Program.bind (match exc with
      | .integrityError sqlstate => (do
          perform .rollback
          if sqlstate = some violation then throw translated
          throw (.integrityError sqlstate) : Service α)
      | exc => (throw exc : Service α)) (ExceptT.bindCont f)) (ExceptT.bindCont g) :
        Program Effect Reply Outcome) := by
  cases exc with
  | integrityError sqlstate =>
    refine keeps_await (fun exc hexc => keeps_foreign hexc) fun _ => ?_
    by_cases hviolation : sqlstate = some violation
    · rw [if_pos hviolation]
      exact keeps_own htranslated
    · rw [if_neg hviolation]
      exact keeps_foreign trivial
  | notFoundError | conflictError => exact h.elim
  | dataError | noResultFound | assertionError | validationError | other => exact keeps_foreign h

theorem keeps_rolled {α : Type} (h : Foreign exc) (f : α → Service Result) :
    Keeps q (Program.bind (do perform .rollback; throw exc : Service α)
      (ExceptT.bindCont f) : Program Effect Reply Outcome) :=
  keeps_await (fun _ h' => keeps_foreign h') fun _ => keeps_foreign h

variable [JsonCodec]

theorem listMessages_keeps (limit offset : ℕ) :
    Keeps (.listMessages limit offset) (body (.listMessages limit offset)) := by
  refine keeps_await keeps_fail fun rows => ?_
  refine keeps_await keeps_fail fun total => ?_
  change Keeps _ (Program.bind (Program.bind
    (validated (rows.mapM fun r => MessageOut.ofRow r.1 r.2))
    (ExceptT.bindCont fun items => pure (⟨items, total⟩ : Page MessageOut)))
    (ExceptT.bindCont fun page => pure (.messages page)) : Program Effect Reply Outcome)
  cases rows.mapM fun r => MessageOut.ofRow r.1 r.2 with
  | none => exact keeps_foreign trivial
  | some items => exact keeps_ok _

theorem getMessage_keeps (m : Uuid) : Keeps (.getMessage m) (body (.getMessage m)) := by
  refine keeps_await keeps_fail ?_
  rintro (_ | text)
  · refine keeps_await keeps_fail ?_
    rintro (_ | ⟨row, _ | author⟩)
    · exact keeps_own (List.mem_singleton.mpr rfl)
    · exact keeps_foreign trivial
    · exact keeps_await keeps_fail fun _ => keeps_ok _
  · change Keeps _ (Program.bind (validated (modelValidateJson text))
      (ExceptT.bindCont fun out => pure (.message out)) : Program Effect Reply Outcome)
    cases modelValidateJson text with
    | none => exact keeps_foreign trivial
    | some out => exact keeps_ok _

theorem createMessage_keeps (p : MessageCreate) :
    Keeps (.createMessage p) (body (.createMessage p)) := by
  refine keeps_await keeps_fail ?_
  rintro (_ | author)
  · exact keeps_own (List.mem_singleton.mpr rfl)
  refine keeps_await (fun exc h => keeps_caught _ h (List.mem_singleton.mpr rfl) _ _) fun row => ?_
  exact keeps_await keeps_fail fun _ => keeps_ok _

theorem updateMessage_keeps (m : Uuid) (p : MessageUpdate) :
    Keeps (.updateMessage m p) (body (.updateMessage m p)) := by
  refine keeps_await keeps_fail ?_
  rintro (_ | _)
  · refine keeps_await keeps_fail fun _ => ?_
    refine keeps_await keeps_fail fun _ => ?_
    refine keeps_await keeps_fail ?_
    rintro (_ | _)
    · exact keeps_own (List.mem_cons_self ..)
    · exact keeps_own (List.mem_cons_of_mem _ (List.mem_singleton.mpr rfl))
  · refine keeps_await keeps_fail ?_
    rintro (_ | ⟨row, _ | author⟩)
    · refine keeps_await keeps_fail fun _ => ?_
      exact keeps_await keeps_fail fun _ => keeps_foreign trivial
    · exact keeps_foreign trivial
    · refine keeps_await keeps_fail fun _ => ?_
      exact keeps_await keeps_fail fun _ => keeps_ok _

theorem deleteMessage_keeps (m : Uuid) : Keeps (.deleteMessage m) (body (.deleteMessage m)) := by
  refine keeps_await keeps_fail fun deleted => ?_
  refine keeps_await keeps_fail fun _ => ?_
  refine keeps_await keeps_fail fun _ => ?_
  cases deleted with
  | none => exact keeps_own (List.mem_singleton.mpr rfl)
  | some _ => exact keeps_ok _

theorem listAuthors_keeps (limit offset : ℕ) :
    Keeps (.listAuthors limit offset) (body (.listAuthors limit offset)) := by
  refine keeps_await keeps_fail fun rows => ?_
  exact keeps_await keeps_fail fun total => keeps_ok _

theorem getAuthor_keeps (id : Uuid) (inc : Bool) :
    Keeps (.getAuthor id inc) (body (.getAuthor id inc)) := by
  refine keeps_await keeps_fail ?_
  rintro (_ | author)
  · exact keeps_own (List.mem_singleton.mpr rfl)
  cases inc with
  | false => exact keeps_ok _
  | true => exact keeps_await keeps_fail fun _ => keeps_ok _

theorem createAuthor_keeps (p : AuthorCreate) :
    Keeps (.createAuthor p) (body (.createAuthor p)) := by
  refine keeps_await (fun exc h => keeps_caught _ h (List.mem_singleton.mpr rfl) _ _)
    fun author => ?_
  exact keeps_await keeps_fail fun _ => keeps_ok _

theorem updateAuthor_keeps (id : Uuid) (p : AuthorUpdate) :
    Keeps (.updateAuthor id p) (body (.updateAuthor id p)) := by
  simp only [body, updateAuthor]
  split
  · refine keeps_await keeps_fail ?_
    rintro (_ | author)
    · exact keeps_own (List.mem_cons_self ..)
    · exact keeps_ok _
  · refine keeps_await (fun exc h => keeps_caught _ h
      (List.mem_cons_of_mem _ (List.mem_singleton.mpr rfl)) _ _) ?_
    rintro (_ | author)
    · exact keeps_own (List.mem_cons_self ..)
    · exact keeps_await keeps_fail fun _ => keeps_ok _

theorem deleteAuthor_keeps (id : Uuid) : Keeps (.deleteAuthor id) (body (.deleteAuthor id)) := by
  have hown : hasMessages id ∈ ownErrors (.deleteAuthor id) :=
    List.mem_cons_of_mem _ (List.mem_singleton.mpr rfl)
  refine keeps_await (fun exc h => keeps_caught _ h hown _ _) fun deleted => ?_
  refine keeps_await (fun exc h => keeps_caught _ h hown _ _) fun _ => ?_
  cases deleted with
  | none => exact keeps_own (List.mem_cons_self ..)
  | some _ => exact keeps_ok _

theorem seedInitialMessage_keeps : Keeps .seedInitialMessage (body .seedInitialMessage) := by
  have hrolled : ∀ {α : Type} {f : α → Service Result} (exc : Exc), Foreign exc →
      Keeps .seedInitialMessage (Program.bind (do perform .rollback; throw exc : Service α)
        (ExceptT.bindCont f) : Program Effect Reply Outcome) := fun _ h => keeps_rolled h _
  refine keeps_await hrolled fun _ => ?_
  refine keeps_await hrolled ?_
  rintro (_ | count)
  · refine keeps_await hrolled fun _ => ?_
    refine keeps_await hrolled ?_
    rintro (_ | ⟨authorId, _ | ⟨other, rest⟩⟩)
    · exact hrolled _ trivial
    · refine keeps_await hrolled fun _ => ?_
      exact keeps_await hrolled fun _ => keeps_ok _
    · exact hrolled _ trivial
  · exact keeps_await hrolled fun _ => keeps_ok _

/-- Every service function keeps to the errors it declares. -/
theorem body_keeps (q : Request) : Keeps q (body q) := by
  cases q with
  | listMessages limit offset => exact listMessages_keeps limit offset
  | getMessage m => exact getMessage_keeps m
  | createMessage p => exact createMessage_keeps p
  | updateMessage m p => exact updateMessage_keeps m p
  | deleteMessage m => exact deleteMessage_keeps m
  | listAuthors limit offset => exact listAuthors_keeps limit offset
  | getAuthor id inc => exact getAuthor_keeps id inc
  | createAuthor p => exact createAuthor_keeps p
  | updateAuthor id p => exact updateAuthor_keeps id p
  | deleteAuthor id => exact deleteAuthor_keeps id
  | seedInitialMessage => exact seedInitialMessage_keeps

end Bodies

section Runs

variable [JsonCodec]

/-- A call of the request can end so, as long as the libraries raise exceptions of their own. -/
def Possible (q : Request) (o : Outcome) : Prop :=
  ∃ tr, Ends (body q) tr o ∧ ∀ x ∈ tr, Libraries x.1 x.2

theorem possible_expected {q : Request} {o : Outcome} (h : Possible q o) : Expected q o := by
  obtain ⟨tr, hends, htr⟩ := h
  exact meets_ends hends (body_keeps q) htr

variable {s : SoundDb} {ρ : Run s}

/-- What is injected into a run is no error of the service. -/
def FaultsForeign (ρ : Run s) : Prop :=
  ∀ k < ρ.length, ∀ c x, ρ.event k = .step c x →
    (∀ exc, x = .raise exc → Foreign exc) ∧ ∀ f exc, x = .raiseAfter f exc → Foreign exc

theorem performs_libraries {k c : ℕ} {e : Effect} {x : Choice} {r : Reply e}
    (hfaults : FaultsForeign ρ) (hp : ρ.Performs k c e x r) : Libraries e r := by
  rintro exc rfl
  obtain ⟨hraise, hafter⟩ := hfaults k hp.within c x hp.event
  have hanswer := hp.answer
  cases x with
  | proceed f =>
    rcases execute_error_kind hanswer with rfl | ⟨sqlstate, rfl⟩
    · trivial
    · trivial
  | raise exc' =>
    have hraised := Except.error.inj (congrArg Prod.fst (Option.some.inj hanswer))
    exact hraised ▸ hraise exc' rfl
  | raiseAfter f exc' =>
    obtain ⟨_, _, h⟩ := Option.map_eq_some_iff.mp hanswer
    have hraised := Except.error.inj (congrArg Prod.fst h)
    exact hraised ▸ hafter f exc' rfl

/-- The outcome of a call in any run, among any others, is possible for its request. -/
theorem ended_possible {c n : ℕ} {q : Request} {o : Outcome} (hfaults : FaultsForeign ρ)
    (h : ρ.Ended c q o n) : Possible q o := by
  obtain ⟨hn, b, hc⟩ := h
  obtain ⟨i, _, _, _, hr⟩ := ρ.started (fun _ => rfl) hc hn
  obtain ⟨tr, hpath, htr⟩ := reaches_path hr
  refine ⟨tr, hpath, ?_⟩
  intro x hx
  obtain ⟨k, y, _, _, hp⟩ := htr x hx
  exact performs_libraries hfaults hp

end Runs

end ServiceContracts
