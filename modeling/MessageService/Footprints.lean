import MessageService.ServiceRuns
import MessageService.Statements

/-! Which effects a service function can await, whatever the replies.
Reading calls await nothing that writes a row or ends a transaction, and only `get_message`
populates the cache. -/
namespace Footprints

open Programs Texts Models Schemas MessageJson Postgres Services ServiceRuns Statements

/-- Every effect the service function can await satisfies `P`. -/
def Awaits (P : Effect → Prop) {α : Type} (x : Service α) : Prop := Program.Only P x.run

section Composition

variable {P : Effect → Prop} {α β : Type}

theorem awaits_pure (a : α) : Awaits P (pure a : Service α) := trivial

theorem awaits_throw (exc : Exc) : Awaits P (throw exc : Service α) := trivial

theorem awaits_perform {e : Effect} (h : P e) : Awaits P (perform e) := ⟨h, fun _ => trivial⟩

theorem awaits_bind {x : Service α} {f : α → Service β} (hx : Awaits P x)
    (hf : ∀ a, Awaits P (f a)) : Awaits P (x >>= f) := by
  refine only_bind (p := x.run) hx ?_
  intro r
  cases r with
  | error exc => trivial
  | ok a => exact hf a

theorem awaits_tryCatch {x : Service α} {f : Exc → Service α} (hx : Awaits P x)
    (hf : ∀ exc, Awaits P (f exc)) : Awaits P (tryCatch x f) := by
  refine only_bind (p := x.run) hx ?_
  intro r
  cases r with
  | error exc => exact hf exc
  | ok a => trivial

theorem awaits_validated (a : Option α) : Awaits P (validated a) := by
  cases a with
  | none => trivial
  | some a => trivial

end Composition

section Functions

variable {P : Effect → Prop}

theorem awaits_load {m : Uuid} (h : P (.selectMessage m)) : Awaits P (load m) := by
  refine awaits_bind (awaits_perform h) ?_
  rintro (_ | ⟨row, author⟩)
  · exact awaits_pure _
  · exact awaits_bind (awaits_validated _) fun _ => awaits_pure _

theorem awaits_updateMessage {m : Uuid} {p : MessageUpdate}
    (hu : P (.updateMessage m p.version p.content p.title)) (hr : P .rollback)
    (he : P (.cacheEvict m.str)) (hi : P (.selectMessageId m)) (hl : P (.selectMessage m))
    (hc : P .commit) : Awaits P (updateMessage m p) := by
  refine awaits_bind (awaits_perform hu) ?_
  rintro (_ | _)
  · refine awaits_bind (awaits_perform hr) fun _ => awaits_bind (awaits_perform he) fun _ =>
      awaits_bind (awaits_perform hi) ?_
    rintro (_ | _)
    · exact awaits_throw _
    · exact awaits_throw _
  · refine awaits_bind (awaits_load hl) fun out => awaits_bind (awaits_perform hc) fun _ =>
      awaits_bind (awaits_perform he) fun _ => ?_
    cases out with
    | none => exact awaits_throw _
    | some out => exact awaits_pure _

theorem awaits_deleteMessage {m : Uuid} (hd : P (.deleteMessage m)) (hc : P .commit)
    (he : P (.cacheEvict m.str)) : Awaits P (deleteMessage m) := by
  refine awaits_bind (awaits_perform hd) fun r => awaits_bind (awaits_perform hc) fun _ =>
    awaits_bind (awaits_perform he) fun _ => ?_
  cases r with
  | none => exact awaits_throw _
  | some _ => exact awaits_pure _

/-- The `except IntegrityError` clause that follows a statement. -/
theorem awaits_caught {α : Type} {x : Service α} {f : Option String → Service α}
    (hx : Awaits P x) (hr : P .rollback) (hf : ∀ sqlstate, Awaits P (f sqlstate)) :
    Awaits P (tryCatch x fun
      | .integrityError sqlstate => do perform .rollback; f sqlstate
      | exc => throw exc) := by
  refine awaits_tryCatch hx ?_
  intro exc
  cases exc with
  | integrityError sqlstate => exact awaits_bind (awaits_perform hr) fun _ => hf sqlstate
  | notFoundError | conflictError | dataError | noResultFound | assertionError
  | validationError | other => exact awaits_throw _

theorem awaits_listMessages {limit offset : ℕ} (h : P (.selectMessages limit offset))
    (hc : P .countMessages) : Awaits P (listMessages limit offset) :=
  awaits_bind (awaits_perform h) fun _ => awaits_bind (awaits_perform hc) fun _ =>
    awaits_bind (awaits_validated _) fun _ => awaits_pure _

theorem awaits_listAuthors {limit offset : ℕ} (h : P (.selectAuthors limit offset))
    (hc : P .countAuthors) : Awaits P (listAuthors limit offset) :=
  awaits_bind (awaits_perform h) fun _ => awaits_bind (awaits_perform hc) fun _ => awaits_pure _

theorem awaits_getAuthor {id : Uuid} {inc : Bool} (h : P (.selectAuthor id))
    (hm : P (.selectMessagesOf id)) : Awaits P (getAuthor id inc) := by
  refine awaits_bind (awaits_perform h) ?_
  rintro (_ | author)
  · exact awaits_throw _
  · cases inc with
    | true => exact awaits_bind (awaits_perform hm) fun _ => awaits_pure _
    | false => exact awaits_pure _

theorem awaits_createMessage {p : MessageCreate} (ha : P (.selectAuthor p.authorId))
    (hi : ∀ a, P (.insertMessage p.title p.content a)) (hr : P .rollback) (hc : P .commit) :
    Awaits P (createMessage p) := by
  refine awaits_bind (awaits_perform ha) ?_
  rintro (_ | author)
  · exact awaits_throw _
  · refine awaits_bind (awaits_caught (awaits_perform (hi _)) hr fun sqlstate => ?_) fun _ =>
      awaits_bind (awaits_validated _) fun _ => awaits_bind (awaits_perform hc) fun _ =>
        awaits_pure _
    by_cases h : sqlstate = some fkViolation <;> simp only [h, if_true, if_false] <;> trivial

theorem awaits_createAuthor {p : AuthorCreate} (hi : P (.insertAuthor p.name p.email))
    (hr : P .rollback) (hc : P .commit) : Awaits P (createAuthor p) := by
  refine awaits_bind (awaits_caught (awaits_perform hi) hr fun sqlstate => ?_) fun _ =>
    awaits_bind (awaits_perform hc) fun _ => awaits_pure _
  by_cases h : sqlstate = some uniqueViolation <;> simp only [h, if_true, if_false] <;> trivial

theorem awaits_updateAuthor {id : Uuid} {p : AuthorUpdate} (hs : P (.selectAuthor id))
    (hu : P (.updateAuthor id p.name p.email)) (hr : P .rollback) (hc : P .commit) :
    Awaits P (updateAuthor id p) := by
  unfold updateAuthor
  split
  · refine awaits_bind (awaits_perform hs) ?_
    rintro (_ | author)
    · exact awaits_throw _
    · exact awaits_pure _
  · refine awaits_bind (awaits_caught (awaits_perform hu) hr fun sqlstate => ?_) ?_
    · by_cases h : sqlstate = some uniqueViolation <;> simp only [h, if_true, if_false] <;> trivial
    · rintro (_ | author)
      · exact awaits_throw _
      · exact awaits_bind (awaits_perform hc) fun _ => awaits_pure _

theorem awaits_deleteAuthor {id : Uuid} (hd : P (.deleteAuthor id)) (hr : P .rollback)
    (hc : P .commit) : Awaits P (deleteAuthor id) := by
  refine awaits_bind (awaits_caught ?_ hr fun sqlstate => ?_) ?_
  · exact awaits_bind (awaits_perform hd) fun _ => awaits_bind (awaits_perform hc) fun _ =>
      awaits_pure _
  · by_cases h : sqlstate = some fkViolation <;> simp only [h, if_true, if_false] <;> trivial
  · rintro (_ | _)
    · exact awaits_throw _
    · exact awaits_pure _

theorem awaits_seedInitialMessage (hl : P (.advisoryXactLock seedLockKey))
    (hn : P .countMessages) (hu : P (.upsertAuthor (text "system") (text systemEmail)))
    (ha : P (.selectAuthorIds systemEmail))
    (hi : ∀ a, P (.insertMessage (text welcomeTitle) (text welcomeContent) a)) (hr : P .rollback)
    (hc : P .commit) : Awaits P seedInitialMessage := by
  refine awaits_tryCatch (awaits_bind ?_ fun _ => awaits_bind (awaits_perform hc) fun _ =>
    awaits_pure _) fun exc => awaits_bind (awaits_perform hr) fun _ => awaits_throw _
  refine awaits_bind (awaits_perform hl) fun _ => awaits_bind (awaits_perform hn) fun count => ?_
  by_cases h : count > 0
  · rw [if_pos h]; exact awaits_pure _
  · rw [if_neg h]
    refine awaits_bind (awaits_perform hu) fun _ => awaits_bind (awaits_perform ha) ?_
    rintro (_ | ⟨a, _ | ⟨b, rest⟩⟩)
    · exact awaits_throw _
    · exact awaits_bind (awaits_perform (hi a)) fun _ => awaits_pure _
    · exact awaits_throw _

/-- The order in which the service functions await their effects. -/
def rank : Effect → ℕ
  | .cacheGet _ | .advisoryXactLock _ => 0
  | .selectAuthor _ | .selectAuthors _ _ | .selectMessages _ _ => 1
  | .selectMessagesOf _ | .countAuthors | .countMessages => 2
  | .upsertAuthor _ _ => 3
  | .selectAuthorIds _ => 4
  | .insertAuthor _ _ | .updateAuthor _ _ _ | .deleteAuthor _ | .insertMessage _ _ _
  | .updateMessage _ _ _ _ | .deleteMessage _ => 5
  | .selectMessage _ => 6
  | .commit => 7
  | .rollback => 8
  | .cacheEvict _ => 9
  | .selectMessageId _ => 10
  | .cacheSet _ _ => 11

theorem climbs_await {α : Type} {n : ℕ} {e : Effect} {k : Reply e → Program Effect Reply α}
    (h : n ≤ rank e) (herr : ∀ exc, (k (.error exc)).Climbs rank (rank e + 1))
    (hok : ∀ a, (k (.ok a)).Climbs rank (rank e + 1)) : (Program.await e k).Climbs rank n := by
  refine ⟨h, ?_⟩
  rintro (exc | a)
  · exact herr exc
  · exact hok a

end Functions

section Bodies

variable [JsonCodec] {P : Effect → Prop}

theorem awaits_getMessage {m : Uuid} (hg : P (.cacheGet m.str)) (hl : P (.selectMessage m))
    (hs : ∀ v, P (.cacheSet m.str v)) : Awaits P (getMessage m) := by
  refine awaits_bind (awaits_perform hg) ?_
  rintro (_ | v)
  · refine awaits_bind (awaits_load hl) ?_
    rintro (_ | out)
    · exact awaits_throw _
    · exact awaits_bind (awaits_perform (hs _)) fun _ => awaits_pure _
  · exact awaits_validated _

/-- Requests that only read. -/
def Reading : Request → Prop
  | .listMessages _ _ | .getMessage _ | .listAuthors _ _ | .getAuthor _ _ => True
  | _ => False

theorem reading_silent {q : Request} (h : Reading q) : (body q).Only Silent := by
  cases q with
  | listMessages limit offset =>
    exact awaits_bind (awaits_listMessages trivial trivial) fun _ => awaits_pure _
  | getMessage m =>
    exact awaits_bind (awaits_getMessage trivial trivial fun _ => trivial) fun _ => awaits_pure _
  | listAuthors limit offset =>
    exact awaits_bind (awaits_listAuthors trivial trivial) fun _ => awaits_pure _
  | getAuthor id inc =>
    exact awaits_bind (awaits_getAuthor trivial trivial) fun _ => awaits_pure _
  | createMessage | updateMessage | deleteMessage | createAuthor | updateAuthor | deleteAuthor
  | seedInitialMessage => exact h.elim

/-- Only `get_message` writes into the cache. -/
theorem never_caches {q : Request} (h : ∀ m, q ≠ .getMessage m) :
    (body q).Only fun e => ∀ k v, e ≠ .cacheSet k v := by
  cases q with
  | getMessage m => exact absurd rfl (h m)
  | listMessages limit offset =>
    exact awaits_bind (awaits_listMessages (by simp) (by simp)) fun _ => awaits_pure _
  | listAuthors limit offset =>
    exact awaits_bind (awaits_listAuthors (by simp) (by simp)) fun _ => awaits_pure _
  | getAuthor id inc =>
    exact awaits_bind (awaits_getAuthor (by simp) (by simp)) fun _ => awaits_pure _
  | createMessage p =>
    exact awaits_bind (awaits_createMessage (by simp) (by simp) (by simp) (by simp))
      fun _ => awaits_pure _
  | updateMessage m p =>
    exact awaits_bind (awaits_updateMessage (by simp) (by simp) (by simp) (by simp) (by simp)
      (by simp)) fun _ => awaits_pure _
  | deleteMessage m =>
    exact awaits_bind (awaits_deleteMessage (by simp) (by simp) (by simp)) fun _ => awaits_pure _
  | createAuthor p =>
    exact awaits_bind (awaits_createAuthor (by simp) (by simp) (by simp)) fun _ => awaits_pure _
  | updateAuthor id p =>
    exact awaits_bind (awaits_updateAuthor (by simp) (by simp) (by simp) (by simp))
      fun _ => awaits_pure _
  | deleteAuthor id =>
    exact awaits_bind (awaits_deleteAuthor (by simp) (by simp) (by simp)) fun _ => awaits_pure _
  | seedInitialMessage =>
    exact awaits_bind (awaits_seedInitialMessage (by simp) (by simp) (by simp) (by simp)
      (by simp) (by simp) (by simp)) fun _ => awaits_pure _

/-- A call of the API writes nothing before its one statement of rank 5. -/
theorem silent_before {q : Request} (h : q ≠ .seedInitialMessage) :
    (body q).Only fun e => rank e < 5 → Silent e := by
  cases q with
  | seedInitialMessage => exact absurd rfl h
  | getMessage m =>
    exact awaits_bind (awaits_getMessage (fun _ => trivial) (by simp [rank]) (by simp [rank]))
      fun _ => awaits_pure _
  | listMessages limit offset =>
    exact awaits_bind (awaits_listMessages (fun _ => trivial) (fun _ => trivial))
      fun _ => awaits_pure _
  | listAuthors limit offset =>
    exact awaits_bind (awaits_listAuthors (fun _ => trivial) (fun _ => trivial))
      fun _ => awaits_pure _
  | getAuthor id inc =>
    exact awaits_bind (awaits_getAuthor (fun _ => trivial) (fun _ => trivial))
      fun _ => awaits_pure _
  | createMessage p =>
    exact awaits_bind (awaits_createMessage (fun _ => trivial) (by simp [rank]) (by simp [rank])
      (by simp [rank])) fun _ => awaits_pure _
  | updateMessage m p =>
    exact awaits_bind (awaits_updateMessage (by simp [rank]) (by simp [rank]) (by simp [rank])
      (by simp [rank]) (by simp [rank]) (by simp [rank])) fun _ => awaits_pure _
  | deleteMessage m =>
    exact awaits_bind (awaits_deleteMessage (by simp [rank]) (by simp [rank]) (by simp [rank]))
      fun _ => awaits_pure _
  | createAuthor p =>
    exact awaits_bind (awaits_createAuthor (by simp [rank]) (by simp [rank]) (by simp [rank]))
      fun _ => awaits_pure _
  | updateAuthor id p =>
    exact awaits_bind (awaits_updateAuthor (fun _ => trivial) (by simp [rank]) (by simp [rank])
      (by simp [rank])) fun _ => awaits_pure _
  | deleteAuthor id =>
    exact awaits_bind (awaits_deleteAuthor (by simp [rank]) (by simp [rank]) (by simp [rank]))
      fun _ => awaits_pure _

/-- Setting the cache is the last thing a call does. -/
theorem caches_last (q : Request) : (body q).Last fun e => ∃ k v, e = .cacheSet k v := by
  by_cases hq : ∃ m, q = .getMessage m
  swap
  · refine last_of_only ?_
    have honly := never_caches fun m hm => hq ⟨m, hm⟩
    simpa only [not_exists] using honly
  obtain ⟨m, rfl⟩ := hq
  refine ⟨by simp, ?_⟩
  rintro (exc | (_ | text))
  · trivial
  · refine ⟨by simp, ?_⟩
    rintro (exc | (_ | ⟨row, author⟩))
    · trivial
    · trivial
    · cases author with
      | none => trivial
      | some author =>
        refine ⟨fun _ r => ?_, fun r => ?_⟩
        · cases r with
          | error exc => exact ⟨_, rfl⟩
          | ok _ => exact ⟨_, rfl⟩
        · cases r with
          | error exc => trivial
          | ok _ => trivial
  · change Program.Last _ (Program.bind (validated (modelValidateJson text))
      (ExceptT.bindCont fun out => pure (.message out)) : Program Effect Reply Outcome)
    cases modelValidateJson text with
    | none => trivial
    | some out => trivial

omit [JsonCodec] in
/-- An `except IntegrityError` clause awaits the rollback at most. -/
theorem caught_climbs {α β : Type} {n : ℕ} (hn : n ≤ rank .rollback) (violation : String)
    (translated exc : Exc) (f : α → Service β) (g : β → Service Result) :
    (Program.bind (Program.bind (match exc with
      | .integrityError sqlstate => (do
          perform .rollback
          if sqlstate = some violation then throw translated
          throw (.integrityError sqlstate) : Service α)
      | exc => (throw exc : Service α)) (ExceptT.bindCont f)) (ExceptT.bindCont g) :
        Program Effect Reply Outcome).Climbs rank n := by
  cases exc with
  | integrityError sqlstate =>
    refine climbs_await hn (fun _ => trivial) fun _ => ?_
    by_cases h : sqlstate = some violation
    · rw [if_pos h]
      trivial
    · rw [if_neg h]
      trivial
  | notFoundError | conflictError | dataError | noResultFound | assertionError
  | validationError | other => trivial

omit [JsonCodec] in
/-- Whatever raises in a transaction is followed by the rollback only. -/
theorem rolled_climbs {α : Type} {n : ℕ} (hn : n ≤ rank .rollback)
    (f : α → Service Result) (exc : Exc) :
    (Program.bind (do perform .rollback; throw exc : Service α) (ExceptT.bindCont f) :
      Program Effect Reply Outcome).Climbs rank n :=
  climbs_await hn (fun _ => trivial) fun _ => trivial

/-- Every service function awaits its effects in the order of their ranks. -/
theorem body_climbs (q : Request) : (body q).Climbs rank 0 := by
  cases q with
  | listMessages limit offset =>
    refine climbs_await (Nat.zero_le _) (fun _ => trivial) fun rows => ?_
    refine climbs_await (by simp [rank]) (fun _ => trivial) fun total => ?_
    change Program.Climbs _ _ (Program.bind (Program.bind
      (validated (rows.mapM fun r => MessageOut.ofRow r.1 r.2))
      (ExceptT.bindCont fun items => pure (⟨items, total⟩ : Page MessageOut)))
      (ExceptT.bindCont fun page => pure (.messages page)) : Program Effect Reply Outcome)
    cases rows.mapM fun r => MessageOut.ofRow r.1 r.2 with
    | none => trivial
    | some items => trivial
  | getMessage m =>
    refine climbs_await (Nat.zero_le _) (fun _ => trivial) ?_
    rintro (_ | text)
    · refine climbs_await (by simp [rank]) (fun _ => trivial) ?_
      rintro (_ | ⟨row, _ | author⟩)
      · trivial
      · trivial
      · exact climbs_await (by simp [rank]) (fun _ => trivial) fun _ => trivial
    · change Program.Climbs _ _ (Program.bind (validated (modelValidateJson text))
        (ExceptT.bindCont fun out => pure (.message out)) : Program Effect Reply Outcome)
      cases modelValidateJson text with
      | none => trivial
      | some out => trivial
  | createMessage p =>
    refine climbs_await (Nat.zero_le _) (fun _ => trivial) ?_
    rintro (_ | author)
    · trivial
    refine climbs_await (by simp [rank]) ?_ fun row => ?_
    · exact fun exc => caught_climbs (by simp [rank]) _ _ exc _ _
    · exact climbs_await (by simp [rank]) (fun _ => trivial) fun _ => trivial
  | updateMessage m p =>
    refine climbs_await (Nat.zero_le _) (fun _ => trivial) ?_
    rintro (_ | _)
    · refine climbs_await (by simp [rank]) (fun _ => trivial) fun _ => ?_
      refine climbs_await (by simp [rank]) (fun _ => trivial) fun _ => ?_
      refine climbs_await (by simp [rank]) (fun _ => trivial) ?_
      rintro (_ | _)
      · trivial
      · trivial
    · refine climbs_await (by simp [rank]) (fun _ => trivial) ?_
      rintro (_ | ⟨row, _ | author⟩)
      · refine climbs_await (by simp [rank]) (fun _ => trivial) fun _ => ?_
        exact climbs_await (by simp [rank]) (fun _ => trivial) fun _ => trivial
      · trivial
      · refine climbs_await (by simp [rank]) (fun _ => trivial) fun _ => ?_
        exact climbs_await (by simp [rank]) (fun _ => trivial) fun _ => trivial
  | deleteMessage m =>
    refine climbs_await (Nat.zero_le _) (fun _ => trivial) fun deleted => ?_
    refine climbs_await (by simp [rank]) (fun _ => trivial) fun _ => ?_
    refine climbs_await (by simp [rank]) (fun _ => trivial) fun _ => ?_
    cases deleted with
    | none => trivial
    | some _ => trivial
  | listAuthors limit offset =>
    refine climbs_await (Nat.zero_le _) (fun _ => trivial) fun rows => ?_
    exact climbs_await (by simp [rank]) (fun _ => trivial) fun total => trivial
  | getAuthor id inc =>
    refine climbs_await (Nat.zero_le _) (fun _ => trivial) ?_
    rintro (_ | author)
    · trivial
    cases inc with
    | false => trivial
    | true => exact climbs_await (by simp [rank]) (fun _ => trivial) fun _ => trivial
  | createAuthor p =>
    refine climbs_await (Nat.zero_le _) ?_ fun author => ?_
    · exact fun exc => caught_climbs (by simp [rank]) _ _ exc _ _
    · exact climbs_await (by simp [rank]) (fun _ => trivial) fun _ => trivial
  | updateAuthor id p =>
    simp only [body, updateAuthor]
    split
    · refine climbs_await (Nat.zero_le _) (fun _ => trivial) ?_
      rintro (_ | author)
      · trivial
      · trivial
    · refine climbs_await (Nat.zero_le _) ?_ ?_
      · exact fun exc => caught_climbs (by simp [rank]) _ _ exc _ _
      · rintro (_ | author)
        · trivial
        · exact climbs_await (by simp [rank]) (fun _ => trivial) fun _ => trivial
  | deleteAuthor id =>
    refine climbs_await (Nat.zero_le _) ?_ fun deleted => ?_
    · exact fun exc => caught_climbs (by simp [rank]) _ _ exc _ _
    · refine climbs_await (by simp [rank]) ?_ fun _ => ?_
      · exact fun exc => caught_climbs (by simp [rank]) _ _ exc _ _
      · cases deleted with
        | none => trivial
        | some _ => trivial
  | seedInitialMessage =>
    refine climbs_await (Nat.zero_le _) (rolled_climbs (by simp [rank]) _) fun _ => ?_
    refine climbs_await (by simp [rank]) (rolled_climbs (by simp [rank]) _) ?_
    rintro (_ | count)
    · refine climbs_await (by simp [rank]) (rolled_climbs (by simp [rank]) _) fun _ => ?_
      refine climbs_await (by simp [rank]) (rolled_climbs (by simp [rank]) _) ?_
      rintro (_ | ⟨authorId, _ | ⟨other, rest⟩⟩)
      · exact climbs_await (by simp [rank]) (fun _ => trivial) fun _ => trivial
      · refine climbs_await (by simp [rank]) (rolled_climbs (by simp [rank]) _) fun _ => ?_
        exact climbs_await (by simp [rank]) (rolled_climbs (by simp [rank]) _) fun _ => trivial
      · exact climbs_await (by simp [rank]) (fun _ => trivial) fun _ => trivial
    · exact climbs_await (by simp [rank]) (rolled_climbs (by simp [rank]) _) fun _ => trivial

end Bodies

end Footprints
