import MessageService.Transitions

/-! What each statement answers and what it leaves in its own session.
One lemma for each statement and each kind of answer; the programs above them are only ever
followed through these. -/
namespace Statements

open Models Schemas KeyedTables LockTables Postgres Transitions Texts

/-- Effects that write no row and end no transaction. -/
def Silent : Effect → Prop
  | .insertAuthor _ _ | .updateAuthor _ _ _ | .deleteAuthor _ | .insertMessage _ _ _
  | .updateMessage _ _ _ _ | .deleteMessage _ | .upsertAuthor _ _ | .commit | .rollback => False
  | _ => True

/-- Statements that can fail inside the store. -/
def Fallible : Effect → Prop
  | .insertAuthor _ _ | .updateAuthor _ _ _ | .deleteAuthor _ | .insertMessage _ _ _
  | .updateMessage _ _ _ _ | .upsertAuthor _ _ => True
  | _ => False

variable {c : ℕ} {f : Fresh} {w w' : World}

/-- An answer that is not an exception is the store's own. -/
theorem answer_ok {e : Effect} {x : Choice} {a : e.Answer}
    (h : answer c e x w = some (.ok a, w')) :
    ∃ f, x = .proceed f ∧ execute c f w e = some (.ok a, w') := by
  cases x with
  | proceed f => exact ⟨f, rfl, h⟩
  | raise exc => cases h
  | raiseAfter f exc =>
    obtain ⟨r, _, h⟩ := Option.map_eq_some_iff.mp h
    cases h

theorem silent_pending {e : Effect} {x : Choice} {r : Reply e} (he : Silent e)
    (h : answer c e x w = some (r, w')) : w'.pending = w.pending := by
  have run : ∀ f r, execute c f w e = some (r, w') → w'.pending = w.pending := by
    intro f r h
    cases e with
    | advisoryXactLock key =>
      obtain ⟨u, hu, h⟩ := Option.bind_eq_some_iff.mp (h : execAdvisoryXactLock c w key = _)
      cases h
      exact (lock?_frame hu).2.1
    | selectAuthor | selectMessagesOf | selectAuthors | countAuthors | selectMessage
    | selectMessageId | selectMessages | countMessages | selectAuthorIds | cacheGet | cacheSet
    | cacheEvict => cases h; rfl
    | insertAuthor | updateAuthor | deleteAuthor | insertMessage | updateMessage | deleteMessage
    | upsertAuthor | commit | rollback => exact he.elim
  cases x with
  | proceed f => exact run f r h
  | raise exc => cases h; rfl
  | raiseAfter f exc =>
    obtain ⟨⟨r', u⟩, hu, h⟩ := Option.map_eq_some_iff.mp h
    cases h
    exact run f r' hu

theorem execute_error {e : Effect} {exc : Exc} (h : execute c f w e = some (.error exc, w')) :
    Fallible e := by
  cases e with
  | insertAuthor | updateAuthor | deleteAuthor | insertMessage | updateMessage
  | upsertAuthor => trivial
  | advisoryXactLock key =>
    obtain ⟨u, _, h⟩ := Option.bind_eq_some_iff.mp (h : execAdvisoryXactLock c w key = _)
    cases h
  | deleteMessage id =>
    change execDeleteMessage c w id = _ at h
    unfold execDeleteMessage at h
    split at h
    · cases h
    · obtain ⟨u, _, h⟩ := Option.bind_eq_some_iff.mp h
      cases h
  | selectAuthor | selectMessagesOf | selectAuthors | countAuthors | selectMessage
  | selectMessageId | selectMessages | countMessages | selectAuthorIds | cacheGet | cacheSet
  | cacheEvict | commit | rollback => cases h

section Authors

theorem insertAuthor_ok {name email : Text} {a : Author}
    (h : execInsertAuthor c f w name email = some (.ok a, w')) :
    a = ⟨f.id, string name, string email, f.now⟩ ∧ f.id ∉ w.issued ∧
      ¬(w.view c).emailTaken (string email) ∧ w'.pending c = w.pending c ++ [.putAuthor a] := by
  unfold execInsertAuthor at h
  split at h
  · cases h
  · rename_i hfresh
    split at h
    · cases h
    · obtain ⟨u, hu, h⟩ := Option.bind_eq_some_iff.mp h
      split at h
      · cases h
      · rename_i hfree
        cases h
        refine ⟨rfl, hfresh, hfree, ?_⟩
        rw [write_pending, if_pos rfl, issue_pending, (lock?_frame hu).2.1]

/-- What is stored are the texts, character by character. -/
theorem insertAuthor_stores {name email : Text} {a : Author}
    (h : execInsertAuthor c f w name email = some (.ok a, w')) :
    text a.name = name ∧ text a.email = email := by
  have hrow := (insertAuthor_ok h).1
  unfold execInsertAuthor at h
  split at h
  · cases h
  · split at h
    · cases h
    · rename_i hdata
      obtain ⟨hname, hemail⟩ := not_not.mp hdata
      rw [hrow]
      exact ⟨text_string hname.2.1, text_string hemail.2.1⟩

theorem insertAuthor_error {name email : Text} {exc : Exc}
    (h : execInsertAuthor c f w name email = some (.error exc, w')) :
    w'.pending c = [] ∧
    ((exc = .dataError ∧ ¬(Storable nameWidth name ∧ Storable emailWidth email)) ∨
      (exc = .integrityError uniqueViolation ∧ Representable email ∧
        (w.view c).emailTaken (string email))) := by
  unfold execInsertAuthor at h
  split at h
  · cases h
  · split at h
    · rename_i hdata
      cases h
      exact ⟨by rw [rollback_pending, if_pos rfl], Or.inl ⟨rfl, hdata⟩⟩
    · rename_i hdata
      obtain ⟨u, _, h⟩ := Option.bind_eq_some_iff.mp h
      split at h
      · rename_i htaken
        cases h
        exact ⟨by rw [rollback_pending, if_pos rfl],
          Or.inr ⟨rfl, (not_not.mp hdata).2.2, htaken⟩⟩
      · cases h

theorem upsertAuthor_ok {name email : Text} {a : Unit}
    (h : execUpsertAuthor c f w name email = some (.ok a, w')) :
    ((w.view c).emailTaken (string email) ∧ w' = w) ∨
    (f.id ∉ w.issued ∧ ¬(w.view c).emailTaken (string email) ∧
      w'.pending c = w.pending c ++ [.putAuthor ⟨f.id, string name, string email, f.now⟩]) := by
  unfold execUpsertAuthor at h
  split at h
  · cases h
  · rename_i hfresh
    split at h
    · cases h
    · obtain ⟨u, hu, h⟩ := Option.bind_eq_some_iff.mp h
      split at h
      · rename_i htaken
        cases h
        exact Or.inl ⟨htaken, rfl⟩
      · rename_i hfree
        cases h
        refine Or.inr ⟨hfresh, hfree, ?_⟩
        rw [write_pending, if_pos rfl, issue_pending, (lock?_frame hu).2.1]

theorem upsertAuthor_error {name email : Text} {exc : Exc}
    (h : execUpsertAuthor c f w name email = some (.error exc, w')) :
    w'.pending c = [] ∧ exc = .dataError ∧
      ¬(Storable nameWidth name ∧ Storable emailWidth email) := by
  unfold execUpsertAuthor at h
  split at h
  · cases h
  · split at h
    · rename_i hdata
      cases h
      exact ⟨by rw [rollback_pending, if_pos rfl], rfl, hdata⟩
    · obtain ⟨u, _, h⟩ := Option.bind_eq_some_iff.mp h
      split at h <;> cases h

/-- The row an UPDATE of an author returns and writes. -/
def updatedAuthor (row : Author) (name email : Option Text) : Author :=
  { row with name := (name.map string).getD row.name, email := (email.map string).getD row.email }

/-- The values can be stored, and a changed e-mail is not another author's. -/
def AuthorFits (db : Db) (row : Author) (name email : Option Text) : Prop :=
  ((∀ n ∈ name, Storable nameWidth n) ∧ ∀ e ∈ email, Storable emailWidth e) ∧
    ((updatedAuthor row name email).email = row.email ∨
      ¬db.emailTaken (updatedAuthor row name email).email)

theorem updateAuthor_ok {id : Uuid} {name email : Option Text} {a : Option Author}
    (h : execUpdateAuthor c w id name email = some (.ok a, w')) :
    (a = none ∧ (w.view c).authors.lookup id = none ∧ w' = w) ∨
    ∃ row, (w.view c).authors.lookup id = some row ∧ a = some (updatedAuthor row name email) ∧
      AuthorFits (w.view c) row name email ∧
      w'.pending c = w.pending c ++ [.putAuthor (updatedAuthor row name email)] := by
  unfold execUpdateAuthor at h
  split at h
  · cases h
  · rename_i hdata
    split at h
    · rename_i hnone
      cases h
      exact Or.inl ⟨rfl, hnone, rfl⟩
    · rename_i row hrow
      refine Or.inr ⟨row, hrow, ?_⟩
      dsimp only at h
      split at h
      · rename_i hsame
        obtain ⟨u, hu, h⟩ := Option.bind_eq_some_iff.mp h
        cases h
        refine ⟨rfl, ⟨not_not.mp hdata, Or.inl hsame⟩, ?_⟩
        rw [write_pending, if_pos rfl, (lock?_frame hu).2.1]
        rfl
      · obtain ⟨u, hu, h⟩ := Option.bind_eq_some_iff.mp h
        split at h
        · cases h
        · rename_i hfree
          cases h
          refine ⟨rfl, ⟨not_not.mp hdata, Or.inr hfree⟩, ?_⟩
          rw [write_pending, if_pos rfl, (lock?_frame hu).2.1]
          rfl

theorem updateAuthor_error {id : Uuid} {name email : Option Text} {exc : Exc}
    (h : execUpdateAuthor c w id name email = some (.error exc, w')) :
    w'.pending c = [] ∧
    ((exc = .dataError ∧
        ¬((∀ n ∈ name, Storable nameWidth n) ∧ ∀ e ∈ email, Storable emailWidth e)) ∨
      (exc = .integrityError uniqueViolation ∧ ∃ row e, email = some e ∧
        (w.view c).authors.lookup id = some row ∧ e ≠ text row.email ∧ Representable e ∧
        (w.view c).emailTaken (string e))) := by
  unfold execUpdateAuthor at h
  split at h
  · rename_i hdata
    cases h
    exact ⟨by rw [rollback_pending, if_pos rfl], Or.inl ⟨rfl, hdata⟩⟩
  · rename_i hdata
    split at h
    · cases h
    · rename_i row hrow
      dsimp only at h
      split at h
      · obtain ⟨u, _, h⟩ := Option.bind_eq_some_iff.mp h
        cases h
      · rename_i hne
        obtain ⟨u, _, h⟩ := Option.bind_eq_some_iff.mp h
        split at h
        · rename_i htaken
          cases h
          refine ⟨by rw [rollback_pending, if_pos rfl], Or.inr ⟨rfl, ?_⟩⟩
          cases email with
          | none => exact absurd rfl hne
          | some e =>
            have hplain : Representable e := ((not_not.mp hdata).2 e rfl).2
            refine ⟨row, e, rfl, hrow, ?_, hplain, htaken⟩
            rintro rfl
            exact hne (string_text row.email)
        · cases h

theorem deleteAuthor_ok {id : Uuid} {a : Option Uuid}
    (h : execDeleteAuthor c w id = some (.ok a, w')) :
    (a = none ∧ (w.view c).authors.lookup id = none ∧ w' = w) ∨
    (a = some id ∧ (∃ row, (w.view c).authors.lookup id = some row) ∧
      (w.view c).referencing id = [] ∧ w'.pending c = w.pending c ++ [.dropAuthor id]) := by
  unfold execDeleteAuthor at h
  split at h
  · rename_i hnone
    cases h
    exact Or.inl ⟨rfl, hnone, rfl⟩
  · rename_i row hrow
    obtain ⟨u, hu, h⟩ := Option.bind_eq_some_iff.mp h
    split at h
    · rename_i hrefs
      cases h
      refine Or.inr ⟨rfl, ⟨row, hrow⟩, hrefs, ?_⟩
      rw [write_pending, if_pos rfl, (lock?_frame hu).2.1]
    · split at h <;> cases h

theorem deleteAuthor_error {id : Uuid} {exc : Exc}
    (h : execDeleteAuthor c w id = some (.error exc, w')) :
    w'.pending c = [] ∧ exc = .integrityError fkViolation ∧
      (∃ row, (w.view c).authors.lookup id = some row) ∧ (w.view c).referencing id ≠ [] := by
  unfold execDeleteAuthor at h
  split at h
  · cases h
  · rename_i row hrow
    obtain ⟨u, _, h⟩ := Option.bind_eq_some_iff.mp h
    split at h
    · cases h
    · rename_i hrefs
      split at h
      · cases h
      · cases h
        exact ⟨by rw [rollback_pending, if_pos rfl], rfl, ⟨row, hrow⟩, hrefs⟩

end Authors

section Messages

theorem insertMessage_ok {title content : Text} {authorId : Uuid} {m : Message}
    (h : execInsertMessage c f w title content authorId = some (.ok m, w')) :
    m = ⟨f.id, string title, string content, authorId, f.now, 0⟩ ∧ f.id ∉ w.issued ∧
      (∃ a, (w.view c).authors.lookup authorId = some a) ∧
      w'.pending c = w.pending c ++ [.putMessage m] := by
  unfold execInsertMessage at h
  split at h
  · cases h
  · rename_i hfresh
    split at h
    · cases h
    · split at h
      · cases h
      · rename_i a ha
        obtain ⟨u, hu, h⟩ := Option.bind_eq_some_iff.mp h
        cases h
        refine ⟨rfl, hfresh, ⟨a, ha⟩, ?_⟩
        rw [write_pending, if_pos rfl, issue_pending, (lock?_frame hu).2.1]

theorem insertMessage_stores {title content : Text} {authorId : Uuid} {m : Message}
    (h : execInsertMessage c f w title content authorId = some (.ok m, w')) :
    text m.title = title ∧ text m.content = content := by
  have hrow := (insertMessage_ok h).1
  unfold execInsertMessage at h
  split at h
  · cases h
  · split at h
    · cases h
    · rename_i hdata
      obtain ⟨htitle, hcontent⟩ := not_not.mp hdata
      rw [hrow]
      exact ⟨text_string htitle.2.1, text_string hcontent.2.1⟩

theorem insertMessage_error {title content : Text} {authorId : Uuid} {exc : Exc}
    (h : execInsertMessage c f w title content authorId = some (.error exc, w')) :
    w'.pending c = [] ∧
    ((exc = .dataError ∧ ¬(Storable titleWidth title ∧ Storable contentWidth content)) ∨
      (exc = .integrityError fkViolation ∧ (w.view c).authors.lookup authorId = none)) := by
  unfold execInsertMessage at h
  split at h
  · cases h
  · split at h
    · rename_i hdata
      cases h
      exact ⟨by rw [rollback_pending, if_pos rfl], Or.inl ⟨rfl, hdata⟩⟩
    · split at h
      · rename_i hnone
        cases h
        exact ⟨by rw [rollback_pending, if_pos rfl], Or.inr ⟨rfl, hnone⟩⟩
      · obtain ⟨u, _, h⟩ := Option.bind_eq_some_iff.mp h
        cases h

/-- The row a successful UPDATE writes. -/
def updatedMessage (row : Message) (content : Text) (title : Option Text) : Message :=
  { row with content := string content, version := row.version + 1,
             title := (title.map string).getD row.title }

theorem updateMessage_ok {id : Uuid} {version : ℕ} {content : Text} {title : Option Text}
    {a : Option Uuid}
    (h : execUpdateMessage c w id version content title = some (.ok a, w')) :
    (a = none ∧ w' = w ∧
      ∀ row, (w.view c).messages.lookup id = some row → row.version ≠ version) ∨
    ∃ row, a = some id ∧ (w.view c).messages.lookup id = some row ∧ row.version = version ∧
      row.version + 1 ≤ maxInt4 ∧
      w'.pending c = w.pending c ++ [.putMessage (updatedMessage row content title)] := by
  unfold execUpdateMessage at h
  split at h
  · cases h
  · split at h
    · rename_i hnone
      cases h
      refine Or.inl ⟨rfl, rfl, ?_⟩
      intro row hrow
      rw [hnone] at hrow; cases hrow
    · rename_i row hrow
      split at h
      · rename_i hne
        cases h
        refine Or.inl ⟨rfl, rfl, ?_⟩
        intro row' hrow'
        rw [hrow] at hrow'
        rw [← Option.some.inj hrow']
        exact hne
      · rename_i heq
        obtain ⟨u, hu, h⟩ := Option.bind_eq_some_iff.mp h
        split at h
        · cases h
        · rename_i hle
          cases h
          refine Or.inr ⟨row, rfl, hrow, not_not.mp heq, Nat.le_of_not_lt hle, ?_⟩
          rw [write_pending, if_pos rfl, (lock?_frame hu).2.1]
          rfl

theorem updateMessage_stores {id : Uuid} {version : ℕ} {content : Text} {title : Option Text}
    {a : Option Uuid}
    (h : execUpdateMessage c w id version content title = some (.ok a, w')) :
    (∀ t ∈ title, Storable titleWidth t) ∧ Storable contentWidth content := by
  unfold execUpdateMessage at h
  split at h
  · cases h
  · rename_i hdata
    exact not_not.mp hdata

theorem updateMessage_error {id : Uuid} {version : ℕ} {content : Text} {title : Option Text}
    {exc : Exc} (h : execUpdateMessage c w id version content title = some (.error exc, w')) :
    w'.pending c = [] ∧ exc = .dataError ∧
      (¬((∀ t ∈ title, Storable titleWidth t) ∧ Storable contentWidth content) ∨
        ∃ row, (w.view c).messages.lookup id = some row ∧ row.version = version ∧
          maxInt4 < row.version + 1) := by
  unfold execUpdateMessage at h
  split at h
  · rename_i hdata
    cases h
    exact ⟨by rw [rollback_pending, if_pos rfl], rfl, Or.inl hdata⟩
  · split at h
    · cases h
    · rename_i row hrow
      split at h
      · cases h
      · rename_i heq
        obtain ⟨u, _, h⟩ := Option.bind_eq_some_iff.mp h
        split at h
        · rename_i hgt
          cases h
          exact ⟨by rw [rollback_pending, if_pos rfl], rfl, Or.inr ⟨row, hrow, not_not.mp heq, hgt⟩⟩
        · cases h

theorem deleteMessage_ok {id : Uuid} {a : Option Uuid}
    (h : execDeleteMessage c w id = some (.ok a, w')) :
    (a = none ∧ w' = w ∧ (w.view c).messages.lookup id = none) ∨
    ∃ row, a = some id ∧ (w.view c).messages.lookup id = some row ∧
      w'.pending c = w.pending c ++ [.dropMessage id] := by
  unfold execDeleteMessage at h
  split at h
  · rename_i hnone
    cases h
    exact Or.inl ⟨rfl, rfl, hnone⟩
  · rename_i row hrow
    obtain ⟨u, hu, h⟩ := Option.bind_eq_some_iff.mp h
    cases h
    refine Or.inr ⟨row, rfl, hrow, ?_⟩
    rw [write_pending, if_pos rfl, (lock?_frame hu).2.1]

end Messages

/-- The only exceptions the store itself raises. -/
theorem execute_error_kind {e : Effect} {exc : Exc}
    (h : execute c f w e = some (.error exc, w')) :
    exc = .dataError ∨ ∃ sqlstate, exc = .integrityError sqlstate := by
  have hfall := execute_error h
  cases e with
  | insertAuthor =>
    rcases (insertAuthor_error h).2 with ⟨h, _⟩ | ⟨h, _⟩
    · exact Or.inl h
    · exact Or.inr ⟨_, h⟩
  | updateAuthor =>
    rcases (updateAuthor_error h).2 with ⟨h, _⟩ | ⟨h, _⟩
    · exact Or.inl h
    · exact Or.inr ⟨_, h⟩
  | deleteAuthor => exact Or.inr ⟨_, (deleteAuthor_error h).2.1⟩
  | insertMessage =>
    rcases (insertMessage_error h).2 with ⟨h, _⟩ | ⟨h, _⟩
    · exact Or.inl h
    · exact Or.inr ⟨_, h⟩
  | updateMessage => exact Or.inl (updateMessage_error h).2.1
  | upsertAuthor => exact Or.inl (upsertAuthor_error h).2.1
  | deleteMessage | advisoryXactLock | selectAuthor | selectMessagesOf | selectAuthors
  | countAuthors | selectMessage | selectMessageId | selectMessages | countMessages
  | selectAuthorIds | cacheGet | cacheSet | cacheEvict | commit | rollback => exact hfall.elim

end Statements
