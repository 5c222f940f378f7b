import MessageService.Library.LockTables
import MessageService.Schemas

/-! The shared store: Postgres in READ COMMITTED and the Hazelcast map.
A session's uncommitted writes are kept apart from the committed tables until its commit.
A statement is one step: it sees the committed rows and its own writes, takes its row and
index locks or waits for their holders, and is evaluated on the rows it has then. -/
namespace Postgres

open Models Schemas KeyedTables LockTables Texts

/-- What a lock can be on: a row, an entry of the unique e-mail index, an advisory key. -/
inductive Resource where
  | author (id : Uuid)
  | message (id : Uuid)
  | email (e : String)
  | advisory (key : ℕ)
  deriving DecidableEq, Repr

/-- Row lock modes: `FOR KEY SHARE`, `FOR NO KEY UPDATE`, `FOR UPDATE`. -/
inductive LockMode where
  | keyShare | noKeyUpdate | update
  deriving DecidableEq, Repr

instance : Modes LockMode where
  conflicts
    | .keyShare, .update | .update, .keyShare => true
    | .keyShare, _ | _, .keyShare => false
    | _, _ => true
  symm a b := by cases a <;> cases b <;> rfl

/-- Column defaults of an inserted row: `uuid4()` and `now()`. -/
structure Fresh where
  id : Uuid
  now : Datetime
  deriving DecidableEq, Repr

structure World where
  db : Db
  pending : ℕ → List Write
  locks : LockTable ℕ Resource LockMode
  /-- Ids already given to an INSERT. -/
  issued : List Uuid
  cache : String → Option String

def World.ofDb (db : Db) : World :=
  ⟨db, fun _ => [], .empty,
    db.authors.rows.map Author.id ++ db.messages.rows.map Message.id, fun _ => none⟩

inductive Exc where
  | notFoundError (detail : String)
  | conflictError (detail : String)
  | integrityError (sqlstate : Option String)
  | dataError
  | noResultFound
  | assertionError
  | validationError
  | other (reason : String)
  deriving DecidableEq, Repr

/-- `UNIQUE_VIOLATION` and `FK_VIOLATION` -/
def uniqueViolation : String := "23505"
def fkViolation : String := "23503"

/-- Everything a service function awaits: SQL statements, transaction ends, cache calls. -/
inductive Effect where
  | selectAuthor (id : Uuid)
  | selectMessagesOf (authorId : Uuid)
  | selectAuthors (limit offset : ℕ)
  | countAuthors
  | insertAuthor (name email : Text)
  | updateAuthor (id : Uuid) (name email : Option Text)
  | deleteAuthor (id : Uuid)
  | selectMessage (id : Uuid)
  | selectMessageId (id : Uuid)
  | selectMessages (limit offset : ℕ)
  | countMessages
  | insertMessage (title content : Text) (authorId : Uuid)
  | updateMessage (id : Uuid) (version : ℕ) (content : Text) (title : Option Text)
  | deleteMessage (id : Uuid)
  | advisoryXactLock (key : ℕ)
  | upsertAuthor (name email : Text)
  | selectAuthorIds (email : String)
  | commit
  | rollback
  | cacheGet (key : String)
  | cacheSet (key value : String)
  | cacheEvict (key : String)
  deriving DecidableEq, Repr

abbrev Effect.Answer : Effect → Type
  | .selectAuthor _ => Option Author
  | .selectMessagesOf _ => List Message
  | .selectAuthors _ _ => List Author
  | .countAuthors => ℕ
  | .insertAuthor _ _ => Author
  | .updateAuthor _ _ _ => Option Author
  | .deleteAuthor _ => Option Uuid
  | .selectMessage _ => Option (Message × Option Author)
  | .selectMessageId _ => Option Uuid
  | .selectMessages _ _ => List (Message × Option Author)
  | .countMessages => ℕ
  | .insertMessage _ _ _ => Message
  | .updateMessage _ _ _ _ => Option Uuid
  | .deleteMessage _ => Option Uuid
  | .selectAuthorIds _ => List Uuid
  | .cacheGet _ => Option String
  | _ => Unit

abbrev Reply (e : Effect) : Type := Except Exc e.Answer

section Sessions

/-- What a statement of session `c` sees: the committed rows and its own writes. -/
def World.view (w : World) (c : ℕ) : Db := w.db.applyAll (w.pending c)

/-- The locks requested for session `c`, or nothing while one of them has to be waited for. -/
def World.lock? (w : World) (c : ℕ) (rs : List (Resource × LockMode)) : Option World :=
  (w.locks.acquireAll (rs.map fun r => ⟨c, r.1, r.2⟩)).map fun t => { w with locks := t }

def World.write (w : World) (c : ℕ) (x : Write) : World :=
  { w with pending := Function.update w.pending c (w.pending c ++ [x]) }

def World.issue (w : World) (id : Uuid) : World := { w with issued := id :: w.issued }

/-- Also the end of a statement that fails: Postgres drops what its transaction has written and
releases its locks at once. -/
def World.rollback (w : World) (c : ℕ) : World :=
  { w with pending := Function.update w.pending c [], locks := w.locks.release c }

def World.commit (w : World) (c : ℕ) : World := { w with db := w.view c }.rollback c

end Sessions

section Frames

/-! What each update of the store leaves alone. -/

variable (w : World) (c d : ℕ)

@[simp] theorem write_db (x : Write) : (w.write c x).db = w.db := rfl
@[simp] theorem write_locks (x : Write) : (w.write c x).locks = w.locks := rfl
@[simp] theorem write_issued (x : Write) : (w.write c x).issued = w.issued := rfl
@[simp] theorem write_cache (x : Write) : (w.write c x).cache = w.cache := rfl
@[simp] theorem issue_db (id : Uuid) : (w.issue id).db = w.db := rfl
@[simp] theorem issue_pending (id : Uuid) : (w.issue id).pending = w.pending := rfl
@[simp] theorem issue_locks (id : Uuid) : (w.issue id).locks = w.locks := rfl
@[simp] theorem issue_issued (id : Uuid) : (w.issue id).issued = id :: w.issued := rfl
@[simp] theorem issue_cache (id : Uuid) : (w.issue id).cache = w.cache := rfl
@[simp] theorem rollback_db : (w.rollback c).db = w.db := rfl
@[simp] theorem rollback_locks : (w.rollback c).locks = w.locks.release c := rfl
@[simp] theorem rollback_issued : (w.rollback c).issued = w.issued := rfl
@[simp] theorem rollback_cache : (w.rollback c).cache = w.cache := rfl
@[simp] theorem commit_db : (w.commit c).db = w.view c := rfl
@[simp] theorem commit_locks : (w.commit c).locks = w.locks.release c := rfl
@[simp] theorem commit_issued : (w.commit c).issued = w.issued := rfl
@[simp] theorem commit_cache : (w.commit c).cache = w.cache := rfl

theorem write_pending (x : Write) :
    (w.write c x).pending d = if d = c then w.pending c ++ [x] else w.pending d := by
  simp [World.write, Function.update_apply]

theorem rollback_pending : (w.rollback c).pending d = if d = c then [] else w.pending d := by
  simp [World.rollback, Function.update_apply]

theorem commit_pending : (w.commit c).pending d = if d = c then [] else w.pending d := by
  simp [World.commit, World.rollback, Function.update_apply]

variable {w c d}

/-- Taking locks changes the lock table only. -/
theorem lock?_frame {rs : List (Resource × LockMode)} {w' : World} (h : w.lock? c rs = some w') :
    w'.db = w.db ∧ w'.pending = w.pending ∧ w'.issued = w.issued ∧ w'.cache = w.cache := by
  obtain ⟨t, _, rfl⟩ := Option.map_eq_some_iff.mp h
  exact ⟨rfl, rfl, rfl, rfl⟩

theorem lock?_holds {rs : List (Resource × LockMode)} {w' : World} (h : w.lock? c rs = some w')
    (e : ℕ) (r : Resource) (m : LockMode) :
    w'.locks.Holds e r m ↔ (e = c ∧ (r, m) ∈ rs) ∨ w.locks.Holds e r m := by
  obtain ⟨t, ht, rfl⟩ := Option.map_eq_some_iff.mp h
  rw [acquireAll_holds ht]
  simp only [List.mem_map, Lock.mk.injEq, Prod.exists]
  constructor
  · rintro (⟨r', m', hm, rfl, rfl, rfl⟩ | hh)
    · exact Or.inl ⟨rfl, hm⟩
    · exact Or.inr hh
  · rintro (⟨rfl, hm⟩ | hh)
    · exact Or.inl ⟨r, m, hm, rfl, rfl, rfl⟩
    · exact Or.inr hh

theorem lock?_taken {rs : List (Resource × LockMode)} {w' : World} (h : w.lock? c rs = some w')
    {r : Resource} {m : LockMode} (hr : (r, m) ∈ rs) : w'.locks.Holds c r m :=
  (lock?_holds h c r m).mpr (Or.inl ⟨rfl, hr⟩)

theorem lock?_kept {rs : List (Resource × LockMode)} {w' : World} (h : w.lock? c rs = some w')
    {e : ℕ} {r : Resource} {m : LockMode} (hh : w.locks.Holds e r m) : w'.locks.Holds e r m :=
  (lock?_holds h e r m).mpr (Or.inr hh)

theorem lock?_view {rs : List (Resource × LockMode)} {w' : World} (h : w.lock? c rs = some w')
    (d : ℕ) : w'.view d = w.view d := by
  obtain ⟨hdb, hp, _⟩ := lock?_frame h
  rw [World.view, hdb, hp, World.view]

theorem view_message (id : Uuid) : (w.view c).messages.lookup id =
    (lastMessage (w.pending c) id).getD (w.db.messages.lookup id) :=
  applyAll_message _ _ _

theorem view_author (id : Uuid) : (w.view c).authors.lookup id =
    (lastAuthor (w.pending c) id).getD (w.db.authors.lookup id) :=
  applyAll_author _ _ _

/-- A row a session sees is committed or its own. -/
theorem viewed_row {id : Uuid} {m : Message} (h : (w.view c).messages.lookup id = some m) :
    w.db.messages.lookup id = some m ∨ .putMessage m ∈ w.pending c := by
  rw [view_message] at h
  cases hlast : lastMessage (w.pending c) id with
  | none =>
    rw [hlast] at h
    exact .inl h
  | some r =>
    rw [hlast] at h
    obtain rfl : r = some m := h
    obtain ⟨x, hx, hxr⟩ := lastMessage_written hlast
    rcases message?_some hxr with ⟨m', rfl, _, hm⟩ | ⟨_, hnone⟩
    · obtain rfl := Option.some.inj hm
      exact .inr hx
    · cases hnone

theorem viewed_author_row {id : Uuid} {a : Author} (h : (w.view c).authors.lookup id = some a) :
    w.db.authors.lookup id = some a ∨ .putAuthor a ∈ w.pending c := by
  rw [view_author] at h
  cases hlast : lastAuthor (w.pending c) id with
  | none =>
    rw [hlast] at h
    exact .inl h
  | some r =>
    rw [hlast] at h
    obtain rfl : r = some a := h
    obtain ⟨x, hx, hxr⟩ := lastAuthor_written hlast
    rcases author?_some hxr with ⟨a', rfl, _, ha⟩ | ⟨_, hnone⟩
    · obtain rfl := Option.some.inj ha
      exact .inr hx
    · cases hnone

theorem view_of_pending_nil (h : w.pending c = []) : w.view c = w.db := by
  simp [World.view, h]

end Frames

section Statements

variable (c : ℕ) (f : Fresh) (w : World)

abbrev Answered (e : Effect) : Type := Option (Reply e × World)

/-- An INSERT INTO authors waits for an uncommitted entry of its e-mail. A text that the driver
cannot encode fails here like one the server refuses. -/
def execInsertAuthor (name email : Text) : Answered (.insertAuthor name email) :=
  if f.id ∈ w.issued then none
  else if ¬(Storable nameWidth name ∧ Storable emailWidth email) then
    some (.error .dataError, w.rollback c)
  else do
    let w' ← w.lock? c [(.email (string email), .update), (.author f.id, .update)]
    if (w.view c).emailTaken (string email) then
      return (.error (.integrityError uniqueViolation), w.rollback c)
    let a : Author := ⟨f.id, string name, string email, f.now⟩
    return (.ok a, (w'.issue f.id).write c (.putAuthor a))

/-- `ON CONFLICT (email) DO NOTHING` -/
def execUpsertAuthor (name email : Text) : Answered (.upsertAuthor name email) :=
  if f.id ∈ w.issued then none
  else if ¬(Storable nameWidth name ∧ Storable emailWidth email) then
    some (.error .dataError, w.rollback c)
  else do
    let w' ← w.lock? c [(.email (string email), .update), (.author f.id, .update)]
    if (w.view c).emailTaken (string email) then
      return (.ok (), w)
    return (.ok (), (w'.issue f.id).write c
      (.putAuthor ⟨f.id, string name, string email, f.now⟩))

/-- Only a changed e-mail is a key change, which takes the row `FOR UPDATE` and an entry of
the index; the entry it vacates is waited for too. -/
def execUpdateAuthor (id : Uuid) (name email : Option Text) :
    Answered (.updateAuthor id name email) :=
  if ¬((∀ n ∈ name, Storable nameWidth n) ∧ ∀ e ∈ email, Storable emailWidth e) then
    some (.error .dataError, w.rollback c)
  else
    match (w.view c).authors.lookup id with
    | none => some (.ok none, w)
    | some row =>
      let row' := { row with name := (name.map string).getD row.name,
                             email := (email.map string).getD row.email }
      if row'.email = row.email then do
        let w' ← w.lock? c [(.author id, .noKeyUpdate)]
        return (.ok (some row'), w'.write c (.putAuthor row'))
      else do
        let w' ← w.lock? c [(.author id, .update), (.email row'.email, .update),
          (.email row.email, .update)]
        if (w.view c).emailTaken row'.email then
          return (.error (.integrityError uniqueViolation), w.rollback c)
        return (.ok (some row'), w'.write c (.putAuthor row'))

/-- The FK check of a DELETE reads the referencing rows `FOR KEY SHARE`: it waits while every
one of them is being deleted by an uncommitted transaction. -/
def execDeleteAuthor (id : Uuid) : Answered (.deleteAuthor id) :=
  match (w.view c).authors.lookup id with
  | none => some (.ok none, w)
  | some row => do
    let w' ← w.lock? c [(.author id, .update), (.email row.email, .update)]
    if (w.view c).referencing id = [] then
      return (.ok (some id), w'.write c (.dropAuthor id))
    if ∀ m ∈ (w.view c).referencing id, w.locks.Blocks ⟨c, .message m.id, .keyShare⟩ then none
    else return (.error (.integrityError fkViolation), w.rollback c)

/-- The FK check of an INSERT takes the author row `FOR KEY SHARE`. -/
def execInsertMessage (title content : Text) (authorId : Uuid) :
    Answered (.insertMessage title content authorId) :=
  if f.id ∈ w.issued then none
  else if ¬(Storable titleWidth title ∧ Storable contentWidth content) then
    some (.error .dataError, w.rollback c)
  else
    match (w.view c).authors.lookup authorId with
    | none => some (.error (.integrityError fkViolation), w.rollback c)
    | some _ => do
      let w' ← w.lock? c [(.author authorId, .keyShare), (.message f.id, .update)]
      let m : Message := ⟨f.id, string title, string content, authorId, f.now, 0⟩
      return (.ok m, (w'.issue f.id).write c (.putMessage m))

/-- `UPDATE messages SET ... WHERE id = :id AND version = :version RETURNING id`. A row that
matches and is locked by another transaction is waited for and then checked again. -/
def execUpdateMessage (id : Uuid) (version : ℕ) (content : Text) (title : Option Text) :
    Answered (.updateMessage id version content title) :=
  if ¬((∀ t ∈ title, Storable titleWidth t) ∧ Storable contentWidth content) then
    some (.error .dataError, w.rollback c)
  else
    match (w.view c).messages.lookup id with
    | none => some (.ok none, w)
    | some row =>
      if row.version ≠ version then some (.ok none, w)
      else do
        let w' ← w.lock? c [(.message id, .noKeyUpdate)]
        if row.version + 1 > maxInt4 then return (.error .dataError, w.rollback c)
        return (.ok (some id), w'.write c (.putMessage
          { row with content := string content, version := row.version + 1,
                     title := (title.map string).getD row.title }))

def execDeleteMessage (id : Uuid) : Answered (.deleteMessage id) :=
  match (w.view c).messages.lookup id with
  | none => some (.ok none, w)
  | some _ => do
    let w' ← w.lock? c [(.message id, .update)]
    return (.ok (some id), w'.write c (.dropMessage id))

def execAdvisoryXactLock (key : ℕ) : Answered (.advisoryXactLock key) := do
  let w' ← w.lock? c [(.advisory key, .update)]
  return (.ok (), w')

/-- One awaited step that does not fail for a reason outside the database; nothing while
it has to wait. -/
def execute : (e : Effect) → Answered e
  | .selectAuthor id => some (.ok ((w.view c).authors.lookup id), w)
  | .selectMessagesOf id => some (.ok ((w.view c).messagesOf id), w)
  | .selectAuthors limit offset =>
    some (.ok (((w.view c).sortedAuthors.drop offset).take limit), w)
  | .countAuthors => some (.ok (w.view c).authors.rows.length, w)
  | .insertAuthor name email => execInsertAuthor c f w name email
  | .updateAuthor id name email => execUpdateAuthor c w id name email
  | .deleteAuthor id => execDeleteAuthor c w id
  | .selectMessage id =>
    some (.ok (((w.view c).messages.lookup id).map (w.view c).withAuthor), w)
  | .selectMessageId id => some (.ok (((w.view c).messages.lookup id).map (·.id)), w)
  | .selectMessages limit offset =>
    some (.ok ((((w.view c).sortedMessages.drop offset).take limit).map
      (w.view c).withAuthor), w)
  | .countMessages => some (.ok (w.view c).messages.rows.length, w)
  | .insertMessage title content authorId => execInsertMessage c f w title content authorId
  | .updateMessage id version content title => execUpdateMessage c w id version content title
  | .deleteMessage id => execDeleteMessage c w id
  | .advisoryXactLock key => execAdvisoryXactLock c w key
  | .upsertAuthor name email => execUpsertAuthor c f w name email
  | .selectAuthorIds email =>
    some (.ok (((w.view c).authors.rows.filter (·.email = email)).map Author.id), w)
  | .commit => some (.ok (), w.commit c)
  | .rollback => some (.ok (), w.rollback c)
  | .cacheGet key => some (.ok (w.cache key), w)
  | .cacheSet key value =>
    some (.ok (), { w with cache := Function.update w.cache key (some value) })
  | .cacheEvict key => some (.ok (), { w with cache := Function.update w.cache key none })

end Statements

/-- How an awaited step ends: as the store answers, or with an exception raised before or
after its effect took place. -/
inductive Choice where
  | proceed (f : Fresh)
  | raise (exc : Exc)
  | raiseAfter (f : Fresh) (exc : Exc)
  deriving DecidableEq, Repr

def answer (c : ℕ) (e : Effect) (x : Choice) (w : World) : Answered e :=
  match x with
  | .proceed f => execute c f w e
  | .raise exc => some (.error exc, w)
  | .raiseAfter f exc => (execute c f w e).map fun r => (.error exc, r.2)

end Postgres
