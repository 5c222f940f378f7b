import MessageService.Library.Programs
import MessageService.MessageJson
import MessageService.Postgres

/-! The service functions, one awaited step at a time. -/
namespace Services

open Programs Models Schemas MessageJson Postgres Texts

abbrev Service := ExceptT Exc (Program Effect Reply)

def perform (e : Effect) : Service e.Answer := ExceptT.mk (.await e .done)

/-- `model_validate`, which raises when it fails. -/
def validated {α : Type} : Option α → Service α
  | some a => pure a
  | none => throw .validationError

section Messages

variable [JsonCodec]

def messageNotFound (id : Uuid) : Exc :=
  .notFoundError ("Message with ID '" ++ id.str ++ "' was not found.")

def authorNotFound (id : Uuid) : Exc :=
  .notFoundError ("Author with ID '" ++ id.str ++ "' was not found.")

/-- `_load` -/
def load (id : Uuid) : Service (Option MessageOut) := do
  match ← perform (.selectMessage id) with
  | none => return none
  | some (row, author) => return some (← validated (MessageOut.ofRow row author))

def listMessages (limit offset : ℕ) : Service (Page MessageOut) := do
  let rows ← perform (.selectMessages limit offset)
  let total ← perform .countMessages
  let items ← validated (rows.mapM fun r => MessageOut.ofRow r.1 r.2)
  return ⟨items, total⟩

/-- Cache-aside: read the cache first; on a miss load from the database and populate it. -/
def getMessage (id : Uuid) : Service MessageOut := do
  match ← perform (.cacheGet id.str) with
  | some cached => validated (modelValidateJson cached)
  | none =>
    match ← load id with
    | none => throw (messageNotFound id)
    | some message =>
      perform (.cacheSet id.str (modelDumpJson message))
      return message

def createMessage (payload : MessageCreate) : Service MessageOut := do
  match ← perform (.selectAuthor payload.authorId) with
  | none => throw (authorNotFound payload.authorId)
  | some author =>
    let message ← try
        perform (.insertMessage payload.title payload.content author.id)
      catch
        -- the author was deleted between the check and the insert
        | .integrityError sqlstate => do
          perform .rollback
          if sqlstate = some fkViolation then throw (authorNotFound payload.authorId)
          throw (.integrityError sqlstate)
        | exc => throw exc
    let out ← validated (MessageOut.ofRow message (some author))
    perform .commit
    return out

def staleVersion (id : Uuid) (version : ℕ) : Exc :=
  .conflictError ("Message with ID '" ++ id.str ++ "' has changed since version " ++
    toString version ++ " was read; refetch and retry.")

/-- Optimistic locking in a single statement: the row only changes if it is still at the
version the caller read. -/
def updateMessage (id : Uuid) (payload : MessageUpdate) : Service MessageOut := do
  match ← perform (.updateMessage id payload.version payload.content payload.title) with
  | none =>
    perform .rollback
    perform (.cacheEvict id.str)
    match ← perform (.selectMessageId id) with
    | none => throw (messageNotFound id)
    | some _ => throw (staleVersion id payload.version)
  | some _ =>
    let out ← load id
    perform .commit
    perform (.cacheEvict id.str)
    match out with
    | none => throw .assertionError
    | some out => return out

def deleteMessage (id : Uuid) : Service Unit := do
  let deleted ← perform (.deleteMessage id)
  perform .commit
  perform (.cacheEvict id.str)
  match deleted with
  | none => throw (messageNotFound id)
  | some _ => return ()

end Messages

section Authors

def duplicateEmail (email : Text) : Exc :=
  .conflictError ("Author with email '" ++ string email ++ "' already exists.")

def listAuthors (limit offset : ℕ) : Service (Page AuthorOut) := do
  let rows ← perform (.selectAuthors limit offset)
  let total ← perform .countAuthors
  return ⟨rows.map AuthorOut.ofRow, total⟩

/-- `selectinload` reads the messages in a second statement, and only for an existing author. -/
def getAuthor (id : Uuid) (includeMessages : Bool) : Service AuthorDetailOut := do
  match ← perform (.selectAuthor id) with
  | none => throw (authorNotFound id)
  | some author =>
    if includeMessages then
      let messages ← perform (.selectMessagesOf id)
      return ⟨.ofRow author, some (messages.map MessageSummary.ofRow)⟩
    else return ⟨.ofRow author, none⟩

def createAuthor (payload : AuthorCreate) : Service AuthorOut := do
  let author ← try
      perform (.insertAuthor payload.name payload.email)
    catch
      | .integrityError sqlstate => do
        perform .rollback
        if sqlstate = some uniqueViolation then throw (duplicateEmail payload.email)
        throw (.integrityError sqlstate)
      | exc => throw exc
  perform .commit
  return .ofRow author

/-- An update without a change reads the row; it is still a 404 for an unknown id. -/
def updateAuthor (id : Uuid) (payload : AuthorUpdate) : Service AuthorOut := do
  if payload.name = none ∧ payload.email = none then
    match ← perform (.selectAuthor id) with
    | none => throw (authorNotFound id)
    | some author => return .ofRow author
  else
    let author ← try
        perform (.updateAuthor id payload.name payload.email)
      catch
        | .integrityError sqlstate => do
          perform .rollback
          if sqlstate = some uniqueViolation then
            throw (duplicateEmail (payload.email.getD []))
          throw (.integrityError sqlstate)
        | exc => throw exc
    match author with
    | none => throw (authorNotFound id)
    | some author =>
      perform .commit
      return .ofRow author

def hasMessages (id : Uuid) : Exc :=
  .conflictError ("Author with ID '" ++ id.str ++ "' still has messages and cannot be deleted.")

def deleteAuthor (id : Uuid) : Service Unit := do
  let deleted ← try
      let deleted ← perform (.deleteAuthor id)
      perform .commit
      pure deleted
    catch
      | .integrityError sqlstate => do
        perform .rollback
        if sqlstate = some fkViolation then throw (hasMessages id)
        throw (.integrityError sqlstate)
      | exc => throw exc
  match deleted with
  | none => throw (authorNotFound id)
  | some _ => return ()

end Authors

section Seed

def systemEmail : String := "system@message-service.local"
def seedLockKey : ℕ := 7265490001
def welcomeTitle : String := "Welcome to the Kubernetes REST API"
def welcomeContent : String :=
  "A sample message backed by FastAPI and PostgreSQL on a kind cluster."

/-- `session.begin()`: commit when the block ends, roll back when it raises. -/
def inTransaction {α : Type} (block : Service α) : Service α := do
  try
    let a ← block
    perform .commit
    pure a
  catch exc => do
    perform .rollback
    throw exc

/-- The transaction-scoped advisory lock serialises the check-then-insert. The message is
flushed by the commit. -/
def seedInitialMessage : Service Unit :=
  inTransaction do
    perform (.advisoryXactLock seedLockKey)
    let count ← perform .countMessages
    if count > 0 then pure ()
    else
      perform (.upsertAuthor (text "system") (text systemEmail))
      match ← perform (.selectAuthorIds systemEmail) with
      | [authorId] =>
        let _ ← perform (.insertMessage (text welcomeTitle) (text welcomeContent) authorId)
        pure ()
      | _ => throw .noResultFound

end Seed

end Services
