import MessageService.Library.SerialExecutions
import MessageService.ServiceRuns
import MessageService.Statements

/-! What the service is for, without sessions, locks, statements or a cache: two maps, and what
each request that writes does to them in one step. -/
namespace AbstractStore

open Texts Models Schemas KeyedTables Postgres Services ServiceRuns Statements SerialExecutions

@[ext]
structure Store where
  authors : Uuid → Option Author
  messages : Uuid → Option Message

def Store.putAuthor (S : Store) (a : Author) : Store :=
  { S with authors := Function.update S.authors a.id (some a) }

def Store.dropAuthor (S : Store) (id : Uuid) : Store :=
  { S with authors := Function.update S.authors id none }

def Store.putMessage (S : Store) (m : Message) : Store :=
  { S with messages := Function.update S.messages m.id (some m) }

def Store.dropMessage (S : Store) (id : Uuid) : Store :=
  { S with messages := Function.update S.messages id none }

/-- What a write of a session does to the maps. -/
def Store.write (S : Store) : Write → Store
  | .putAuthor a => S.putAuthor a
  | .dropAuthor id => S.dropAuthor id
  | .putMessage m => S.putMessage m
  | .dropMessage id => S.dropMessage id

theorem putAuthor_authors (S : Store) (a : Author) (i : Uuid) :
    (S.putAuthor a).authors i = if i = a.id then some a else S.authors i :=
  Function.update_apply ..

theorem dropAuthor_authors (S : Store) (id i : Uuid) :
    (S.dropAuthor id).authors i = if i = id then none else S.authors i :=
  Function.update_apply ..

theorem putMessage_messages (S : Store) (m : Message) (i : Uuid) :
    (S.putMessage m).messages i = if i = m.id then some m else S.messages i :=
  Function.update_apply ..

theorem dropMessage_messages (S : Store) (id i : Uuid) :
    (S.dropMessage id).messages i = if i = id then none else S.messages i :=
  Function.update_apply ..

/-- Only author `id` may have this e-mail. -/
def Store.Unclaimed (S : Store) (id : Uuid) (email : String) : Prop :=
  ∀ i a, S.authors i = some a → a.email = email → i = id

/-- The row that a request which writes answers with. -/
inductive Answer where
  | message (m : Message)
  | author (a : Author)
  | none
  deriving DecidableEq, Repr

/-- A row that is put is answered, a row that is dropped is not. -/
def Answer.ofWrite : Write → Answer
  | .putAuthor a => .author a
  | .dropAuthor _ => .none
  | .putMessage m => .message m
  | .dropMessage _ => .none

/-- A message with the text of the welcome message. -/
structure Welcome (row : Message) : Prop where
  title : row.title = welcomeTitle
  content : row.content = welcomeContent
  version : row.version = 0

/-- What a request does to the store in one step, and what it answers with. A request that is
refused does nothing. -/
inductive Does : Request → Answer → Store → Store → Prop where
  | createMessage {p S row} : S.messages row.id = none → (∃ a, S.authors p.authorId = some a) →
      text row.title = p.title → text row.content = p.content → row.authorId = p.authorId →
      row.version = 0 → Does (.createMessage p) (.message row) S (S.putMessage row)
  | updateMessage {m p S row} : S.messages m = some row → row.version = p.version →
      row.version < maxInt4 →
      Does (.updateMessage m p) (.message (updatedMessage row p.content p.title)) S
        (S.putMessage (updatedMessage row p.content p.title))
  | deleteMessage {m S row} : S.messages m = some row →
      Does (.deleteMessage m) .none S (S.dropMessage m)
  | createAuthor {p S a} : S.authors a.id = none → S.Unclaimed a.id a.email →
      text a.name = p.name → text a.email = p.email →
      Does (.createAuthor p) (.author a) S (S.putAuthor a)
  | updateAuthor {id p S a} : S.authors id = some a →
      S.Unclaimed id (updatedAuthor a p.name p.email).email →
      Does (.updateAuthor id p) (.author (updatedAuthor a p.name p.email)) S
        (S.putAuthor (updatedAuthor a p.name p.email))
  | deleteAuthor {id S a} : S.authors id = some a →
      (∀ i m, S.messages i = some m → m.authorId ≠ id) →
      Does (.deleteAuthor id) .none S (S.dropAuthor id)
  | seedMessage {S row a} : Welcome row → S.messages row.id = none →
      S.authors row.authorId = some a → Does .seedInitialMessage .none S (S.putMessage row)
  | seedBoth {S row a} : Welcome row → S.messages row.id = none → S.authors a.id = none →
      S.Unclaimed a.id a.email → a.name = "system" → a.email = systemEmail →
      row.authorId = a.id → Does .seedInitialMessage .none S ((S.putAuthor a).putMessage row)

/-- A request that takes effect, whatever it answers. -/
def Takes (q : Request) (S T : Store) : Prop := ∃ a, Does q a S T

section Constraints

variable {S T : Store}

/-- Rows stand under their ids, e-mails are unique, and messages have their authors. -/
structure Sound (S : Store) : Prop where
  author_id : ∀ i a, S.authors i = some a → a.id = i
  message_id : ∀ i m, S.messages i = some m → m.id = i
  emails : ∀ i a, S.authors i = some a → S.Unclaimed i a.email
  references : ∀ i m, S.messages i = some m → ∃ a, S.authors m.authorId = some a

theorem Sound.putMessage (h : Sound S) {row : Message}
    (hauthor : ∃ a, S.authors row.authorId = some a) : Sound (S.putMessage row) := by
  have stored : ∀ i m, (S.putMessage row).messages i = some m →
      (i = row.id ∧ m = row) ∨ S.messages i = some m := by
    intro i m hm
    rw [putMessage_messages] at hm
    split at hm
    · rename_i hi
      exact Or.inl ⟨hi, (Option.some.inj hm).symm⟩
    · exact Or.inr hm
  refine ⟨h.author_id, ?_, h.emails, ?_⟩
  · intro i m hm
    rcases stored i m hm with ⟨rfl, rfl⟩ | hm
    · rfl
    · exact h.message_id i m hm
  · intro i m hm
    rcases stored i m hm with ⟨_, rfl⟩ | hm
    · exact hauthor
    · exact h.references i m hm

theorem Sound.dropMessage (h : Sound S) (id : Uuid) : Sound (S.dropMessage id) := by
  have kept : ∀ i m, (S.dropMessage id).messages i = some m → S.messages i = some m := by
    intro i m hm
    rw [dropMessage_messages] at hm
    split at hm
    · cases hm
    · exact hm
  exact ⟨h.author_id, fun i m hm => h.message_id i m (kept i m hm), h.emails,
    fun i m hm => h.references i m (kept i m hm)⟩

theorem putAuthor_cases {a b : Author} {i : Uuid} (h : (S.putAuthor a).authors i = some b) :
    (i = a.id ∧ b = a) ∨ (i ≠ a.id ∧ S.authors i = some b) := by
  rw [putAuthor_authors] at h
  split at h
  · rename_i hi
    exact Or.inl ⟨hi, (Option.some.inj h).symm⟩
  · rename_i hi
    exact Or.inr ⟨hi, h⟩

theorem putAuthor_self (S : Store) (a : Author) : (S.putAuthor a).authors a.id = some a := by
  rw [putAuthor_authors, if_pos rfl]

theorem Sound.putAuthor (h : Sound S) {a : Author} (hemail : S.Unclaimed a.id a.email) :
    Sound (S.putAuthor a) := by
  refine ⟨?_, h.message_id, ?_, ?_⟩
  · intro i b hb
    rcases putAuthor_cases hb with ⟨rfl, rfl⟩ | ⟨_, hb⟩
    · rfl
    · exact h.author_id i b hb
  · intro i b hb j d hd hmail
    rcases putAuthor_cases hb with ⟨hi, hba⟩ | ⟨hi, holdb⟩
    · rcases putAuthor_cases hd with ⟨hj, _⟩ | ⟨_, holdd⟩
      · rw [hi, hj]
      · rw [hi]
        exact hemail j d holdd (by rw [hmail, hba])
    · rcases putAuthor_cases hd with ⟨_, hda⟩ | ⟨_, holdd⟩
      · exact absurd (hemail i b holdb (by rw [← hmail, hda])) hi
      · exact h.emails i b holdb j d holdd hmail
  · intro i m hm
    obtain ⟨b, hb⟩ := h.references i m hm
    by_cases hid : m.authorId = a.id
    · exact ⟨a, by rw [hid]; exact putAuthor_self S a⟩
    · exact ⟨b, by rw [putAuthor_authors, if_neg hid]; exact hb⟩

theorem Sound.dropAuthor (h : Sound S) {id : Uuid}
    (hfree : ∀ i m, S.messages i = some m → m.authorId ≠ id) : Sound (S.dropAuthor id) := by
  have kept : ∀ i a, (S.dropAuthor id).authors i = some a → S.authors i = some a := by
    intro i a ha
    rw [dropAuthor_authors] at ha
    split at ha
    · cases ha
    · exact ha
  refine ⟨fun i a ha => h.author_id i a (kept i a ha), h.message_id, ?_, ?_⟩
  · intro i a ha j b hb
    exact h.emails i a (kept i a ha) j b (kept j b hb)
  · intro i m hm
    obtain ⟨a, ha⟩ := h.references i m hm
    exact ⟨a, by rw [dropAuthor_authors, if_neg (hfree i m hm)]; exact ha⟩

/-- The guards of the steps are what the constraints need. -/
theorem Takes.sound {q : Request} (h : Takes q S T) (hS : Sound S) : Sound T := by
  obtain ⟨a, h⟩ := h
  cases h with
  | createMessage _ hauthor _ _ hid _ => exact hS.putMessage (by rw [hid]; exact hauthor)
  | updateMessage hrow _ _ =>
    have hauthor := hS.references _ _ hrow
    exact hS.putMessage (by rw [updatedMessage]; exact hauthor)
  | deleteMessage _ => exact hS.dropMessage _
  | createAuthor _ hemail _ _ => exact hS.putAuthor hemail
  | updateAuthor ha hemail =>
    refine hS.putAuthor ?_
    rw [updatedAuthor, hS.author_id _ _ ha]
    exact hemail
  | deleteAuthor _ hfree => exact hS.dropAuthor hfree
  | seedMessage _ _ ha => exact hS.putMessage ⟨_, ha⟩
  | seedBoth _ _ _ hemail _ _ hid =>
    exact (hS.putAuthor hemail).putMessage ⟨_, by rw [hid]; exact putAuthor_self ..⟩

/-- Requests that take effect one after another keep the constraints. -/
theorem serial_sound {ops : List (ℕ × Request)} (h : Serial (fun op => Takes op.2) S ops T)
    (hS : Sound S) : Sound T :=
  h.invariant hS fun _ _ _ hI hop => hop.sound hI

/-! What the constraints of the store afterwards say of a step. -/

theorem unclaimed_of_sound {a : Author} (h : Sound T) (hT : T.authors = (S.putAuthor a).authors) :
    S.Unclaimed a.id a.email := by
  intro i b hb hmail
  by_contra hi
  have hput : T.authors i = some b := by
    rw [hT, putAuthor_authors, if_neg hi]
    exact hb
  have hself : T.authors a.id = some a := by
    rw [hT]
    exact putAuthor_self S a
  exact hi (h.emails a.id a hself i b hput hmail)

theorem referenced_of_sound {m : Message} (h : Sound (S.putMessage m)) :
    ∃ a, S.authors m.authorId = some a := by
  refine h.references m.id m ?_
  rw [putMessage_messages, if_pos rfl]

theorem unreferenced_of_sound {id : Uuid} (h : Sound (S.dropAuthor id)) :
    ∀ i m, S.messages i = some m → m.authorId ≠ id := by
  rintro i m hm rfl
  obtain ⟨a, ha⟩ := h.references i m hm
  rw [dropAuthor_authors, if_pos rfl] at ha
  cases ha

end Constraints

section Abstraction

/-- The tables as maps. -/
def Store.ofDb (db : Db) : Store := ⟨db.authors.lookup, db.messages.lookup⟩

variable {db : Db}

theorem ofDb_apply (db : Db) (x : Write) : Store.ofDb (db.apply x) = (Store.ofDb db).write x := by
  cases x with
  | putAuthor a =>
    ext1
    · funext i
      exact (lookup_put db.authors a i).trans (Function.update_apply ..).symm
    · rfl
  | dropAuthor id =>
    ext1
    · funext i
      exact (lookup_drop db.authors id i).trans (Function.update_apply ..).symm
    · rfl
  | putMessage m =>
    ext1
    · rfl
    · funext i
      exact (lookup_put db.messages m i).trans (Function.update_apply ..).symm
  | dropMessage id =>
    ext1
    · rfl
    · funext i
      exact (lookup_drop db.messages id i).trans (Function.update_apply ..).symm

/-- The constraints of the schema are those of the maps. -/
theorem ofDb_sound (he : db.EmailsUnique) (hf : db.ForeignKeys) : Sound (.ofDb db) := by
  refine ⟨fun i a ha => lookup_key ha, fun i m hm => lookup_key hm, ?_, ?_⟩
  · intro i a ha j b hb hmail
    obtain rfl : a.id = i := lookup_key ha
    obtain rfl : b.id = j := lookup_key hb
    rw [he b a hb ha hmail]
  · intro i m hm
    obtain rfl : m.id = i := lookup_key hm
    exact hf m hm

end Abstraction

end AbstractStore
