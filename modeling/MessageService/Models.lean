import Mathlib.Data.Fin.Basic
import Mathlib.Data.List.Induction
import Mathlib.Data.List.Sort
import Mathlib.Tactic.IntervalCases
import MessageService.Library.KeyedTables
import MessageService.Library.FixedDigits
import MessageService.Library.Texts

/-! The two tables of the service: authors and messages.
A message names its author; the schema makes emails unique and the reference a foreign
key. The constraints are predicates here and are proved of every reachable database. -/
namespace Models

open KeyedTables FixedDigits Texts

abbrev Uuid := Fin (2 ^ 128)

instance uuid_neZero : NeZero (2 ^ 128) := ⟨by norm_num⟩

def hyphenate (hex : List Char) : List Char :=
  hex.take 8 ++ '-' :: (hex.drop 8).take 4 ++ '-' :: (hex.drop 12).take 4 ++
    '-' :: (hex.drop 16).take 4 ++ '-' :: hex.drop 20

/-- `str(uuid)`: thirty-two lower-case hexadecimal digits in groups of 8-4-4-4-12. -/
def Uuid.str (u : Uuid) : String := String.ofList (hyphenate (encode 16 32 u.val))

def hexDigits : List Char := "0123456789abcdefABCDEF".toList

/-- Reading a UUID: thirty-two hexadecimal digits, hyphenated as above or not at all. -/
def Uuid.ofStr (s : String) : Option Uuid :=
  let hex := s.toList.filter (· ≠ '-')
  if hex.length = 32 ∧ hex.all (· ∈ hexDigits) ∧ (s.toList = hyphenate hex ∨ s.toList = hex) then
    if h : decode 16 hex < 2 ^ 128 then some ⟨decode 16 hex, h⟩ else none
  else none

theorem filter_hyphenate {hex : List Char} (h : ∀ c ∈ hex, c ≠ '-') :
    (hyphenate hex).filter (· ≠ '-') = hex := by
  have keep : ∀ l : List Char, l ⊆ hex → l.filter (· ≠ '-') = l := by
    intro l hl
    rw [List.filter_eq_self]
    intro c hc
    simpa using h c (hl hc)
  have dash : ∀ l : List Char, ('-' :: l).filter (· ≠ '-') = l.filter (· ≠ '-') := by
    intro l; simp
  have part : ∀ i j, (hex.drop i).take j ⊆ hex := fun i j _ hc =>
    List.mem_of_mem_drop (List.mem_of_mem_take hc)
  have join : ∀ i, (hex.drop i).take 4 ++ hex.drop (i + 4) = hex.drop i := by
    intro i; rw [← List.drop_drop, List.take_append_drop]
  unfold hyphenate
  rw [List.filter_append, List.filter_append, List.filter_append, List.filter_append,
    dash, dash, dash, dash, keep _ (List.take_subset _ _), keep _ (part _ _),
    keep _ (part _ _), keep _ (part _ _), keep _ (List.drop_subset _ _),
    List.append_assoc, join 16, List.append_assoc, join 12, List.append_assoc, join 8,
    List.take_append_drop]

theorem mem_encode_hex {w n : ℕ} {c : Char} (h : c ∈ encode 16 w n) :
    c ≠ '-' ∧ c ∈ hexDigits := by
  obtain ⟨d, hd, rfl⟩ := mem_encode (by omega) h
  interval_cases d <;> decide

theorem ofStr_of_hex {s : String} {hex : List Char} (hs : s.toList.filter (· ≠ '-') = hex)
    (hlen : hex.length = 32) (hall : ∀ c ∈ hex, c ∈ hexDigits) (hform : s.toList = hyphenate hex)
    (u : Uuid) (hu : decode 16 hex = u.val) : Uuid.ofStr s = some u := by
  have hlt : decode 16 hex < 2 ^ 128 := by rw [hu]; exact u.isLt
  unfold Uuid.ofStr
  rw [hs, if_pos ⟨hlen, by simpa using hall, Or.inl hform⟩, dif_pos hlt]
  exact congrArg some (Fin.ext hu)

theorem ofStr_str (u : Uuid) : Uuid.ofStr u.str = some u := by
  refine ofStr_of_hex ?_ (length_encode 16 32 u.val) (fun c hc => (mem_encode_hex hc).2) ?_ u ?_
  · rw [Uuid.str, String.toList_ofList]
    exact filter_hyphenate fun c hc => (mem_encode_hex hc).1
  · rw [Uuid.str, String.toList_ofList]
  · exact decode_encode (by omega) (by omega) 32 u.val (lt_of_lt_of_eq u.isLt (by norm_num))

/-- Cache keys of different messages are different. -/
theorem str_injective {u v : Uuid} (h : u.str = v.str) : u = v := by
  have hu := ofStr_str u
  rw [h, ofStr_str] at hu
  exact (Option.some.inj hu).symm

instance microsecond_neZero : NeZero 1000000 := ⟨by norm_num⟩

/-- A UTC `datetime`, as asyncpg returns a `timestamptz`. -/
structure Datetime where
  year : Fin 10000
  month : Fin 13
  day : Fin 32
  hour : Fin 24
  minute : Fin 60
  second : Fin 60
  microsecond : Fin 1000000
  deriving DecidableEq, Repr

/-- The order of instants, as one number. -/
def Datetime.ordinal (t : Datetime) : ℕ :=
  (((((t.year * 13 + t.month) * 32 + t.day) * 24 + t.hour) * 60 + t.minute) * 60 + t.second) *
    1000000 + t.microsecond

structure Author where
  id : Uuid
  name : String
  email : String
  createdAt : Datetime
  deriving DecidableEq, Repr

structure Message where
  id : Uuid
  title : String
  content : String
  authorId : Uuid
  createdAt : Datetime
  version : ℕ
  deriving DecidableEq, Repr

structure Db where
  authors : Table Uuid Author Author.id
  messages : Table Uuid Message Message.id
  deriving DecidableEq

def Db.empty : Db := ⟨.empty, .empty⟩

/-- Column widths of the schema. -/
def titleWidth : ℕ := 100
def contentWidth : ℕ := 1000
def nameWidth : ℕ := 50
def emailWidth : ℕ := 100

/-- A text that a UTF-8 database has a string for: no lone surrogate, which the driver cannot
encode, and no U+0000, which the server refuses. -/
def Representable (t : Text) : Prop := Scalar t ∧ 0 ∉ t

instance (t : Text) : Decidable (Representable t) := inferInstanceAs (Decidable (_ ∧ _))

/-- A `VARCHAR(n)` holds at most `n` code points. -/
def Storable (n : ℕ) (t : Text) : Prop := t.length ≤ n ∧ Representable t

instance (n : ℕ) (t : Text) : Decidable (Storable n t) := inferInstanceAs (Decidable (_ ∧ _))

/-- `authors_email_key`. -/
def Db.EmailsUnique (db : Db) : Prop :=
  ∀ a b : Author, db.authors.lookup a.id = some a → db.authors.lookup b.id = some b →
    a.email = b.email → a = b

/-- `messages_author_id_fkey`. -/
def Db.ForeignKeys (db : Db) : Prop :=
  ∀ m : Message, db.messages.lookup m.id = some m → ∃ a, db.authors.lookup m.authorId = some a

instance (db : Db) : Decidable db.EmailsUnique :=
  decidable_of_iff (∀ a ∈ db.authors.rows, ∀ b ∈ db.authors.rows, a.email = b.email → a = b) (by
    simp only [Db.EmailsUnique, mem_rows_iff]
    exact ⟨fun h a b ha hb => h a ha b hb, fun h a ha b hb => h a b ha hb⟩)

instance (db : Db) : Decidable db.ForeignKeys :=
  decidable_of_iff (∀ m ∈ db.messages.rows, (db.authors.lookup m.authorId).isSome) (by
    simp only [Db.ForeignKeys, mem_rows_iff, Option.isSome_iff_exists])

/-- Tables that satisfy the constraints of the schema. -/
structure SoundDb extends Db where
  emails_unique : toDb.EmailsUnique
  foreign_keys : toDb.ForeignKeys

def SoundDb.empty : SoundDb where
  toDb := .empty
  emails_unique := fun _ _ h => by cases h
  foreign_keys := fun _ h => by cases h

section Queries

/-- `ORDER BY created_at, id` -/
def authorBefore (a b : Author) : Prop :=
  a.createdAt.ordinal < b.createdAt.ordinal ∨
    (a.createdAt.ordinal = b.createdAt.ordinal ∧ a.id ≤ b.id)

instance : DecidableRel authorBefore := fun _ _ => inferInstanceAs (Decidable (_ ∨ (_ ∧ _)))

/-- `ORDER BY created_at DESC, id DESC` -/
def messageBefore (a b : Message) : Prop :=
  b.createdAt.ordinal < a.createdAt.ordinal ∨
    (b.createdAt.ordinal = a.createdAt.ordinal ∧ b.id ≤ a.id)

instance : DecidableRel messageBefore := fun _ _ => inferInstanceAs (Decidable (_ ∨ (_ ∧ _)))

def Db.sortedAuthors (db : Db) : List Author := db.authors.rows.insertionSort authorBefore

def Db.sortedMessages (db : Db) : List Message := db.messages.rows.insertionSort messageBefore

/-- `joinedload(Message.author)`: a LEFT OUTER JOIN. -/
def Db.withAuthor (db : Db) (m : Message) : Message × Option Author :=
  (m, db.authors.lookup m.authorId)

def Db.emailTaken (db : Db) (e : String) : Prop := ∃ a ∈ db.authors.rows, a.email = e

instance (db : Db) (e : String) : Decidable (Db.emailTaken db e) :=
  inferInstanceAs (Decidable (∃ a ∈ db.authors.rows, _))

def Db.referencing (db : Db) (id : Uuid) : List Message :=
  db.messages.rows.filter (·.authorId = id)

/-- `Author.messages`: the rows of one author, `ORDER BY created_at DESC, id DESC`. -/
def Db.messagesOf (db : Db) (id : Uuid) : List Message :=
  (db.referencing id).insertionSort messageBefore

end Queries

/-- One row written by a statement: an inserted or updated row, or a deleted key. -/
inductive Write where
  | putAuthor (a : Author)
  | dropAuthor (id : Uuid)
  | putMessage (m : Message)
  | dropMessage (id : Uuid)
  deriving DecidableEq, Repr

def Db.apply (db : Db) : Write → Db
  | .putAuthor a => { db with authors := db.authors.put a }
  | .dropAuthor id => { db with authors := db.authors.drop id }
  | .putMessage m => { db with messages := db.messages.put m }
  | .dropMessage id => { db with messages := db.messages.drop id }

def Db.applyAll (db : Db) (ws : List Write) : Db := ws.foldl Db.apply db

@[simp] theorem applyAll_nil (db : Db) : db.applyAll [] = db := rfl

theorem applyAll_append (db : Db) (ws : List Write) (w : Write) :
    db.applyAll (ws ++ [w]) = (db.applyAll ws).apply w := by
  simp [Db.applyAll]

/-- What a write sets the row of message `id` to, if it writes that row. -/
def Write.message? (id : Uuid) : Write → Option (Option Message)
  | .putMessage m => if id = m.id then some (some m) else none
  | .dropMessage i => if id = i then some none else none
  | _ => none

def Write.author? (id : Uuid) : Write → Option (Option Author)
  | .putAuthor a => if id = a.id then some (some a) else none
  | .dropAuthor i => if id = i then some none else none
  | _ => none

theorem message?_put {m : Message} {id : Uuid} (h : m.id = id) :
    (Write.putMessage m).message? id = some (some m) := by
  simp [Write.message?, h]

theorem message?_drop (id : Uuid) : (Write.dropMessage id).message? id = some none := by
  simp [Write.message?]

theorem author?_put {a : Author} {id : Uuid} (h : a.id = id) :
    (Write.putAuthor a).author? id = some (some a) := by
  simp [Write.author?, h]

theorem author?_drop (id : Uuid) : (Write.dropAuthor id).author? id = some none := by
  simp [Write.author?]

theorem message?_put_ne {m : Message} {id : Uuid} (h : m.id ≠ id) :
    (Write.putMessage m).message? id = none := by
  simp [Write.message?, Ne.symm h]

theorem message?_drop_ne {i id : Uuid} (h : i ≠ id) : (Write.dropMessage i).message? id = none := by
  simp [Write.message?, Ne.symm h]

theorem author?_put_ne {a : Author} {id : Uuid} (h : a.id ≠ id) :
    (Write.putAuthor a).author? id = none := by
  simp [Write.author?, Ne.symm h]

theorem author?_drop_ne {i id : Uuid} (h : i ≠ id) : (Write.dropAuthor i).author? id = none := by
  simp [Write.author?, Ne.symm h]

theorem apply_message (db : Db) (w : Write) (id : Uuid) :
    (db.apply w).messages.lookup id = (w.message? id).getD (db.messages.lookup id) := by
  cases w with
  | putAuthor a => rfl
  | dropAuthor i => rfl
  | putMessage m => by_cases h : id = m.id <;> simp [Db.apply, Write.message?, h]
  | dropMessage i => by_cases h : id = i <;> simp [Db.apply, Write.message?, h]

theorem apply_author (db : Db) (w : Write) (id : Uuid) :
    (db.apply w).authors.lookup id = (w.author? id).getD (db.authors.lookup id) := by
  cases w with
  | putAuthor a => by_cases h : id = a.id <;> simp [Db.apply, Write.author?, h]
  | dropAuthor i => by_cases h : id = i <;> simp [Db.apply, Write.author?, h]
  | putMessage m => rfl
  | dropMessage i => rfl

section Overlays

/-! A session's writes as an overlay: for each row the last write to it, if any. -/

def lastMessage (ws : List Write) (id : Uuid) : Option (Option Message) :=
  ws.foldl (fun last x => (x.message? id).or last) none

def lastAuthor (ws : List Write) (id : Uuid) : Option (Option Author) :=
  ws.foldl (fun last x => (x.author? id).or last) none

@[simp] theorem lastMessage_nil (id : Uuid) : lastMessage [] id = none := rfl
@[simp] theorem lastAuthor_nil (id : Uuid) : lastAuthor [] id = none := rfl

@[simp] theorem lastMessage_append (ws : List Write) (x : Write) (id : Uuid) :
    lastMessage (ws ++ [x]) id = (x.message? id).or (lastMessage ws id) := by
  simp [lastMessage]

@[simp] theorem lastAuthor_append (ws : List Write) (x : Write) (id : Uuid) :
    lastAuthor (ws ++ [x]) id = (x.author? id).or (lastAuthor ws id) := by
  simp [lastAuthor]

@[simp] theorem lastMessage_singleton (x : Write) (id : Uuid) :
    lastMessage [x] id = x.message? id := by
  simp [lastMessage]

@[simp] theorem lastAuthor_singleton (x : Write) (id : Uuid) :
    lastAuthor [x] id = x.author? id := by
  simp [lastAuthor]

theorem applyAll_message (db : Db) (ws : List Write) (id : Uuid) :
    (db.applyAll ws).messages.lookup id = (lastMessage ws id).getD (db.messages.lookup id) := by
  induction ws using List.reverseRecOn with
  | nil => rfl
  | append_singleton ws x ih =>
    rw [applyAll_append, apply_message, lastMessage_append, ih]
    cases x.message? id <;> rfl

theorem applyAll_author (db : Db) (ws : List Write) (id : Uuid) :
    (db.applyAll ws).authors.lookup id = (lastAuthor ws id).getD (db.authors.lookup id) := by
  induction ws using List.reverseRecOn with
  | nil => rfl
  | append_singleton ws x ih =>
    rw [applyAll_append, apply_author, lastAuthor_append, ih]
    cases x.author? id <;> rfl

theorem lastMessage_written {ws : List Write} {id : Uuid} {r : Option Message}
    (h : lastMessage ws id = some r) : ∃ x ∈ ws, x.message? id = some r := by
  induction ws using List.reverseRecOn with
  | nil => cases h
  | append_singleton ws x ih =>
    rw [lastMessage_append] at h
    cases hx : x.message? id with
    | some r' => rw [hx] at h; exact ⟨x, by simp, by simpa using (hx.trans h)⟩
    | none =>
      rw [hx] at h
      obtain ⟨y, hy, hr⟩ := ih h
      exact ⟨y, by simp [hy], hr⟩

theorem lastAuthor_written {ws : List Write} {id : Uuid} {r : Option Author}
    (h : lastAuthor ws id = some r) : ∃ x ∈ ws, x.author? id = some r := by
  induction ws using List.reverseRecOn with
  | nil => cases h
  | append_singleton ws x ih =>
    rw [lastAuthor_append] at h
    cases hx : x.author? id with
    | some r' => rw [hx] at h; exact ⟨x, by simp, by simpa using (hx.trans h)⟩
    | none =>
      rw [hx] at h
      obtain ⟨y, hy, hr⟩ := ih h
      exact ⟨y, by simp [hy], hr⟩

/-- The write that sets the row of a message is an insertion, an update or a deletion of it. -/
theorem message?_some {x : Write} {id : Uuid} {r : Option Message} (h : x.message? id = some r) :
    (∃ m, x = .putMessage m ∧ m.id = id ∧ r = some m) ∨ (x = .dropMessage id ∧ r = none) := by
  cases x with
  | putMessage m => simp only [Write.message?] at h; split at h <;> simp_all
  | dropMessage i => simp only [Write.message?] at h; split at h <;> simp_all
  | putAuthor a => cases h
  | dropAuthor i => cases h

theorem author?_some {x : Write} {id : Uuid} {r : Option Author} (h : x.author? id = some r) :
    (∃ a, x = .putAuthor a ∧ a.id = id ∧ r = some a) ∨ (x = .dropAuthor id ∧ r = none) := by
  cases x with
  | putAuthor a => simp only [Write.author?] at h; split at h <;> simp_all
  | dropAuthor i => simp only [Write.author?] at h; split at h <;> simp_all
  | putMessage m => cases h
  | dropMessage i => cases h

end Overlays

end Models
