import Mathlib.Data.List.DropRight
import MessageService.Models

/-! Request and response models, with the checks every request string passes.
A validated payload carries the proof that its strings are results of the check, so the
operations never see a string the API has not accepted. A string of a request is a text, which may
have lone surrogates; what the tables hold are strings of characters. -/
namespace Schemas

open Models KeyedTables Texts

/-- `str.isspace` of one character, which is also the class `\s` of `re`. -/
def isSpace (c : ℕ) : Bool :=
  (9 ≤ c && c ≤ 13) || (28 ≤ c && c ≤ 32) || c == 133 || c == 160 || c == 5760 ||
  (8192 ≤ c && c ≤ 8202) || c == 8232 || c == 8233 || c == 8239 || c == 8287 || c == 12288

def strip (cs : Text) : Text := (cs.dropWhile isSpace).rdropWhile isSpace

/-- One element of a pattern: a class repeated at least once, or a single character. -/
inductive Item where
  | plus (p : ℕ → Bool)
  | char (c : ℕ)

/-- `$` matches at the end and before one last newline. -/
def atEnd : Text → Bool
  | [] => true
  | [10] => true
  | _ => false

/-- Whether a sequence of items followed by `$` matches from here, backtracking over the
lengths of the repetitions. -/
def matchHere : List Item → Text → Bool
  | [], cs => atEnd cs
  | .char _ :: _, [] => false
  | .plus _ :: _, [] => false
  | .char d :: is, c :: cs => c == d && matchHere is cs
  | .plus p :: is, c :: cs => p c && (matchHere (.plus p :: is) cs || matchHere is cs)

/-- The characters `@` and `.` -/
def atSign : ℕ := 64
def dot : ℕ := 46

/-- `[^\s@]` -/
def emailChar (c : ℕ) : Bool := !isSpace c && c != atSign

/-- `EMAIL_RE`: `^[^\s@]+@[^\s@]+\.[^\s@]+$` -/
def emailRe : List Item :=
  [.plus emailChar, .char atSign, .plus emailChar, .char dot, .plus emailChar]

def maxInt4 : ℕ := 2147483647

def titleMax : ℕ := 100
def contentMax : ℕ := 1000
def nameMax : ℕ := 50
def emailMax : ℕ := 100

/-- `_clean`; the error is the text of the `ValueError`. -/
def clean (value : Text) (name : String) (maxLength : ℕ) : Except String Text :=
  let trimmed := strip value
  if trimmed = [] then .error (name ++ " is required and cannot be blank")
  else if trimmed.length > maxLength then
    .error (name ++ " cannot exceed " ++ toString maxLength ++ " characters")
  else .ok trimmed

/-- `_clean_email` -/
def cleanEmail (value : Text) (name : String) (maxLength : ℕ) : Except String Text := do
  let trimmed ← clean value name maxLength
  if matchHere emailRe trimmed then return trimmed
  else throw (name ++ " must be a valid email address")

inductive Field where
  | title | content | name | email
  deriving DecidableEq, Repr

def Field.fieldName : Field → String
  | .title => "title"
  | .content => "content"
  | .name => "name"
  | .email => "email"

/-- `_LIMITS` -/
def Field.limit : Field → ℕ
  | .title => titleMax
  | .content => contentMax
  | .name => nameMax
  | .email => emailMax

/-- `_check_string` on a string; on null it returns null. -/
def checkString (f : Field) (value : Text) : Except String Text :=
  match f with
  | .email => cleanEmail value f.fieldName f.limit
  | _ => clean value f.fieldName f.limit

/-- A string the check returns: the check accepts it again, unchanged. -/
def Checked (f : Field) (s : Text) : Prop := checkString f s = .ok s

instance (f : Field) (s : Text) : Decidable (Checked f s) :=
  match h : checkString f s with
  | .ok t => decidable_of_iff (t = s) (by rw [Checked, h]; simp)
  | .error _ => isFalse (by rw [Checked, h]; simp)

theorem strip_head {cs rest : Text} {c : ℕ} (h : strip cs = c :: rest) :
    isSpace c = false := by
  unfold strip at h
  obtain ⟨tail, ht⟩ := List.rdropWhile_prefix isSpace (l := cs.dropWhile isSpace)
  rw [h] at ht
  have hne : cs.dropWhile isSpace ≠ [] := by rw [← ht]; simp
  have hd := List.head_dropWhile_not isSpace hne
  simp only [← ht, List.cons_append, List.head_cons] at hd
  exact hd

theorem strip_strip (cs : Text) : strip (strip cs) = strip cs := by
  have hd : (strip cs).dropWhile isSpace = strip cs := by
    cases h : strip cs with
    | nil => rfl
    | cons c rest => rw [List.dropWhile_cons, strip_head h]; simp
  rw [strip, hd, strip, List.rdropWhile_idempotent]

theorem clean_ok {value t : Text} {name : String} {n : ℕ} (h : clean value name n = .ok t) :
    strip value ≠ [] ∧ (strip value).length ≤ n ∧ t = strip value := by
  simp only [clean] at h
  split at h
  · cases h
  · split at h
    · cases h
    · rename_i h1 h2
      exact ⟨h1, by omega, (Except.ok.inj h).symm⟩

/-- What the check returns is what `strip` leaves, and it returns it in these cases alone. -/
theorem clean_ok_iff {value t : Text} {name : String} {n : ℕ} : clean value name n = .ok t ↔
    strip value ≠ [] ∧ (strip value).length ≤ n ∧ t = strip value := by
  constructor
  · exact clean_ok
  · rintro ⟨hne, hle, rfl⟩
    rw [clean, if_neg hne, if_neg (by omega)]

theorem clean_idempotent {value t : Text} {name : String} {n : ℕ}
    (h : clean value name n = .ok t) : clean t name n = .ok t := by
  obtain ⟨h1, h2, rfl⟩ := clean_ok h
  unfold clean
  rw [strip_strip, if_neg h1, if_neg (by omega)]

theorem cleanEmail_ok_iff {value t : Text} {name : String} {n : ℕ} :
    cleanEmail value name n = .ok t ↔ clean value name n = .ok t ∧ matchHere emailRe t = true := by
  rw [cleanEmail]
  cases hc : clean value name n with
  | error e => simp [bind, Except.bind]
  | ok u =>
    by_cases hm : matchHere emailRe u = true
    · simp only [bind, Except.bind, hm]
      constructor
      · intro h
        obtain rfl : u = t := Except.ok.inj h
        exact ⟨rfl, hm⟩
      · rintro ⟨h, _⟩
        exact h
    · simp only [bind, Except.bind, hm]
      constructor
      · intro h
        cases h
      · rintro ⟨h, ht⟩
        obtain rfl : u = t := Except.ok.inj h
        exact absurd ht hm

theorem cleanEmail_idempotent {value t : Text} {name : String} {n : ℕ}
    (h : cleanEmail value name n = .ok t) : cleanEmail t name n = .ok t := by
  obtain ⟨hc, hm⟩ := cleanEmail_ok_iff.mp h
  exact cleanEmail_ok_iff.mpr ⟨clean_idempotent hc, hm⟩

/-- What the check returns is a fixed point of the check. -/
theorem checkString_checked {f : Field} {value t : Text} (h : checkString f value = .ok t) :
    Checked f t := by
  cases f with
  | email => exact cleanEmail_idempotent h
  | title => exact clean_idempotent h
  | content => exact clean_idempotent h
  | name => exact clean_idempotent h

section Requests

structure MessageCreate where
  title : Text
  content : Text
  authorId : Uuid
  title_checked : Checked .title title
  content_checked : Checked .content content
  deriving DecidableEq

structure MessageUpdate where
  title : Option Text
  content : Text
  version : ℕ
  title_checked : ∀ t ∈ title, Checked .title t
  content_checked : Checked .content content
  version_le : version ≤ maxInt4
  deriving DecidableEq

structure AuthorCreate where
  name : Text
  email : Text
  name_checked : Checked .name name
  email_checked : Checked .email email
  deriving DecidableEq

structure AuthorUpdate where
  name : Option Text
  email : Option Text
  name_checked : ∀ n ∈ name, Checked .name n
  email_checked : ∀ e ∈ email, Checked .email e
  deriving DecidableEq

end Requests

section Responses

structure AuthorOut where
  id : Uuid
  name : String
  email : String
  createdAt : Datetime
  deriving DecidableEq, Repr

/-- A message without its author, as it stands in an author's `messages`. -/
structure MessageSummary where
  id : Uuid
  title : String
  content : String
  createdAt : Datetime
  version : ℕ
  deriving DecidableEq, Repr

structure MessageOut extends MessageSummary where
  author : AuthorOut
  deriving DecidableEq, Repr

structure AuthorDetailOut extends AuthorOut where
  messages : Option (List MessageSummary)
  deriving DecidableEq, Repr

structure Page (α : Type) where
  items : List α
  totalCount : ℕ
  deriving DecidableEq, Repr

/-- `AuthorOut.model_validate(row)` -/
def AuthorOut.ofRow (a : Author) : AuthorOut := ⟨a.id, a.name, a.email, a.createdAt⟩

def MessageSummary.ofRow (m : Message) : MessageSummary :=
  ⟨m.id, m.title, m.content, m.createdAt, m.version⟩

/-- `MessageOut.model_validate(row)`; `author` is required, so a row whose joined author is
missing does not validate. -/
def MessageOut.ofRow (m : Message) : Option Author → Option MessageOut
  | some a => some ⟨.ofRow m, .ofRow a⟩
  | none => none

/-- What the tables say of message `id`: its row joined with its author. -/
def representation (db : Db) (id : Uuid) : Option MessageOut :=
  (db.messages.lookup id).bind fun m => MessageOut.ofRow m (db.authors.lookup m.authorId)

theorem representation_some {db : Db} {id : Uuid} {out : MessageOut} :
    representation db id = some out ↔ ∃ m a, db.messages.lookup id = some m ∧
      db.authors.lookup m.authorId = some a ∧ out = ⟨.ofRow m, .ofRow a⟩ := by
  unfold representation
  rw [Option.bind_eq_some_iff]
  constructor
  · rintro ⟨m, hm, ho⟩
    cases ha : db.authors.lookup m.authorId with
    | none => rw [ha] at ho; cases ho
    | some a => rw [ha] at ho; exact ⟨m, a, hm, ha, (Option.some.inj ho).symm⟩
  · rintro ⟨m, a, hm, ha, rfl⟩
    exact ⟨m, hm, by rw [ha]; rfl⟩

/-- With its foreign keys satisfied a table represents exactly the rows it has. -/
theorem representation_none {db : Db} (hf : db.ForeignKeys) {id : Uuid} :
    representation db id = none ↔ db.messages.lookup id = none := by
  unfold representation
  constructor
  · intro h
    cases hm : db.messages.lookup id with
    | none => rfl
    | some m =>
      obtain ⟨a, ha⟩ := hf m (by rw [lookup_key hm]; exact hm)
      rw [hm, Option.bind_some, ha] at h
      cases h
  · intro h; rw [h]; rfl

/-- Writes that leave a row and its author alone leave what they represent alone. -/
theorem representation_overlay {db : Db} {ws : List Write} {m : Uuid} {msg : Message}
    {au : Author} (hm : db.messages.lookup m = some msg)
    (ha : db.authors.lookup msg.authorId = some au)
    (hmessage : (lastMessage ws m).getD (some msg) = some msg)
    (hauthor : (lastAuthor ws msg.authorId).getD (some au) = some au) :
    representation (db.applyAll ws) m = representation db m := by
  unfold representation
  rw [applyAll_message, hm, hmessage, Option.bind_some, Option.bind_some, applyAll_author, ha,
    hauthor]

end Responses

end Schemas
