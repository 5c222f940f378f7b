import MessageService.AcceptedBodies
import MessageService.Library.PrintedTexts
import MessageService.RoundTrips
import MessageService.TextCodec

/-! A representation that a client reads and sends back as it came.
Its bytes are within the body limit, and as the body of a PATCH they are the update that writes
the row's own values back. -/
namespace SentBack

open Interleaving Texts Models Schemas Asgi BodyLimit Requests MessageJson JsonValues JsonText
open JsonLoads JsonTexts PrintedTexts AcceptedBodies Postgres ServiceRuns Traces Histories
open StoredStrings StoredValues RoundTrips KeyedTables

/-- `Settings.max_body_bytes` -/
def maxBodyBytes : ℕ := 16 * 1024

section Sizes

theorem checked_string {f : Field} {s : String} (h : Checked f (text s)) : s.length ≤ width f := by
  rw [← length_text]
  exact checked_length h

theorem length_str (id : Uuid) : id.str.length = 36 := by
  rw [← String.length_toList, Uuid.str, String.toList_ofList]
  simp [hyphenate]

theorem length_isoFormat (t : Datetime) : (TextCodec.isoFormat t).length ≤ 27 := by
  rw [← String.length_toList, TextCodec.isoFormat, String.toList_ofList]
  split
  · simp
  · simp

/-- A string member of a representation. -/
theorem size_string {k s : String} {n : ℕ} (h : s.length ≤ n) :
    size (printField (k, .str s)) ≤ size (quote k.toList) + 6 * n + 3 := by
  have := size_quote s
  rw [size_field, print]
  omega

theorem dump_author (a : AuthorOut) : AuthorOut.dump a = .obj [("id", .str a.id.str),
    ("name", .str a.name), ("email", .str a.email),
    ("createdAt", .str (TextCodec.isoFormat a.createdAt))] := by
  have hnames : toAlias "id" = "id" ∧ toAlias "name" = "name" ∧ toAlias "email" = "email" ∧
      toAlias "created_at" = "createdAt" := by decide
  obtain ⟨hid, hname, hemail, hcreated⟩ := hnames
  unfold AuthorOut.dump
  rw [hid, hname, hemail, hcreated]
  rfl

theorem dump_message (m : MessageOut) : MessageOut.dump m = .obj [("id", .str m.id.str),
    ("title", .str m.title), ("content", .str m.content),
    ("createdAt", .str (TextCodec.isoFormat m.createdAt)), ("version", .num m.version),
    ("author", AuthorOut.dump m.author)] := by
  have hnames : toAlias "id" = "id" ∧ toAlias "title" = "title" ∧
      toAlias "content" = "content" ∧ toAlias "created_at" = "createdAt" ∧
      toAlias "version" = "version" ∧ toAlias "author" = "author" := by decide
  obtain ⟨hid, htitle, hcontent, hcreated, hversion, hauthor⟩ := hnames
  unfold MessageOut.dump
  rw [hid, htitle, hcontent, hcreated, hversion, hauthor]
  rfl

theorem size_author {a : AuthorOut} (hname : a.name.length ≤ nameMax)
    (hemail : a.email.length ≤ emailMax) : size (print (AuthorOut.dump a)) ≤ 1400 := by
  have hid := size_string (k := "id") (length_str a.id).le
  have hname := size_string (k := "name") hname
  have hemail := size_string (k := "email") hemail
  have hcreated := size_string (k := "createdAt") (length_isoFormat a.createdAt)
  have hkeys : size (quote "id".toList) = 4 ∧ size (quote "name".toList) = 6 ∧
      size (quote "email".toList) = 7 ∧ size (quote "createdAt".toList) = 11 := by decide
  rw [dump_author, size_object (by simp)]
  simp only [List.map_cons, List.map_nil, List.sum_cons, List.sum_nil]
  unfold nameMax at hname
  unfold emailMax at hemail
  omega

/-- Every message fits into a request body, whatever characters have to be escaped. -/
theorem size_message {m : MessageOut} (htitle : m.title.length ≤ titleMax)
    (hcontent : m.content.length ≤ contentMax) (hname : m.author.name.length ≤ nameMax)
    (hemail : m.author.email.length ≤ emailMax) (hversion : m.version ≤ maxInt4) :
    (encodeUtf8 (modelDumpJson m)).length ≤ maxBodyBytes := by
  have hid := size_string (k := "id") (length_str m.id).le
  have htitle := size_string (k := "title") htitle
  have hcontent := size_string (k := "content") hcontent
  have hcreated := size_string (k := "createdAt") (length_isoFormat m.createdAt)
  have hversion : size (print (.num m.version)) ≤ 10 :=
    size_number (by decide) (lt_of_le_of_lt hversion (by decide))
  have hversion' := size_field "version" (.num m.version)
  have hauthor := size_author hname hemail
  have hauthor' := size_field "author" (AuthorOut.dump m.author)
  have hkeys : size (quote "id".toList) = 4 ∧ size (quote "title".toList) = 7 ∧
      size (quote "content".toList) = 9 ∧ size (quote "createdAt".toList) = 11 ∧
      size (quote "version".toList) = 9 ∧ size (quote "author".toList) = 8 := by decide
  refine (length_dumps _).trans_le ?_
  rw [dump_message, size_object (by simp)]
  simp only [List.map_cons, List.map_nil, List.sum_cons, List.sum_nil]
  unfold titleMax at htitle
  unfold contentMax at hcontent
  unfold maxBodyBytes
  omega

end Sizes

section Writing

variable {m : MessageOut} {a : AuthorOut}

theorem plain_author (d : ℕ) : Plain (d + 1) (AuthorOut.dump a) := by
  rw [dump_author]
  simp [Plain, PlainFields]

theorem plain_message (d : ℕ) (hversion : m.version ≤ maxInt4) :
    Plain (d + 2) (MessageOut.dump m) := by
  have hlt : m.version < 10 ^ maxStrDigits :=
    calc m.version ≤ maxInt4 := hversion
      _ < 10 ^ 10 := by decide
      _ ≤ 10 ^ maxStrDigits := Nat.pow_le_pow_right (by decide) (by decide)
  rw [dump_message]
  simp only [Plain, PlainFields]
  exact ⟨trivial, trivial, trivial, trivial, hlt, plain_author d, trivial⟩

theorem writes_message {p : MessageUpdate} (htitle : p.title = some (text m.title))
    (hcontent : p.content = text m.content) (hversion : p.version = m.version) :
    ∃ members, loaded (MessageOut.dump m) = .dict members ∧
      Writes members (.updateMessage m.id p) := by
  refine ⟨_, by rw [dump_message]; rfl, ?_, ?_, ?_⟩
  · rw [htitle]
    exact ⟨text m.title, rfl, p.title_checked _ htitle⟩
  · exact ⟨text m.content, rfl, hcontent ▸ p.content_checked⟩
  · rw [hversion]
    rfl

theorem writes_author {p : AuthorUpdate} (hname : p.name = some (text a.name))
    (hemail : p.email = some (text a.email)) :
    ∃ members, loaded (AuthorOut.dump a) = .dict members ∧
      Writes members (.updateAuthor a.id p) := by
  refine ⟨_, by rw [dump_author]; rfl, ?_, ?_⟩
  · rw [hname]
    exact ⟨text a.name, rfl, p.name_checked _ hname⟩
  · rw [hemail]
    exact ⟨text a.email, rfl, p.email_checked _ hemail⟩

end Writing

section Answers

variable [frameworks : Frameworks]

/-- A PATCH with a JSON body, and its length if a length is declared. -/
structure Patches (path : String) (scope : Scope) (body : Bytes) : Prop where
  http : scope.type = "http"
  method : scope.method = "PATCH"
  path : scope.path = path
  contentType : Frameworks.isJson (firstHeader scope "content-type") = true
  length : isDigits (declared scope) = true → pythonInt (declared scope) = .ok body.length

/-- In any number of parts the body reaches the endpoint once, as the payload. -/
def Reaches (scope : Scope) (body : Bytes) (payload : Payload) : Prop :=
  ∀ (service : Payload → Except Asgi.Exc Response) (clock : Client → ℚ) (patience : ℕ)
    (others : App)
    (messages : List Received), Splits messages body → messages.length ≤ patience →
    (∀ name, service payload ≠ .error (.interrupt name)) →
    serve service clock (createApp maxBodyBytes patience others) scope messages =
      ⟨[], (replyOf scope (service payload)).messages, [payload]⟩

theorem reaches_message (hfaithful : Faithful frameworks) (hnesting : 2 ≤ frameworks.nesting)
    {m : MessageOut} {p : MessageUpdate} {scope : Scope} (htitle : p.title = some (text m.title))
    (hcontent : p.content = text m.content) (hversion : p.version = m.version)
    (hname : m.author.name.length ≤ nameMax) (hemail : m.author.email.length ≤ emailMax)
    (h : Patches ("/messages/" ++ m.id.str) scope (encodeUtf8 (modelDumpJson m))) :
    Reaches scope (encodeUtf8 (modelDumpJson m)) (.updateMessage m.id p) := by
  intro service clock patience others messages hsplits hpatience hexc
  obtain ⟨members, hmembers, hwrites⟩ := writes_message htitle hcontent hversion
  have hle : m.version ≤ maxInt4 := hversion ▸ p.version_le
  obtain ⟨d, hd⟩ : ∃ d, frameworks.nesting = d + 2 := ⟨frameworks.nesting - 2, by omega⟩
  have hdocument : Document frameworks.nesting (.dict members) (text (modelDumpJson m)) := by
    rw [hd, ← hmembers]
    exact document_dumps (plain_message d hle)
  have hsize : (encodeUtf8 (modelDumpJson m)).length ≤ maxBodyBytes :=
    size_message (checked_string (p.title_checked _ htitle))
      (checked_string (hcontent ▸ p.content_checked)) hname hemail hle
  exact serve_sent hfaithful ⟨h.http, h.method, h.path, h.contentType, h.length, _, members,
    rfl, hdocument, hwrites⟩ hsplits hsize hpatience hexc

theorem reaches_author (hfaithful : Faithful frameworks) (hnesting : 2 ≤ frameworks.nesting)
    {a : AuthorOut} {p : AuthorUpdate} {scope : Scope} (hname : p.name = some (text a.name))
    (hemail : p.email = some (text a.email))
    (h : Patches ("/authors/" ++ a.id.str) scope (encodeUtf8 (dumps (AuthorOut.dump a)))) :
    Reaches scope (encodeUtf8 (dumps (AuthorOut.dump a))) (.updateAuthor a.id p) := by
  intro service clock patience others messages hsplits hpatience hexc
  obtain ⟨members, hmembers, hwrites⟩ := writes_author hname hemail
  obtain ⟨d, hd⟩ : ∃ d, frameworks.nesting = d + 1 := ⟨frameworks.nesting - 1, by omega⟩
  have hdocument : Document frameworks.nesting (.dict members)
      (text (dumps (AuthorOut.dump a))) := by
    rw [hd, ← hmembers]
    exact document_dumps (plain_author d)
  have hsize : (encodeUtf8 (dumps (AuthorOut.dump a))).length ≤ maxBodyBytes := by
    rw [length_dumps]
    exact (size_author (checked_string (p.name_checked _ hname))
      (checked_string (p.email_checked _ hemail))).trans (by decide)
  exact serve_sent hfaithful ⟨h.http, h.method, h.path, h.contentType, h.length, _, members,
    rfl, hdocument, hwrites⟩ hsplits hsize hpatience hexc

/-- What the API says of a row at an instant is taken back as the update that leaves the row as it
is, and that update succeeds or finds another row. -/
structure TakesBack (ρ : Run .empty) : Prop where
  message : ∀ n ≤ ρ.length, ∀ m rep, representation (ρ.store n).db m = some rep →
    rep.version < maxInt4 → ∃ row p, MessageBack ρ n m row p ∧ ρ.row n m = some row ∧
      p.title = some (text rep.title) ∧ p.content = text rep.content ∧ p.version = rep.version ∧
      ∀ scope, Patches ("/messages/" ++ m.str) scope (encodeUtf8 (modelDumpJson rep)) →
        Reaches scope (encodeUtf8 (modelDumpJson rep)) (.updateMessage m p)
  author : ∀ n ≤ ρ.length, ∀ id row, ρ.author n id = some row → ∃ p, AuthorBack ρ n id row p ∧
    ∀ scope, Patches ("/authors/" ++ id.str) scope
        (encodeUtf8 (dumps (AuthorOut.dump (.ofRow row)))) →
      Reaches scope (encodeUtf8 (dumps (AuthorOut.dump (.ofRow row)))) (.updateAuthor id p)

theorem takes_back (hfaithful : Faithful frameworks) (hnesting : 2 ≤ frameworks.nesting)
    (ρ : Run .empty) : TakesBack ρ := by
  constructor
  · intro n hn m rep hrep hmax
    have hs := run_stored accepted_empty hn
    obtain ⟨row, hrow, hjoin⟩ := Option.bind_eq_some_iff.mp hrep
    cases hauthor : (ρ.store n).db.authors.lookup row.authorId with
    | none =>
      rw [hauthor] at hjoin
      cases hjoin
    | some a =>
      rw [hauthor] at hjoin
      obtain rfl : ⟨.ofRow row, .ofRow a⟩ = rep := Option.some.inj hjoin
      obtain ⟨p, hp⟩ := messageBack hs hn hrow hmax
      have haccepted := hs.db.authors row.authorId a hauthor
      obtain rfl : row.id = m := lookup_key hrow
      exact ⟨row, p, hp, hrow, hp.title, hp.content, hp.version, fun scope h =>
        reaches_message hfaithful hnesting hp.title hp.content hp.version
          (checked_string haccepted.name.1) (checked_string haccepted.email.1) h⟩
  · intro n hn id row hrow
    have hs := run_stored accepted_empty hn
    obtain ⟨p, hp⟩ := authorBack hs hn hrow
    obtain rfl : row.id = id := lookup_key hrow
    exact ⟨p, hp, fun scope h => reaches_author hfaithful hnesting hp.name hp.email h⟩

end Answers

section Stored

theorem hello_title : Checked .title (text "Hello") := hello_checked.1

theorem hello_content : Checked .content (text "First") := hello_checked.2

def helloCreate : MessageCreate := ⟨text "Hello", text "First", 1, hello_title, hello_content⟩

/-- An author and a message are created. -/
def stored : Run .empty := scheduled .empty
  [.call 0 (.createAuthor adaCreate), act 0 1, act 0 0, .close 0,
    .call 1 (.createMessage helloCreate), act 1 0, act 1 2, act 1 0, .close 1] (by decide +kernel)

theorem takes_back_stored : @TakesBack strict stored ∧
    (representation (stored.store 9).db 2).isSome = true :=
  ⟨@takes_back strict strict_faithful (by decide) stored, by decide +kernel⟩

end Stored

end SentBack
