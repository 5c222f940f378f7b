import MessageService.Library.JsonValues
import MessageService.Schemas

/-! The JSON form of a message in the cache: `model_dump_json(by_alias=True)` and
`model_validate_json`. Field names, aliases and types are those of the models; the JSON text
itself and the ISO 8601 form of a datetime belong to pydantic and are parameters. -/
namespace MessageJson

open JsonValues Models Schemas

/-- What the models rely on: writing then reading gives back the JSON value, and writing then
reading a UTC datetime gives back the datetime. -/
class JsonCodec where
  dumps : Json → String
  loads : String → Option Json
  loads_dumps : ∀ j, loads (dumps j) = some j
  isoFormat : Datetime → String
  fromIso : String → Option Datetime
  fromIso_isoFormat : ∀ t, fromIso (isoFormat t) = some t

variable [JsonCodec]

open JsonCodec

/-- `pydantic.alias_generators.to_camel` on a field name of lower-case words. -/
def toCamel : List Char → List Char
  | '_' :: c :: cs => c.toUpper :: toCamel cs
  | c :: cs => c :: toCamel cs
  | [] => []

def toAlias (field : String) : String := String.ofList (toCamel field.toList)

def AuthorOut.dump (a : AuthorOut) : Json :=
  .obj [(toAlias "id", .str a.id.str), (toAlias "name", .str a.name),
    (toAlias "email", .str a.email),
    (toAlias "created_at", .str (isoFormat a.createdAt))]

def MessageOut.dump (m : MessageOut) : Json :=
  .obj [(toAlias "id", .str m.id.str), (toAlias "title", .str m.title),
    (toAlias "content", .str m.content), (toAlias "created_at", .str (isoFormat m.createdAt)),
    (toAlias "version", .num m.version), (toAlias "author", AuthorOut.dump m.author)]

/-- A member under its alias or, as `populate_by_name` allows, under the field's own name. -/
def member (field : String) (j : Json) : Option Json :=
  (j.get? (toAlias field)).or (j.get? field)

def AuthorOut.validate (j : Json) : Option AuthorOut := do
  let id ← Uuid.ofStr (← (← member "id" j).str?)
  let name ← (← member "name" j).str?
  let email ← (← member "email" j).str?
  let createdAt ← fromIso (← (← member "created_at" j).str?)
  return ⟨id, name, email, createdAt⟩

def MessageOut.validate (j : Json) : Option MessageOut := do
  let id ← Uuid.ofStr (← (← member "id" j).str?)
  let title ← (← member "title" j).str?
  let content ← (← member "content" j).str?
  let createdAt ← fromIso (← (← member "created_at" j).str?)
  let version ← (← member "version" j).num?
  let author ← AuthorOut.validate (← member "author" j)
  return ⟨⟨id, title, content, createdAt, version⟩, author⟩

/-- `model_dump_json(by_alias=True)` -/
def modelDumpJson (m : MessageOut) : String := dumps (MessageOut.dump m)

/-- `MessageOut.model_validate_json` -/
def modelValidateJson (s : String) : Option MessageOut := (loads s).bind MessageOut.validate

theorem author_round_trip (a : AuthorOut) : AuthorOut.validate (AuthorOut.dump a) = some a := by
  have hc : toAlias "created_at" = "createdAt" := by decide
  have hi : toAlias "id" = "id" := by decide
  have hn : toAlias "name" = "name" := by decide
  have he : toAlias "email" = "email" := by decide
  simp [AuthorOut.validate, AuthorOut.dump, member, Json.get?, Json.str?, hc, hi, hn, he,
    ofStr_str, fromIso_isoFormat]

theorem message_round_trip (m : MessageOut) : MessageOut.validate (MessageOut.dump m) = some m := by
  have hc : toAlias "created_at" = "createdAt" := by decide
  have hi : toAlias "id" = "id" := by decide
  have ht : toAlias "title" = "title" := by decide
  have hn : toAlias "content" = "content" := by decide
  have hv : toAlias "version" = "version" := by decide
  have ha : toAlias "author" = "author" := by decide
  simp [MessageOut.validate, MessageOut.dump, member, Json.get?, Json.str?, Json.num?, hc, hi, ht,
    hn, hv, ha, ofStr_str, fromIso_isoFormat, author_round_trip]

/-- A cached text reads back as the message it was written from. -/
theorem validate_dump (m : MessageOut) : modelValidateJson (modelDumpJson m) = some m := by
  unfold modelValidateJson modelDumpJson
  rw [loads_dumps, Option.bind_some, message_round_trip]

end MessageJson
