import Mathlib.Data.Nat.Notation
import Mathlib.Tactic.SplitIfs
import MessageService.Library.FixedDigits

/-! RFC 9457 problem details: the problem types of the service, the errors that become problems,
and the words in which a failed validation is reported. -/
namespace Problems

open FixedDigits

structure ProblemType where
  slug : String
  code : String
  status : ℕ
  deriving DecidableEq, Repr

def ProblemType.uri (t : ProblemType) : String := "/problems/" ++ t.slug

/-- `PROBLEM_TYPES` -/
def problemTypes : List ProblemType :=
  [⟨"bad-user-input", "BAD_USER_INPUT", 400⟩, ⟨"not-found", "NOT_FOUND", 404⟩,
    ⟨"conflict", "CONFLICT", 409⟩, ⟨"payload-too-large", "BAD_USER_INPUT", 413⟩,
    ⟨"internal-server-error", "INTERNAL_SERVER_ERROR", 500⟩]

/-- `_DEFAULT_TYPE_BY_CODE` -/
def defaultTypeByCode : List (String × String) :=
  [("BAD_USER_INPUT", "bad-user-input"), ("NOT_FOUND", "not-found"), ("CONFLICT", "conflict"),
    ("INTERNAL_SERVER_ERROR", "internal-server-error")]

/-- Every default type is a type of the service, and one of that code. -/
theorem default_types_known : ∀ d ∈ defaultTypeByCode, ∃ t ∈ problemTypes,
    t.slug = d.2 ∧ t.code = d.1 := by decide

/-- The type of an error of this code; `typeSlug` is the one the error names itself. -/
def typeUri (code : String) (typeSlug : Option String) : String :=
  let slug := typeSlug.or ((defaultTypeByCode.find? (·.1 = code)).map Prod.snd)
  match slug.bind fun slug => problemTypes.find? (·.slug = slug) with
  | some t => t.uri
  | none => "about:blank"

/-- `HTTPStatus(status).phrase`, for the statuses an error of the service or its router has. -/
def phrase (status : ℕ) : String :=
  (([(400, "Bad Request"), (404, "Not Found"), (405, "Method Not Allowed"), (409, "Conflict"),
    (413, "Content Too Large"), (500, "Internal Server Error")].find? (·.1 = status)).map
      Prod.snd).getD ""

/-- `urllib.parse.quote(s, safe="/")` on one character. -/
def quoteChar (c : Char) : List Char :=
  if c.isAlphanum ∨ c ∈ ['_', '.', '-', '~', '/'] then [c]
  else (String.utf8EncodeChar c).flatMap fun b => '%' :: (encode 16 2 b.toNat).map Char.toUpper

def quote (s : String) : String := String.ofList (s.toList.flatMap quoteChar)

structure InvalidParam where
  name : String
  reason : String
  deriving DecidableEq, Repr

/-- The body of a problem response; `invalidParams` is a member only when there are any. -/
structure Problem where
  type : String
  title : String
  status : ℕ
  detail : String
  instancePath : String
  code : String
  invalidParams : List InvalidParam
  deriving DecidableEq, Repr

def problemBody (path : String) (status : ℕ) (code detail : String)
    (invalidParams : List InvalidParam) (typeSlug : Option String) : Problem :=
  ⟨typeUri code typeSlug, phrase status, status, detail, quote path, code, invalidParams⟩

/-- An `ApiError` and its subclasses, which fix the status, the code and the type. -/
structure ApiError where
  status : ℕ
  code : String
  typeSlug : Option String
  detail : String
  invalidParams : List InvalidParam
  deriving DecidableEq, Repr

def payloadTooLargeError (detail : String) : ApiError :=
  ⟨413, "BAD_USER_INPUT", some "payload-too-large", detail, []⟩

section Validation

def validationDetail : String := "The request content was invalid or failed validation constraints."

inductive LocPart where
  | field (name : String)
  | index (n : ℕ)
  deriving DecidableEq, Repr

/-- One error of a `RequestValidationError`, as far as its report reads it; `ge`, `le` and
`expected` are members of its `ctx`. -/
structure ErrorDetails where
  kind : String
  loc : List LocPart
  msg : String
  inputNone : Bool
  ge : Option ℤ
  le : Option ℤ
  expected : Option String
  deriving DecidableEq, Repr

def paramParts (loc : List LocPart) : List String :=
  loc.filterMap fun
    | .field name => if name ∈ ["body", "query", "path"] then none else some name
    | .index _ => none

/-- `_param_name` -/
def paramName (loc : List LocPart) : String :=
  let name := String.intercalate "." (paramParts loc)
  if name = "" then "body" else name

/-- A value in an f-string, where a missing one is `None`. -/
def shown {α : Type} [ToString α] : Option α → String
  | some a => toString a
  | none => "None"

/-- `str.removeprefix` -/
def removePrefix (s before : String) : String :=
  if before.toList.isPrefixOf s.toList then String.ofList (s.toList.drop before.toList.length)
  else s

def valueErrorPrefix : String := "Value error, "

/-- `_reason` -/
def reason (name : String) (error : ErrorDetails) : String :=
  if error.kind = "missing" ∨ (error.kind = "string_type" ∧ error.inputNone) then
    name ++ " is required and cannot be blank"
  else if error.kind = "greater_than_equal" then
    if error.ge = some 0 then name ++ " must not be negative"
    else name ++ " must be at least " ++ shown error.ge
  else if error.kind = "less_than_equal" then name ++ " must not exceed " ++ shown error.le
  else if error.kind = "int_parsing" then name ++ " must be an integer"
  else if error.kind = "uuid_parsing" then name ++ " must be a valid UUID"
  else if error.kind = "string_type" then name ++ " must be a string"
  else if error.kind = "literal_error" then name ++ " must be one of: " ++ shown error.expected
  else if error.kind ∈ ["json_invalid", "model_attributes_type", "dict_type"] then
    "request body must be a valid JSON object"
  else if error.kind = "value_error" then removePrefix error.msg valueErrorPrefix
  else error.msg

def invalidParam (error : ErrorDetails) : InvalidParam :=
  ⟨paramName error.loc, reason (paramName error.loc) error⟩

theorem paramName_ne_empty (loc : List LocPart) : paramName loc ≠ "" := by
  unfold paramName
  dsimp only
  split
  · decide
  · assumption

theorem append_ne_empty {a b : String} (h : b ≠ "") : a ++ b ≠ "" := by
  intro hab
  apply h
  have hlist := congrArg String.toList hab
  rw [String.toList_append] at hlist
  exact String.toList_inj.mp (List.append_eq_nil_iff.mp hlist).2

theorem append_left_ne_empty {a b : String} (h : a ≠ "") : a ++ b ≠ "" := by
  intro hab
  apply h
  have hlist := congrArg String.toList hab
  rw [String.toList_append] at hlist
  exact String.toList_inj.mp (List.append_eq_nil_iff.mp hlist).1

/-- What is left of a `ValueError` of the service is its own text. -/
theorem removePrefix_append (before s : String) : removePrefix (before ++ s) before = s := by
  unfold removePrefix
  rw [String.toList_append, if_pos (by simp), List.drop_left, String.ofList_toList]

/-- A reason is given as long as the message it falls back on is not empty. -/
theorem reason_ne_empty {name : String} {error : ErrorDetails} (hmsg : error.msg ≠ "")
    (hvalue : error.kind = "value_error" → removePrefix error.msg valueErrorPrefix ≠ "") :
    reason name error ≠ "" := by
  unfold reason
  split_ifs with _ _ _ _ _ _ _ _ _ hkind
  · exact append_ne_empty (by decide)
  · exact append_ne_empty (by decide)
  · exact append_left_ne_empty (append_ne_empty (by decide))
  · exact append_left_ne_empty (append_ne_empty (by decide))
  · exact append_ne_empty (by decide)
  · exact append_ne_empty (by decide)
  · exact append_ne_empty (by decide)
  · exact append_left_ne_empty (append_ne_empty (by decide))
  · decide
  · exact hvalue hkind
  · exact hmsg

end Validation

end Problems
