import Mathlib.Data.Nat.Notation
import MessageService.Library.Wrappers
import MessageService.Problems
import MessageService.Schemas

/-! ASGI applications: the scope of a request, the messages it receives and sends, and what an
application awaits. Of the headers of a response its content type and its `Location` are here. -/
namespace Asgi

open Programs Wrappers Problems Models Schemas

abbrev Bytes := List UInt8

def ascii (s : String) : Bytes := s.toList.map fun c => UInt8.ofNat c.toNat

/-- `route` is the path of the route template in `scope["route"]`. -/
structure Scope where
  type : String
  method : String
  path : String
  headers : List (Bytes × Bytes)
  route : Option String
  errorCode : Option String
  deriving DecidableEq, Repr

structure Received where
  type : String
  body : Option Bytes
  moreBody : Bool
  deriving DecidableEq, Repr

inductive Content where
  | problem (p : Problem)
  | bytes (b : Bytes)
  deriving DecidableEq, Repr

inductive Sent where
  | start (status : ℕ) (contentType location : Option String)
  | body (content : Content) (moreBody : Bool)
  | other (type : String)
  deriving DecidableEq, Repr

structure Response where
  status : ℕ
  contentType : Option String
  location : Option String
  content : Content
  deriving DecidableEq, Repr

/-- `interrupt` is no `Exception`, but a cancellation, say. -/
inductive Exc where
  | apiError (e : ApiError)
  | requestValidationError (errors : List ErrorDetails)
  | httpException (status : ℕ) (detail : String)
  | valueError
  | exception (name : String)
  | interrupt (name : String)
  deriving DecidableEq, Repr

/-- The validated arguments of an endpoint. -/
inductive Payload where
  | createMessage (payload : MessageCreate)
  | updateMessage (id : Uuid) (payload : MessageUpdate)
  | createAuthor (payload : AuthorCreate)
  | updateAuthor (id : Uuid) (payload : AuthorUpdate)
  deriving DecidableEq

inductive Effect where
  | receive
  | send (message : Sent)
  | endpoint (payload : Payload)
  deriving DecidableEq

abbrev Reply : Effect → Type
  | .receive => Except Exc Received
  | .send _ => Except Exc Unit
  | .endpoint _ => Except Exc Response

abbrev Step := Exchange Effect Reply

abbrev Outcome := Except Exc Unit

abbrev App := Scope → Program Effect Reply (Outcome × Scope)

/-- `PROBLEM_JSON` -/
def problemJson : String := "application/problem+json"

/-- `problem_response`. The metrics read the code off the scope. -/
def problemResponse (scope : Scope) (status : ℕ) (code detail : String)
    (invalidParams : List InvalidParam) (typeSlug : Option String) : Response × Scope :=
  (⟨status, some problemJson, none,
    .problem (problemBody scope.path status code detail invalidParams typeSlug)⟩,
    { scope with errorCode := some code })

def respond (response : Response) : Program Effect Reply Outcome :=
  .await (.send (.start response.status response.contentType response.location)) fun
    | .error exc => .done (.error exc)
    | .ok _ => .await (.send (.body response.content false)) .done

def answer (r : Response × Scope) : Program Effect Reply (Outcome × Scope) :=
  (respond r.1).bind fun o => .done (o, r.2)

section Answers

def message : Step → Option Sent
  | ⟨.send m, _⟩ => some m
  | _ => none

def sent (tr : List Step) : List Sent := tr.filterMap message

def SendsSucceed (tr : List Step) : Prop :=
  ∀ m r, (⟨.send m, r⟩ : Step) ∈ tr → r = .ok ()

def Response.messages (response : Response) : List Sent :=
  [.start response.status response.contentType response.location, .body response.content false]

/-- To a client that takes every message an answer is sent whole. -/
theorem ends_answer {response : Response} {scope : Scope} {tr : List Step} {r : Outcome × Scope}
    (h : Ends (answer (response, scope)) tr r) (hsends : SendsSucceed tr) :
    sent tr = response.messages ∧ r = (.ok (), scope) := by
  obtain ⟨start, rest, rfl, hrest⟩ := ends_await h
  obtain rfl : start = .ok () := hsends _ _ (List.mem_cons_self ..)
  obtain ⟨body, rest, rfl, hend⟩ := ends_await hrest
  obtain rfl : body = .ok () := hsends _ _ (List.mem_cons_of_mem _ (List.mem_cons_self ..))
  obtain ⟨rfl, rfl⟩ := ends_done hend
  exact ⟨rfl, rfl⟩

end Answers

end Asgi
