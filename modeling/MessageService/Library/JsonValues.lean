import Mathlib.Data.Nat.Notation

/-! JSON values, with objects as association lists in writing order. -/
namespace JsonValues

inductive Json where
  | null
  | num (n : ℕ)
  | str (s : String)
  | obj (fields : List (String × Json))

/-- The value of a member; of members with one name the first is read. -/
def Json.get? (name : String) : Json → Option Json
  | .obj fields => (fields.find? (fun f => f.1 = name)).map Prod.snd
  | _ => none

def Json.num? : Json → Option ℕ
  | .num n => some n
  | _ => none

def Json.str? : Json → Option String
  | .str s => some s
  | _ => none

end JsonValues
