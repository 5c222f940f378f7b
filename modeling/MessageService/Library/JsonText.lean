import Mathlib.Data.List.Basic
import Mathlib.Data.List.TakeWhile
import MessageService.Library.FixedDigits
import MessageService.Library.JsonValues

/-! The compact text of a JSON value, and reading it back.
The writer escapes what JSON requires and puts no blanks between tokens; the reader inverts
it on every value. -/
namespace JsonText

open JsonValues FixedDigits

/-- A character of a string literal. -/
def escape (c : Char) : List Char :=
  if c = '"' then ['\\', '"']
  else if c = '\\' then ['\\', '\\']
  else if c = '\n' then ['\\', 'n']
  else if c = '\r' then ['\\', 'r']
  else if c = '\t' then ['\\', 't']
  else if c = '\x08' then ['\\', 'b']
  else if c = '\x0c' then ['\\', 'f']
  else if c.toNat < 32 then '\\' :: 'u' :: encode 16 4 c.toNat
  else [c]

def quote (cs : List Char) : List Char := '"' :: (cs.flatMap escape ++ ['"'])

mutual
def print : Json → List Char
  | .null => ['n', 'u', 'l', 'l']
  | .num n => Nat.toDigits 10 n
  | .str s => quote s.toList
  | .obj [] => ['{', '}']
  | .obj (f :: fs) => '{' :: (printField f ++ printRest fs)

/-- The members after the first, up to the closing brace. -/
def printRest : List (String × Json) → List Char
  | [] => ['}']
  | f :: fs => ',' :: (printField f ++ printRest fs)

def printField : String × Json → List Char
  | (k, v) => quote k.toList ++ ':' :: print v
end

def unescape : Char → Option Char
  | '"' => some '"'
  | '\\' => some '\\'
  | '/' => some '/'
  | 'n' => some '\n'
  | 'r' => some '\r'
  | 't' => some '\t'
  | 'b' => some '\x08'
  | 'f' => some '\x0c'
  | _ => none

/-- The characters up to the closing quote, and what follows it. -/
def readString : List Char → Option (List Char × List Char)
  | '"' :: cs => some ([], cs)
  | '\\' :: 'u' :: a :: b :: c :: d :: cs =>
    (readString cs).map fun p => (Char.ofNat (decode 16 [a, b, c, d]) :: p.1, p.2)
  | '\\' :: c :: cs => (unescape c).bind fun e => (readString cs).map fun p => (e :: p.1, p.2)
  | c :: cs => (readString cs).map fun p => (c :: p.1, p.2)
  | [] => none

mutual
def readValue : ℕ → List Char → Option (Json × List Char)
  | n + 1, c :: cs =>
    if c.isDigit then
      some (.num (Nat.ofDigitChars 10 (c :: cs.takeWhile Char.isDigit) 0),
        cs.dropWhile Char.isDigit)
    else match c, cs with
      | 'n', 'u' :: 'l' :: 'l' :: cs => some (.null, cs)
      | '"', cs => (readString cs).map fun p => (.str (String.ofList p.1), p.2)
      | '{', '}' :: cs => some (.obj [], cs)
      | '{', cs => (readFields n cs).map fun p => (.obj p.1, p.2)
      | _, _ => none
  | _, _ => none

def readFields : ℕ → List Char → Option (List (String × Json) × List Char)
  | n + 1, '"' :: cs =>
    match readString cs with
    | some (k, ':' :: cs) =>
      match readValue n cs with
      | some (v, '}' :: cs) => some ([(String.ofList k, v)], cs)
      | some (v, ',' :: cs) => (readFields n cs).map fun p => ((String.ofList k, v) :: p.1, p.2)
      | _ => none
    | _ => none
  | _, _ => none
end

def dumps (j : Json) : String := String.ofList (print j)

def loads (s : String) : Option Json :=
  match readValue s.toList.length s.toList with
  | some (j, []) => some j
  | _ => none

section Strings

theorem decode_four {n : ℕ} (h : n < 32) : ∃ a b c d, encode 16 4 n = [a, b, c, d] ∧
    decode 16 [a, b, c, d] = n := by
  have hl : (encode 16 4 n).length = 4 := length_encode 16 4 n
  match he : encode 16 4 n, hl with
  | [a, b, c, d], _ =>
    refine ⟨a, b, c, d, rfl, ?_⟩
    rw [← he]
    exact decode_encode (by omega) (by omega) 4 n (by omega)

theorem readString_escape (c : Char) (cs : List Char) :
    readString (escape c ++ cs) = (readString cs).map fun p => (c :: p.1, p.2) := by
  unfold escape
  split
  · subst_vars; rfl
  split
  · subst_vars; rfl
  split
  · subst_vars; rfl
  split
  · subst_vars; rfl
  split
  · subst_vars; rfl
  split
  · subst_vars; rfl
  split
  · subst_vars; rfl
  split
  · rename_i h
    obtain ⟨a, b, d, e, he, hd⟩ := decode_four h
    rw [he]
    simp only [List.cons_append, List.nil_append, readString, hd, Char.ofNat_toNat]
  · rename_i hquote hback _ _ _ _ _ _
    rw [List.cons_append, List.nil_append, readString.eq_def]
    split <;> simp_all

theorem readString_quote (cs rest : List Char) :
    readString (cs.flatMap escape ++ '"' :: rest) = some (cs, rest) := by
  induction cs with
  | nil => rfl
  | cons c cs ih =>
    rw [List.flatMap_cons, List.append_assoc, readString_escape, ih]
    rfl

end Strings

section Values

/-- What follows a value is no digit, so a number ends where it was written to end. -/
def NoDigit (cs : List Char) : Prop := cs.takeWhile Char.isDigit = []

theorem dropWhile_of_noDigit {cs : List Char} (h : NoDigit cs) :
    cs.dropWhile Char.isDigit = cs := by
  have := List.takeWhile_append_dropWhile (p := Char.isDigit) (l := cs)
  rwa [h, List.nil_append] at this

theorem readValue_number (m n : ℕ) {cs : List Char} (h : NoDigit cs) :
    readValue (n + 1) (Nat.toDigits 10 m ++ cs) = some (.num m, cs) := by
  have hdigits : ∀ c ∈ Nat.toDigits 10 m, c.isDigit = true := fun c hc =>
    Nat.isDigit_of_mem_toDigits (by omega) (by omega) hc
  cases hd : Nat.toDigits 10 m with
  | nil => exact absurd hd Nat.toDigits_ne_nil
  | cons c ds =>
    have hc : c.isDigit = true := hdigits c (by rw [hd]; exact List.mem_cons_self ..)
    have hds : ∀ d ∈ ds, d.isDigit = true := fun d hd' =>
      hdigits d (by rw [hd]; exact List.mem_cons_of_mem _ hd')
    have htake : (ds ++ cs).takeWhile Char.isDigit = ds := by
      rw [List.takeWhile_append_of_pos hds, h, List.append_nil]
    have hdrop : (ds ++ cs).dropWhile Char.isDigit = cs := by
      rw [List.dropWhile_append_of_pos hds, dropWhile_of_noDigit h]
    have hval : Nat.ofDigitChars 10 (c :: ds) 0 = m := by
      rw [← hd]; exact Nat.ofDigitChars_ten_toDigits
    simp only [List.cons_append, readValue, hc, if_true, htake, hdrop, hval]

theorem field_text (k : String) (v : Json) (fs : List (String × Json)) (cs : List Char) :
    printField (k, v) ++ printRest fs ++ cs =
      '"' :: (k.toList.flatMap escape ++ '"' :: ':' :: (print v ++ (printRest fs ++ cs))) := by
  simp [printField, quote]

mutual
/-- Reading inverts writing, whatever follows the value that is no digit. -/
theorem readValue_print : ∀ (j : Json) (n : ℕ) (cs : List Char), (print j).length ≤ n →
    NoDigit cs → readValue n (print j ++ cs) = some (j, cs)
  | .null, 0, cs, h, _ => by simp [print] at h
  | .null, n + 1, cs, _, _ => rfl
  | .num m, 0, cs, h, _ => by
    have := Nat.length_toDigits_pos (b := 10) (n := m)
    simp only [print] at h
    omega
  | .num m, n + 1, cs, _, hcs => readValue_number m n hcs
  | .str s, 0, cs, h, _ => by simp [print, quote] at h
  | .str s, n + 1, cs, _, _ => by
    simp only [print, quote, List.cons_append, List.append_assoc, List.nil_append, readValue]
    rw [readString_quote]
    simp
  | .obj [], 0, cs, h, _ => by simp [print] at h
  | .obj [], n + 1, cs, _, _ => rfl
  | .obj (f :: fs), 0, cs, h, _ => by simp [print] at h
  | .obj ((k, v) :: fs), n + 1, cs, h, _ => by
    simp only [print, List.length_cons] at h
    have hread := readFields_print k v fs n cs (by omega)
    obtain ⟨t, ht⟩ : ∃ t, printField (k, v) ++ printRest fs ++ cs = '"' :: t := by
      rw [field_text]; exact ⟨_, rfl⟩
    rw [ht] at hread
    have htext : print (.obj ((k, v) :: fs)) ++ cs = '{' :: '"' :: t := by
      rw [← ht]; simp [print]
    rw [htext]
    change (readFields n ('"' :: t)).map _ = _
    rw [hread]
    rfl

theorem readFields_print : ∀ (k : String) (v : Json) (fs : List (String × Json)) (n : ℕ)
    (cs : List Char), (printField (k, v) ++ printRest fs).length ≤ n →
    readFields n (printField (k, v) ++ printRest fs ++ cs) = some ((k, v) :: fs, cs)
  | k, v, fs, 0, cs, h => by simp [printField, quote] at h
  | k, v, [], n + 1, cs, h => by
    have hv := readValue_print v n ('}' :: cs) (by
      simp only [printField, quote, List.length_append, List.length_cons] at h
      omega) rfl
    rw [field_text]
    simp only [readFields, readString_quote, printRest, List.cons_append, List.nil_append, hv]
    simp
  | k, v, (k', v') :: fs, n + 1, cs, h => by
    have hlen : (print v).length + (printField (k', v') ++ printRest fs).length ≤ n := by
      simp only [printRest, printField, quote, List.length_append, List.length_cons] at h ⊢
      omega
    have hv := readValue_print v n (',' :: (printField (k', v') ++ printRest fs ++ cs))
      (by omega) rfl
    have hfs := readFields_print k' v' fs n cs (by omega)
    rw [field_text]
    simp only [readFields, readString_quote, printRest, List.cons_append, hv, hfs]
    simp
end

/-- A written value reads back as itself. -/
theorem loads_dumps (j : Json) : loads (dumps j) = some j := by
  have h := readValue_print j (print j).length [] le_rfl rfl
  rw [List.append_nil] at h
  unfold loads dumps
  rw [String.toList_ofList, h]

end Values

end JsonText
