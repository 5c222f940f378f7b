import Mathlib.Data.List.TakeWhile
import Mathlib.Tactic.SplitIfs
import MessageService.Library.Texts

/-! `json.loads` of bytes, as the standard library of Python has it: the encoding is detected, the
bytes are decoded with `surrogatepass`, and the text is scanned. -/
namespace JsonLoads

open Texts

section Decoding

def isHighSurrogate (c : ℕ) : Bool := 0xd800 ≤ c && c ≤ 0xdbff
def isLowSurrogate (c : ℕ) : Bool := 0xdc00 ≤ c && c ≤ 0xdfff

def joinSurrogates (high low : ℕ) : ℕ := 0x10000 + (high - 0xd800) * 0x400 + (low - 0xdc00)

def isTail (b : ℕ) : Bool := 0x80 ≤ b && b ≤ 0xbf

/-- The first two bytes of a character of three bytes; the bytes of a surrogate pass. -/
def startsThree (a b : ℕ) : Bool :=
  (a == 0xe0 && 0xa0 ≤ b && b ≤ 0xbf) || (0xe1 ≤ a && a ≤ 0xef && isTail b)

def startsFour (a b : ℕ) : Bool :=
  (a == 0xf0 && 0x90 ≤ b && b ≤ 0xbf) || (0xf1 ≤ a && a ≤ 0xf3 && isTail b) ||
  (a == 0xf4 && 0x80 ≤ b && b ≤ 0x8f)

def utf8 : List ℕ → Option Text
  | [] => some []
  | a :: bs =>
    if a < 0x80 then (utf8 bs).map (a :: ·)
    else match bs with
      | [] => none
      | b :: cs =>
        if 0xc2 ≤ a ∧ a ≤ 0xdf ∧ isTail b then
          (utf8 cs).map (((a - 0xc0) * 0x40 + (b - 0x80)) :: ·)
        else match cs with
          | [] => none
          | c :: ds =>
            if startsThree a b ∧ isTail c then
              (utf8 ds).map (((a - 0xe0) * 0x1000 + (b - 0x80) * 0x40 + (c - 0x80)) :: ·)
            else match ds with
              | [] => none
              | d :: es =>
                if startsFour a b ∧ isTail c ∧ isTail d then
                  (utf8 es).map (((a - 0xf0) * 0x40000 + (b - 0x80) * 0x1000 + (c - 0x80) * 0x40 +
                    (d - 0x80)) :: ·)
                else none

inductive ByteOrder where
  | big | little
  deriving DecidableEq, Repr

/-- The units of two bytes of UTF-16. -/
def units (order : ByteOrder) : List ℕ → Option (List ℕ)
  | [] => some []
  | [_] => none
  | a :: b :: rest =>
    (units order rest).map ((match order with | .big => a * 256 + b | .little => b * 256 + a) :: ·)

/-- Pairs of surrogates are one code point; a surrogate alone passes. -/
def pairUp : List ℕ → Text
  | [] => []
  | [u] => [u]
  | u :: v :: us =>
    if isHighSurrogate u && isLowSurrogate v then joinSurrogates u v :: pairUp us
    else u :: pairUp (v :: us)

def utf16 (order : ByteOrder) (b : List ℕ) : Option Text := (units order b).map pairUp

def utf32 (order : ByteOrder) : List ℕ → Option Text
  | [] => some []
  | a :: b :: c :: d :: rest =>
    let u := match order with
      | .big => ((a * 256 + b) * 256 + c) * 256 + d
      | .little => ((d * 256 + c) * 256 + b) * 256 + a
    if u < 0x110000 then (utf32 order rest).map (u :: ·) else none
  | _ => none

/-- The text by the encoding `detect_encoding` finds: by a byte order mark, or by where the zeros
of the first characters stand. -/
def decodeText (b : List ℕ) : Option Text :=
  match b with
  | 0 :: 0 :: 0xfe :: 0xff :: rest => utf32 .big rest
  | 0xff :: 0xfe :: 0 :: 0 :: rest => utf32 .little rest
  | 0xfe :: 0xff :: rest => utf16 .big rest
  | 0xff :: 0xfe :: rest => utf16 .little rest
  | 0xef :: 0xbb :: 0xbf :: rest => utf8 rest
  | b₀ :: b₁ :: b₂ :: b₃ :: _ =>
    if b₀ = 0 then if b₁ = 0 then utf32 .big b else utf16 .big b
    else if b₁ = 0 then if b₂ = 0 ∧ b₃ = 0 then utf32 .little b else utf16 .little b
    else utf8 b
  | [b₀, b₁] =>
    if b₀ = 0 then utf16 .big b else if b₁ = 0 then utf16 .little b else utf8 b
  | _ => utf8 b

end Decoding

/-- A value; a float is kept as its literal, and of a dict the last member of a name counts. -/
inductive PyJson where
  | none
  | bool (b : Bool)
  | int (n : ℤ)
  | float (literal : Text)
  | str (s : Text)
  | list (items : List PyJson)
  | dict (members : List (Text × PyJson))

/-- Why a text is not scanned to its end. A `JSONDecodeError` says how much of the text is left
where it stands. -/
inductive Fault where
  | decodeError (left : ℕ)
  | valueError
  | recursionError
  deriving DecidableEq, Repr

section Scanning

def isBlank (c : ℕ) : Bool := c == 32 || c == 9 || c == 10 || c == 13

/-- The whitespace is skipped. -/
def skip (cs : Text) : Text := cs.dropWhile isBlank

def isDigit (c : ℕ) : Bool := 48 ≤ c && c ≤ 57

def hexDigit (c : ℕ) : Option ℕ :=
  if isDigit c then some (c - 48)
  else if 97 ≤ c ∧ c ≤ 102 then some (c - 87)
  else if 65 ≤ c ∧ c ≤ 70 then some (c - 55)
  else none

/-- Four hexadecimal digits, and what is left; a text does not end with them. -/
def scanHex : Text → Option (ℕ × Text)
  | a :: b :: c :: d :: rest =>
    if rest = [] then none
    else do
      let a ← hexDigit a
      let b ← hexDigit b
      let c ← hexDigit c
      let d ← hexDigit d
      return (((a * 16 + b) * 16 + c) * 16 + d, rest)
  | _ => none

def unescape (c : ℕ) : Option ℕ :=
  match c with
  | 34 => some 34
  | 92 => some 92
  | 47 => some 47
  | 98 => some 8
  | 102 => some 12
  | 110 => some 10
  | 114 => some 13
  | 116 => some 9
  | _ => none

/-- After a backslash; `start` is what was left at the opening quote. -/
def scanEscape (start : ℕ) : Text → Except Fault (ℕ × Text)
  | [] => .error (.decodeError start)
  | 117 :: cs =>
    match scanHex cs with
    | none => .error (.decodeError (cs.length + 1))
    | some (high, rest) =>
      match rest with
      | 92 :: 117 :: more =>
        if isHighSurrogate high ∧ more.length > 4 then
          match scanHex more with
          | none => .error (.decodeError (more.length + 1))
          | some (low, rest') =>
            if isLowSurrogate low then .ok (joinSurrogates high low, rest') else .ok (high, rest)
        else .ok (high, rest)
      | _ => .ok (high, rest)
  | c :: cs =>
    match unescape c with
    | some d => .ok (d, cs)
    | none => .error (.decodeError (cs.length + 2))

/-- `scanstring`, after the opening quote. -/
def scanString : ℕ → ℕ → Text → Except Fault (Text × Text)
  | 0, _, _ => .error .recursionError
  | n + 1, start, cs =>
    match cs with
    | [] => .error (.decodeError start)
    | 34 :: cs => .ok ([], cs)
    | 92 :: cs => do
      let (c, cs) ← scanEscape start cs
      let (s, rest) ← scanString n start cs
      return (c :: s, rest)
    | c :: cs =>
      if c ≤ 31 then .error (.decodeError (cs.length + 1))
      else do
        let (s, rest) ← scanString n start cs
        return (c :: s, rest)

/-- A point and at least one digit, if they are there. -/
def scanFraction : Text → Text × Text
  | 46 :: d :: cs =>
    if isDigit d then (46 :: d :: cs.takeWhile isDigit, cs.dropWhile isDigit)
    else ([], 46 :: d :: cs)
  | cs => ([], cs)

def scanSign : Text → Text × Text
  | 43 :: cs => ([43], cs)
  | 45 :: cs => ([45], cs)
  | cs => ([], cs)

/-- An exponent with at least one digit, if it is there. -/
def scanExponent : Text → Text × Text
  | e :: cs =>
    let (sign, ds) := scanSign cs
    if (e = 101 ∨ e = 69) ∧ ds.takeWhile isDigit ≠ [] then
      (e :: (sign ++ ds.takeWhile isDigit), ds.dropWhile isDigit)
    else ([], e :: cs)
  | [] => ([], [])

def readDigits (ds : Text) : ℕ := ds.foldl (fun n d => n * 10 + (d - 48)) 0

/-- The most digits `int` takes. -/
def maxStrDigits : ℕ := 4300

def scanMinus : Text → Text × Text
  | 45 :: cs => ([45], cs)
  | cs => ([], cs)

/-- The digits after the first; none follow a zero. -/
def scanWhole (d : ℕ) (cs : Text) : Text × Text :=
  if d = 48 then ([], cs) else (cs.takeWhile isDigit, cs.dropWhile isDigit)

/-- `match_number`: an integer, or a float when a fraction or an exponent follows. -/
def scanNumber (cs : Text) : Except Fault (PyJson × Text) :=
  let (minus, ds) := scanMinus cs
  match ds with
  | [] => .error (.decodeError cs.length)
  | d :: ds =>
    if ¬isDigit d then .error (.decodeError cs.length)
    else
      let (more, rest) := scanWhole d ds
      let (fraction, rest) := scanFraction rest
      let (exponent, rest) := scanExponent rest
      if fraction = [] ∧ exponent = [] then
        if (d :: more).length > maxStrDigits then .error .valueError
        else
          let n : ℤ := readDigits (d :: more)
          .ok (.int (if minus = [] then n else -n), rest)
      else .ok (.float (minus ++ d :: (more ++ (fraction ++ exponent))), rest)

def literals : List (Text × PyJson) :=
  [(text "null", .none), (text "true", .bool true), (text "false", .bool false),
    (text "NaN", .float (text "NaN")), (text "Infinity", .float (text "Infinity")),
    (text "-Infinity", .float (text "-Infinity"))]

mutual
/-- `scan_once`. The first argument bounds the steps; `nesting` is how many containers may still
be entered. -/
def scanOnce : ℕ → ℕ → Text → Except Fault (PyJson × Text)
  | 0, _, _ => .error .recursionError
  | n + 1, nesting, cs =>
    match cs with
    | 34 :: cs => do
      let (s, rest) ← scanString n (cs.length + 1) cs
      return (.str s, rest)
    | 123 :: cs =>
      match nesting, skip cs with
      | 0, _ => .error .recursionError
      | _ + 1, 125 :: rest => .ok (.dict [], rest)
      | nesting + 1, cs => do
        let (members, rest) ← scanMembers n nesting cs
        return (.dict members, rest)
    | 91 :: cs =>
      match nesting, skip cs with
      | 0, _ => .error .recursionError
      | _ + 1, 93 :: rest => .ok (.list [], rest)
      | nesting + 1, cs => do
        let (items, rest) ← scanItems n nesting cs
        return (.list items, rest)
    | cs =>
      match literals.find? (·.1.isPrefixOf cs) with
      | some (word, value) => .ok (value, cs.drop word.length)
      | none => scanNumber cs

/-- The members of an object up to its closing brace, from a key on. -/
def scanMembers : ℕ → ℕ → Text → Except Fault (List (Text × PyJson) × Text)
  | 0, _, _ => .error .recursionError
  | n + 1, nesting, cs =>
    match cs with
    | 34 :: cs => do
      let (key, cs) ← scanString n (cs.length + 1) cs
      match skip cs with
      | 58 :: cs => do
        let (value, cs) ← scanOnce n nesting (skip cs)
        match skip cs with
        | 125 :: rest => return ([(key, value)], rest)
        | 44 :: cs =>
          match skip cs with
          | 125 :: _ => .error (.decodeError (cs.length + 1))
          | next => do
            let (members, rest) ← scanMembers n nesting next
            return ((key, value) :: members, rest)
        | cs => .error (.decodeError cs.length)
      | cs => .error (.decodeError cs.length)
    | cs => .error (.decodeError cs.length)

/-- The items of an array up to its closing bracket, from an item on. -/
def scanItems : ℕ → ℕ → Text → Except Fault (List PyJson × Text)
  | 0, _, _ => .error .recursionError
  | n + 1, nesting, cs => do
    let (item, cs) ← scanOnce n nesting cs
    match skip cs with
    | 93 :: rest => return ([item], rest)
    | 44 :: cs =>
      match skip cs with
      | 93 :: _ => .error (.decodeError (cs.length + 1))
      | next => do
        let (items, rest) ← scanItems n nesting next
        return (item :: items, rest)
    | cs => .error (.decodeError cs.length)
end

/-- What `json.loads` raises; `pos` is a position in the text. -/
inductive LoadsError where
  | jsonDecodeError (pos : ℕ)
  | unicodeDecodeError
  | valueError
  | recursionError
  deriving DecidableEq, Repr

def Fault.raised (length : ℕ) : Fault → LoadsError
  | .decodeError left => .jsonDecodeError (length - left)
  | .valueError => .valueError
  | .recursionError => .recursionError

/-- The one value of a text, with nothing but whitespace around it. -/
def decode (nesting : ℕ) (cs : Text) : Except Fault PyJson := do
  let (value, rest) ← scanOnce (2 * cs.length + 1) nesting (skip cs)
  match skip rest with
  | [] => return value
  | rest => .error (.decodeError rest.length)

def jsonLoads (nesting : ℕ) (b : List UInt8) : Except LoadsError PyJson :=
  match decodeText (b.map UInt8.toNat) with
  | none => .error .unicodeDecodeError
  | some cs => (decode nesting cs).mapError (Fault.raised cs.length)

end Scanning

section Steps

variable {α β : Type}

/-- Whatever is scanned takes at least one character of the text. -/
def Takes (cs : Text) (x : Except Fault (α × Text)) : Prop :=
  ∀ a rest, x = .ok (a, rest) → rest.length < cs.length

theorem takes_error {cs : Text} {fault : Fault} :
    Takes cs (.error fault : Except Fault (α × Text)) := by
  intro a rest h
  cases h

theorem takes_ok {cs rest : Text} {a : α} (h : rest.length < cs.length) :
    Takes cs (.ok (a, rest) : Except Fault (α × Text)) := by
  rintro b rest' hb
  cases hb
  exact h

theorem takes_bind {cs ds : Text} {x : Except Fault (α × Text)}
    {f : α × Text → Except Fault (β × Text)} (hx : Takes ds x)
    (hf : ∀ a rest, rest.length < ds.length → Takes cs (f (a, rest))) : Takes cs (x >>= f) := by
  cases x with
  | error fault => exact takes_error
  | ok r => exact hf r.1 r.2 (hx r.1 r.2 rfl)

/-- Two scanners that agree, followed by two that agree on what is left. -/
theorem bind_agree {ds : Text} {x y : Except Fault (α × Text)}
    {f g : α × Text → Except Fault (β × Text)} (hxy : x = y) (hx : Takes ds x)
    (hf : ∀ a rest, rest.length < ds.length → f (a, rest) = g (a, rest)) :
    (x >>= f) = (y >>= g) := by
  subst hxy
  cases x with
  | error fault => rfl
  | ok r => exact hf r.1 r.2 (hx r.1 r.2 rfl)

theorem skip_length (cs : Text) : (skip cs).length ≤ cs.length :=
  (List.dropWhile_sublist isBlank).length_le

theorem skip_cons {cs rest : Text} {c : ℕ} (h : skip cs = c :: rest) :
    rest.length < cs.length := by
  have := skip_length cs
  rw [h, List.length_cons] at this
  omega

theorem scanHex_length {cs rest : Text} {c : ℕ} (h : scanHex cs = some (c, rest)) :
    rest.length < cs.length := by
  unfold scanHex at h
  split at h
  · split at h
    · cases h
    · simp only [Option.bind_eq_bind, Option.bind_eq_some_iff, Option.pure_def,
        Option.some.injEq, Prod.mk.injEq] at h
      obtain ⟨_, _, _, _, _, _, _, _, _, rfl⟩ := h
      simp
      omega
  · cases h

theorem scanEscape_takes (start : ℕ) (cs : Text) : Takes cs (scanEscape start cs) := by
  intro a rest h
  unfold scanEscape at h
  split at h
  · cases h
  · split at h
    · cases h
    · rename_i cs _ high rest' hhex
      have hlen := scanHex_length hhex
      split at h
      · rename_i more
        split at h
        · split at h
          · cases h
          · rename_i low rest'' hlow
            have := scanHex_length hlow
            simp only [List.length_cons] at hlen ⊢
            split at h
            · obtain ⟨_, rfl⟩ := Prod.mk.inj (Except.ok.inj h)
              omega
            · obtain ⟨_, rfl⟩ := Prod.mk.inj (Except.ok.inj h)
              simp only [List.length_cons]
              omega
        · cases h
          simp_all
          omega
      · cases h
        simp
        omega
  · split at h <;> cases h
    simp

theorem scanString_takes (n start : ℕ) (cs : Text) : Takes cs (scanString n start cs) := by
  induction n generalizing cs with
  | zero => exact takes_error
  | succ n ih =>
    unfold scanString
    split
    · exact takes_error
    · exact takes_ok (by simp)
    · apply takes_bind (scanEscape_takes start _)
      intro c rest hlen
      apply takes_bind (ih rest)
      intro s rest' hlen'
      exact takes_ok (by simp only [List.length_cons]; omega)
    · split
      · exact takes_error
      · apply takes_bind (ih _)
        intro s rest' hlen'
        exact takes_ok (by simp only [List.length_cons]; omega)

theorem scanString_enough {n m start : ℕ} {cs : Text} (hn : cs.length < n) (hm : cs.length < m) :
    scanString n start cs = scanString m start cs := by
  induction n generalizing m cs with
  | zero => omega
  | succ n ih =>
    cases m with
    | zero => omega
    | succ m =>
      unfold scanString
      split
      · rfl
      · rfl
      · rename_i cs
        simp only [List.length_cons] at hn hm
        apply bind_agree rfl (scanEscape_takes _ cs)
        intro c rest hlen
        dsimp only
        have hrest : scanString n start rest = scanString m start rest := ih (by omega) (by omega)
        rw [hrest]
      · rename_i c cs _ _
        simp only [List.length_cons] at hn hm
        split
        · rfl
        · rw [ih (m := m) (by omega) (by omega)]

theorem scanFraction_length (cs : Text) : (scanFraction cs).2.length ≤ cs.length := by
  unfold scanFraction
  split
  · rename_i d cs
    have := (List.dropWhile_sublist isDigit (l := cs)).length_le
    split
    · simp only [List.length_cons]
      omega
    · simp
  · simp

theorem scanSign_length (cs : Text) : (scanSign cs).2.length ≤ cs.length := by
  unfold scanSign
  split <;> simp

theorem scanExponent_length (cs : Text) : (scanExponent cs).2.length ≤ cs.length := by
  unfold scanExponent
  split
  · rename_i e cs
    have hsign := scanSign_length cs
    have := (List.dropWhile_sublist isDigit (l := (scanSign cs).2)).length_le
    dsimp only
    split
    · simp only [List.length_cons]
      omega
    · simp
  · simp

theorem scanMinus_length (cs : Text) : (scanMinus cs).2.length ≤ cs.length := by
  unfold scanMinus
  split <;> simp

theorem scanWhole_length (d : ℕ) (cs : Text) : (scanWhole d cs).2.length ≤ cs.length := by
  unfold scanWhole
  split
  · simp
  · exact (List.dropWhile_sublist isDigit).length_le

theorem scanNumber_takes (cs : Text) : Takes cs (scanNumber cs) := by
  have hminus := scanMinus_length cs
  unfold scanNumber
  dsimp only
  split
  · exact takes_error
  · rename_i d ds hds
    have hwhole := scanWhole_length d ds
    have hfraction := scanFraction_length (scanWhole d ds).2
    have hexponent := scanExponent_length (scanFraction (scanWhole d ds).2).2
    rw [hds, List.length_cons] at hminus
    split
    · exact takes_error
    · split
      · split
        · exact takes_error
        · exact takes_ok (by omega)
      · exact takes_ok (by omega)

theorem literals_pos : ∀ l ∈ literals, 0 < l.1.length := by
  simp [literals, text]

theorem scan_takes (n : ℕ) : (∀ nesting cs, Takes cs (scanOnce n nesting cs)) ∧
    (∀ nesting cs, Takes cs (scanMembers n nesting cs)) ∧
    ∀ nesting cs, Takes cs (scanItems n nesting cs) := by
  induction n with
  | zero => exact ⟨fun _ _ => takes_error, fun _ _ => takes_error, fun _ _ => takes_error⟩
  | succ n ih =>
    obtain ⟨honce, hmembers, hitems⟩ := ih
    refine ⟨fun nesting cs => ?_, fun nesting cs => ?_, fun nesting cs => ?_⟩
    · unfold scanOnce
      split
      · apply takes_bind (scanString_takes n _ _)
        intro s rest hlen
        exact takes_ok (by simp only [List.length_cons]; omega)
      · split
        · exact takes_error
        · rename_i hskip
          exact takes_ok (Nat.lt_succ_of_lt (skip_cons hskip))
        · rename_i cs _ _ _ _
          apply takes_bind (hmembers _ _)
          intro members rest hlen
          have := skip_length cs
          exact takes_ok (by simp only [List.length_cons]; omega)
      · split
        · exact takes_error
        · rename_i hskip
          exact takes_ok (Nat.lt_succ_of_lt (skip_cons hskip))
        · rename_i cs _ _ _ _
          apply takes_bind (hitems _ _)
          intro items rest hlen
          have := skip_length cs
          exact takes_ok (by simp only [List.length_cons]; omega)
      · split
        · rename_i word value hfind
          obtain ⟨rest, hrest⟩ : word <+: cs := by
            have := List.find?_some hfind
            simpa using this
          have hpos : 0 < word.length := literals_pos _ (List.mem_of_find?_eq_some hfind)
          apply takes_ok
          rw [← hrest, List.drop_left, List.length_append]
          omega
        · exact scanNumber_takes cs
    · unfold scanMembers
      split
      · rename_i cs
        apply takes_bind (scanString_takes n _ _)
        intro key rest hlen
        dsimp only
        split
        · rename_i ds hcolon
          have := skip_cons hcolon
          have := skip_length ds
          apply takes_bind (honce nesting (skip ds))
          intro value rest' hlen'
          dsimp only
          split
          · rename_i hclose
            have := skip_cons hclose
            exact takes_ok (by simp only [List.length_cons]; omega)
          · rename_i es hcomma
            have := skip_cons hcomma
            have := skip_length es
            split
            · exact takes_error
            · apply takes_bind (hmembers nesting (skip es))
              intro members rest'' hlen''
              exact takes_ok (by simp only [List.length_cons]; omega)
          · exact takes_error
        · exact takes_error
      · exact takes_error
    · unfold scanItems
      apply takes_bind (honce nesting cs)
      intro item rest hlen
      dsimp only
      split
      · rename_i hclose
        have := skip_cons hclose
        exact takes_ok (by omega)
      · rename_i ds hcomma
        have := skip_cons hcomma
        have := skip_length ds
        split
        · exact takes_error
        · apply takes_bind (hitems nesting (skip ds))
          intro items rest' hlen'
          exact takes_ok (show rest'.length < cs.length by omega)
      · exact takes_error

/-- The bound on the steps is no limit: from twice the length of the text on it is never met. -/
theorem scan_enough (n : ℕ) :
    (∀ m nesting (cs : Text), 2 * cs.length + 1 ≤ n → 2 * cs.length + 1 ≤ m →
      scanOnce n nesting cs = scanOnce m nesting cs) ∧
    (∀ m nesting (cs : Text), 2 * cs.length + 2 ≤ n → 2 * cs.length + 2 ≤ m →
      scanMembers n nesting cs = scanMembers m nesting cs) ∧
    ∀ m nesting (cs : Text), 2 * cs.length + 2 ≤ n → 2 * cs.length + 2 ≤ m →
      scanItems n nesting cs = scanItems m nesting cs := by
  induction n with
  | zero => exact ⟨fun _ _ _ h => by omega, fun _ _ _ h => by omega, fun _ _ _ h => by omega⟩
  | succ n ih =>
    obtain ⟨honce, hmembers, hitems⟩ := ih
    refine ⟨fun m nesting cs hn hm => ?_, fun m nesting cs hn hm => ?_,
      fun m nesting cs hn hm => ?_⟩
    all_goals obtain ⟨m, rfl⟩ : ∃ k, m = k + 1 := ⟨m - 1, by omega⟩
    · unfold scanOnce
      split
      · simp only [List.length_cons] at hn hm
        rw [scanString_enough (n := n) (m := m) (by omega) (by omega)]
      · rename_i cs
        simp only [List.length_cons] at hn hm
        have := skip_length cs
        split
        · rfl
        · rfl
        · rw [hmembers m _ (skip cs) (by omega) (by omega)]
      · rename_i cs
        simp only [List.length_cons] at hn hm
        have := skip_length cs
        split
        · rfl
        · rfl
        · rw [hitems m _ (skip cs) (by omega) (by omega)]
      · rfl
    · unfold scanMembers
      split
      · rename_i cs
        simp only [List.length_cons] at hn hm
        apply bind_agree (scanString_enough (by omega) (by omega)) (scanString_takes n _ cs)
        intro key rest hlen
        dsimp only
        split
        · rename_i ds hcolon
          have := skip_cons hcolon
          have := skip_length ds
          apply bind_agree (honce m _ _ (by omega) (by omega))
            ((scan_takes n).1 nesting (skip ds))
          intro value rest' hlen'
          dsimp only
          split
          · rfl
          · rename_i es hcomma
            have := skip_cons hcomma
            have := skip_length es
            split
            · rfl
            · rw [hmembers m _ (skip es) (by omega) (by omega)]
          · rfl
        · rfl
      · rfl
    · unfold scanItems
      apply bind_agree (honce m _ _ (by omega) (by omega))
        ((scan_takes n).1 nesting cs)
      intro item rest hlen
      dsimp only
      split
      · rfl
      · rename_i ds hcomma
        have := skip_cons hcomma
        have := skip_length ds
        split
        · rfl
        · rw [hitems m _ (skip ds) (by omega) (by omega)]
      · rfl

/-- A text is scanned as with any larger bound on the steps. -/
theorem decode_enough (nesting : ℕ) {n : ℕ} (cs : Text) (h : 2 * cs.length + 1 ≤ n) :
    scanOnce (2 * cs.length + 1) nesting (skip cs) = scanOnce n nesting (skip cs) := by
  have := skip_length cs
  exact (scan_enough _).1 n nesting (skip cs) (by omega) (by omega)

end Steps

end JsonLoads
