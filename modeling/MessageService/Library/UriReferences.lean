import Mathlib.Data.List.TakeWhile
import MessageService.Library.FixedDigits

/-! References in the generic syntax of URIs: how one is cut into its components, what a path may
consist of, and the percent-encoding of text. -/
namespace UriReferences

open FixedDigits

structure Components where
  scheme : Option (List Char)
  authority : Option (List Char)
  path : List Char
  query : Option (List Char)
  fragment : Option (List Char)
  deriving DecidableEq, Repr

section Cutting

/-- A scheme is what stands before a colon that no other delimiter precedes. -/
def scheme (cs : List Char) : Option (List Char) × List Char :=
  match cs.takeWhile (· ∉ [':', '/', '?', '#']), cs.dropWhile (· ∉ [':', '/', '?', '#']) with
  | [], _ => (none, cs)
  | name, ':' :: rest => (some name, rest)
  | _, _ => (none, cs)

/-- An authority follows two slashes. -/
def authority : List Char → Option (List Char) × List Char
  | '/' :: '/' :: rest => (some (rest.takeWhile (· ∉ ['/', '?', '#'])),
    rest.dropWhile (· ∉ ['/', '?', '#']))
  | cs => (none, cs)

def query : List Char → Option (List Char) × List Char
  | '?' :: rest => (some (rest.takeWhile (· ≠ '#')), rest.dropWhile (· ≠ '#'))
  | cs => (none, cs)

def fragment : List Char → Option (List Char)
  | '#' :: rest => some rest
  | _ => none

def components (cs : List Char) : Components :=
  let s := scheme cs
  let a := authority s.2
  let q := query (a.2.dropWhile (· ∉ ['?', '#']))
  ⟨s.1, a.1, a.2.takeWhile (· ∉ ['?', '#']), q.1, fragment q.2⟩

theorem scheme_slash (rest : List Char) : scheme ('/' :: rest) = (none, '/' :: rest) := by
  simp [scheme]

theorem authority_single {rest : List Char} (h : rest.head? ≠ some '/') :
    authority ('/' :: rest) = (none, '/' :: rest) := by
  unfold authority
  split
  · rename_i tail hcons
    obtain ⟨_, rfl⟩ := List.cons.inj hcons
    exact absurd rfl h
  · rfl

/-- After two slashes there is an authority, whatever the text means. -/
theorem components_slashes (rest : List Char) :
    (components ('/' :: '/' :: rest)).authority ≠ none := by
  unfold components
  rw [scheme_slash]
  exact Option.some_ne_none _

theorem components_path {rest : List Char} (hsingle : rest.head? ≠ some '/')
    (hplain : ∀ c ∈ '/' :: rest, c ∉ ['?', '#']) :
    components ('/' :: rest) = ⟨none, none, '/' :: rest, none, none⟩ := by
  have hall : ∀ c ∈ '/' :: rest, decide (c ∉ ['?', '#']) = true := by
    intro c hc
    exact decide_eq_true (hplain c hc)
  unfold components
  rw [scheme_slash]
  dsimp only
  rw [authority_single hsingle]
  dsimp only
  rw [List.takeWhile_eq_self_iff.mpr hall, List.dropWhile_eq_nil_iff.mpr hall]
  rfl

end Cutting

section Paths

def isHexDigit (c : Char) : Bool := c.isDigit || ('A' ≤ c && c ≤ 'F') || ('a' ≤ c && c ≤ 'f')

/-- The characters a path may have as they are. -/
def isPathChar (c : Char) : Bool :=
  c.isAlphanum || c ∈ ['-', '.', '_', '~', '!', '$', '&', '\x27', '(', ')', '*', '+', ',', ';', '=',
    ':', '@', '/']

inductive PathText : List Char → Prop where
  | nil : PathText []
  | plain {c cs} : isPathChar c = true → PathText cs → PathText (c :: cs)
  | escape {a b cs} : isHexDigit a = true → isHexDigit b = true → PathText cs →
    PathText ('%' :: a :: b :: cs)

/-- A path that begins with one slash, and so cannot be taken for an authority. -/
structure PathAbsolute (cs : List Char) : Prop where
  text : PathText cs
  single : ∃ rest, cs = '/' :: rest ∧ rest.head? ≠ some '/'

theorem PathText.append {cs ds : List Char} (h : PathText cs) (h' : PathText ds) :
    PathText (cs ++ ds) := by
  induction h with
  | nil => exact h'
  | plain hc _ ih => exact .plain hc ih
  | escape ha hb _ ih => exact .escape ha hb ih

theorem PathText.delimiters {cs : List Char} (h : PathText cs) :
    ∀ c ∈ cs, c ∉ ['?', '#'] := by
  induction h with
  | nil => simp
  | plain hc _ ih =>
    refine List.forall_mem_cons.mpr ⟨?_, ih⟩
    rintro hmem
    simp only [List.mem_cons, List.not_mem_nil, or_false] at hmem
    rcases hmem with rfl | rfl
    · exact absurd hc (by decide)
    · exact absurd hc (by decide)
  | escape ha hb _ ih =>
    have hhex : ∀ c, isHexDigit c = true → c ∉ ['?', '#'] := by
      intro c hc hmem
      simp only [List.mem_cons, List.not_mem_nil, or_false] at hmem
      rcases hmem with rfl | rfl
      · exact absurd hc (by decide)
      · exact absurd hc (by decide)
    exact List.forall_mem_cons.mpr ⟨by decide, List.forall_mem_cons.mpr ⟨hhex _ ha,
      List.forall_mem_cons.mpr ⟨hhex _ hb, ih⟩⟩⟩

/-- An absolute path is a reference made of a path only. -/
theorem PathAbsolute.components {cs : List Char} (h : PathAbsolute cs) :
    components cs = ⟨none, none, cs, none, none⟩ := by
  obtain ⟨rest, rfl, hsingle⟩ := h.single
  exact components_path hsingle h.text.delimiters

end Paths

section Escapes

/-- An octet, escaped. -/
def escapeByte (b : UInt8) : List Char := '%' :: (encode 16 2 b.toNat).map Char.toUpper

/-- A character that is kept, or its escaped octets. -/
def escapeChar (keep : Char → Bool) (c : Char) : List Char :=
  if keep c then [c] else (String.utf8EncodeChar c).flatMap escapeByte

def escape (keep : Char → Bool) (cs : List Char) : List Char := cs.flatMap (escapeChar keep)

/-- The octets a percent-encoded text stands for. -/
def octets : List Char → Option (List UInt8)
  | [] => some []
  | '%' :: a :: b :: cs =>
    if isHexDigit a && isHexDigit b then
      (octets cs).map (UInt8.ofNat (decode 16 [a, b]) :: ·)
    else none
  | c :: cs => if c ≠ '%' ∧ c.toNat < 128 then (octets cs).map (UInt8.ofNat c.toNat :: ·) else none

/-- The text whose octets are percent-encoded. -/
def decodeText (cs : List Char) : Option String :=
  (octets cs).bind fun bytes => String.fromUTF8? bytes.toByteArray

theorem upper_digit {d : ℕ} (h : d < 16) : isHexDigit (Nat.digitChar d).toUpper = true ∧
    digitValue (Nat.digitChar d).toUpper = d := by
  interval_cases d <;> decide

/-- An escaped octet is a percent sign and two hexadecimal digits of its value. -/
theorem escapeByte_digits (b : UInt8) : ∃ high low, escapeByte b = ['%', high, low] ∧
    isHexDigit high = true ∧ isHexDigit low = true ∧ decode 16 [high, low] = b.toNat := by
  have hb := UInt8.toNat_lt b
  obtain ⟨hhigh, hhighv⟩ := upper_digit (d := b.toNat / 16 % 16) (by omega)
  obtain ⟨hlow, hlowv⟩ := upper_digit (d := b.toNat % 16) (by omega)
  refine ⟨_, _, rfl, hhigh, hlow, ?_⟩
  unfold decode
  rw [List.foldl_cons, List.foldl_cons, List.foldl_nil, hhighv, hlowv]
  omega

theorem octets_escapeByte (b : UInt8) (cs : List Char) :
    octets (escapeByte b ++ cs) = (octets cs).map (b :: ·) := by
  obtain ⟨high, low, hdigits, hhigh, hlow, hvalue⟩ := escapeByte_digits b
  rw [hdigits]
  change octets ('%' :: high :: low :: cs) = _
  rw [octets, hhigh, hlow, hvalue, UInt8.ofNat_toNat]
  rfl

theorem octets_escapeBytes (bs : List UInt8) (cs : List Char) :
    octets (bs.flatMap escapeByte ++ cs) = (octets cs).map (bs ++ ·) := by
  induction bs with
  | nil => simp
  | cons b bs ih =>
    rw [List.flatMap_cons, List.append_assoc, octets_escapeByte, ih, Option.map_map]
    rfl

theorem octets_plain {c : Char} (cs : List Char) (hc : c ≠ '%') (hascii : c.toNat < 128) :
    octets (c :: cs) = (octets cs).map (String.utf8EncodeChar c ++ ·) := by
  have hbytes : String.utf8EncodeChar c = [UInt8.ofNat c.toNat] := by
    have hsmall : c.val.toNat ≤ 127 := by
      change c.toNat ≤ 127
      omega
    rw [String.utf8EncodeChar]
    exact if_pos hsmall
  rw [octets, if_pos ⟨hc, hascii⟩, hbytes]
  · rfl
  · rintro _ _ _ rfl
    exact absurd rfl hc

variable {keep : Char → Bool}

/-- Escaping keeps the octets of a text, as long as what it leaves alone is ASCII and no percent
sign. -/
theorem octets_escape (hkeep : ∀ c, keep c = true → c ≠ '%' ∧ c.toNat < 128) (cs : List Char) :
    octets (escape keep cs) = some (cs.flatMap String.utf8EncodeChar) := by
  unfold escape
  induction cs with
  | nil => rfl
  | cons c cs ih =>
    rw [List.flatMap_cons, List.flatMap_cons, escapeChar]
    by_cases hc : keep c = true
    · obtain ⟨hne, hascii⟩ := hkeep c hc
      rw [if_pos hc, List.singleton_append, octets_plain _ hne hascii, ih]
      rfl
    · rw [if_neg hc, octets_escapeBytes, ih]
      rfl

/-- A text is read back from its escapes. -/
theorem decodeText_escape (hkeep : ∀ c, keep c = true → c ≠ '%' ∧ c.toNat < 128) (s : String) :
    decodeText (escape keep s.toList) = some s := by
  have hbytes : (s.toList.flatMap String.utf8EncodeChar).toByteArray = s.toByteArray :=
    String.utf8Encode_toList
  rw [decodeText, octets_escape hkeep, Option.bind_some, hbytes, String.fromUTF8?,
    dif_pos s.isValidUTF8]
  rfl

/-- Escaping begins with a percent sign or with what it keeps. -/
theorem escape_head {cs : List Char} {d : Char} (hd : d ≠ '%')
    (h : (escape keep cs).head? = some d) : cs.head? = some d := by
  cases cs with
  | nil => exact h
  | cons c cs =>
    rw [escape, List.flatMap_cons, escapeChar] at h
    by_cases hc : keep c = true
    · rw [if_pos hc] at h
      exact h
    · rw [if_neg hc] at h
      cases hbytes : String.utf8EncodeChar c with
      | nil => exact absurd hbytes String.utf8EncodeChar_ne_nil
      | cons b bs =>
        rw [hbytes, List.flatMap_cons, escapeByte] at h
        exact absurd (Option.some.inj h).symm hd

theorem escape_pathText (hkeep : ∀ c, keep c = true → isPathChar c = true) (cs : List Char) :
    PathText (escape keep cs) := by
  have hbytes : ∀ bs : List UInt8, PathText (bs.flatMap escapeByte) := by
    intro bs
    induction bs with
    | nil => exact .nil
    | cons b bs ih =>
      obtain ⟨high, low, hdigits, hhigh, hlow, _⟩ := escapeByte_digits b
      rw [List.flatMap_cons, hdigits]
      exact .escape hhigh hlow ih
  unfold escape
  induction cs with
  | nil => exact .nil
  | cons c cs ih =>
    rw [List.flatMap_cons, escapeChar]
    by_cases hc : keep c = true
    · rw [if_pos hc]
      exact .plain (hkeep c hc) ih
    · rw [if_neg hc]
      exact (hbytes _).append ih

end Escapes

end UriReferences
