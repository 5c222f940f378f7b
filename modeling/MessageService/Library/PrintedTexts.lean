import MessageService.Library.JsonText
import MessageService.Library.JsonTexts

/-! The compact text of a JSON value is one of its JSON texts, and how long it is at most. -/
namespace PrintedTexts

open Texts JsonValues JsonText JsonLoads JsonTexts FixedDigits

section Values

/-- The code points of characters. -/
def codes (cs : List Char) : Text := cs.map Char.toNat

mutual
/-- The value that a JSON value is loaded as. -/
def loaded : Json → PyJson
  | .null => .none
  | .num n => .int n
  | .str s => .str (text s)
  | .obj fs => .dict (loadedFields fs)

def loadedFields : List (String × Json) → List (Text × PyJson)
  | [] => []
  | (k, v) :: fs => (text k, loaded v) :: loadedFields fs
end

mutual
/-- Objects inside each other up to a depth, and numbers of as many digits as `int` takes. -/
def Plain : ℕ → Json → Prop
  | _, .null => True
  | _, .num n => n < 10 ^ maxStrDigits
  | _, .str _ => True
  | 0, .obj _ => False
  | d + 1, .obj fs => PlainFields d fs

def PlainFields : ℕ → List (String × Json) → Prop
  | _, [] => True
  | d, (_, v) :: fs => Plain d v ∧ PlainFields d fs
end

end Values

section Characters

@[simp] theorem codes_nil : codes [] = [] := rfl

@[simp] theorem codes_cons (c : Char) (cs : List Char) :
    codes (c :: cs) = c.toNat :: codes cs := rfl

@[simp] theorem codes_append (cs ds : List Char) : codes (cs ++ ds) = codes cs ++ codes ds :=
  List.map_append

theorem hexDigit_digitChar {n : ℕ} (h : n < 16) : hexDigit (Nat.digitChar n).toNat = some n := by
  interval_cases n <;> decide

/-- The four digits of a code unit are read back. -/
theorem hex_encode {n : ℕ} (h : n < 65536) : Hex n (codes (encode 16 4 n)) := by
  have hdigits : codes (encode 16 4 n) = [(Nat.digitChar (n / 16 / 16 / 16 % 16)).toNat,
      (Nat.digitChar (n / 16 / 16 % 16)).toNat, (Nat.digitChar (n / 16 % 16)).toNat,
      (Nat.digitChar (n % 16)).toNat] := rfl
  have hvalue : ((n / 16 / 16 / 16 % 16 * 16 + n / 16 / 16 % 16) * 16 + n / 16 % 16) * 16 +
      n % 16 = n := by omega
  rw [hdigits]
  have hhex := Hex.mk (hexDigit_digitChar (Nat.mod_lt (n / 16 / 16 / 16) (by decide)))
    (hexDigit_digitChar (Nat.mod_lt (n / 16 / 16) (by decide)))
    (hexDigit_digitChar (Nat.mod_lt (n / 16) (by decide)))
    (hexDigit_digitChar (Nat.mod_lt n (by decide)))
  rw [hvalue] at hhex
  exact hhex

theorem toNat_ne {c d : Char} (h : c ≠ d) : c.toNat ≠ d.toNat :=
  fun heq => h (Char.toNat_inj.mp heq)

theorem chars_escape (c : Char) {s cs : Text} (h : Chars s cs) :
    Chars (c.toNat :: s) (codes (escape c) ++ cs) := by
  unfold escape
  split
  · subst_vars; exact .short rfl h
  split
  · subst_vars; exact .short rfl h
  split
  · subst_vars; exact .short rfl h
  split
  · subst_vars; exact .short rfl h
  split
  · subst_vars; exact .short rfl h
  split
  · subst_vars; exact .short rfl h
  split
  · subst_vars; exact .short rfl h
  split
  · rename_i hcontrol
    refine .unit (hex_encode (by omega)) ?_ h
    simp [isHighSurrogate]
    omega
  · rename_i hquote hback _ _ _ _ _ hcontrol
    exact .plain (by omega) (toNat_ne hquote) (toNat_ne hback) h

theorem chars_escaped (cs : List Char) : Chars (codes cs) (codes (cs.flatMap escape)) := by
  induction cs with
  | nil => exact .nil
  | cons c cs ih =>
    rw [List.flatMap_cons, codes_append]
    exact chars_escape c ih

end Characters

section Digits

theorem isDigit_toNat {c : Char} (h : c.isDigit = true) : isDigit c.toNat = true := by
  simp only [Char.isDigit, Bool.and_eq_true, decide_eq_true_eq, ge_iff_le] at h
  simp only [isDigit, Bool.and_eq_true, decide_eq_true_eq]
  exact h

theorem head_toDigits {n : ℕ} (h : 0 < n) : ∃ c cs, Nat.toDigits 10 n = c :: cs ∧ c ≠ '0' := by
  induction n using Nat.strongRecOn with
  | ind n ih =>
    by_cases hlt : n < 10
    · rw [Nat.toDigits_of_lt_base hlt]
      refine ⟨_, [], rfl, ?_⟩
      interval_cases n <;> decide
    · rw [Nat.toDigits_of_base_le (by decide) (by omega)]
      obtain ⟨c, cs, hcs, hc⟩ := ih (n / 10) (by omega) (by omega)
      rw [hcs]
      exact ⟨c, _, rfl, hc⟩

theorem whole_toDigits (n : ℕ) : Whole (codes (Nat.toDigits 10 n)) := by
  rcases Nat.eq_zero_or_pos n with rfl | hpos
  · exact .zero
  · obtain ⟨c, cs, hcs, hc⟩ := head_toDigits hpos
    have hdigits : ∀ d ∈ Nat.toDigits 10 n, isDigit d.toNat = true := fun d hd =>
      isDigit_toNat (Nat.isDigit_of_mem_toDigits (by decide) (by decide) hd)
    rw [hcs] at hdigits ⊢
    refine .more (hdigits c (List.mem_cons_self ..)) (toNat_ne hc) ?_
    intro d hd
    obtain ⟨e, he, rfl⟩ := List.mem_map.mp hd
    exact hdigits e (List.mem_cons_of_mem _ he)

theorem readDigits_toDigits (n : ℕ) : readDigits (codes (Nat.toDigits 10 n)) = n := by
  have h : Nat.ofDigitChars 10 (Nat.toDigits 10 n) 0 = n := Nat.ofDigitChars_ten_toDigits
  rw [Nat.ofDigitChars_eq_foldl] at h
  unfold readDigits codes
  rw [List.foldl_map]
  calc (Nat.toDigits 10 n).foldl (fun m c => m * 10 + (c.toNat - 48)) 0
      = (Nat.toDigits 10 n).foldl (fun m c => 10 * m + (c.toNat - '0'.toNat)) 0 := by
        simp only [Nat.mul_comm]
        rfl
    _ = n := h

theorem number_toDigits {n : ℕ} (h : n < 10 ^ maxStrDigits) :
    Number (.int n) (codes (Nat.toDigits 10 n)) := by
  have hlength : (codes (Nat.toDigits 10 n)).length ≤ maxStrDigits := by
    unfold codes
    rw [List.length_map]
    exact (Nat.length_toDigits_le_iff (by decide) (by decide)).mpr h
  have hnumber := Number.int (whole_toDigits n) hlength
  rw [readDigits_toDigits] at hnumber
  exact hnumber

end Digits

section Printing

theorem codes_quote (s : String) :
    codes (quote s.toList) = 34 :: (codes (s.toList.flatMap escape) ++ [34]) := by
  simp [quote]

mutual
theorem value_print : ∀ (j : Json) (d : ℕ), Plain d j → Value d (loaded j) (codes (print j))
  | .null, d, _ => .word (w := (text "null", .none)) (by simp [words])
  | .num n, d, h => by
    unfold Plain at h
    exact .number (number_toDigits h)
  | .str s, d, _ => by
    unfold print
    rw [codes_quote]
    exact .string (chars_escaped s.toList)
  | .obj [], 0, h => by
    unfold Plain at h
    exact h.elim
  | .obj [], d + 1, h => .emptyObject blank_nil
  | .obj (f :: fs), 0, h => by
    unfold Plain at h
    exact h.elim
  | .obj (f :: fs), d + 1, h => by
    unfold Plain at h
    obtain ⟨cs, hcs, htext⟩ := members_print f fs d h
    unfold print
    rw [codes_cons, htext]
    exact .object blank_nil hcs

theorem members_print : ∀ (f : String × Json) (fs : List (String × Json)) (d : ℕ),
    PlainFields d (f :: fs) → ∃ cs, Members d (loadedFields (f :: fs)) cs ∧
      codes (printField f ++ printRest fs) = cs ++ [125]
  | (k, v), [], d, h => by
    unfold PlainFields at h
    refine ⟨_, .one (chars_escaped k.toList) blank_nil blank_nil (value_print v d h.1) blank_nil,
      ?_⟩
    simp [printField, printRest, codes_quote]
  | (k, v), g :: fs, d, h => by
    unfold PlainFields at h
    obtain ⟨cs, hcs, htext⟩ := members_print g fs d h.2
    refine ⟨_, .more (chars_escaped k.toList) blank_nil blank_nil (value_print v d h.1) blank_nil
      blank_nil hcs, ?_⟩
    unfold printField printRest
    rw [codes_append, codes_cons, htext]
    simp [codes_quote]
end

theorem document_dumps {j : Json} {d : ℕ} (h : Plain d j) :
    Document d (loaded j) (text (dumps j)) := by
  refine ⟨[], codes (print j), [], by simp [Blank], value_print j d h, by simp [Blank], ?_⟩
  unfold dumps text
  rw [String.toList_ofList]
  simp [codes]

end Printing

section Sizes

/-- The bytes of characters in UTF-8. -/
def size (cs : List Char) : ℕ := (cs.flatMap String.utf8EncodeChar).length

@[simp] theorem size_nil : size [] = 0 := rfl

@[simp] theorem size_cons (c : Char) (cs : List Char) :
    size (c :: cs) = (String.utf8EncodeChar c).length + size cs := by
  simp [size]

@[simp] theorem size_append (cs ds : List Char) : size (cs ++ ds) = size cs + size ds := by
  simp [size]

theorem length_dumps (j : Json) : (encodeUtf8 (dumps j)).length = size (print j) := by
  unfold encodeUtf8 dumps size
  rw [String.toList_ofList]

theorem length_encodeChar (c : Char) : (String.utf8EncodeChar c).length ≤ 4 := by
  unfold String.utf8EncodeChar
  dsimp only
  split
  · simp
  · split
    · simp
    · split <;> simp

theorem size_ascii {cs : List Char} (h : ∀ c ∈ cs, c.toNat < 0x80) : size cs = cs.length := by
  induction cs with
  | nil => rfl
  | cons c cs ih =>
    have hc : (String.utf8EncodeChar c).length = 1 := by
      have hval : c.val.toNat = c.toNat := rfl
      have := h c (List.mem_cons_self ..)
      rw [String.utf8EncodeChar, hval, if_pos (by omega)]
      rfl
    rw [size_cons, hc, ih fun d hd => h d (List.mem_cons_of_mem _ hd), List.length_cons]
    omega

theorem encode_ascii {b w n : ℕ} (hb : 0 < b) (h : b ≤ 16) :
    ∀ c ∈ encode b w n, c.toNat < 0x80 := by
  intro c hc
  obtain ⟨d, hd, rfl⟩ := mem_encode hb hc
  have hd : d < 16 := by omega
  interval_cases d <;> decide

/-- An escaped character takes six bytes at most. -/
theorem size_escape (c : Char) : size (escape c) ≤ 6 := by
  unfold escape
  split
  · decide
  split
  · decide
  split
  · decide
  split
  · decide
  split
  · decide
  split
  · decide
  split
  · decide
  split
  · have hdigits : size (encode 16 4 c.toNat) = 4 := by
      rw [size_ascii (encode_ascii (by decide) (by decide)), length_encode]
    rw [size_cons, size_cons, hdigits]
    decide
  · have := length_encodeChar c
    rw [size_cons, size_nil]
    omega

theorem size_quote (s : String) : size (quote s.toList) ≤ 6 * s.length + 2 := by
  have hescaped : ∀ cs : List Char, size (cs.flatMap escape) ≤ 6 * cs.length := by
    intro cs
    induction cs with
    | nil => decide
    | cons c cs ih =>
      have := size_escape c
      rw [List.flatMap_cons, size_append, List.length_cons]
      omega
  have := hescaped s.toList
  have hquote : (String.utf8EncodeChar '"').length = 1 := by decide
  rw [String.length_toList] at this
  unfold quote
  rw [size_cons, size_append, size_cons, size_nil, hquote]
  omega

theorem size_number {n w : ℕ} (hw : 0 < w) (h : n < 10 ^ w) : size (print (.num n)) ≤ w := by
  have hdigits : ∀ c ∈ Nat.toDigits 10 n, c.toNat < 0x80 := by
    intro c hc
    have := isDigit_toNat (Nat.isDigit_of_mem_toDigits (by decide) (by decide) hc)
    simp only [isDigit, Bool.and_eq_true, decide_eq_true_eq] at this
    omega
  unfold print
  rw [size_ascii hdigits]
  exact (Nat.length_toDigits_le_iff (by decide) hw).mpr h

theorem size_field (k : String) (v : Json) :
    size (printField (k, v)) = size (quote k.toList) + 1 + size (print v) := by
  have hcolon : (String.utf8EncodeChar ':').length = 1 := by decide
  unfold printField
  rw [size_append, size_cons, hcolon]
  omega

theorem size_rest (fs : List (String × Json)) :
    size (printRest fs) = (fs.map fun f => 1 + size (printField f)).sum + 1 := by
  have hcomma : (String.utf8EncodeChar ',').length = 1 := by decide
  induction fs with
  | nil => decide
  | cons f fs ih =>
    unfold printRest
    rw [size_cons, size_append, ih, hcomma, List.map_cons, List.sum_cons]
    omega

/-- An object takes its members, one more character for each, and its closing brace. -/
theorem size_object {fs : List (String × Json)} (h : fs ≠ []) :
    size (print (.obj fs)) = (fs.map fun f => 1 + size (printField f)).sum + 1 := by
  have hbrace : (String.utf8EncodeChar '{').length = 1 := by decide
  cases fs with
  | nil => exact absurd rfl h
  | cons f fs =>
    unfold print
    rw [size_cons, size_append, size_rest, hbrace, List.map_cons, List.sum_cons]
    omega

end Sizes

end PrintedTexts
