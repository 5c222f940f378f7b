import Mathlib.Data.Nat.Notation
import MessageService.Library.JsonLoads

/-! The JSON texts of a value, and that `json.loads` reads every one of them.
A text is a derivation of the grammar: blanks between the tokens, escapes in the strings and the
order of the members are the writer's. The first index bounds how deep containers are nested. -/
namespace JsonTexts

open Texts JsonLoads

section Grammar

def Blank (ws : Text) : Prop := ∀ c ∈ ws, isBlank c = true

def Digits (ds : Text) : Prop := ∀ c ∈ ds, isDigit c = true

/-- Four hexadecimal digits of a code unit. -/
inductive Hex : ℕ → Text → Prop where
  | mk {a b c d a' b' c' d' : ℕ} : hexDigit a = some a' → hexDigit b = some b' →
      hexDigit c = some c' → hexDigit d = some d' →
      Hex (((a' * 16 + b') * 16 + c') * 16 + d') [a, b, c, d]

/-- The characters of a string between its quotes: as they are, by a short escape, by their code
unit or by a pair of surrogates. -/
inductive Chars : Text → Text → Prop where
  | nil : Chars [] []
  | plain {c s cs} : 32 ≤ c → c ≠ 34 → c ≠ 92 → Chars s cs → Chars (c :: s) (c :: cs)
  | short {e c s cs} : unescape e = some c → Chars s cs → Chars (c :: s) (92 :: e :: cs)
  | unit {u us s cs} : Hex u us → isHighSurrogate u = false → Chars s cs →
      Chars (u :: s) (92 :: 117 :: (us ++ cs))
  | pair {u us v vs s cs} : Hex u us → isHighSurrogate u = true → Hex v vs →
      isLowSurrogate v = true → Chars s cs →
      Chars (joinSurrogates u v :: s) (92 :: 117 :: (us ++ 92 :: 117 :: (vs ++ cs)))

/-- The digits before a point or an exponent, without a leading zero. -/
inductive Whole : Text → Prop where
  | zero : Whole [48]
  | more {d ds} : isDigit d = true → d ≠ 48 → Digits ds → Whole (d :: ds)

inductive Fraction : Text → Prop where
  | none : Fraction []
  | some {d ds} : isDigit d = true → Digits ds → Fraction (46 :: d :: ds)

inductive Exponent : Text → Prop where
  | none : Exponent []
  | some {e sign d ds} : e = 101 ∨ e = 69 → sign = [] ∨ sign = [43] ∨ sign = [45] →
      isDigit d = true → Digits ds → Exponent (e :: (sign ++ d :: ds))

/-- An integer has as many digits as `int` takes at most. -/
inductive Number : PyJson → Text → Prop where
  | int {whole} : Whole whole → whole.length ≤ maxStrDigits →
      Number (.int (readDigits whole)) whole
  | negative {whole} : Whole whole → whole.length ≤ maxStrDigits →
      Number (.int (-readDigits whole)) (45 :: whole)
  | float {minus whole fraction exponent} : minus = [] ∨ minus = [45] → Whole whole →
      Fraction fraction → Exponent exponent → fraction ≠ [] ∨ exponent ≠ [] →
      Number (.float (minus ++ (whole ++ (fraction ++ exponent))))
        (minus ++ (whole ++ (fraction ++ exponent)))

def words : List (Text × PyJson) :=
  [(text "null", .none), (text "true", .bool true), (text "false", .bool false)]

mutual
/-- The texts of a value, with at most as many containers inside each other as the bound says. -/
inductive Value : ℕ → PyJson → Text → Prop where
  | word {d w} : w ∈ words → Value d w.2 w.1
  | number {d v cs} : Number v cs → Value d v cs
  | string {d s cs} : Chars s cs → Value d (.str s) (34 :: (cs ++ [34]))
  | emptyObject {d ws} : Blank ws → Value (d + 1) (.dict []) (123 :: (ws ++ [125]))
  | object {d ms ws cs} : Blank ws → Members d ms cs →
      Value (d + 1) (.dict ms) (123 :: (ws ++ (cs ++ [125])))
  | emptyArray {d ws} : Blank ws → Value (d + 1) (.list []) (91 :: (ws ++ [93]))
  | array {d is ws cs} : Blank ws → Items d is cs →
      Value (d + 1) (.list is) (91 :: (ws ++ (cs ++ [93])))

/-- The members of an object from the first key on, with the blanks behind the last. -/
inductive Members : ℕ → List (Text × PyJson) → Text → Prop where
  | one {d key kcs v vcs ws₁ ws₂ ws₃} : Chars key kcs → Blank ws₁ → Blank ws₂ → Value d v vcs →
      Blank ws₃ →
      Members d [(key, v)] (34 :: (kcs ++ 34 :: (ws₁ ++ 58 :: (ws₂ ++ (vcs ++ ws₃)))))
  | more {d key kcs v vcs ws₁ ws₂ ws₃ ws₄ ms cs} : Chars key kcs → Blank ws₁ → Blank ws₂ →
      Value d v vcs → Blank ws₃ → Blank ws₄ → Members d ms cs →
      Members d ((key, v) :: ms)
        (34 :: (kcs ++ 34 :: (ws₁ ++ 58 :: (ws₂ ++ (vcs ++ (ws₃ ++ 44 :: (ws₄ ++ cs)))))))

/-- The items of an array from the first one on, with the blanks behind the last. -/
inductive Items : ℕ → List PyJson → Text → Prop where
  | one {d v vcs ws} : Value d v vcs → Blank ws → Items d [v] (vcs ++ ws)
  | more {d v vcs ws₁ ws₂ is cs} : Value d v vcs → Blank ws₁ → Blank ws₂ → Items d is cs →
      Items d (v :: is) (vcs ++ (ws₁ ++ 44 :: (ws₂ ++ cs)))
end

/-- A text with one value and blanks around it. -/
def Document (d : ℕ) (v : PyJson) (cs : Text) : Prop :=
  ∃ before vcs after, Blank before ∧ Value d v vcs ∧ Blank after ∧ cs = before ++ (vcs ++ after)

theorem blank_nil : Blank [] := fun _ h => absurd h List.not_mem_nil

end Grammar

section Encoding

theorem utf8_one {a : ℕ} (bs : List ℕ) (ha : a < 0x80) :
    utf8 (a :: bs) = (utf8 bs).map (a :: ·) := by
  rw [utf8.eq_def]
  exact if_pos ha

theorem utf8_two {a b : ℕ} (bs : List ℕ) (ha : 0xc2 ≤ a ∧ a ≤ 0xdf) (hb : isTail b = true) :
    utf8 (a :: b :: bs) = (utf8 bs).map (((a - 0xc0) * 0x40 + (b - 0x80)) :: ·) := by
  rw [utf8.eq_def]
  dsimp only
  rw [if_neg (by omega), if_pos ⟨ha.1, ha.2, hb⟩]

theorem utf8_three {a b c : ℕ} (bs : List ℕ) (ha : 0xdf < a) (hab : startsThree a b = true)
    (hc : isTail c = true) : utf8 (a :: b :: c :: bs) =
      (utf8 bs).map (((a - 0xe0) * 0x1000 + (b - 0x80) * 0x40 + (c - 0x80)) :: ·) := by
  rw [utf8.eq_def]
  dsimp only
  rw [if_neg (by omega), if_neg (by omega), if_pos ⟨hab, hc⟩]

theorem utf8_four {a b c d : ℕ} (bs : List ℕ) (ha : 0xef < a) (hab : startsFour a b = true)
    (hc : isTail c = true) (hd : isTail d = true) : utf8 (a :: b :: c :: d :: bs) =
      (utf8 bs).map (((a - 0xf0) * 0x40000 + (b - 0x80) * 0x1000 + (c - 0x80) * 0x40 +
        (d - 0x80)) :: ·) := by
  have hthree : ¬(startsThree a b = true ∧ isTail c = true) := by
    simp only [startsThree, Bool.or_eq_true, Bool.and_eq_true, beq_iff_eq, decide_eq_true_eq]
    omega
  rw [utf8.eq_def]
  dsimp only
  rw [if_neg (by omega), if_neg (by omega), if_neg hthree, if_pos ⟨hab, hc, hd⟩]

theorem isTail_iff {b : ℕ} : isTail b = true ↔ 0x80 ≤ b ∧ b ≤ 0xbf := by
  simp [isTail]

theorem startsThree_iff {a b : ℕ} : startsThree a b = true ↔
    (a = 0xe0 ∧ 0xa0 ≤ b ∧ b ≤ 0xbf) ∨ (0xe1 ≤ a ∧ a ≤ 0xef ∧ 0x80 ≤ b ∧ b ≤ 0xbf) := by
  simp [startsThree, isTail, and_assoc]

theorem startsFour_iff {a b : ℕ} : startsFour a b = true ↔
    (a = 0xf0 ∧ 0x90 ≤ b ∧ b ≤ 0xbf) ∨ (0xf1 ≤ a ∧ a ≤ 0xf3 ∧ 0x80 ≤ b ∧ b ≤ 0xbf) ∨
      (a = 0xf4 ∧ 0x80 ≤ b ∧ b ≤ 0x8f) := by
  simp [startsFour, isTail, and_assoc, or_assoc]

theorem toNat_ofNat {v : ℕ} (h : v < 256) : (UInt8.ofNat v).toNat = v :=
  UInt8.toNat_ofNat_of_lt h

/-- UTF-8 is decoded to the characters it encodes. -/
theorem utf8_encodeChar (c : Char) (bs : List ℕ) :
    utf8 ((String.utf8EncodeChar c).map UInt8.toNat ++ bs) = (utf8 bs).map (c.toNat :: ·) := by
  have hvalid : c.toNat < 0xd800 ∨ (0xdfff < c.toNat ∧ c.toNat < 0x110000) := c.valid
  have hval : c.val.toNat = c.toNat := rfl
  rw [String.utf8EncodeChar, hval]
  generalize c.toNat = v at hvalid
  split
  · -- one byte
    rename_i h
    rw [List.map_cons, List.map_nil, toNat_ofNat (by omega)]
    exact utf8_one bs (by omega)
  · split
    · rename_i h₁ h
      simp only [List.map_cons, List.map_nil, List.cons_append, List.nil_append]
      rw [toNat_ofNat (by omega), toNat_ofNat (by omega),
        utf8_two bs (by omega) (isTail_iff.mpr (by omega))]
      have hjoin : (v / 64 % 0x20 + 0xc0 - 0xc0) * 0x40 + (v % 0x40 + 0x80 - 0x80) = v := by omega
      rw [hjoin]
    · split
      · rename_i h₁ h₂ h
        simp only [List.map_cons, List.map_nil, List.cons_append, List.nil_append]
        rw [toNat_ofNat (by omega), toNat_ofNat (by omega), toNat_ofNat (by omega),
          utf8_three bs (by omega) (startsThree_iff.mpr (by omega)) (isTail_iff.mpr (by omega))]
        have hjoin : (v / 4096 % 0x10 + 0xe0 - 0xe0) * 0x1000 +
            (v / 64 % 0x40 + 0x80 - 0x80) * 0x40 + (v % 0x40 + 0x80 - 0x80) = v := by omega
        rw [hjoin]
      · rename_i h₁ h₂ h
        simp only [List.map_cons, List.map_nil, List.cons_append, List.nil_append]
        rw [toNat_ofNat (by omega), toNat_ofNat (by omega), toNat_ofNat (by omega),
          toNat_ofNat (by omega), utf8_four bs (by omega) (startsFour_iff.mpr (by omega))
            (isTail_iff.mpr (by omega)) (isTail_iff.mpr (by omega))]
        have hjoin : (v / 262144 % 0x08 + 0xf0 - 0xf0) * 0x40000 +
            (v / 4096 % 0x40 + 0x80 - 0x80) * 0x1000 + (v / 64 % 0x40 + 0x80 - 0x80) * 0x40 +
              (v % 0x40 + 0x80 - 0x80) = v := by omega
        rw [hjoin]

def encodeUtf8 (s : String) : List UInt8 := s.toList.flatMap String.utf8EncodeChar

theorem utf8_encode (s : String) : utf8 ((encodeUtf8 s).map UInt8.toNat) = some (text s) := by
  unfold encodeUtf8 text
  induction s.toList with
  | nil => rfl
  | cons c cs ih =>
    rw [List.flatMap_cons, List.map_append, utf8_encodeChar, ih]
    rfl

end Encoding

section Strings

theorem scanHex_hex {u : ℕ} {us rest : Text} (h : Hex u us) (hrest : rest ≠ []) :
    scanHex (us ++ rest) = some (u, rest) := by
  obtain ⟨ha, hb, hc, hd⟩ := h
  simp [scanHex, hrest, ha, hb, hc, hd]

theorem scanEscape_unit {u start : ℕ} {us rest : Text} (h : Hex u us)
    (hu : isHighSurrogate u = false) (hrest : rest ≠ []) :
    scanEscape start (117 :: (us ++ rest)) = .ok (u, rest) := by
  rw [scanEscape, scanHex_hex h hrest]
  dsimp only
  split
  · rw [if_neg (by simp [hu])]
  · rfl

theorem scanEscape_pair {u v start : ℕ} {us vs rest : Text} (hu : Hex u us)
    (hhigh : isHighSurrogate u = true) (hv : Hex v vs) (hlow : isLowSurrogate v = true)
    (hrest : rest ≠ []) :
    scanEscape start (117 :: (us ++ 92 :: 117 :: (vs ++ rest))) =
      .ok (joinSurrogates u v, rest) := by
  have hlong : (vs ++ rest).length > 4 := by
    have := List.length_pos_iff.mpr hrest
    obtain ⟨_, _, _, _⟩ := hv
    simp only [List.length_append, List.length_cons, List.length_nil]
    omega
  rw [scanEscape, scanHex_hex hu (by simp)]
  change ite _ _ _ = _
  rw [if_pos ⟨hhigh, hlong⟩, scanHex_hex hv hrest]
  dsimp only
  rw [if_pos hlow]

theorem scanEscape_short {e c start : ℕ} (he : unescape e = some c) (rest : Text) :
    scanEscape start (e :: rest) = .ok (c, rest) := by
  have hunit : e ≠ 117 := by
    rintro rfl
    cases he
  rw [scanEscape.eq_3 _ _ _ hunit, he]

/-- From some number of steps on the scanner reads `a` and leaves `rest`. -/
def Reads {α : Type} (scan : ℕ → Except Fault (α × Text)) (a : α) (rest : Text) : Prop :=
  ∃ N, ∀ n ≥ N, scan n = .ok (a, rest)

theorem reads_step {α β : Type} {scan : ℕ → Except Fault (α × Text)}
    {scan' : ℕ → Except Fault (β × Text)} {a : α} {b : β} {rest rest' : Text}
    (h : Reads scan a rest)
    (hstep : ∀ n, scan n = .ok (a, rest) → scan' (n + 1) = .ok (b, rest')) :
    Reads scan' b rest' := by
  obtain ⟨N, hN⟩ := h
  refine ⟨N + 1, ?_⟩
  intro n hn
  obtain ⟨n, rfl⟩ : ∃ k, n = k + 1 := ⟨n - 1, by omega⟩
  exact hstep n (hN n (by omega))

/-- One escaped character of a string. -/
theorem reads_escape {start c : ℕ} {cs rest rest' s : Text}
    (hescape : scanEscape start cs = .ok (c, rest))
    (h : Reads (fun n => scanString n start rest) s rest') :
    Reads (fun n => scanString n start (92 :: cs)) (c :: s) rest' := by
  refine reads_step h fun n hn => ?_
  rw [scanString.eq_4, hescape]
  change (scanString n start rest >>= fun r => pure (c :: r.1, r.2)) = _
  rw [hn]
  rfl

/-- Every spelling of a string is read to its end. -/
theorem reads_chars {s cs : Text} (h : Chars s cs) (start : ℕ) (rest : Text) :
    Reads (fun n => scanString n start (cs ++ 34 :: rest)) s rest := by
  induction h with
  | nil =>
    refine ⟨1, ?_⟩
    intro n hn
    obtain ⟨n, rfl⟩ : ∃ k, n = k + 1 := ⟨n - 1, by omega⟩
    rfl
  | @plain c s cs hc hquote hback _ ih =>
    refine reads_step ih fun n hn => ?_
    change scanString (n + 1) start (c :: (cs ++ 34 :: rest)) = _
    rw [scanString.eq_5 _ _ _ _ hquote hback, if_neg (by omega), hn]
    rfl
  | @short e c s cs he _ ih => exact reads_escape (scanEscape_short he _) ih
  | @unit u us s cs hu hhigh _ ih =>
    refine reads_escape ?_ ih
    have htext : 117 :: (us ++ cs) ++ 34 :: rest = 117 :: (us ++ (cs ++ 34 :: rest)) := by simp
    exact (congrArg (scanEscape start) htext).trans (scanEscape_unit hu hhigh (by simp))
  | @pair u us v vs s cs hu hhigh hv hlow _ ih =>
    refine reads_escape ?_ ih
    have htext : 117 :: (us ++ 92 :: 117 :: (vs ++ cs)) ++ 34 :: rest =
        117 :: (us ++ 92 :: 117 :: (vs ++ (cs ++ 34 :: rest))) := by simp
    exact (congrArg (scanEscape start) htext).trans (scanEscape_pair hu hhigh hv hlow (by simp))

end Strings

section Numbers

/-- What may come after a number: nothing that could belong to it. -/
def Stops (rest : Text) : Prop :=
  ∀ c cs, rest = c :: cs → isDigit c = false ∧ c ≠ 46 ∧ c ≠ 101 ∧ c ≠ 69

def NoDigit (rest : Text) : Prop := ∀ c cs, rest = c :: cs → isDigit c = false

variable {ds rest whole fraction exponent minus : Text}

theorem take_digits (h : Digits ds) (hrest : NoDigit rest) :
    (ds ++ rest).takeWhile isDigit = ds := by
  rw [List.takeWhile_append_of_pos h]
  cases rest with
  | nil => simp
  | cons c cs => simp [hrest c cs rfl]

theorem drop_digits (h : Digits ds) (hrest : NoDigit rest) :
    (ds ++ rest).dropWhile isDigit = rest := by
  rw [List.dropWhile_append_of_pos h]
  cases rest with
  | nil => rfl
  | cons c cs => simp [hrest c cs rfl]

theorem noDigit_exponent (h : Exponent exponent) (hrest : Stops rest) :
    NoDigit (exponent ++ rest) := by
  cases h with
  | none => exact fun c cs hc => (hrest c cs hc).1
  | some he _ _ _ =>
    intro c cs hc
    obtain ⟨rfl, _⟩ := List.cons.inj hc
    rcases he with rfl | rfl <;> rfl

theorem noDigit_fraction (h : Fraction fraction) (hrest : NoDigit rest) :
    NoDigit (fraction ++ rest) := by
  cases h with
  | none => exact hrest
  | some _ _ =>
    intro c cs hc
    obtain ⟨rfl, _⟩ := List.cons.inj hc
    rfl

theorem scanWhole_whole (h : Whole whole) (hrest : NoDigit rest) : ∃ d ds, whole = d :: ds ∧
    isDigit d = true ∧ scanWhole d (ds ++ rest) = (ds, rest) := by
  cases h with
  | zero => exact ⟨48, [], rfl, rfl, rfl⟩
  | @more d ds hd hzero hds =>
    refine ⟨d, ds, rfl, hd, ?_⟩
    rw [scanWhole, if_neg hzero, take_digits hds hrest, drop_digits hds hrest]

theorem scanFraction_fraction (h : Fraction fraction) (hrest : NoDigit rest)
    (hpoint : ∀ cs, rest ≠ 46 :: cs) : scanFraction (fraction ++ rest) = (fraction, rest) := by
  cases h with
  | none =>
    rw [List.nil_append, scanFraction.eq_def]
    split
    · exact absurd rfl (hpoint _)
    · rfl
  | @some d ds hd hds =>
    change scanFraction (46 :: d :: (ds ++ rest)) = _
    rw [scanFraction, if_pos hd, take_digits hds hrest, drop_digits hds hrest]

theorem scanSign_sign {sign cs : Text} {d : ℕ} (h : sign = [] ∨ sign = [43] ∨ sign = [45])
    (hd : isDigit d = true) : scanSign (sign ++ d :: cs) = (sign, d :: cs) := by
  rcases h with rfl | rfl | rfl
  · rw [List.nil_append, scanSign.eq_def]
    split
    · rename_i h
      obtain ⟨rfl, _⟩ := List.cons.inj h
      cases hd
    · rename_i h
      obtain ⟨rfl, _⟩ := List.cons.inj h
      cases hd
    · rfl
  · rfl
  · rfl

theorem scanExponent_exponent (h : Exponent exponent) (hrest : Stops rest) :
    scanExponent (exponent ++ rest) = (exponent, rest) := by
  cases h with
  | none =>
    cases rest with
    | nil => rfl
    | cons c cs =>
      obtain ⟨_, _, hlow, hhigh⟩ := hrest c cs rfl
      rw [List.nil_append, scanExponent]
      dsimp only
      rw [if_neg]
      rintro ⟨h | h, _⟩
      · exact hlow h
      · exact hhigh h
  | @some e sign d ds he hsign hd hds =>
    have hnodigit : NoDigit rest := fun c cs hc => (hrest c cs hc).1
    have hdigits : Digits (d :: ds) := by
      intro c hc
      rcases List.mem_cons.mp hc with rfl | hc
      · exact hd
      · exact hds c hc
    have htext : e :: (sign ++ d :: ds) ++ rest = e :: (sign ++ d :: (ds ++ rest)) := by simp
    rw [htext, scanExponent, scanSign_sign hsign hd]
    dsimp only
    rw [← List.cons_append, take_digits hdigits hnodigit, drop_digits hdigits hnodigit,
      if_pos ⟨he, by simp⟩]

theorem scanMinus_minus {cs : Text} {d : ℕ} (h : minus = [] ∨ minus = [45])
    (hd : isDigit d = true) : scanMinus (minus ++ d :: cs) = (minus, d :: cs) := by
  rcases h with rfl | rfl
  · rw [List.nil_append, scanMinus.eq_def]
    split
    · rename_i h
      obtain ⟨rfl, _⟩ := List.cons.inj h
      cases hd
    · rfl
  · rfl

/-- The parts of a number are found where they are. -/
theorem scanNumber_parts (hminus : minus = [] ∨ minus = [45]) (hwhole : Whole whole)
    (hfraction : Fraction fraction) (hexponent : Exponent exponent) (hrest : Stops rest) :
    scanNumber (minus ++ (whole ++ (fraction ++ (exponent ++ rest)))) =
      if fraction = [] ∧ exponent = [] then
        if whole.length > maxStrDigits then .error .valueError
        else .ok (.int (if minus = [] then readDigits whole else -readDigits whole), rest)
      else .ok (.float (minus ++ (whole ++ (fraction ++ exponent))), rest) := by
  have hafter := noDigit_exponent hexponent hrest
  have hpoint : ∀ cs, exponent ++ rest ≠ 46 :: cs := by
    intro cs h
    cases hexponent with
    | none => exact (hrest 46 cs h).2.1 rfl
    | some he _ _ _ =>
      obtain ⟨rfl, _⟩ := List.cons.inj h
      rcases he with h | h <;> cases h
  obtain ⟨d, ds, rfl, hd, hscan⟩ := scanWhole_whole hwhole (noDigit_fraction hfraction hafter)
  rw [List.cons_append, scanNumber, scanMinus_minus hminus hd]
  dsimp only
  rw [if_neg (by simp [hd]), hscan]
  dsimp only
  rw [scanFraction_fraction hfraction hafter hpoint]
  dsimp only
  rw [scanExponent_exponent hexponent hrest]
  rfl

theorem scanNumber_number {v : PyJson} {cs : Text} (h : Number v cs) (hrest : Stops rest) :
    scanNumber (cs ++ rest) = .ok (v, rest) := by
  cases h with
  | int hwhole hlength =>
    have hscan := scanNumber_parts (.inl rfl) hwhole .none .none hrest
    rw [if_pos ⟨rfl, rfl⟩, if_neg (by omega)] at hscan
    exact hscan
  | negative hwhole hlength =>
    have hscan := scanNumber_parts (.inr rfl) hwhole .none .none hrest
    rw [if_pos ⟨rfl, rfl⟩, if_neg (by omega)] at hscan
    exact hscan
  | float hminus hwhole hfraction hexponent hsome =>
    have hscan := scanNumber_parts hminus hwhole hfraction hexponent hrest
    rw [if_neg (by rintro ⟨hf, he⟩; rcases hsome with h | h; exacts [h hf, h he])] at hscan
    simpa only [List.append_assoc] using hscan

end Numbers

section Values

theorem skip_blank {ws cs : Text} {c : ℕ} (h : Blank ws) (hc : isBlank c = false) :
    skip (ws ++ c :: cs) = c :: cs := by
  rw [skip, List.dropWhile_append_of_pos h, List.dropWhile_cons_of_neg (by simp [hc])]

/-- A number ends before a blank, a comma or a closing bracket. -/
theorem stops_blank {ws rest : Text} {c : ℕ} (h : Blank ws) (hc : c = 44 ∨ c = 93 ∨ c = 125) :
    Stops (ws ++ c :: rest) := by
  intro d cs hd
  cases ws with
  | nil =>
    obtain ⟨rfl, _⟩ := List.cons.inj hd
    rcases hc with rfl | rfl | rfl <;> decide
  | cons b ws =>
    obtain ⟨rfl, _⟩ := List.cons.inj hd
    have hb := h b (List.mem_cons_self ..)
    simp only [isBlank, Bool.or_eq_true, beq_iff_eq] at hb
    rcases hb with ((rfl | rfl) | rfl) | rfl <;> decide

theorem number_head {v : PyJson} {cs : Text} (h : Number v cs) :
    ∃ d ds, isDigit d = true ∧ (cs = d :: ds ∨ cs = 45 :: d :: ds) := by
  have hhead : ∀ {whole}, Whole whole → ∃ d ds, isDigit d = true ∧ whole = d :: ds := by
    intro whole hwhole
    cases hwhole with
    | zero => exact ⟨48, [], rfl, rfl⟩
    | more hd _ _ => exact ⟨_, _, hd, rfl⟩
  cases h with
  | int hwhole _ =>
    obtain ⟨d, ds, hd, rfl⟩ := hhead hwhole
    exact ⟨d, ds, hd, .inl rfl⟩
  | negative hwhole _ =>
    obtain ⟨d, ds, hd, rfl⟩ := hhead hwhole
    exact ⟨d, ds, hd, .inr rfl⟩
  | float hminus hwhole _ _ _ =>
    obtain ⟨d, ds, hd, rfl⟩ := hhead hwhole
    rcases hminus with rfl | rfl
    · exact ⟨d, _, hd, .inl rfl⟩
    · exact ⟨d, _, hd, .inr rfl⟩

/-- A number is none of the words, and no container. -/
theorem scanOnce_number {v : PyJson} {cs rest : Text} (h : Number v cs) (hrest : Stops rest)
    (n d : ℕ) : scanOnce (n + 1) d (cs ++ rest) = .ok (v, rest) := by
  obtain ⟨c, ds, hdigit, hcs⟩ := number_head h
  have hc : 48 ≤ c ∧ c ≤ 57 := by simpa [isDigit] using hdigit
  have hword : literals.find? (·.1.isPrefixOf (cs ++ rest)) = none := by
    rcases hcs with rfl | rfl <;>
      simp [literals, text, List.isPrefixOf] <;> omega
  rw [scanOnce.eq_9, hword]
  · exact scanNumber_number h hrest
  all_goals
    intro cs' h'
    rcases hcs with rfl | rfl
    · obtain ⟨rfl, _⟩ := List.cons.inj h'
      omega
    · obtain ⟨h', _⟩ := List.cons.inj h'
      cases h'

theorem scanOnce_word {w : Text × PyJson} (hw : w ∈ words) (n d : ℕ) (rest : Text) :
    scanOnce (n + 1) d (w.1 ++ rest) = .ok (w.2, rest) := by
  simp only [words, List.mem_cons, List.not_mem_nil, or_false] at hw
  rcases hw with rfl | rfl | rfl <;> rfl

/-- A value starts with an ASCII character, neither a blank nor a closing bracket. -/
theorem value_head {d : ℕ} {v : PyJson} {cs : Text} (h : Value d v cs) :
    ∃ c ds, cs = c :: ds ∧ isBlank c = false ∧ c ≠ 93 ∧ c < 0x80 := by
  cases h with
  | word hw =>
    simp only [words, List.mem_cons, List.not_mem_nil, or_false] at hw
    rcases hw with rfl | rfl | rfl
    · exact ⟨110, _, rfl, by decide⟩
    · exact ⟨116, _, rfl, by decide⟩
    · exact ⟨102, _, rfl, by decide⟩
  | number hnumber =>
    obtain ⟨c, ds, hdigit, rfl | rfl⟩ := number_head hnumber
    · have hc : 48 ≤ c ∧ c ≤ 57 := by simpa [isDigit] using hdigit
      refine ⟨c, ds, rfl, ?_, by omega, by omega⟩
      simp only [isBlank, Bool.or_eq_false_iff, beq_eq_false_iff_ne]
      omega
    · exact ⟨45, _, rfl, by decide⟩
  | string _ => exact ⟨34, _, rfl, by decide⟩
  | emptyObject _ | object _ _ => exact ⟨123, _, rfl, by decide⟩
  | emptyArray _ | array _ _ => exact ⟨91, _, rfl, by decide⟩

theorem skip_value {d : ℕ} {v : PyJson} {ws vcs rest : Text} (hws : Blank ws)
    (h : Value d v vcs) : skip (ws ++ (vcs ++ rest)) = vcs ++ rest := by
  obtain ⟨c, ds, rfl, hc, _⟩ := value_head h
  exact skip_blank hws hc

theorem members_head {d : ℕ} {ms : List (Text × PyJson)} {cs : Text} (h : Members d ms cs) :
    ∃ ds, cs = 34 :: ds := by
  cases h with
  | one => exact ⟨_, rfl⟩
  | more => exact ⟨_, rfl⟩

theorem items_head {d : ℕ} {is : List PyJson} {cs : Text} (h : Items d is cs) :
    ∃ c ds, cs = c :: ds ∧ isBlank c = false ∧ c ≠ 93 := by
  cases h with
  | one hv _ =>
    obtain ⟨c, ds, rfl, hc, hclose, _⟩ := value_head hv
    exact ⟨c, _, rfl, hc, hclose⟩
  | more hv _ _ _ =>
    obtain ⟨c, ds, rfl, hc, hclose, _⟩ := value_head hv
    exact ⟨c, _, rfl, hc, hclose⟩

/-- What the scanner does behind a member. -/
def afterMember (n d : ℕ) (m : Text × PyJson) (cs : Text) :
    Except Fault (List (Text × PyJson) × Text) :=
  match skip cs with
  | 125 :: rest => return ([m], rest)
  | 44 :: cs =>
    match skip cs with
    | 125 :: _ => .error (.decodeError (cs.length + 1))
    | next => do
      let (members, rest) ← scanMembers n d next
      return (m :: members, rest)
  | cs => .error (.decodeError cs.length)

theorem afterMember_comma {n d c : ℕ} {m : Text × PyJson} {ws₁ ws₂ cs : Text} (hws₁ : Blank ws₁)
    (hws₂ : Blank ws₂) (hc : isBlank c = false) (hclose : c ≠ 125) :
    afterMember n d m (ws₁ ++ 44 :: (ws₂ ++ c :: cs)) =
      (scanMembers n d (c :: cs)).map fun r => (m :: r.1, r.2) := by
  have hnext : skip (ws₂ ++ c :: cs) = c :: cs := skip_blank hws₂ hc
  rw [afterMember, skip_blank hws₁ rfl]
  split
  · rename_i h
    cases h
  · rename_i h
    obtain ⟨_, rfl⟩ := List.cons.inj h
    rw [hnext]
    split
    · rename_i h
      exact absurd (List.cons.inj h).1 hclose
    · rename_i h
      cases scanMembers n d (c :: cs) <;> rfl
  · rename_i h
    exact absurd rfl (h _)

/-- One member, up to what comes behind its value. -/
theorem reads_member {d : ℕ} {key kcs vcs ws₁ ws₂ rest : Text} {v : PyJson}
    (hkey : Chars key kcs) (hws₁ : Blank ws₁) (hws₂ : Blank ws₂) (hv : Value d v vcs)
    (hread : Reads (fun n => scanOnce n d (vcs ++ rest)) v rest) :
    ∃ N, ∀ n ≥ N, scanMembers (n + 1) d
      (34 :: (kcs ++ 34 :: (ws₁ ++ 58 :: (ws₂ ++ (vcs ++ rest))))) =
        afterMember n d (key, v) rest := by
  obtain ⟨N, hN⟩ := hread
  obtain ⟨M, hM⟩ := reads_chars hkey
    ((kcs ++ 34 :: (ws₁ ++ 58 :: (ws₂ ++ (vcs ++ rest)))).length + 1)
    (ws₁ ++ 58 :: (ws₂ ++ (vcs ++ rest)))
  refine ⟨N + M, fun n hn => ?_⟩
  have hstring := hM n (by omega)
  have hvalue := hN n (by omega)
  dsimp only at hstring hvalue
  rw [scanMembers.eq_2, hstring]
  simp only [bind, Except.bind]
  rw [skip_blank hws₁ rfl]
  change (scanOnce n d (skip (ws₂ ++ (vcs ++ rest))) >>=
    fun r => afterMember n d (key, r.1) r.2) = _
  rw [skip_value hws₂ hv, hvalue]
  rfl

/-- What the scanner does behind an item. -/
def afterItem (n d : ℕ) (v : PyJson) (cs : Text) : Except Fault (List PyJson × Text) :=
  match skip cs with
  | 93 :: rest => return ([v], rest)
  | 44 :: cs =>
    match skip cs with
    | 93 :: _ => .error (.decodeError (cs.length + 1))
    | next => do
      let (items, rest) ← scanItems n d next
      return (v :: items, rest)
  | cs => .error (.decodeError cs.length)

theorem afterItem_comma {n d c : ℕ} {v : PyJson} {ws₁ ws₂ cs : Text} (hws₁ : Blank ws₁)
    (hws₂ : Blank ws₂) (hc : isBlank c = false) (hclose : c ≠ 93) :
    afterItem n d v (ws₁ ++ 44 :: (ws₂ ++ c :: cs)) =
      (scanItems n d (c :: cs)).map fun r => (v :: r.1, r.2) := by
  have hnext : skip (ws₂ ++ c :: cs) = c :: cs := skip_blank hws₂ hc
  rw [afterItem, skip_blank hws₁ rfl]
  split
  · rename_i h
    cases h
  · rename_i h
    obtain ⟨_, rfl⟩ := List.cons.inj h
    rw [hnext]
    split
    · rename_i h
      exact absurd (List.cons.inj h).1 hclose
    · rename_i h
      cases scanItems n d (c :: cs) <;> rfl
  · rename_i h
    exact absurd rfl (h _)

theorem reads_item {d : ℕ} {vcs rest : Text} {v : PyJson}
    (hread : Reads (fun n => scanOnce n d (vcs ++ rest)) v rest) :
    ∃ N, ∀ n ≥ N, scanItems (n + 1) d (vcs ++ rest) = afterItem n d v rest := by
  obtain ⟨N, hN⟩ := hread
  refine ⟨N, fun n hn => ?_⟩
  have hvalue := hN n hn
  dsimp only at hvalue
  rw [scanItems.eq_2, hvalue]
  rfl

mutual
/-- Every text of a value is read to its end. -/
theorem reads_value {d : ℕ} {v : PyJson} {cs : Text} (h : Value d v cs) (rest : Text)
    (hrest : Stops rest) : Reads (fun n => scanOnce n d (cs ++ rest)) v rest := by
  have hone : (∀ n, scanOnce (n + 1) d (cs ++ rest) = .ok (v, rest)) →
      Reads (fun n => scanOnce n d (cs ++ rest)) v rest := by
    intro hread
    refine ⟨1, fun n hn => ?_⟩
    obtain ⟨n, rfl⟩ : ∃ k, n = k + 1 := ⟨n - 1, by omega⟩
    exact hread n
  cases h with
  | word hw => exact hone fun n => scanOnce_word hw n d rest
  | number hnumber => exact hone fun n => scanOnce_number hnumber hrest n d
  | @string _ s cs hchars =>
    have htext : 34 :: (cs ++ [34]) ++ rest = 34 :: (cs ++ 34 :: rest) := by simp
    rw [htext]
    refine reads_step (reads_chars hchars ((cs ++ 34 :: rest).length + 1) rest) fun n hn => ?_
    rw [scanOnce.eq_2, hn]
    rfl
  | @emptyObject _ ws hws =>
    refine hone fun n => ?_
    have htext : 123 :: (ws ++ [125]) ++ rest = 123 :: (ws ++ 125 :: rest) := by simp
    rw [htext]
    exact scanOnce.eq_4 _ _ _ _ (skip_blank hws rfl)
  | @emptyArray _ ws hws =>
    refine hone fun n => ?_
    have htext : 91 :: (ws ++ [93]) ++ rest = 91 :: (ws ++ 93 :: rest) := by simp
    rw [htext]
    exact scanOnce.eq_7 _ _ _ _ (skip_blank hws rfl)
  | @object _ ms ws cs hws hms =>
    have htext : 123 :: (ws ++ (cs ++ [125])) ++ rest =
        123 :: (ws ++ (cs ++ 125 :: rest)) := by simp
    have hskip : skip (ws ++ (cs ++ 125 :: rest)) = cs ++ 125 :: rest := by
      obtain ⟨ds, rfl⟩ := members_head hms
      exact skip_blank hws rfl
    rw [htext]
    refine reads_step (reads_members hms rest) fun n hn => ?_
    rw [scanOnce.eq_5, hskip, hn]
    · rfl
    · intro cs' h'
      rw [hskip] at h'
      obtain ⟨ds, rfl⟩ := members_head hms
      cases h'
  | @array _ is ws cs hws his =>
    have htext : 91 :: (ws ++ (cs ++ [93])) ++ rest = 91 :: (ws ++ (cs ++ 93 :: rest)) := by simp
    have hskip : skip (ws ++ (cs ++ 93 :: rest)) = cs ++ 93 :: rest := by
      obtain ⟨c, ds, rfl, hc, _⟩ := items_head his
      exact skip_blank hws hc
    rw [htext]
    refine reads_step (reads_items his rest) fun n hn => ?_
    rw [scanOnce.eq_8, hskip, hn]
    · rfl
    · intro cs' h'
      rw [hskip] at h'
      obtain ⟨c, ds, rfl, _, hclose⟩ := items_head his
      exact hclose (List.cons.inj h').1
termination_by (cs.length, 0)

theorem reads_members {d : ℕ} {ms : List (Text × PyJson)} {cs : Text} (h : Members d ms cs)
    (rest : Text) : Reads (fun n => scanMembers n d (cs ++ 125 :: rest)) ms rest := by
  cases h with
  | @one _ key kcs v vcs ws₁ ws₂ ws₃ hkey hws₁ hws₂ hv hws₃ =>
    have htext : 34 :: (kcs ++ 34 :: (ws₁ ++ 58 :: (ws₂ ++ (vcs ++ ws₃)))) ++ 125 :: rest =
        34 :: (kcs ++ 34 :: (ws₁ ++ 58 :: (ws₂ ++ (vcs ++ (ws₃ ++ 125 :: rest))))) := by simp
    rw [htext]
    obtain ⟨N, hN⟩ := reads_member hkey hws₁ hws₂ hv
      (reads_value hv (ws₃ ++ 125 :: rest) (stops_blank hws₃ (by simp)))
    refine ⟨N + 1, fun n hn => ?_⟩
    obtain ⟨n, rfl⟩ : ∃ k, n = k + 1 := ⟨n - 1, by omega⟩
    refine (hN n (by omega)).trans ?_
    rw [afterMember, skip_blank hws₃ rfl]
    rfl
  | @more _ key kcs v vcs ws₁ ws₂ ws₃ ws₄ ms cs hkey hws₁ hws₂ hv hws₃ hws₄ hms =>
    have htext : 34 :: (kcs ++ 34 :: (ws₁ ++ 58 :: (ws₂ ++ (vcs ++ (ws₃ ++ 44 :: (ws₄ ++ cs)))))) ++
        125 :: rest = 34 :: (kcs ++ 34 :: (ws₁ ++ 58 :: (ws₂ ++ (vcs ++ (ws₃ ++ 44 ::
          (ws₄ ++ (cs ++ 125 :: rest))))))) := by simp
    rw [htext]
    obtain ⟨K, hK⟩ := reads_members hms rest
    obtain ⟨N, hN⟩ := reads_member hkey hws₁ hws₂ hv
      (reads_value hv (ws₃ ++ 44 :: (ws₄ ++ (cs ++ 125 :: rest))) (stops_blank hws₃ (by simp)))
    refine ⟨N + K + 1, fun n hn => ?_⟩
    obtain ⟨n, rfl⟩ : ∃ k, n = k + 1 := ⟨n - 1, by omega⟩
    have hmembers : scanMembers n d (cs ++ 125 :: rest) = .ok (ms, rest) := hK n (by omega)
    obtain ⟨ds, rfl⟩ := members_head hms
    refine (hN n (by omega)).trans ?_
    rw [List.cons_append] at hmembers ⊢
    rw [afterMember_comma hws₃ hws₄ rfl (by decide), hmembers]
    rfl
termination_by (cs.length, 1)

theorem reads_items {d : ℕ} {is : List PyJson} {cs : Text} (h : Items d is cs)
    (rest : Text) : Reads (fun n => scanItems n d (cs ++ 93 :: rest)) is rest := by
  cases h with
  | @one _ v vcs ws hv hws =>
    rw [List.append_assoc]
    obtain ⟨N, hN⟩ := reads_item
      (reads_value hv (ws ++ 93 :: rest) (stops_blank hws (by simp)))
    refine ⟨N + 1, fun n hn => ?_⟩
    obtain ⟨n, rfl⟩ : ∃ k, n = k + 1 := ⟨n - 1, by omega⟩
    refine (hN n (by omega)).trans ?_
    rw [afterItem, skip_blank hws rfl]
    rfl
  | @more _ v vcs ws₁ ws₂ is cs hv hws₁ hws₂ his =>
    have htext : vcs ++ (ws₁ ++ 44 :: (ws₂ ++ cs)) ++ 93 :: rest =
        vcs ++ (ws₁ ++ 44 :: (ws₂ ++ (cs ++ 93 :: rest))) := by simp
    rw [htext]
    obtain ⟨K, hK⟩ := reads_items his rest
    obtain ⟨N, hN⟩ := reads_item
      (reads_value hv (ws₁ ++ 44 :: (ws₂ ++ (cs ++ 93 :: rest))) (stops_blank hws₁ (by simp)))
    refine ⟨N + K + 1, fun n hn => ?_⟩
    obtain ⟨n, rfl⟩ : ∃ k, n = k + 1 := ⟨n - 1, by omega⟩
    have hitems : scanItems n d (cs ++ 93 :: rest) = .ok (is, rest) := hK n (by omega)
    obtain ⟨c, ds, rfl, hc, hclose⟩ := items_head his
    refine (hN n (by omega)).trans ?_
    rw [List.cons_append] at hitems ⊢
    rw [afterItem_comma hws₁ hws₂ hc hclose, hitems]
    rfl
termination_by (cs.length, 1)
decreasing_by
  all_goals
    simp only [Prod.lex_def, List.length_append, List.length_cons]
    omega
end

/-- Every JSON text is read, whatever its spelling. -/
theorem decode_document {d : ℕ} {v : PyJson} {cs : Text} (h : Document d v cs) :
    decode d cs = .ok v := by
  obtain ⟨before, vcs, after, hbefore, hv, hafter, rfl⟩ := h
  have hstops : Stops after := by
    intro c cs hc
    subst hc
    have hb := hafter c (List.mem_cons_self ..)
    simp only [isBlank, Bool.or_eq_true, beq_iff_eq] at hb
    rcases hb with ((rfl | rfl) | rfl) | rfl <;> decide
  obtain ⟨N, hN⟩ := reads_value hv after hstops
  have hrest : skip after = [] := by
    rw [skip, List.dropWhile_eq_nil_iff]
    exact hafter
  have hread := decode_enough d (n := N + (2 * (before ++ (vcs ++ after)).length + 1))
    (before ++ (vcs ++ after)) (by omega)
  have hvalue := hN (N + (2 * (before ++ (vcs ++ after)).length + 1)) (by omega)
  dsimp only at hvalue
  unfold decode
  rw [hread, skip_value hbefore hv, hvalue]
  simp only [bind, Except.bind]
  rw [hrest]
  rfl

end Values

section Bytes

theorem zero_blank {ws : Text} (h : Blank ws) : 0 ∉ ws :=
  fun hmem => absurd (h 0 hmem) (by decide)

theorem zero_digits {ds : Text} (h : Digits ds) : 0 ∉ ds :=
  fun hmem => absurd (h 0 hmem) (by decide)

theorem digit_pos {d : ℕ} (h : isDigit d = true) : 0 ≠ d := by
  rintro rfl
  cases h

theorem zero_hex {u : ℕ} {us : Text} (h : Hex u us) : 0 ∉ us := by
  obtain ⟨ha, hb, hc, hd⟩ := h
  intro hmem
  simp only [List.mem_cons, List.not_mem_nil, or_false] at hmem
  rcases hmem with rfl | rfl | rfl | rfl <;> contradiction

theorem zero_chars {s cs : Text} (h : Chars s cs) : 0 ∉ cs := by
  induction h with
  | nil => simp
  | plain hc _ _ _ ih => simp [ih]; omega
  | @short e _ _ _ he _ ih =>
    have : 0 ≠ e := by
      rintro rfl
      cases he
    simp [ih, this]
  | unit hu _ _ ih => simp [ih, zero_hex hu]
  | pair hu _ hv _ _ ih => simp [ih, zero_hex hu, zero_hex hv]

theorem zero_whole {whole : Text} (h : Whole whole) : 0 ∉ whole := by
  cases h with
  | zero => decide
  | more hd _ hds => simp [digit_pos hd, zero_digits hds]

theorem zero_number {v : PyJson} {cs : Text} (h : Number v cs) : 0 ∉ cs := by
  cases h with
  | int hwhole _ => exact zero_whole hwhole
  | negative hwhole _ => simp [zero_whole hwhole]
  | @float minus whole fraction exponent hminus hwhole hfraction hexponent _ =>
    have hfirst : 0 ∉ minus := by rcases hminus with rfl | rfl <;> decide
    have hpoint : 0 ∉ fraction := by
      cases hfraction with
      | none => simp
      | some hd hds => simp [digit_pos hd, zero_digits hds]
    have hlast : 0 ∉ exponent := by
      cases hexponent with
      | none => simp
      | some he hsign hd hds =>
        rcases he with rfl | rfl <;> rcases hsign with rfl | rfl | rfl <;>
          simp [digit_pos hd, zero_digits hds]
    simp [hfirst, zero_whole hwhole, hpoint, hlast]

mutual
theorem zero_value {d : ℕ} {v : PyJson} {cs : Text} (h : Value d v cs) : 0 ∉ cs := by
  cases h with
  | word hw =>
    have hwords : ∀ w ∈ words.map Prod.fst, 0 ∉ w := by decide
    exact hwords _ (List.mem_map_of_mem hw)
  | number hnumber => exact zero_number hnumber
  | string hchars => simp [zero_chars hchars]
  | emptyObject hws | emptyArray hws => simp [zero_blank hws]
  | object hws hms => simp [zero_blank hws, zero_members hms]
  | array hws his => simp [zero_blank hws, zero_items his]
termination_by (cs.length, 0)

theorem zero_members {d : ℕ} {ms : List (Text × PyJson)} {cs : Text} (h : Members d ms cs) :
    0 ∉ cs := by
  cases h with
  | one hkey hws₁ hws₂ hv hws₃ =>
    simp [zero_chars hkey, zero_blank hws₁, zero_blank hws₂, zero_value hv, zero_blank hws₃]
  | more hkey hws₁ hws₂ hv hws₃ hws₄ hms =>
    simp [zero_chars hkey, zero_blank hws₁, zero_blank hws₂, zero_value hv, zero_blank hws₃,
      zero_blank hws₄, zero_members hms]
termination_by (cs.length, 1)

theorem zero_items {d : ℕ} {is : List PyJson} {cs : Text} (h : Items d is cs) : 0 ∉ cs := by
  cases h with
  | one hv hws => simp [zero_value hv, zero_blank hws]
  | more hv hws₁ hws₂ his =>
    simp [zero_value hv, zero_blank hws₁, zero_blank hws₂, zero_items his]
termination_by (cs.length, 1)
decreasing_by
  all_goals
    simp only [Prod.lex_def, List.length_append, List.length_cons]
    omega
end

/-- No character but U+0000 is encoded with a zero. -/
theorem zero_encodeChar {c : Char} (h : 0 ≠ c.toNat) :
    0 ∉ (String.utf8EncodeChar c).map UInt8.toNat := by
  have hvalid : c.toNat < 0xd800 ∨ (0xdfff < c.toNat ∧ c.toNat < 0x110000) := c.valid
  have hval : c.val.toNat = c.toNat := rfl
  rw [String.utf8EncodeChar, hval]
  generalize c.toNat = v at h hvalid
  split
  · rw [List.map_cons, List.map_nil, toNat_ofNat (by omega)]
    simpa using h
  · split
    · simp only [List.map_cons, List.map_nil]
      rw [toNat_ofNat (by omega), toNat_ofNat (by omega)]
      simp
    · split
      · simp only [List.map_cons, List.map_nil]
        rw [toNat_ofNat (by omega), toNat_ofNat (by omega), toNat_ofNat (by omega)]
        simp
      · simp only [List.map_cons, List.map_nil]
        rw [toNat_ofNat (by omega), toNat_ofNat (by omega), toNat_ofNat (by omega),
          toNat_ofNat (by omega)]
        simp

theorem zero_encode {s : String} (h : 0 ∉ text s) : 0 ∉ (encodeUtf8 s).map UInt8.toNat := by
  intro hmem
  unfold encodeUtf8 at hmem
  rw [List.map_flatMap, List.mem_flatMap] at hmem
  obtain ⟨c, hc, hzero⟩ := hmem
  refine zero_encodeChar (c := c) ?_ hzero
  rintro hnul
  exact h (hnul ▸ List.mem_map_of_mem hc)

/-- Bytes without a zero that start with an ASCII character are taken for UTF-8. -/
theorem decodeText_ascii {a : ℕ} {bs : List ℕ} (ha : a < 0x80) (h : 0 ∉ a :: bs) :
    decodeText (a :: bs) = utf8 (a :: bs) := by
  have hne : ∀ b ∈ a :: bs, b ≠ 0 := fun b hb hzero => h (hzero ▸ hb)
  have hfirst := hne a (by simp)
  have hmark : ∀ {x : ℕ} {xs : List ℕ}, a :: bs = x :: xs → ¬(x = 0 ∨ 0x80 ≤ x) := by
    intro x xs hx
    obtain ⟨rfl, _⟩ := List.cons.inj hx
    omega
  unfold decodeText
  split
  · exact absurd (.inl rfl) (hmark ‹_›)
  · exact absurd (.inr (by decide)) (hmark ‹_›)
  · exact absurd (.inr (by decide)) (hmark ‹_›)
  · exact absurd (.inr (by decide)) (hmark ‹_›)
  · exact absurd (.inr (by decide)) (hmark ‹_›)
  · rename_i heq
    obtain ⟨rfl, rfl⟩ := List.cons.inj heq
    rw [if_neg hfirst, if_neg (hne _ (by simp))]
  · rename_i heq
    obtain ⟨rfl, rfl⟩ := List.cons.inj heq
    rw [if_neg hfirst, if_neg (hne _ (by simp))]
  · rfl

/-- A JSON text starts with an ASCII character. -/
theorem document_head {d : ℕ} {v : PyJson} {cs : Text} (h : Document d v cs) :
    ∃ c ds, cs = c :: ds ∧ c < 0x80 := by
  obtain ⟨before, vcs, after, hbefore, hv, _, rfl⟩ := h
  cases before with
  | nil =>
    obtain ⟨c, ds, rfl, _, _, hc⟩ := value_head hv
    exact ⟨c, _, rfl, hc⟩
  | cons b before =>
    have hb := hbefore b (List.mem_cons_self ..)
    simp only [isBlank, Bool.or_eq_true, beq_iff_eq] at hb
    exact ⟨b, _, rfl, by omega⟩

theorem zero_document {d : ℕ} {v : PyJson} {cs : Text} (h : Document d v cs) : 0 ∉ cs := by
  obtain ⟨before, vcs, after, hbefore, hv, hafter, rfl⟩ := h
  simp [zero_blank hbefore, zero_value hv, zero_blank hafter]

/-- `json.loads` of a JSON text in UTF-8 is the value the text is of. -/
theorem jsonLoads_document {d : ℕ} {v : PyJson} {s : String} (h : Document d v (text s)) :
    jsonLoads d (encodeUtf8 s) = .ok v := by
  obtain ⟨a, as, hs, ha⟩ := document_head h
  have hbytes : ∃ bs, (encodeUtf8 s).map UInt8.toNat = a :: bs := by
    unfold text at hs
    unfold encodeUtf8
    cases hlist : s.toList with
    | nil => 
      rw [hlist] at hs
      cases hs
    | cons c cs =>
      rw [hlist] at hs
      obtain ⟨rfl, _⟩ := List.cons.inj hs
      rw [List.flatMap_cons, List.map_append]
      have hval : c.val.toNat = c.toNat := rfl
      rw [String.utf8EncodeChar, hval, if_pos (by omega), List.map_cons, toNat_ofNat (by omega)]
      exact ⟨_, rfl⟩
  obtain ⟨bs, hbs⟩ := hbytes
  have hzero := zero_encode (zero_document h)
  have hdecode : decodeText ((encodeUtf8 s).map UInt8.toNat) = some (text s) := by
    rw [← utf8_encode, hbs]
    exact decodeText_ascii ha (hbs ▸ hzero)
  unfold jsonLoads
  rw [hdecode]
  dsimp only
  rw [decode_document h]
  rfl

end Bytes

end JsonTexts
