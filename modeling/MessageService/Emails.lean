import Mathlib.Data.List.Count
import MessageService.Schemas

/-! The strings the e-mail check accepts.
The pattern is a sequence of items whose classes overlap, so a match is one of many ways to cut
the string. What it accepts is a grammar all the same, read off the string itself. -/
namespace Emails

open Models Schemas Texts

section Patterns

/-- The strings one item of a pattern stands for. -/
def Spells : Item → Text → Prop
  | .plus p, cs => cs ≠ [] ∧ ∀ c ∈ cs, p c = true
  | .char d, cs => cs = [d]

/-- The strings a sequence of items stands for. -/
def Spelled : List Item → Text → Prop
  | [], cs => cs = []
  | i :: is, cs => ∃ xs ys, cs = xs ++ ys ∧ Spells i xs ∧ Spelled is ys

theorem atEnd_cases {cs : Text} (h : atEnd cs = true) : cs = [] ∨ cs = [10] := by
  fun_cases atEnd cs with
  | case1 => exact Or.inl rfl
  | case2 => exact Or.inr rfl
  | case3 hne hnl => simp [atEnd] at h

/-- A match is a way to cut the string, with what `$` leaves behind. -/
theorem matchHere_iff {is : List Item} {cs : Text} :
    matchHere is cs = true ↔ ∃ xs ys, cs = xs ++ ys ∧ Spelled is xs ∧ atEnd ys = true := by
  induction is, cs using matchHere.induct with
  | case1 cs =>
    constructor
    · intro h
      exact ⟨[], cs, rfl, rfl, by simpa [matchHere] using h⟩
    · rintro ⟨xs, ys, rfl, rfl, h⟩
      simpa [matchHere] using h
  | case2 d is =>
    constructor
    · intro h
      cases h
    · rintro ⟨xs, ys, hcs, ⟨x, rest, rfl, rfl, _⟩, _⟩
      cases hcs
  | case3 p is =>
    constructor
    · intro h
      cases h
    · rintro ⟨xs, ys, hcs, ⟨x, rest, rfl, ⟨hne, _⟩, _⟩, _⟩
      obtain ⟨hx, _⟩ := List.append_eq_nil_iff.mp (List.append_eq_nil_iff.mp hcs.symm).1
      exact absurd hx hne
  | case4 d is c cs ih =>
    rw [matchHere, Bool.and_eq_true, beq_iff_eq, ih]
    constructor
    · rintro ⟨rfl, xs, ys, rfl, hxs, hys⟩
      exact ⟨c :: xs, ys, rfl, ⟨[c], xs, rfl, rfl, hxs⟩, hys⟩
    · rintro ⟨xs, ys, hcs, ⟨x, rest, rfl, rfl, hrest⟩, hys⟩
      obtain ⟨rfl, rfl⟩ := List.cons.inj hcs
      exact ⟨rfl, rest, ys, rfl, hrest, hys⟩
  | case5 p is c cs ihmore ihnext =>
    rw [matchHere, Bool.and_eq_true, Bool.or_eq_true, ihmore, ihnext]
    constructor
    · rintro ⟨hc, ⟨xs, ys, rfl, ⟨x, rest, rfl, ⟨_, hall⟩, hrest⟩, hys⟩ | ⟨xs, ys, rfl, hxs, hys⟩⟩
      · refine ⟨c :: (x ++ rest), ys, rfl, ⟨c :: x, rest, rfl, ⟨List.cons_ne_nil _ _, ?_⟩,
          hrest⟩, hys⟩
        exact List.forall_mem_cons.mpr ⟨hc, hall⟩
      · refine ⟨c :: xs, ys, rfl, ⟨[c], xs, rfl, ⟨List.cons_ne_nil _ _, ?_⟩, hxs⟩, hys⟩
        exact List.forall_mem_cons.mpr ⟨hc, by simp⟩
    · rintro ⟨xs, ys, hcs, ⟨x, rest, rfl, ⟨hne, hall⟩, hrest⟩, hys⟩
      cases x with
      | nil => exact absurd rfl hne
      | cons d x =>
        obtain ⟨rfl, rfl⟩ := List.cons.inj hcs
        obtain ⟨hc, hall⟩ := List.forall_mem_cons.mp hall
        refine ⟨hc, ?_⟩
        -- the class goes on, or the next item starts here
        by_cases hx : x = []
        · subst hx
          exact Or.inr ⟨rest, ys, rfl, hrest, hys⟩
        · exact Or.inl ⟨x ++ rest, ys, rfl, ⟨x, rest, rfl, ⟨hx, hall⟩, hrest⟩, hys⟩

end Patterns

section Strip

/-- What is left and what is taken away. -/
structure Stripped (cs t : Text) : Prop where
  cut : ∃ before after, cs = before ++ t ++ after ∧ (∀ c ∈ before, isSpace c = true) ∧
    ∀ c ∈ after, isSpace c = true
  head : ∀ c ∈ t.head?, isSpace c = false
  last : ∀ c ∈ t.getLast?, isSpace c = false

theorem strip_stripped (cs : Text) : Stripped cs (strip cs) where
  cut := by
    refine ⟨cs.takeWhile isSpace, (cs.dropWhile isSpace).rtakeWhile isSpace, ?_, ?_, ?_⟩
    · rw [List.append_assoc, strip, List.rdropWhile_append_rtakeWhile,
        List.takeWhile_append_dropWhile]
    · intro c hc
      exact List.mem_takeWhile_imp hc
    · intro c hc
      exact List.mem_rtakeWhile_imp hc
  head c hc := by
    cases h : strip cs with
    | nil =>
      rw [h] at hc
      cases hc
    | cons d rest =>
      rw [h] at hc
      obtain rfl := Option.some.inj hc
      exact strip_head h
  last c hc := by
    have hne : strip cs ≠ [] := by
      rintro h
      rw [h] at hc
      cases hc
    have hlast := List.rdropWhile_last_not isSpace _ hne
    rw [List.getLast?_eq_some_getLast hne] at hc
    obtain rfl := Option.some.inj hc
    simpa [strip] using hlast

end Strip

section Addresses

/-- The grammar of an address, read off the string. -/
structure Address (t : Text) : Prop where
  unspaced : ∀ c ∈ t, isSpace c = false
  oneAt : t.count atSign = 1
  parts : ∃ user domain, t = user ++ atSign :: domain ∧ user ≠ [] ∧
    ∃ i, 0 < i ∧ i + 1 < domain.length ∧ domain[i]? = some dot

theorem emailChar_iff {c : ℕ} : emailChar c = true ↔ isSpace c = false ∧ c ≠ atSign := by
  simp [emailChar]

/-- A part of an address: what `[^\s@]+` stands for. -/
def Part (cs : Text) : Prop := Spells (.plus emailChar) cs

theorem Part.unspaced {cs : Text} (h : Part cs) {c : ℕ} (hc : c ∈ cs) :
    isSpace c = false :=
  (emailChar_iff.mp (h.2 c hc)).1

theorem Part.count_at {cs : Text} (h : Part cs) : cs.count atSign = 0 :=
  List.count_eq_zero.mpr fun hmem => (emailChar_iff.mp (h.2 _ hmem)).2 rfl

theorem part_of {cs : Text} (hne : cs ≠ []) (hspace : ∀ c ∈ cs, isSpace c = false)
    (hat : cs.count atSign = 0) : Part cs := by
  refine ⟨hne, fun c hc => emailChar_iff.mpr ⟨hspace c hc, ?_⟩⟩
  rintro rfl
  exact List.count_eq_zero.mp hat hc

theorem spelled_emailRe {cs : Text} : Spelled emailRe cs ↔ ∃ user left right,
    cs = user ++ atSign :: (left ++ dot :: right) ∧ Part user ∧ Part left ∧ Part right := by
  constructor
  · rintro ⟨user, _, rfl, huser, _, _, rfl, rfl, left, _, rfl, hleft, _, _, rfl, rfl, right, _, rfl,
      hright, rfl⟩
    exact ⟨user, left, right, by simp, huser, hleft, hright⟩
  · rintro ⟨user, left, right, rfl, huser, hleft, hright⟩
    exact ⟨user, _, rfl, huser, [atSign], _, rfl, rfl, left, _, rfl, hleft, [dot], _, rfl, rfl,
      right,
      [], by simp, hright, rfl⟩

/-- The pattern spells the addresses: whichever way the domain is cut, a dot inside it is a
cut. -/
theorem spelled_iff_address {cs : Text} : Spelled emailRe cs ↔ Address cs := by
  rw [spelled_emailRe]
  constructor
  · rintro ⟨user, left, right, rfl, huser, hleft, hright⟩
    refine ⟨?_, ?_, user, left ++ dot :: right, rfl, huser.1, left.length, ?_, ?_, ?_⟩
    · intro c hc
      simp only [List.mem_append, List.mem_cons] at hc
      rcases hc with hc | rfl | hc | rfl | hc
      · exact huser.unspaced hc
      · decide
      · exact hleft.unspaced hc
      · decide
      · exact hright.unspaced hc
    · have hdot : dot ≠ atSign := by decide
      simp [List.count_append, huser.count_at, hleft.count_at, hright.count_at, hdot]
    · exact List.length_pos_of_ne_nil hleft.1
    · have := List.length_pos_of_ne_nil hright.1
      simp only [List.length_append, List.length_cons]
      omega
    · simp
  · rintro ⟨hspace, hat, user, domain, rfl, huser, i, hpos, hlast, hdot⟩
    have hsides : user.count atSign = 0 ∧ domain.count atSign = 0 := by
      rw [List.count_append, List.count_cons_self] at hat
      omega
    obtain ⟨hi, hget⟩ := List.getElem?_eq_some_iff.mp hdot
    have hcut : domain = domain.take i ++ dot :: domain.drop (i + 1) := by
      rw [← hget, List.getElem_cons_drop, List.take_append_drop]
    have hdomain : ∀ c ∈ domain, isSpace c = false := by
      intro c hc
      exact hspace c (by simp [hc])
    have hparts : (domain.take i).count atSign = 0 ∧ (domain.drop (i + 1)).count atSign = 0 := by
      have h := hsides.2
      rw [hcut, List.count_append, List.count_cons] at h
      omega
    refine ⟨user, domain.take i, domain.drop (i + 1), by rw [← hcut], ?_, ?_, ?_⟩
    · exact part_of huser (fun c hc => hspace c (by simp [hc])) hsides.1
    · refine part_of ?_ (fun c hc => hdomain c (List.mem_of_mem_take hc)) hparts.1
      rw [Ne, List.take_eq_nil_iff, not_or]
      exact ⟨by omega, List.ne_nil_of_length_pos (by omega)⟩
    · refine part_of ?_ (fun c hc => hdomain c (List.mem_of_mem_drop hc)) hparts.2
      rw [Ne, List.drop_eq_nil_iff]
      omega

/-- On a string without whitespace at its end, `$` leaves nothing behind. -/
theorem matchHere_stripped {t : Text} (hlast : ∀ c ∈ t.getLast?, isSpace c = false) :
    matchHere emailRe t = true ↔ Address t := by
  rw [matchHere_iff, ← spelled_iff_address]
  constructor
  · rintro ⟨xs, ys, rfl, hxs, hys⟩
    obtain rfl | rfl := atEnd_cases hys
    · simpa using hxs
    · have hspace := hlast 10 (by simp)
      exact absurd hspace (by decide)
  · intro h
    exact ⟨t, [], by simp, h, rfl⟩

end Addresses

section Validator

/-- The e-mail check as a grammar, and the two checks as fixed on what they return. -/
structure AcceptsEmails : Prop where
  accepts : ∀ value name n, (∃ t, cleanEmail value name n = .ok t) ↔
    1 ≤ (strip value).length ∧ (strip value).length ≤ n ∧ Address (strip value)
  returns : ∀ value name n t, cleanEmail value name n = .ok t → t = strip value
  strips : ∀ cs, Stripped cs (strip cs)
  again : ∀ value name n t, cleanEmail value name n = .ok t → cleanEmail t name n = .ok t
  cleans : ∀ value name n t, clean value name n = .ok t → clean t name n = .ok t

theorem accepts_emails : AcceptsEmails where
  accepts value name n := by
    have hmatch := matchHere_stripped (strip_stripped value).last
    constructor
    · rintro ⟨t, ht⟩
      obtain ⟨hclean, hm⟩ := cleanEmail_ok_iff.mp ht
      obtain ⟨hne, hle, rfl⟩ := clean_ok_iff.mp hclean
      exact ⟨List.length_pos_of_ne_nil hne, hle, hmatch.mp hm⟩
    · rintro ⟨hpos, hle, haddress⟩
      refine ⟨strip value, cleanEmail_ok_iff.mpr ⟨?_, hmatch.mpr haddress⟩⟩
      exact clean_ok_iff.mpr ⟨List.ne_nil_of_length_pos hpos, hle, rfl⟩
  returns value name n t h := (clean_ok_iff.mp (cleanEmail_ok_iff.mp h).1).2.2
  strips := strip_stripped
  again value name n t := cleanEmail_idempotent
  cleans value name n t := clean_idempotent

end Validator

end Emails
