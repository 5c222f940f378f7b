import Mathlib.Data.List.Basic
import Mathlib.Data.Nat.Notation

/-! Strings of Python. A text is a list of code points, surrogates among them; those of scalar
values alone are the strings of an encoding. -/
namespace Texts

abbrev Text := List ℕ

def text (s : String) : Text := s.toList.map Char.toNat

/-- The text has no surrogate and can be encoded. -/
def Scalar (t : Text) : Prop := ∀ c ∈ t, c.isValidChar

instance (t : Text) : Decidable (Scalar t) := inferInstanceAs (Decidable (∀ c ∈ t, _))

/-- The string of a text of scalar values. -/
def string (t : Text) : String := String.ofList (t.map Char.ofNat)

@[simp] theorem string_text (s : String) : string (text s) = s := by
  unfold string text
  rw [List.map_map]
  have hchars : s.toList.map (Char.ofNat ∘ Char.toNat) = s.toList :=
    (List.map_congr_left fun c _ => Char.ofNat_toNat c).trans (List.map_id _)
  rw [hchars, String.ofList_toList]

theorem scalar_text (s : String) : Scalar (text s) := by
  intro c hc
  obtain ⟨d, _, rfl⟩ := List.mem_map.mp hc
  exact d.valid

theorem toNat_ofNat {c : ℕ} (h : c.isValidChar) : (Char.ofNat c).toNat = c := by
  unfold Char.ofNat
  rw [dif_pos h]
  rfl

theorem text_string {t : Text} (h : Scalar t) : text (string t) = t := by
  unfold string text
  rw [String.toList_ofList, List.map_map]
  have hcodes : t.map (Char.toNat ∘ Char.ofNat) = t.map id :=
    List.map_congr_left fun c hc => toNat_ofNat (h c hc)
  rw [hcodes, List.map_id]

theorem text_getD {value : Option Text} {old : String} (h : ∀ t ∈ value, Scalar t) :
    text ((value.map string).getD old) = value.getD (text old) := by
  cases value with
  | none => rfl
  | some t => exact text_string (h t rfl)

@[simp] theorem text_inj {s s' : String} : text s = text s' ↔ s = s' := by
  constructor
  · intro h
    rw [← string_text s, h, string_text]
  · exact congrArg text

@[simp] theorem length_text (s : String) : (text s).length = s.length := by
  rw [text, List.length_map, String.length_toList]

end Texts
