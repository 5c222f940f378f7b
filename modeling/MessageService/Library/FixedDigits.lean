import Mathlib.Data.Nat.Basic
import Mathlib.Tactic.IntervalCases

/-! Numbers written with a fixed count of digits, most significant first.
Bases up to sixteen write the lower-case hexadecimal digits and read either case. -/
namespace FixedDigits

/-- The last `w` digits of `n` in base `b`. -/
def encode (b : ℕ) : ℕ → ℕ → List Char
  | 0, _ => []
  | w + 1, n => encode b w (n / b) ++ [Nat.digitChar (n % b)]

def digitValue (c : Char) : ℕ :=
  if c.toNat ≤ 57 then c.toNat - 48 else if c.toNat ≤ 70 then c.toNat - 55 else c.toNat - 87

def decode (b : ℕ) (cs : List Char) : ℕ := cs.foldl (fun a c => a * b + digitValue c) 0

theorem digitValue_digitChar {d : ℕ} (h : d < 16) : digitValue (Nat.digitChar d) = d := by
  interval_cases d <;> decide

@[simp] theorem length_encode (b w n : ℕ) : (encode b w n).length = w := by
  induction w generalizing n with
  | zero => rfl
  | succ w ih => simp [encode, ih]

theorem decode_append_digit (b : ℕ) (cs : List Char) (c : Char) :
    decode b (cs ++ [c]) = decode b cs * b + digitValue c := by
  simp [decode]

theorem decode_encode {b : ℕ} (h0 : 0 < b) (hb : b ≤ 16) (w n : ℕ) (h : n < b ^ w) :
    decode b (encode b w n) = n := by
  induction w generalizing n with
  | zero => simp only [pow_zero] at h; simp [encode, decode]; omega
  | succ w ih =>
    have hq : n / b < b ^ w := by
      rw [Nat.div_lt_iff_lt_mul h0, ← pow_succ]; exact h
    have hd : n % b < 16 := lt_of_lt_of_le (Nat.mod_lt n h0) hb
    rw [encode, decode_append_digit, ih _ hq, digitValue_digitChar hd]
    exact Nat.div_add_mod' n b

/-- Every written character is one of the digits of the base. -/
theorem mem_encode {b w n : ℕ} {c : Char} (h0 : 0 < b) (h : c ∈ encode b w n) :
    ∃ d < b, c = Nat.digitChar d := by
  induction w generalizing n with
  | zero => cases h
  | succ w ih =>
    rcases List.mem_append.mp h with h | h
    · exact ih h
    · exact ⟨n % b, Nat.mod_lt n h0, List.mem_singleton.mp h⟩

end FixedDigits
