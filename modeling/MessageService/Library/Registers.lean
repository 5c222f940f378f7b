import Mathlib.Data.Nat.Init

/-! Registers that are written at instants.
What a register holds is what its last write has put there. -/
namespace Registers

variable {ν : Type} {writes : ℕ → ν → Prop} {reg : ℕ → ν} {n : ℕ} {old new v : ν}

/-- At `n` the register holds what the last write put there, or what it held before all writes. -/
def LastWritten (writes : ℕ → ν → Prop) (n : ℕ) (old new : ν) : Prop :=
  (∃ k < n, writes k new ∧ ∀ j, k < j → j < n → ∀ v, ¬writes j v) ∨
    ((∀ k < n, ∀ v, ¬writes k v) ∧ new = old)

theorem lastWritten_start (writes : ℕ → ν → Prop) (old : ν) : LastWritten writes 0 old old :=
  .inr ⟨fun _ hk => absurd hk (Nat.not_lt_zero _), rfl⟩

theorem lastWritten_write (h : writes n v) : LastWritten writes (n + 1) old v :=
  .inl ⟨n, Nat.lt_succ_self n, h, fun _ hnj hj => absurd hj (by omega)⟩

theorem LastWritten.skip (h : LastWritten writes n old new) (hnone : ∀ v, ¬writes n v) :
    LastWritten writes (n + 1) old new := by
  rcases h with ⟨k, hk, hw, hlater⟩ | ⟨hnever, rfl⟩
  · refine .inl ⟨k, by omega, hw, ?_⟩
    intro j hkj hj
    rcases Nat.lt_succ_iff_lt_or_eq.mp hj with hj | rfl
    · exact hlater j hkj hj
    · exact hnone
  · refine .inr ⟨?_, rfl⟩
    intro k hk
    rcases Nat.lt_succ_iff_lt_or_eq.mp hk with hk | rfl
    · exact hnever k hk
    · exact hnone

/-- The run lemma: at every instant the register is written, or it is left alone. -/
theorem lastWritten_run (hstep : ∀ k < n, writes k (reg (k + 1)) ∨
    ((∀ v, ¬writes k v) ∧ reg (k + 1) = reg k)) : LastWritten writes n (reg 0) (reg n) := by
  induction n with
  | zero => exact lastWritten_start writes _
  | succ n ih =>
    rcases hstep n (Nat.lt_succ_self n) with hw | ⟨hnone, hreg⟩
    · exact lastWritten_write hw
    · rw [hreg]
      exact (ih fun k hk => hstep k (by omega)).skip hnone

end Registers
