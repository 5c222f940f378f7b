import Mathlib.Data.Nat.Init
import Mathlib.Order.Nat

/-! Executions of a partial step function, with the state at every instant.
An event that is not possible in a state has no next state. -/
namespace Executions

variable {σ ε : Type} {next : σ → ε → Option σ} {s₀ : σ}

/-- A finite execution; beyond `length` the two functions say nothing. -/
structure Execution (next : σ → ε → Option σ) (s₀ : σ) where
  length : ℕ
  state : ℕ → σ
  event : ℕ → ε
  start : state 0 = s₀
  valid : ∀ k < length, next (state k) (event k) = some (state (k + 1))

variable (ρ : Execution next s₀)

/-- What the steps from instant `i` on keep holds at every later instant. -/
theorem Execution.persists {P : σ → Prop} {i : ℕ} (hi : P (ρ.state i))
    (hstep : ∀ k, i ≤ k → k < ρ.length → P (ρ.state k) → P (ρ.state (k + 1))) :
    ∀ n, i ≤ n → n ≤ ρ.length → P (ρ.state n) := by
  intro n hin
  induction n, hin using Nat.le_induction with
  | base => exact fun _ => hi
  | succ n hin ih =>
    intro hn
    exact hstep n hin hn (ih (by omega))

/-- The invariant rule: what holds at the start and is kept by every step holds throughout. -/
theorem Execution.invariant {P : σ → Prop} (h0 : P s₀)
    (hstep : ∀ s e t, P s → next s e = some t → P t) {n : ℕ} (hn : n ≤ ρ.length) :
    P (ρ.state n) := by
  refine ρ.persists (i := 0) (by rw [ρ.start]; exact h0) ?_ n (Nat.zero_le n) hn
  intro k _ hk hp
  exact hstep _ _ _ hp (ρ.valid k hk)

/-- What holds now and did not hold at the start began to hold at some instant before. -/
theorem Execution.began {P : σ → Prop} {i n : ℕ} (hi : ¬P (ρ.state i)) (hn : P (ρ.state n))
    (hin : i ≤ n) : ∃ k, i ≤ k ∧ k < n ∧ ¬P (ρ.state k) ∧ P (ρ.state (k + 1)) := by
  induction n, hin using Nat.le_induction with
  | base => exact absurd hn hi
  | succ n hin ih =>
    by_cases h : P (ρ.state n)
    · obtain ⟨k, hik, hkn, hk⟩ := ih h
      exact ⟨k, hik, by omega, hk⟩
    · exact ⟨n, hin, Nat.lt_succ_self n, h, hn⟩

section Events

/-! A list of possible events determines an execution. -/

def runEvents (next : σ → ε → Option σ) (s : σ) : List ε → Option σ
  | [] => some s
  | e :: es => (next s e).bind fun t => runEvents next t es

theorem runEvents_append (s : σ) (es fs : List ε) :
    runEvents next s (es ++ fs) = (runEvents next s es).bind fun t => runEvents next t fs := by
  induction es generalizing s with
  | nil => rfl
  | cons e es ih =>
    simp only [List.cons_append, runEvents]
    cases next s e with
    | none => rfl
    | some t => exact ih t

def stateAfter (next : σ → ε → Option σ) (s : σ) (es : List ε) (k : ℕ) : σ :=
  (runEvents next s (es.take k)).getD s

theorem runEvents_take {s : σ} {es : List ε} (h : (runEvents next s es).isSome) (k : ℕ) :
    runEvents next s (es.take k) = some (stateAfter next s es k) := by
  rw [← List.take_append_drop k es, runEvents_append] at h
  unfold stateAfter
  cases hk : runEvents next s (es.take k) with
  | none => rw [hk] at h; cases h
  | some t => rfl

/-- The execution of a non-empty list of events. -/
def ofEvents (next : σ → ε → Option σ) (s : σ) (e : ε) (es : List ε)
    (h : (runEvents next s (e :: es)).isSome) : Execution next s where
  length := (e :: es).length
  state := stateAfter next s (e :: es)
  event k := (e :: es).getD k e
  start := rfl
  valid k hk := by
    have h' := runEvents_take h (k + 1)
    rw [List.take_succ_eq_append_getElem hk, runEvents_append, runEvents_take h k] at h'
    simp only [Option.bind_some, runEvents] at h'
    have hd : (e :: es).getD k e = (e :: es)[k] := by
      simp only [List.getD_eq_getElem?_getD, List.getElem?_eq_getElem hk, Option.getD_some]
    rw [hd]
    cases hn : next (stateAfter next s (e :: es) k) (e :: es)[k] with
    | none => rw [hn] at h'; cases h'
    | some t => rw [hn] at h'; exact h'

end Events

end Executions
