import Mathlib.Data.List.Range
import Mathlib.Data.List.Nodup

/-! Serial executions of operations on a state, and histories that are one.
In a history something acts at some of the instants and the state changes at these alone.
What acted, in the order of its instants, is then a serial execution. -/
namespace SerialExecutions

variable {S Op : Type*}

/-- The operations are executed one after another. -/
inductive Serial (step : Op → S → S → Prop) : S → List Op → S → Prop where
  | none (s) : Serial step s [] s
  | next {s t u ops op} : Serial step s ops t → step op t u → Serial step s (ops ++ [op]) u

variable {step : Op → S → S → Prop}

/-- The invariant rule: what every operation keeps, a serial execution keeps. -/
theorem Serial.invariant {I : S → Prop} {s t : S} {ops : List Op} (h : Serial step s ops t)
    (hs : I s) (hstep : ∀ op s t, I s → step op s t → I t) : I t := by
  induction h with
  | none => exact hs
  | next _ hop ih => exact hstep _ _ _ ih hop

/-- What acts before instant `n`, in order. -/
def acted (act : ℕ → Option Op) (n : ℕ) : List Op := (List.range n).filterMap act

variable {act : ℕ → Option Op}

theorem acted_succ (act : ℕ → Option Op) (n : ℕ) :
    acted act (n + 1) = acted act n ++ (act n).toList := by
  rw [acted, List.range_succ, List.filterMap_append, acted]
  cases h : act n with
  | none => simp [h]
  | some op => simp [h]

theorem mem_acted {n : ℕ} {op : Op} : op ∈ acted act n ↔ ∃ k < n, act k = some op := by
  simp [acted]

/-- A history in which the state changes only where an operation acts, and as that operation
changes it, is a serial execution. -/
theorem serial_acted {state : ℕ → S} {n : ℕ}
    (hact : ∀ k < n, ∀ op, act k = some op → step op (state k) (state (k + 1)))
    (hidle : ∀ k < n, act k = none → state (k + 1) = state k) :
    Serial step (state 0) (acted act n) (state n) := by
  induction n with
  | zero => exact .none _
  | succ n ih =>
    have hbefore := ih (fun k hk => hact k (hk.trans (Nat.lt_succ_self n)))
      fun k hk => hidle k (hk.trans (Nat.lt_succ_self n))
    rw [acted_succ]
    cases h : act n with
    | none =>
      rw [hidle n (Nat.lt_succ_self n) h, Option.toList_none, List.append_nil]
      exact hbefore
    | some op => exact .next hbefore (hact n (Nat.lt_succ_self n) op h)

/-- The invariant rule from an instant on: what everything that acts later keeps. -/
theorem acted_keeps {I : S → Prop} {state : ℕ → S} {j n : ℕ} (hjn : j ≤ n) (hj : I (state j))
    (hact : ∀ k < n, ∀ op, act k = some op → I (state k) → I (state (k + 1)))
    (hidle : ∀ k < n, act k = none → state (k + 1) = state k) : I (state n) := by
  induction n, hjn using Nat.le_induction with
  | base => exact hj
  | succ n _ ih =>
    have hbefore := ih (fun k hk => hact k (hk.trans (Nat.lt_succ_self n)))
      fun k hk => hidle k (hk.trans (Nat.lt_succ_self n))
    cases h : act n with
    | none =>
      rw [hidle n (Nat.lt_succ_self n) h]
      exact hbefore
    | some op => exact hact n (Nat.lt_succ_self n) op h hbefore

/-- An operation that acts once is executed once. -/
theorem acted_nodup {n : ℕ}
    (honce : ∀ k < n, ∀ l < n, ∀ op, act k = some op → act l = some op → k = l) :
    (acted act n).Nodup := by
  induction n with
  | zero => exact List.nodup_nil
  | succ n ih =>
    have hbefore := ih fun k hk l hl => honce k (by omega) l (by omega)
    rw [acted_succ, List.nodup_append]
    refine ⟨hbefore, Option.toList_nodup _, ?_⟩
    rintro op hop op' hop' rfl
    obtain ⟨k, hk, hact⟩ := mem_acted.mp hop
    have hkn := honce k (by omega) n (by omega) op hact (Option.mem_toList.mp hop')
    omega

theorem acted_map {Op' : Type*} (f : Op → Op') (act : ℕ → Option Op) (n : ℕ) :
    (acted act n).map f = acted (fun k => (act k).map f) n :=
  List.map_filterMap ..

theorem acted_append (act : ℕ → Option Op) {l n : ℕ} (hln : l ≤ n) :
    ∃ later, acted act n = acted act l ++ later := by
  induction n, hln using Nat.le_induction with
  | base => exact ⟨[], (List.append_nil _).symm⟩
  | succ n _ ih =>
    obtain ⟨later, hlater⟩ := ih
    exact ⟨later ++ (act n).toList, by rw [acted_succ, hlater, List.append_assoc]⟩

/-- What acts earlier is executed earlier. -/
theorem acted_order {k l n : ℕ} {op op' : Op} (hk : act k = some op) (hl : act l = some op')
    (hkl : k < l) (hln : l < n) : List.Sublist [op, op'] (acted act n) := by
  obtain ⟨later, hlater⟩ := acted_append act (Nat.succ_le_of_lt hln)
  have hop : List.Sublist [op] (acted act l) :=
    List.singleton_sublist.mpr (mem_acted.mpr ⟨k, hkl, hk⟩)
  rw [hlater, acted_succ, hl]
  exact (hop.append (List.Sublist.refl [op'])).trans (List.sublist_append_left _ _)

end SerialExecutions
