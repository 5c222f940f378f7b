import Mathlib.Data.Nat.Notation
import Mathlib.Logic.Function.Basic

/-! Programs made of awaited effects.
A program is a finite-depth tree: a result, or one effect and a continuation for every
reply. Everything between two awaits is local, so a scheduler sees only the effects. -/
namespace Programs

inductive Program (E : Type) (R : E → Type) (α : Type) where
  | done (a : α)
  | await (e : E) (k : R e → Program E R α)

variable {E : Type} {R : E → Type} {α β : Type}

def Program.bind : Program E R α → (α → Program E R β) → Program E R β
  | .done a, f => f a
  | .await e k, f => .await e fun r => (k r).bind f

instance : Monad (Program E R) where
  pure := .done
  bind := Program.bind

theorem await_effect {e e' : E} {k : R e → Program E R α} {k' : R e' → Program E R α}
    (h : Program.await e k = .await e' k') : e = e' := by
  injection h

/-- Every effect the program can still await, whatever the replies, satisfies `P`. -/
def Program.Only (P : E → Prop) : Program E R α → Prop
  | .done _ => True
  | .await e k => P e ∧ ∀ r, (k r).Only P

@[simp] theorem only_done (P : E → Prop) (a : α) :
    (Program.done a : Program E R α).Only P := trivial

@[simp] theorem only_await (P : E → Prop) (e : E) (k : R e → Program E R α) :
    (Program.await e k).Only P ↔ P e ∧ ∀ r, (k r).Only P := Iff.rfl

theorem Program.Only.mono {P Q : E → Prop} {p : Program E R α} (h : p.Only P)
    (hPQ : ∀ e, P e → Q e) : p.Only Q := by
  induction p with
  | done a => trivial
  | await e k ih => exact ⟨hPQ e h.1, fun r => ih r (h.2 r)⟩

/-- Everything awaited and every value returned: the frame of a sequential composition. -/
theorem only_bind {P : E → Prop} {p : Program E R α} {f : α → Program E R β}
    (hp : p.Only P) (hf : ∀ a, (f a).Only P) : (p.bind f).Only P := by
  induction p with
  | done a => exact hf a
  | await e k ih => exact ⟨hp.1, fun r => ih r (hp.2 r)⟩

/-- After an effect that satisfies `P` the program is done, whatever the reply. -/
def Program.Last (P : E → Prop) : Program E R α → Prop
  | .done _ => True
  | .await e k => (P e → ∀ r, ∃ a, k r = .done a) ∧ ∀ r, (k r).Last P

theorem last_of_only {P : E → Prop} {p : Program E R α} (h : p.Only fun e => ¬P e) : p.Last P := by
  induction p with
  | done a => trivial
  | await e k ih => exact ⟨fun he => absurd he h.1, fun r => ih r (h.2 r)⟩

/-- After a reply that satisfies `Q` the program awaits no effect that satisfies `P`. -/
def Program.Bars (Q : (e : E) → R e → Prop) (P : E → Prop) : Program E R α → Prop
  | .done _ => True
  | .await e k => (∀ r, Q e r → (k r).Only fun e => ¬P e) ∧ ∀ r, (k r).Bars Q P

theorem bars_of_only {Q : (e : E) → R e → Prop} {P : E → Prop} {p : Program E R α}
    (h : p.Only fun e => ¬P e) : p.Bars Q P := by
  induction p with
  | done a => trivial
  | await e k ih => exact ⟨fun r _ => h.2 r, fun r => ih r (h.2 r)⟩

/-- Along every path the ranks of the effects strictly increase, from `n` on. -/
def Program.Climbs (rank : E → ℕ) : ℕ → Program E R α → Prop
  | _, .done _ => True
  | n, .await e k => n ≤ rank e ∧ ∀ r, (k r).Climbs rank (rank e + 1)

theorem climbs_only {rank : E → ℕ} {n : ℕ} {p : Program E R α} (h : p.Climbs rank n) :
    p.Only fun e => n ≤ rank e := by
  induction p generalizing n with
  | done a => trivial
  | await e k ih =>
    refine ⟨h.1, fun r => ?_⟩
    have hk := ih r (h.2 r)
    exact hk.mono fun e' he' => Nat.le_trans h.1 (Nat.le_of_succ_le he')

end Programs
