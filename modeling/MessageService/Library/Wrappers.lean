import Mathlib.Data.List.Basic
import MessageService.Library.Programs

/-! Paths of programs, and programs run inside a wrapper.
A wrapper stands between a program and its surroundings: it passes every effect on, changed or
not, and may change the reply before the program sees it, with a state of its own. -/
namespace Wrappers

open Programs

/-- An effect and the reply it got. -/
abbrev Exchange (E : Type) (R : E → Type) : Type := (e : E) × R e

section Paths

variable {E : Type} {R : E → Type} {α β : Type}

/-- The program has made these exchanges, in order, and the rest of it is left. -/
inductive Path : Program E R α → List (Exchange E R) → Program E R α → Prop where
  | here (p) : Path p [] p
  | step {e k r tr q} : Path (k r) tr q → Path (.await e k) (⟨e, r⟩ :: tr) q

/-- The program ends with `a` after these exchanges. -/
abbrev Ends (p : Program E R α) (tr : List (Exchange E R)) (a : α) : Prop := Path p tr (.done a)

theorem path_done {a : α} {tr : List (Exchange E R)} {q : Program E R α}
    (h : Path (.done a) tr q) : tr = [] ∧ q = .done a := by
  cases h
  exact ⟨rfl, rfl⟩

theorem ends_done {a b : α} {tr : List (Exchange E R)}
    (h : Ends (.done a : Program E R α) tr b) : tr = [] ∧ a = b := by
  obtain ⟨htr, hb⟩ := path_done h
  exact ⟨htr, (Program.done.inj hb).symm⟩

theorem ends_await {e : E} {k : R e → Program E R α} {tr : List (Exchange E R)} {a : α}
    (h : Ends (.await e k) tr a) : ∃ r rest, tr = ⟨e, r⟩ :: rest ∧ Ends (k r) rest a := by
  cases h with
  | step h => exact ⟨_, _, rfl, h⟩

/-- A sequential composition ends when its first part has ended and then its second. -/
theorem ends_bind {p : Program E R α} {f : α → Program E R β} {tr : List (Exchange E R)} {b : β}
    (h : Ends (p.bind f) tr b) :
    ∃ a tr₁ tr₂, Ends p tr₁ a ∧ Ends (f a) tr₂ b ∧ tr = tr₁ ++ tr₂ := by
  induction p generalizing tr with
  | done a => exact ⟨a, [], tr, .here _, h, rfl⟩
  | await e k ih =>
    obtain ⟨r, rest, rfl, hrest⟩ := ends_await h
    obtain ⟨a, tr₁, tr₂, h₁, h₂, rfl⟩ := ih r hrest
    exact ⟨a, ⟨e, r⟩ :: tr₁, tr₂, .step h₁, h₂, rfl⟩

theorem path_bind {p q : Program E R α} {f : α → Program E R β} {tr : List (Exchange E R)}
    (h : Path p tr q) : Path (p.bind f) tr (q.bind f) := by
  induction h with
  | here p => exact .here _
  | step _ ih => exact .step ih

theorem path_map {p : Program E R α} {f : α → β} {tr : List (Exchange E R)} {q : Program E R β}
    (h : Path (p.bind fun a => .done (f a)) tr q) :
    ∃ p', Path p tr p' ∧ q = p'.bind fun a => .done (f a) := by
  induction p generalizing tr with
  | done a =>
    obtain ⟨rfl, rfl⟩ := path_done h
    exact ⟨.done a, .here _, rfl⟩
  | await e k ih =>
    cases h with
    | here => exact ⟨.await e k, .here _, rfl⟩
    | step h =>
      obtain ⟨p', hp, hq⟩ := ih _ h
      exact ⟨p', .step hp, hq⟩

end Paths

/-- `effect` is what is awaited in place of an effect, and `reply` what the program gets for the
reply, with the next state. -/
structure Wrapper (σ E : Type) (R : E → Type) (E' : Type) (R' : E' → Type) where
  effect : E → E'
  reply : σ → (e : E) → R' (effect e) → R e × σ

section Wrapped

variable {σ E E' α : Type} {R : E → Type} {R' : E' → Type} (w : Wrapper σ E R E' R')

def Wrapper.wrap : σ → Program E R α → Program E' R' (α × σ)
  | s, .done a => .done (a, s)
  | s, .await e k => .await (w.effect e) fun r =>
    Wrapper.wrap (w.reply s e r).2 (k (w.reply s e r).1)

/-- The exchanges of a wrapped program from outside and as the program itself sees them. -/
inductive Wrapper.Views : σ → List (Exchange E R) → List (Exchange E' R') → σ → Prop where
  | nil (s) : Views s [] [] s
  | cons {s e r inner outer t} : Views (w.reply s e r).2 inner outer t →
      Views s (⟨e, (w.reply s e r).1⟩ :: inner) (⟨w.effect e, r⟩ :: outer) t

variable {w}

/-- A wrapped program makes the exchanges of the program, seen through the wrapper. -/
theorem path_wrap {p : Program E R α} {s : σ} {tr : List (Exchange E' R')}
    {q : Program E' R' (α × σ)} (h : Path (w.wrap s p) tr q) :
    ∃ inner p' t, Path p inner p' ∧ w.Views s inner tr t ∧ q = w.wrap t p' := by
  induction p generalizing s tr with
  | done a =>
    obtain ⟨rfl, rfl⟩ := path_done h
    exact ⟨[], .done a, s, .here _, .nil s, rfl⟩
  | await e k ih =>
    cases h with
    | here => exact ⟨[], .await e k, s, .here _, .nil s, rfl⟩
    | step h =>
      obtain ⟨inner, p', t, hp, hv, rfl⟩ := ih _ h
      exact ⟨_, p', t, .step hp, .cons hv, rfl⟩

theorem wrap_path {p p' : Program E R α} {s t : σ} {inner : List (Exchange E R)}
    {tr : List (Exchange E' R')} (hp : Path p inner p') (hv : w.Views s inner tr t) :
    Path (w.wrap s p) tr (w.wrap t p') := by
  induction hp generalizing s tr with
  | here p =>
    cases hv
    exact .here _
  | step _ ih =>
    cases hv with
    | cons hv => exact .step (ih hv)

theorem ends_wrap {p : Program E R α} {s t : σ} {tr : List (Exchange E' R')} {a : α}
    (h : Ends (w.wrap s p) tr (a, t)) : ∃ inner, Ends p inner a ∧ w.Views s inner tr t := by
  obtain ⟨inner, p', t', hp, hv, hq⟩ := path_wrap h
  cases p' with
  | done b =>
    obtain ⟨rfl, rfl⟩ : a = b ∧ t = t' := by
      have := Program.done.inj hq
      exact ⟨congrArg Prod.fst this, congrArg Prod.snd this⟩
    exact ⟨inner, hp, hv⟩
  | await e k => cases hq

end Wrapped

/-- A handler answers every effect, with a state of its own. -/
abbrev Handler (σ E : Type) (R : E → Type) : Type := σ → (e : E) → R e × σ

section Handled

variable {σ τ E E' α β : Type} {R : E → Type} {R' : E' → Type}

def run (h : Handler σ E R) : σ → Program E R α → α × σ
  | s, .done a => (a, s)
  | s, .await e k => run h (h s e).2 (k (h s e).1)

/-- A handler behind a wrapper handles the effects of the program inside. -/
def Wrapper.through (w : Wrapper τ E R E' R') (h : Handler σ E' R') : Handler (τ × σ) E R :=
  fun s e =>
    let r := h s.2 (w.effect e)
    ((w.reply s.1 e r.1).1, (w.reply s.1 e r.1).2, r.2)

theorem run_bind (h : Handler σ E R) (s : σ) (p : Program E R α) (f : α → Program E R β) :
    run h s (p.bind f) = run h (run h s p).2 (f (run h s p).1) := by
  induction p generalizing s with
  | done a => rfl
  | await e k ih => exact ih (h s e).1 (h s e).2

/-- A wrapped program runs as the program does under the handler behind the wrapper. -/
theorem run_wrap (w : Wrapper τ E R E' R') (h : Handler σ E' R') (s : σ) (t : τ)
    (p : Program E R α) :
    run h s (w.wrap t p) =
      (((run (w.through h) (t, s) p).1, (run (w.through h) (t, s) p).2.1),
        (run (w.through h) (t, s) p).2.2) := by
  induction p generalizing s t with
  | done a => rfl
  | await e k ih => exact ih _ _ _

end Handled

end Wrappers
