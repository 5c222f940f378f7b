import MessageService.Library.Interleaving
import MessageService.Library.Wrappers

/-! Contracts of programs.
A program relies on the replies it gets, and owes something for the effects it awaits and for
what it ends with. Contracts compose along sequencing and through wrappers. -/
namespace Contracts

open Programs Wrappers Interleaving

section Rules

variable {E : Type} {R : E → Type} {α β : Type}

/-- With replies that `assume` allows, every effect is one that `guarantee` allows, and the
program ends with a `final` result. -/
def Meets (assume : (e : E) → R e → Prop) (guarantee : E → Prop) (final : α → Prop) :
    Program E R α → Prop
  | .done a => final a
  | .await e k => guarantee e ∧ ∀ r, assume e r → Meets assume guarantee final (k r)

variable {assume : (e : E) → R e → Prop} {guarantee : E → Prop} {final : α → Prop}

/-- The rule of consequence. -/
theorem meets_mono {assume' : (e : E) → R e → Prop} {guarantee' : E → Prop} {final' : α → Prop}
    {p : Program E R α} (h : Meets assume guarantee final p)
    (hreply : ∀ e r, assume' e r → assume e r) (he : ∀ e, guarantee e → guarantee' e)
    (hfinal : ∀ a, final a → final' a) : Meets assume' guarantee' final' p := by
  induction p with
  | done a => exact hfinal a h
  | await e k ih => exact ⟨he e h.1, fun r hr => ih r (h.2 r (hreply e r hr))⟩

/-- The rule of sequential composition. -/
theorem meets_bind {final' : β → Prop} {p : Program E R α} {f : α → Program E R β}
    (hp : Meets assume guarantee final p)
    (hf : ∀ a, final a → Meets assume guarantee final' (f a)) :
    Meets assume guarantee final' (p.bind f) := by
  induction p with
  | done a => exact hf a hp
  | await e k ih => exact ⟨hp.1, fun r hr => ih r (hp.2 r hr)⟩

/-- Along every run with allowed replies the contract holds, and what is left still meets it. -/
theorem meets_path {p q : Program E R α} {tr : List (Exchange E R)} (hpath : Path p tr q)
    (hp : Meets assume guarantee final p) (htr : ∀ x ∈ tr, assume x.1 x.2) :
    (∀ x ∈ tr, guarantee x.1) ∧ Meets assume guarantee final q := by
  induction hpath with
  | here p => exact ⟨by simp, hp⟩
  | step _ ih =>
    rename_i e k r tr q _
    have hr : assume e r := htr ⟨e, r⟩ (List.mem_cons_self ..)
    obtain ⟨hrest, hq⟩ := ih (hp.2 r hr) fun x hx => htr x (List.mem_cons_of_mem _ hx)
    refine ⟨?_, hq⟩
    intro x hx
    rcases List.mem_cons.mp hx with rfl | hx
    · exact hp.1
    · exact hrest x hx

/-- A run that ends, ends well. -/
theorem meets_ends {p : Program E R α} {tr : List (Exchange E R)} {a : α} (h : Ends p tr a)
    (hp : Meets assume guarantee final p) (htr : ∀ x ∈ tr, assume x.1 x.2) : final a :=
  (meets_path h hp htr).2

end Rules

section Wrapping

variable {σ E E' α : Type} {R : E → Type} {R' : E' → Type} {w : Wrapper σ E R E' R'}
variable {assume : (e : E) → R e → Prop} {guarantee : E → Prop} {final : α → Prop}
variable {assume' : (e : E') → R' e → Prop} {guarantee' : E' → Prop} {inv : σ → Prop}

/-- What a wrapper does with one exchange: it passes on what the program owes, turns the replies
it may rely on into such replies of the program, and keeps its own invariant. -/
structure Passes (w : Wrapper σ E R E' R') (assume : (e : E) → R e → Prop)
    (guarantee : E → Prop) (assume' : (e : E') → R' e → Prop) (guarantee' : E' → Prop)
    (inv : σ → Prop) : Prop where
  effect : ∀ e, guarantee e → guarantee' (w.effect e)
  reply : ∀ s e r, inv s → guarantee e → assume' (w.effect e) r →
    assume e (w.reply s e r).1 ∧ inv (w.reply s e r).2

theorem meets_wrap (hw : Passes w assume guarantee assume' guarantee' inv)
    {p : Program E R α} {s : σ} (hp : Meets assume guarantee final p) (hs : inv s) :
    Meets assume' guarantee' (fun r => final r.1 ∧ inv r.2) (w.wrap s p) := by
  induction p generalizing s with
  | done a => exact ⟨hp, hs⟩
  | await e k ih =>
    refine ⟨hw.effect e hp.1, ?_⟩
    intro r hr
    obtain ⟨hreply, hinv⟩ := hw.reply s e r hs hp.1 hr
    exact ih _ (hp.2 _ hreply) hinv

end Wrapping

section Handled

variable {σ E α : Type} {R : E → Type} {assume : (e : E) → R e → Prop}

/-- The exchanges of a program with a handler. -/
def exchanges (h : Handler σ E R) : σ → Program E R α → List (Exchange E R)
  | _, .done _ => []
  | s, .await e k => ⟨e, (h s e).1⟩ :: exchanges h (h s e).2 (k (h s e).1)

theorem ends_exchanges (h : Handler σ E R) (s : σ) (p : Program E R α) :
    Ends p (exchanges h s p) (run h s p).1 := by
  induction p generalizing s with
  | done a => exact .here _
  | await e k ih => exact .step (ih _ _)

/-- A handler whose every reply is allowed makes allowed exchanges. -/
theorem exchanges_allowed {h : Handler σ E R} (hreply : ∀ s e, assume e (h s e).1) (s : σ)
    (p : Program E R α) : ∀ x ∈ exchanges h s p, assume x.1 x.2 := by
  induction p generalizing s with
  | done a => simp [exchanges]
  | await e k ih =>
    intro x hx
    rcases List.mem_cons.mp hx with rfl | hx
    · exact hreply s e
    · exact ih _ _ x hx

end Handled

section Runs

variable {H : Host} {s₀ : State H} {ρ : Run H s₀}

/-- What a call did among the steps of all others is a path of its program. -/
theorem reaches_path {c i n : ℕ} {p q : H.Body} (h : ρ.Reaches c p i q n) :
    ∃ tr, Path p tr q ∧ ∀ x ∈ tr, ∃ k y, i ≤ k ∧ k < n ∧ ρ.Performs k c x.1 y x.2 := by
  induction h with
  | here => exact ⟨[], .here _, by simp⟩
  | finished => exact ⟨[], .here _, by simp⟩
  | @await e x i j q n k r hij _ hperforms hr ih =>
    obtain ⟨tr, hpath, htr⟩ := ih
    refine ⟨⟨e, r⟩ :: tr, .step hpath, ?_⟩
    intro y hy
    rcases List.mem_cons.mp hy with rfl | hy
    · exact ⟨j, x, hij, hr.le, hperforms⟩
    · obtain ⟨k', z, hk, hkn, hp⟩ := htr y hy
      exact ⟨k', z, by omega, hkn, hp⟩

end Runs

end Contracts
