import MessageService.Library.Interleaving

/-! Typestates of programs.
Each reply moves a state that stands for what the program has in hand, and a program may end
only where its result agrees with it. What the state stands for is a relation to the shared
state, kept by every step of the program's own call and of all others. -/
namespace Typestates

open Programs Interleaving

section Tracking

variable {E : Type} {R : E → Type} {α σ : Type}

/-- Every way through the program ends in a state that agrees with its result. -/
def Tracks (move : (e : E) → R e → σ → σ) (final : α → σ → Prop) : σ → Program E R α → Prop
  | s, .done a => final a s
  | s, .await e k => ∀ r, Tracks move final (move e r s) (k r)

end Tracking

section Runs

variable {H : Host} {s₀ : State H} {ρ : Run H s₀} {σ : Type}
variable {move : (e : H.Effect) → H.Reply e → σ → σ} {final : H.Outcome → σ → Prop}

/-- What relates a call's typestate to the shared state, and what keeps it. -/
structure Keeps (move : (e : H.Effect) → H.Reply e → σ → σ) (s₀ : State H)
    (Rel : ℕ → σ → H.Shared → Prop) (init : σ) : Prop where
  start : ∀ c, Rel c init s₀.shared
  own : ∀ c e x r w w' s, Rel c s w → H.answer c e x w = some (r, w') → Rel c (move e r s) w'
  other : ∀ c d e x r w w' s, d ≠ c → Rel c s w → H.answer d e x w = some (r, w') → Rel c s w'
  closes : ∀ c d w s, Rel c s w → Rel c s (H.close d w)

variable {Rel : ℕ → σ → H.Shared → Prop} {init : σ}

theorem related_idle (hkeeps : Keeps move s₀ Rel init) {c i n : ℕ} {s : σ} (hidle : ρ.Idle c i n)
    (hin : i ≤ n) (hn : n ≤ ρ.length) (h : Rel c s (ρ.state i).shared) :
    Rel c s (ρ.state n).shared := by
  induction n, hin using Nat.le_induction with
  | base => exact h
  | succ n hin ih =>
    have hprev := ih (fun k e x r hik hkn => hidle k e x r hik (by omega)) (by omega)
    rcases ρ.step_cases hn with ⟨d, q, _, hs⟩ | ⟨d, e, x, r, hp⟩ | ⟨d, _, hs⟩
    · rw [hs]
      exact hprev
    · refine hkeeps.other c d e x r _ _ _ ?_ hprev hp.answer
      rintro rfl
      exact hidle n e x r hin (Nat.lt_succ_self n) hp
    · rw [hs]
      exact hkeeps.closes c d _ _ hprev

/-- A call that does not exist yet has the first typestate. -/
theorem related_before (hkeeps : Keeps move s₀ Rel init) {c n : ℕ} (hn : n ≤ ρ.length)
    (hc : (ρ.state n).calls c = none) : Rel c init (ρ.state n).shared := by
  refine related_idle hkeeps (ρ.quiet_before hc hn).idle (Nat.zero_le n) hn ?_
  rw [ρ.start]
  exact hkeeps.start c

theorem reaches_tracks (hkeeps : Keeps move s₀ Rel init) {c i n : ℕ} {p p' : H.Body} {s : σ}
    (h : ρ.Reaches c p i p' n) (hn : n ≤ ρ.length) (hs : Rel c s (ρ.state i).shared)
    (hp : Tracks move final s p) : ∃ s', Rel c s' (ρ.state n).shared ∧ Tracks move final s' p' := by
  induction h generalizing s with
  | here hin hquiet => exact ⟨s, related_idle hkeeps hquiet.idle hin hn hs, hp⟩
  | finished hin hidle => exact ⟨s, related_idle hkeeps hidle hin hn hs, hp⟩
  | await hij hquiet hperforms hr ih =>
    have hj := related_idle hkeeps hquiet.idle hij hperforms.within.le hs
    exact ih hn (hkeeps.own _ _ _ _ _ _ _ hj hperforms.answer) (hp _)

/-- At every instant a call has a typestate that its shared state is related to, and from which
what is left of its program ends well. -/
theorem run_tracks (hkeeps : Keeps move s₀ Rel init) (h0 : ∀ c, s₀.calls c = none)
    {c n : ℕ} {q : H.Request} {p : H.Body} {b : Bool} (hbody : Tracks move final init (H.body q))
    (hn : n ≤ ρ.length) (hc : (ρ.state n).calls c = some ⟨q, p, b⟩) :
    ∃ s, Rel c s (ρ.state n).shared ∧ Tracks move final s p := by
  obtain ⟨i, hi, he, hnone, hr⟩ := ρ.started h0 hc hn
  have hcalled : (ρ.state (i + 1)).shared = (ρ.state i).shared := by
    rcases ρ.step_cases (hi.trans_le hn) with ⟨d, q, _, hs⟩ | ⟨d, e, x, r, hp⟩ | ⟨d, hd, _⟩
    · exact hs
    · rw [hp.event] at he
      cases he
    · rw [hd] at he
      cases he
  refine reaches_tracks hkeeps hr hn ?_ hbody
  rw [hcalled]
  exact related_before hkeeps (by omega) (hnone i le_rfl)

end Runs

end Typestates
