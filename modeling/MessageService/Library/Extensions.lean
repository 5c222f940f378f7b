import MessageService.Library.Interleaving

/-! Runs with a common past.
From any instant of a run, events that the host accepts there make another run. A call that
is left to itself is such an extension: its program is evaluated without interleaving. -/
namespace Extensions

open Programs Interleaving

variable {H : Host} {s₀ : State H}

/-- The run `σ` has the past of `ρ` up to instant `n`. -/
structure Extends (σ ρ : Run H s₀) (n : ℕ) : Prop where
  long : n ≤ σ.length
  state : ∀ k ≤ n, σ.state k = ρ.state k
  event : ∀ k < n, σ.event k = ρ.event k

/-- The run up to instant `n`, and then the events `es`. -/
def extend (ρ : Run H s₀) (n : ℕ) (hn : n ≤ ρ.length) (es : List (Event H))
    (h : (runEvents (ρ.state n) es).isSome) : Run H s₀ where
  length := n + es.length
  state k := if k < n then ρ.state k else (Run.ofEvents (ρ.state n) es h).state (k - n)
  event k := if k < n then ρ.event k else (Run.ofEvents (ρ.state n) es h).event (k - n)
  start := by
    by_cases h0 : 0 < n
    · rw [if_pos h0, ρ.start]
    · obtain rfl : n = 0 := by omega
      rw [if_neg h0, Run.start, ρ.start]
  valid k hk := by
    by_cases hkn : k < n
    · have hv := ρ.valid k (by omega)
      rw [if_pos hkn, if_pos hkn, hv]
      by_cases hlast : k + 1 < n
      · rw [if_pos hlast]
      · obtain rfl : n = k + 1 := by omega
        rw [if_neg hlast, Nat.sub_self, Run.start]
    · have hv := (Run.ofEvents (ρ.state n) es h).valid (k - n) (by change k - n < es.length; omega)
      rw [if_neg hkn, if_neg hkn, if_neg (by omega), hv, show k - n + 1 = k + 1 - n by omega]

theorem Extends.trans {ρ σ τ : Run H s₀} {m n : ℕ} (h : Extends σ ρ n) (h' : Extends τ σ m)
    (hnm : n ≤ m) : Extends τ ρ n where
  long := hnm.trans h'.long
  state k hk := (h'.state k (hk.trans hnm)).trans (h.state k hk)
  event k hk := (h'.event k (hk.trans_le hnm)).trans (h.event k hk)

variable {ρ : Run H s₀} {n c : ℕ} {x : H.Choice} {o : H.Outcome} {w w' : H.Shared}

theorem extend_extends (hn : n ≤ ρ.length) (es : List (Event H))
    (h : (runEvents (ρ.state n) es).isSome) : Extends (extend ρ n hn es h) ρ n := by
  constructor
  · exact Nat.le_add_right _ _
  · intro k hk
    change (if k < n then ρ.state k else _) = _
    by_cases hkn : k < n
    · rw [if_pos hkn]
    · obtain rfl : k = n := by omega
      rw [if_neg hkn, Nat.sub_self, Run.start]
  · intro k hk
    exact if_pos hk

/-- The event `k` places after the common past. -/
theorem extend_event (hn : n ≤ ρ.length) (es : List (Event H))
    (h : (runEvents (ρ.state n) es).isSome) (k : ℕ) :
    (extend ρ n hn es h).event (n + k) = es.getD k (.close 0) := by
  change (if n + k < n then _ else _) = _
  rw [if_neg (by omega), Nat.add_sub_cancel_left]
  rfl

theorem extend_last (hn : n ≤ ρ.length) {es : List (Event H)} {t : State H}
    (h : runEvents (ρ.state n) es = some t) :
    (extend ρ n hn es (by rw [h]; rfl)).state (n + es.length) = t := by
  change (if n + es.length < n then _ else stateAfter _ _ _) = _
  rw [if_neg (by omega), Nat.add_sub_cancel_left]
  unfold stateAfter
  rw [List.take_length, h]
  rfl

/-- What a program ends with when no other call acts, each await answered by choice `x`. -/
def solo (c : ℕ) (x : H.Choice) : H.Body → H.Shared → Option (H.Outcome × H.Shared)
  | .done o, w => some (o, w)
  | .await e k, w => (H.answer c e x w).bind fun r => solo c x (k r.1) r.2

theorem solo_step {e : H.Effect} {k : H.Reply e → H.Body} {r : H.Reply e}
    (h : H.answer c e x w = some (r, w')) :
    solo c x (.await e k) w = solo c x (k r) w' := by
  rw [solo, h]
  rfl

theorem solo_waits {e : H.Effect} {k : H.Reply e → H.Body} (h : H.answer c e x w = none) :
    solo c x (.await e k) w = none := by
  rw [solo, h]
  rfl

/-- A call on its own takes its awaits one after the other. -/
theorem solo_events {s : State H} {q : H.Request} {p : H.Body} {b : Bool}
    (h : solo c x p s.shared = some (o, w')) (hc : s.calls c = some ⟨q, p, b⟩) :
    ∃ k b' t, runEvents s (List.replicate k (.step c x)) = some t ∧ t.shared = w' ∧
      t.calls = Function.update s.calls c (some ⟨q, .done o, b'⟩) := by
  induction p generalizing s b with
  | done a =>
    obtain ⟨rfl, rfl⟩ : a = o ∧ s.shared = w' := by simpa [solo] using h
    refine ⟨0, b, s, rfl, rfl, ?_⟩
    rw [← hc, Function.update_eq_self]
  | await e k ih =>
    obtain ⟨⟨r, u⟩, hr, h⟩ := Option.bind_eq_some_iff.mp h
    let s' : State H := ⟨u, Function.update s.calls c (some ⟨q, k r, false⟩)⟩
    have hnext : next s (.step c x) = some s' := by
      simp only [next, hc, hr]
      rfl
    obtain ⟨m, b', t, hm, hw, hcalls⟩ := ih r (s := s') h (Function.update_self ..)
    refine ⟨m + 1, b', t, ?_, hw, ?_⟩
    · rw [List.replicate_succ, runEvents, hnext]
      exact hm
    · rw [hcalls, Function.update_idem]

/-- A run in which call `c`, made at instant `n`, is on its own until it has ended. -/
structure Completes (σ : Run H s₀) (n c : ℕ) (x : H.Choice) (q : H.Request) (o : H.Outcome)
    (w : H.Shared) : Prop where
  long : n < σ.length
  event : σ.event n = .call c q
  steps : ∀ k, n < k → k < σ.length → σ.event k = .step c x
  shared : (σ.state σ.length).shared = w
  calls : ∃ b, (σ.state σ.length).calls =
    Function.update (σ.state n).calls c (some ⟨q, .done o, b⟩)

/-- A call that can be made at `n` and completes on its own extends the run. -/
theorem solo_completes {q : H.Request} (hn : n ≤ ρ.length) (hc : (ρ.state n).calls c = none)
    (h : solo c x (H.body q) (ρ.state n).shared = some (o, w')) :
    ∃ σ, Extends σ ρ n ∧ Completes σ n c x q o w' := by
  let s : State H := { ρ.state n with
    calls := Function.update (ρ.state n).calls c (some ⟨q, H.body q, false⟩) }
  have hnext : next (ρ.state n) (.call c q) = some s := by simp only [next, hc]; rfl
  obtain ⟨m, b, t, hm, hw, hcalls⟩ := solo_events (s := s) h (Function.update_self ..)
  have hrun : runEvents (ρ.state n) (.call c q :: List.replicate m (.step c x)) = some t := by
    rw [runEvents, hnext]
    exact hm
  have hlast := extend_last hn hrun
  have hlength : n + (Event.call c q :: List.replicate m (.step c x)).length = n + (m + 1) := by
    simp
  refine ⟨extend ρ n hn _ (by rw [hrun]; rfl), extend_extends hn _ _, ?_⟩
  constructor
  · change n < n + _
    rw [hlength]
    omega
  · exact extend_event hn _ _ 0
  · intro k hnk hk
    change k < n + _ at hk
    rw [hlength] at hk
    obtain ⟨j, rfl⟩ : ∃ j, k = n + (j + 1) := ⟨k - n - 1, by omega⟩
    rw [extend_event, List.getD_cons_succ, List.getD_eq_getElem?_getD,
      List.getElem?_replicate_of_lt (by omega)]
    rfl
  · exact (congrArg State.shared hlast).trans hw
  · refine ⟨b, ?_⟩
    rw [(extend_extends hn _ _).state n le_rfl]
    exact (congrArg State.calls hlast).trans (hcalls.trans (Function.update_idem ..))

/-- At every instant of a run there are calls to come. -/
theorem unused_call (h0 : ∀ c, s₀.calls c = none) (hn : n ≤ ρ.length) :
    ∃ b, ∀ c, b ≤ c → (ρ.state n).calls c = none := by
  induction n with
  | zero => exact ⟨0, fun c _ => by rw [ρ.start, h0]⟩
  | succ n ih =>
    obtain ⟨b, hb⟩ := ih (by omega)
    refine ⟨max b ((ρ.event n).caller + 1), fun c hc => ?_⟩
    have hne : (ρ.event n).caller ≠ c := by omega
    rw [next_calls_other (ρ.valid n (by omega)) hne]
    exact hb c (by omega)

end Extensions
