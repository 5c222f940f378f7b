import Mathlib.Data.Nat.Init
import Mathlib.Order.Nat
import MessageService.Library.Programs

/-! Any number of calls of awaited programs, interleaved over one shared state.
A call starts once under an identity of its own, takes one await at a time and is closed
after its program is done. A reply is chosen by the engine; no reply means waiting. -/
namespace Interleaving

open Programs

structure Host where
  Shared : Type
  Effect : Type
  Reply : Effect → Type
  Request : Type
  Outcome : Type
  Choice : Type
  body : Request → Program Effect Reply Outcome
  answer : ℕ → (e : Effect) → Choice → Shared → Option (Reply e × Shared)
  close : ℕ → Shared → Shared

variable {H : Host}

abbrev Host.Body (H : Host) := Program H.Effect H.Reply H.Outcome

structure Call (H : Host) where
  request : H.Request
  rest : H.Body
  closed : Bool

structure State (H : Host) where
  shared : H.Shared
  calls : ℕ → Option (Call H)

inductive Event (H : Host) where
  | call (c : ℕ) (q : H.Request)
  | step (c : ℕ) (x : H.Choice)
  | close (c : ℕ)

def Event.caller : Event H → ℕ
  | .call c _ | .step c _ | .close c => c

def next (s : State H) : Event H → Option (State H)
  | .call c q =>
    match s.calls c with
    | none => some { s with calls := Function.update s.calls c (some ⟨q, H.body q, false⟩) }
    | some _ => none
  | .step c x =>
    match s.calls c with
    | some ⟨q, .await e k, _⟩ =>
      match H.answer c e x s.shared with
      | some (r, w) => some ⟨w, Function.update s.calls c (some ⟨q, k r, false⟩)⟩
      | none => none
    | _ => none
  | .close c =>
    match s.calls c with
    | some ⟨q, .done o, false⟩ =>
      some ⟨H.close c s.shared, Function.update s.calls c (some ⟨q, .done o, true⟩)⟩
    | _ => none

/-- A finite run: the states between the events are part of it, so that "at an instant"
is an index. Beyond `length` the two functions say nothing. -/
structure Run (H : Host) (s₀ : State H) where
  length : ℕ
  state : ℕ → State H
  event : ℕ → Event H
  start : state 0 = s₀
  valid : ∀ k < length, next (state k) (event k) = some (state (k + 1))

variable {s₀ : State H}

/-- Call `c` takes its await of `e` at instant `k` and receives `r`. -/
structure Run.Performs (ρ : Run H s₀) (k c : ℕ) (e : H.Effect) (x : H.Choice) (r : H.Reply e) :
    Prop where
  within : k < ρ.length
  event : ρ.event k = .step c x
  answer : H.answer c e x (ρ.state k).shared = some (r, (ρ.state (k + 1)).shared)
  awaiting : ∃ q b K, (ρ.state k).calls c = some ⟨q, .await e K, b⟩ ∧
    (ρ.state (k + 1)).calls c = some ⟨q, K r, false⟩

/-- Call `c` does nothing from instant `i` up to instant `j`. -/
def Run.Quiet (ρ : Run H s₀) (c i j : ℕ) : Prop :=
  ∀ k, i ≤ k → k < j → (ρ.event k).caller ≠ c

/-- Call `c` takes no step from instant `i` up to instant `j`; it may be closed. -/
def Run.Idle (ρ : Run H s₀) (c i j : ℕ) : Prop :=
  ∀ k e x (r : H.Reply e), i ≤ k → k < j → ¬ρ.Performs k c e x r

/-- What call `c` did between having `p` left at `i` and having `q` left at `n`. -/
inductive Run.Reaches (ρ : Run H s₀) (c : ℕ) : H.Body → ℕ → H.Body → ℕ → Prop where
  | here {p i n} : i ≤ n → ρ.Quiet c i n → Reaches ρ c p i p n
  | finished {o i n} : i ≤ n → ρ.Idle c i n → Reaches ρ c (.done o) i (.done o) n
  | await {e x i j q n} {k : H.Reply e → H.Body} {r : H.Reply e} : i ≤ j → ρ.Quiet c i j →
      ρ.Performs j c e x r → Reaches ρ c (k r) (j + 1) q n → Reaches ρ c (.await e k) i q n

theorem Run.Quiet.idle {ρ : Run H s₀} {c i j} (h : ρ.Quiet c i j) : ρ.Idle c i j := by
  intro k e x r hik hkj hp
  exact h k hik hkj (by rw [hp.event]; rfl)

theorem Run.Reaches.le {ρ : Run H s₀} {c p i q n} (h : ρ.Reaches c p i q n) : i ≤ n := by
  induction h with
  | here h _ => exact h
  | finished h _ => exact h
  | await h _ _ _ ih => omega

/-- An effect awaited on the way belongs to the program the call started from. -/
theorem Run.Reaches.only {ρ : Run H s₀} {c p i q n} {P : H.Effect → Prop}
    (h : ρ.Reaches c p i q n) (hp : p.Only P) : q.Only P := by
  induction h with
  | here => exact hp
  | finished => trivial
  | await _ _ _ _ ih => exact ih (hp.2 _)

theorem Run.Reaches.last {ρ : Run H s₀} {c p i q n} {P : H.Effect → Prop}
    (h : ρ.Reaches c p i q n) (hp : p.Last P) : q.Last P := by
  induction h with
  | here => exact hp
  | finished => trivial
  | await _ _ _ _ ih => exact ih (hp.2 _)

theorem Run.Reaches.bars {ρ : Run H s₀} {c p i q n} {Q : (e : H.Effect) → H.Reply e → Prop}
    {P : H.Effect → Prop} (h : ρ.Reaches c p i q n) (hp : p.Bars Q P) : q.Bars Q P := by
  induction h with
  | here => exact hp
  | finished => trivial
  | await _ _ _ _ ih => exact ih (hp.2 _)

theorem Run.Reaches.climbs {ρ : Run H s₀} {c p i q n} {rank : H.Effect → ℕ} {lo : ℕ}
    (h : ρ.Reaches c p i q n) (hp : p.Climbs rank lo) : ∃ lo', q.Climbs rank lo' := by
  induction h generalizing lo with
  | here => exact ⟨lo, hp⟩
  | finished => exact ⟨lo, trivial⟩
  | await _ _ _ _ ih => exact ih (hp.2 _)

theorem reaches_done {ρ : Run H s₀} {c o i q n} (h : ρ.Reaches c (.done o) i q n) :
    q = .done o ∧ i ≤ n ∧ ρ.Idle c i n := by
  cases h with
  | here h hq => exact ⟨rfl, h, hq.idle⟩
  | finished h hi => exact ⟨rfl, h, hi⟩

theorem not_reaches_await {ρ : Run H s₀} {c o i e n} {k : H.Reply e → H.Body}
    (h : ρ.Reaches c (.done o) i (.await e k) n) : False := by
  cases h

/-- What a call ends with passes through the continuation of its last part. -/
theorem reaches_bind_done {ρ : Run H s₀} {c i o n} {α : Type}
    {x : Program H.Effect H.Reply α} {k : α → H.Body} {Q : H.Outcome → Prop}
    (hk : ∀ a, ∃ b, k a = .done b ∧ Q b) (h : ρ.Reaches c (x.bind k) i (.done o) n) : Q o := by
  induction x generalizing i with
  | done a =>
    obtain ⟨b, hb, hQ⟩ := hk a
    have h : ρ.Reaches c (k a) i (.done o) n := h
    rw [hb] at h
    cases h with
    | here => exact hQ
    | finished => exact hQ
  | await e f ih =>
    cases h with
    | await _ _ _ hr => exact ih _ hr

/-- A call that has an await left and later a different program has taken that await. -/
theorem reaches_await {ρ : Run H s₀} {c e i q n} {k : H.Reply e → H.Body}
    (h : ρ.Reaches c (.await e k) i q n) :
    (q = .await e k ∧ i ≤ n ∧ ρ.Quiet c i n) ∨
    ∃ j x r, i ≤ j ∧ ρ.Quiet c i j ∧ ρ.Performs j c e x r ∧ ρ.Reaches c (k r) (j + 1) q n := by
  cases h with
  | here h hq => exact Or.inl ⟨rfl, h, hq⟩
  | await h hq hp hr => exact Or.inr ⟨_, _, _, h, hq, hp, hr⟩

theorem reaches_await_done {ρ : Run H s₀} {c e i o n} {k : H.Reply e → H.Body}
    (h : ρ.Reaches c (.await e k) i (.done o) n) :
    ∃ j x r, i ≤ j ∧ ρ.Quiet c i j ∧ ρ.Performs j c e x r ∧
      ρ.Reaches c (k r) (j + 1) (.done o) n := by
  rcases reaches_await h with ⟨hq, _⟩ | h
  · cases hq
  · exact h

theorem Run.Quiet.mono {ρ : Run H s₀} {c i j i' j'} (h : ρ.Quiet c i j) (hi : i ≤ i')
    (hj : j' ≤ j) : ρ.Quiet c i' j' :=
  fun k hk hkj => h k (by omega) (by omega)

theorem quiet_self (ρ : Run H s₀) (c i : ℕ) : ρ.Quiet c i i :=
  fun _ _ _ => by omega

theorem Run.Quiet.tail {ρ : Run H s₀} {c i j} (h : ρ.Quiet c i j)
    (hj : (ρ.event j).caller ≠ c) : ρ.Quiet c i (j + 1) := by
  intro k hk hkj
  rcases Nat.lt_succ_iff_lt_or_eq.mp hkj with hlt | rfl
  · exact h k hk hlt
  · exact hj

/-- Extending what a call did by an instant at which it does nothing. -/
theorem Run.Idle.tail {ρ : Run H s₀} {c i j} (h : ρ.Idle c i j)
    (hj : ∀ e x (r : H.Reply e), ¬ρ.Performs j c e x r) : ρ.Idle c i (j + 1) := by
  intro k e x r hik hkj hp
  rcases Nat.lt_succ_iff_lt_or_eq.mp hkj with hlt | rfl
  · exact h k e x r hik hlt hp
  · exact hj e x r hp

theorem Run.Reaches.wait {ρ : Run H s₀} {c p i q n} (h : ρ.Reaches c p i q n)
    (hn : (ρ.event n).caller ≠ c) : ρ.Reaches c p i q (n + 1) := by
  induction h with
  | here h hq => exact .here (by omega) (hq.tail hn)
  | finished h hi =>
    refine .finished (by omega) (hi.tail ?_)
    intro e x r hp
    rw [hp.event] at hn
    exact hn rfl
  | await h hq hp _ ih => exact .await h hq hp (ih hn)

theorem Run.Reaches.take {ρ : Run H s₀} {c p i e n x} {k : H.Reply e → H.Body} {r : H.Reply e}
    (h : ρ.Reaches c p i (.await e k) n) (hp : ρ.Performs n c e x r) :
    ρ.Reaches c p i (k r) (n + 1) := by
  generalize hq : Program.await e k = q at h
  induction h with
  | here h hq' =>
    subst hq
    exact .await h hq' hp (.here (by omega) (quiet_self ρ c _))
  | finished h _ => cases hq
  | await h hq' hp' _ ih => exact .await h hq' hp' (ih hp hq)

theorem Run.Reaches.stay {ρ : Run H s₀} {c p i o n} (h : ρ.Reaches c p i (.done o) n)
    (hn : ∀ e x (r : H.Reply e), ¬ρ.Performs n c e x r) :
    ρ.Reaches c p i (.done o) (n + 1) := by
  generalize hq : Program.done o = q at h
  induction h with
  | here h hi => subst hq; exact .finished (by omega) (hi.idle.tail hn)
  | finished h hi => exact .finished (by omega) (hi.tail hn)
  | await h hq' hp _ ih => exact .await h hq' hp (ih hn hq)

section Steps

variable (ρ : Run H s₀)

/-- One step of the whole system, from the point of view of the shared state. -/
theorem Run.step_cases {k : ℕ} (hk : k < ρ.length) :
    (∃ c q, ρ.event k = .call c q ∧ (ρ.state (k + 1)).shared = (ρ.state k).shared) ∨
    (∃ c e x r, ρ.Performs k c e x r) ∨
    (∃ c, ρ.event k = .close c ∧
      (ρ.state (k + 1)).shared = H.close c (ρ.state k).shared) := by
  have hv := ρ.valid k hk
  cases he : ρ.event k with
  | call c q =>
    refine Or.inl ⟨c, q, rfl, ?_⟩
    rw [he] at hv
    simp only [next] at hv
    split at hv
    · rw [← Option.some.inj hv]
    · cases hv
  | step c x =>
    refine Or.inr (Or.inl ?_)
    rw [he] at hv
    simp only [next] at hv
    split at hv
    · rename_i q e K b hc
      split at hv
      · rename_i r w ha
        have hs := Option.some.inj hv
        refine ⟨c, e, x, r, hk, he, ?_, q, b, K, hc, ?_⟩
        · rw [ha, ← hs]
        · rw [← hs]; simp
      · cases hv
    · cases hv
  | close c =>
    refine Or.inr (Or.inr ⟨c, rfl, ?_⟩)
    rw [he] at hv
    simp only [next] at hv
    split at hv
    · rw [← Option.some.inj hv]
    · cases hv

/-- Only the caller of an event changes its own program. -/
theorem next_calls_other {s t : State H} {e : Event H} (h : next s e = some t) {c : ℕ}
    (hc : e.caller ≠ c) : t.calls c = s.calls c := by
  cases e with
  | call d q =>
    simp only [next] at h
    split at h
    · rw [← Option.some.inj h]; exact Function.update_of_ne (Ne.symm hc) _ _
    · cases h
  | step d x =>
    simp only [next] at h
    split at h
    · split at h
      · rw [← Option.some.inj h]; exact Function.update_of_ne (Ne.symm hc) _ _
      · cases h
    · cases h
  | close d =>
    simp only [next] at h
    split at h
    · rw [← Option.some.inj h]; exact Function.update_of_ne (Ne.symm hc) _ _
    · cases h

/-- The run lemma of one call: between two instants it has performed its program. -/
theorem Run.evolves {k n c q p b} (h : (ρ.state k).calls c = some ⟨q, p, b⟩) (hkn : k ≤ n)
    (hn : n ≤ ρ.length) :
    ∃ p' b', (ρ.state n).calls c = some ⟨q, p', b'⟩ ∧ ρ.Reaches c p k p' n := by
  induction n, hkn using Nat.le_induction with
  | base => exact ⟨p, b, h, .here (by omega) (quiet_self ρ c k)⟩
  | succ n hkn ih =>
    obtain ⟨p', b', hc, hr⟩ := ih (by omega)
    have hv := ρ.valid n (by omega)
    by_cases hcall : (ρ.event n).caller = c
    · cases he : ρ.event n with
      | call d q' =>
        rw [he] at hv hcall
        obtain rfl : d = c := hcall
        simp [next, hc] at hv
      | step d x =>
        rw [he] at hcall
        obtain rfl : d = c := hcall
        rcases ρ.step_cases (k := n) (by omega) with ⟨_, _, h', _⟩ | ⟨d', e, x', r, hp⟩ | ⟨_, h', _⟩
        · rw [he] at h'; cases h'
        · obtain ⟨q', b'', K, ha, ha'⟩ := hp.awaiting
          have hd := hp.event
          rw [he] at hd
          obtain ⟨rfl, rfl⟩ : d = d' ∧ x = x' := by simpa using hd
          rw [hc] at ha
          obtain ⟨rfl, rfl, rfl⟩ : q = q' ∧ p' = .await e K ∧ b' = b'' := by simpa using ha
          exact ⟨K r, false, ha', hr.take hp⟩
        · rw [he] at h'; cases h'
      | close d =>
        rw [he] at hv hcall
        obtain rfl : d = c := hcall
        simp only [next, hc] at hv
        split at hv
        · rename_i q' o heq
          obtain ⟨rfl, rfl, rfl⟩ : q = q' ∧ p' = .done o ∧ b' = false := by simpa using heq
          refine ⟨.done o, true, ?_, hr.stay ?_⟩
          · rw [← Option.some.inj hv]; simp
          · intro e x r hp
            rw [hp.event] at he
            cases he
        · cases hv
    · exact ⟨p', b', by rw [next_calls_other hv hcall, hc], hr.wait hcall⟩

/-- Every call was started by its request and has performed the request's program since. -/
theorem Run.started (h0 : ∀ c, s₀.calls c = none) {n c q p b}
    (h : (ρ.state n).calls c = some ⟨q, p, b⟩) (hn : n ≤ ρ.length) :
    ∃ i < n, ρ.event i = .call c q ∧ (∀ k ≤ i, (ρ.state k).calls c = none) ∧
      ρ.Reaches c (H.body q) (i + 1) p n := by
  induction n generalizing p b with
  | zero => rw [ρ.start, h0] at h; cases h
  | succ n ih =>
    have hv := ρ.valid n (by omega)
    cases hc : (ρ.state n).calls c with
    | some a =>
      obtain ⟨q', p', b'⟩ := a
      obtain ⟨p'', b'', hs, hr⟩ := ρ.evolves hc (by omega : n ≤ n + 1) hn
      rw [h] at hs
      obtain ⟨rfl, rfl, rfl⟩ : q = q' ∧ p = p'' ∧ b = b'' := by simpa using hs
      obtain ⟨i, hi, he, hnone, _⟩ := ih hc (by omega)
      have hstart : (ρ.state (i + 1)).calls c = some ⟨q, H.body q, false⟩ := by
        have hv' := ρ.valid i (by omega)
        rw [he] at hv'
        simp only [next, hnone i le_rfl] at hv'
        rw [← Option.some.inj hv']; simp
      obtain ⟨p₁, b₁, h₁, hr₁⟩ := ρ.evolves hstart (by omega : i + 1 ≤ n + 1) hn
      rw [h] at h₁
      obtain ⟨rfl, rfl⟩ : p = p₁ ∧ b = b₁ := by simpa using h₁
      exact ⟨i, by omega, he, hnone, hr₁⟩
    | none =>
      have hcall : (ρ.event n).caller = c := by
        by_contra hne
        rw [next_calls_other hv hne, hc] at h
        cases h
      have hnone : ∀ k ≤ n, (ρ.state k).calls c = none := by
        intro k hk
        cases hk' : (ρ.state k).calls c with
        | none => rfl
        | some a =>
          obtain ⟨p', b', hs, _⟩ := ρ.evolves (q := a.request) (p := a.rest) (b := a.closed)
            hk' hk (by omega)
          rw [hc] at hs
          cases hs
      cases he : ρ.event n with
      | call d q' =>
        rw [he] at hv hcall
        obtain rfl : d = c := hcall
        simp only [next, hc] at hv
        rw [← Option.some.inj hv] at h
        obtain ⟨rfl, rfl, rfl⟩ : q' = q ∧ H.body q' = p ∧ false = b := by simpa using h
        exact ⟨n, by omega, he, hnone, .here (by omega) (quiet_self ρ d _)⟩
      | step d x =>
        rw [he] at hv hcall
        obtain rfl : d = c := hcall
        simp [next, hc] at hv
      | close d =>
        rw [he] at hv hcall
        obtain rfl : d = c := hcall
        simp [next, hc] at hv

/-- A call that was started is there from then on. -/
theorem Run.present {i n c q} (he : ρ.event i = .call c q) (hin : i < n) (hn : n ≤ ρ.length) :
    ∃ p b, (ρ.state n).calls c = some ⟨q, p, b⟩ := by
  have hv := ρ.valid i (by omega)
  rw [he] at hv
  simp only [next] at hv
  split at hv
  · have hstart : (ρ.state (i + 1)).calls c = some ⟨q, H.body q, false⟩ := by
      rw [← Option.some.inj hv]; simp
    obtain ⟨p, b, h, _⟩ := ρ.evolves hstart hin hn
    exact ⟨p, b, h⟩
  · cases hv

theorem next_calls_self {s t : State H} {e : Event H} (h : next s e = some t) :
    ∃ a, t.calls e.caller = some a := by
  cases e with
  | call d q =>
    simp only [next] at h
    split at h
    · rw [← Option.some.inj h]; exact ⟨_, Function.update_self ..⟩
    · cases h
  | step d x =>
    simp only [next] at h
    split at h
    · split at h
      · rw [← Option.some.inj h]; exact ⟨_, Function.update_self ..⟩
      · cases h
    · cases h
  | close d =>
    simp only [next] at h
    split at h
    · rw [← Option.some.inj h]; exact ⟨_, Function.update_self ..⟩
    · cases h

/-- A call that does not exist yet has done nothing. -/
theorem Run.quiet_before {i c} (h : (ρ.state i).calls c = none) (hi : i ≤ ρ.length) :
    ρ.Quiet c 0 i := by
  intro k _ hk hc
  obtain ⟨⟨q, p, b⟩, ha⟩ := next_calls_self (ρ.valid k (by omega))
  rw [hc] at ha
  obtain ⟨p', b', hs, _⟩ := ρ.evolves ha (by omega : k + 1 ≤ i) hi
  rw [h] at hs
  cases hs

theorem Run.call_unique {i j c q q'} (hi : i < ρ.length) (hj : j < ρ.length)
    (h : ρ.event i = .call c q) (h' : ρ.event j = .call c q') : i = j := by
  have hnone : ∀ {l r}, l < ρ.length → ρ.event l = .call c r → (ρ.state l).calls c = none := by
    intro l r hl he
    have hv := ρ.valid l hl
    rw [he] at hv
    simp only [next] at hv
    split at hv
    · assumption
    · cases hv
  rcases Nat.lt_trichotomy i j with hlt | rfl | hlt
  · exact absurd (by rw [h]; rfl) (ρ.quiet_before (hnone hj h') hj.le i (Nat.zero_le i) hlt)
  · rfl
  · exact absurd (by rw [h']; rfl) (ρ.quiet_before (hnone hi h) hi.le j (Nat.zero_le j) hlt)

/-- A call that is done takes no step any more. -/
theorem Run.done_before {n k c q o b e x} {r : H.Reply e}
    (h : (ρ.state n).calls c = some ⟨q, .done o, b⟩) (hp : ρ.Performs k c e x r) : k < n := by
  by_contra hk
  obtain ⟨p', b', hs, hr⟩ := ρ.evolves h (Nat.le_of_not_lt hk) hp.within.le
  obtain ⟨q', b'', K, ha, _⟩ := hp.awaiting
  rw [hs] at ha
  obtain ⟨_, rfl, _⟩ : q = q' ∧ p' = .await e K ∧ b' = b'' := by simpa using ha
  cases (reaches_done hr).1

/-- Only a call that is done is closed, so it takes no step any more. -/
theorem Run.closed_before {n k c e x} {r : H.Reply e} (hn : n < ρ.length)
    (he : ρ.event n = .close c) (hp : ρ.Performs k c e x r) : k < n := by
  have hv := ρ.valid n hn
  rw [he] at hv
  simp only [next] at hv
  split at hv
  · rename_i hcall
    exact ρ.done_before hcall hp
  · cases hv

/-- A property of the shared state kept by every await and every close holds at every
later instant. The two premises may use facts about the run itself. -/
theorem Run.persists {P : H.Shared → Prop} {i : ℕ} (hi : P (ρ.state i).shared)
    (ha : ∀ k c e x r, i ≤ k → ρ.Performs k c e x r → P (ρ.state k).shared →
      P (ρ.state (k + 1)).shared)
    (hc : ∀ k c, i ≤ k → k < ρ.length → ρ.event k = .close c → P (ρ.state k).shared →
      P (H.close c (ρ.state k).shared)) :
    ∀ n, i ≤ n → n ≤ ρ.length → P (ρ.state n).shared := by
  intro n hin
  induction n, hin using Nat.le_induction with
  | base => exact fun _ => hi
  | succ n hin ih =>
    intro hn
    have hp := ih (by omega)
    rcases ρ.step_cases (k := n) (by omega) with ⟨_, _, _, h⟩ | ⟨c, e, x, r, h⟩ | ⟨c, he, h⟩
    · rw [h]; exact hp
    · exact ha n c e x r hin h hp
    · rw [h]; exact hc n c hin (by omega) he hp

/-- The invariant rule: what the engine's answers and closing keep holds at every instant. -/
theorem Run.invariant {P : H.Shared → Prop} (h0 : P s₀.shared)
    (ha : ∀ c e x w r w', P w → H.answer c e x w = some (r, w') → P w')
    (hc : ∀ c w, P w → P (H.close c w)) {n : ℕ} (hn : n ≤ ρ.length) :
    P (ρ.state n).shared := by
  refine ρ.persists (i := 0) (by rw [ρ.start]; exact h0) ?_ ?_ n (Nat.zero_le n) hn
  · intro k c e x r _ h hp
    exact ha c e x _ r _ hp h.answer
  · intro k c _ _ _ hp
    exact hc c _ hp

/-- What only call `c` itself can change stays as it is while `c` does nothing. -/
theorem Run.Quiet.frame {β : Type} {ρ : Run H s₀} {c i j : ℕ} (hq : ρ.Quiet c i j)
    {f : H.Shared → β}
    (ha : ∀ d e x w r w', d ≠ c → H.answer d e x w = some (r, w') → f w' = f w)
    (hc : ∀ d w, d ≠ c → f (H.close d w) = f w) (hij : i ≤ j) (hj : j ≤ ρ.length) :
    f (ρ.state j).shared = f (ρ.state i).shared := by
  induction j, hij using Nat.le_induction with
  | base => rfl
  | succ j hij ih =>
    have hcall := hq j hij (Nat.lt_succ_self j)
    rw [← ih (hq.mono le_rfl (Nat.le_succ j)) (by omega)]
    rcases ρ.step_cases (k := j) (by omega) with ⟨_, _, _, h⟩ | ⟨d, e, x, r, h⟩ | ⟨d, he, h⟩
    · rw [h]
    · exact ha d e x _ r _ (by rw [h.event] at hcall; exact hcall) h.answer
    · rw [h]; exact hc d _ (by rw [he] at hcall; exact hcall)

end Steps

theorem Run.Performs.effect_unique {ρ : Run H s₀} {k c d e e' x x'} {r : H.Reply e}
    {r' : H.Reply e'} (h : ρ.Performs k c e x r) (h' : ρ.Performs k d e' x' r') :
    c = d ∧ e = e' := by
  have hev := h.event
  rw [h'.event] at hev
  obtain ⟨rfl, rfl⟩ : d = c ∧ x' = x := by simpa using hev
  obtain ⟨q, b, K, ha, _⟩ := h.awaiting
  obtain ⟨q', b', K', ha', _⟩ := h'.awaiting
  rw [ha] at ha'
  simp only [Option.some.injEq, Call.mk.injEq, Program.await.injEq] at ha'
  exact ⟨rfl, ha'.2.1.1⟩

/-- Where effects come in increasing rank, a call takes them in that order. -/
theorem performs_climb {ρ : Run H s₀} {rank : H.Effect → ℕ} (h0 : ∀ c, s₀.calls c = none)
    (hrank : ∀ q, (H.body q).Climbs rank 0) {j j' c e e' x x'} {r : H.Reply e} {r' : H.Reply e'}
    (h : ρ.Performs j c e x r) (h' : ρ.Performs j' c e' x' r') (hlt : j < j') :
    rank e < rank e' := by
  obtain ⟨q, b, K, hc, hc'⟩ := h.awaiting
  obtain ⟨i, _, _, _, hr⟩ := ρ.started h0 hc h.within.le
  obtain ⟨lo, hclimbs⟩ := hr.climbs (hrank q)
  have hrest := climbs_only (hclimbs.2 r)
  obtain ⟨p', b', hs, hr'⟩ := ρ.evolves hc' hlt h'.within.le
  obtain ⟨q', b'', K', ha, _⟩ := h'.awaiting
  rw [hs] at ha
  obtain ⟨_, rfl, _⟩ : q = q' ∧ p' = .await e' K' ∧ b' = b'' := by simpa using ha
  exact (hr'.only hrest).1

/-- So it takes each of them once. -/
theorem performs_once {ρ : Run H s₀} {rank : H.Effect → ℕ} (h0 : ∀ c, s₀.calls c = none)
    (hrank : ∀ q, (H.body q).Climbs rank 0) {j j' c e x x'} {r r' : H.Reply e}
    (h : ρ.Performs j c e x r) (h' : ρ.Performs j' c e x' r') : j = j' := by
  rcases Nat.lt_trichotomy j j' with hlt | heq | hlt
  · exact absurd (performs_climb h0 hrank h h' hlt) (Nat.lt_irrefl _)
  · exact heq
  · exact absurd (performs_climb h0 hrank h' h hlt) (Nat.lt_irrefl _)

/-- What a reply bars the call does not do after it. -/
theorem performs_barred {ρ : Run H s₀} {Q : (e : H.Effect) → H.Reply e → Prop}
    {P : H.Effect → Prop} (h0 : ∀ c, s₀.calls c = none) {i j j' c q e e' x x'} {r : H.Reply e}
    {r' : H.Reply e'} (hi : i < ρ.length) (he : ρ.event i = .call c q) (hbars : (H.body q).Bars Q P)
    (h : ρ.Performs j c e x r) (hr : Q e r) (h' : ρ.Performs j' c e' x' r') (hlt : j < j') :
    ¬P e' := by
  obtain ⟨q', b, K, hc, hc'⟩ := h.awaiting
  obtain ⟨i', hij, he', _, hreaches⟩ := ρ.started h0 hc h.within.le
  obtain rfl := ρ.call_unique hi (hij.trans h.within) he he'
  obtain rfl : q = q' := by rw [he] at he'; injection he'
  have hrest := (hreaches.bars hbars).1 r hr
  obtain ⟨p', b', hs, hr'⟩ := ρ.evolves hc' hlt h'.within.le
  obtain ⟨q', b'', K', ha, _⟩ := h'.awaiting
  rw [hs] at ha
  obtain ⟨_, rfl, _⟩ : q = q' ∧ p' = .await e' K' ∧ b' = b'' := by simpa using ha
  exact (hr'.only hrest).1

theorem Run.Performs.reply_unique {ρ : Run H s₀} {k c d e x x'} {r r' : H.Reply e}
    (h : ρ.Performs k c e x r) (h' : ρ.Performs k d e x' r') : r = r' ∧ x = x' := by
  have hev := h.event
  rw [h'.event] at hev
  obtain ⟨rfl, rfl⟩ : d = c ∧ x' = x := by simpa using hev
  have ha := h.answer
  rw [h'.answer] at ha
  have := Option.some.inj ha
  exact ⟨(congrArg Prod.fst this).symm, rfl⟩

section Execution

/-! A list of events determines a run, which makes concrete schedules executable. -/

def runEvents (s : State H) : List (Event H) → Option (State H)
  | [] => some s
  | e :: es => (next s e).bind fun t => runEvents t es

theorem runEvents_append (s : State H) (es fs : List (Event H)) :
    runEvents s (es ++ fs) = (runEvents s es).bind fun t => runEvents t fs := by
  induction es generalizing s with
  | nil => rfl
  | cons e es ih =>
    simp only [List.cons_append, runEvents]
    cases next s e with
    | none => rfl
    | some t => exact ih t

def stateAfter (s : State H) (es : List (Event H)) (k : ℕ) : State H :=
  (runEvents s (es.take k)).getD s

theorem runEvents_take {s : State H} {es : List (Event H)} (h : (runEvents s es).isSome) (k : ℕ) :
    runEvents s (es.take k) = some (stateAfter s es k) := by
  rw [← List.take_append_drop k es, runEvents_append] at h
  unfold stateAfter
  cases hk : runEvents s (es.take k) with
  | none => rw [hk] at h; cases h
  | some t => rfl

def Run.ofEvents (s : State H) (es : List (Event H)) (h : (runEvents s es).isSome) : Run H s where
  length := es.length
  state := stateAfter s es
  event k := es.getD k (.close 0)
  start := rfl
  valid k hk := by
    have h' := runEvents_take h (k + 1)
    rw [List.take_succ_eq_append_getElem hk, runEvents_append, runEvents_take h k] at h'
    simp only [Option.bind_some, runEvents] at h'
    have hd : es.getD k (.close 0) = es[k] := by simp [List.getD, List.getElem?_eq_getElem hk]
    rw [hd]
    cases hn : next (stateAfter s es k) es[k] with
    | none => rw [hn] at h'; cases h'
    | some t => rw [hn] at h'; exact h'

end Execution

end Interleaving
