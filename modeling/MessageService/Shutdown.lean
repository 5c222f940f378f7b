import Mathlib.Data.Rat.Init
import Mathlib.Algebra.Order.Ring.Rat
import MessageService.Library.Executions

/-! The process from the installation of its signal handlers to its exit.
Two state machines write `state.ready`: the lifespan of the application and the signal handler of
the server. A handler may run between any two steps of the event loop; uvicorn's own `serve` is
here as far as it decides which of them still run. -/
namespace Shutdown

open Executions

inductive Signal where
  | sigint | sigterm
  deriving DecidableEq, Repr

/-- What the lifespan awaits before it yields; `publish` is its assignment to `state.ready`. -/
inductive Startup where
  | connect | selectOne | seed | publish
  deriving DecidableEq, Repr

/-- What the lifespan does after it has yielded; `withdraw` is its assignment to `state.ready`. -/
inductive Release where
  | withdraw | cache | engine | metrics | tracing
  deriving DecidableEq, Repr

/-- How far `serve` has come: the lifespan startup, the main loop, the wait for requests in
flight, the lifespan shutdown, and the way out of `capture_signals`. -/
inductive Phase where
  | starting (step : Startup)
  | started
  | serving
  | draining
  | stopping (step : Release)
  | leaving
  | exited
  deriving DecidableEq, Repr

/-- `state.ready` and the attributes of the server. `scheduled` is a `call_later` handed to the
loop and `timer` the delayed `super().handle_exit`, each with its signal. -/
structure Process where
  ready : Bool
  drainSeconds : ℚ
  draining : Bool
  loop : Bool
  shouldExit : Bool
  forceExit : Bool
  scheduled : Option Signal
  timer : Option Signal
  phase : Phase
  deriving DecidableEq

/-- `serve` has stored its loop and installed the handlers. -/
def installed (drainSeconds : ℚ) : Process :=
  ⟨false, drainSeconds, false, true, false, false, none, none, .starting .connect⟩

/-- `super().handle_exit` -/
def baseHandleExit (sig : Signal) (s : Process) : Process :=
  if s.shouldExit ∧ sig = .sigint then { s with forceExit := true }
  else { s with shouldExit := true }

/-- `GracefulServer.handle_exit` -/
def handleExit (sig : Signal) (s : Process) : Process :=
  let s := { s with ready := false }
  if s.draining ∨ ¬s.loop ∨ s.drainSeconds ≤ 0 then baseHandleExit sig s
  else { s with draining := true, scheduled := some sig }

/-- `schedule` runs the `call_later` handed to the loop, `expire` its timer; an awaited step of the
lifespan ends or raises. -/
inductive Event where
  | signal (sig : Signal)
  | schedule
  | expire
  | startup (ok : Bool)
  | advance
  | release (ok : Bool)
  deriving DecidableEq, Repr

def Startup.next : Startup → Startup
  | .connect => .selectOne
  | .selectOne => .seed
  | .seed | .publish => .publish

def Release.next : Release → Option Release
  | .withdraw => some .cache
  | .cache => some .engine
  | .engine => some .metrics
  | .metrics => some .tracing
  | .tracing => none

/-- `lifespan` up to its `yield`. After an awaited step that raises uvicorn gives up. -/
def startup (step : Startup) (ok : Bool) (s : Process) : Process :=
  match step, ok with
  | .publish, _ => { s with ready := true, phase := .started }
  | step, true => { s with phase := .starting step.next }
  | _, false => { s with shouldExit := true, phase := .leaving }

/-- `lifespan` after its `yield`. -/
def release (step : Release) (ok : Bool) (s : Process) : Process :=
  let s := if step = .withdraw then { s with ready := false } else s
  match ok, step.next with
  | true, some step => { s with phase := .stopping step }
  | _, _ => { s with phase := .leaving }

/-- Only the main loop is skipped when `should_exit` was set during the startup. -/
def advance (s : Process) : Option Process :=
  match s.phase with
  | .started => some { s with phase := if s.shouldExit then .draining else .serving }
  | .serving => if s.shouldExit then some { s with phase := .draining } else none
  -- a forced exit skips the lifespan shutdown
  | .draining => some { s with phase := if s.forceExit then .leaving else .stopping .withdraw }
  | .leaving => some { s with phase := .exited }
  | _ => none

def Phase.looping : Phase → Bool
  | .leaving | .exited => false
  | _ => true

def next (s : Process) : Event → Option Process
  | .signal sig => if s.phase = .exited then none else some (handleExit sig s)
  | .schedule =>
    match s.scheduled with
    | some sig =>
      if s.phase.looping then some { s with scheduled := none, timer := some sig } else none
    | none => none
  | .expire =>
    match s.timer with
    | some sig =>
      if s.phase.looping then some (baseHandleExit sig { s with timer := none }) else none
    | none => none
  | .startup ok =>
    match s.phase with
    | .starting step => some (startup step ok s)
    | _ => none
  | .advance => advance s
  | .release ok =>
    match s.phase with
    | .stopping step => some (release step ok s)
    | _ => none

/-- `GET /health/readiness` -/
def readiness (s : Process) : ℕ × String := if s.ready then (200, "UP") else (503, "DOWN")

abbrev Run (drainSeconds : ℚ) := Execution next (installed drainSeconds)

section Steps

variable {s t : Process} {e : Event}

inductive Step (s : Process) : Event → Process → Prop where
  | signal {sig} : Step s (.signal sig) (handleExit sig s)
  | schedule {sig} : s.scheduled = some sig →
      Step s .schedule { s with scheduled := none, timer := some sig }
  | expire {sig} : s.timer = some sig → Step s .expire (baseHandleExit sig { s with timer := none })
  | startup {step ok} : s.phase = .starting step → Step s (.startup ok) (startup step ok s)
  | advance {phase} : (∀ step, phase ≠ .starting step) → (phase.looping → s.phase.looping) →
      Step s .advance { s with phase := phase }
  | release {step ok} : s.phase = .stopping step → Step s (.release ok) (release step ok s)

theorem advance_step (h : advance s = some t) : Step s .advance t := by
  unfold advance at h
  split at h
  · rename_i hphase
    cases h
    refine .advance (fun step => ?_) fun _ => by rw [hphase]; rfl
    split <;> simp
  · rename_i hphase
    split at h
    · cases h
      exact .advance (fun step => by simp) fun _ => by rw [hphase]; rfl
    · cases h
  · rename_i hphase
    cases h
    refine .advance (fun step => ?_) fun _ => by rw [hphase]; rfl
    split <;> simp
  · cases h
    exact .advance (fun step => by simp) fun h => Bool.noConfusion h
  · cases h

theorem next_step (h : next s e = some t) : Step s e t := by
  cases e with
  | signal sig =>
    simp only [next] at h
    split at h
    · cases h
    · cases h
      exact .signal
  | schedule =>
    simp only [next] at h
    split at h
    · rename_i sig hsig
      split at h
      · cases h
        exact .schedule hsig
      · cases h
    · cases h
  | expire =>
    simp only [next] at h
    split at h
    · rename_i sig hsig
      split at h
      · cases h
        exact .expire hsig
      · cases h
    · cases h
  | startup ok =>
    simp only [next] at h
    split at h
    · rename_i step hphase
      cases h
      exact .startup hphase
    · cases h
  | advance => exact advance_step h
  | release ok =>
    simp only [next] at h
    split at h
    · rename_i step hphase
      cases h
      exact .release hphase
    · cases h

@[simp] theorem baseHandleExit_ready (sig : Signal) (s : Process) :
    (baseHandleExit sig s).ready = s.ready := by
  unfold baseHandleExit
  split <;> rfl

@[simp] theorem baseHandleExit_phase (sig : Signal) (s : Process) :
    (baseHandleExit sig s).phase = s.phase := by
  unfold baseHandleExit
  split <;> rfl

theorem handleExit_cases (sig : Signal) (s : Process) :
    handleExit sig s = baseHandleExit sig { s with ready := false } ∨
      handleExit sig s = { s with ready := false, draining := true, scheduled := some sig } := by
  unfold handleExit
  dsimp only
  split
  · exact Or.inl rfl
  · exact Or.inr rfl

@[simp] theorem handleExit_ready (sig : Signal) (s : Process) :
    (handleExit sig s).ready = false := by
  rcases handleExit_cases sig s with h | h
  · rw [h, baseHandleExit_ready]
  · rw [h]

@[simp] theorem handleExit_phase (sig : Signal) (s : Process) :
    (handleExit sig s).phase = s.phase := by
  rcases handleExit_cases sig s with h | h
  · rw [h, baseHandleExit_phase]
  · rw [h]

/-- The base handler forces an exit only on a SIGINT that finds `should_exit` set. -/
theorem baseHandleExit_force {sig : Signal} (h : (baseHandleExit sig s).forceExit = true) :
    s.forceExit = true ∨ (s.shouldExit = true ∧ sig = .sigint) := by
  unfold baseHandleExit at h
  split at h
  · rename_i hs
    exact Or.inr hs
  · exact Or.inl h

theorem startup_ready {step : Startup} {ok : Bool} (h : (startup step ok s).ready = true) :
    step = .publish ∨ s.ready = true := by
  cases step with
  | publish => exact Or.inl rfl
  | connect | selectOne | seed => cases ok <;> exact Or.inr h

theorem startup_phase {step before : Startup} {ok : Bool}
    (h : (startup before ok s).phase = .starting step) :
    before ≠ .publish ∧ ok = true ∧ before.next = step := by
  cases before with
  | publish => cases h
  | connect | selectOne | seed =>
    cases ok with
    | false => cases h
    | true => exact ⟨by simp, rfl, Phase.starting.inj h⟩

@[simp] theorem startup_force (step : Startup) (ok : Bool) (s : Process) :
    (startup step ok s).forceExit = s.forceExit := by
  cases step <;> cases ok <;> rfl

theorem release_ready {step : Release} {ok : Bool} (h : (release step ok s).ready = true) :
    s.ready = true := by
  cases step with
  | withdraw => cases ok <;> cases h
  | cache | engine | metrics | tracing => cases ok <;> exact h

theorem release_phase {before : Release} {step : Startup} {ok : Bool} :
    (release before ok s).phase ≠ .starting step := by
  cases before <;> cases ok <;> simp [release, Release.next]

@[simp] theorem release_force (step : Release) (ok : Bool) (s : Process) :
    (release step ok s).forceExit = s.forceExit := by
  cases step <;> cases ok <;> rfl

theorem ready_step (h : Step s e t) (ht : t.ready = true) :
    (s.ready = true ∧ ∀ sig, e ≠ .signal sig) ∨
      (∃ ok, e = .startup ok ∧ s.phase = .starting .publish) := by
  cases h with
  | signal => rw [handleExit_ready] at ht; cases ht
  | schedule _ => exact Or.inl ⟨ht, by simp⟩
  | expire _ => exact Or.inl ⟨by simpa using ht, by simp⟩
  | startup hphase =>
    rcases startup_ready ht with rfl | hready
    · exact Or.inr ⟨_, rfl, hphase⟩
    · exact Or.inl ⟨hready, by simp⟩
  | advance _ _ => exact Or.inl ⟨ht, by simp⟩
  | release _ => exact Or.inl ⟨release_ready ht, by simp⟩

/-- A step of the startup is reached from the one before, which succeeded. -/
theorem starting_step {step : Startup} (h : Step s e t) (ht : t.phase = .starting step) :
    s.phase = .starting step ∨ ∃ before, before ≠ .publish ∧ e = .startup true ∧
      s.phase = .starting before ∧ before.next = step := by
  cases h with
  | signal => exact Or.inl (by simpa using ht)
  | schedule _ => exact Or.inl ht
  | expire _ => exact Or.inl (by simpa using ht)
  | startup hphase =>
    obtain ⟨hbefore, rfl, hnext⟩ := startup_phase ht
    exact Or.inr ⟨_, hbefore, rfl, hphase, hnext⟩
  | advance hphase _ => exact absurd ht (hphase step)
  | release _ => exact absurd ht release_phase

/-- A forced exit begins in the base handler, run by a signal or by the expired timer. -/
theorem force_step (h : Step s e t) (hs : s.forceExit = false) (ht : t.forceExit = true) :
    s.shouldExit = true ∧ (e = .signal .sigint ∨ (e = .expire ∧ s.timer = some .sigint)) := by
  have unforced : ∀ {u : Process}, u.forceExit = s.forceExit → u.forceExit = true → False := by
    intro u hu hforce
    rw [hu, hs] at hforce
    cases hforce
  cases h with
  | signal =>
    rename_i sig
    rcases handleExit_cases sig s with hc | hc
    · rw [hc] at ht
      rcases baseHandleExit_force ht with hforce | ⟨hexit, hsig⟩
      · exact (unforced rfl hforce).elim
      · exact ⟨hexit, Or.inl (by rw [hsig])⟩
    · rw [hc] at ht
      exact (unforced rfl ht).elim
  | schedule _ => exact (unforced rfl ht).elim
  | expire htimer =>
    rcases baseHandleExit_force ht with hforce | ⟨hexit, hsig⟩
    · exact (unforced rfl hforce).elim
    · exact ⟨hexit, Or.inr ⟨rfl, by rw [htimer, hsig]⟩⟩
  | startup _ => exact (unforced (startup_force _ _ s) ht).elim
  | advance _ _ => exact (unforced rfl ht).elim
  | release _ => exact (unforced (release_force _ _ s) ht).elim

end Steps

section Readiness

variable {drainSeconds : ℚ} (ρ : Run drainSeconds)

/-- A signal has been handled before instant `n`. -/
def Signalled (n : ℕ) : Prop := ∃ k < n, ∃ sig, ρ.event k = .signal sig

/-- A step of the startup has succeeded before instant `n`. -/
def Succeeded (step : Startup) (n : ℕ) : Prop :=
  ∃ k < n, (ρ.state k).phase = .starting step ∧ ρ.event k = .startup true

/-- The process reports itself ready only once everything it needs is there, and never again
once it has handled a signal. -/
structure Ready : Prop where
  started : ∀ n ≤ ρ.length, readiness (ρ.state n) = (200, "UP") →
    Succeeded ρ .connect n ∧ Succeeded ρ .selectOne n ∧ Succeeded ρ .seed n
  withdrawn : ∀ n ≤ ρ.length, Signalled ρ n → readiness (ρ.state n) = (503, "DOWN")

variable {ρ}

theorem readiness_up {s : Process} : readiness s = (200, "UP") ↔ s.ready = true := by
  unfold readiness
  split <;> simp_all

theorem readiness_down {s : Process} : readiness s = (503, "DOWN") ↔ s.ready = false := by
  unfold readiness
  split <;> simp_all

theorem Succeeded.later {step : Startup} {n m : ℕ} (h : Succeeded ρ step n) (hnm : n ≤ m) :
    Succeeded ρ step m := by
  obtain ⟨k, hk, hstep⟩ := h
  exact ⟨k, hk.trans_le hnm, hstep⟩

def Startup.before : Startup → List Startup
  | .connect => []
  | .selectOne => [.connect]
  | .seed => [.connect, .selectOne]
  | .publish => [.connect, .selectOne, .seed]

theorem before_next {step before : Startup} (h : step ≠ .publish) (hb : before ∈ step.next.before) :
    before = step ∨ before ∈ step.before := by
  revert h hb
  cases step <;> cases before <;> decide

theorem starting_succeeded {n : ℕ} (hn : n ≤ ρ.length) :
    ∀ step, (ρ.state n).phase = .starting step → ∀ before ∈ step.before, Succeeded ρ before n := by
  induction n with
  | zero =>
    intro step hphase before hb
    rw [ρ.start] at hphase
    cases hphase
    cases hb
  | succ n ih =>
    intro step hphase before hb
    rcases starting_step (next_step (ρ.valid n hn)) hphase with hsame | ⟨last, hlast, he, hp, rfl⟩
    · exact (ih (by omega) step hsame before hb).later (Nat.le_succ n)
    · rcases before_next hlast hb with rfl | hb
      · exact ⟨n, Nat.lt_succ_self n, hp, he⟩
      · exact (ih (by omega) last hp before hb).later (Nat.le_succ n)

theorem ready_started {n : ℕ} (hn : n ≤ ρ.length) (h : (ρ.state n).ready = true) :
    ∀ before ∈ Startup.publish.before, Succeeded ρ before n := by
  have h0 : ¬(ρ.state 0).ready = true := by rw [ρ.start]; simp [installed]
  obtain ⟨k, _, hkn, hk, hk'⟩ :=
    ρ.began (P := fun s => s.ready = true) h0 h (Nat.zero_le n)
  rcases ready_step (next_step (ρ.valid k (by omega))) hk' with ⟨hr, _⟩ | ⟨ok, _, hphase⟩
  · exact absurd hr hk
  · intro before hb
    exact (starting_succeeded (by omega) .publish hphase before hb).later hkn.le

/-- After a signal the process stays unready as long as the startup does not come to its end. -/
theorem signalled_unready (hlate : ∀ k < ρ.length, ∀ ok, (ρ.state k).phase = .starting .publish →
      ρ.event k = .startup ok → ¬Signalled ρ k) {n : ℕ} (hn : n ≤ ρ.length)
    (h : Signalled ρ n) : (ρ.state n).ready = false := by
  obtain ⟨k, hkn, sig, he⟩ := h
  refine ρ.persists (P := fun s => s.ready = false) (i := k + 1) ?_ ?_ n hkn hn
  · have hstep := next_step (ρ.valid k (by omega))
    rw [he] at hstep
    cases hready : (ρ.state (k + 1)).ready with
    | false => rfl
    | true =>
      rcases ready_step hstep hready with ⟨_, hsig⟩ | ⟨_, hs, _⟩
      · exact absurd rfl (hsig sig)
      · cases hs
  · intro j hkj hj hready
    cases hnext : (ρ.state (j + 1)).ready with
    | false => rfl
    | true =>
      rcases ready_step (next_step (ρ.valid j hj)) hnext with ⟨hr, _⟩ | ⟨ok, he', hphase⟩
      · exact absurd (hready.symm.trans hr) (by simp)
      · exact absurd ⟨k, hkj, sig, he⟩ (hlate j hj ok hphase he')

/-- Readiness goes down on the first signal and stays down exactly in the runs whose startup does
not set `state.ready` after a signal. -/
theorem ready_iff_published_before_signals (ρ : Run drainSeconds) : Ready ρ ↔
    ∀ k < ρ.length, ∀ ok, (ρ.state k).phase = .starting .publish → ρ.event k = .startup ok →
      ¬Signalled ρ k := by
  constructor
  · intro h k hk ok hphase he hsig
    have hdown := h.withdrawn (k + 1) hk
      (by obtain ⟨j, hj, hs⟩ := hsig; exact ⟨j, by omega, hs⟩)
    rw [readiness_down] at hdown
    have hv := ρ.valid k hk
    rw [he] at hv
    simp only [next, hphase, startup] at hv
    rw [← Option.some.inj hv] at hdown
    cases hdown
  · intro h
    constructor
    · intro n hn hup
      have hall := ready_started hn (readiness_up.mp hup)
      exact ⟨hall _ (by decide), hall _ (by decide), hall _ (by decide)⟩
    · intro n hn hsig
      exact readiness_down.mpr (signalled_unready h hn hsig)

/-- SIGTERM is handled while `cache.connect` is awaited; the startup then goes on. -/
def signalledStartup : Run 10 := ofEvents next (installed 10) (.signal .sigterm)
  [.startup true, .startup true, .startup true, .startup true] (by decide +kernel)

theorem signalled_startup_ready : Signalled signalledStartup 5 ∧
    readiness (signalledStartup.state 5) = (200, "UP") ∧ ¬Ready signalledStartup := by
  have hsig : Signalled signalledStartup 5 := ⟨0, by decide, .sigterm, rfl⟩
  have hup : readiness (signalledStartup.state 5) = (200, "UP") := by decide +kernel
  refine ⟨hsig, hup, ?_⟩
  intro h
  have hdown := h.withdrawn 5 (by decide) hsig
  rw [hup] at hdown
  cases hdown

end Readiness

section Signals

def Event.signals : Event → List Signal
  | .signal sig => [sig]
  | _ => []

/-- The signals before instant `n`, in order. -/
def delivered (event : ℕ → Event) : ℕ → List Signal
  | 0 => []
  | n + 1 => delivered event n ++ (event n).signals

/-- What the server makes of its signals. The first one finds no exit under way, and starts the
drain or the exit; while its timer runs, `should_exit` is set by a second one and `force_exit` by
a SIGINT after that. -/
structure Told (signals : List Signal) (s : Process) : Prop where
  quiet : signals = [] → s.scheduled = none ∧ s.timer = none ∧ s.forceExit = false ∧
    (s.phase.looping → s.shouldExit = false)
  drains : signals ≠ [] → s.draining ∨ ¬s.loop ∨ s.drainSeconds ≤ 0
  once : s.scheduled = none ∨ s.timer = none
  timed : ∀ sig, s.scheduled = some sig ∨ s.timer = some sig → s.phase.looping →
    signals.head? = some sig ∧ (s.shouldExit = true ↔ signals.tail ≠ []) ∧
      (s.forceExit = true ↔ .sigint ∈ signals.tail.tail)

variable {s t : Process} {e : Event} {signals : List Signal}

@[simp] theorem baseHandleExit_exit (sig : Signal) (s : Process) :
    (baseHandleExit sig s).shouldExit = true := by
  unfold baseHandleExit
  split
  · rename_i h
    exact h.1
  · rfl

theorem baseHandleExit_frame (sig : Signal) (s : Process) :
    (baseHandleExit sig s).scheduled = s.scheduled ∧ (baseHandleExit sig s).timer = s.timer ∧
      (baseHandleExit sig s).draining = s.draining ∧ (baseHandleExit sig s).loop = s.loop ∧
      (baseHandleExit sig s).drainSeconds = s.drainSeconds := by
  unfold baseHandleExit
  split <;> exact ⟨rfl, rfl, rfl, rfl, rfl⟩

theorem baseHandleExit_forces {sig : Signal} : (baseHandleExit sig s).forceExit = true ↔
    s.forceExit = true ∨ (s.shouldExit = true ∧ sig = .sigint) := by
  refine ⟨baseHandleExit_force, fun h => ?_⟩
  unfold baseHandleExit
  split
  · rfl
  · rename_i hs
    exact h.resolve_right hs

/-- Steps that are no signal and leave the timers alone. -/
theorem Told.keep (h : Told signals s) (hscheduled : t.scheduled = s.scheduled)
    (htimer : t.timer = s.timer) (hforce : t.forceExit = s.forceExit)
    (hguard : t.draining = s.draining ∧ t.loop = s.loop ∧ t.drainSeconds = s.drainSeconds)
    (hphase : t.phase.looping → s.phase.looping ∧ t.shouldExit = s.shouldExit) :
    Told signals t where
  quiet hnone := by
    rw [hscheduled, htimer, hforce]
    obtain ⟨h1, h2, h3, h4⟩ := h.quiet hnone
    exact ⟨h1, h2, h3, fun hl => (hphase hl).2.trans (h4 (hphase hl).1)⟩
  drains hsome := by
    rw [hguard.1, hguard.2.1, hguard.2.2]
    exact h.drains hsome
  once := by
    rw [hscheduled, htimer]
    exact h.once
  timed sig hsig hl := by
    rw [hscheduled, htimer] at hsig
    rw [(hphase hl).2, hforce]
    exact h.timed sig hsig (hphase hl).1

/-- A signal after the first one is the base handler's. -/
theorem Told.later (h : Told signals s) (hsome : signals ≠ []) (sig : Signal) :
    Told (signals ++ [sig]) (handleExit sig s) := by
  have hbase : handleExit sig s = baseHandleExit sig { s with ready := false } :=
    if_pos (h.drains hsome)
  obtain ⟨hscheduled, htimer, hdraining, hloop, hseconds⟩ :=
    baseHandleExit_frame sig { s with ready := false }
  obtain ⟨first, rest, rfl⟩ := List.exists_cons_of_ne_nil hsome
  rw [hbase]
  constructor
  · simp
  · intro _
    rw [hdraining, hloop, hseconds]
    exact h.drains hsome
  · rw [hscheduled, htimer]
    exact h.once
  · intro running hrunning hl
    rw [hscheduled, htimer] at hrunning
    rw [baseHandleExit_phase] at hl
    obtain ⟨hfirst, hexit, hforce⟩ := h.timed running hrunning hl
    refine ⟨hfirst, by simp, ?_⟩
    rw [baseHandleExit_forces]
    dsimp only
    rw [hexit, hforce]
    cases rest with
    | nil => simp
    | cons second later => simp [eq_comm]

theorem Told.first (h : Told [] s) (sig : Signal) : Told [sig] (handleExit sig s) := by
  obtain ⟨hscheduled, htimer, hforce, hexit⟩ := h.quiet rfl
  by_cases hguard : s.draining ∨ ¬s.loop ∨ s.drainSeconds ≤ 0
  · have hbase : handleExit sig s = baseHandleExit sig { s with ready := false } := if_pos hguard
    obtain ⟨h1, h2, h3, h4, h5⟩ := baseHandleExit_frame sig { s with ready := false }
    rw [hbase]
    refine ⟨by simp, fun _ => by rw [h3, h4, h5]; exact hguard, Or.inl (h1.trans hscheduled), ?_⟩
    intro running hrunning
    rw [h1, h2] at hrunning
    dsimp only at hrunning
    rw [hscheduled, htimer] at hrunning
    simp at hrunning
  · have hdrain : handleExit sig s =
        { s with ready := false, draining := true, scheduled := some sig } := if_neg hguard
    rw [hdrain]
    refine ⟨by simp, fun _ => Or.inl rfl, Or.inr htimer, ?_⟩
    intro running hrunning hl
    obtain hrunning | hrunning := hrunning
    · exact ⟨hrunning, by simp [hexit hl], by simp [hforce]⟩
    · dsimp only at hrunning
      rw [htimer] at hrunning
      cases hrunning

theorem startup_frame (step : Startup) (ok : Bool) (s : Process) :
    (startup step ok s).scheduled = s.scheduled ∧ (startup step ok s).timer = s.timer ∧
      (startup step ok s).draining = s.draining ∧ (startup step ok s).loop = s.loop ∧
      (startup step ok s).drainSeconds = s.drainSeconds ∧
      ((startup step ok s).phase.looping → (startup step ok s).shouldExit = s.shouldExit) := by
  cases step <;> cases ok <;>
    exact ⟨rfl, rfl, rfl, rfl, rfl, fun h => by first | rfl | cases h⟩

theorem release_frame (step : Release) (ok : Bool) (s : Process) :
    (release step ok s).scheduled = s.scheduled ∧ (release step ok s).timer = s.timer ∧
      (release step ok s).draining = s.draining ∧ (release step ok s).loop = s.loop ∧
      (release step ok s).drainSeconds = s.drainSeconds ∧
      (release step ok s).shouldExit = s.shouldExit := by
  cases step <;> cases ok <;> exact ⟨rfl, rfl, rfl, rfl, rfl, rfl⟩

theorem told_step (h : Step s e t) (hs : Told signals s) : Told (signals ++ e.signals) t := by
  cases h with
  | signal =>
    by_cases hnone : signals = []
    · subst hnone
      exact hs.first _
    · exact hs.later hnone _
  | schedule hsig =>
    -- the timer takes the place of the call
    change Told (signals ++ []) _
    rw [List.append_nil]
    refine ⟨fun hnone => ?_, hs.drains, Or.inl rfl, fun sig' hsig' => ?_⟩
    · rw [(hs.quiet hnone).1] at hsig
      cases hsig
    · rcases hsig' with hnone | htimer
      · cases hnone
      · exact hs.timed sig' (Or.inl (hsig.trans htimer))
  | expire hsig =>
    rename_i sig
    change Told (signals ++ []) _
    rw [List.append_nil]
    obtain ⟨h1, h2, h3, h4, h5⟩ := baseHandleExit_frame sig { s with timer := none }
    have hscheduled : s.scheduled = none := hs.once.resolve_right (by simp [hsig])
    refine ⟨fun hnone => ?_, fun hsome => ?_, Or.inr h2, fun sig' hsig' => ?_⟩
    · rw [(hs.quiet hnone).2.1] at hsig
      cases hsig
    · rw [h3, h4, h5]
      exact hs.drains hsome
    · rw [h1, h2] at hsig'
      simp [hscheduled] at hsig'
  | startup hphase =>
    rename_i step ok
    change Told (signals ++ []) _
    rw [List.append_nil]
    obtain ⟨h1, h2, h3, h4, h5, h6⟩ := startup_frame step ok s
    exact hs.keep h1 h2 (startup_force step ok s) ⟨h3, h4, h5⟩ fun hl =>
      ⟨by rw [hphase]; rfl, h6 hl⟩
  | advance _ hlooping =>
    change Told (signals ++ []) _
    rw [List.append_nil]
    exact hs.keep rfl rfl rfl ⟨rfl, rfl, rfl⟩ fun hl => ⟨hlooping hl, rfl⟩
  | release hphase =>
    rename_i step ok
    change Told (signals ++ []) _
    rw [List.append_nil]
    obtain ⟨h1, h2, h3, h4, h5, h6⟩ := release_frame step ok s
    exact hs.keep h1 h2 (release_force step ok s) ⟨h3, h4, h5⟩ fun _ =>
      ⟨by rw [hphase]; rfl, h6⟩

theorem run_told {drainSeconds : ℚ} {ρ : Run drainSeconds} {n : ℕ} (hn : n ≤ ρ.length) :
    Told (delivered ρ.event n) (ρ.state n) := by
  induction n with
  | zero =>
    rw [ρ.start]
    exact ⟨fun _ => ⟨rfl, rfl, rfl, fun _ => rfl⟩, fun h => absurd rfl h, Or.inl rfl, by
      simp [installed]⟩
  | succ n ih => exact told_step (next_step (ρ.valid n hn)) (ih (Nat.le_of_succ_le hn))

theorem expire_enabled {drainSeconds : ℚ} {ρ : Run drainSeconds} {k : ℕ} (hk : k < ρ.length)
    (he : ρ.event k = .expire) :
    ∃ sig, (ρ.state k).timer = some sig ∧ (ρ.state k).phase.looping = true := by
  have hv := ρ.valid k hk
  rw [he] at hv
  simp only [next] at hv
  split at hv
  · rename_i sig htimer
    split at hv
    · rename_i hlooping
      exact ⟨sig, htimer, hlooping⟩
    · cases hv
  · cases hv

end Signals

section ForcedExit

variable {drainSeconds : ℚ}

/-- A forced exit begins only while a SIGINT is handled that was delivered after `should_exit`
had been set. -/
def ForcedBySigint (ρ : Run drainSeconds) : Prop :=
  ∀ k < ρ.length, (ρ.state k).forceExit = false → (ρ.state (k + 1)).forceExit = true →
    ρ.event k = .signal .sigint ∧ (ρ.state k).shouldExit = true

theorem forced_by_sigint {ρ : Run drainSeconds} : ForcedBySigint ρ ↔
    ∀ k < ρ.length, ρ.event k = .expire → (ρ.state k).timer = some .sigint →
      (ρ.state k).shouldExit = true → (ρ.state k).forceExit = true := by
  constructor
  · intro h k hk he htimer hexit
    cases hforce : (ρ.state k).forceExit with
    | true => rfl
    | false =>
      have hv := ρ.valid k hk
      rw [he] at hv
      simp only [next, htimer] at hv
      split at hv
      · have hnext : (ρ.state (k + 1)).forceExit = true := by
          rw [← Option.some.inj hv]
          simp [baseHandleExit, hexit]
        have := (h k hk hforce hnext).1
        rw [he] at this
        cases this
      · cases hv
  · intro h k hk hforce hforced
    obtain ⟨hexit, he | ⟨he, htimer⟩⟩ :=
      force_step (next_step (ρ.valid k hk)) hforce hforced
    · exact ⟨he, hexit⟩
    · exact absurd (hforce.symm.trans (h k hk he htimer hexit)) (by simp)

/-- Only a repeated SIGINT forces the exit exactly in the runs whose drain timer, when it expires
for a SIGINT, expires before a second signal, or after a SIGINT that came after the second one. -/
theorem forced_by_sigint_iff (ρ : Run drainSeconds) : ForcedBySigint ρ ↔
    ∀ k < ρ.length, ρ.event k = .expire → ∀ second later,
      delivered ρ.event k = .sigint :: second :: later → .sigint ∈ later := by
  rw [forced_by_sigint]
  constructor
  · intro h k hk he second later hsignals
    obtain ⟨sig, htimer, hlooping⟩ := expire_enabled hk he
    obtain ⟨hfirst, hexit, hforce⟩ := (run_told hk.le).timed sig (Or.inr htimer) hlooping
    rw [hsignals] at hfirst hexit hforce
    obtain rfl : Signal.sigint = sig := Option.some.inj hfirst
    exact hforce.mp (h k hk he htimer (hexit.mpr (List.cons_ne_nil _ _)))
  · intro h k hk he htimer hexit
    obtain ⟨sig, _, hlooping⟩ := expire_enabled hk he
    obtain ⟨hfirst, hsecond, hforce⟩ := (run_told hk.le).timed .sigint (Or.inr htimer) hlooping
    have hlate := hsecond.mp hexit
    match hsignals : delivered ρ.event k with
    | [] =>
      rw [hsignals] at hfirst
      cases hfirst
    | [_] =>
      rw [hsignals] at hlate
      exact absurd rfl hlate
    | first :: second :: later =>
      rw [hsignals] at hfirst hforce
      obtain rfl : first = .sigint := Option.some.inj hfirst
      exact hforce.mpr (h k hk he second later hsignals)

/-- A SIGINT starts the drain, a SIGTERM ends it early, and the timer of the SIGINT expires while
requests are still in flight. -/
def staleTimer : Run 10 := ofEvents next (installed 10) (.startup true)
  [.startup true, .startup true, .startup true, .advance, .signal .sigint, .schedule,
    .signal .sigterm, .advance, .expire, .advance, .advance] (by decide +kernel)

theorem stale_timer_forces : staleTimer.event 9 = .expire ∧
    (staleTimer.state 9).phase = .draining ∧ (staleTimer.state 9).forceExit = false ∧
    (staleTimer.state 10).forceExit = true ∧ (staleTimer.state 12).phase = .exited ∧
    ¬ForcedBySigint staleTimer := by
  refine ⟨rfl, by decide +kernel, by decide +kernel, by decide +kernel, by decide +kernel, ?_⟩
  intro h
  have he := (h 9 (by decide) (by decide +kernel) (by decide +kernel)).1
  cases he

end ForcedExit

end Shutdown
