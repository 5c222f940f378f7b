import MessageService.Histories
import MessageService.Footprints

/-! Following a call through its program.
A session's writes are its own, so between its awaits they stay as they are. Following the
program await by await turns the end of a call, or one of its steps, into what it did
before. -/
namespace Traces

open Programs Interleaving Models Schemas KeyedTables MessageJson Postgres Services ServiceRuns
open Transitions Statements Consistency Histories Footprints

variable [JsonCodec] {s : SoundDb} {ρ : Run s}

/-- Call `c` changes no committed row from instant `a` up to instant `i`. -/
def Calm (ρ : Run s) (c a i : ℕ) : Prop :=
  ∀ k e x (r : Reply e), a ≤ k → k < i → ρ.Performs k c e x r →
    (ρ.store (k + 1)).db = (ρ.store k).db

/-- Call `c` has changed no committed row since `a`, and its session has the writes `ws`. -/
structure Session (ρ : Run s) (c a i : ℕ) (ws : List Write) : Prop where
  pending : (ρ.store i).pending c = ws
  calm : Calm ρ c a i

section Following

variable {c a i j n : ℕ} {ws : List Write}

theorem performs_ok {e x} {r : e.Answer} (hp : ρ.Performs j c e x (.ok r)) :
    ∃ f, execute c f (ρ.store j) e = some (.ok r, ρ.store (j + 1)) := by
  obtain ⟨f, _, hx⟩ := answer_ok hp.answer
  exact ⟨f, hx⟩

/-- A step whose answer the store computes whatever the fresh values are. -/
theorem performs_answer {e x} {r r' : e.Answer} {w : World} (hp : ρ.Performs j c e x (.ok r))
    (h : ∀ f, execute c f (ρ.store j) e = some (.ok r', w)) : r = r' ∧ ρ.store (j + 1) = w := by
  obtain ⟨f, hx⟩ := performs_ok hp
  rw [h f] at hx
  have := Option.some.inj hx
  exact ⟨(Except.ok.inj (congrArg Prod.fst this)).symm, (congrArg Prod.snd this).symm⟩

theorem quiet_pending (hq : ρ.Quiet c i j) (hij : i ≤ j) (hj : j ≤ ρ.length) :
    (ρ.store j).pending c = (ρ.store i).pending c := by
  refine hq.frame (f := fun w : World => w.pending c) ?_ ?_ hij hj
  · intro d e x w r w' hd h
    exact transition_pending (answer_transition h) (Ne.symm hd)
  · intro d w hd
    exact transition_pending (e := .rollback) .rollback (Ne.symm hd)

theorem Calm.idle (h : Calm ρ c a i) (hi : ρ.Idle c i j) : Calm ρ c a j := by
  intro k e x r hak hkj hp
  rcases Nat.lt_or_ge k i with hki | hik
  · exact h k e x r hak hki hp
  · exact absurd hp (hi k e x r hik hkj)

/-- Over one step that keeps the tables. -/
theorem Calm.over (h : Calm ρ c a j) (hdb : (ρ.store (j + 1)).db = (ρ.store j).db)
    (h' : Calm ρ c (j + 1) n) : Calm ρ c a n := by
  intro k e x r hak hkn hp
  rcases Nat.lt_trichotomy k j with hlt | rfl | hlt
  · exact h k e x r hak hlt hp
  · exact hdb
  · exact h' k e x r hlt hkn hp

theorem Session.wait (h : Session ρ c a i ws) (hq : ρ.Quiet c i j) (hij : i ≤ j)
    (hj : j ≤ ρ.length) : Session ρ c a j ws := by
  exact ⟨by rw [quiet_pending hq hij hj, h.pending], h.calm.idle hq.idle⟩

/-- A step other than a commit keeps the committed rows. -/
theorem Session.step {e x} {r : Reply e} {ws' : List Write} (h : Session ρ c a j ws)
    (hp : ρ.Performs j c e x r) (hdb : (ρ.store (j + 1)).db = (ρ.store j).db)
    (hw : (ρ.store (j + 1)).pending c = ws') : Session ρ c a (j + 1) ws' := by
  refine ⟨hw, ?_⟩
  intro k e' x' r' hak hkj hp'
  rcases Nat.lt_succ_iff_lt_or_eq.mp hkj with hlt | rfl
  · exact h.calm k e' x' r' hak hlt hp'
  · exact hdb

theorem performs_db {e x} {r : Reply e} (hp : ρ.Performs j c e x r) (he : e ≠ .commit) :
    (ρ.store (j + 1)).db = (ρ.store j).db := by
  rcases transition_db (answer_transition hp.answer) with h | ⟨h, _⟩
  · exact h
  · exact absurd h he

theorem Session.silent {e x} {r : Reply e} (h : Session ρ c a j ws)
    (hp : ρ.Performs j c e x r) (he : Silent e) : Session ρ c a (j + 1) ws := by
  refine h.step hp (performs_db hp ?_) ?_
  · rintro rfl; exact he
  · rw [Run.store, silent_pending he hp.answer]; exact h.pending

theorem Session.rolledBack {x} (h : Session ρ c a j ws)
    (hp : ρ.Performs j c .rollback x (.ok ())) : Session ρ c a (j + 1) [] := by
  refine h.step hp (performs_db hp (by simp)) ?_
  rw [(performs_answer hp fun _ => rfl).2, rollback_pending, if_pos rfl]

/-- Following an ended call over its next await. -/
theorem taken {e o} {k : Reply e → host.Body} (h : ρ.Reaches c (.await e k) i (.done o) n)
    (hn : n ≤ ρ.length) (hs : Session ρ c a i ws) :
    ∃ j x r, i ≤ j ∧ j < n ∧ Session ρ c a j ws ∧ ρ.Performs j c e x r ∧
      ρ.Reaches c (k r) (j + 1) (.done o) n := by
  obtain ⟨j, x, r, hij, hq, hp, hr⟩ := reaches_await_done h
  exact ⟨j, x, r, hij, hr.le, hs.wait hq hij (by have := hr.le; omega), hp, hr⟩

/-- Following a call to one of its awaits: this one, or a later one. -/
theorem taken_or {e q} {k : Reply e → host.Body} (h : ρ.Reaches c (.await e k) i q n)
    (hn : n ≤ ρ.length) (hs : Session ρ c a i ws) :
    (q = .await e k ∧ Session ρ c a n ws ∧ i ≤ n) ∨
    ∃ j x r, i ≤ j ∧ j < n ∧ Session ρ c a j ws ∧ ρ.Performs j c e x r ∧
      ρ.Reaches c (k r) (j + 1) q n := by
  rcases reaches_await h with ⟨rfl, hin, hq⟩ | ⟨j, x, r, hij, hq, hp, hr⟩
  · exact Or.inl ⟨rfl, hs.wait hq hin hn, hin⟩
  · exact Or.inr ⟨j, x, r, hij, hr.le, hs.wait hq hij (by have := hr.le; omega), hp, hr⟩

theorem pending_unstarted (h : (ρ.state i).calls c = none) (hi : i ≤ ρ.length) :
    (ρ.store i).pending c = [] := by
  rw [quiet_pending (ρ.quiet_before h hi) (Nat.zero_le i) hi, Run.store, ρ.start]
  rfl

/-- A session that has not started holds no locks. -/
theorem unlocked_unstarted (h : (ρ.state i).calls c = none) (hi : i ≤ ρ.length) (r : Resource)
    (m : LockMode) : ¬(ρ.store i).locks.Holds c r m := by
  have hsame : (ρ.store i).locks.Holds c r m = (ρ.store 0).locks.Holds c r m := by
    refine (ρ.quiet_before h hi).frame (f := fun w : World => w.locks.Holds c r m) ?_ ?_
      (Nat.zero_le i) hi
    · intro d e x w r' w' hd h
      exact propext (transition_locks (answer_transition h) (Ne.symm hd) r m)
    · intro d w hd
      exact propext (transition_locks (e := .rollback) .rollback (Ne.symm hd) r m)
  rw [hsame, Run.store, ρ.start]
  exact LockTables.holds_empty _ _ _

theorem session_start {q} (hi : i < ρ.length) (he : ρ.event i = .call c q)
    (h : ∀ k ≤ i, (ρ.state k).calls c = none) : Session ρ c (i + 1) (i + 1) [] := by
  refine ⟨?_, fun k _ _ _ hik hki _ => by omega⟩
  have hstore : (ρ.store (i + 1)) = ρ.store i := by
    rcases ρ.step_cases hi with ⟨_, _, _, h⟩ | ⟨_, _, _, _, h⟩ | ⟨_, h, _⟩
    · exact h
    · rw [h.event] at he; cases he
    · rw [h] at he; cases he
  rw [hstore]
  exact pending_unstarted (h i le_rfl) hi.le

/-- An ended call was started by its request and followed the request's program. -/
theorem ended_started {q o} (h : ρ.Ended c q o n) :
    ∃ i < n, ρ.event i = .call c q ∧ Session ρ c (i + 1) (i + 1) [] ∧
      ρ.Reaches c (body q) (i + 1) (.done o) n := by
  obtain ⟨hn, b, hc⟩ := h
  obtain ⟨i, hi, he, hnone, hr⟩ := ρ.started (fun _ => rfl) hc hn
  exact ⟨i, hi, he, session_start (by omega) he hnone, hr⟩

/-- A call that takes a step was started by its request and followed its program to there. -/
theorem performs_started {e x} {r : Reply e} (hp : ρ.Performs n c e x r) :
    ∃ q b K, (ρ.state n).calls c = some ⟨q, .await e K, b⟩ ∧
      (ρ.state (n + 1)).calls c = some ⟨q, K r, false⟩ ∧
      ∃ i < n, ρ.event i = .call c q ∧ Session ρ c (i + 1) (i + 1) [] ∧
        ρ.Reaches c (body q) (i + 1) (.await e K) n := by
  obtain ⟨q, b, K, hc, hc'⟩ := hp.awaiting
  have hn := hp.within
  obtain ⟨i, hi, he, hnone, hr⟩ := ρ.started (fun _ => rfl) hc hn.le
  exact ⟨q, b, K, hc, hc', i, hi, he, session_start (by omega) he hnone, hr⟩

/-- The steps of a started call stand on the program of its request. -/
theorem performs_reached {q e x} {r : Reply e} (hi : i < ρ.length) (he : ρ.event i = .call c q)
    (hp : ρ.Performs j c e x r) : i < j ∧ Session ρ c (i + 1) (i + 1) [] ∧
      ∃ K : Reply e → host.Body, ρ.Reaches c (body q) (i + 1) (.await e K) j := by
  obtain ⟨q', b, K, _, _, i', hij, he', hs, hr⟩ := performs_started hp
  obtain rfl := ρ.call_unique hi (hij.trans hp.within) he he'
  obtain rfl : q = q' := by rw [he] at he'; injection he'
  exact ⟨hij, hs, K, hr⟩

theorem performs_after {q e x} {r : Reply e} (hi : i < ρ.length) (he : ρ.event i = .call c q)
    (hp : ρ.Performs j c e x r) : i < j :=
  (performs_reached hi he hp).1

/-- A started call awaits what the program of its request can await. -/
theorem performs_only {P : Effect → Prop} {q e x} {r : Reply e} (hi : i < ρ.length)
    (he : ρ.event i = .call c q) (honly : (body q).Only P) (hp : ρ.Performs j c e x r) : P e := by
  obtain ⟨_, _, K, hr⟩ := performs_reached hi he hp
  exact (hr.only honly).1

/-- Without faults only a statement fails, and it fails inside the store. -/
theorem faultless_error {e x exc} (hf : ρ.Faultless c) (hp : ρ.Performs j c e x (.error exc)) :
    Fallible e ∧ ∃ f, execute c f (ρ.store j) e = some (.error exc, ρ.store (j + 1)) := by
  obtain ⟨f, rfl⟩ := hf j hp.within x hp.event
  have hx : execute c f (ρ.store j) e = some (.error exc, ρ.store (j + 1)) := hp.answer
  exact ⟨execute_error hx, f, hx⟩

/-- A session without writes sees the committed rows. -/
theorem view_committed (hs : Session ρ c a i []) : (ρ.store i).view c = (ρ.store i).db :=
  view_of_pending_nil hs.pending

/-- A commit of no writes changes no row. -/
theorem Session.committedNothing {x} (h : Session ρ c a j [])
    (hp : ρ.Performs j c .commit x (.ok ())) : Session ρ c a (j + 1) [] := by
  have hw := (performs_answer hp fun _ => rfl).2
  refine h.step hp ?_ ?_
  · rw [hw, commit_db, view_committed h]
  · rw [hw, commit_pending, if_pos rfl]

theorem committed {x} (hp : ρ.Performs j c .commit x (.ok ())) :
    ρ.store (j + 1) = (ρ.store j).commit c :=
  (performs_answer hp fun _ => rfl).2

theorem evicted {key x} (hp : ρ.Performs j c (.cacheEvict key) x (.ok ())) :
    (ρ.store (j + 1)).cache = Function.update (ρ.store j).cache key none := by
  have hw := (performs_answer hp fun _ => rfl).2
  rw [hw]

/-- An awaited step raised, before anything was committed, and the call ended there. -/
def Failed (ρ : Run s) (c a n : ℕ) (exc : Exc) : Prop :=
  ∃ e j x, a ≤ j ∧ j < n ∧ ρ.Performs j c e x (.error exc) ∧ Calm ρ c a j ∧ ρ.Idle c (j + 1) n

/-- An IntegrityError that escapes was not raised by a statement inside the store. -/
def Translated (ρ : Run s) (c : ℕ) (exc : Exc) : Prop :=
  ∀ sqlstate, exc = .integrityError sqlstate →
    ∃ j e x, ρ.Performs j c e x (.error exc) ∧ ¬Fallible e

theorem Session.failed {e x exc o} (h : Session ρ c a j ws) (haj : a ≤ j) (hjn : j < n)
    (hp : ρ.Performs j c e x (.error exc)) (hr : ρ.Reaches c (.done o) (j + 1) (.done o) n) :
    Failed ρ c a n exc :=
  ⟨e, j, x, haj, hjn, hp, h.calm, (reaches_done hr).2.2⟩

theorem ended_later {q o} (h : ρ.Ended c q o i) (hij : i ≤ j) (hj : j ≤ ρ.length) :
    ρ.Ended c q o j := by
  obtain ⟨_, b, hc⟩ := h
  obtain ⟨p', b', hc', hr⟩ := ρ.evolves hc hij hj
  rw [(reaches_done hr).1] at hc'
  exact ⟨hj, b', hc'⟩

/-- A call that takes no step after one has ended with it. -/
theorem ended_since {q o e x} {r : Reply e} (h : ρ.Ended c q o n) (hp : ρ.Performs j c e x r)
    (hidle : ρ.Idle c (j + 1) n) : ρ.Ended c q o (j + 1) := by
  obtain ⟨hn, b, hc⟩ := h
  obtain ⟨q', b', K, _, hnext⟩ := hp.awaiting
  obtain ⟨p', b'', hc', hr⟩ := ρ.evolves hnext (ρ.done_before hc hp) hn
  rw [hc] at hc'
  obtain ⟨rfl, rfl, _⟩ : q = q' ∧ .done o = p' ∧ b = b'' := by simpa using hc'
  refine ⟨hp.within, false, ?_⟩
  rw [hnext]
  cases hk : K r with
  | done o' =>
    rw [hk] at hr
    rw [(reaches_done hr).1]
  | await e' k' =>
    rw [hk] at hr
    obtain ⟨l, x', r', hjl, _, hp', hr'⟩ := reaches_await_done hr
    exact absurd hp' (hidle l e' x' r' hjl (ρ.done_before hc hp'))

/-- Without faults a call that fails at a step fails with an error of the store. -/
theorem faultless_failed {exc} (hf : ρ.Faultless c) (h : Failed ρ c a n exc) :
    exc = .dataError ∨ ∃ sqlstate, exc = .integrityError sqlstate := by
  obtain ⟨e, j, x, _, _, hp, _, _⟩ := h
  obtain ⟨_, f, hx⟩ := faultless_error hf hp
  exact execute_error_kind hx

/-- Without faults a call that only reads does not fail. -/
theorem reading_infallible {q e x exc} (hf : ρ.Faultless c) (hq : Reading q)
    (hi : i < ρ.length) (he : ρ.event i = .call c q) (hp : ρ.Performs j c e x (.error exc)) :
    False := by
  have hsilent : Silent e := performs_only hi he (reading_silent hq) hp
  have hfall := (faultless_error hf hp).1
  cases e with
  | insertAuthor | updateAuthor | deleteAuthor | insertMessage | updateMessage
  | upsertAuthor => exact hsilent
  | selectAuthor | selectMessagesOf | selectAuthors | countAuthors | selectMessage
  | selectMessageId | selectMessages | countMessages | selectAuthorIds | cacheGet | cacheSet
  | cacheEvict | commit | rollback | deleteMessage | advisoryXactLock => exact hfall

/-- No call awaits one effect twice. -/
theorem effect_once {e x x'} {r r' : Reply e} (hp : ρ.Performs i c e x r)
    (hp' : ρ.Performs j c e x' r') : i = j :=
  performs_once (fun _ => rfl) body_climbs hp hp'

theorem rank_once {e e' x x'} {r : Reply e} {r' : Reply e'} (hp : ρ.Performs i c e x r)
    (hp' : ρ.Performs j c e' x' r') (hrank : rank e = rank e') : i = j := by
  rcases Nat.lt_trichotomy i j with hlt | heq | hlt
  · exact absurd (performs_climb (fun _ => rfl) body_climbs hp hp' hlt) (by omega)
  · exact heq
  · exact absurd (performs_climb (fun _ => rfl) body_climbs hp' hp hlt) (by omega)

theorem reply_once {e x x'} {r r' : Reply e} (hp : ρ.Performs i c e x r)
    (hp' : ρ.Performs j c e x' r') : r = r' := by
  obtain rfl := effect_once hp hp'
  exact (hp.reply_unique hp').1

/-- A call awaits its effects in the order of their ranks. -/
theorem effect_order {e e' x x'} {r : Reply e} {r' : Reply e'} (hp : ρ.Performs i c e x r)
    (hp' : ρ.Performs j c e' x' r') (hij : i < j) : rank e < rank e' :=
  performs_climb (fun _ => rfl) body_climbs hp hp' hij

/-- A session that has awaited nothing but silent effects before `e` has written nothing. -/
theorem unwritten {p : host.Body} {e lo} {K : Reply e → host.Body}
    (hr : ρ.Reaches c p i (.await e K) n) (hclimbs : p.Climbs rank lo)
    (hsilent : p.Only fun e' => rank e' < rank e → Silent e') (hn : n ≤ ρ.length)
    (hs : Session ρ c a i []) : Session ρ c a n [] := by
  generalize hq : Program.await e K = q at hr
  induction hr generalizing lo with
  | here h hquiet => exact hs.wait hquiet h hn
  | finished => cases hq
  | await h hquiet hp hr ih =>
    rename_i e' x j q n k r _
    subst hq
    have hle := hr.le
    have hlater : rank e' < rank e := (hr.only (climbs_only (hclimbs.2 _))).1
    have hj := hs.wait hquiet h (by omega)
    exact ih (hclimbs.2 _) (hsilent.2 _) hn (hj.silent hp (hsilent.1 hlater)) rfl

/-- At its writing statement a session of the API sees the committed rows. -/
theorem performs_committed {q e x} {r : Reply e} (hi : i < ρ.length)
    (he : ρ.event i = .call c q) (hq : q ≠ .seedInitialMessage) (hp : ρ.Performs j c e x r)
    (hrank : rank e = 5) : (ρ.store j).view c = (ρ.store j).db := by
  obtain ⟨_, hs, K, hr⟩ := performs_reached hi he hp
  have hsilent := silent_before hq
  rw [← hrank] at hsilent
  exact view_committed (unwritten hr (body_climbs q) hsilent hp.within.le hs)

/-- Without faults a call with one statement that can fail has failed at that statement. -/
theorem failed_at {q e₀ exc} (hf : ρ.Faultless c) (hi : i < ρ.length)
    (he : ρ.event i = .call c q) (honly : (body q).Only fun e => Fallible e → e = e₀)
    (h : Failed ρ c (i + 1) n exc) :
    ∃ j x, i < j ∧ j < n ∧ ρ.Performs j c e₀ x (.error exc) := by
  obtain ⟨e, j, x, hij, hjn, hp, _⟩ := h
  obtain rfl := performs_only hi he honly hp (faultless_error hf hp).1
  exact ⟨j, x, hij, hjn, hp⟩

/-- No instant at which call `c` acts changes the tables. -/
def Unchanging (ρ : Run s) (c : ℕ) : Prop :=
  ∀ k < ρ.length, (ρ.event k).caller = c → (ρ.store (k + 1)).db = (ρ.store k).db

theorem unchanging {q o} (h : ρ.Ended c q o n) (hi : i < n) (he : ρ.event i = .call c q)
    (hcalm : Calm ρ c (i + 1) n) : Unchanging ρ c := by
  intro k hk hc
  obtain ⟨hn, b, hcall⟩ := h
  rcases ρ.step_cases hk with ⟨d, q', hd, hs⟩ | ⟨d, e, x, r, hp⟩ | ⟨d, hd, hs⟩
  · rw [Run.store, Run.store, hs]
  · obtain rfl : d = c := by rw [hp.event] at hc; exact hc
    have hik := performs_after (hi.trans_le hn) he hp
    exact hcalm k e x r (by omega) (ρ.done_before hcall hp) hp
  · rw [Run.store, Run.store, hs]; rfl

end Following

end Traces
