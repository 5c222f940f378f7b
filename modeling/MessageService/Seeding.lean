import MessageService.Commits
import MessageService.TextCodec

/-! Seeding is idempotent, and safe among replicas.
A seed call counts under the advisory lock and keeps the lock until its commit, so no other
seed call commits between a count and the commit that rests on it. -/
namespace Seeding

open Programs Interleaving Texts Models Schemas KeyedTables LockTables MessageJson Postgres
open Services ServiceRuns Transitions Statements Consistency Histories Footprints Traces Commits

section Locks

variable [JsonCodec] {s : SoundDb} {ρ : Run s} {c d i j k n t : ℕ}

/-- Session `c` has the advisory lock. -/
def Locked (ρ : Run s) (c t : ℕ) : Prop :=
  (ρ.store t).locks.Holds c (.advisory seedLockKey) .update

theorem locked_unique (h : Locked ρ c t) (h' : Locked ρ d t) : c = d := holds_unique h h' rfl

theorem locked_taken {x} (hl : ρ.Performs j c (.advisoryXactLock seedLockKey) x (.ok ())) :
    Locked ρ c (j + 1) := by
  obtain ⟨f, hx⟩ := performs_ok hl
  obtain ⟨u, hu, h⟩ := Option.bind_eq_some_iff.mp (hx : execAdvisoryXactLock c _ seedLockKey = _)
  obtain rfl : u = ρ.store (j + 1) := congrArg Prod.snd (Option.some.inj h)
  exact lock?_taken hu (List.mem_singleton_self _)

def IsSeed (ρ : Run s) (c : ℕ) : Prop := ∃ i < ρ.length, ρ.event i = .call c .seedInitialMessage

/-- The awaited step has raised. -/
def Raised (e : Effect) (r : Reply e) : Prop := ∃ exc, r = .error exc

omit [JsonCodec] in
theorem rolled_bars {α : Type} (f : α → Service Result) (exc : Exc) :
    (Program.bind (do perform .rollback; throw exc : Service α) (ExceptT.bindCont f) :
      Program Effect Reply Outcome).Only fun e => ¬e = .commit := by
  refine ⟨by simp, ?_⟩
  rintro (_ | _)
  · trivial
  · trivial

omit [JsonCodec] in
/-- One await of a seed: if it fails the transaction is rolled back. -/
theorem bars_await {e : Effect} {k : Reply e → Program Effect Reply Outcome}
    (herr : ∀ exc, (k (.error exc)).Only fun e => ¬e = .commit)
    (hok : ∀ a, (k (.ok a)).Bars Raised (· = .commit)) :
    (Program.await e k).Bars Raised (· = .commit) := by
  constructor
  · rintro _ ⟨exc, rfl⟩
    exact herr exc
  · rintro (exc | a)
    · exact bars_of_only (herr exc)
    · exact hok a

/-- A seed whose step has failed does not commit. -/
theorem seedInitialMessage_bars :
    (body .seedInitialMessage).Bars Raised (· = .commit) := by
  refine bars_await (rolled_bars _) fun _ => ?_
  refine bars_await (rolled_bars _) ?_
  rintro (_ | count)
  · refine bars_await (rolled_bars _) fun _ => ?_
    refine bars_await (rolled_bars _) ?_
    rintro (_ | ⟨authorId, _ | ⟨other, rest⟩⟩)
    · exact bars_of_only (rolled_bars _ _)
    · refine bars_await (rolled_bars _) fun _ => ?_
      exact bars_await (rolled_bars _) fun _ => trivial
    · exact bars_of_only (rolled_bars _ _)
  · exact bars_await (rolled_bars _) fun _ => trivial

/-- The lock is kept until the commit. -/
theorem locked_until {x y r} (hseed : IsSeed ρ c)
    (hl : ρ.Performs j c (.advisoryXactLock seedLockKey) x (.ok ()))
    (hc : ρ.Performs k c .commit y r) (hjt : j < t) (htk : t ≤ k) : Locked ρ c t := by
  induction t, hjt using Nat.le_induction with
  | base => exact locked_taken hl
  | succ t hjt ih =>
    have hheld := ih (by omega)
    have ht : t < ρ.length := lt_of_lt_of_le htk hc.within.le
    rcases ρ.step_cases ht with ⟨_, _, _, hs⟩ | ⟨d, e, x', r', hp⟩ | ⟨d, he, hs⟩
    · rw [Locked, Run.store, hs]
      exact hheld
    · by_cases hd : d = c
      · subst hd
        have horder := effect_order hp hc (by omega)
        rcases r' with exc | a
        · obtain ⟨i, hi, he⟩ := hseed
          have hbarred : ¬Effect.commit = .commit :=
            performs_barred (P := fun e => e = Effect.commit) (Q := Raised) (fun _ => rfl) hi he
              seedInitialMessage_bars hp ⟨exc, rfl⟩ hc (by omega)
          exact absurd rfl hbarred
        · obtain ⟨f, hx⟩ := performs_ok hp
          refine execute_held hx ?_ ?_ hheld
          · rintro rfl
            exact absurd horder (by decide)
          · rintro rfl
            exact absurd horder (by decide)
      · exact (transition_locks (answer_transition hp.answer) (Ne.symm hd) _ _).mpr hheld
    · rw [Locked, Run.store, hs]
      refine (release_holds ..).mpr ⟨hheld, ?_⟩
      rintro rfl
      have := ρ.closed_before ht he hc
      omega

/-- A seed call takes its commit after its lock and its count. -/
theorem seed_commit {x r} (hc : IsSeed ρ c) (hp : ρ.Performs k c .commit x r) :
    ∃ i ws, Session ρ c i k ws ∧ SeedTrace ρ i k c ws := by
  obtain ⟨i, hi, he⟩ := hc
  obtain ⟨_, hs, K, hr⟩ := performs_reached hi he hp
  obtain ⟨ws, hs, htrace⟩ := seedInitialMessage_commits hs hp.within.le hr
  exact ⟨i + 1, ws, hs, htrace⟩

theorem commit_locked {x r} (hc : IsSeed ρ c) (hp : ρ.Performs k c .commit x r) :
    Locked ρ c k := by
  obtain ⟨i, ws, _, htrace⟩ := seed_commit hc hp
  cases htrace with
  | nothing _ hjt htk hl => exact locked_until hc hl hp (hjt.trans htk) le_rfl
  | message _ hjt htu huv hvk hl => exact locked_until hc hl hp (by omega) le_rfl

/-- Of two seed calls that commit, the later one takes the lock after the earlier commit. -/
theorem commit_before_lock {x y z r r'} (hc : IsSeed ρ c) (hd : IsSeed ρ d)
    (hp : ρ.Performs k c .commit x r)
    (hl : ρ.Performs j d (.advisoryXactLock seedLockKey) y (.ok ()))
    (hp' : ρ.Performs n d .commit z r') (hkn : k < n) : k ≤ j := by
  by_contra hjk
  obtain rfl := locked_unique (commit_locked hc hp) (locked_until hd hl hp' (by omega) hkn.le)
  have := effect_once hp hp'
  omega

end Locks

section Inserts

variable [JsonCodec] {s : SoundDb} {ρ : Run s} {c d i j k n t : ℕ} {m m' : Uuid}

/-- A step of a seed call at instant `k` makes message `m` exist. -/
def SeedInserts (ρ : Run s) (k : ℕ) (m : Uuid) : Prop :=
  ∃ c, IsSeed ρ c ∧ (ρ.event k).caller = c ∧ ρ.row k m = none ∧ ρ.row (k + 1) m ≠ none

/-- A message inserted by a seed call exists at instant `n`. -/
def SeedMessage (ρ : Run s) (n : ℕ) (m : Uuid) : Prop :=
  ρ.row n m ≠ none ∧ ∃ k < n, SeedInserts ρ k m

/-- The commit that inserts a message rests on a count of none, taken under the lock. -/
structure Insertion (ρ : Run s) (k c : ℕ) (row : Message) : Prop where
  seed : IsSeed ρ c
  commits : ∃ x r, ρ.Performs k c .commit x r
  counted : ∃ j t x, j < t ∧ t < k ∧
    ρ.Performs j c (.advisoryXactLock seedLockKey) x (.ok ()) ∧ (ρ.store t).db.messages.rows = []
  last : ((ρ.store k).pending c).getLast? = some (.putMessage row)

omit [JsonCodec] in
/-- Of the writes of a seed call only the last one is of a message. -/
theorem seed_writes {ws : List Write} {P : Author → Prop} {row : Message} {r : Option Message}
    (hws : ws = [] ∨ ∃ a, P a ∧ ws = [.putAuthor a])
    (h : lastMessage (ws ++ [.putMessage row]) m = some r) : row.id = m := by
  obtain ⟨x, hx, hxm⟩ := lastMessage_written h
  rcases List.mem_append.mp hx with hx | hx
  · rcases hws with rfl | ⟨a, _, rfl⟩
    · cases hx
    · obtain rfl := List.mem_singleton.mp hx
      cases hxm
  · obtain rfl := List.mem_singleton.mp hx
    obtain ⟨m', hm', hid, _⟩ | ⟨hdrop, _⟩ := message?_some hxm
    · cases hm'
      exact hid
    · cases hdrop

theorem seed_insertion (hk : k < ρ.length) (h : SeedInserts ρ k m) :
    ∃ c row, Insertion ρ k c row ∧ row.id = m := by
  obtain ⟨c, hc, hcaller, hnone, hsome⟩ := h
  rcases run_db ρ hk with hdb | ⟨d, x, r, hp, hw⟩
  · rw [Run.row, hdb] at hsome
    exact absurd hnone hsome
  · obtain rfl : d = c := by rw [← hcaller, hp.event]; rfl
    obtain ⟨i, ws, hs, htrace⟩ := seed_commit hc hp
    rw [Run.row, hw, commit_row, hs.pending] at hsome
    cases hlast : lastMessage ws m with
    | none =>
      rw [hlast] at hsome
      exact absurd hnone hsome
    | some last =>
      cases htrace with
      | nothing => cases hlast
      | message _ hjt htu huv hvk hl _ hempty hws =>
        refine ⟨d, _, ⟨hc, ⟨x, r, hp⟩, ⟨_, _, _, hjt, by omega, hl, hempty⟩, ?_⟩,
          seed_writes hws hlast⟩
        rw [hs.pending, List.getLast?_concat]

/-- When the second of two seed calls inserts its message, the first one's message is gone. -/
theorem insertion_gone (hkn : k < n) (hn : n < ρ.length) (h : SeedInserts ρ k m)
    (h' : SeedInserts ρ n m') : Dead (ρ.store n) m := by
  obtain ⟨c, row, hins, _⟩ := seed_insertion (hkn.trans hn) h
  obtain ⟨_, _, _, _, hsome⟩ := h
  obtain ⟨d, row', hins', _⟩ := seed_insertion hn h'
  obtain ⟨x, r, hp⟩ := hins.commits
  obtain ⟨y, r', hp'⟩ := hins'.commits
  obtain ⟨j, t, z, hjt, htn, hl, hempty⟩ := hins'.counted
  have hkj := commit_before_lock hins.seed hins'.seed hp hl hp' hkn
  obtain ⟨old, hold⟩ := Option.ne_none_iff_exists'.mp hsome
  have hgone : ρ.row t m = none := by
    rw [Run.row, Table.lookup, hempty]
    rfl
  exact run_dead (row_dead hold (by omega) (by omega) hgone) htn.le hn.le

/-- At most one message that a seed call inserted exists. -/
theorem seed_message_unique (hn : n ≤ ρ.length) (h : SeedMessage ρ n m)
    (h' : SeedMessage ρ n m') : m = m' := by
  obtain ⟨hrow, k, hkn, hins⟩ := h
  obtain ⟨hrow', k', hkn', hins'⟩ := h'
  rcases Nat.lt_trichotomy k k' with hlt | rfl | hlt
  · exact absurd (run_dead (insertion_gone hlt (by omega) hins hins') hkn'.le hn).absent hrow
  · obtain ⟨c, row, hc, rfl⟩ := seed_insertion (by omega) hins
    obtain ⟨d, row', hd, rfl⟩ := seed_insertion (by omega) hins'
    obtain ⟨x, r, hp⟩ := hc.commits
    obtain ⟨y, r', hp'⟩ := hd.commits
    obtain ⟨rfl, _⟩ := hp.effect_unique hp'
    have hlast := hc.last.symm.trans hd.last
    rw [(Write.putMessage.injEq ..).mp (Option.some.inj hlast)]
  · exact absurd (run_dead (insertion_gone hlt (by omega) hins' hins) hkn.le hn).absent hrow'

/-- A seed call that counts messages writes nothing. -/
theorem seed_finds {x r} (hc : IsSeed ρ c) (hp : ρ.Performs t c .countMessages x r)
    (hfound : (ρ.store t).db.messages.rows ≠ []) : Unchanging ρ c := by
  intro k hk hcaller
  rcases run_db ρ hk with hdb | ⟨d, y, r', hp', hw⟩
  · exact hdb
  · obtain rfl : d = c := by rw [← hcaller, hp'.event]; rfl
    obtain ⟨i, ws, hs, htrace⟩ := seed_commit hc hp'
    cases htrace with
    | nothing => rw [hw, commit_db, view_committed hs]
    | message _ _ _ _ _ _ hcount hempty =>
      obtain rfl := effect_once hp hcount
      exact absurd hempty hfound

end Inserts

section Seeds

variable [JsonCodec] {s : SoundDb} {ρ : Run s} {c d i j k n t u : ℕ}

/-- Nothing runs but seed calls. -/
def SeedsOnly (ρ : Run s) : Prop :=
  ∀ i < ρ.length, ∀ c q, ρ.event i = .call c q → q = .seedInitialMessage

structure Seeded (db : Db) : Prop where
  message : ∃ m, db.messages.rows = [m]
  author : ∃! a, a ∈ db.authors.rows ∧ a.email = systemEmail

theorem seedsOnly_seed {e x} {r : Reply e} (hs : SeedsOnly ρ) (hp : ρ.Performs k c e x r) :
    IsSeed ρ c := by
  obtain ⟨q, _, _, _, _, i, hik, he, _⟩ := performs_started hp
  have hi := hik.trans hp.within
  obtain rfl := hs i hi c q he
  exact ⟨i, hi, he⟩

/-- From the lock of a seed call to its commit the tables stay as they are. -/
theorem kept_under_lock {x y r} (hs : SeedsOnly ρ)
    (hl : ρ.Performs j d (.advisoryXactLock seedLockKey) x (.ok ()))
    (hc : ρ.Performs n d .commit y r) (hjt : j < t) (htu : t ≤ u) (hun : u ≤ n) :
    (ρ.store u).db = (ρ.store t).db := by
  induction u, htu using Nat.le_induction with
  | base => rfl
  | succ u htu ih =>
    rw [← ih (by omega)]
    rcases run_db ρ (lt_of_lt_of_le hun hc.within.le) with hdb | ⟨c, z, r', hp, _⟩
    · exact hdb
    · have := commit_before_lock (seedsOnly_seed hs hp) (seedsOnly_seed hs hl) hp hl hc hun
      omega

/-- A commit that follows a count of none leaves the tables seeded. -/
theorem seeded_commit {z id} {ws : List Write} {P : Author → Prop} {row : Message}
    {v : ℕ} (hk : k ≤ ρ.length) (hdb : (ρ.store k).db = (ρ.store v).db)
    (hempty : (ρ.store v).db.messages.rows = []) (hws : ws = [] ∨ ∃ a, P a ∧ ws = [.putAuthor a])
    (hpv : (ρ.store v).pending c = ws) (hpk : (ρ.store k).pending c = ws ++ [.putMessage row])
    (hids : ρ.Performs v c (.selectAuthorIds systemEmail) z (.ok [id])) :
    Seeded ((ρ.store k).view c) := by
  have hview : (ρ.store k).view c = ((ρ.store v).view c).apply (.putMessage row) := by
    rw [World.view, hpk, applyAll_append, hdb, World.view, hpv]
  have hmessages : ((ρ.store v).view c).messages = (ρ.store v).db.messages := by
    rw [World.view, hpv]
    rcases hws with rfl | ⟨a, _, rfl⟩
    · rfl
    · rfl
  have hauthors := (performs_answer hids fun _ => rfl).1
  obtain ⟨a, ha, _⟩ := List.mem_map.mp (hauthors ▸ List.mem_singleton_self id)
  obtain ⟨hmem, hemail⟩ := List.mem_filter.mp ha
  have hemail : a.email = systemEmail := by simpa using hemail
  have hunique := (run_consistent ρ hk).emails c
  rw [hview] at hunique ⊢
  refine ⟨⟨row, put_empty (by rw [hmessages, hempty])⟩, a, ⟨hmem, hemail⟩, ?_⟩
  rintro b ⟨hb, hb'⟩
  exact hunique b a (mem_rows_iff.mp hb) (mem_rows_iff.mp hmem) (hb'.trans hemail.symm)

/-- A commit while only seed calls run: there was a message, or now there is one. -/
theorem seeds_step {x r} (hs : SeedsOnly ρ) (hp : ρ.Performs k c .commit x r)
    (hw : ρ.store (k + 1) = (ρ.store k).commit c) :
    ((ρ.store (k + 1)).db = (ρ.store k).db ∧ ∃ t ≤ k, (ρ.store t).db.messages.rows ≠ []) ∨
      ((ρ.store k).db.messages.rows = [] ∧ Seeded (ρ.store (k + 1)).db) := by
  obtain ⟨i, ws, hsession, htrace⟩ := seed_commit (seedsOnly_seed hs hp) hp
  cases htrace with
  | @nothing j t _ _ _ _ hjt htk _ _ hfound =>
    exact Or.inl ⟨by rw [hw, commit_db, view_committed hsession], t, htk.le, hfound⟩
  | @message j t u v _ _ _ _ _ _ _ _ hjt htu huv hvk hl _ hempty hws hpending hids =>
    have hkept := fun u => kept_under_lock (u := u) hs hl hp hjt
    have hk := hkept k (by omega) le_rfl
    have hv := hkept v (by omega) hvk.le
    refine Or.inr ⟨by rw [hk]; exact hempty, ?_⟩
    rw [hw, commit_db]
    exact seeded_commit hp.within.le (hk.trans hv.symm) (by rw [hv]; exact hempty) hws
      hpending hsession.pending hids

theorem seeded_next (hs : SeedsOnly ρ) (hn : n < ρ.length) (h : Seeded (ρ.store n).db) :
    (ρ.store (n + 1)).db = (ρ.store n).db := by
  rcases run_db ρ hn with hdb | ⟨c, x, r, hp, hw⟩
  · exact hdb
  · rcases seeds_step hs hp hw with ⟨hdb, _⟩ | ⟨hempty, _⟩
    · exact hdb
    · obtain ⟨m, hm⟩ := h.message
      rw [hempty] at hm
      cases hm

/-- Once the tables are seeded they stay as they are. -/
theorem seeded_run (hs : SeedsOnly ρ) (h : Seeded (ρ.store n).db) (hnt : n ≤ t)
    (ht : t ≤ ρ.length) : (ρ.store t).db = (ρ.store n).db := by
  induction t, hnt using Nat.le_induction with
  | base => rfl
  | succ t hnt ih =>
    have hdb := ih (by omega)
    rw [← hdb] at h
    rw [seeded_next hs ht h, hdb]

/-- While only seed calls run, tables without a message stay so or are seeded. -/
theorem seeds_run (hs : SeedsOnly ρ) (h0 : s.messages.rows = []) (hn : n ≤ ρ.length) :
    (ρ.store n).db.messages.rows = [] ∨ Seeded (ρ.store n).db := by
  induction n with
  | zero =>
    rw [Run.store, ρ.start]
    exact Or.inl h0
  | succ n ih =>
    rcases run_db ρ hn with hdb | ⟨c, x, r, hp, hw⟩
    · rw [hdb]
      exact ih (by omega)
    · rcases seeds_step hs hp hw with ⟨hdb, _⟩ | ⟨_, hseeded⟩
      · rw [hdb]
        exact ih (by omega)
      · exact Or.inr hseeded

/-- A seed call that has completed leaves the tables seeded. -/
theorem completed_seeded {res : Result} (hs : SeedsOnly ρ) (h0 : s.messages.rows = [])
    (h : ρ.Ended c .seedInitialMessage (.ok res) n) : Seeded (ρ.store n).db := by
  obtain ⟨i, hin, he, hsession, hr⟩ := ended_started h
  obtain ⟨k, ws, _, _, ⟨_, K, hdone⟩ | ⟨_, x, hkn, hp⟩⟩ :=
    seedInitialMessage_finishes hsession h.1 hr (.inr ⟨res, rfl⟩)
  · cases hdone
  have stays : ∀ t ≤ n, Seeded (ρ.store t).db → Seeded (ρ.store n).db := by
    intro t htn hseeded
    rw [seeded_run hs hseeded htn h.1]
    exact hseeded
  have hk := hp.within
  rcases seeds_step hs hp (committed hp) with ⟨_, t, htk, hfound⟩ | ⟨_, hseeded⟩
  · exact stays t (by omega) ((seeds_run hs h0 (by omega)).resolve_left hfound)
  · exact stays (k + 1) hkn hseeded

end Seeds

/-- What holds of the seed calls of a run. -/
structure SeedsSafely [JsonCodec] {s : SoundDb} (ρ : Run s) : Prop where
  single : ∀ n ≤ ρ.length, {m | SeedMessage ρ n m}.Subsingleton
  finds : ∀ c t x r, IsSeed ρ c → ρ.Performs t c .countMessages x r →
    (ρ.store t).db.messages.rows ≠ [] → Unchanging ρ c
  completed : SeedsOnly ρ → s.messages.rows = [] → ∀ c res n,
    ρ.Ended c .seedInitialMessage (.ok res) n → Seeded (ρ.store n).db ∧
      ∀ t, n ≤ t → t ≤ ρ.length → (ρ.store t).db = (ρ.store n).db

theorem seeds_safely [JsonCodec] {s : SoundDb} (ρ : Run s) : SeedsSafely ρ where
  single _ hn _ h _ h' := seed_message_unique hn h h'
  finds _ _ _ _ hc hp hfound := seed_finds hc hp hfound
  completed hs h0 _ _ _ h := by
    have hseeded := completed_seeded hs h0 h
    exact ⟨hseeded, fun _ hnt ht => seeded_run hs hseeded hnt ht⟩

section Schedules

/-- Two replicas start together; the second one waits for the lock. -/
def twoReplicas : Run .empty := scheduled .empty
  [.call 0 .seedInitialMessage, .call 1 .seedInitialMessage, act 0 0, act 0 0, act 0 1, act 0 0,
    act 0 2, act 0 0, act 1 0, act 1 0, act 1 0] (by decide +kernel)

example : twoReplicas.Ended 0 .seedInitialMessage (.ok .none) 8 ∧
    twoReplicas.Ended 1 .seedInitialMessage (.ok .none) 11 ∧
    (twoReplicas.store 11).db.messages.rows.map Message.id = [2] := by decide +kernel

end Schedules

end Seeding
