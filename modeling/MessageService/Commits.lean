import MessageService.Footprints
import MessageService.MessageTraces

/-! What a call has written when it takes its commit.
Committed rows change in commits only, so these cases are everything that ever happens to
the tables. -/
namespace Commits

open Programs Interleaving Texts Models Schemas KeyedTables MessageJson Postgres Services
open ServiceRuns Transitions Statements Consistency Histories Footprints Traces MessageTraces

variable [JsonCodec] {s : SoundDb} {ρ : Run s}

/-- The writes of call `c` of a request, followed since `i`, when it takes its commit at `k`. -/
inductive Committing (ρ : Run s) (i k c : ℕ) : Request → List Write → Prop
  | createMessage {p row} : row.version = 0 → text row.title = p.title →
      text row.content = p.content → row.authorId = p.authorId →
      Committing ρ i k c (.createMessage p) [.putMessage row]
  | updateMessage {m p j x row} : i ≤ j → j < k → ρ.row j m = some row → row.version = p.version →
      row.version + 1 ≤ maxInt4 → ρ.Performs j c (updateOf m p) x (.ok (some m)) →
      Committing ρ i k c (.updateMessage m p) [.putMessage (updatedMessage row p.content p.title)]
  | deleteMessage {m j row} : i ≤ j → j < k → ρ.row j m = some row →
      Committing ρ i k c (.deleteMessage m) [.dropMessage m]
  | deleteNoMessage {m j} : i ≤ j → j < k → ρ.row j m = none →
      Committing ρ i k c (.deleteMessage m) []
  | createAuthor {p a j} : i ≤ j → j < k → ρ.author j a.id = none → text a.name = p.name →
      text a.email = p.email →
      Committing ρ i k c (.createAuthor p) [.putAuthor a]
  | updateAuthor {id p j row} : i ≤ j → j < k → ρ.author j id = some row →
      AuthorFits (ρ.store j).db row p.name p.email →
      Committing ρ i k c (.updateAuthor id p) [.putAuthor (updatedAuthor row p.name p.email)]
  | deleteAuthor {id} : Committing ρ i k c (.deleteAuthor id) [.dropAuthor id]
  | deleteNoAuthor {id} : Committing ρ i k c (.deleteAuthor id) []
  | seedNothing : Committing ρ i k c .seedInitialMessage []
  | seedMessage {row} : row.version = 0 → Committing ρ i k c .seedInitialMessage [.putMessage row]
  | seedBoth {a row j} : i ≤ j → j < k → ρ.author j a.id = none → row.version = 0 →
      Committing ρ i k c .seedInitialMessage [.putAuthor a, .putMessage row]

section Origins

variable {c i k : ℕ} {K : Reply .commit → host.Body}

theorem uncommitted {p : host.Body} (hp : p.Only (· ≠ .commit))
    (h : ρ.Reaches c p i (.await .commit K) k) : False :=
  (h.only hp).1 rfl

/-- An `except IntegrityError` clause rolls back and raises. -/
theorem caught_only {α β : Type} (violation : String) (translated exc : Exc)
    (f : α → Service β) (g : β → Service Result) :
    (Program.bind (Program.bind (match exc with
      | .integrityError sqlstate => (do
          perform .rollback
          if sqlstate = some violation then throw translated
          throw (.integrityError sqlstate) : Service α)
      | exc => (throw exc : Service α)) (ExceptT.bindCont f)) (ExceptT.bindCont g) :
        host.Body).Only (· ≠ .commit) := by
  refine (climbs_only (caught_climbs le_rfl violation translated exc f g)).mono ?_
  rintro e he rfl
  exact absurd he (by simp [rank])

/-- An id that was never issued belongs to no committed author. -/
theorem author_fresh {j : ℕ} (hj : j ≤ ρ.length) {id : Uuid} (h : id ∉ (ρ.store j).issued) :
    ρ.author j id = none := by
  cases ha : ρ.author j id with
  | none => rfl
  | some a => exact absurd ((run_consistent ρ hj).author_issued id a ha) h

theorem createMessage_commits {p : MessageCreate} (hs : Session ρ c i i []) (hk : k ≤ ρ.length)
    (h : ρ.Reaches c (body (.createMessage p)) i (.await .commit K) k) :
    ∃ ws, Session ρ c i k ws ∧ Committing ρ i k c (.createMessage p) ws := by
  rcases taken_or h hk hs with ⟨ha, _⟩ | ⟨j, x, r, hij, hjk, hs, hp, h⟩
  · cases await_effect ha
  rcases r with exc | (_ | au)
  · exact (not_reaches_await h).elim
  · exact (not_reaches_await h).elim
  rcases taken_or h hk (hs.silent hp trivial) with ⟨ha, _⟩ | ⟨l, x₁, r, hjl, hlk, hs', hp₁, h⟩
  · cases await_effect ha
  have hdb := performs_db hp₁ (by simp)
  rcases r with exc | row
  · exact (uncommitted (caught_only fkViolation (authorNotFound p.authorId) exc _ _) h).elim
  · obtain ⟨f, hx⟩ := performs_ok hp₁
    obtain ⟨hrow, _, _, hw⟩ := insertMessage_ok hx
    obtain ⟨htitle, hcontent⟩ := insertMessage_stores hx
    have hid : au.id = p.authorId := lookup_key (performs_answer hp fun _ => rfl).1.symm
    have hs' : Session ρ c i (l + 1) [.putMessage row] :=
      hs'.step hp₁ hdb (hw.trans (by rw [hs'.pending]; rfl))
    rcases taken_or h hk hs' with ⟨_, hs', _⟩ | ⟨_, _, r, _, _, _, _, h⟩
    · exact ⟨_, hs', .createMessage (by rw [hrow]) htitle hcontent (by rw [hrow]; exact hid)⟩
    · rcases r with exc | _
      · exact (not_reaches_await h).elim
      · exact (not_reaches_await h).elim

theorem updateMessage_commits {m : Uuid} {p : MessageUpdate} (hs : Session ρ c i i [])
    (hk : k ≤ ρ.length)
    (h : ρ.Reaches c (body (.updateMessage m p)) i (.await .commit K) k) :
    ∃ ws, Session ρ c i k ws ∧ Committing ρ i k c (.updateMessage m p) ws := by
  rcases taken_or h hk hs with ⟨ha, _⟩ | ⟨j, x, r, hij, hjk, hs, hp, h⟩
  · cases await_effect ha
  rcases r with exc | r
  · exact (not_reaches_await h).elim
  obtain ⟨f, hx⟩ := performs_ok hp
  have hdb := performs_db hp (by simp)
  rcases updateMessage_ok hx with ⟨rfl, _, _⟩ | ⟨row, rfl, hm, hv, hmax, hw⟩
  · rcases taken_or h hk (hs.step hp hdb rfl) with ⟨ha, _⟩ | ⟨_, _, r, _, _, hs', _, h⟩
    · cases await_effect ha
    rcases r with exc | _
    · exact (not_reaches_await h).elim
    rcases reaches_await h with ⟨ha, _⟩ | ⟨_, _, r, _, _, _, h⟩
    · cases await_effect ha
    rcases r with exc | _
    · exact (not_reaches_await h).elim
    rcases reaches_await h with ⟨ha, _⟩ | ⟨_, _, r, _, _, _, h⟩
    · cases await_effect ha
    rcases r with exc | (_ | _)
    · exact (not_reaches_await h).elim
    · exact (not_reaches_await h).elim
    · exact (not_reaches_await h).elim
  · rw [view_committed hs] at hm
    have hs' : Session ρ c i (j + 1) [.putMessage (updatedMessage row p.content p.title)] :=
      hs.step hp hdb (hw.trans (by rw [hs.pending]; rfl))
    rcases taken_or h hk hs' with ⟨ha, _⟩ | ⟨l, x₁, r, hjl, hlk, hs', hp₁, h⟩
    · cases await_effect ha
    rcases r with exc | r
    · exact (not_reaches_await h).elim
    have hs' := hs'.silent hp₁ trivial
    rcases load_answer hp₁ with ⟨rfl, _⟩ | ⟨row', au, rfl, _, _⟩
    · rcases taken_or h hk hs' with ⟨_, hs', _⟩ | ⟨_, _, r, _, _, _, _, h⟩
      · exact ⟨_, hs', .updateMessage hij hjk hm hv hmax hp⟩
      rcases r with exc | _
      · exact (not_reaches_await h).elim
      rcases reaches_await h with ⟨ha, _⟩ | ⟨_, _, r, _, _, _, h⟩
      · cases await_effect ha
      rcases r with exc | _
      · exact (not_reaches_await h).elim
      · exact (not_reaches_await h).elim
    · rcases taken_or h hk hs' with ⟨_, hs', _⟩ | ⟨_, _, r, _, _, _, _, h⟩
      · exact ⟨_, hs', .updateMessage hij hjk hm hv hmax hp⟩
      rcases r with exc | _
      · exact (not_reaches_await h).elim
      rcases reaches_await h with ⟨ha, _⟩ | ⟨_, _, r, _, _, _, h⟩
      · cases await_effect ha
      rcases r with exc | _
      · exact (not_reaches_await h).elim
      · exact (not_reaches_await h).elim

theorem deleteMessage_commits {m : Uuid} (hs : Session ρ c i i []) (hk : k ≤ ρ.length)
    (h : ρ.Reaches c (body (.deleteMessage m)) i (.await .commit K) k) :
    ∃ ws, Session ρ c i k ws ∧ Committing ρ i k c (.deleteMessage m) ws := by
  rcases taken_or h hk hs with ⟨ha, _⟩ | ⟨j, x, r, hij, hjk, hs, hp, h⟩
  · cases await_effect ha
  rcases r with exc | r
  · exact (not_reaches_await h).elim
  obtain ⟨f, hx⟩ := performs_ok hp
  have hdb := performs_db hp (by simp)
  have after : ∀ ws, Session ρ c i (j + 1) ws → Committing ρ i k c (.deleteMessage m) ws →
      ∃ ws, Session ρ c i k ws ∧ Committing ρ i k c (.deleteMessage m) ws := by
    intro ws hs' hc
    rcases taken_or h hk hs' with ⟨_, hs', _⟩ | ⟨_, _, r', _, _, _, _, h⟩
    · exact ⟨ws, hs', hc⟩
    rcases r' with exc | _
    · exact (not_reaches_await h).elim
    rcases reaches_await h with ⟨ha, _⟩ | ⟨_, _, r', _, _, _, h⟩
    · cases await_effect ha
    rcases r' with exc | _
    · exact (not_reaches_await h).elim
    · cases r with
      | none => exact (not_reaches_await h).elim
      | some _ => exact (not_reaches_await h).elim
  rcases deleteMessage_ok hx with ⟨_, hw, hm⟩ | ⟨row, _, hm, hw⟩
  · rw [view_committed hs] at hm
    exact after [] (hs.step hp hdb (by rw [hw]; exact hs.pending)) (.deleteNoMessage hij hjk hm)
  · rw [view_committed hs] at hm
    exact after _ (hs.step hp hdb (hw.trans (by rw [hs.pending]; rfl))) (.deleteMessage hij hjk hm)

theorem createAuthor_commits {p : AuthorCreate} (hs : Session ρ c i i []) (hk : k ≤ ρ.length)
    (h : ρ.Reaches c (body (.createAuthor p)) i (.await .commit K) k) :
    ∃ ws, Session ρ c i k ws ∧ Committing ρ i k c (.createAuthor p) ws := by
  rcases taken_or h hk hs with ⟨ha, _⟩ | ⟨j, x, r, hij, hjk, hs, hp, h⟩
  · cases await_effect ha
  have hdb := performs_db hp (by simp)
  rcases r with exc | a
  · exact (uncommitted (caught_only uniqueViolation (duplicateEmail p.email) exc _ _) h).elim
  · obtain ⟨f, hx⟩ := performs_ok hp
    obtain ⟨ha, hfresh, _, hw⟩ := insertAuthor_ok hx
    obtain ⟨hname, hemail⟩ := insertAuthor_stores hx
    have hnew : ρ.author j a.id = none := author_fresh hp.within.le (by rw [ha]; exact hfresh)
    have hs' : Session ρ c i (j + 1) [.putAuthor a] :=
      hs.step hp hdb (hw.trans (by rw [hs.pending]; rfl))
    rcases taken_or h hk hs' with ⟨_, hs', _⟩ | ⟨_, _, r, _, _, _, _, h⟩
    · exact ⟨_, hs', .createAuthor hij hjk hnew hname hemail⟩
    · rcases r with exc | _
      · exact (not_reaches_await h).elim
      · exact (not_reaches_await h).elim

/-- The UPDATE of an author at `j`, seen from the commit of its call at `k`: the call has done
nothing since. -/
structure Updating (ρ : Run s) (i k c : ℕ) (id : Uuid) (p : AuthorUpdate) (j : ℕ) (row : Author) :
    Prop where
  after : i ≤ j
  before : j < k
  changes : ¬(p.name = none ∧ p.email = none)
  updates : ∃ x, ρ.Performs j c (.updateAuthor id p.name p.email) x
    (.ok (some (updatedAuthor row p.name p.email)))
  quiet : ρ.Quiet c (j + 1) k
  read : ρ.author j id = some row
  fits : AuthorFits (ρ.store j).db row p.name p.email
  pending : (ρ.store (j + 1)).pending c = [.putAuthor (updatedAuthor row p.name p.email)]
  session : Session ρ c i k [.putAuthor (updatedAuthor row p.name p.email)]

theorem updateAuthor_writes {id : Uuid} {p : AuthorUpdate} (hs : Session ρ c i i [])
    (hk : k ≤ ρ.length)
    (h : ρ.Reaches c (body (.updateAuthor id p)) i (.await .commit K) k) :
    ∃ j row, Updating ρ i k c id p j row := by
  by_cases hn : p.name = none ∧ p.email = none
  · simp only [body, updateAuthor, if_pos hn] at h
    rcases taken_or h hk hs with ⟨ha, _⟩ | ⟨_, _, r, _, _, _, _, h⟩
    · cases await_effect ha
    rcases r with exc | (_ | a)
    · exact (not_reaches_await h).elim
    · exact (not_reaches_await h).elim
    · exact (not_reaches_await h).elim
  · simp only [body, updateAuthor, if_neg hn] at h
    rcases taken_or h hk hs with ⟨ha, _⟩ | ⟨j, x, r, hij, hjk, hs, hp, h⟩
    · cases await_effect ha
    have hdb := performs_db hp (by simp)
    rcases r with exc | r
    · exact (uncommitted (caught_only uniqueViolation (duplicateEmail (p.email.getD [])) exc _ _)
        h).elim
    · obtain ⟨f, hx⟩ := performs_ok hp
      rcases updateAuthor_ok hx with ⟨rfl, _, _⟩ | ⟨row, hrow, rfl, hfits, hw⟩
      · exact (not_reaches_await h).elim
      rw [view_committed hs] at hrow hfits
      rw [hs.pending] at hw
      have hs' : Session ρ c i (j + 1) [.putAuthor (updatedAuthor row p.name p.email)] :=
        hs.step hp hdb hw
      rcases reaches_await h with ⟨_, hjk, hquiet⟩ | ⟨_, _, r, _, _, _, h⟩
      · exact ⟨j, row, hij, hjk, hn, ⟨x, hp⟩, hquiet, hrow, hfits, hw, hs'.wait hquiet hjk hk⟩
      · rcases r with exc | _
        · exact (not_reaches_await h).elim
        · exact (not_reaches_await h).elim

theorem updateAuthor_commits {id : Uuid} {p : AuthorUpdate} (hs : Session ρ c i i [])
    (hk : k ≤ ρ.length)
    (h : ρ.Reaches c (body (.updateAuthor id p)) i (.await .commit K) k) :
    ∃ ws, Session ρ c i k ws ∧ Committing ρ i k c (.updateAuthor id p) ws := by
  obtain ⟨j, row, hupdating⟩ := updateAuthor_writes hs hk h
  exact ⟨_, hupdating.session,
    .updateAuthor hupdating.after hupdating.before hupdating.read hupdating.fits⟩

theorem deleteAuthor_commits {id : Uuid} (hs : Session ρ c i i []) (hk : k ≤ ρ.length)
    (h : ρ.Reaches c (body (.deleteAuthor id)) i (.await .commit K) k) :
    ∃ ws, Session ρ c i k ws ∧ Committing ρ i k c (.deleteAuthor id) ws := by
  rcases taken_or h hk hs with ⟨ha, _⟩ | ⟨j, x, r, hij, hjk, hs, hp, h⟩
  · cases await_effect ha
  have hdb := performs_db hp (by simp)
  rcases r with exc | r
  · exact (uncommitted (caught_only fkViolation (hasMessages id) exc _ _) h).elim
  obtain ⟨f, hx⟩ := performs_ok hp
  have after : ∀ ws, Session ρ c i (j + 1) ws → Committing ρ i k c (.deleteAuthor id) ws →
      ∃ ws, Session ρ c i k ws ∧ Committing ρ i k c (.deleteAuthor id) ws := by
    intro ws hs' hc
    rcases taken_or h hk hs' with ⟨_, hs', _⟩ | ⟨_, _, r', _, _, _, _, h⟩
    · exact ⟨ws, hs', hc⟩
    rcases r' with exc | _
    · exact (uncommitted (caught_only fkViolation (hasMessages id) exc _ _) h).elim
    · cases r with
      | none => exact (not_reaches_await h).elim
      | some _ => exact (not_reaches_await h).elim
  rcases deleteAuthor_ok hx with ⟨_, _, hw⟩ | ⟨_, _, _, hw⟩
  · exact after [] (hs.step hp hdb (by rw [hw]; exact hs.pending)) .deleteNoAuthor
  · exact after _ (hs.step hp hdb (hw.trans (by rw [hs.pending]; rfl))) .deleteAuthor

/-- What is left of a call at its commit, or after it has ended well. -/
def Finishing (q : host.Body) : Prop :=
  (∃ K : Reply .commit → host.Body, q = .await .commit K) ∨ ∃ res, q = .done (.ok res)

theorem finishing_effect {e : Effect} {K' : Reply e → host.Body} (h : Finishing (.await e K')) :
    e = .commit := by
  rcases h with ⟨K, h⟩ | ⟨res, h⟩
  · exact await_effect h
  · cases h

/-- A program that rolls back and raises. -/
def RollsBack (p : host.Body) : Prop :=
  ∃ K' : Reply .rollback → host.Body, p = .await .rollback K' ∧
    ∀ r, ∃ exc, K' r = .done (.error exc)

theorem not_finishing {p q : host.Body} {j n : ℕ} (hp : RollsBack p) (h : ρ.Reaches c p j q n) :
    ¬Finishing q := by
  intro hq
  obtain ⟨K', rfl, hd⟩ := hp
  rcases reaches_await h with ⟨rfl, _⟩ | ⟨_, _, r, _, _, _, h⟩
  · cases finishing_effect hq
  · obtain ⟨exc, hexc⟩ := hd r
    rw [hexc] at h
    rw [(reaches_done h).1] at hq
    rcases hq with ⟨K, hq⟩ | ⟨res, hq⟩
    · cases hq
    · cases hq

/-- The call waits for its commit at `n`, or it took it at `k` and is done. -/
def CommitsAt (ρ : Run s) (c k n : ℕ) (q : host.Body) : Prop :=
  (k = n ∧ ∃ K : Reply .commit → host.Body, q = .await .commit K) ∨
    ((∃ o, q = .done o) ∧ ∃ x, k < n ∧ ρ.Performs k c .commit x (.ok ()))

theorem commit_finishes {q : host.Body} {j n : ℕ} {ws : List Write} (hs : Session ρ c i j ws)
    (hn : n ≤ ρ.length) (h : ρ.Reaches c (.await .commit K) j q n) (hq : Finishing q)
    (hK : ∀ exc, RollsBack (K (.error exc))) (hdone : ∃ o, K (.ok ()) = .done o) :
    ∃ k, j ≤ k ∧ Session ρ c i k ws ∧ CommitsAt ρ c k n q := by
  rcases taken_or h hn hs with ⟨rfl, hs, hjn⟩ | ⟨k, x, r, hjk, hkn, hs, hp, h⟩
  · exact ⟨n, hjn, hs, .inl ⟨rfl, K, rfl⟩⟩
  · rcases r with exc | _
    · exact absurd hq (not_finishing (hK exc) h)
    · obtain ⟨o, ho⟩ := hdone
      rw [ho] at h
      exact ⟨k, hjk, hs, .inr ⟨⟨o, (reaches_done h).1⟩, x, hkn, hp⟩⟩

/-- How a seed call came to its commit at `k`. -/
inductive SeedTrace (ρ : Run s) (i k c : ℕ) : List Write → Prop
  | nothing {j t x y r} : i ≤ j → j < t → t < k →
      ρ.Performs j c (.advisoryXactLock seedLockKey) x (.ok ()) →
      ρ.Performs t c .countMessages y r → (ρ.store t).db.messages.rows ≠ [] →
      SeedTrace ρ i k c []
  | message {j t u v x y z r ws id row} : i ≤ j → j < t → t < u → u < v → v < k →
      ρ.Performs j c (.advisoryXactLock seedLockKey) x (.ok ()) →
      ρ.Performs t c .countMessages y r → (ρ.store t).db.messages.rows = [] →
      (ws = [] ∨ ∃ a, ρ.author u a.id = none ∧ ws = [.putAuthor a]) →
      (ρ.store v).pending c = ws → ρ.Performs v c (.selectAuthorIds systemEmail) z (.ok [id]) →
      row.version = 0 → SeedTrace ρ i k c (ws ++ [.putMessage row])

/-- A seed call that comes to its commit, or ends well, has taken the lock, has counted, and
has written what the count allows. -/
theorem seedInitialMessage_finishes {q : host.Body} {n : ℕ} (hs : Session ρ c i i [])
    (hn : n ≤ ρ.length) (h : ρ.Reaches c (body .seedInitialMessage) i q n) (hq : Finishing q) :
    ∃ k ws, Session ρ c i k ws ∧ SeedTrace ρ i k c ws ∧ CommitsAt ρ c k n q := by
  -- whatever raises in the block is followed by the rollback
  have raised : ∀ {p : host.Body} {j}, RollsBack p → ρ.Reaches c p j q n → False :=
    fun hp h => not_finishing hp h hq
  rcases taken_or h hn hs with ⟨rfl, _⟩ | ⟨j, x, r, hij, _, hs, hlock, h⟩
  · cases finishing_effect hq
  rcases r with exc | _
  · exact (raised ⟨_, rfl, by rintro (_ | _) <;> exact ⟨_, rfl⟩⟩ h).elim
  rcases taken_or h hn (hs.silent hlock trivial) with ⟨rfl, _⟩ | ⟨t, y, r, hjt, _, hs, hcount, h⟩
  · cases finishing_effect hq
  rcases r with exc | count
  · exact (raised ⟨_, rfl, by rintro (_ | _) <;> exact ⟨_, rfl⟩⟩ h).elim
  have hcounted := (performs_answer hcount fun _ => rfl).1
  rw [view_committed hs] at hcounted
  have hs := hs.silent hcount trivial
  cases count with
  | succ count =>
    obtain ⟨k, htk, hs, hcommits⟩ := commit_finishes hs hn h hq
      (fun exc => ⟨_, rfl, by rintro (_ | _) <;> exact ⟨_, rfl⟩⟩) ⟨_, rfl⟩
    refine ⟨k, _, hs, .nothing hij hjt htk hlock hcount ?_, hcommits⟩
    intro hempty
    rw [hempty] at hcounted
    cases hcounted
  | zero =>
    have hempty := List.length_eq_zero_iff.mp hcounted.symm
    rcases taken_or h hn hs with ⟨rfl, _⟩ | ⟨u, x, r, htu, _, hs, hp, h⟩
    · cases finishing_effect hq
    rcases r with exc | _
    · exact (raised ⟨_, rfl, by rintro (_ | _) <;> exact ⟨_, rfl⟩⟩ h).elim
    have hdb := performs_db hp (by simp)
    obtain ⟨f, hx⟩ := performs_ok hp
    have hs : ∃ ws, (ws = [] ∨ ∃ a, ρ.author u a.id = none ∧ ws = [.putAuthor a]) ∧
        Session ρ c i (u + 1) ws := by
      rcases upsertAuthor_ok hx with ⟨_, hw⟩ | ⟨hfresh, _, hw⟩
      · exact ⟨[], Or.inl rfl, hs.step hp hdb (by rw [hw]; exact hs.pending)⟩
      · exact ⟨_, Or.inr ⟨_, author_fresh hp.within.le hfresh, rfl⟩,
          hs.step hp hdb (hw.trans (by rw [hs.pending]; rfl))⟩
    obtain ⟨ws, hws, hs⟩ := hs
    rcases taken_or h hn hs with ⟨rfl, _⟩ | ⟨v, z, r, huv, _, hs, hids, h⟩
    · cases finishing_effect hq
    rcases r with exc | (_ | ⟨id, _ | ⟨other, rest⟩⟩)
    · exact (raised ⟨_, rfl, by rintro (_ | _) <;> exact ⟨_, rfl⟩⟩ h).elim
    · exact (raised ⟨_, rfl, by rintro (_ | _) <;> exact ⟨_, rfl⟩⟩ h).elim
    · have hpending := hs.pending
      rcases taken_or h hn (hs.silent hids trivial) with ⟨rfl, _⟩ | ⟨l, x, r, hvl, _, hs, hp, h⟩
      · cases finishing_effect hq
      rcases r with exc | row
      · exact (raised ⟨_, rfl, by rintro (_ | _) <;> exact ⟨_, rfl⟩⟩ h).elim
      obtain ⟨f, hx⟩ := performs_ok hp
      obtain ⟨hrow, _, _, hw⟩ := insertMessage_ok hx
      have hs := hs.step hp (performs_db hp (by simp)) (hw.trans (by rw [hs.pending]))
      obtain ⟨k, hlk, hs, hcommits⟩ := commit_finishes hs hn h hq
        (fun exc => ⟨_, rfl, by rintro (_ | _) <;> exact ⟨_, rfl⟩⟩) ⟨_, rfl⟩
      exact ⟨k, _, hs, .message hij hjt htu huv (by omega) hlock hcount hempty hws hpending hids
        (by rw [hrow]), hcommits⟩
    · exact (raised ⟨_, rfl, by rintro (_ | _) <;> exact ⟨_, rfl⟩⟩ h).elim

theorem seedInitialMessage_commits (hs : Session ρ c i i []) (hk : k ≤ ρ.length)
    (h : ρ.Reaches c (body .seedInitialMessage) i (.await .commit K) k) :
    ∃ ws, Session ρ c i k ws ∧ SeedTrace ρ i k c ws := by
  obtain ⟨l, ws, hs, htrace, ⟨rfl, _⟩ | ⟨⟨o, ho⟩, _⟩⟩ :=
    seedInitialMessage_finishes hs hk h (.inl ⟨K, rfl⟩)
  · exact ⟨ws, hs, htrace⟩
  · cases ho

theorem SeedTrace.committing {ws : List Write} (h : SeedTrace ρ i k c ws) :
    Committing ρ i k c .seedInitialMessage ws := by
  cases h with
  | nothing => exact .seedNothing
  | message hij hjt htu huv hvk _ _ _ hws _ _ hversion =>
    rcases hws with rfl | ⟨a, hnew, rfl⟩
    · exact .seedMessage hversion
    · exact .seedBoth (by omega) (huv.trans hvk) hnew hversion

/-- Every commit is the commit of a call that has followed its program so far. -/
theorem commit_origin {x r} (hp : ρ.Performs k c .commit x r) :
    ∃ q i ws, i < k ∧ ρ.event i = .call c q ∧ Session ρ c (i + 1) k ws ∧
      Committing ρ (i + 1) k c q ws := by
  obtain ⟨q, b, K, _, _, i, hi, he, hs, h⟩ := performs_started hp
  have hk := hp.within.le
  have silent : Reading q → False := fun hq => (h.only (reading_silent hq)).1
  have found : ∀ {ws}, Session ρ c (i + 1) k ws ∧ Committing ρ (i + 1) k c q ws →
      ∃ q i ws, i < k ∧ ρ.event i = .call c q ∧ Session ρ c (i + 1) k ws ∧
        Committing ρ (i + 1) k c q ws := fun hw => ⟨q, i, _, hi, he, hw.1, hw.2⟩
  cases q with
  | listMessages | getMessage | listAuthors | getAuthor => exact (silent trivial).elim
  | createMessage p => exact found (createMessage_commits hs hk h).choose_spec
  | updateMessage m p => exact found (updateMessage_commits hs hk h).choose_spec
  | deleteMessage m => exact found (deleteMessage_commits hs hk h).choose_spec
  | createAuthor p => exact found (createAuthor_commits hs hk h).choose_spec
  | updateAuthor id p => exact found (updateAuthor_commits hs hk h).choose_spec
  | deleteAuthor id => exact found (deleteAuthor_commits hs hk h).choose_spec
  | seedInitialMessage =>
    obtain ⟨ws, hs, htrace⟩ := seedInitialMessage_commits hs hk h
    exact found ⟨hs, htrace.committing⟩

end Origins

section Changes

variable {c i k : ℕ} {m : Uuid}

theorem commit_called {q x r} (he : ρ.event i = .call c q) (hi : i < ρ.length)
    (hp : ρ.Performs k c .commit x r) :
    ∃ ws, i < k ∧ Session ρ c (i + 1) k ws ∧ Committing ρ (i + 1) k c q ws := by
  obtain ⟨q', i', ws, hik, he', hs, hc⟩ := commit_origin hp
  obtain rfl := ρ.call_unique hi (hik.trans hp.within) he he'
  obtain rfl : q = q' := by rw [he] at he'; injection he'
  exact ⟨ws, hik, hs, hc⟩

/-- A pending update of a row that was read replaces exactly that row: the row lock has kept
every other session away since. -/
theorem pending_update {j : ℕ} {row : Message} {content title} (hjk : j ≤ k) (hk : k ≤ ρ.length)
    (hrow : ρ.row j m = some row)
    (hw : .putMessage (updatedMessage row content title) ∈ (ρ.store k).pending c) :
    ρ.row k m = some row := by
  have hid : row.id = m := lookup_key hrow
  have hput : (Write.putMessage (updatedMessage row content title)).message? m = some (some _) :=
    message?_put hid
  cases hold : ρ.row k m with
  | none =>
    have hdead := row_dead hrow hjk hk hold
    rw [hdead.unwritten c _ hw] at hput
    cases hput
  | some old =>
    have hprec := ((run_consistent ρ hk).guarded c _ hw).2.2 old
      ((congrArg _ hid).trans hold)
    have hlt : old.version < row.version + 1 := hprec.version
    rcases row_history hrow hjk hk hold with rfl | h
    · rfl
    · have := h.version
      omega

/-- While a session waits with a write of an author's row, the row stays as it is. -/
theorem author_kept {a : Author} (hq : ρ.Quiet c i k) (hik : i ≤ k) (hk : k ≤ ρ.length)
    (hw : .putAuthor a ∈ (ρ.store i).pending c) : ρ.author k a.id = ρ.author i a.id := by
  induction k, hik using Nat.le_induction with
  | base => rfl
  | succ k hik ih =>
    have hprev := ih (hq.mono le_rfl (Nat.le_succ k)) (by omega)
    rcases run_db ρ hk with hdb | ⟨d, x, r, hp, hstored⟩
    · rw [Run.author, hdb]
      exact hprev
    · have hcd : c ≠ d := by
        rintro rfl
        exact hq k hik (Nat.lt_succ_self k) (by rw [hp.event]; rfl)
      have hguarded := (run_consistent ρ hp.within.le).guarded
      have hpending : .putAuthor a ∈ (ρ.store k).pending c := by
        rw [quiet_pending (hq.mono le_rfl (Nat.le_succ k)) hik hp.within.le]
        exact hw
      have hlocked : WriteLocked (ρ.store k) c (.author a.id) := (hguarded c _ hpending).1
      rw [Run.author, hstored, commit_author, lastAuthor_none (hguarded d) hcd hlocked]
      exact hprev

/-- What the commit of an `update_message` call does to the row. -/
theorem update_commit {p : MessageUpdate} {x} (he : ρ.event i = .call c (.updateMessage m p))
    (hi : i < ρ.length) (hp : ρ.Performs k c .commit x (.ok ())) :
    ∃ j y row, i < j ∧ j < k ∧ ρ.Performs j c (updateOf m p) y (.ok (some m)) ∧
      ρ.row j m = some row ∧ ρ.row k m = some row ∧ row.version = p.version ∧
      ρ.row (k + 1) m = some (updatedMessage row p.content p.title) := by
  obtain ⟨ws, hik, hs, hc⟩ := commit_called he hi hp
  cases hc with
  | updateMessage hij hjk hrow hv hmax hp' =>
    rename_i j y row
    have hid : row.id = m := lookup_key hrow
    refine ⟨j, y, row, by omega, hjk, hp', hrow, ?_, hv, ?_⟩
    · exact pending_update hjk.le hp.within.le hrow
        (by rw [hs.pending]; exact List.mem_singleton_self _)
    · rw [Run.row, committed hp, commit_row, hs.pending, lastMessage_singleton,
        message?_put (m := updatedMessage row p.content p.title) hid]
      rfl

/-- A committed row that becomes another one was updated by an `update_message` call, which
had read exactly the row it replaces. -/
theorem row_updated (hk : k < ρ.length) {old new : Message} (hold : ρ.row k m = some old)
    (hnew : ρ.row (k + 1) m = some new) (hne : new ≠ old) :
    ∃ c p i j x y r, i < j ∧ j < k ∧ ρ.event i = .call c (.updateMessage m p) ∧
      ρ.Performs j c (updateOf m p) x (.ok (some m)) ∧ ρ.Performs k c .commit y r ∧
      ρ.row j m = some old ∧ old.version = p.version ∧
      new = updatedMessage old p.content p.title := by
  rcases run_db ρ hk with hdb | ⟨c, y, r, hp, hw⟩
  · rw [Run.row, hdb] at hnew
    exact absurd (Option.some.inj (hnew.symm.trans hold)) hne
  rw [Run.row, hw, commit_row] at hnew
  cases hl : lastMessage ((ρ.store k).pending c) m with
  | none => rw [hl] at hnew; exact absurd (Option.some.inj (hnew.symm.trans hold)) hne
  | some last =>
    rw [hl] at hnew
    obtain rfl : last = some new := hnew
    obtain ⟨z, hz, hzm⟩ := lastMessage_written hl
    obtain ⟨new', rfl, hid, hn⟩ | ⟨_, hn⟩ := message?_some hzm
    swap
    · cases hn
    obtain rfl := Option.some.inj hn
    have hprec := ((run_consistent ρ hk.le).guarded c _ hz).2.2 old (by rw [hid]; exact hold)
    have hpos : 0 < new.version := Nat.lt_of_le_of_lt (Nat.zero_le _) hprec.version
    obtain ⟨q, i, ws, hi, he, hs, hc⟩ := commit_origin hp
    have hz' := hz
    rw [hs.pending] at hz'
    cases hc with
    | createMessage hv _ _ _ => cases List.mem_singleton.mp hz'; omega
    | updateMessage hij hjk hrow hv hmax hp' =>
      rename_i m' p j x row
      cases List.mem_singleton.mp hz'
      have hm : m' = m := (lookup_key hrow).symm.trans hid
      subst hm
      have hsame := pending_update hjk.le hk.le hrow hz
      obtain rfl : old = row := Option.some.inj (hold.symm.trans hsame)
      exact ⟨c, p, i, j, x, y, r, by omega, hjk, he, hp', hp, hrow, hv, rfl⟩
    | deleteMessage => cases List.mem_singleton.mp hz'
    | deleteNoMessage => cases hz'
    | createAuthor => cases List.mem_singleton.mp hz'
    | updateAuthor => cases List.mem_singleton.mp hz'
    | deleteAuthor => cases List.mem_singleton.mp hz'
    | deleteNoAuthor => cases hz'
    | seedNothing => cases hz'
    | seedMessage hv => cases List.mem_singleton.mp hz'; omega
    | seedBoth _ _ _ hv =>
      rcases List.mem_cons.mp hz' with h | h
      · cases h
      · cases List.mem_singleton.mp h; omega

end Changes

end Commits
