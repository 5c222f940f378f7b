import MessageService.AuthorOrders
import MessageService.AuthorTraces
import MessageService.Commits
import MessageService.Library.Registers

/-! Concurrent updates of one author.
An UPDATE sets the fields it is given in the row it locks, and the lock keeps the row until the
commit. So each field holds what was set last, and updates of different fields commute. -/
namespace AuthorMerges

open Programs Interleaving Registers Texts Models Schemas MessageJson KeyedTables Postgres
open Services ServiceRuns Transitions Statements Consistency Histories Footprints Traces Commits
open AuthorOrders

section Rows

variable [JsonCodec] {s : SoundDb} {ρ : Run s} {a : Uuid} {c k n : ℕ} {p : AuthorUpdate}

/-- Call `c` of `update_author` takes effect at `k`: what it has written is committed. -/
structure Takes (ρ : Run s) (a : Uuid) (c : ℕ) (p : AuthorUpdate) (k : ℕ) : Prop where
  called : ∃ i < k, ρ.event i = .call c (.updateAuthor a p)
  commits : ∃ x r, ρ.Performs k c .commit x r
  stored : ρ.store (k + 1) = (ρ.store k).commit c

/-- At `k` an update takes effect that sets the field to `v`. -/
def Sets (ρ : Run s) (a : Uuid) (field : AuthorUpdate → Option Text) (k : ℕ) (v : Text) : Prop :=
  ∃ c p, Takes ρ a c p k ∧ field p = some v

/-- No call of the run deletes the author. -/
def Spared (ρ : Run s) (a : Uuid) : Prop :=
  ∀ k < ρ.length, ∀ c, ρ.event k ≠ .call c (.deleteAuthor a)

theorem takes_updating (h : Takes ρ a c p k) : ∃ i j row, Updating ρ i k c a p j row := by
  obtain ⟨i, hi, he⟩ := h.called
  obtain ⟨x, r, hp⟩ := h.commits
  obtain ⟨_, hs, K, hr⟩ := performs_reached (hi.trans hp.within) he hp
  obtain ⟨j, row, hupdating⟩ := updateAuthor_writes hs hp.within.le hr
  exact ⟨_, j, row, hupdating⟩

/-- What an update commits is the row as it stands at the commit, with the given fields set. -/
theorem takes_writes (h : Takes ρ a c p k) : ∃ row, ρ.author k a = some row ∧
    (ρ.store k).pending c = [.putAuthor (updatedAuthor row p.name p.email)] := by
  obtain ⟨x, r, hcommit⟩ := h.commits
  obtain ⟨i, j, row, hupdating⟩ := takes_updating h
  obtain ⟨y, hp⟩ := hupdating.updates
  have hid : (updatedAuthor row p.name p.email).id = a := (lookup_key hupdating.read : row.id = a)
  have hkept := author_kept hupdating.quiet hupdating.before hcommit.within.le
    (by rw [hupdating.pending]; exact List.mem_singleton_self _)
  rw [hid, Run.author, Run.author, performs_db hp (by simp)] at hkept
  exact ⟨row, hkept.trans hupdating.read, hupdating.session.pending⟩

/-- What takes effect can be stored. -/
theorem takes_storing (h : Takes ρ a c p k) : Storing p := by
  obtain ⟨_, _, _, hupdating⟩ := takes_updating h
  exact hupdating.fits.1

theorem takes_row (h : Takes ρ a c p k) : ∃ row, ρ.author k a = some row ∧
    ρ.author (k + 1) a = some (updatedAuthor row p.name p.email) := by
  obtain ⟨row, hrow, hw⟩ := takes_writes h
  have hid : (updatedAuthor row p.name p.email).id = a := (lookup_key hrow : row.id = a)
  refine ⟨row, hrow, ?_⟩
  rw [Run.author, h.stored, commit_author, hw, lastAuthor_singleton, author?_put hid]
  rfl

/-- The other rows do not change where an update takes effect. -/
theorem takes_frame (h : Takes ρ a c p k) : (∀ b, b ≠ a → ρ.author (k + 1) b = ρ.author k b) ∧
    (ρ.store (k + 1)).db.messages = (ρ.store k).db.messages := by
  obtain ⟨row, hrow, hw⟩ := takes_writes h
  have hid : (updatedAuthor row p.name p.email).id = a := (lookup_key hrow : row.id = a)
  constructor
  · intro b hb
    rw [Run.author, h.stored, commit_author, hw, lastAuthor_singleton,
      author?_put_ne (by rw [hid]; exact hb.symm)]
    rfl
  · rw [h.stored, commit_db, World.view, hw]
    rfl

/-- One effect at an instant. -/
theorem takes_unique {c' : ℕ} {p' : AuthorUpdate} (h : Takes ρ a c p k) (h' : Takes ρ a c' p' k) :
    p = p' := by
  obtain ⟨i, hi, he⟩ := h.called
  obtain ⟨i', hi', he'⟩ := h'.called
  obtain ⟨x, r, hp⟩ := h.commits
  obtain ⟨x', r', hp'⟩ := h'.commits
  have hevent := hp.event
  rw [hp'.event] at hevent
  obtain ⟨rfl, _⟩ : c' = c ∧ x' = x := by simpa using hevent
  obtain rfl := ρ.call_unique (hi.trans hp.within) (hi'.trans hp.within) he he'
  rw [he] at he'
  injection he' with _ hq
  injection hq

/-- Where no update takes effect the row stays, whatever else is committed. -/
theorem untaken_row (hk : k < ρ.length) (hspared : Spared ρ a)
    (hpresent : ∀ l ≤ k, ∃ row, ρ.author l a = some row) (hnone : ∀ c p, ¬Takes ρ a c p k) :
    ρ.author (k + 1) a = ρ.author k a := by
  rcases run_db ρ hk with hdb | ⟨c, x, r, hp, hstored⟩
  · rw [Run.author, hdb]
    rfl
  obtain ⟨q, i, ws, hi, he, hs, hc⟩ := commit_origin hp
  have hfresh : ∀ {j} {b : Author}, j < k → ρ.author j b.id = none → b.id ≠ a := by
    rintro j b hj hb rfl
    obtain ⟨row, hrow⟩ := hpresent j hj.le
    rw [hrow] at hb
    cases hb
  have hunwritten : lastAuthor ws a = none := by
    cases hc with
    | createMessage | updateMessage | deleteMessage | deleteNoMessage | deleteNoAuthor
    | seedNothing | seedMessage => rfl
    | createAuthor _ hjk hb _ _ =>
      exact (lastAuthor_singleton ..).trans (author?_put_ne (hfresh hjk hb))
    | @updateAuthor id p j row hij hjk hrow hfits =>
      rw [lastAuthor_singleton]
      apply author?_put_ne
      intro hid
      obtain rfl : id = a := (lookup_key hrow : row.id = id).symm.trans hid
      exact hnone c p ⟨⟨i, hi, he⟩, ⟨x, r, hp⟩, hstored⟩
    | @deleteAuthor id =>
      rw [lastAuthor_singleton]
      apply author?_drop_ne
      rintro rfl
      exact hspared i (hi.trans hk) c he
    | seedBoth _ hjk hb _ =>
      simpa [lastAuthor, Write.author?] using (hfresh hjk hb).symm
  rw [Run.author, hstored, commit_author, hs.pending, hunwritten]
  rfl

/-- The step lemma: the row takes the fields of one update, or it stays. -/
theorem row_step (hk : k < ρ.length) (hspared : Spared ρ a)
    (hpresent : ∀ l ≤ k, ∃ row, ρ.author l a = some row) {row : Author}
    (hrow : ρ.author k a = some row) :
    (∃ c p, Takes ρ a c p k ∧ ρ.author (k + 1) a = some (updatedAuthor row p.name p.email)) ∨
      ((∀ c p, ¬Takes ρ a c p k) ∧ ρ.author (k + 1) a = some row) := by
  by_cases htakes : ∃ c p, Takes ρ a c p k
  · obtain ⟨c, p, htakes⟩ := htakes
    obtain ⟨row', hrow', hnew⟩ := takes_row htakes
    obtain rfl := Option.some.inj (hrow.symm.trans hrow')
    exact .inl ⟨c, p, htakes, hnew⟩
  · have hnone : ∀ c p, ¬Takes ρ a c p k := fun c p h => htakes ⟨c, p, h⟩
    exact .inr ⟨hnone, (untaken_row hk hspared hpresent hnone).trans hrow⟩

theorem present (hspared : Spared ρ a) (h0 : ∃ row, ρ.author 0 a = some row) (hn : n ≤ ρ.length) :
    ∀ l ≤ n, ∃ row, ρ.author l a = some row := by
  induction n with
  | zero =>
    intro l hl
    obtain rfl := Nat.le_zero.mp hl
    exact h0
  | succ n ih =>
    have hprev := ih (by omega)
    intro l hl
    rcases Nat.le_succ_iff.mp hl with hl | rfl
    · exact hprev l hl
    · obtain ⟨row, hrow⟩ := hprev n le_rfl
      rcases row_step hn hspared hprev hrow with ⟨_, _, _, hnew⟩ | ⟨_, hnew⟩
      · exact ⟨_, hnew⟩
      · exact ⟨_, hnew⟩

/-- Every field holds what the last effective update that was given it has set. -/
theorem last_set {field : AuthorUpdate → Option Text} (value : Author → Text)
    (hfield : ∀ row p, Storing p →
      value (updatedAuthor row p.name p.email) = (field p).getD (value row))
    (hspared : Spared ρ a) {row₀ row : Author} (h0 : ρ.author 0 a = some row₀)
    (hn : n ≤ ρ.length) (hrow : ρ.author n a = some row) :
    LastWritten (Sets ρ a field) n (value row₀) (value row) := by
  have hpresent := present hspared ⟨row₀, h0⟩ hn
  let reg k := ((ρ.author k a).map value).getD []
  have hreg : ∀ {k row}, ρ.author k a = some row → reg k = value row := by
    intro k row hk
    simp only [reg, hk]
    rfl
  rw [← hreg h0, ← hreg hrow]
  apply lastWritten_run
  intro k hk
  obtain ⟨old, hold⟩ := hpresent k hk.le
  rcases row_step (hk.trans_le hn) hspared (fun l hl => hpresent l (by omega)) hold with
    ⟨c, p, htakes, hnew⟩ | ⟨hnone, hnew⟩
  · rw [hreg hnew, hreg hold, hfield _ _ (takes_storing htakes)]
    cases hset : field p with
    | some v => exact .inl ⟨c, p, htakes, hset⟩
    | none =>
      refine .inr ⟨?_, rfl⟩
      rintro v ⟨c', p', htakes', hset'⟩
      rw [takes_unique htakes' htakes, hset] at hset'
      cases hset'
  · rw [hreg hnew, hreg hold]
    exact .inr ⟨fun v ⟨c, p, htakes, _⟩ => hnone c p htakes, rfl⟩

theorem created_kept (hspared : Spared ρ a) {row₀ row : Author} (h0 : ρ.author 0 a = some row₀)
    (hn : n ≤ ρ.length) (hrow : ρ.author n a = some row) : row.createdAt = row₀.createdAt := by
  induction n generalizing row with
  | zero =>
    obtain rfl := Option.some.inj (h0.symm.trans hrow)
    rfl
  | succ n ih =>
    have hpresent := present hspared ⟨row₀, h0⟩ (by omega : n ≤ ρ.length)
    obtain ⟨old, hold⟩ := hpresent n le_rfl
    have hcreated := ih (by omega) hold
    rcases row_step hn hspared hpresent hold with ⟨_, _, _, hnew⟩ | ⟨_, hnew⟩
    · obtain rfl := Option.some.inj (hrow.symm.trans hnew)
      exact hcreated
    · obtain rfl := Option.some.inj (hrow.symm.trans hnew)
      exact hcreated

/-- A successful call that changes something has taken effect. -/
theorem succeeded_takes {res : Result} (h : ρ.Ended c (.updateAuthor a p) (.ok res) n)
    (hchanges : ¬(p.name = none ∧ p.email = none)) : ∃ k < n, Takes ρ a c p k := by
  obtain ⟨i, hi, he, hs, hr⟩ := ended_started h
  cases AuthorTraces.updateAuthor_ended hs h.1 hr with
  | read _ _ hempty => exact absurd hempty hchanges
  | @updated j k x x' row hij hjk hkn _ _ _ _ hp _ =>
    exact ⟨k, hkn, ⟨i, by omega, he⟩, ⟨x', _, hp⟩, committed hp⟩

/-- Without faults a call that has taken effect does not end with an error. -/
theorem takes_succeeds {o : Outcome} (hf : ρ.Faultless c) (h : ρ.Ended c (.updateAuthor a p) o n)
    (htakes : Takes ρ a c p k) : ∃ res, o = .ok res := by
  obtain ⟨i, hi, he, hs, hr⟩ := ended_started h
  obtain ⟨_, j, row, hupdating⟩ := takes_updating htakes
  obtain ⟨x, hp⟩ := hupdating.updates
  have hdetermined : ∀ {j' x' r}, ρ.Performs j' c (.updateAuthor a p.name p.email) x' r →
      r = .ok (some (updatedAuthor row p.name p.email)) := by
    intro j' x' r hp'
    obtain rfl := effect_once hp hp'
    exact (hp'.reply_unique hp).1
  cases AuthorTraces.updateAuthor_ended hs h.1 hr with
  | read | updated => exact ⟨_, rfl⟩
  | readNothing _ _ hempty => exact absurd hempty hupdating.changes
  | rejected _ _ _ hp' => cases hdetermined hp'
  | absent _ _ _ hp' => cases hdetermined hp'
  | failed hfailed _ =>
    have honly : (body (.updateAuthor a p)).Only
        fun e => Fallible e → e = .updateAuthor a p.name p.email :=
      awaits_bind (awaits_updateAuthor (fun h => h.elim) (fun _ => rfl) (fun h => h.elim)
        (fun h => h.elim)) fun _ => awaits_pure _
    obtain ⟨_, _, _, _, hp'⟩ := failed_at hf (hi.trans_le h.1) he honly hfailed
    cases hdetermined hp'

/-- No step of the call touches another row. -/
theorem call_frame {i : ℕ} (hi : i < ρ.length) (he : ρ.event i = .call c (.updateAuthor a p))
    (hk : k < ρ.length) (hc : (ρ.event k).caller = c) :
    (∀ b, b ≠ a → ρ.author (k + 1) b = ρ.author k b) ∧
      (ρ.store (k + 1)).db.messages = (ρ.store k).db.messages := by
  rcases run_db ρ hk with hdb | ⟨d, x, r, hp, hstored⟩
  · constructor
    · intro b _
      rw [Run.author, hdb]
      rfl
    · rw [hdb]
  · obtain rfl : d = c := by rw [hp.event] at hc; exact hc
    exact takes_frame ⟨⟨i, performs_after hi he hp, he⟩, ⟨x, r, hp⟩, hstored⟩

end Rows

section Merges

variable [JsonCodec] {s : SoundDb}

/-- What a run has made of the row `row₀` by `n`. -/
structure Merged (ρ : Run s) (a : Uuid) (n : ℕ) (row₀ row : Author) : Prop where
  id : row.id = row₀.id
  created : row.createdAt = row₀.createdAt
  name : LastWritten (Sets ρ a AuthorUpdate.name) n (text row₀.name) (text row.name)
  email : LastWritten (Sets ρ a AuthorUpdate.email) n (text row₀.email) (text row.email)

/-- Updates of `a` never revert each other, whatever else runs among them. Without faults the
updates that take effect are those that succeed. -/
structure MergesUpdates (ρ : Run s) (a : Uuid) : Prop where
  merged : Spared ρ a → ∀ row₀, ρ.author 0 a = some row₀ → ∀ n ≤ ρ.length,
    ∃ row, ρ.author n a = some row ∧ Merged ρ a n row₀ row
  succeeded : ∀ c p res n, ρ.Ended c (.updateAuthor a p) (.ok res) n →
    ¬(p.name = none ∧ p.email = none) → ∃ k < n, Takes ρ a c p k
  failed : ∀ c p exc n, ρ.Faultless c → ρ.Ended c (.updateAuthor a p) (.error exc) n →
    ∀ k, ¬Takes ρ a c p k
  others : ∀ c p i k, i < ρ.length → ρ.event i = .call c (.updateAuthor a p) → k < ρ.length →
    (ρ.event k).caller = c → (∀ b, b ≠ a → ρ.author (k + 1) b = ρ.author k b) ∧
      (ρ.store (k + 1)).db.messages = (ρ.store k).db.messages
  commute : ∀ n ≤ ρ.length, ∀ c d f p q, (ρ.state n).calls c = none →
    (ρ.state n).calls d = none → Apart p q →
    (inTurn (ρ.store n) c d f (.updateAuthor a p) (.updateAuthor a q)).map verdicts =
      ((inTurn (ρ.store n) d c f (.updateAuthor a q) (.updateAuthor a p)).map verdicts).map
        fun r => (r.2.1, r.1, r.2.2)
  ends : ∀ n ≤ ρ.length, ∀ c d f p q, (ρ.state n).calls c = none →
    (ρ.state n).calls d = none → (ρ.store n).locks.held = [] →
    (inTurn (ρ.store n) c d f (.updateAuthor a p) (.updateAuthor a q)).isSome

theorem resting_unstarted {ρ : Run s} {n c : ℕ} (hn : n ≤ ρ.length)
    (h : (ρ.state n).calls c = none) : Resting (ρ.store n) c :=
  ⟨pending_unstarted h hn, unlocked_unstarted h hn⟩

theorem merges_updates (ρ : Run s) (a : Uuid) : MergesUpdates ρ a := by
  constructor
  · intro hspared row₀ h0 n hn
    obtain ⟨row, hrow⟩ := present hspared ⟨row₀, h0⟩ hn n le_rfl
    refine ⟨row, hrow, ?_⟩
    constructor
    · exact (lookup_key hrow : row.id = a).trans (lookup_key h0 : row₀.id = a).symm
    · exact created_kept hspared h0 hn hrow
    · exact last_set (fun a => text a.name) (fun _ _ h => text_getD fun t ht => (h.1 t ht).2.1)
        hspared h0 hn hrow
    · exact last_set (fun a => text a.email) (fun _ _ h => text_getD fun t ht => (h.2 t ht).2.1)
        hspared h0 hn hrow
  · intro c p res n h hchanges
    exact succeeded_takes h hchanges
  · intro c p exc n hf h k htakes
    obtain ⟨res, hres⟩ := takes_succeeds hf h htakes
    cases hres
  · intro c p i k hi he hk hc
    exact call_frame hi he hk hc
  · intro n hn c d f p q hc hd hapart
    exact orders_agree hapart (resting_unstarted hn hc) (resting_unstarted hn hd) f a
  · intro n hn c d f p q hc hd hfree
    exact inTurn_ends (resting_unstarted hn hc) (resting_unstarted hn hd) hfree f a p q

end Merges

end AuthorMerges
