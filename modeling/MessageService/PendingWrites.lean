import MessageService.Commits

/-! Where an uncommitted write comes from, and what it is worth at the commit.
A write enters its session at one statement and stays as it is until the session ends its
transaction. The row it is of is locked since, so at the commit it is the row it was. -/
namespace PendingWrites

open Interleaving Texts Models Schemas KeyedTables MessageJson Postgres Services ServiceRuns
open Transitions Statements Consistency Histories Footprints Traces

/-- A statement of session `c` that writes, on the rows the session sees then. -/
inductive Wrote (w : World) (c : ℕ) : Effect → Write → Prop
  | insertAuthor {name email a} : a.id ∉ w.issued → a.name = string name → a.email = string email →
      Wrote w c (.insertAuthor name email) (.putAuthor a)
  | upsertAuthor {name email a} : a.id ∉ w.issued → a.name = string name → a.email = string email →
      Wrote w c (.upsertAuthor name email) (.putAuthor a)
  | updateAuthor {id name email row} : (w.view c).authors.lookup id = some row →
      Wrote w c (.updateAuthor id name email) (.putAuthor (updatedAuthor row name email))
  | deleteAuthor {id row} : (w.view c).authors.lookup id = some row →
      Wrote w c (.deleteAuthor id) (.dropAuthor id)
  | insertMessage {title content m} : m.id ∉ w.issued → m.title = string title →
      m.content = string content → m.version = 0 →
      Wrote w c (.insertMessage title content m.authorId) (.putMessage m)
  | updateMessage {id version content title row} : (w.view c).messages.lookup id = some row →
      Wrote w c (.updateMessage id version content title)
        (.putMessage (updatedMessage row content title))
  | deleteMessage {id row} : (w.view c).messages.lookup id = some row →
      Wrote w c (.deleteMessage id) (.dropMessage id)

section Statements

variable {c : ℕ} {f : Fresh} {w w' : World}

/-- What one step leaves of the writes of its session. -/
inductive Leaves (w w' : World) (c : ℕ) (e : Effect) : Prop
  | same : w'.pending c = w.pending c → Leaves w w' c e
  | nothing : w'.pending c = [] → Leaves w w' c e
  | more {x} : w'.pending c = w.pending c ++ [x] → Wrote w c e x → Leaves w w' c e

theorem execute_leaves {e : Effect} {r : Reply e} (h : execute c f w e = some (r, w')) :
    Leaves w w' c e := by
  cases e with
  | insertAuthor name email =>
    rcases r with exc | a
    · exact .nothing (insertAuthor_error h).1
    · obtain ⟨rfl, hfresh, _, hw⟩ := insertAuthor_ok h
      exact .more hw (.insertAuthor hfresh rfl rfl)
  | upsertAuthor name email =>
    rcases r with exc | _
    · exact .nothing (upsertAuthor_error h).1
    · rcases upsertAuthor_ok h with ⟨_, rfl⟩ | ⟨hfresh, _, hw⟩
      · exact .same rfl
      · exact .more hw (.upsertAuthor hfresh rfl rfl)
  | updateAuthor id name email =>
    rcases r with exc | a
    · exact .nothing (updateAuthor_error h).1
    · rcases updateAuthor_ok h with ⟨_, _, rfl⟩ | ⟨row, hrow, _, _, hw⟩
      · exact .same rfl
      · exact .more hw (.updateAuthor hrow)
  | deleteAuthor id =>
    rcases r with exc | a
    · exact .nothing (deleteAuthor_error h).1
    · rcases deleteAuthor_ok h with ⟨_, _, rfl⟩ | ⟨_, ⟨row, hrow⟩, _, hw⟩
      · exact .same rfl
      · exact .more hw (.deleteAuthor hrow)
  | insertMessage title content authorId =>
    rcases r with exc | m
    · exact .nothing (insertMessage_error h).1
    · obtain ⟨rfl, hfresh, _, hw⟩ := insertMessage_ok h
      exact .more hw (.insertMessage (m := ⟨f.id, string title, string content, authorId, f.now, 0⟩)
        hfresh rfl rfl rfl)
  | updateMessage id version content title =>
    rcases r with exc | a
    · exact .nothing (updateMessage_error h).1
    · rcases updateMessage_ok h with ⟨_, rfl, _⟩ | ⟨row, _, hrow, _, _, hw⟩
      · exact .same rfl
      · exact .more hw (.updateMessage hrow)
  | deleteMessage id =>
    rcases r with exc | a
    · exact (execute_error h).elim
    · rcases deleteMessage_ok h with ⟨_, rfl, _⟩ | ⟨row, _, hrow, hw⟩
      · exact .same rfl
      · exact .more hw (.deleteMessage hrow)
  | advisoryXactLock key =>
    have h : answer c (.advisoryXactLock key) (.proceed f) w = some (r, w') := h
    exact .same (congrFun (silent_pending (e := .advisoryXactLock key) trivial h) c)
  | commit => cases h; exact .nothing (by rw [commit_pending, if_pos rfl])
  | rollback => cases h; exact .nothing (by rw [rollback_pending, if_pos rfl])
  | selectAuthor | selectMessagesOf | selectAuthors | countAuthors | selectMessage
  | selectMessageId | selectMessages | countMessages | selectAuthorIds | cacheGet | cacheSet
  | cacheEvict => cases h; exact .same rfl

theorem answer_leaves {e : Effect} {x : Choice} {r : Reply e}
    (h : answer c e x w = some (r, w')) : Leaves w w' c e := by
  cases x with
  | proceed f => exact execute_leaves h
  | raise exc => cases h; exact .same rfl
  | raiseAfter f exc =>
    obtain ⟨⟨r', u⟩, hu, h⟩ := Option.map_eq_some_iff.mp h
    cases h
    exact execute_leaves hu

end Statements

section Runs

variable [JsonCodec] {s : SoundDb} {ρ : Run s} {c j k : ℕ}

/-- Session `c` had the writes `ws` when its statement at `j` added `x`, and these are its
writes up to `k`. -/
structure Since (ρ : Run s) (c j k : ℕ) (ws : List Write) (x : Write) : Prop where
  before : j < k
  wrote : ∃ e y r, ρ.Performs j c e y r ∧ Wrote (ρ.store j) c e x
  pending : (ρ.store j).pending c = ws
  kept : ∀ t, j < t → t ≤ k → (ρ.store t).pending c = ws ++ [x]

/-- What an instant leaves of the writes of a session that does not act. -/
theorem pending_other (hk : k < ρ.length) (hc : (ρ.event k).caller ≠ c) :
    (ρ.store (k + 1)).pending c = (ρ.store k).pending c := by
  obtain ⟨d, e, hd, ht⟩ := run_transition ρ hk
  exact transition_pending ht fun h => hc (hd.trans h.symm)

/-- Every uncommitted write was added by a statement of its session, and has stayed since. -/
theorem pending_since {ws : List Write} {x : Write} (hk : k ≤ ρ.length)
    (h : (ρ.store k).pending c = ws ++ [x]) : ∃ j, Since ρ c j k ws x := by
  induction k with
  | zero =>
    rw [Run.store, ρ.start] at h
    exact absurd h.symm (by simp [World.ofDb])
  | succ k ih =>
    have earlier : (ρ.store k).pending c = ws ++ [x] → ∃ j, Since ρ c j (k + 1) ws x := by
      intro hprev
      obtain ⟨j, hsince⟩ := ih (Nat.le_of_succ_le hk) hprev
      refine ⟨j, by have := hsince.before; omega, hsince.wrote, hsince.pending, ?_⟩
      intro t hjt htk
      rcases Nat.le_succ_iff.mp htk with ht | rfl
      · exact hsince.kept t hjt ht
      · exact h
    rcases ρ.step_cases hk with ⟨d, q, _, hs⟩ | ⟨d, e, y, r, hp⟩ | ⟨d, he, hs⟩
    · exact earlier (by rw [← h, Run.store, Run.store, hs])
    · by_cases hd : d = c
      · subst hd
        cases answer_leaves hp.answer with
        | same hsame => exact earlier (hsame.symm.trans h)
        | nothing hnone => exact absurd (hnone.symm.trans h) (by simp)
        | more hmore hwrote =>
          obtain ⟨rfl, hx⟩ := List.append_inj' (hmore.symm.trans h) rfl
          obtain rfl := List.singleton_inj.mp hx
          refine ⟨k, Nat.lt_succ_self k, ⟨e, y, r, hp, hwrote⟩, rfl, ?_⟩
          intro t hkt htk
          obtain rfl : t = k + 1 := by omega
          exact h
      · refine earlier ?_
        rw [← pending_other hk fun hc => hd (by rw [hp.event] at hc; exact hc)]
        exact h
    · by_cases hd : d = c
      · subst hd
        rw [Run.store, hs] at h
        have hnone : ((ρ.state k).shared.rollback d).pending d = [] := by
          rw [rollback_pending, if_pos rfl]
        exact absurd (hnone.symm.trans h) (by simp)
      · refine earlier ?_
        rw [← pending_other hk fun hc => hd (by rw [he] at hc; exact hc)]
        exact h

theorem sole_since {x : Write} (hk : k ≤ ρ.length) (h : (ρ.store k).pending c = [x]) :
    ∃ j, Since ρ c j k [] x :=
  pending_since hk h

/-- Write `x` is uncommitted after `j`, up to `k`. -/
def Uncommitted (ρ : Run s) (c j k : ℕ) (x : Write) : Prop :=
  ∀ t, j < t → t ≤ k → x ∈ (ρ.store t).pending c

variable {ws : List Write} {x : Write} {id : Uuid}

theorem Since.uncommitted (h : Since ρ c j k ws x) : Uncommitted ρ c j k x := by
  intro t hjt htk
  rw [h.kept t hjt htk]
  simp

/-- While a write is uncommitted only other sessions commit. -/
theorem Uncommitted.step {t : ℕ} (h : Uncommitted ρ c j k x) (hk : k ≤ ρ.length) (hjt : j ≤ t)
    (htk : t < k) : (ρ.store (t + 1)).db = (ρ.store t).db ∨
      ∃ d, c ≠ d ∧ x ∈ (ρ.store t).pending c ∧ ρ.store (t + 1) = (ρ.store t).commit d := by
  rcases run_db ρ (htk.trans_le hk) with hdb | ⟨d, y, r, hp, hstored⟩
  · exact Or.inl hdb
  have hmem := h (t + 1) (by omega) htk
  rw [hstored, commit_pending] at hmem
  split at hmem
  · cases hmem
  · rename_i hcd
    exact Or.inr ⟨d, hcd, hmem, hstored⟩

/-- The row of an uncommitted write is the row its statement saw committed. -/
theorem Uncommitted.message_kept {r : Option Message} (h : Uncommitted ρ c j k x) (hjk : j ≤ k)
    (hk : k ≤ ρ.length) (hx : x.message? id = some r) : ρ.row k id = ρ.row j id := by
  have upTo : ∀ t, j ≤ t → t ≤ k → ρ.row t id = ρ.row j id := by
    intro t hjt
    induction t, hjt using Nat.le_induction with
    | base => exact fun _ => rfl
    | succ t hjt ih =>
      intro htk
      rw [← ih (by omega)]
      rcases h.step hk hjt htk with hdb | ⟨d, hcd, hpending, hstored⟩
      · rw [Run.row, hdb, Run.row]
      · have hguarded := (run_consistent ρ (by omega : t ≤ ρ.length)).guarded
        rw [Run.row, hstored, commit_row,
          lastMessage_none (hguarded d) hcd (writeLocked_message (hguarded c x hpending) hx)]
        rfl
  exact upTo k hjk le_rfl

theorem Uncommitted.author_kept {r : Option Author} (h : Uncommitted ρ c j k x) (hjk : j ≤ k)
    (hk : k ≤ ρ.length) (hx : x.author? id = some r) : ρ.author k id = ρ.author j id := by
  have upTo : ∀ t, j ≤ t → t ≤ k → ρ.author t id = ρ.author j id := by
    intro t hjt
    induction t, hjt using Nat.le_induction with
    | base => exact fun _ => rfl
    | succ t hjt ih =>
      intro htk
      rw [← ih (by omega)]
      rcases h.step hk hjt htk with hdb | ⟨d, hcd, hpending, hstored⟩
      · rw [Run.author, hdb, Run.author]
      · have hguarded := (run_consistent ρ (by omega : t ≤ ρ.length)).guarded
        rw [Run.author, hstored, commit_author,
          lastAuthor_none (hguarded d) hcd (writeLocked_author (hguarded c x hpending) hx)]
        rfl
  exact upTo k hjk le_rfl

/-- An inserted row is of no committed row until its commit. -/
theorem Uncommitted.message_new {m : Message} (h : Uncommitted ρ c j k (.putMessage m))
    (hjk : j ≤ k) (hk : k ≤ ρ.length) (hnew : m.id ∉ (ρ.store j).issued) :
    ρ.row k m.id = none := by
  rw [h.message_kept hjk hk (message?_put rfl)]
  cases hrow : ρ.row j m.id with
  | none => rfl
  | some row =>
    exact absurd ((run_consistent ρ (hjk.trans hk)).message_issued m.id row hrow) hnew

theorem Uncommitted.author_new {a : Author} (h : Uncommitted ρ c j k (.putAuthor a))
    (hjk : j ≤ k) (hk : k ≤ ρ.length) (hnew : a.id ∉ (ρ.store j).issued) :
    ρ.author k a.id = none := by
  rw [h.author_kept hjk hk (author?_put rfl)]
  exact Commits.author_fresh (hjk.trans hk) hnew

/-- A call of the API has written nothing before its one statement that writes. -/
theorem pending_before {i : ℕ} {q : Request} {e : Effect} {y} {r : Reply e} (hi : i < ρ.length)
    (he : ρ.event i = .call c q) (hq : q ≠ .seedInitialMessage) (hp : ρ.Performs j c e y r)
    (hrank : rank e = 5) : (ρ.store j).pending c = [] := by
  obtain ⟨_, hs, K, hr⟩ := performs_reached hi he hp
  have hsilent := silent_before hq
  rw [← hrank] at hsilent
  exact (unwritten hr (body_climbs q) hsilent hp.within.le hs).pending

/-- Between the statement that writes and the commit the call only reads. -/
theorem pending_until {e : Effect} {y z} {r : Reply e} (hp : ρ.Performs j c e y r)
    (hrank : rank e = 5) (hcommit : ρ.Performs k c .commit z (.ok ())) (hjk : j < k) :
    (ρ.store k).pending c = (ρ.store (j + 1)).pending c := by
  have upTo : ∀ t, j + 1 ≤ t → t ≤ k → (ρ.store t).pending c = (ρ.store (j + 1)).pending c := by
    intro t hjt
    induction t, hjt using Nat.le_induction with
    | base => exact fun _ => rfl
    | succ t hjt ih =>
      intro htk
      have ht : t < ρ.length := htk.trans hcommit.within.le
      rw [← ih (by omega)]
      by_cases hcaller : (ρ.event t).caller = c
      swap
      · exact pending_other ht hcaller
      rcases ρ.step_cases ht with ⟨d, q, _, hs⟩ | ⟨d, e', y', r', hp'⟩ | ⟨d, he, _⟩
      · rw [Run.store, Run.store, hs]
      · obtain rfl : d = c := by rw [hp'.event] at hcaller; exact hcaller
        have hafter := effect_order hp hp' (by omega)
        have hbefore := effect_order hp' hcommit (by omega)
        rw [hrank] at hafter
        have hsilent : Silent e' := by
          cases e' with
          | selectMessage => trivial
          | _ => simp [rank] at hafter hbefore
        exact congrFun (silent_pending hsilent hp'.answer) d
      · obtain rfl : d = c := by rw [he] at hcaller; exact hcaller
        have := ρ.closed_before ht he hcommit
        omega
  exact upTo k hjk le_rfl

/-- What a call of the API commits is what its one statement wrote. -/
theorem commits_write {i : ℕ} {q : Request} {e : Effect} {y z} {r : Reply e} (hi : i < ρ.length)
    (he : ρ.event i = .call c q) (hq : q ≠ .seedInitialMessage) (hp : ρ.Performs j c e y r)
    (hrank : rank e = 5) (hcommit : ρ.Performs k c .commit z (.ok ())) (hjk : j < k)
    (hw : (ρ.store (j + 1)).pending c = (ρ.store j).pending c ++ [x]) :
    (ρ.store k).pending c = [x] := by
  rw [pending_until hp hrank hcommit hjk, hw, pending_before hi he hq hp hrank]
  rfl

end Runs

end PendingWrites
