import MessageService.ServiceRuns
import MessageService.Statements
import MessageService.Consistency

/-! Histories of rows over a run.
Once a message row is committed, every later committed row of its id is the same row or a
later version of it, until it is deleted and its id is never seen again. So the pair of id
and version determines the row, whenever the two were read. -/
namespace Histories

open Interleaving Models Schemas KeyedTables MessageJson Postgres Services ServiceRuns
open Transitions Statements Consistency

section Rows

variable {w w' : World} {c : ℕ} {e : Effect}

/-- The id was given to a message that is not committed and that no session writes. -/
structure Dead (w : World) (id : Uuid) : Prop where
  issued : id ∈ w.issued
  absent : w.db.messages.lookup id = none
  unwritten : ∀ c, ∀ x ∈ w.pending c, x.message? id = none

/-- Row `r` is still committed, or a later version of it is, or its id is dead. -/
def Follows (w : World) (r : Message) : Prop :=
  (∃ row, w.db.messages.lookup r.id = some row ∧ (row = r ∨ Precedes r row)) ∨ Dead w r.id

theorem dead_last {id : Uuid} (hd : Dead w id) : lastMessage (w.pending c) id = none := by
  cases hl : lastMessage (w.pending c) id with
  | none => rfl
  | some r =>
    obtain ⟨x, hx, hm⟩ := lastMessage_written hl
    rw [hd.unwritten c x hx] at hm
    cases hm

theorem dead_view {id : Uuid} (hd : Dead w id) : (w.view c).messages.lookup id = none := by
  rw [view_message, dead_last hd]
  exact hd.absent

theorem dead_statement {id : Uuid} (hd : Dead w id) (h : Statement c w w') : Dead w' id := by
  refine ⟨statement_issued h id hd.issued, by rw [(statement_frame h).1]; exact hd.absent, ?_⟩
  intro d x hx
  by_cases hdc : d = c
  · subst hdc
    rcases statement_write h with hp | hp | ⟨y, hp, hy⟩
    · rw [hp] at hx; exact hd.unwritten d x hx
    · rw [hp] at hx; cases hx
    · rw [hp] at hx
      rcases List.mem_append.mp hx with hx | hx
      · exact hd.unwritten d x hx
      · obtain rfl := List.mem_singleton.mp hx
        cases hm : x.message? id with
        | none => rfl
        | some r =>
          rcases hy id r hm with hfresh | ⟨row, hrow⟩
          · exact absurd hd.issued hfresh
          · rw [dead_view hd] at hrow; cases hrow
  · rw [statement_pending h hdc] at hx
    exact hd.unwritten d x hx

theorem dead_transition {id : Uuid} (hd : Dead w id) (h : Transition c w e w') : Dead w' id := by
  have ended : ∀ u : World, u.issued = w.issued → u.db.messages.lookup id = none →
      (∀ d, u.pending d = if d = c then [] else w.pending d) → Dead u id := by
    intro u hi hdb hp
    refine ⟨by rw [hi]; exact hd.issued, hdb, ?_⟩
    intro d x hx
    rw [hp] at hx
    split at hx
    · cases hx
    · exact hd.unwritten d x hx
  cases h with
  | statement h => exact dead_statement hd h
  | commit => exact ended _ rfl (dead_view hd) fun d => commit_pending w c d
  | rollback => exact ended _ rfl hd.absent fun d => rollback_pending w c d
  | cacheSet => exact ⟨hd.issued, hd.absent, hd.unwritten⟩
  | cacheEvict => exact ⟨hd.issued, hd.absent, hd.unwritten⟩

/-- A commit that deletes a row leaves its id dead: nobody else can have the row written. -/
theorem dead_of_deleted (h : Consistent w) {id : Uuid}
    (hl : lastMessage (w.pending c) id = some none) : Dead (w.commit c) id := by
  obtain ⟨x, hx, hr⟩ := lastMessage_written hl
  refine ⟨(h.write_issued c x hx).1 id none hr, ?_, ?_⟩
  · rw [commit_db, view_message, hl]; rfl
  · intro d y hy
    rw [commit_pending] at hy
    split at hy
    · cases hy
    · rename_i hdc
      cases hm : y.message? id with
      | none => rfl
      | some _ =>
        exact absurd (writeLocked_unique (writeLocked_message (h.guarded d y hy) hm)
          (writeLocked_message (h.guarded c x hx) hr)) hdc

/-- The row of a commit: what the session wrote last, if anything. -/
theorem commit_row (id : Uuid) : (w.commit c).db.messages.lookup id =
    (lastMessage (w.pending c) id).getD (w.db.messages.lookup id) :=
  view_message id

theorem commit_author (id : Uuid) : (w.commit c).db.authors.lookup id =
    (lastAuthor (w.pending c) id).getD (w.db.authors.lookup id) :=
  view_author id

theorem follows_commit (h : Consistent w) {r : Message} (hf : Follows w r) :
    Follows (w.commit c) r := by
  rcases hf with ⟨row, hrow, hr⟩ | hd
  · cases hl : lastMessage (w.pending c) r.id with
    | none =>
      refine Or.inl ⟨row, ?_, hr⟩
      rw [commit_row, hl]; exact hrow
    | some new =>
      cases new with
      | none => exact Or.inr (dead_of_deleted h hl)
      | some m =>
        refine Or.inl ⟨m, by rw [commit_row, hl]; rfl, Or.inr ?_⟩
        obtain ⟨x, hx, hm⟩ := lastMessage_written hl
        obtain ⟨m', rfl, hid, hm'⟩ | ⟨_, hn⟩ := message?_some hm
        · obtain rfl := Option.some.inj hm'
          have hprec := (h.guarded c _ hx).2.2 row (by rw [hid]; exact hrow)
          rcases hr with rfl | hr
          · exact hprec
          · exact hr.trans hprec
        · cases hn
  · exact Or.inr (dead_transition hd .commit)

theorem follows_transition (h : Consistent w) {r : Message} (hf : Follows w r)
    (ht : Transition c w e w') : Follows w' r := by
  rcases transition_db ht with hdb | ⟨rfl, rfl⟩
  · rcases hf with hrow | hd
    · exact Or.inl (by rw [hdb]; exact hrow)
    · exact Or.inr (dead_transition hd ht)
  · exact follows_commit h hf

end Rows

section Runs

variable [JsonCodec] {s : SoundDb} (ρ : Run s)

/-- Every instant is a transition of the session that acts. -/
theorem run_transition {k : ℕ} (hk : k < ρ.length) :
    ∃ c e, (ρ.event k).caller = c ∧ Transition c (ρ.store k) e (ρ.store (k + 1)) := by
  rcases ρ.step_cases hk with ⟨c, q, he, hs⟩ | ⟨c, e, x, r, hp⟩ | ⟨c, he, hs⟩
  · refine ⟨c, .rollback, by rw [he]; rfl, .statement ?_⟩
    rw [Run.store, Run.store, hs]
    exact .same
  · exact ⟨c, e, by rw [hp.event]; rfl, answer_transition hp.answer⟩
  · refine ⟨c, .rollback, by rw [he]; rfl, ?_⟩
    rw [Run.store, Run.store, hs]
    exact .rollback

theorem run_consistent {n : ℕ} (hn : n ≤ ρ.length) : Consistent (ρ.store n) := by
  induction n with
  | zero => rw [Run.store, ρ.start]; exact consistent_ofDb s
  | succ n ih =>
    obtain ⟨c, e, _, ht⟩ := run_transition ρ hn
    exact consistent_transition (ih (by omega)) ht

/-- What every transition of a consistent store keeps holds at every later instant. -/
theorem run_persists {P : World → Prop} {i : ℕ} (hi : P (ρ.store i))
    (hstep : ∀ c e w w', Consistent w → P w → Transition c w e w' → P w') {n : ℕ}
    (hin : i ≤ n) (hn : n ≤ ρ.length) : P (ρ.store n) := by
  induction n, hin using Nat.le_induction with
  | base => exact hi
  | succ n hin ih =>
    obtain ⟨c, e, _, ht⟩ := run_transition ρ hn
    exact hstep c e _ _ (run_consistent ρ (by omega)) (ih (by omega)) ht

/-- The committed rows change only at an instant at which a session takes its commit. -/
theorem run_db {k : ℕ} (hk : k < ρ.length) : (ρ.store (k + 1)).db = (ρ.store k).db ∨
    ∃ c x r, ρ.Performs k c .commit x r ∧ ρ.store (k + 1) = (ρ.store k).commit c := by
  rcases ρ.step_cases hk with ⟨c, q, he, hs⟩ | ⟨c, e, x, r, hp⟩ | ⟨c, he, hs⟩
  · exact Or.inl (by rw [Run.store, Run.store, hs])
  · rcases transition_db (answer_transition hp.answer) with hdb | ⟨rfl, hw⟩
    · exact Or.inl hdb
    · exact Or.inr ⟨c, x, r, hp, hw⟩
  · exact Or.inl (by rw [Run.store, Run.store, hs]; rfl)

/-- The cache changes only at an instant at which a call sets or evicts an entry. -/
theorem run_cache {k : ℕ} (hk : k < ρ.length) : (ρ.store (k + 1)).cache = (ρ.store k).cache ∨
    (∃ c key v x r, ρ.Performs k c (.cacheSet key v) x r ∧
      (ρ.store (k + 1)).cache = Function.update (ρ.store k).cache key (some v)) ∨
    ∃ c key x r, ρ.Performs k c (.cacheEvict key) x r ∧
      (ρ.store (k + 1)).cache = Function.update (ρ.store k).cache key none := by
  rcases ρ.step_cases hk with ⟨c, q, he, hs⟩ | ⟨c, e, x, r, hp⟩ | ⟨c, he, hs⟩
  · exact Or.inl (by rw [Run.store, Run.store, hs])
  · rcases transition_cache (answer_transition hp.answer) with h | ⟨key, v, rfl, h⟩ | ⟨key, rfl, h⟩
    · exact Or.inl h
    · exact Or.inr (Or.inl ⟨c, key, v, x, r, hp, h⟩)
    · exact Or.inr (Or.inr ⟨c, key, x, r, hp, h⟩)
  · exact Or.inl (by rw [Run.store, Run.store, hs]; rfl)

/-- An entry has been there since an instant, or was set since and has been there from then on. -/
theorem run_entry {i n : ℕ} {key v : String} (h : (ρ.store n).cache key = some v) (hin : i ≤ n)
    (hn : n ≤ ρ.length) : (∀ t, i ≤ t → t ≤ n → (ρ.store t).cache key = some v) ∨
      ∃ l c x r, i ≤ l ∧ l < n ∧ ρ.Performs l c (.cacheSet key v) x r ∧
        ∀ t, l < t → t ≤ n → (ρ.store t).cache key = some v := by
  induction n, hin using Nat.le_induction with
  | base =>
    refine Or.inl fun t hit hti => ?_
    rw [Nat.le_antisymm hti hit]
    exact h
  | succ n hin ih =>
    have upTo : ∀ {j : ℕ} {t : ℕ}, (∀ t, j ≤ t → t ≤ n → (ρ.store t).cache key = some v) →
        j ≤ t → t ≤ n + 1 → (ρ.store t).cache key = some v := by
      intro j t hbefore hjt htn
      rcases Nat.le_succ_iff.mp htn with ht | rfl
      · exact hbefore t hjt ht
      · exact h
    have earlier : (ρ.store n).cache key = some v →
        (∀ t, i ≤ t → t ≤ n + 1 → (ρ.store t).cache key = some v) ∨
        ∃ l c x r, i ≤ l ∧ l < n + 1 ∧ ρ.Performs l c (.cacheSet key v) x r ∧
          ∀ t, l < t → t ≤ n + 1 → (ρ.store t).cache key = some v := by
      intro h'
      rcases ih h' (by omega) with hall | ⟨l, c, x, r, hil, hln, hp, hsince⟩
      · exact Or.inl fun t hit htn => upTo hall hit htn
      · exact Or.inr ⟨l, c, x, r, hil, by omega, hp, fun t hlt htn => upTo hsince hlt htn⟩
    rcases run_cache ρ hn with hc | ⟨c, key', v', x, r, hp, hc⟩ | ⟨c, key', x, r, hp, hc⟩
    · exact earlier (by rw [← hc]; exact h)
    · rw [hc, Function.update_apply] at h
      split at h
      · rename_i hk
        subst hk
        obtain rfl := Option.some.inj h
        refine Or.inr ⟨n, c, x, r, hin, by omega, hp, fun t hnt htn => ?_⟩
        rw [Nat.le_antisymm htn hnt, hc, Function.update_self]
      · exact earlier h
    · rw [hc, Function.update_apply] at h
      split at h
      · cases h
      · exact earlier h

variable {ρ}

theorem run_follows {i n : ℕ} {m : Uuid} {r : Message} (hr : ρ.row i m = some r) (hin : i ≤ n)
    (hn : n ≤ ρ.length) : Follows (ρ.store n) r := by
  refine run_persists ρ (P := fun w => Follows w r) ?_ ?_ hin hn
  · exact Or.inl ⟨r, by rw [lookup_key hr]; exact hr, Or.inl rfl⟩
  · intro c e w w' h hf ht
    exact follows_transition h hf ht

theorem run_dead {i n : ℕ} {m : Uuid} (hd : Dead (ρ.store i) m) (hin : i ≤ n)
    (hn : n ≤ ρ.length) : Dead (ρ.store n) m :=
  run_persists ρ hd (fun _ _ _ _ _ hd ht => dead_transition hd ht) hin hn

/-- A later committed row of one id is the same row or a later version of it. -/
theorem row_history {i n : ℕ} {m : Uuid} {r row : Message} (hr : ρ.row i m = some r)
    (hin : i ≤ n) (hn : n ≤ ρ.length) (hrow : ρ.row n m = some row) :
    row = r ∨ Precedes r row := by
  have hid : r.id = m := lookup_key hr
  rcases run_follows hr hin hn with ⟨row', hrow', h⟩ | hd
  · rw [hid] at hrow'
    obtain rfl : row' = row := Option.some.inj (hrow'.symm.trans hrow)
    exact h
  · rw [hid] at hd
    exact absurd (hd.absent.symm.trans hrow) (by simp)

theorem row_version_le {i n : ℕ} {m : Uuid} {r row : Message} (hr : ρ.row i m = some r)
    (hin : i ≤ n) (hn : n ≤ ρ.length) (hrow : ρ.row n m = some row) :
    r.version ≤ row.version := by
  rcases row_history hr hin hn hrow with rfl | h
  · exact le_rfl
  · exact le_of_lt h.version

/-- The id and the version determine the row, at whatever instants it was committed. -/
theorem row_determined {i n : ℕ} {m : Uuid} {r row : Message} (hi : i ≤ ρ.length)
    (hn : n ≤ ρ.length) (hr : ρ.row i m = some r) (hrow : ρ.row n m = some row)
    (hv : r.version = row.version) : r = row := by
  rcases Nat.le_total i n with hin | hni
  · rcases row_history hr hin hn hrow with rfl | h
    · rfl
    · exact absurd h.version (by omega)
  · rcases row_history hrow hni hi hr with rfl | h
    · rfl
    · exact absurd h.version (by omega)

/-- A row that is gone is gone for good. -/
theorem row_dead {i n : ℕ} {m : Uuid} {r : Message} (hr : ρ.row i m = some r) (hin : i ≤ n)
    (hn : n ≤ ρ.length) (hgone : ρ.row n m = none) : Dead (ρ.store n) m := by
  have hid : r.id = m := lookup_key hr
  rcases run_follows hr hin hn with ⟨row, hrow, _⟩ | hd
  · rw [hid] at hrow
    exact absurd (hgone.symm.trans hrow) (by simp)
  · rw [hid] at hd; exact hd

end Runs

end Histories
