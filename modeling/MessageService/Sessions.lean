import MessageService.Library.Typestates
import MessageService.Traces

/-! What the sessions of the service leave behind.
Locks and uncommitted writes belong to calls that are still running, or that have failed and are
not closed yet. Whoever is done or closed is in nobody's way. -/
namespace Sessions

open Programs Interleaving Typestates Texts Models Schemas LockTables MessageJson Postgres
open Services ServiceRuns Transitions Statements Histories Footprints Traces

/-- The session has uncommitted writes or holds a lock. -/
def Occupies (w : World) (c : ℕ) : Prop :=
  w.pending c ≠ [] ∨ ∃ r m, w.locks.Holds c r m

/-- Statements that lock or write. -/
def takes : Effect → Bool
  | .insertAuthor _ _ | .updateAuthor _ _ _ | .deleteAuthor _ | .insertMessage _ _ _
  | .updateMessage _ _ _ _ | .deleteMessage _ | .upsertAuthor _ _ | .advisoryXactLock _ => true
  | _ => false

/-- Whether a session may occupy anything: a transaction that ends gives everything back. -/
def occupied : (e : Effect) → Reply e → Bool → Bool
  | .commit, .ok _, _ => false
  | .rollback, .ok _, _ => false
  | e, _, before => before || takes e

/-- A call that succeeds occupies nothing. -/
def Released : Outcome → Bool → Prop
  | .ok _, occupied => occupied = false
  | .error _, _ => True

section Steps

variable {c d : ℕ} {w w' : World}

theorem occupies_same (hp : w'.pending c = w.pending c)
    (hl : ∀ r m, w'.locks.Holds c r m ↔ w.locks.Holds c r m) : Occupies w' c ↔ Occupies w c := by
  simp only [Occupies, hp, hl]

/-- The end of a transaction. -/
theorem released_rollback (w : World) (c : ℕ) : ¬Occupies (w.rollback c) c := by
  rintro (hp | ⟨r, m, hl⟩)
  · exact hp (by rw [rollback_pending, if_pos rfl])
  · rw [rollback_locks, release_holds] at hl
    exact hl.2 rfl

theorem released_commit (w : World) (c : ℕ) : ¬Occupies (w.commit c) c := by
  rintro (hp | ⟨r, m, hl⟩)
  · exact hp (by rw [commit_pending, if_pos rfl])
  · rw [commit_locks, release_holds] at hl
    exact hl.2 rfl

theorem occupies_other {e : Effect} (h : Transition d w e w') (hd : d ≠ c) :
    Occupies w' c ↔ Occupies w c :=
  occupies_same (transition_pending h (Ne.symm hd)) (transition_locks h (Ne.symm hd))

/-- A step that neither locks nor writes nor ends the transaction. -/
theorem occupies_silent {f : Fresh} {e : Effect} {r : Reply e} (he : takes e = false)
    (hcommit : e ≠ .commit) (hrollback : e ≠ .rollback) (h : execute c f w e = some (r, w')) :
    Occupies w' c ↔ Occupies w c := by
  cases e with
  | selectAuthor | selectMessagesOf | selectAuthors | countAuthors | selectMessage
  | selectMessageId | selectMessages | countMessages | selectAuthorIds | cacheGet | cacheSet
  | cacheEvict => cases h; exact Iff.rfl
  | commit => exact absurd rfl hcommit
  | rollback => exact absurd rfl hrollback
  | insertAuthor | updateAuthor | deleteAuthor | insertMessage | updateMessage | deleteMessage
  | upsertAuthor | advisoryXactLock => cases he

theorem occupied_execute {f : Fresh} {e : Effect} {r : Reply e} {before : Bool}
    (h : execute c f w e = some (r, w')) (hbefore : Occupies w c → before = true)
    (hoccupies : Occupies w' c) :
    (e ≠ .commit ∧ e ≠ .rollback) ∧ (before || takes e) = true := by
  have hcommit : e ≠ .commit := by
    rintro rfl
    cases h
    exact released_commit w c hoccupies
  have hrollback : e ≠ .rollback := by
    rintro rfl
    cases h
    exact released_rollback w c hoccupies
  refine ⟨⟨hcommit, hrollback⟩, ?_⟩
  cases he : takes e with
  | true => simp
  | false => simp [hbefore ((occupies_silent he hcommit hrollback h).mp hoccupies)]

/-- Only a transaction that is known to have ended gives back. -/
theorem occupied_eq {e : Effect} {r : Reply e} {before : Bool}
    (h : (∃ exc, r = .error exc) ∨ (e ≠ .commit ∧ e ≠ .rollback)) :
    occupied e r before = (before || takes e) := by
  rcases h with ⟨exc, rfl⟩ | ⟨hcommit, hrollback⟩
  · cases e with
    | _ => rfl
  · cases e with
    | commit => exact absurd rfl hcommit
    | rollback => exact absurd rfl hrollback
    | _ => rfl

theorem unoccupied {e : Effect} {r : Reply e} (h : takes e = false) :
    occupied e r false = false := by
  by_cases hend : e ≠ .commit ∧ e ≠ .rollback
  · rw [occupied_eq (Or.inr hend), h]
    rfl
  · rcases r with exc | a
    · rw [occupied_eq (Or.inl ⟨exc, rfl⟩), h]
      rfl
    · cases e with
      | commit | rollback => rfl
      | _ => simp at hend

/-- Whatever a step really did: what it left occupied is what its reply allows for. -/
theorem occupied_step {e : Effect} {x : Choice} {r : Reply e} {before : Bool}
    (h : answer c e x w = some (r, w')) (hbefore : Occupies w c → before = true)
    (hoccupies : Occupies w' c) : occupied e r before = true := by
  cases x with
  | proceed f =>
    obtain ⟨hend, hgoal⟩ := occupied_execute h hbefore hoccupies
    rw [occupied_eq (Or.inr hend)]
    exact hgoal
  | raise exc =>
    cases h
    rw [occupied_eq (Or.inl ⟨exc, rfl⟩), hbefore hoccupies]
    rfl
  | raiseAfter f exc =>
    obtain ⟨⟨r', u⟩, hu, h⟩ := Option.map_eq_some_iff.mp h
    cases h
    rw [occupied_eq (Or.inl ⟨exc, rfl⟩)]
    exact (occupied_execute hu hbefore hoccupies).2

end Steps

section Waiting

/-- The locks a statement asks for. -/
def asks (f : Fresh) (t : Db) : Effect → List (Resource × LockMode)
  | .insertAuthor _ email | .upsertAuthor _ email =>
    [(.email (string email), .update), (.author f.id, .update)]
  | .updateAuthor id _ email =>
    match t.authors.lookup id with
    | none => []
    | some row =>
      let changed := (email.map string).getD row.email
      if changed = row.email then [(.author id, .noKeyUpdate)]
      else [(.author id, .update), (.email changed, .update), (.email row.email, .update)]
  | .deleteAuthor id =>
    match t.authors.lookup id with
    | none => []
    | some row =>
      [(.author id, .update), (.email row.email, .update)] ++
        (t.referencing id).map fun m => (.message m.id, .keyShare)
  | .insertMessage _ _ authorId => [(.author authorId, .keyShare), (.message f.id, .update)]
  | .updateMessage id _ _ _ => [(.message id, .noKeyUpdate)]
  | .deleteMessage id => [(.message id, .update)]
  | .advisoryXactLock key => [(.advisory key, .update)]
  | _ => []

/-- Session `d` holds a lock that excludes one of those listed. -/
def Excludes (w : World) (d : ℕ) (rs : List (Resource × LockMode)) : Prop :=
  ∃ r held asked, w.locks.Holds d r held ∧ (r, asked) ∈ rs ∧ Modes.conflicts held asked = true

/-- The locks are asked for in vain because of another session. -/
def Elsewhere (w : World) (c : ℕ) (rs : List (Resource × LockMode)) : Prop :=
  ∃ d, d ≠ c ∧ Excludes w d rs

variable {c : ℕ} {f : Fresh} {w : World} {rs asked : List (Resource × LockMode)}

theorem excludes_occupies {d : ℕ} (h : Excludes w d rs) : Occupies w d := by
  obtain ⟨r, held, _, hheld, _⟩ := h
  exact Or.inr ⟨r, held, hheld⟩

theorem elsewhere_of_blocks {r : Resource} {m : LockMode} (h : w.locks.Blocks ⟨c, r, m⟩)
    (hr : (r, m) ∈ rs) : Elsewhere w c rs := by
  obtain ⟨l, hl, hholder, rfl, hconflicts⟩ := h
  exact ⟨l.holder, hholder, l.resource, l.mode, m, hl, hr, hconflicts⟩

theorem elsewhere_of_lock (h : w.lock? c rs = none) (hrs : rs ⊆ asked) : Elsewhere w c asked := by
  by_contra hnone
  have hown : ∀ l ∈ rs.map fun r => (⟨c, r.1, r.2⟩ : Lock ℕ Resource LockMode), l.holder = c := by
    intro l hl
    obtain ⟨r, _, rfl⟩ := List.mem_map.mp hl
    rfl
  obtain ⟨t, ht⟩ := (acquireAll_free (t := w.locks) hown).mpr (by
    intro l hl hblocks
    obtain ⟨r, hr, rfl⟩ := List.mem_map.mp hl
    exact hnone (elsewhere_of_blocks hblocks (hrs hr)))
  rw [World.lock?, ht] at h
  cases h

theorem elsewhere_of_bind {α : Type} {g : World → Option α} (h : (w.lock? c rs).bind g = none)
    (hrs : rs ⊆ asked) (hg : ∀ u, g u ≠ none) : Elsewhere w c asked := by
  cases hl : w.lock? c rs with
  | none => exact elsewhere_of_lock hl hrs
  | some u =>
    rw [hl] at h
    exact absurd h (hg u)

/-- A statement waits for the locks of other sessions only. -/
theorem waits_elsewhere {e : Effect} (hfresh : f.id ∉ w.issued) (h : execute c f w e = none) :
    Elsewhere w c (asks f (w.view c) e) := by
  cases e with
  | insertAuthor name email =>
    change execInsertAuthor c f w name email = none at h
    rw [execInsertAuthor, if_neg hfresh] at h
    split at h
    · cases h
    · refine elsewhere_of_bind h (List.Subset.refl _) fun u => ?_
      split <;> simp
  | upsertAuthor name email =>
    change execUpsertAuthor c f w name email = none at h
    rw [execUpsertAuthor, if_neg hfresh] at h
    split at h
    · cases h
    · refine elsewhere_of_bind h (List.Subset.refl _) fun u => ?_
      split <;> simp
  | updateAuthor id name email =>
    change execUpdateAuthor c w id name email = none at h
    rw [execUpdateAuthor] at h
    split at h
    · cases h
    · split at h
      · cases h
      · next row hrow =>
        simp only [asks, hrow]
        dsimp only at h
        split at h
        · next hsame =>
          rw [if_pos hsame]
          exact elsewhere_of_bind h (List.Subset.refl _) fun u => by simp
        · next hchanged =>
          rw [if_neg hchanged]
          refine elsewhere_of_bind h (List.Subset.refl _) fun u => ?_
          split <;> simp
  | deleteAuthor id =>
    change execDeleteAuthor c w id = none at h
    rw [execDeleteAuthor] at h
    split at h
    · cases h
    · next row hrow =>
      simp only [asks, hrow]
      by_cases hrefs : (w.view c).referencing id = []
      · refine elsewhere_of_bind h (List.subset_append_left _ _) fun u => ?_
        rw [if_pos hrefs]
        simp
      · by_cases hblocks : ∀ m ∈ (w.view c).referencing id,
            w.locks.Blocks ⟨c, .message m.id, .keyShare⟩
        · obtain ⟨m, hm⟩ := List.exists_mem_of_ne_nil _ hrefs
          exact elsewhere_of_blocks (hblocks m hm)
            (List.mem_append_right _ (List.mem_map_of_mem hm))
        · refine elsewhere_of_bind h (List.subset_append_left _ _) fun u => ?_
          rw [if_neg hrefs, if_neg hblocks]
          simp
  | insertMessage title content authorId =>
    change execInsertMessage c f w title content authorId = none at h
    rw [execInsertMessage, if_neg hfresh] at h
    split at h
    · cases h
    · split at h
      · cases h
      · exact elsewhere_of_bind h (List.Subset.refl _) fun u => by simp
  | updateMessage id version content title =>
    change execUpdateMessage c w id version content title = none at h
    rw [execUpdateMessage] at h
    split at h
    · cases h
    · split at h
      · cases h
      · split at h
        · cases h
        · refine elsewhere_of_bind h (List.Subset.refl _) fun u => ?_
          split <;> simp
  | deleteMessage id =>
    change execDeleteMessage c w id = none at h
    rw [execDeleteMessage] at h
    split at h
    · cases h
    · exact elsewhere_of_bind h (List.Subset.refl _) fun u => by simp
  | advisoryXactLock key =>
    exact elsewhere_of_bind (h : execAdvisoryXactLock c w key = none) (List.Subset.refl _)
      fun u => by simp
  | selectAuthor | selectMessagesOf | selectAuthors | countAuthors | selectMessage
  | selectMessageId | selectMessages | countMessages | selectAuthorIds | cacheGet | cacheSet
  | cacheEvict | commit | rollback => cases h

end Waiting

section Bodies

variable [JsonCodec]

omit [JsonCodec] in
theorem tracks_await {e : Effect} {k : Reply e → Program Effect Reply Outcome} {before : Bool}
    (herr : ∀ exc, Tracks occupied Released (occupied e (.error exc) before) (k (.error exc)))
    (hok : ∀ a, Tracks occupied Released (occupied e (.ok a) before) (k (.ok a))) :
    Tracks occupied Released before (.await e k) := by
  rintro (exc | a)
  · exact herr exc
  · exact hok a

omit [JsonCodec] in
/-- An `except IntegrityError` clause does not succeed. -/
theorem caught_tracks {α β : Type} {before : Bool} (violation : String) (translated exc : Exc)
    (f : α → Service β) (g : β → Service Result) :
    Tracks occupied Released before (Program.bind (Program.bind (match exc with
      | .integrityError sqlstate => (do
          perform .rollback
          if sqlstate = some violation then throw translated
          throw (.integrityError sqlstate) : Service α)
      | exc => (throw exc : Service α)) (ExceptT.bindCont f)) (ExceptT.bindCont g) :
        Program Effect Reply Outcome) := by
  cases exc with
  | integrityError sqlstate =>
    refine tracks_await (fun _ => trivial) fun _ => ?_
    by_cases h : sqlstate = some violation
    · rw [if_pos h]
      trivial
    · rw [if_neg h]
      trivial
  | notFoundError | conflictError | dataError | noResultFound | assertionError
  | validationError | other => trivial

omit [JsonCodec] in
theorem rolled_tracks {α : Type} {before : Bool} (f : α → Service Result) (exc : Exc) :
    Tracks occupied Released before (Program.bind (do perform .rollback; throw exc : Service α)
      (ExceptT.bindCont f) : Program Effect Reply Outcome) :=
  tracks_await (fun _ => trivial) fun _ => trivial

theorem listMessages_releases (limit offset : ℕ) :
    Tracks occupied Released false (body (.listMessages limit offset)) := by
  refine tracks_await (fun _ => trivial) fun rows => ?_
  refine tracks_await (fun _ => trivial) fun total => ?_
  change Tracks _ _ _ (Program.bind (Program.bind
    (validated (rows.mapM fun r => MessageOut.ofRow r.1 r.2))
    (ExceptT.bindCont fun items => pure (⟨items, total⟩ : Page MessageOut)))
    (ExceptT.bindCont fun page => pure (.messages page)) : Program Effect Reply Outcome)
  cases rows.mapM fun r => MessageOut.ofRow r.1 r.2 with
  | none => trivial
  | some items => rfl

theorem getMessage_releases (m : Uuid) : Tracks occupied Released false (body (.getMessage m)) := by
  refine tracks_await (fun _ => trivial) ?_
  rintro (_ | text)
  · refine tracks_await (fun _ => trivial) ?_
    rintro (_ | ⟨row, _ | author⟩)
    · trivial
    · trivial
    · exact tracks_await (fun _ => trivial) fun _ => rfl
  · change Tracks _ _ _ (Program.bind (validated (modelValidateJson text))
      (ExceptT.bindCont fun out => pure (.message out)) : Program Effect Reply Outcome)
    cases modelValidateJson text with
    | none => trivial
    | some out => rfl

theorem createMessage_releases (p : MessageCreate) :
    Tracks occupied Released false (body (.createMessage p)) := by
  refine tracks_await (fun _ => trivial) ?_
  rintro (_ | author)
  · trivial
  refine tracks_await (fun exc => caught_tracks _ _ exc _ _) fun row => ?_
  exact tracks_await (fun _ => trivial) fun _ => rfl

theorem updateMessage_releases (m : Uuid) (p : MessageUpdate) :
    Tracks occupied Released false (body (.updateMessage m p)) := by
  refine tracks_await (fun _ => trivial) ?_
  rintro (_ | _)
  · refine tracks_await (fun _ => trivial) fun _ => ?_
    refine tracks_await (fun _ => trivial) fun _ => ?_
    refine tracks_await (fun _ => trivial) ?_
    rintro (_ | _)
    · trivial
    · trivial
  · refine tracks_await (fun _ => trivial) ?_
    rintro (_ | ⟨row, _ | author⟩)
    · refine tracks_await (fun _ => trivial) fun _ => ?_
      exact tracks_await (fun _ => trivial) fun _ => trivial
    · trivial
    · refine tracks_await (fun _ => trivial) fun _ => ?_
      exact tracks_await (fun _ => trivial) fun _ => rfl

theorem deleteMessage_releases (m : Uuid) :
    Tracks occupied Released false (body (.deleteMessage m)) := by
  refine tracks_await (fun _ => trivial) fun deleted => ?_
  refine tracks_await (fun _ => trivial) fun _ => ?_
  refine tracks_await (fun _ => trivial) fun _ => ?_
  cases deleted with
  | none => trivial
  | some _ => rfl

theorem listAuthors_releases (limit offset : ℕ) :
    Tracks occupied Released false (body (.listAuthors limit offset)) := by
  refine tracks_await (fun _ => trivial) fun rows => ?_
  exact tracks_await (fun _ => trivial) fun total => rfl

theorem getAuthor_releases (id : Uuid) (inc : Bool) :
    Tracks occupied Released false (body (.getAuthor id inc)) := by
  refine tracks_await (fun _ => trivial) ?_
  rintro (_ | author)
  · trivial
  cases inc with
  | false => rfl
  | true => exact tracks_await (fun _ => trivial) fun _ => rfl

theorem createAuthor_releases (p : AuthorCreate) :
    Tracks occupied Released false (body (.createAuthor p)) := by
  refine tracks_await (fun exc => caught_tracks _ _ exc _ _) fun author => ?_
  exact tracks_await (fun _ => trivial) fun _ => rfl

theorem updateAuthor_releases (id : Uuid) (p : AuthorUpdate) :
    Tracks occupied Released false (body (.updateAuthor id p)) := by
  simp only [body, updateAuthor]
  split
  · refine tracks_await (fun _ => trivial) ?_
    rintro (_ | author)
    · trivial
    · rfl
  · refine tracks_await (fun exc => caught_tracks _ _ exc _ _) ?_
    rintro (_ | author)
    · trivial
    · exact tracks_await (fun _ => trivial) fun _ => rfl

theorem deleteAuthor_releases (id : Uuid) :
    Tracks occupied Released false (body (.deleteAuthor id)) := by
  refine tracks_await (fun exc => caught_tracks _ _ exc _ _) fun deleted => ?_
  refine tracks_await (fun exc => caught_tracks _ _ exc _ _) fun _ => ?_
  cases deleted with
  | none => trivial
  | some _ => rfl

theorem seedInitialMessage_releases :
    Tracks occupied Released false (body .seedInitialMessage) := by
  refine tracks_await (rolled_tracks _) fun _ => ?_
  refine tracks_await (rolled_tracks _) ?_
  rintro (_ | count)
  · refine tracks_await (rolled_tracks _) fun _ => ?_
    refine tracks_await (rolled_tracks _) ?_
    rintro (_ | ⟨authorId, _ | ⟨other, rest⟩⟩)
    · exact rolled_tracks _ _
    · refine tracks_await (rolled_tracks _) fun _ => ?_
      exact tracks_await (rolled_tracks _) fun _ => rfl
    · exact rolled_tracks _ _
  · exact tracks_await (rolled_tracks _) fun _ => rfl

/-- Every service function commits or rolls back what it has taken before it succeeds. -/
theorem body_releases (q : Request) : Tracks occupied Released false (body q) := by
  cases q with
  | listMessages limit offset => exact listMessages_releases limit offset
  | getMessage m => exact getMessage_releases m
  | createMessage p => exact createMessage_releases p
  | updateMessage m p => exact updateMessage_releases m p
  | deleteMessage m => exact deleteMessage_releases m
  | listAuthors limit offset => exact listAuthors_releases limit offset
  | getAuthor id inc => exact getAuthor_releases id inc
  | createAuthor p => exact createAuthor_releases p
  | updateAuthor id p => exact updateAuthor_releases id p
  | deleteAuthor id => exact deleteAuthor_releases id
  | seedInitialMessage => exact seedInitialMessage_releases

end Bodies

section Runs

variable [JsonCodec] {s : SoundDb} {ρ : Run s} {c n : ℕ}

theorem sessions_keep (s : SoundDb) : Keeps (H := host) occupied ⟨World.ofDb s.toDb, fun _ => none⟩
    (fun c before w => Occupies w c → before = true) false where
  start c := by
    rintro (hp | ⟨r, m, hl⟩)
    · exact absurd rfl hp
    · exact absurd hl (holds_empty _ _ _)
  own _ _ _ _ _ _ _ hbefore h hoccupies := occupied_step h hbefore hoccupies
  other _ _ _ _ _ _ _ _ hd hbefore h hoccupies :=
    hbefore ((occupies_other (answer_transition h) hd).mp hoccupies)
  closes c d w before hbefore hoccupies := by
    by_cases hd : d = c
    · subst hd
      exact absurd hoccupies (released_rollback w d)
    · exact hbefore ((occupies_other (e := .rollback) .rollback hd).mp hoccupies)

/-- What the sessions of calls that do not act keep. -/
theorem occupies_elsewhere (hn : n < ρ.length) (hc : (ρ.event n).caller ≠ c) :
    Occupies (ρ.store (n + 1)) c ↔ Occupies (ρ.store n) c := by
  obtain ⟨d, e, hd, ht⟩ := run_transition ρ hn
  exact occupies_other ht fun h => hc (hd.trans h)

/-- A closed session occupies nothing any more. -/
theorem closed_released {q : Request} {p : host.Body} (hn : n ≤ ρ.length)
    (hc : (ρ.state n).calls c = some ⟨q, p, true⟩) : ¬Occupies (ρ.store n) c := by
  induction n with
  | zero =>
    rw [ρ.start] at hc
    cases hc
  | succ n ih =>
    have hv := ρ.valid n hn
    by_cases hcaller : (ρ.event n).caller = c
    · rcases ρ.step_cases hn with ⟨d, q', he, _⟩ | ⟨d, e, x, r, hp⟩ | ⟨d, he, hs⟩
      · rw [he] at hv hcaller
        obtain rfl : d = c := hcaller
        simp only [next] at hv
        split at hv
        · rw [← Option.some.inj hv] at hc
          simp at hc
        · cases hv
      · obtain rfl : d = c := by rw [hp.event] at hcaller; exact hcaller
        obtain ⟨_, _, _, _, hc'⟩ := hp.awaiting
        rw [hc] at hc'
        simp at hc'
      · obtain rfl : d = c := by rw [he] at hcaller; exact hcaller
        rw [Run.store, hs]
        exact released_rollback _ _
    · rw [next_calls_other hv hcaller] at hc
      rw [occupies_elsewhere hn hcaller]
      exact ih (Nat.le_of_succ_le hn) hc

theorem reading_takes {q : Request} (h : Reading q) : (body q).Only fun e => takes e = false := by
  cases q with
  | listMessages limit offset =>
    exact awaits_bind (awaits_listMessages rfl rfl) fun _ => awaits_pure _
  | getMessage m =>
    exact awaits_bind (awaits_getMessage rfl rfl fun _ => rfl) fun _ => awaits_pure _
  | listAuthors limit offset =>
    exact awaits_bind (awaits_listAuthors rfl rfl) fun _ => awaits_pure _
  | getAuthor id inc => exact awaits_bind (awaits_getAuthor rfl rfl) fun _ => awaits_pure _
  | createMessage | updateMessage | deleteMessage | createAuthor | updateAuthor | deleteAuthor
  | seedInitialMessage => exact h.elim

/-- A call that only reads never occupies anything. -/
theorem reading_released {q : Request} {p : host.Body} {b : Bool} (hq : Reading q)
    (hn : n ≤ ρ.length) (hc : (ρ.state n).calls c = some ⟨q, p, b⟩) :
    ¬Occupies (ρ.store n) c := by
  obtain ⟨i, hin, he, _, _⟩ := ρ.started (fun _ => rfl) hc hn
  have upTo : ∀ k ≤ n, ¬Occupies (ρ.store k) c := by
    intro k hk
    induction k with
    | zero =>
      rw [Run.store, ρ.start]
      exact fun h => Bool.noConfusion ((sessions_keep s).start c h)
    | succ k ih =>
      have hprev := ih (Nat.le_of_succ_le hk)
      by_cases hcaller : (ρ.event k).caller = c
      · rcases ρ.step_cases (hk.trans hn) with ⟨d, q', _, hs⟩ | ⟨d, e, x, r, hp⟩ | ⟨d, hd, hs⟩
        · rw [Run.store, hs]
          exact hprev
        · obtain rfl : d = c := by rw [hp.event] at hcaller; exact hcaller
          have htakes := performs_only (hin.trans_le hn) he (reading_takes hq) hp
          intro hoccupies
          have hstep : occupied e r false = true :=
            occupied_step hp.answer (fun h => absurd h hprev) hoccupies
          rw [unoccupied htakes] at hstep
          cases hstep
        · obtain rfl : d = c := by rw [hd] at hcaller; exact hcaller
          rw [Run.store, hs]
          exact released_rollback _ _
      · rw [occupies_elsewhere (hk.trans hn) hcaller]
        exact hprev
  exact upTo n le_rfl

/-- A call that succeeds occupies nothing any more. -/
theorem succeeded_released {q : Request} {res : Result} {b : Bool} (hn : n ≤ ρ.length)
    (hc : (ρ.state n).calls c = some ⟨q, .done (.ok res), b⟩) : ¬Occupies (ρ.store n) c := by
  obtain ⟨busy, hrel, htracks⟩ :=
    run_tracks (sessions_keep s) (fun _ => rfl) (body_releases q) hn hc
  obtain rfl : busy = false := htracks
  exact fun h => Bool.noConfusion (hrel h)

/-- The call is still running, or has failed and is not closed yet; it may write. -/
def Unfinished (ρ : Run s) (n c : ℕ) : Prop :=
  ∃ q p, (ρ.state n).calls c = some ⟨q, p, false⟩ ∧ ¬Reading q ∧ ∀ res, p ≠ .done (.ok res)

theorem occupies_unfinished (hn : n ≤ ρ.length) (h : Occupies (ρ.store n) c) :
    Unfinished ρ n c := by
  cases hc : (ρ.state n).calls c with
  | none =>
    exact absurd (related_before (ρ := ρ) (sessions_keep s) hn hc h) (by simp)
  | some call =>
    obtain ⟨q, p, b⟩ := call
    cases b with
    | true => exact absurd h (closed_released hn hc)
    | false =>
      refine ⟨q, p, hc, fun hq => reading_released hq hn hc h, ?_⟩
      rintro res rfl
      exact succeeded_released hn hc h

/-- Sessions leave nothing behind, and a statement that waits is kept waiting by a lock of a call
that is not over. -/
structure LeavesNothing (ρ : Run s) : Prop where
  occupied : ∀ n ≤ ρ.length, ∀ c, Occupies (ρ.store n) c → Unfinished ρ n c
  waits : ∀ n ≤ ρ.length, ∀ c e f, f.id ∉ (ρ.store n).issued →
    execute c f (ρ.store n) e = none →
      ∃ d, d ≠ c ∧ Excludes (ρ.store n) d (asks f ((ρ.store n).view c) e) ∧ Unfinished ρ n d

theorem leaves_nothing (ρ : Run s) : LeavesNothing ρ where
  occupied _ hn _ h := occupies_unfinished hn h
  waits n hn c e f hfresh h := by
    obtain ⟨d, hd, hexcludes⟩ := waits_elsewhere hfresh h
    exact ⟨d, hd, hexcludes, occupies_unfinished hn (excludes_occupies hexcludes)⟩

end Runs

end Sessions
