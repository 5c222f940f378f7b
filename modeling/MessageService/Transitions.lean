import MessageService.Postgres

/-! What one awaited step can do to the store.
A statement touches its own session's writes and locks only; the committed rows change in a
commit, the cache in its own calls. Invariants of the store are checked once against the
cases below, whatever program awaits the step. -/
namespace Transitions

open Models Schemas KeyedTables LockTables Postgres Texts

inductive Statement (c : ℕ) (w : World) : World → Prop where
  | same : Statement c w w
  | lock {rs w'} : w.lock? c rs = some w' → Statement c w w'
  | insertAuthor {a w'} : a.id ∉ w.issued →
      w.lock? c [(.email a.email, .update), (.author a.id, .update)] = some w' →
      ¬(w.view c).emailTaken a.email →
      Statement c w ((w'.issue a.id).write c (.putAuthor a))
  | renameAuthor {a a' : Author} {w'} : (w.view c).authors.lookup a.id = some a →
      a'.id = a.id → a'.createdAt = a.createdAt → a'.email = a.email →
      w.lock? c [(.author a.id, .noKeyUpdate)] = some w' →
      Statement c w (w'.write c (.putAuthor a'))
  | moveAuthor {a a' : Author} {w'} : (w.view c).authors.lookup a.id = some a →
      a'.id = a.id → a'.createdAt = a.createdAt →
      w.lock? c [(.author a.id, .update), (.email a'.email, .update),
        (.email a.email, .update)] = some w' →
      ¬(w.view c).emailTaken a'.email →
      Statement c w (w'.write c (.putAuthor a'))
  | deleteAuthor {a : Author} {w'} : (w.view c).authors.lookup a.id = some a →
      w.lock? c [(.author a.id, .update), (.email a.email, .update)] = some w' →
      (w.view c).referencing a.id = [] →
      Statement c w (w'.write c (.dropAuthor a.id))
  | insertMessage {m : Message} {a w'} : m.id ∉ w.issued → m.version = 0 →
      (w.view c).authors.lookup m.authorId = some a →
      w.lock? c [(.author m.authorId, .keyShare), (.message m.id, .update)] = some w' →
      Statement c w ((w'.issue m.id).write c (.putMessage m))
  | updateMessage {m m' : Message} {w'} : (w.view c).messages.lookup m.id = some m →
      m'.id = m.id → m'.authorId = m.authorId → m'.createdAt = m.createdAt →
      m'.version = m.version + 1 → m'.version ≤ maxInt4 →
      w.lock? c [(.message m.id, .noKeyUpdate)] = some w' →
      Statement c w (w'.write c (.putMessage m'))
  | deleteMessage {m : Message} {w'} : (w.view c).messages.lookup m.id = some m →
      w.lock? c [(.message m.id, .update)] = some w' →
      Statement c w (w'.write c (.dropMessage m.id))

inductive Transition (c : ℕ) (w : World) : Effect → World → Prop where
  | statement {e w'} : Statement c w w' → Transition c w e w'
  | commit : Transition c w .commit (w.commit c)
  /-- Of a ROLLBACK, or of a statement that fails. -/
  | rollback {e} : Transition c w e (w.rollback c)
  | cacheSet {key value} : Transition c w (.cacheSet key value)
      { w with cache := Function.update w.cache key (some value) }
  | cacheEvict {key} : Transition c w (.cacheEvict key)
      { w with cache := Function.update w.cache key none }

section Inversion

variable {c d : ℕ} {f : Fresh} {w w' : World}

/-- A statement that fails ends its transaction. -/
def Refused {e : Effect} (c : ℕ) (w : World) (r : Reply e) (w' : World) : Prop :=
  (∃ exc, r = .error exc) ∧ w' = w.rollback c

theorem insertAuthor_statement {name email : Text} {r}
    (h : execInsertAuthor c f w name email = some (r, w')) :
    Statement c w w' ∨ Refused c w r w' := by
  unfold execInsertAuthor at h
  split at h
  · cases h
  · rename_i hfresh
    split at h
    · cases h; exact .inr ⟨⟨_, rfl⟩, rfl⟩
    · obtain ⟨u, hu, h⟩ := Option.bind_eq_some_iff.mp h
      split at h
      · cases h; exact .inr ⟨⟨_, rfl⟩, rfl⟩
      · rename_i hfree
        cases h
        exact .inl (.insertAuthor (a := ⟨f.id, string name, string email, f.now⟩) hfresh hu hfree)

theorem upsertAuthor_statement {name email : Text} {r}
    (h : execUpsertAuthor c f w name email = some (r, w')) :
    Statement c w w' ∨ Refused c w r w' := by
  unfold execUpsertAuthor at h
  split at h
  · cases h
  · rename_i hfresh
    split at h
    · cases h; exact .inr ⟨⟨_, rfl⟩, rfl⟩
    · obtain ⟨u, hu, h⟩ := Option.bind_eq_some_iff.mp h
      split at h
      · cases h; exact .inl .same
      · rename_i hfree
        cases h
        exact .inl (.insertAuthor (a := ⟨f.id, string name, string email, f.now⟩) hfresh hu hfree)

theorem updateAuthor_statement {id : Uuid} {name email : Option Text} {r}
    (h : execUpdateAuthor c w id name email = some (r, w')) :
    Statement c w w' ∨ Refused c w r w' := by
  unfold execUpdateAuthor at h
  split at h
  · cases h; exact .inr ⟨⟨_, rfl⟩, rfl⟩
  · split at h
    · cases h; exact .inl .same
    · rename_i row hrow
      obtain rfl : row.id = id := lookup_key hrow
      dsimp only at h
      split at h
      · rename_i hemail
        obtain ⟨u, hu, h⟩ := Option.bind_eq_some_iff.mp h
        cases h
        exact .inl (.renameAuthor hrow rfl rfl hemail hu)
      · obtain ⟨u, hu, h⟩ := Option.bind_eq_some_iff.mp h
        split at h
        · cases h; exact .inr ⟨⟨_, rfl⟩, rfl⟩
        · rename_i hfree
          cases h
          exact .inl (.moveAuthor hrow rfl rfl hu hfree)

theorem deleteAuthor_statement {id : Uuid} {r}
    (h : execDeleteAuthor c w id = some (r, w')) : Statement c w w' ∨ Refused c w r w' := by
  unfold execDeleteAuthor at h
  split at h
  · cases h; exact .inl .same
  · rename_i row hrow
    obtain rfl : row.id = id := lookup_key hrow
    obtain ⟨u, hu, h⟩ := Option.bind_eq_some_iff.mp h
    split at h
    · rename_i hrefs
      cases h
      exact .inl (.deleteAuthor hrow hu hrefs)
    · split at h
      · cases h
      · cases h; exact .inr ⟨⟨_, rfl⟩, rfl⟩

theorem insertMessage_statement {title content : Text} {authorId : Uuid} {r}
    (h : execInsertMessage c f w title content authorId = some (r, w')) :
    Statement c w w' ∨ Refused c w r w' := by
  unfold execInsertMessage at h
  split at h
  · cases h
  · rename_i hfresh
    split at h
    · cases h; exact .inr ⟨⟨_, rfl⟩, rfl⟩
    · split at h
      · cases h; exact .inr ⟨⟨_, rfl⟩, rfl⟩
      · rename_i a ha
        obtain ⟨u, hu, h⟩ := Option.bind_eq_some_iff.mp h
        cases h
        exact .inl (.insertMessage (m := ⟨f.id, string title, string content, authorId, f.now, 0⟩)
          hfresh rfl ha hu)

theorem updateMessage_statement {id : Uuid} {version : ℕ} {content : Text}
    {title : Option Text} {r}
    (h : execUpdateMessage c w id version content title = some (r, w')) :
    Statement c w w' ∨ Refused c w r w' := by
  unfold execUpdateMessage at h
  split at h
  · cases h; exact .inr ⟨⟨_, rfl⟩, rfl⟩
  · split at h
    · cases h; exact .inl .same
    · rename_i row hrow
      obtain rfl : row.id = id := lookup_key hrow
      split at h
      · cases h; exact .inl .same
      · obtain ⟨u, hu, h⟩ := Option.bind_eq_some_iff.mp h
        split at h
        · cases h; exact .inr ⟨⟨_, rfl⟩, rfl⟩
        · rename_i hle
          cases h
          exact .inl (.updateMessage hrow rfl rfl rfl rfl (Nat.le_of_not_lt hle) hu)

theorem deleteMessage_statement {id : Uuid} {r}
    (h : execDeleteMessage c w id = some (r, w')) : Statement c w w' ∨ Refused c w r w' := by
  unfold execDeleteMessage at h
  split at h
  · cases h; exact .inl .same
  · rename_i row hrow
    obtain rfl : row.id = id := lookup_key hrow
    obtain ⟨u, hu, h⟩ := Option.bind_eq_some_iff.mp h
    cases h
    exact .inl (.deleteMessage hrow hu)

theorem execute_transition {e : Effect} {r : Reply e} (h : execute c f w e = some (r, w')) :
    Transition c w e w' := by
  have ended : ∀ {r : Reply e}, Statement c w w' ∨ Refused c w r w' → Transition c w e w' := by
    rintro r (hs | ⟨_, rfl⟩)
    · exact .statement hs
    · exact .rollback
  cases e with
  | insertAuthor name email => exact ended (insertAuthor_statement h)
  | updateAuthor id name email => exact ended (updateAuthor_statement h)
  | deleteAuthor id => exact ended (deleteAuthor_statement h)
  | insertMessage title content authorId => exact ended (insertMessage_statement h)
  | updateMessage id version content title => exact ended (updateMessage_statement h)
  | deleteMessage id => exact ended (deleteMessage_statement h)
  | upsertAuthor name email => exact ended (upsertAuthor_statement h)
  | advisoryXactLock key =>
    obtain ⟨u, hu, h⟩ := Option.bind_eq_some_iff.mp (h : execAdvisoryXactLock c w key = _)
    cases h
    exact .statement (.lock hu)
  | commit => cases h; exact .commit
  | rollback => cases h; exact .rollback
  | cacheSet key value => cases h; exact .cacheSet
  | cacheEvict key => cases h; exact .cacheEvict
  | selectAuthor => cases h; exact .statement .same
  | selectMessagesOf => cases h; exact .statement .same
  | selectAuthors => cases h; exact .statement .same
  | countAuthors => cases h; exact .statement .same
  | selectMessage => cases h; exact .statement .same
  | selectMessageId => cases h; exact .statement .same
  | selectMessages => cases h; exact .statement .same
  | countMessages => cases h; exact .statement .same
  | selectAuthorIds => cases h; exact .statement .same
  | cacheGet => cases h; exact .statement .same

/-- A failing step has either no effect or the effect of the step. -/
theorem answer_transition {e : Effect} {x : Choice} {r : Reply e}
    (h : answer c e x w = some (r, w')) : Transition c w e w' := by
  cases x with
  | proceed f => exact execute_transition h
  | raise exc => cases h; exact .statement .same
  | raiseAfter f exc =>
    obtain ⟨⟨r', u⟩, hu, h⟩ := Option.map_eq_some_iff.mp h
    cases h
    exact execute_transition hu

end Inversion

section Frames

variable {c d : ℕ} {e : Effect} {w w' : World}

theorem statement_frame (h : Statement c w w') : w'.db = w.db ∧ w'.cache = w.cache := by
  cases h with
  | same => exact ⟨rfl, rfl⟩
  | lock hl => exact ⟨(lock?_frame hl).1, (lock?_frame hl).2.2.2⟩
  | insertAuthor _ hl _ => exact ⟨(lock?_frame hl).1, (lock?_frame hl).2.2.2⟩
  | renameAuthor _ _ _ _ hl => exact ⟨(lock?_frame hl).1, (lock?_frame hl).2.2.2⟩
  | moveAuthor _ _ _ hl _ => exact ⟨(lock?_frame hl).1, (lock?_frame hl).2.2.2⟩
  | deleteAuthor _ hl _ => exact ⟨(lock?_frame hl).1, (lock?_frame hl).2.2.2⟩
  | insertMessage _ _ _ hl => exact ⟨(lock?_frame hl).1, (lock?_frame hl).2.2.2⟩
  | updateMessage _ _ _ _ _ _ hl => exact ⟨(lock?_frame hl).1, (lock?_frame hl).2.2.2⟩
  | deleteMessage _ hl => exact ⟨(lock?_frame hl).1, (lock?_frame hl).2.2.2⟩

theorem statement_pending (h : Statement c w w') (hd : d ≠ c) : w'.pending d = w.pending d := by
  cases h with
  | same => rfl
  | lock hl => rw [(lock?_frame hl).2.1]
  | insertAuthor _ hl _ => rw [write_pending, if_neg hd, issue_pending, (lock?_frame hl).2.1]
  | renameAuthor _ _ _ _ hl => rw [write_pending, if_neg hd, (lock?_frame hl).2.1]
  | moveAuthor _ _ _ hl _ => rw [write_pending, if_neg hd, (lock?_frame hl).2.1]
  | deleteAuthor _ hl _ => rw [write_pending, if_neg hd, (lock?_frame hl).2.1]
  | insertMessage _ _ _ hl => rw [write_pending, if_neg hd, issue_pending, (lock?_frame hl).2.1]
  | updateMessage _ _ _ _ _ _ hl => rw [write_pending, if_neg hd, (lock?_frame hl).2.1]
  | deleteMessage _ hl => rw [write_pending, if_neg hd, (lock?_frame hl).2.1]

theorem statement_issued (h : Statement c w w') : ∀ id ∈ w.issued, id ∈ w'.issued := by
  intro id hid
  cases h with
  | same => exact hid
  | lock hl => rw [(lock?_frame hl).2.2.1]; exact hid
  | insertAuthor _ hl _ =>
    rw [write_issued, issue_issued, (lock?_frame hl).2.2.1]; exact List.mem_cons_of_mem _ hid
  | renameAuthor _ _ _ _ hl => rw [write_issued, (lock?_frame hl).2.2.1]; exact hid
  | moveAuthor _ _ _ hl _ => rw [write_issued, (lock?_frame hl).2.2.1]; exact hid
  | deleteAuthor _ hl _ => rw [write_issued, (lock?_frame hl).2.2.1]; exact hid
  | insertMessage _ _ _ hl =>
    rw [write_issued, issue_issued, (lock?_frame hl).2.2.1]; exact List.mem_cons_of_mem _ hid
  | updateMessage _ _ _ _ _ _ hl => rw [write_issued, (lock?_frame hl).2.2.1]; exact hid
  | deleteMessage _ hl => rw [write_issued, (lock?_frame hl).2.2.1]; exact hid

/-- A statement takes locks, and gives none back. -/
theorem statement_held (h : Statement c w w') {e r m} (hh : w.locks.Holds e r m) :
    w'.locks.Holds e r m := by
  cases h with
  | same => exact hh
  | lock hl => exact lock?_kept hl hh
  | insertAuthor _ hl _ => exact lock?_kept hl hh
  | renameAuthor _ _ _ _ hl => exact lock?_kept hl hh
  | moveAuthor _ _ _ hl _ => exact lock?_kept hl hh
  | deleteAuthor _ hl _ => exact lock?_kept hl hh
  | insertMessage _ _ _ hl => exact lock?_kept hl hh
  | updateMessage _ _ _ _ _ _ hl => exact lock?_kept hl hh
  | deleteMessage _ hl => exact lock?_kept hl hh

/-- A statement takes locks for its own session only. -/
theorem statement_locks (h : Statement c w w') (hd : d ≠ c) (r : Resource) (m : LockMode) :
    w'.locks.Holds d r m ↔ w.locks.Holds d r m := by
  have took : ∀ {rs u}, w.lock? c rs = some u → ∀ {v : World}, v.locks = u.locks →
      (v.locks.Holds d r m ↔ w.locks.Holds d r m) := by
    intro rs u hl v hv
    rw [hv, lock?_holds hl]
    exact or_iff_right fun h => hd h.1
  cases h with
  | same => exact Iff.rfl
  | lock hl => exact took hl rfl
  | insertAuthor _ hl _ => exact took hl rfl
  | renameAuthor _ _ _ _ hl => exact took hl rfl
  | moveAuthor _ _ _ hl _ => exact took hl rfl
  | deleteAuthor _ hl _ => exact took hl rfl
  | insertMessage _ _ _ hl => exact took hl rfl
  | updateMessage _ _ _ _ _ _ hl => exact took hl rfl
  | deleteMessage _ hl => exact took hl rfl

/-- What a statement adds to its session's writes. A message row it writes has a new id or is
a row the session sees. -/
theorem statement_write (h : Statement c w w') :
    w'.pending c = w.pending c ∨ w'.pending c = [] ∨ ∃ x, w'.pending c = w.pending c ++ [x] ∧
      ∀ id r, x.message? id = some r →
        id ∉ w.issued ∨ ∃ row, (w.view c).messages.lookup id = some row := by
  have wrote : ∀ (u : World) (x : Write), u.pending = w.pending →
      (u.write c x).pending c = w.pending c ++ [x] := by
    intro u x hu
    rw [write_pending, if_pos rfl, hu]
  cases h with
  | same => exact Or.inl rfl
  | lock hl => exact Or.inl (by rw [(lock?_frame hl).2.1])
  | insertAuthor _ hl _ =>
    refine Or.inr (Or.inr ⟨_, wrote _ _ (lock?_frame hl).2.1, ?_⟩)
    intro id r hx; cases hx
  | renameAuthor _ _ _ _ hl =>
    refine Or.inr (Or.inr ⟨_, wrote _ _ (lock?_frame hl).2.1, ?_⟩)
    intro id r hx; cases hx
  | moveAuthor _ _ _ hl _ =>
    refine Or.inr (Or.inr ⟨_, wrote _ _ (lock?_frame hl).2.1, ?_⟩)
    intro id r hx; cases hx
  | deleteAuthor _ hl _ =>
    refine Or.inr (Or.inr ⟨_, wrote _ _ (lock?_frame hl).2.1, ?_⟩)
    intro id r hx; cases hx
  | insertMessage hfresh _ _ hl =>
    refine Or.inr (Or.inr ⟨_, wrote _ _ (lock?_frame hl).2.1, ?_⟩)
    intro id r hx
    obtain ⟨_, hm, rfl, _⟩ | ⟨hm, _⟩ := message?_some hx
    · cases hm; exact Or.inl hfresh
    · cases hm
  | updateMessage hrow hid _ _ _ _ hl =>
    refine Or.inr (Or.inr ⟨_, wrote _ _ (lock?_frame hl).2.1, ?_⟩)
    intro id r hx
    obtain ⟨_, hm, rfl, _⟩ | ⟨hm, _⟩ := message?_some hx
    · cases hm; exact Or.inr ⟨_, by rw [hid]; exact hrow⟩
    · cases hm
  | deleteMessage hrow hl =>
    refine Or.inr (Or.inr ⟨_, wrote _ _ (lock?_frame hl).2.1, ?_⟩)
    intro id r hx
    obtain ⟨_, hm, _, _⟩ | ⟨hm, _⟩ := message?_some hx
    · cases hm
    · cases hm; exact Or.inr ⟨_, hrow⟩

/-- A session's writes are its own. -/
theorem transition_pending (h : Transition c w e w') (hd : d ≠ c) :
    w'.pending d = w.pending d := by
  cases h with
  | statement h => exact statement_pending h hd
  | commit => rw [commit_pending, if_neg hd]
  | rollback => rw [rollback_pending, if_neg hd]
  | cacheSet => rfl
  | cacheEvict => rfl

/-- Until its transaction ends a statement that succeeds keeps the locks of its session. -/
theorem execute_held {f : Fresh} {e : Effect} {a : e.Answer}
    (h : execute c f w e = some (.ok a, w')) (hcommit : e ≠ .commit) (hrollback : e ≠ .rollback)
    {r m} (hh : w.locks.Holds d r m) : w'.locks.Holds d r m := by
  have held : ∀ {a : e.Answer}, Statement c w w' ∨ Refused c w (.ok a : Reply e) w' →
      w'.locks.Holds d r m := by
    rintro a (hs | ⟨⟨_, hexc⟩, _⟩)
    · exact statement_held hs hh
    · cases hexc
  cases e with
  | insertAuthor name email => exact held (insertAuthor_statement h)
  | updateAuthor id name email => exact held (updateAuthor_statement h)
  | deleteAuthor id => exact held (deleteAuthor_statement h)
  | insertMessage title content authorId => exact held (insertMessage_statement h)
  | updateMessage id version content title => exact held (updateMessage_statement h)
  | deleteMessage id => exact held (deleteMessage_statement h)
  | upsertAuthor name email => exact held (upsertAuthor_statement h)
  | advisoryXactLock key =>
    obtain ⟨u, hu, h⟩ := Option.bind_eq_some_iff.mp (h : execAdvisoryXactLock c w key = _)
    cases h
    exact lock?_kept hu hh
  | commit => exact absurd rfl hcommit
  | rollback => exact absurd rfl hrollback
  | selectAuthor | selectMessagesOf | selectAuthors | countAuthors | selectMessage
  | selectMessageId | selectMessages | countMessages | selectAuthorIds | cacheGet | cacheSet
  | cacheEvict => cases h; exact hh

theorem transition_locks (h : Transition c w e w') (hd : d ≠ c) (r : Resource) (m : LockMode) :
    w'.locks.Holds d r m ↔ w.locks.Holds d r m := by
  cases h with
  | statement h => exact statement_locks h hd r m
  | commit => simp [hd]
  | rollback => simp [hd]
  | cacheSet => exact Iff.rfl
  | cacheEvict => exact Iff.rfl

/-- The committed rows change in a commit only. -/
theorem transition_db (h : Transition c w e w') :
    w'.db = w.db ∨ (e = .commit ∧ w' = w.commit c) := by
  cases h with
  | statement h => exact Or.inl (statement_frame h).1
  | commit => exact Or.inr ⟨rfl, rfl⟩
  | rollback => exact Or.inl rfl
  | cacheSet => exact Or.inl rfl
  | cacheEvict => exact Or.inl rfl

theorem transition_cache (h : Transition c w e w') : w'.cache = w.cache ∨
    (∃ key value, e = .cacheSet key value ∧
      w'.cache = Function.update w.cache key (some value)) ∨
    ∃ key, e = .cacheEvict key ∧ w'.cache = Function.update w.cache key none := by
  cases h with
  | statement h => exact Or.inl (statement_frame h).2
  | commit => exact Or.inl rfl
  | rollback => exact Or.inl rfl
  | cacheSet => exact Or.inr (Or.inl ⟨_, _, rfl, rfl⟩)
  | cacheEvict => exact Or.inr (Or.inr ⟨_, rfl, rfl⟩)

end Frames

end Transitions
