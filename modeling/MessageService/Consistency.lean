import MessageService.Transitions

/-! The store keeps its constraints, whatever programs its sessions run.
Every uncommitted write is guarded by the locks its statement took. That is what makes a
commit harmless to the other sessions: it changes no row and no e-mail they rely on. -/
namespace Consistency

open Models Schemas KeyedTables LockTables Postgres Transitions

/-- An exclusive lock on a row, in either of the two modes a write takes. -/
def WriteLocked (w : World) (c : ℕ) (r : Resource) : Prop :=
  w.locks.Holds c r .noKeyUpdate ∨ w.locks.Holds c r .update

theorem writeLocked_unique {w : World} {c d : ℕ} {r : Resource} (h : WriteLocked w c r)
    (h' : WriteLocked w d r) : c = d := by
  rcases h with h | h <;> rcases h' with h' | h' <;> exact holds_unique h h' rfl

/-- Row `b` is a later state of row `a`: an update raises the version and keeps the rest. -/
structure Precedes (a b : Message) : Prop where
  id : b.id = a.id
  version : a.version < b.version
  author : b.authorId = a.authorId
  created : b.createdAt = a.createdAt

theorem Precedes.trans {a b d : Message} (h : Precedes a b) (h' : Precedes b d) : Precedes a d :=
  ⟨h'.id.trans h.id, h.version.trans h'.version, h'.author.trans h.author,
    h'.created.trans h.created⟩

def Guarded (w : World) (c : ℕ) : Write → Prop
  | .putAuthor a => WriteLocked w c (.author a.id) ∧
      (w.locks.Holds c (.email a.email) .update ∨
        ∃ row, w.db.authors.lookup a.id = some row ∧ row.email = a.email) ∧
      ∀ row, w.db.authors.lookup a.id = some row → row.createdAt = a.createdAt
  | .dropAuthor id => w.locks.Holds c (.author id) .update
  | .putMessage m => WriteLocked w c (.message m.id) ∧
      (w.locks.Holds c (.author m.authorId) .keyShare ∨
        ∃ row, w.db.messages.lookup m.id = some row) ∧
      ∀ row, w.db.messages.lookup m.id = some row → Precedes row m
  | .dropMessage id => w.locks.Holds c (.message id) .update

structure Consistent (w : World) : Prop where
  guarded : ∀ c, ∀ x ∈ w.pending c, Guarded w c x
  message_issued : ∀ id row, w.db.messages.lookup id = some row → id ∈ w.issued
  author_issued : ∀ id row, w.db.authors.lookup id = some row → id ∈ w.issued
  write_issued : ∀ c, ∀ x ∈ w.pending c,
    (∀ id r, x.message? id = some r → id ∈ w.issued) ∧
    (∀ id r, x.author? id = some r → id ∈ w.issued)
  emails : ∀ c, (w.view c).EmailsUnique
  committed_emails : w.db.EmailsUnique
  foreign_keys : ∀ c, (w.view c).ForeignKeys
  committed_foreign_keys : w.db.ForeignKeys

section Guards

variable {w w' : World} {c d : ℕ}

theorem writeLocked_message {x : Write} {id : Uuid} {r} (h : Guarded w c x)
    (hx : x.message? id = some r) : WriteLocked w c (.message id) := by
  rcases message?_some hx with ⟨m, rfl, rfl, _⟩ | ⟨rfl, _⟩
  · exact h.1
  · exact Or.inr h

theorem writeLocked_author {x : Write} {id : Uuid} {r} (h : Guarded w c x)
    (hx : x.author? id = some r) : WriteLocked w c (.author id) := by
  rcases author?_some hx with ⟨a, rfl, rfl, _⟩ | ⟨rfl, _⟩
  · exact h.1
  · exact Or.inr h

/-- A row locked by another session is not among a session's writes. -/
theorem lastMessage_none (h : ∀ x ∈ w.pending d, Guarded w d x) (hcd : c ≠ d) {id : Uuid}
    (hl : WriteLocked w c (.message id)) : lastMessage (w.pending d) id = none := by
  cases hd : lastMessage (w.pending d) id with
  | none => rfl
  | some r =>
    obtain ⟨x, hx, hr⟩ := lastMessage_written hd
    exact absurd (writeLocked_unique hl (writeLocked_message (h x hx) hr)) hcd

theorem lastAuthor_none (h : ∀ x ∈ w.pending d, Guarded w d x) (hcd : c ≠ d) {id : Uuid}
    (hl : WriteLocked w c (.author id)) : lastAuthor (w.pending d) id = none := by
  cases hd : lastAuthor (w.pending d) id with
  | none => rfl
  | some r =>
    obtain ⟨x, hx, hr⟩ := lastAuthor_written hd
    exact absurd (writeLocked_unique hl (writeLocked_author (h x hx) hr)) hcd

/-- More locks and the same committed rows keep a write guarded. -/
theorem guarded_mono {x : Write} (h : Guarded w c x) (hdb : w'.db = w.db)
    (hl : ∀ r m, w.locks.Holds c r m → w'.locks.Holds c r m) : Guarded w' c x := by
  have hw : ∀ r, WriteLocked w c r → WriteLocked w' c r := fun r h =>
    h.imp (hl r _) (hl r _)
  cases x with
  | putAuthor a =>
    obtain ⟨h1, h2, h3⟩ := h
    refine ⟨hw _ h1, ?_, ?_⟩
    · rw [hdb]; exact h2.imp_left (hl _ _)
    · rw [hdb]; exact h3
  | dropAuthor id => exact hl _ _ h
  | putMessage m =>
    obtain ⟨h1, h2, h3⟩ := h
    refine ⟨hw _ h1, ?_, ?_⟩
    · rw [hdb]; exact h2.imp_left (hl _ _)
    · rw [hdb]; exact h3
  | dropMessage id => exact hl _ _ h

/-- A commit keeps the writes of every other session guarded. -/
theorem guarded_commit {x : Write} (hc : ∀ y ∈ w.pending c, Guarded w c y) (hcd : d ≠ c)
    (h : Guarded w d x) : Guarded (w.commit c) d x := by
  have hl : ∀ r m, w.locks.Holds d r m → (w.commit c).locks.Holds d r m := by
    intro r m hh; simp [hh, hcd]
  have hw : ∀ r, WriteLocked w d r → WriteLocked (w.commit c) d r := fun r h =>
    h.imp (hl r _) (hl r _)
  cases x with
  | putAuthor a =>
    obtain ⟨h1, h2, h3⟩ := h
    have hrow : (w.commit c).db.authors.lookup a.id = w.db.authors.lookup a.id := by
      rw [commit_db, view_author, lastAuthor_none hc hcd h1]; rfl
    refine ⟨hw _ h1, ?_, ?_⟩
    · rw [hrow]; exact h2.imp_left (hl _ _)
    · rw [hrow]; exact h3
  | dropAuthor id => exact hl _ _ h
  | putMessage m =>
    obtain ⟨h1, h2, h3⟩ := h
    have hrow : (w.commit c).db.messages.lookup m.id = w.db.messages.lookup m.id := by
      rw [commit_db, view_message, lastMessage_none hc hcd h1]; rfl
    refine ⟨hw _ h1, ?_, ?_⟩
    · rw [hrow]; exact h2.imp_left (hl _ _)
    · rw [hrow]; exact h3
  | dropMessage id => exact hl _ _ h

end Guards

section Emails

/-- The e-mails stay distinct when a row whose e-mail is free is put into the table. -/
theorem emails_put {db : Db} {a : Author} (h : db.EmailsUnique)
    (ha : ∀ b, db.authors.lookup b.id = some b → b.email = a.email → b.id = a.id) :
    (db.apply (.putAuthor a)).EmailsUnique := by
  intro x y hx hy hxy
  simp only [Db.apply, lookup_put] at hx hy
  split at hx <;> split at hy
  · rw [← Option.some.inj hx, ← Option.some.inj hy]
  · rename_i hxa hya
    obtain rfl := Option.some.inj hx
    exact absurd (ha y hy hxy.symm) hya
  · rename_i hxa hya
    obtain rfl := Option.some.inj hy
    exact absurd (ha x hx hxy) hxa
  · exact h x y hx hy hxy

theorem emails_drop {db : Db} {id : Uuid} (h : db.EmailsUnique) :
    (db.apply (.dropAuthor id)).EmailsUnique := by
  intro x y hx hy hxy
  simp only [Db.apply, lookup_drop] at hx hy
  split at hx
  · cases hx
  · split at hy
    · cases hy
    · exact h x y hx hy hxy

theorem emailTaken_iff {db : Db} {e : String} :
    db.emailTaken e ↔ ∃ a : Author, db.authors.lookup a.id = some a ∧ a.email = e :=
  exists_congr fun _ => and_congr_left' mem_rows_iff

variable {w : World} {c d : ℕ}

/-- Two sessions never hold one e-mail after a commit: whoever wrote it has the index entry
locked, and an e-mail that was not moved was already checked against. -/
theorem emails_cross (h : Consistent w) (hcd : d ≠ c) {a b : Author}
    (ha : lastAuthor (w.pending d) a.id = some (some a))
    (hb : lastAuthor (w.pending d) b.id = none)
    (hv : (w.view c).authors.lookup b.id = some b) : a.email ≠ b.email := by
  intro he
  have hD : (w.view d).authors.lookup a.id = some a := by rw [view_author, ha]; rfl
  obtain ⟨x, hx, hxa⟩ := lastAuthor_written ha
  obtain ⟨a', rfl, _, ha'⟩ | ⟨_, hn⟩ := author?_some hxa
  swap
  · cases hn
  obtain rfl := Option.some.inj ha'
  obtain ⟨hlock, hmail, _⟩ := h.guarded d _ hx
  have hne : a.id ≠ b.id := by
    intro hid; rw [hid, hb] at ha; cases ha
  -- a row of `b.id` with this e-mail in session `d`'s view would clash with `a` there
  have clash : ∀ row : Author, w.db.authors.lookup b.id = some row → row.email = b.email →
      False := by
    intro row hrow hre
    have hid : row.id = b.id := lookup_key hrow
    have hDb : (w.view d).authors.lookup row.id = some row := by
      rw [hid, view_author, hb]; exact hrow
    have := h.emails d a row hD hDb (he.trans hre.symm)
    exact hne (by rw [this, hid])
  rw [view_author] at hv
  cases hcb : lastAuthor (w.pending c) b.id with
  | none =>
    rw [hcb] at hv
    exact clash b hv rfl
  | some r =>
    rw [hcb] at hv
    obtain rfl : r = some b := hv
    obtain ⟨y, hy, hyb⟩ := lastAuthor_written hcb
    obtain ⟨b', rfl, _, hb'⟩ | ⟨_, hn⟩ := author?_some hyb
    swap
    · cases hn
    obtain rfl := Option.some.inj hb'
    obtain ⟨_, hmail', _⟩ := h.guarded c _ hy
    rcases hmail' with hl' | ⟨row, hrow, hre⟩
    · rcases hmail with hl | ⟨row, hrow, hre⟩
      · rw [he] at hl
        exact hcd (holds_unique hl hl' rfl)
      · have hid : row.id = a.id := lookup_key hrow
        have hVa : (w.view c).authors.lookup row.id = some row := by
          rw [hid, view_author, lastAuthor_none (h.guarded c) hcd hlock]; exact hrow
        have hVb : (w.view c).authors.lookup b.id = some b := by
          rw [view_author, hcb]; rfl
        have := h.emails c row b hVa hVb (hre.trans he)
        exact hne (by rw [← hid, this])
    · exact clash row hrow hre

theorem emails_commit (h : Consistent w) (hcd : d ≠ c) :
    ((w.commit c).view d).EmailsUnique := by
  have hview : ∀ id, ((w.commit c).view d).authors.lookup id =
      (lastAuthor (w.pending d) id).getD ((w.view c).authors.lookup id) := by
    intro id; rw [view_author, commit_pending, if_neg hcd, commit_db]
  intro a b ha hb hab
  rw [hview] at ha hb
  cases hda : lastAuthor (w.pending d) a.id with
  | none =>
    rw [hda] at ha
    cases hdb : lastAuthor (w.pending d) b.id with
    | none => rw [hdb] at hb; exact h.emails c a b ha hb hab
    | some r =>
      rw [hdb] at hb
      obtain rfl : r = some b := hb
      exact absurd hab.symm (emails_cross h hcd hdb hda ha)
  | some r =>
    rw [hda] at ha
    obtain rfl : r = some a := ha
    cases hdb : lastAuthor (w.pending d) b.id with
    | none => rw [hdb] at hb; exact absurd hab (emails_cross h hcd hda hdb hb)
    | some r =>
      rw [hdb] at hb
      obtain rfl : r = some b := hb
      have hDa : (w.view d).authors.lookup a.id = some a := by rw [view_author, hda]; rfl
      have hDb : (w.view d).authors.lookup b.id = some b := by rw [view_author, hdb]; rfl
      exact h.emails d a b hDa hDb hab

end Emails

section ForeignKeys

theorem foreign_keys_putAuthor {db : Db} {a : Author} (h : db.ForeignKeys) :
    (db.apply (.putAuthor a)).ForeignKeys := by
  intro m hm
  obtain ⟨b, hb⟩ := h m hm
  simp only [Db.apply, lookup_put]
  split
  · exact ⟨a, rfl⟩
  · exact ⟨b, hb⟩

theorem foreign_keys_dropAuthor {db : Db} {id : Uuid} (h : db.ForeignKeys)
    (hr : db.referencing id = []) : (db.apply (.dropAuthor id)).ForeignKeys := by
  intro m hm
  obtain ⟨b, hb⟩ := h m hm
  have hne : m.authorId ≠ id := by
    intro hid
    have hmem : m ∈ db.referencing id :=
      List.mem_filter.mpr ⟨mem_rows_iff.mpr hm, by simpa using hid⟩
    rw [hr] at hmem; cases hmem
  exact ⟨b, by simp only [Db.apply, lookup_drop, if_neg hne]; exact hb⟩

theorem foreign_keys_putMessage {db : Db} {m : Message} (h : db.ForeignKeys)
    (hm : ∃ a, db.authors.lookup m.authorId = some a) :
    (db.apply (.putMessage m)).ForeignKeys := by
  intro n hn
  simp only [Db.apply, lookup_put] at hn
  split at hn
  · rw [← Option.some.inj hn]; exact hm
  · exact h n hn

theorem foreign_keys_dropMessage {db : Db} {id : Uuid} (h : db.ForeignKeys) :
    (db.apply (.dropMessage id)).ForeignKeys := by
  intro n hn
  simp only [Db.apply, lookup_drop] at hn
  split at hn
  · cases hn
  · exact h n hn

variable {w : World} {c d : ℕ}

/-- A session that has deleted an author excludes every message another session has for it:
its inserter holds the author `FOR KEY SHARE`, and an older message is in the view that the
deletion was checked against. -/
theorem drop_excludes (h : Consistent w) (hcd : d ≠ c) {m : Message}
    (hd : lastMessage (w.pending d) m.id = some (some m))
    (hc : lastAuthor (w.pending c) m.authorId = some none) : False := by
  obtain ⟨x, hx, hxa⟩ := lastAuthor_written hc
  obtain ⟨_, _, _, hn⟩ | ⟨rfl, _⟩ := author?_some hxa
  · cases hn
  have hlock : w.locks.Holds c (.author m.authorId) .update := h.guarded c _ hx
  obtain ⟨y, hy, hym⟩ := lastMessage_written hd
  obtain ⟨m', rfl, _, hm'⟩ | ⟨_, hn⟩ := message?_some hym
  swap
  · cases hn
  obtain rfl := Option.some.inj hm'
  obtain ⟨hrow, hshare | ⟨row, hdb⟩, hprec⟩ := h.guarded d _ hy
  · exact hcd (holds_unique hshare hlock rfl)
  · have hV : (w.view c).messages.lookup row.id = some row := by
      rw [view_message, (hprec row hdb).id.symm, lastMessage_none (h.guarded c) hcd hrow]
      exact hdb
    obtain ⟨a, ha⟩ := h.foreign_keys c row hV
    rw [← (hprec row hdb).author, view_author, hc] at ha
    cases ha

theorem foreign_keys_commit (h : Consistent w) (hcd : d ≠ c) :
    ((w.commit c).view d).ForeignKeys := by
  have hmsg : ∀ id, ((w.commit c).view d).messages.lookup id =
      (lastMessage (w.pending d) id).getD ((w.view c).messages.lookup id) := by
    intro id; rw [view_message, commit_pending, if_neg hcd, commit_db]
  have haut : ∀ id, ((w.commit c).view d).authors.lookup id =
      (lastAuthor (w.pending d) id).getD ((w.view c).authors.lookup id) := by
    intro id; rw [view_author, commit_pending, if_neg hcd, commit_db]
  intro m hm
  rw [hmsg] at hm
  rw [haut]
  cases hdm : lastMessage (w.pending d) m.id with
  | some r =>
    rw [hdm] at hm
    obtain rfl : r = some m := hm
    have hD : (w.view d).messages.lookup m.id = some m := by rw [view_message, hdm]; rfl
    obtain ⟨a, ha⟩ := h.foreign_keys d m hD
    rw [view_author] at ha
    cases hda : lastAuthor (w.pending d) m.authorId with
    | some r' => rw [hda] at ha; exact ⟨a, ha⟩
    | none =>
      rw [hda] at ha
      rw [Option.getD_none, view_author]
      cases hca : lastAuthor (w.pending c) m.authorId with
      | none => exact ⟨a, ha⟩
      | some r' =>
        cases r' with
        | some a' => exact ⟨a', rfl⟩
        | none => exact (drop_excludes h hcd hdm hca).elim
  | none =>
    rw [hdm] at hm
    obtain ⟨a, ha⟩ := h.foreign_keys c m hm
    cases hda : lastAuthor (w.pending d) m.authorId with
    | none => exact ⟨a, ha⟩
    | some r =>
      cases r with
      | some a' => exact ⟨a', rfl⟩
      | none =>
        rw [Option.getD_none, view_message] at hm
        cases hcm : lastMessage (w.pending c) m.id with
        | some r' =>
          rw [hcm] at hm
          obtain rfl : r' = some m := hm
          exact (drop_excludes h (Ne.symm hcd) hcm hda).elim
        | none =>
          rw [hcm] at hm
          have hD : (w.view d).messages.lookup m.id = some m := by
            rw [view_message, hdm]; exact hm
          obtain ⟨a', ha'⟩ := h.foreign_keys d m hD
          rw [view_author, hda] at ha'
          cases ha'

end ForeignKeys

section Preservation

variable {w u w' : World} {c : ℕ}

/-- More locks and more issued ids keep everything while the rows and the writes stay. -/
theorem consistent_mono (h : Consistent w) (hdb : w'.db = w.db) (hp : w'.pending = w.pending)
    (hi : ∀ id ∈ w.issued, id ∈ w'.issued)
    (hl : ∀ d r m, w.locks.Holds d r m → w'.locks.Holds d r m) : Consistent w' := by
  have hview : ∀ d, w'.view d = w.view d := by
    intro d
    rw [World.view, hdb, hp, World.view]
  constructor
  · intro d x hx
    rw [hp] at hx
    exact guarded_mono (h.guarded d x hx) hdb (hl d)
  · intro id row hr
    rw [hdb] at hr
    exact hi id (h.message_issued id row hr)
  · intro id row hr
    rw [hdb] at hr
    exact hi id (h.author_issued id row hr)
  · intro d x hx
    rw [hp] at hx
    obtain ⟨hmessage, hauthor⟩ := h.write_issued d x hx
    exact ⟨fun id r hr => hi id (hmessage id r hr), fun id r hr => hi id (hauthor id r hr)⟩
  · intro d
    rw [hview]
    exact h.emails d
  · rw [hdb]
    exact h.committed_emails
  · intro d
    rw [hview]
    exact h.foreign_keys d
  · rw [hdb]
    exact h.committed_foreign_keys

theorem consistent_lock (h : Consistent w) {rs : List (Resource × LockMode)}
    (hl : w.lock? c rs = some u) : Consistent u := by
  obtain ⟨hdb, hp, hi, _⟩ := lock?_frame hl
  refine consistent_mono h hdb hp (fun id hid => ?_) fun _ _ _ => lock?_kept hl
  rw [hi]
  exact hid

theorem consistent_issue (h : Consistent w) (id : Uuid) : Consistent (w.issue id) :=
  consistent_mono h rfl rfl (fun _ => List.mem_cons_of_mem id) fun _ _ _ hh => hh

/-- The step lemma of a writing statement: its own view has to keep the constraints and the
write has to be guarded; everything else is only extended. -/
theorem consistent_write (h : Consistent w) {x : Write} (hg : Guarded w c x)
    (hx : (∀ id r, x.message? id = some r → id ∈ w.issued) ∧
      (∀ id r, x.author? id = some r → id ∈ w.issued))
    (he : ((w.view c).apply x).EmailsUnique) (hf : ((w.view c).apply x).ForeignKeys) :
    Consistent (w.write c x) := by
  have hown : (w.write c x).view c = (w.view c).apply x := by
    simp only [World.view, write_db, write_pending, if_pos, applyAll_append]
  have hother : ∀ d, d ≠ c → (w.write c x).view d = w.view d := by
    intro d hd
    simp only [World.view, write_db, write_pending, if_neg hd]
  have written : ∀ d, ∀ y ∈ (w.write c x).pending d, y ∈ w.pending d ∨ d = c ∧ y = x := by
    intro d y hy
    rw [write_pending] at hy
    by_cases hd : d = c
    · rw [if_pos hd] at hy
      rcases List.mem_append.mp hy with hy | hy
      · exact Or.inl (hd ▸ hy)
      · exact Or.inr ⟨hd, List.mem_singleton.mp hy⟩
    · rw [if_neg hd] at hy
      exact Or.inl hy
  constructor
  · intro d y hy
    rcases written d y hy with hy | ⟨rfl, rfl⟩
    · exact guarded_mono (h.guarded d y hy) rfl fun _ _ hh => hh
    · exact guarded_mono hg rfl fun _ _ hh => hh
  · exact h.message_issued
  · exact h.author_issued
  · intro d y hy
    rcases written d y hy with hy | ⟨rfl, rfl⟩
    · exact h.write_issued d y hy
    · exact hx
  · intro d
    by_cases hd : d = c
    · subst hd
      rw [hown]
      exact he
    · rw [hother d hd]
      exact h.emails d
  · exact h.committed_emails
  · intro d
    by_cases hd : d = c
    · subst hd
      rw [hown]
      exact hf
    · rw [hother d hd]
      exact h.foreign_keys d
  · exact h.committed_foreign_keys

/-- Dropping a session's writes, and nobody else's locks, keeps everything. -/
theorem consistent_discard (h : Consistent w) (hdb : w'.db = w.db)
    (hp : ∀ d, w'.pending d = if d = c then [] else w.pending d)
    (hi : w'.issued = w.issued)
    (hl : ∀ d r m, d ≠ c → w.locks.Holds d r m → w'.locks.Holds d r m) :
    Consistent w' := by
  have hview : ∀ d, w'.view d = if d = c then w.db else w.view d := by
    intro d
    simp only [World.view, hdb, hp]
    split <;> rfl
  constructor
  · intro d y hy
    rw [hp] at hy
    split at hy
    · cases hy
    · rename_i hd
      exact guarded_mono (h.guarded d y hy) hdb fun r m => hl d r m hd
  · rw [hdb, hi]; exact h.message_issued
  · rw [hdb, hi]; exact h.author_issued
  · intro d y hy
    rw [hp] at hy
    rw [hi]
    split at hy
    · cases hy
    · exact h.write_issued d y hy
  · intro d
    rw [hview]
    split
    · exact h.committed_emails
    · exact h.emails d
  · rw [hdb]; exact h.committed_emails
  · intro d
    rw [hview]
    split
    · exact h.committed_foreign_keys
    · exact h.foreign_keys d
  · rw [hdb]; exact h.committed_foreign_keys

/-- The step lemma of a commit: the committed rows become the session's view. -/
theorem consistent_commit (h : Consistent w) : Consistent (w.commit c) := by
  have hview : (w.commit c).view c = w.view c :=
    view_of_pending_nil (by rw [commit_pending, if_pos rfl])
  constructor
  · intro d y hy
    rw [commit_pending] at hy
    split at hy
    · cases hy
    · rename_i hd
      exact guarded_commit (h.guarded c) hd (h.guarded d y hy)
  · intro id row hr
    rw [commit_db, view_message] at hr
    cases hc : lastMessage (w.pending c) id with
    | none => rw [hc] at hr; exact h.message_issued id row hr
    | some r =>
      obtain ⟨x, hx, hxr⟩ := lastMessage_written hc
      exact (h.write_issued c x hx).1 id r hxr
  · intro id row hr
    rw [commit_db, view_author] at hr
    cases hc : lastAuthor (w.pending c) id with
    | none => rw [hc] at hr; exact h.author_issued id row hr
    | some r =>
      obtain ⟨x, hx, hxr⟩ := lastAuthor_written hc
      exact (h.write_issued c x hx).2 id r hxr
  · intro d y hy
    rw [commit_pending] at hy
    split at hy
    · cases hy
    · exact h.write_issued d y hy
  · intro d
    by_cases hd : d = c
    · subst hd; rw [hview]; exact h.emails d
    · exact emails_commit h hd
  · exact h.emails c
  · intro d
    by_cases hd : d = c
    · subst hd; rw [hview]; exact h.foreign_keys d
    · exact foreign_keys_commit h hd
  · exact h.foreign_keys c

/-- An author row a session sees has its committed e-mail or one the session has locked. -/
theorem viewed_author (h : Consistent w) {a : Author}
    (ha : (w.view c).authors.lookup a.id = some a) :
    (w.locks.Holds c (.email a.email) .update ∨
      ∃ row, w.db.authors.lookup a.id = some row ∧ row.email = a.email) ∧
    ∀ row, w.db.authors.lookup a.id = some row → row.createdAt = a.createdAt := by
  rw [view_author] at ha
  cases hc : lastAuthor (w.pending c) a.id with
  | none =>
    rw [hc] at ha
    refine ⟨Or.inr ⟨a, ha, rfl⟩, ?_⟩
    intro row hrow
    rw [Option.getD_none, hrow] at ha
    rw [Option.some.inj ha]
  | some r =>
    rw [hc] at ha
    obtain rfl : r = some a := ha
    obtain ⟨x, hx, hxa⟩ := lastAuthor_written hc
    obtain ⟨a', rfl, _, ha'⟩ | ⟨_, hn⟩ := author?_some hxa
    · obtain rfl := Option.some.inj ha'
      exact (h.guarded c _ hx).2
    · cases hn

/-- A message row a session sees is the committed row or follows it. -/
theorem viewed_message (h : Consistent w) {m : Message}
    (hm : (w.view c).messages.lookup m.id = some m) :
    (w.locks.Holds c (.author m.authorId) .keyShare ∨
      ∃ row, w.db.messages.lookup m.id = some row) ∧
    ∀ row, w.db.messages.lookup m.id = some row → row = m ∨ Precedes row m := by
  rw [view_message] at hm
  cases hc : lastMessage (w.pending c) m.id with
  | none =>
    rw [hc] at hm
    refine ⟨Or.inr ⟨m, hm⟩, ?_⟩
    intro row hrow
    rw [Option.getD_none, hrow] at hm
    exact Or.inl (Option.some.inj hm)
  | some r =>
    rw [hc] at hm
    obtain rfl : r = some m := hm
    obtain ⟨x, hx, hxm⟩ := lastMessage_written hc
    obtain ⟨m', rfl, _, hm'⟩ | ⟨_, hn⟩ := message?_some hxm
    · obtain rfl := Option.some.inj hm'
      obtain ⟨_, hshare, hprec⟩ := h.guarded c _ hx
      exact ⟨hshare, fun row hrow => Or.inr (hprec row hrow)⟩
    · cases hn

theorem put_issued {w : World} {a : Author} (h : a.id ∈ w.issued) :
    (∀ id r, (Write.putAuthor a).message? id = some r → id ∈ w.issued) ∧
    ∀ id r, (Write.putAuthor a).author? id = some r → id ∈ w.issued := by
  refine ⟨?_, ?_⟩
  · intro id r hr; cases hr
  · intro id r hr
    obtain ⟨a', ha', rfl, _⟩ | ⟨hn, _⟩ := author?_some hr
    · cases ha'; exact h
    · cases hn

theorem put_message_issued {w : World} {m : Message} (h : m.id ∈ w.issued) :
    (∀ id r, (Write.putMessage m).message? id = some r → id ∈ w.issued) ∧
    ∀ id r, (Write.putMessage m).author? id = some r → id ∈ w.issued := by
  refine ⟨?_, ?_⟩
  · intro id r hr
    obtain ⟨m', hm', rfl, _⟩ | ⟨hn, _⟩ := message?_some hr
    · cases hm'; exact h
    · cases hn
  · intro id r hr; cases hr

theorem viewed_author_issued (h : Consistent w) {id : Uuid} {a : Author}
    (ha : (w.view c).authors.lookup id = some a) : id ∈ w.issued := by
  rw [view_author] at ha
  cases hc : lastAuthor (w.pending c) id with
  | none => rw [hc] at ha; exact h.author_issued id a ha
  | some r =>
    obtain ⟨x, hx, hxr⟩ := lastAuthor_written hc
    exact (h.write_issued c x hx).2 id r hxr

theorem viewed_message_issued (h : Consistent w) {id : Uuid} {m : Message}
    (hm : (w.view c).messages.lookup id = some m) : id ∈ w.issued := by
  rw [view_message] at hm
  cases hc : lastMessage (w.pending c) id with
  | none => rw [hc] at hm; exact h.message_issued id m hm
  | some r =>
    obtain ⟨x, hx, hxr⟩ := lastMessage_written hc
    exact (h.write_issued c x hx).1 id r hxr

/-- One case per statement: its locks and a new id come first, then its write. -/
theorem consistent_statement (h : Consistent w) (ht : Statement c w w') : Consistent w' := by
  cases ht with
  | same => exact h
  | lock hl => exact consistent_lock h hl
  | @insertAuthor a u hfresh hl hfree =>
    have hu := consistent_issue (consistent_lock h hl) a.id
    obtain ⟨hdb, _⟩ := lock?_frame hl
    refine consistent_write hu ⟨?_, ?_, ?_⟩ (put_issued (List.mem_cons_self ..))
      (emails_put (hu.emails c) ?_) (foreign_keys_putAuthor (hu.foreign_keys c))
    · exact Or.inr (lock?_taken hl (by simp))
    · exact Or.inl (lock?_taken hl (by simp))
    · intro row hrow
      rw [issue_db, hdb] at hrow
      exact absurd (h.author_issued _ _ hrow) hfresh
    · intro b hb he
      have hb : (u.view c).authors.lookup b.id = some b := hb
      rw [lock?_view hl] at hb
      exact absurd (emailTaken_iff.mpr ⟨b, hb, he⟩) hfree
  | @renameAuthor a a' u ha hid hcreated hemail hl =>
    have hu := consistent_lock h hl
    rw [← lock?_view hl] at ha
    obtain ⟨hmail, hcr⟩ := viewed_author hu ha
    refine consistent_write hu ⟨?_, ?_, ?_⟩ (put_issued ?_)
      (emails_put (hu.emails c) ?_) (foreign_keys_putAuthor (hu.foreign_keys c))
    · exact Or.inl (lock?_taken hl (by simp [hid]))
    · rw [hid, hemail]
      exact hmail
    · intro row hrow
      rw [hid] at hrow
      rw [hcreated]
      exact hcr row hrow
    · rw [hid]
      exact viewed_author_issued hu ha
    · intro b hb he
      rw [hid, hu.emails c b a hb ha (he.trans hemail)]
  | @moveAuthor a a' u ha hid hcreated hl hfree =>
    have hu := consistent_lock h hl
    rw [← lock?_view hl] at ha hfree
    obtain ⟨_, hcr⟩ := viewed_author hu ha
    refine consistent_write hu ⟨?_, ?_, ?_⟩ (put_issued ?_)
      (emails_put (hu.emails c) ?_) (foreign_keys_putAuthor (hu.foreign_keys c))
    · exact Or.inr (lock?_taken hl (by simp [hid]))
    · exact Or.inl (lock?_taken hl (by simp))
    · intro row hrow
      rw [hid] at hrow
      rw [hcreated]
      exact hcr row hrow
    · rw [hid]
      exact viewed_author_issued hu ha
    · intro b hb he
      exact absurd (emailTaken_iff.mpr ⟨b, hb, he⟩) hfree
  | @deleteAuthor a u ha hl hrefs =>
    have hu := consistent_lock h hl
    rw [← lock?_view hl] at ha hrefs
    refine consistent_write hu (lock?_taken hl (by simp)) ⟨?_, ?_⟩
      (emails_drop (hu.emails c)) (foreign_keys_dropAuthor (hu.foreign_keys c) hrefs)
    · intro id r hr; cases hr
    · intro id r hr
      obtain ⟨_, hn, _⟩ | ⟨hd, _⟩ := author?_some hr
      · cases hn
      · cases hd
        exact viewed_author_issued hu ha
  | @insertMessage m a u hfresh _ ha hl =>
    have hu := consistent_issue (consistent_lock h hl) m.id
    rw [← lock?_view hl] at ha
    obtain ⟨hdb, _⟩ := lock?_frame hl
    refine consistent_write hu ⟨?_, ?_, ?_⟩ (put_message_issued (List.mem_cons_self ..))
      (hu.emails c) (foreign_keys_putMessage (hu.foreign_keys c) ⟨a, ha⟩)
    · exact Or.inr (lock?_taken hl (by simp))
    · exact Or.inl (lock?_taken hl (by simp))
    · intro row hrow
      rw [issue_db, hdb] at hrow
      exact absurd (h.message_issued _ _ hrow) hfresh
  | @updateMessage m m' u hm hid hauthor hcreated hversion _ hl =>
    have hu := consistent_lock h hl
    rw [← lock?_view hl] at hm
    obtain ⟨hshare, hrow⟩ := viewed_message hu hm
    refine consistent_write hu ⟨?_, ?_, ?_⟩ (put_message_issued ?_)
      (hu.emails c) (foreign_keys_putMessage (hu.foreign_keys c) ?_)
    · exact Or.inl (lock?_taken hl (by simp [hid]))
    · rw [hid, hauthor]
      exact hshare
    · intro row hr
      rw [hid] at hr
      rcases hrow row hr with rfl | hprec
      · exact ⟨hid, by omega, hauthor, hcreated⟩
      · exact ⟨hid.trans hprec.id, by have := hprec.version; omega,
          hauthor.trans hprec.author, hcreated.trans hprec.created⟩
    · rw [hid]
      exact viewed_message_issued hu hm
    · rw [hauthor]
      exact hu.foreign_keys c m hm
  | @deleteMessage m u hm hl =>
    have hu := consistent_lock h hl
    rw [← lock?_view hl] at hm
    refine consistent_write hu (lock?_taken hl (by simp)) ⟨?_, ?_⟩
      (hu.emails c) (foreign_keys_dropMessage (hu.foreign_keys c))
    · intro id r hr
      obtain ⟨_, hn, _⟩ | ⟨hd, _⟩ := message?_some hr
      · cases hn
      · cases hd
        exact viewed_message_issued hu hm
    · intro id r hr; cases hr

/-- A cache call leaves the tables alone. -/
theorem consistent_cache (h : Consistent w) (f : String → Option String) :
    Consistent { w with cache := f } :=
  consistent_mono h rfl rfl (fun _ hid => hid) fun _ _ _ hh => hh

theorem consistent_rollback (h : Consistent w) : Consistent (w.rollback c) := by
  refine consistent_discard (c := c) h rfl (fun d => rollback_pending w c d) rfl ?_
  intro d r m hd hh
  simp [hh, hd]

/-- Whatever a session does next, the constraints and the guards hold afterwards. -/
theorem consistent_transition {e : Effect} (h : Consistent w) (ht : Transition c w e w') :
    Consistent w' := by
  cases ht with
  | statement ht => exact consistent_statement h ht
  | commit => exact consistent_commit h
  | rollback => exact consistent_rollback h
  | cacheSet => exact consistent_cache h _
  | cacheEvict => exact consistent_cache h _

/-- Sound tables with no session open. -/
theorem consistent_ofDb (s : SoundDb) : Consistent (World.ofDb s.toDb) := by
  have hview : ∀ c, (World.ofDb s.toDb).view c = s.toDb := fun c => view_of_pending_nil rfl
  constructor
  · intro c x hx; cases hx
  · intro id row hr
    have hmem := lookup_mem hr
    obtain rfl := lookup_key hr
    exact List.mem_append_right _ (List.mem_map_of_mem hmem)
  · intro id row hr
    have hmem := lookup_mem hr
    obtain rfl := lookup_key hr
    exact List.mem_append_left _ (List.mem_map_of_mem hmem)
  · intro c x hx; cases hx
  · intro c; rw [hview]; exact s.emails_unique
  · exact s.emails_unique
  · intro c; rw [hview]; exact s.foreign_keys
  · exact s.foreign_keys

end Preservation

end Consistency
