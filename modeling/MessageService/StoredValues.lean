import MessageService.StoredStrings

/-! Every string in the tables is one the API accepts.
What a statement writes are strings of a validated payload, or constants of the seed, and a
statement that succeeds has stored them; so the rows keep what the check has established. -/
namespace StoredValues

open Programs Interleaving Texts Models Schemas MessageJson KeyedTables Postgres Services
open ServiceRuns Transitions Statements Footprints Histories Traces StoredStrings

section Rows

/-- A string that the check returns unchanged and that its column stores. -/
def Accepted (f : Field) (s : Text) : Prop := Checked f s ∧ Fits (f, s)

structure AcceptedMessage (m : Message) : Prop where
  title : Accepted .title (text m.title)
  content : Accepted .content (text m.content)

structure AcceptedAuthor (a : Author) : Prop where
  name : Accepted .name (text a.name)
  email : Accepted .email (text a.email)

def AcceptedWrite : Write → Prop
  | .putAuthor a => AcceptedAuthor a
  | .putMessage m => AcceptedMessage m
  | .dropAuthor _ | .dropMessage _ => True

structure AcceptedDb (db : Db) : Prop where
  messages : ∀ id m, db.messages.lookup id = some m → AcceptedMessage m
  authors : ∀ id a, db.authors.lookup id = some a → AcceptedAuthor a

/-- The committed rows and every row a session has written. -/
structure Stored (w : World) : Prop where
  db : AcceptedDb w.db
  pending : ∀ c, ∀ x ∈ w.pending c, AcceptedWrite x

theorem accepted_view {w : World} (h : Stored w) (c : ℕ) : AcceptedDb (w.view c) := by
  constructor
  · intro id m hm
    rcases viewed_row hm with hdb | hown
    · exact h.db.messages id m hdb
    · exact h.pending c _ hown
  · intro id a ha
    rcases viewed_author_row ha with hdb | hown
    · exact h.db.authors id a hdb
    · exact h.pending c _ hown

end Rows

section Statements

variable {c : ℕ} {f : Fresh} {w w' : World} {e : Effect}

/-- A text that its column stores is that of the string in the row. -/
theorem string_accepted {g : Field} {t : Text} (h : Accepted g t) :
    Accepted g (text (string t)) := by
  rw [text_string h.2.2.1]
  exact h

theorem optional_accepted {g : Field} {value : Option Text} {old : String}
    (hvalue : ∀ fs ∈ value.toList.map (Prod.mk g), Accepted fs.1 fs.2)
    (hold : Accepted g (text old)) : Accepted g (text ((value.map string).getD old)) := by
  cases value with
  | none => exact hold
  | some v => exact string_accepted (hvalue (g, v) (by simp))

/-- The rows a statement adds to its session's writes hold its strings and those of a row the
session sees. -/
theorem written_accepted {r : Reply e} (h : execute c f w e = some (r, w')) (hs : Stored w)
    (he : ∀ fs ∈ stringsOf e, Checked fs.1 fs.2) : ∀ x ∈ w'.pending c, AcceptedWrite x := by
  have hview := accepted_view hs c
  have kept : w'.pending c = w.pending c → ∀ x ∈ w'.pending c, AcceptedWrite x := by
    intro hp x hx
    rw [hp] at hx
    exact hs.pending c x hx
  have dropped : w'.pending c = [] → ∀ x ∈ w'.pending c, AcceptedWrite x := by
    intro hp x hx
    rw [hp] at hx
    cases hx
  have added : ∀ y, w'.pending c = w.pending c ++ [y] → AcceptedWrite y →
      ∀ x ∈ w'.pending c, AcceptedWrite x := by
    intro y hp hy x hx
    rw [hp] at hx
    rcases List.mem_append.mp hx with hx | hx
    · exact hs.pending c x hx
    · obtain rfl := List.mem_singleton.mp hx
      exact hy
  have silent : Silent e → w'.pending c = w.pending c := fun hsilent =>
    congrFun (silent_pending (x := .proceed f) hsilent h) c
  have haccepted : ∀ a, r = .ok a → ∀ fs ∈ stringsOf e, Accepted fs.1 fs.2 := by
    rintro a rfl fs hfs
    refine ⟨he fs hfs, ?_⟩
    by_contra hunfit
    cases unfit_refused h fun hall => hunfit (hall fs hfs)
  cases e with
  | insertAuthor name email =>
    cases r with
    | error exc => exact dropped (insertAuthor_error h).1
    | ok a =>
      obtain ⟨rfl, _, _, hp⟩ := insertAuthor_ok h
      have hstrings := haccepted _ rfl
      exact added _ hp ⟨string_accepted (hstrings (.name, name) (by simp [stringsOf])),
        string_accepted (hstrings (.email, email) (by simp [stringsOf]))⟩
  | upsertAuthor name email =>
    cases r with
    | error exc => exact dropped (upsertAuthor_error h).1
    | ok a =>
      have hstrings := haccepted _ rfl
      rcases upsertAuthor_ok h with ⟨_, rfl⟩ | ⟨_, _, hp⟩
      · exact kept rfl
      · exact added _ hp ⟨string_accepted (hstrings (.name, name) (by simp [stringsOf])),
          string_accepted (hstrings (.email, email) (by simp [stringsOf]))⟩
  | updateAuthor id name email =>
    cases r with
    | error exc => exact dropped (updateAuthor_error h).1
    | ok a =>
      have hstrings := haccepted _ rfl
      rcases updateAuthor_ok h with ⟨_, _, rfl⟩ | ⟨row, hrow, _, _, hp⟩
      · exact kept rfl
      · have hold := hview.authors id row hrow
        refine added _ hp ⟨optional_accepted ?_ hold.name, optional_accepted ?_ hold.email⟩
        · exact fun fs hfs => hstrings fs (List.mem_append_left _ hfs)
        · exact fun fs hfs => hstrings fs (List.mem_append_right _ hfs)
  | deleteAuthor id =>
    cases r with
    | error exc => exact dropped (deleteAuthor_error h).1
    | ok a =>
      rcases deleteAuthor_ok h with ⟨_, _, rfl⟩ | ⟨_, _, _, hp⟩
      · exact kept rfl
      · exact added _ hp trivial
  | insertMessage title content authorId =>
    cases r with
    | error exc => exact dropped (insertMessage_error h).1
    | ok m =>
      obtain ⟨rfl, _, _, hp⟩ := insertMessage_ok h
      have hstrings := haccepted _ rfl
      exact added _ hp ⟨string_accepted (hstrings (.title, title) (by simp [stringsOf])),
        string_accepted (hstrings (.content, content) (by simp [stringsOf]))⟩
  | updateMessage id version content title =>
    cases r with
    | error exc => exact dropped (updateMessage_error h).1
    | ok a =>
      have hstrings := haccepted _ rfl
      rcases updateMessage_ok h with ⟨_, rfl, _⟩ | ⟨row, _, hrow, _, _, hp⟩
      · exact kept rfl
      · have hold := hview.messages id row hrow
        refine added _ hp ⟨optional_accepted ?_ hold.title, ?_⟩
        · exact fun fs hfs => hstrings fs (List.mem_append_left _ hfs)
        · exact string_accepted (hstrings (.content, content) (by simp [stringsOf]))
  | deleteMessage id =>
    cases r with
    | error exc => exact (execute_error h).elim
    | ok a =>
      rcases deleteMessage_ok h with ⟨_, rfl, _⟩ | ⟨_, _, _, hp⟩
      · exact kept rfl
      · exact added _ hp trivial
  | commit =>
    cases h
    exact dropped (by rw [commit_pending, if_pos rfl])
  | rollback =>
    cases h
    exact dropped (by rw [rollback_pending, if_pos rfl])
  | advisoryXactLock | selectAuthor | selectMessagesOf | selectAuthors | countAuthors
  | selectMessage | selectMessageId | selectMessages | countMessages | selectAuthorIds | cacheGet
  | cacheSet | cacheEvict =>
    exact kept (silent trivial)

theorem stored_execute {r : Reply e} (h : execute c f w e = some (r, w')) (hs : Stored w)
    (he : ∀ fs ∈ stringsOf e, Checked fs.1 fs.2) : Stored w' := by
  have ht := execute_transition h
  constructor
  · rcases transition_db ht with hdb | ⟨_, rfl⟩
    · rw [hdb]
      exact hs.db
    · exact accepted_view hs c
  · intro d
    by_cases hd : d = c
    · subst hd
      exact written_accepted h hs he
    · rw [transition_pending ht hd]
      exact hs.pending d

theorem stored_rollback (hs : Stored w) : Stored (w.rollback c) := by
  constructor
  · exact hs.db
  · intro d x hx
    rw [rollback_pending] at hx
    split at hx
    · cases hx
    · exact hs.pending d x hx

/-- A step that fails for a reason outside the store has taken effect or not. -/
theorem stored_answer {x : Choice} {r : Reply e} (h : answer c e x w = some (r, w'))
    (hs : Stored w) (he : ∀ fs ∈ stringsOf e, Checked fs.1 fs.2) : Stored w' := by
  cases x with
  | proceed f => exact stored_execute h hs he
  | raise exc =>
    cases h
    exact hs
  | raiseAfter f exc =>
    obtain ⟨⟨r', u⟩, hu, h⟩ := Option.map_eq_some_iff.mp h
    cases h
    exact stored_execute hu hs he

end Statements

section Runs

variable [JsonCodec] {s : SoundDb} {ρ : Run s} {n : ℕ}

omit [JsonCodec] in
theorem seed_checked : (Checked .name (text "system") ∧ Checked .email (text systemEmail)) ∧
    Checked .title (text welcomeTitle) ∧ Checked .content (text welcomeContent) := by decide +kernel

/-- Whatever a call writes has passed the check. -/
theorem writes_checked (q : Request) :
    (body q).Only fun e => ∀ fs ∈ stringsOf e, Checked fs.1 fs.2 := by
  by_cases hq : q = .seedInitialMessage
  · subst hq
    refine awaits_bind (awaits_seedInitialMessage ?_ ?_ ?_ ?_ ?_ ?_ ?_) fun _ => awaits_pure _
    · simp [stringsOf]
    · simp [stringsOf]
    · simpa [stringsOf] using seed_checked.1
    · simp [stringsOf]
    · intro a
      simpa [stringsOf] using seed_checked.2
    · simp [stringsOf]
    · simp [stringsOf]
  · refine (writes_payload hq).mono ?_
    rintro e (hnone | hpayload) fs hfs
    · rw [hnone] at hfs
      cases hfs
    · rw [hpayload] at hfs
      exact payload_checked q fs hfs

/-- From tables of accepted strings every run leads to such tables. -/
theorem run_stored (h0 : AcceptedDb s.toDb) (hn : n ≤ ρ.length) : Stored (ρ.store n) := by
  refine ρ.persists (i := 0) ?_ ?_ ?_ n (Nat.zero_le n) hn
  · rw [ρ.start]
    exact ⟨h0, fun c x hx => by cases hx⟩
  · intro k c e x r _ hp hs
    obtain ⟨q, b, K, _, _, i, _, _, _, hr⟩ := performs_started hp
    exact stored_answer hp.answer hs (hr.only (writes_checked q)).1
  · intro k c _ _ _ hs
    exact stored_rollback hs

omit [JsonCodec] in
theorem accepted_empty : AcceptedDb SoundDb.empty.toDb := by
  constructor
  · intro id m h
    cases h
  · intro id a h
    cases h

end Runs

end StoredValues
