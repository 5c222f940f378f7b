import MessageService.FailedWrites
import MessageService.StoredStrings

/-! Authors, their messages, and the errors of their calls.
The constraints hold in every committed state. A call whose strings the columns store succeeds,
or ends in the refusal its own statement found a reason for. -/
namespace AuthorIntegrity

open Programs Interleaving Texts Models Schemas KeyedTables MessageJson Postgres Services
open ServiceRuns Transitions Statements Consistency Histories Footprints Traces StoredStrings
open FailedWrites

section Integrity

variable [JsonCodec] {s : SoundDb} {ρ : Run s}

/-- The calls that map what the database refuses. -/
def Mapping : Request → Prop
  | .createAuthor _ | .updateAuthor _ _ | .deleteAuthor _ | .createMessage _ => True
  | _ => False

omit [JsonCodec] in
theorem mapping_writing {q : Request} (h : Mapping q) : Writing q ∧ q ≠ .seedInitialMessage := by
  cases q with
  | createAuthor | updateAuthor | deleteAuthor | createMessage => exact ⟨trivial, by simp⟩
  | listMessages | getMessage | updateMessage | deleteMessage | listAuthors | getAuthor
  | seedInitialMessage => exact h.elim

def NotFound (o : Outcome) : Prop := ∃ detail, o = .error (.notFoundError detail)

def Conflict (o : Outcome) : Prop := ∃ detail, o = .error (.conflictError detail)

/-- Call `c` executed `e` on committed rows of which `P` held. -/
def FoundBy (ρ : Run s) (c : ℕ) (e : Effect) (P : Db → Prop) : Prop :=
  ∃ j x r, ρ.Performs j c e x r ∧ P (ρ.store j).db

def NoAuthor (id : Uuid) (db : Db) : Prop := db.authors.lookup id = none

def Held (email : Text) (db : Db) : Prop :=
  ∃ a : Author, db.authors.lookup a.id = some a ∧ text a.email = email

/-- An author other than `id` has the e-mail. -/
def HeldByOther (id : Uuid) (email : Text) (db : Db) : Prop :=
  ∃ a : Author, db.authors.lookup a.id = some a ∧ a.id ≠ id ∧ text a.email = email

/-- The statement `update_author` looks its row up with. -/
def updateStatement (id : Uuid) (p : AuthorUpdate) : Effect :=
  if p.name = none ∧ p.email = none then .selectAuthor id else .updateAuthor id p.name p.email

/-- A statement of the call needed an author that was not there. -/
def Missing (ρ : Run s) (c : ℕ) : Request → Prop
  | .createMessage p => FoundBy ρ c (.selectAuthor p.authorId) (NoAuthor p.authorId) ∨
      FoundBy ρ c (.insertMessage p.title p.content p.authorId) (NoAuthor p.authorId)
  | .updateAuthor id p => FoundBy ρ c (updateStatement id p) (NoAuthor id)
  | .deleteAuthor id => FoundBy ρ c (.deleteAuthor id) (NoAuthor id)
  | _ => False

/-- A statement of the call met an e-mail that is taken, or messages that are left. -/
def Violating (ρ : Run s) (c : ℕ) : Request → Prop
  | .createAuthor p => FoundBy ρ c (.insertAuthor p.name p.email) (Held p.email)
  | .updateAuthor id p => ∃ email ∈ p.email, FoundBy ρ c (.updateAuthor id p.name p.email)
      fun db => ¬NoAuthor id db ∧ HeldByOther id email db
  | .deleteAuthor id => FoundBy ρ c (.deleteAuthor id) fun db => db.referencing id ≠ []
  | _ => False

/-- A call ends well, or in the error that tells what its statements found. -/
structure Maps (o : Outcome) (missing violating : Prop) : Prop where
  ends : (∃ res, o = .ok res) ∨ NotFound o ∨ Conflict o
  notFound : NotFound o ↔ missing
  conflict : Conflict o ↔ violating

section Outcomes

variable {missing violating : Prop}

omit [JsonCodec]

theorem maps_ok {res : Result} (hm : ¬missing) (hv : ¬violating) :
    Maps (.ok res) missing violating where
  ends := .inl ⟨res, rfl⟩
  notFound := iff_of_false (by rintro ⟨_, h⟩; cases h) hm
  conflict := iff_of_false (by rintro ⟨_, h⟩; cases h) hv

theorem maps_notFound {detail : String} (hm : missing) (hv : ¬violating) :
    Maps (.error (.notFoundError detail)) missing violating where
  ends := .inr (.inl ⟨detail, rfl⟩)
  notFound := iff_of_true ⟨detail, rfl⟩ hm
  conflict := iff_of_false (by rintro ⟨_, h⟩; cases h) hv

theorem maps_conflict {detail : String} (hm : ¬missing) (hv : violating) :
    Maps (.error (.conflictError detail)) missing violating where
  ends := .inr (.inr ⟨detail, rfl⟩)
  notFound := iff_of_false (by rintro ⟨_, h⟩; cases h) hm
  conflict := iff_of_true ⟨detail, rfl⟩ hv

end Outcomes

section Statements

variable {c i j n : ℕ} {q : Request} {e : Effect} {x : Choice} {r : Reply e} {P : Db → Prop}

/-- A call has one look at the rows with a statement. -/
theorem foundBy_iff (hp : ρ.Performs j c e x r) : FoundBy ρ c e P ↔ P (ρ.store j).db := by
  constructor
  · rintro ⟨j', x', r', hp', h⟩
    rw [effect_once hp hp']
    exact h
  · exact fun h => ⟨j, x, r, hp, h⟩

omit [JsonCodec] in
theorem not_noAuthor {id : Uuid} {db : Db} {a : Author} (h : db.authors.lookup id = some a) :
    ¬NoAuthor id db := by
  intro hnone
  rw [NoAuthor, h] at hnone
  cases hnone

omit [JsonCodec] in
/-- An author without a row has no messages. -/
theorem referencing_nil {id : Uuid} {db : Db} (hf : db.ForeignKeys) (h : NoAuthor id db) :
    db.referencing id = [] := by
  refine List.filter_eq_nil_iff.mpr ?_
  intro m hm
  obtain ⟨a, ha⟩ := hf m (mem_rows_iff.mp hm)
  intro hid
  have hid : m.authorId = id := by simpa using hid
  rw [hid] at ha
  exact not_noAuthor ha h

omit [JsonCodec] in
theorem held_taken {email : Text} {db : Db} (h : Scalar email) :
    Held email db ↔ db.emailTaken (string email) := by
  rw [emailTaken_iff]
  constructor
  · rintro ⟨a, ha, rfl⟩
    exact ⟨a, ha, (string_text a.email).symm⟩
  · rintro ⟨a, ha, hemail⟩
    exact ⟨a, ha, by rw [hemail, text_string h]⟩

omit [JsonCodec] in
/-- The e-mail an author moves to is taken when somebody else has it. -/
theorem held_iff {id : Uuid} {email : Text} {db : Db} {row : Author} (hu : db.EmailsUnique)
    (hrow : db.authors.lookup id = some row) :
    HeldByOther id email db ↔ email ≠ text row.email ∧ Held email db := by
  have hid : row.id = id := lookup_key hrow
  constructor
  · rintro ⟨a, ha, hne, rfl⟩
    refine ⟨?_, a, ha, rfl⟩
    intro heq
    apply hne
    rw [hu a row ha (by rw [hid]; exact hrow) (text_inj.mp heq), hid]
  · rintro ⟨hne, a, ha, rfl⟩
    refine ⟨a, ha, ?_, rfl⟩
    intro heq
    apply hne
    rw [heq, hrow] at ha
    rw [Option.some.inj ha]

/-- No version leaves its column in a call on authors, or in one that creates a message. -/
theorem unlimited (hq : Mapping q) : (body q).Only fun e => ∀ w c, ¬AtLimit w c e := by
  cases q with
  | createMessage p =>
    exact awaits_bind (awaits_createMessage (fun _ _ => id) (fun _ _ _ => id) (fun _ _ => id)
      fun _ _ => id) fun _ => awaits_pure _
  | createAuthor p =>
    exact awaits_bind (awaits_createAuthor (fun _ _ => id) (fun _ _ => id) fun _ _ => id)
      fun _ => awaits_pure _
  | updateAuthor id' p =>
    exact awaits_bind (awaits_updateAuthor (fun _ _ => id) (fun _ _ => id) (fun _ _ => id)
      fun _ _ => id) fun _ => awaits_pure _
  | deleteAuthor id' =>
    exact awaits_bind (awaits_deleteAuthor (fun _ _ => id) (fun _ _ => id) fun _ _ => id)
      fun _ => awaits_pure _
  | listMessages | getMessage | updateMessage | deleteMessage | listAuthors | getAuthor
  | seedInitialMessage => exact hq.elim

/-- A call whose INSERT or UPDATE is executed has strings that can be stored. -/
def Storing (ρ : Run s) (c : ℕ) (q : Request) : Prop :=
  ¬(WritesStrings ρ c ∧ ∃ fs ∈ payloadStrings q, ¬Representable fs.2)

theorem storing_payload (h : ∀ fs ∈ payloadStrings q, Representable fs.2) : Storing ρ c q :=
  fun ⟨_, fs, hfs, hunfit⟩ => hunfit (h fs hfs)

/-- Without faults, and with strings that can be stored, no other exception escapes. -/
theorem unfailed {exc : Exc} (hf : ρ.Faultless c) (hq : Mapping q) (hstoring : Storing ρ c q)
    (hi : i < ρ.length) (he : ρ.event i = .call c q) (h : Failed ρ c (i + 1) n exc)
    (ht : Translated ρ c exc) : False := by
  rcases faultless_failed hf h with rfl | ⟨sqlstate, hexc⟩
  · obtain ⟨e, j, x, _, _, hp, _⟩ := h
    obtain ⟨_, f, hx⟩ := faultless_error hf hp
    rcases execute_dataError hx with ⟨fs, hfs, hunfit⟩ | hlimit
    · rcases performs_payload hi he (mapping_writing hq).2 hp with hnone | hpayload
      · rw [hnone] at hfs
        cases hfs
      · have hwrites : WritesStrings ρ c := ⟨j, e, x, _, hp, List.ne_nil_of_mem hfs⟩
        rw [hpayload] at hfs
        exact hstoring ⟨hwrites, fs, hfs, fun hplain => hunfit ((fits_payload fs hfs).mpr hplain)⟩
    · exact performs_only hi he (unlimited hq) hp _ _ hlimit
  · obtain ⟨j, e, x, hp, hinfallible⟩ := ht sqlstate hexc
    exact hinfallible (faultless_error hf hp).1

end Statements

section Calls

variable {c i n : ℕ} {o : Outcome}

theorem createMessage_maps {p : MessageCreate} (hf : ρ.Faultless c)
    (hstoring : Storing ρ c (.createMessage p)) (hi : i < ρ.length)
    (he : ρ.event i = .call c (.createMessage p))
    (ht : MessageTraces.CreateTrace ρ c p (i + 1) n o) :
    Maps o (Missing ρ c (.createMessage p)) (Violating ρ c (.createMessage p)) := by
  cases ht with
  | failed hfail htr =>
    exact (unfailed (q := .createMessage p) hf trivial hstoring hi he hfail htr).elim
  | noAuthor _ _ hp hnone _ => exact maps_notFound (.inl ((foundBy_iff hp).mpr hnone)) id
  | rejected _ _ _ _ hp hexc _ =>
    -- the author went away after the check, or the INSERT has nothing to refuse
    obtain ⟨_, f, hx⟩ := faultless_error hf hp
    have hview := performs_committed hi he (by simp) hp rfl
    rcases (insertMessage_error hx).2 with ⟨hdata, _⟩ | ⟨hfk, hnone⟩
    · cases hdata
    · cases hfk
      rw [if_pos rfl] at hexc
      rw [hview] at hnone
      rw [hexc]
      exact maps_notFound (.inr ((foundBy_iff hp).mpr hnone)) id
  | created _ _ _ _ hp hau _ hp' _ _ =>
    obtain ⟨f, hx⟩ := performs_ok hp'
    obtain ⟨_, _, ⟨a, ha⟩, _⟩ := insertMessage_ok hx
    rw [performs_committed hi he (by simp) hp' rfl] at ha
    refine maps_ok ?_ id
    rintro (hnone | hnone)
    · exact not_noAuthor hau ((foundBy_iff hp).mp hnone)
    · exact not_noAuthor ha ((foundBy_iff hp').mp hnone)

theorem createAuthor_maps {p : AuthorCreate} (hf : ρ.Faultless c)
    (hstoring : Storing ρ c (.createAuthor p)) (hi : i < ρ.length)
    (he : ρ.event i = .call c (.createAuthor p))
    (ht : AuthorTraces.CreateTrace ρ c p (i + 1) n o) :
    Maps o (Missing ρ c (.createAuthor p)) (Violating ρ c (.createAuthor p)) := by
  cases ht with
  | failed hfail htr =>
    exact (unfailed (q := .createAuthor p) hf trivial hstoring hi he hfail htr).elim
  | rejected _ _ hp hexc _ =>
    obtain ⟨_, f, hx⟩ := faultless_error hf hp
    have hview := performs_committed hi he (by simp) hp rfl
    rcases (insertAuthor_error hx).2 with ⟨hdata, _⟩ | ⟨hu, hplain, htaken⟩
    · cases hdata
    · cases hu
      rw [if_pos rfl] at hexc
      rw [hview] at htaken
      rw [hexc]
      refine maps_conflict id ?_
      rw [Violating, foundBy_iff hp]
      exact (held_taken hplain.1).mpr htaken
  | @created _ _ _ _ a _ _ _ _ hemail hp hfree _ _ =>
    refine maps_ok id ?_
    rw [Violating, foundBy_iff hp, ← hemail, held_taken (scalar_text a.email), string_text]
    exact hfree

theorem updateAuthor_maps {id : Uuid} {p : AuthorUpdate} (hf : ρ.Faultless c)
    (hstoring : Storing ρ c (.updateAuthor id p)) (hi : i < ρ.length)
    (he : ρ.event i = .call c (.updateAuthor id p))
    (ht : AuthorTraces.UpdateTrace ρ c id p (i + 1) n o) :
    Maps o (Missing ρ c (.updateAuthor id p)) (Violating ρ c (.updateAuthor id p)) := by
  have reads : p.name = none ∧ p.email = none →
      (Missing ρ c (.updateAuthor id p) ↔ FoundBy ρ c (.selectAuthor id) (NoAuthor id)) ∧
      ¬Violating ρ c (.updateAuthor id p) := by
    intro hempty
    refine ⟨by rw [Missing, updateStatement, if_pos hempty], ?_⟩
    rintro ⟨email, hemail, _⟩
    rw [hempty.2] at hemail
    cases hemail
  have writes : ¬(p.name = none ∧ p.email = none) → (Missing ρ c (.updateAuthor id p) ↔
      FoundBy ρ c (.updateAuthor id p.name p.email) (NoAuthor id)) := by
    intro hchange
    rw [Missing, updateStatement, if_neg hchange]
  cases ht with
  | failed hfail htr =>
    exact (unfailed (q := .updateAuthor id p) hf trivial hstoring hi he hfail htr).elim
  | read _ _ hempty hp hrow _ =>
    refine maps_ok ?_ (reads hempty).2
    rw [(reads hempty).1, foundBy_iff hp]
    exact not_noAuthor hrow
  | readNothing _ _ hempty hp hnone _ =>
    refine maps_notFound ?_ (reads hempty).2
    rw [(reads hempty).1, foundBy_iff hp]
    exact hnone
  | rejected _ hjn hchange hp hexc _ =>
    obtain ⟨_, f, hx⟩ := faultless_error hf hp
    have hview := performs_committed hi he (by simp) hp rfl
    rcases (updateAuthor_error hx).2 with ⟨hdata, _⟩ |
      ⟨hu, row, email, hemail, hrow, hne, hplain, htaken⟩
    · cases hdata
    · cases hu
      rw [if_pos rfl] at hexc
      rw [hview] at hrow htaken
      have hunique := (run_consistent ρ hp.within.le).committed_emails
      rw [hexc]
      refine maps_conflict ?_ ⟨email, hemail, (foundBy_iff hp).mpr ⟨not_noAuthor hrow, ?_⟩⟩
      · rw [writes hchange, foundBy_iff hp]
        exact not_noAuthor hrow
      · exact (held_iff hunique hrow).mpr ⟨hne, (held_taken hplain.1).mpr htaken⟩
  | absent _ _ hchange hp hnone _ =>
    refine maps_notFound ?_ ?_
    · rw [writes hchange, foundBy_iff hp]
      exact hnone
    · rintro ⟨email, _, hfound⟩
      exact ((foundBy_iff hp).mp hfound).1 hnone
  | updated _ _ _ hchange hrow hp hfits _ _ =>
    have hunique := (run_consistent ρ hp.within.le).committed_emails
    refine maps_ok ?_ ?_
    · rw [writes hchange, foundBy_iff hp]
      exact not_noAuthor hrow
    · rintro ⟨email, hemail, hfound⟩
      obtain ⟨hne, hheld⟩ := (held_iff hunique hrow).mp ((foundBy_iff hp).mp hfound).2
      obtain ⟨⟨_, hstorable⟩, hsame | hfree⟩ := hfits
      · rw [hemail] at hsame
        exact hne (by rw [← hsame]; exact (text_string (hstorable email hemail).2.1).symm)
      · rw [hemail] at hfree
        exact hfree ((held_taken (hstorable email hemail).2.1).mp hheld)

theorem deleteAuthor_maps {id : Uuid} (hf : ρ.Faultless c) (hi : i < ρ.length)
    (he : ρ.event i = .call c (.deleteAuthor id))
    (ht : AuthorTraces.DeleteTrace ρ c id (i + 1) n o) :
    Maps o (Missing ρ c (.deleteAuthor id)) (Violating ρ c (.deleteAuthor id)) := by
  cases ht with
  | failed hfail htr =>
    have hstoring : Storing ρ c (.deleteAuthor id) := storing_payload fun _ h => by cases h
    exact (unfailed (q := .deleteAuthor id) hf trivial hstoring hi he hfail htr).elim
  | rejected _ _ hp hexc _ =>
    obtain ⟨_, f, hx⟩ := faultless_error hf hp
    have hview := performs_committed hi he (by simp) hp rfl
    obtain ⟨_, hfk, ⟨row, hrow⟩, hrefs⟩ := deleteAuthor_error hx
    cases hfk
    rw [if_pos rfl] at hexc
    rw [hview] at hrow hrefs
    rw [hexc]
    refine maps_conflict ?_ ?_
    · rw [Missing, foundBy_iff hp]
      exact not_noAuthor hrow
    · rw [Violating, foundBy_iff hp]
      exact hrefs
  | commitRejected _ _ hp _ _ => exact (faultless_error hf hp).1.elim
  | absent _ _ hp hnone _ =>
    have hrefs := (run_consistent ρ hp.within.le).committed_foreign_keys
    refine maps_notFound ((foundBy_iff hp).mpr hnone) ?_
    rw [Violating, foundBy_iff hp]
    exact not_not.mpr (referencing_nil hrefs hnone)
  | deleted _ _ _ hrow hrefs hp _ _ =>
    refine maps_ok ?_ ?_
    · rw [Missing, foundBy_iff hp]
      exact not_noAuthor hrow
    · rw [Violating, foundBy_iff hp]
      exact not_not.mpr hrefs

/-- A call that maps its errors maps them by what its statements found. -/
theorem call_maps {q : Request} (hf : ρ.Faultless c) (hq : Mapping q)
    (hstoring : Storing ρ c q) (h : ρ.Ended c q o n) :
    Maps o (Missing ρ c q) (Violating ρ c q) := by
  obtain ⟨i, hin, he, hs, hr⟩ := ended_started h
  have hi := hin.trans_le h.1
  cases q with
  | createMessage p =>
    exact createMessage_maps hf hstoring hi he (MessageTraces.createMessage_ended hs h.1 hr)
  | createAuthor p =>
    exact createAuthor_maps hf hstoring hi he (AuthorTraces.createAuthor_ended hs h.1 hr)
  | updateAuthor id p =>
    exact updateAuthor_maps hf hstoring hi he (AuthorTraces.updateAuthor_ended hs h.1 hr)
  | deleteAuthor id => exact deleteAuthor_maps hf hi he (AuthorTraces.deleteAuthor_ended hs h.1 hr)
  | listMessages | getMessage | updateMessage | deleteMessage | listAuthors | getAuthor
  | seedInitialMessage => exact hq.elim

/-- The exceptions of a statement that no clause maps. -/
def Escapes (o : Outcome) : Prop :=
  o = .error .dataError ∨ ∃ sqlstate, o = .error (.integrityError sqlstate)

omit [JsonCodec] in
theorem escapes_unmapped {missing violating : Prop} (h : Escapes o) :
    ¬Maps o missing violating := by
  intro hmaps
  rcases h with rfl | ⟨_, rfl⟩ <;> rcases hmaps.ends with ⟨_, h⟩ | ⟨_, h⟩ | ⟨_, h⟩ <;> cases h

theorem failed_escapes {exc : Exc} (hf : ρ.Faultless c) (h : Failed ρ c i n exc) :
    Escapes (.error exc) := by
  rcases faultless_failed hf h with rfl | ⟨sqlstate, rfl⟩
  · exact .inl rfl
  · exact .inr ⟨sqlstate, rfl⟩

/-- The statement that writes is refused for a string it cannot store. -/
theorem refused_unstored {q : Request} {P : Effect → Prop} (hf : ρ.Faultless c) (hq : Mapping q)
    (hi : i < ρ.length) (he : ρ.event i = .call c q)
    (honly : (body q).Only fun e => stringsOf e ≠ [] → P e) (h : ¬Storing ρ c q) :
    ∃ k x e, P e ∧ ρ.Performs k c e x (.error .dataError) := by
  obtain ⟨k, e, x, hp, fs, hfs, _⟩ :=
    (failsForString_iff hi he (mapping_writing hq).2 hf).mpr (not_not.mp h)
  exact ⟨k, x, e, performs_only hi he honly hp (List.ne_nil_of_mem hfs), hp⟩

/-- A message is inserted after its author has been found. -/
theorem insert_checked {p : MessageCreate} {title content : Text} {a : Uuid} {j k : ℕ}
    {x y : Choice} {r} (hi : i < ρ.length) (he : ρ.event i = .call c (.createMessage p))
    (hp : ρ.Performs k c (.insertMessage title content a) x r) :
    ¬ρ.Performs j c (.selectAuthor p.authorId) y (.ok none) := by
  intro hcheck
  obtain ⟨_, _, K, hr⟩ := performs_reached hi he hp
  rcases reaches_await hr with ⟨ha, _⟩ | ⟨_, _, r', _, _, hp', h⟩
  · cases await_effect ha
  · obtain rfl := reply_once hcheck hp'
    exact not_reaches_await h

theorem createMessage_escapes {p : MessageCreate} (hf : ρ.Faultless c) (hi : i < ρ.length)
    (he : ρ.event i = .call c (.createMessage p))
    (ht : MessageTraces.CreateTrace ρ c p (i + 1) n o) (h : ¬Storing ρ c (.createMessage p)) :
    Escapes o := by
  have honly : (body (.createMessage p)).Only fun e =>
      stringsOf e ≠ [] → ∃ a, e = .insertMessage p.title p.content a :=
    awaits_bind (awaits_createMessage (absurd rfl) (fun a _ => ⟨a, rfl⟩) (absurd rfl) (absurd rfl))
      fun _ => awaits_pure _
  obtain ⟨k, x, _, ⟨a, rfl⟩, hp⟩ :=
    refused_unstored (q := .createMessage p) hf trivial hi he honly h
  cases ht with
  | failed hfail _ => exact failed_escapes hf hfail
  | noAuthor _ _ hcheck _ _ => exact absurd hcheck (insert_checked hi he hp)
  | rejected _ _ _ _ hp' _ _ =>
    obtain rfl := rank_once hp hp' rfl
    obtain rfl : a = p.authorId := by injection (hp.effect_unique hp').2
    cases reply_once hp hp'
  | created _ _ _ _ _ _ _ hp' _ _ =>
    obtain rfl := rank_once hp hp' rfl
    obtain rfl : a = p.authorId := by injection (hp.effect_unique hp').2
    cases reply_once hp hp'

theorem createAuthor_escapes {p : AuthorCreate} (hf : ρ.Faultless c) (hi : i < ρ.length)
    (he : ρ.event i = .call c (.createAuthor p))
    (ht : AuthorTraces.CreateTrace ρ c p (i + 1) n o) (h : ¬Storing ρ c (.createAuthor p)) :
    Escapes o := by
  have honly : (body (.createAuthor p)).Only fun e =>
      stringsOf e ≠ [] → e = .insertAuthor p.name p.email :=
    awaits_bind (awaits_createAuthor (fun _ => rfl) (absurd rfl) (absurd rfl))
      fun _ => awaits_pure _
  obtain ⟨k, x, _, rfl, hp⟩ := refused_unstored (q := .createAuthor p) hf trivial hi he honly h
  cases ht with
  | failed hfail _ => exact failed_escapes hf hfail
  | rejected _ _ hp' _ _ => cases reply_once hp hp'
  | created _ _ _ _ _ hp' _ _ _ => cases reply_once hp hp'

theorem updateAuthor_escapes {id : Uuid} {p : AuthorUpdate} (hf : ρ.Faultless c) (hi : i < ρ.length)
    (he : ρ.event i = .call c (.updateAuthor id p))
    (ht : AuthorTraces.UpdateTrace ρ c id p (i + 1) n o) (h : ¬Storing ρ c (.updateAuthor id p)) :
    Escapes o := by
  have hchanges : ¬(p.name = none ∧ p.email = none) := by
    rintro ⟨hname, hemail⟩
    obtain ⟨_, fs, hfs, _⟩ := not_not.mp h
    simp [payloadStrings, hname, hemail] at hfs
  have honly : (body (.updateAuthor id p)).Only fun e =>
      stringsOf e ≠ [] → e = .updateAuthor id p.name p.email :=
    awaits_bind (awaits_updateAuthor (absurd rfl) (fun _ => rfl) (absurd rfl) (absurd rfl))
      fun _ => awaits_pure _
  obtain ⟨k, x, _, rfl, hp⟩ := refused_unstored (q := .updateAuthor id p) hf trivial hi he honly h
  cases ht with
  | failed hfail _ => exact failed_escapes hf hfail
  | read _ _ hempty => exact absurd hempty hchanges
  | readNothing _ _ hempty => exact absurd hempty hchanges
  | rejected _ _ _ hp' _ _ => cases reply_once hp hp'
  | absent _ _ _ hp' _ _ => cases reply_once hp hp'
  | updated _ _ _ _ _ hp' _ _ _ => cases reply_once hp hp'

/-- A call that executes its INSERT or UPDATE with a string that cannot be stored lets an
exception of the database escape. -/
theorem unstored_escapes {q : Request} (hf : ρ.Faultless c) (hq : Mapping q)
    (hstoring : ¬Storing ρ c q) (h : ρ.Ended c q o n) : Escapes o := by
  obtain ⟨i, hin, he, hs, hr⟩ := ended_started h
  have hi := hin.trans_le h.1
  cases q with
  | createMessage p =>
    exact createMessage_escapes hf hi he (MessageTraces.createMessage_ended hs h.1 hr) hstoring
  | createAuthor p =>
    exact createAuthor_escapes hf hi he (AuthorTraces.createAuthor_ended hs h.1 hr) hstoring
  | updateAuthor id p =>
    exact updateAuthor_escapes hf hi he (AuthorTraces.updateAuthor_ended hs h.1 hr) hstoring
  | deleteAuthor id => exact absurd (storing_payload fun _ h => by cases h) hstoring
  | listMessages | getMessage | updateMessage | deleteMessage | listAuthors | getAuthor
  | seedInitialMessage => exact hq.elim

/-- What holds of the tables and of the errors, whatever runs at the same time. -/
structure KeepsIntegrity (ρ : Run s) : Prop where
  emails : ∀ n ≤ ρ.length, (ρ.store n).db.EmailsUnique
  authors : ∀ n ≤ ρ.length, (ρ.store n).db.ForeignKeys
  mapped : ∀ c q o n, Mapping q → ρ.Faultless c → ρ.Ended c q o n →
    (Maps o (Missing ρ c q) (Violating ρ c q) ↔ Storing ρ c q)
  /-- A call that raises is rolled back. -/
  unchanging : ∀ c q exc n, Writing q → ρ.Faultless c → ρ.Ended c q (.error exc) n →
    Unchanging ρ c

theorem keeps_integrity (ρ : Run s) : KeepsIntegrity ρ where
  emails _ hn := (run_consistent ρ hn).committed_emails
  authors _ hn := (run_consistent ρ hn).committed_foreign_keys
  mapped _ _ _ _ hq hf h := by
    constructor
    · intro hmaps
      by_contra hstoring
      exact escapes_unmapped (unstored_escapes hf hq hstoring h) hmaps
    · exact fun hstoring => call_maps hf hq hstoring h
  unchanging _ _ _ _ hq hf h := faultless_unchanging hf hq h

end Calls

end Integrity

section Schedules

/-- The name is accepted, and its INSERT raises what no clause maps. -/
theorem nul_name_unmapped : Mapping (.createAuthor nulAuthor) ∧ createNul.Faultless 0 ∧
    createNul.Ended 0 (.createAuthor nulAuthor) (.error .dataError) 2 ∧
    ¬∃ missing violating, Maps (.error .dataError) missing violating := by
  refine ⟨trivial, faultFree_of_events createNul (by decide +kernel) 0, by decide +kernel, ?_⟩
  rintro ⟨missing, violating, h⟩
  rcases h.ends with ⟨_, h⟩ | ⟨_, h⟩ | ⟨_, h⟩
  · cases h
  · cases h
  · cases h

end Schedules

end AuthorIntegrity
