import MessageService.AuthorIntegrity
import MessageService.CacheProvenance
import MessageService.Pagination
import MessageService.SerialStore

/-! What the service answers is true of the abstract store.
A read shows the store, and a refusal names what the store has or misses, at one instant of the
call: the same store in which the writes are executed one after another. A page and an author with
messages are read by two statements, each at its own instant, and a cached message is as it once
was. -/
namespace TrueAnswers

open Programs Interleaving Texts Models Schemas KeyedTables MessageJson Postgres Services
open ServiceRuns Transitions Statements Consistency Histories Footprints Traces StoredStrings
open AbstractStore SerialExecutions SerialStore MessageTraces CacheProvenance AuthorIntegrity

section Specification

/-- A message as it is shown, with its author. -/
inductive Shown (S : Store) (row : Message) : MessageOut → Prop where
  | mk {a} : S.authors row.authorId = some a → Shown S row ⟨.ofRow row, .ofRow a⟩

/-- The rows of a table in an order. -/
structure Listing {α : Type} (before : α → α → Prop) (present : α → Prop) (rows : List α) :
    Prop where
  sorted : rows.Pairwise before
  nodup : rows.Nodup
  complete : ∀ a, a ∈ rows ↔ present a

abbrev MessageList (S : Store) : List Message → Prop :=
  Listing messageBefore fun m => S.messages m.id = some m

abbrev AuthorList (S : Store) : List Author → Prop :=
  Listing authorBefore fun a => S.authors a.id = some a

abbrev MessagesBy (S : Store) (id : Uuid) : List Message → Prop :=
  Listing messageBefore fun m => S.messages m.id = some m ∧ m.authorId = id

/-- An answer that the store gives as it stands: what a read shows, or why a request is refused. -/
inductive Tells (S : Store) : Request → Outcome → Prop where
  | message {m row out} : S.messages m = some row → Shown S row out →
      Tells S (.getMessage m) (.ok (.message out))
  | noMessage {m} : S.messages m = none →
      Tells S (.getMessage m) (.error (messageNotFound m))
  | author {id a} : S.authors id = some a →
      Tells S (.getAuthor id false) (.ok (.authorDetail ⟨.ofRow a, none⟩))
  | noAuthor {id inc} : S.authors id = none →
      Tells S (.getAuthor id inc) (.error (authorNotFound id))
  | createUnknown {p} : S.authors p.authorId = none →
      Tells S (.createMessage p) (.error (authorNotFound p.authorId))
  | updateUnknown {m p} : S.messages m = none →
      Tells S (.updateMessage m p) (.error (messageNotFound m))
  | deleteUnknown {m} : S.messages m = none →
      Tells S (.deleteMessage m) (.error (messageNotFound m))
  | emailTaken {p i a} : S.authors i = some a → text a.email = p.email →
      Tells S (.createAuthor p) (.error (duplicateEmail p.email))
  | authorKept {id p a} : S.authors id = some a → p.name = none ∧ p.email = none →
      Tells S (.updateAuthor id p) (.ok (.author (.ofRow a)))
  | authorUnknown {id p} : S.authors id = none →
      Tells S (.updateAuthor id p) (.error (authorNotFound id))
  | emailClaimed {id p a email} : S.authors id = some a → p.email = some (text email) →
      ¬S.Unclaimed id email → Tells S (.updateAuthor id p) (.error (duplicateEmail (text email)))
  | deleteAuthorUnknown {id} : S.authors id = none →
      Tells S (.deleteAuthor id) (.error (authorNotFound id))
  | referenced {id i m} : S.messages i = some m → m.authorId = id →
      Tells S (.deleteAuthor id) (.error (hasMessages id))

end Specification

section Listings

variable {db : Db}

theorem listing_messages (db : Db) : MessageList (.ofDb db) db.sortedMessages where
  sorted := List.pairwise_insertionSort messageBefore _
  nodup := (List.perm_insertionSort messageBefore _).nodup_iff.mpr db.messages.distinct.of_map
  complete m := by
    rw [Db.sortedMessages, List.mem_insertionSort, mem_rows_iff]
    rfl

theorem listing_authors (db : Db) : AuthorList (.ofDb db) db.sortedAuthors where
  sorted := List.pairwise_insertionSort authorBefore _
  nodup := (List.perm_insertionSort authorBefore _).nodup_iff.mpr db.authors.distinct.of_map
  complete a := by
    rw [Db.sortedAuthors, List.mem_insertionSort, mem_rows_iff]
    rfl

theorem listing_messagesOf (db : Db) (id : Uuid) :
    MessagesBy (.ofDb db) id (db.messagesOf id) where
  sorted := List.pairwise_insertionSort messageBefore _
  nodup := (List.perm_insertionSort messageBefore _).nodup_iff.mpr
    (db.messages.distinct.of_map.filter _)
  complete m := by
    rw [Db.messagesOf, List.mem_insertionSort, Db.referencing, List.mem_filter, mem_rows_iff,
      decide_eq_true_eq]
    rfl

theorem shown_of_row {row : Message} {out : MessageOut}
    (h : MessageOut.ofRow row (db.authors.lookup row.authorId) = some out) :
    Shown (.ofDb db) row out := by
  cases ha : db.authors.lookup row.authorId with
  | none =>
    rw [ha] at h
    cases h
  | some a =>
    rw [ha] at h
    obtain rfl : ⟨.ofRow row, .ofRow a⟩ = out := Option.some.inj h
    exact .mk ha

theorem tells_representation {m : Uuid} {out : MessageOut} (h : representation db m = some out) :
    Tells (.ofDb db) (.getMessage m) (.ok (.message out)) := by
  obtain ⟨row, hrow, hout⟩ := Option.bind_eq_some_iff.mp h
  exact .message hrow (shown_of_row hout)

theorem shown_all {rows : List Message} {items : List MessageOut}
    (h : (rows.map db.withAuthor).mapM (fun r => MessageOut.ofRow r.1 r.2) = some items) :
    List.Forall₂ (Shown (.ofDb db)) rows items := by
  induction rows generalizing items with
  | nil =>
    obtain rfl := Option.some.inj h
    exact .nil
  | cons row rows ih =>
    rw [List.map_cons, List.mapM_cons] at h
    obtain ⟨item, hitem, h⟩ := Option.bind_eq_some_iff.mp h
    obtain ⟨rest, hrest, h⟩ := Option.bind_eq_some_iff.mp h
    obtain rfl := Option.some.inj h
    exact .cons (shown_of_row hitem) (ih hrest)

end Listings

variable [JsonCodec] {s : SoundDb} {ρ : Run s} {c i n : ℕ}

/-- Why call `c`, made at instant `i`, may answer so by instant `n`. -/
inductive Justified (ρ : Run s) (c i n : ℕ) : Request → Outcome → Prop where
  | acted {q res} : Answered ρ c i n q res → Justified ρ c i n q (.ok res)
  | told {q o k} : i < k → k < n → Tells (tables ρ k) q o → Justified ρ c i n q o
  /-- An entry of the cache: the tables said so at an instant that may lie before the call. -/
  | cached {m j k x v out} : i < j → j < n → ρ.Performs j c (.cacheGet m.str) x (.ok (some v)) →
      k < j → Tells (tables ρ k) (.getMessage m) (.ok (.message out)) →
      Justified ρ c i n (.getMessage m) (.ok (.message out))
  /-- The UPDATE found no row of the version, and the row was there when it was looked for. -/
  | stale {m p j k row} : i < j → j < k → k < n →
      (∀ old, (tables ρ j).messages m = some old → old.version ≠ p.version) →
      (tables ρ k).messages m = some row →
      Justified ρ c i n (.updateMessage m p) (.error (staleVersion m p.version))
  | detailed {id a j k rows} : i < j → j < k → k < n → (tables ρ j).authors id = some a →
      MessagesBy (tables ρ k) id rows →
      Justified ρ c i n (.getAuthor id true)
        (.ok (.authorDetail ⟨.ofRow a, some (rows.map MessageSummary.ofRow)⟩))
  | messages {limit offset page j k rows counted} : i < j → j < k → k < n →
      MessageList (tables ρ j) rows → MessageList (tables ρ k) counted →
      List.Forall₂ (Shown (tables ρ j)) ((rows.drop offset).take limit) page.items →
      page.totalCount = counted.length →
      Justified ρ c i n (.listMessages limit offset) (.ok (.messages page))
  | authors {limit offset j k rows counted} : i < j → j < k → k < n →
      AuthorList (tables ρ j) rows → AuthorList (tables ρ k) counted →
      Justified ρ c i n (.listAuthors limit offset)
        (.ok (.authors ⟨((rows.drop offset).take limit).map AuthorOut.ofRow, counted.length⟩))

section Reading

/-- Every message of a page has its author. -/
theorem page_validates {j : ℕ} (hj : j ≤ ρ.length) (limit offset : ℕ) :
    ∃ items, ((((ρ.store j).db.sortedMessages.drop offset).take limit).map
      (ρ.store j).db.withAuthor).mapM (fun r => MessageOut.ofRow r.1 r.2) = some items := by
  refine mapM_some ?_
  intro r hr
  obtain ⟨row, hrow, rfl⟩ := List.mem_map.mp hr
  have hmem := List.mem_of_mem_drop (List.mem_of_mem_take hrow)
  rw [Db.sortedMessages, List.mem_insertionSort, mem_rows_iff] at hmem
  obtain ⟨a, ha⟩ := (run_consistent ρ hj).committed_foreign_keys row hmem
  refine ⟨⟨.ofRow row, .ofRow a⟩, ?_⟩
  rw [Db.withAuthor, ha]
  rfl

variable {a b : ℕ} {q : Request} {o : Outcome}

/-- A call that only reads, over its next await: it is answered from the committed tables. -/
theorem taken_read {e} {K : Reply e → host.Body} (hf : ρ.Faultless c) (hq : Reading q)
    (hi : i < ρ.length) (he : ρ.event i = .call c q) (hn : n ≤ ρ.length)
    (hs : Session ρ c a b []) (h : ρ.Reaches c (.await e K) b (.done o) n) :
    ∃ j x r, b ≤ j ∧ j < n ∧ (ρ.store j).view c = (ρ.store j).db ∧
      ρ.Performs j c e x (.ok r) ∧ Session ρ c a (j + 1) [] ∧
      ρ.Reaches c (K (.ok r)) (j + 1) (.done o) n := by
  obtain ⟨j, x, r, hbj, hjn, hs, hp, hr⟩ := taken h hn hs
  cases r with
  | error exc => exact (reading_infallible hf hq hi he hp).elim
  | ok r =>
    have hsilent : Silent e := performs_only hi he (reading_silent hq) hp
    exact ⟨j, x, r, hbj, hjn, view_committed hs, hp, hs.silent hp hsilent, hr⟩

theorem getMessage_justified {m : Uuid} (hf : ρ.Faultless c) (hi : i < ρ.length)
    (he : ρ.event i = .call c (.getMessage m)) (ht : GetTrace ρ c m (i + 1) n o) :
    Justified ρ c i n (.getMessage m) o := by
  cases ht with
  | failed hfailed =>
    obtain ⟨e, j, x, _, _, hp, _⟩ := hfailed
    exact (reading_infallible hf (q := .getMessage m) trivial hi he hp).elim
  | hit hij hjn hp hv =>
    have hentry := (performs_answer hp fun _ => rfl).1
    obtain ⟨_, out, k, hkj, hload, rfl⟩ := entry_origin hp.within.le hentry.symm
    rw [validate_dump] at hv
    obtain rfl := Option.some.inj hv
    exact .cached hij hjn hp hkj (tells_representation hload.reads)
  | corrupt hij hjn hp hv =>
    have hentry := (performs_answer hp fun _ => rfl).1
    obtain ⟨_, out, k, _, _, rfl⟩ := entry_origin hp.within.le hentry.symm
    rw [validate_dump] at hv
    cases hv
  | absent hij hjk hkn _ _ hnone => exact .told (by omega) hkn (.noMessage hnone)
  | loaded hij hjk hkl hln _ _ hrep _ =>
    exact .told (by omega) (by omega) (tells_representation hrep)

theorem getAuthor_justified {id : Uuid} {inc : Bool} (hf : ρ.Faultless c) (hi : i < ρ.length)
    (he : ρ.event i = .call c (.getAuthor id inc)) (hn : n ≤ ρ.length)
    (hs : Session ρ c (i + 1) (i + 1) [])
    (h : ρ.Reaches c (body (.getAuthor id inc)) (i + 1) (.done o) n) :
    Justified ρ c i n (.getAuthor id inc) o := by
  obtain ⟨j, x, r, hij, hjn, hview, hp, hs, h⟩ :=
    taken_read hf (q := .getAuthor id inc) trivial hi he hn hs h
  have hread := (performs_answer hp fun _ => rfl).1
  rw [hview] at hread
  cases r with
  | none =>
    obtain ⟨ho, _⟩ := reaches_done h
    cases ho
    exact .told hij hjn (.noAuthor hread.symm)
  | some a =>
    cases inc with
    | false =>
      obtain ⟨ho, _⟩ := reaches_done h
      cases ho
      exact .told hij hjn (.author hread.symm)
    | true =>
      obtain ⟨k, x', rows, hjk, hkn, hview', hp', _, h⟩ :=
        taken_read hf (q := .getAuthor id true) trivial hi he hn hs h
      have hrows := (performs_answer hp' fun _ => rfl).1
      rw [hview'] at hrows
      obtain ⟨ho, _⟩ := reaches_done h
      cases ho
      subst hrows
      exact .detailed hij (by omega) hkn hread.symm (listing_messagesOf _ id)

theorem listAuthors_justified {limit offset : ℕ} (hf : ρ.Faultless c) (hi : i < ρ.length)
    (he : ρ.event i = .call c (.listAuthors limit offset)) (hn : n ≤ ρ.length)
    (hs : Session ρ c (i + 1) (i + 1) [])
    (h : ρ.Reaches c (body (.listAuthors limit offset)) (i + 1) (.done o) n) :
    Justified ρ c i n (.listAuthors limit offset) o := by
  obtain ⟨j, x, rows, hij, hjn, hview, hp, hs, h⟩ :=
    taken_read hf (q := .listAuthors limit offset) trivial hi he hn hs h
  have hrows := (performs_answer hp fun _ => rfl).1
  rw [hview] at hrows
  obtain ⟨k, x', total, hjk, hkn, hview', hp', _, h⟩ :=
    taken_read hf (q := .listAuthors limit offset) trivial hi he hn hs h
  have htotal := (performs_answer hp' fun _ => rfl).1
  rw [hview'] at htotal
  obtain ⟨ho, _⟩ := reaches_done h
  cases ho
  have hcounted : (ρ.store k).db.authors.rows.length = (ρ.store k).db.sortedAuthors.length :=
    (List.length_insertionSort ..).symm
  rw [hrows, htotal, hcounted]
  exact .authors hij (by omega) hkn (listing_authors _) (listing_authors _)

theorem listMessages_justified {limit offset : ℕ} (hf : ρ.Faultless c) (hi : i < ρ.length)
    (he : ρ.event i = .call c (.listMessages limit offset)) (hn : n ≤ ρ.length)
    (hs : Session ρ c (i + 1) (i + 1) [])
    (h : ρ.Reaches c (body (.listMessages limit offset)) (i + 1) (.done o) n) :
    Justified ρ c i n (.listMessages limit offset) o := by
  obtain ⟨j, x, rows, hij, hjn, hview, hp, hs, h⟩ :=
    taken_read hf (q := .listMessages limit offset) trivial hi he hn hs h
  obtain ⟨rfl, _⟩ := performs_answer hp fun _ => rfl
  rw [hview] at h
  obtain ⟨k, x', total, hjk, hkn, hview', hp', _, h⟩ :=
    taken_read hf (q := .listMessages limit offset) trivial hi he hn hs h
  have htotal := (performs_answer hp' fun _ => rfl).1
  rw [hview'] at htotal
  -- every message of the page has its author, so the page validates
  obtain ⟨items, hitems⟩ := page_validates (hjn.le.trans hn) limit offset
  generalize hrows : (((ρ.store j).db.sortedMessages.drop offset).take limit).map
    (ρ.store j).db.withAuthor = rows at h hitems
  have h : ρ.Reaches c (Program.bind (Program.bind
      (validated (rows.mapM fun r => MessageOut.ofRow r.1 r.2))
      (ExceptT.bindCont fun items => pure (⟨items, total⟩ : Page MessageOut)))
      (ExceptT.bindCont fun page => pure (.messages page))) (k + 1) (.done o) n := h
  rw [hitems] at h
  obtain ⟨ho, _⟩ := reaches_done h
  cases ho
  rw [← hrows] at hitems
  have hcounted : (ρ.store k).db.messages.rows.length = (ρ.store k).db.sortedMessages.length :=
    (List.length_insertionSort ..).symm
  exact .messages hij (by omega) hkn (listing_messages _) (listing_messages _) (shown_all hitems)
    (htotal.trans hcounted)

end Reading

section Writing

variable {exc : Exc}

/-- A payload that the columns take: no string has U+0000 or a lone surrogate, and the version has a
successor. -/
def Fitting (q : Request) : Prop :=
  (∀ fs ∈ payloadStrings q, Representable fs.2) ∧
    match q with
    | .updateMessage _ p => p.version < maxInt4
    | _ => True

theorem createMessage_refused {p : MessageCreate} (hf : ρ.Faultless c)
    (hfit : Fitting (.createMessage p)) (hi : i < ρ.length)
    (he : ρ.event i = .call c (.createMessage p))
    (ht : MessageTraces.CreateTrace ρ c p (i + 1) n (.error exc)) :
    Justified ρ c i n (.createMessage p) (.error exc) := by
  cases ht with
  | failed hfail htr =>
    exact (unfailed (q := .createMessage p) hf trivial (storing_payload hfit.1) hi he hfail
      htr).elim
  | noAuthor hij hjn _ hnone _ => exact .told hij hjn (.createUnknown hnone)
  | rejected hij hjk hkn _ hp hexc _ =>
    obtain ⟨_, f, hx⟩ := faultless_error hf hp
    rcases (insertMessage_error hx).2 with ⟨hdata, _⟩ | ⟨hfk, hnone⟩
    · cases hdata
    · cases hfk
      rw [if_pos rfl] at hexc
      rw [performs_committed hi he (by simp) hp rfl] at hnone
      rw [hexc]
      exact .told (by omega) hkn (.createUnknown hnone)

theorem updateMessage_refused {m : Uuid} {p : MessageUpdate} (hf : ρ.Faultless c)
    (hfit : Fitting (.updateMessage m p)) (hi : i < ρ.length)
    (he : ρ.event i = .call c (.updateMessage m p))
    (ht : MessageTraces.UpdateTrace ρ c m p (i + 1) n (.error exc)) :
    Justified ρ c i n (.updateMessage m p) (.error exc) := by
  obtain ⟨hplain, hversion⟩ := hfit
  cases ht with
  | failed hfail =>
    obtain ⟨j, x, _, _, _, hwhy⟩ := update_refused hf hi he hfail
    rcases hwhy with hunfit | ⟨row, _, hrow, hmax⟩
    · refine absurd ⟨?_, ?_⟩ hunfit
      · intro t ht
        have hmem : (.title, t) ∈ payloadStrings (.updateMessage m p) := by
          rw [Option.mem_def] at ht
          simp [payloadStrings, ht]
        exact (fits_payload (.title, t) hmem).mpr (hplain _ hmem)
      · have hmem : (.content, p.content) ∈ payloadStrings (.updateMessage m p) := by
          simp [payloadStrings]
        exact (fits_payload (.content, p.content) hmem).mpr (hplain _ hmem)
    · dsimp only at hversion
      omega
  | unevicted _ _ _ _ _ _ _ _ hp => exact (faultless_error hf hp).1.elim
  | @missed j k l _ _ _ hij hjk hkl hln hne _ _ hexc _ =>
    cases hrow : ρ.row l m with
    | none =>
      rw [hrow] at hexc
      rw [hexc]
      exact .told (by omega) hln (.updateUnknown hrow)
    | some row =>
      rw [hrow] at hexc
      rw [hexc]
      exact .stale hij (by omega) hln hne hrow

theorem deleteMessage_refused {m : Uuid} (hf : ρ.Faultless c) (hi : i < ρ.length)
    (he : ρ.event i = .call c (.deleteMessage m))
    (ht : MessageTraces.DeleteTrace ρ c m (i + 1) n (.error exc)) :
    Justified ρ c i n (.deleteMessage m) (.error exc) := by
  cases ht with
  | failed hfail =>
    obtain ⟨e, j, x, _, _, hp, _⟩ := hfail
    have honly : (body (.deleteMessage m)).Only fun e => ¬Fallible e :=
      awaits_bind (awaits_deleteMessage id id id) fun _ => awaits_pure _
    exact (performs_only hi he honly hp (faultless_error hf hp).1).elim
  | unevicted _ _ _ _ _ _ _ hp => exact (faultless_error hf hp).1.elim
  | absent hij hjk hkn hnone _ _ => exact .told hij (by omega) (.deleteUnknown hnone)

theorem createAuthor_refused {p : AuthorCreate} (hf : ρ.Faultless c)
    (hfit : Fitting (.createAuthor p)) (hi : i < ρ.length)
    (he : ρ.event i = .call c (.createAuthor p))
    (ht : AuthorTraces.CreateTrace ρ c p (i + 1) n (.error exc)) :
    Justified ρ c i n (.createAuthor p) (.error exc) := by
  cases ht with
  | failed hfail htr =>
    exact (unfailed (q := .createAuthor p) hf trivial (storing_payload hfit.1) hi he hfail htr).elim
  | rejected hij hjn hp hexc _ =>
    obtain ⟨_, f, hx⟩ := faultless_error hf hp
    rcases (insertAuthor_error hx).2 with ⟨hdata, _⟩ | ⟨hu, hplain, htaken⟩
    · cases hdata
    · cases hu
      rw [if_pos rfl] at hexc
      rw [performs_committed hi he (by simp) hp rfl] at htaken
      obtain ⟨a, ha, hemail⟩ := htaken
      rw [hexc]
      exact .told hij hjn (.emailTaken (mem_rows_iff.mp ha) (by rw [hemail, text_string hplain.1]))

theorem updateAuthor_refused {id : Uuid} {p : AuthorUpdate} (hf : ρ.Faultless c)
    (hfit : Fitting (.updateAuthor id p)) (hi : i < ρ.length)
    (he : ρ.event i = .call c (.updateAuthor id p))
    (ht : AuthorTraces.UpdateTrace ρ c id p (i + 1) n (.error exc)) :
    Justified ρ c i n (.updateAuthor id p) (.error exc) := by
  cases ht with
  | failed hfail htr =>
    exact (unfailed (q := .updateAuthor id p) hf trivial (storing_payload hfit.1) hi he hfail
      htr).elim
  | readNothing hij hjn _ _ hnone _ => exact .told hij hjn (.authorUnknown hnone)
  | rejected hij hjn _ hp hexc _ =>
    obtain ⟨_, f, hx⟩ := faultless_error hf hp
    rcases (updateAuthor_error hx).2 with ⟨hdata, _⟩ |
      ⟨hu, row, email, hemail, hrow, hne, hplain, htaken⟩
    · cases hdata
    · cases hu
      rw [if_pos rfl, hemail] at hexc
      rw [performs_committed hi he (by simp) hp rfl] at hrow htaken
      have hunique := (run_consistent ρ hp.within.le).committed_emails
      obtain ⟨a, ha, hother, rfl⟩ :=
        (held_iff hunique hrow).mpr ⟨hne, (held_taken hplain.1).mpr htaken⟩
      rw [hexc]
      exact .told hij hjn (.emailClaimed hrow hemail fun h => hother (h a.id a ha rfl))
  | absent hij hjn _ _ hnone _ => exact .told hij hjn (.authorUnknown hnone)

theorem deleteAuthor_refused {id : Uuid} (hf : ρ.Faultless c) (hi : i < ρ.length)
    (he : ρ.event i = .call c (.deleteAuthor id))
    (ht : AuthorTraces.DeleteTrace ρ c id (i + 1) n (.error exc)) :
    Justified ρ c i n (.deleteAuthor id) (.error exc) := by
  cases ht with
  | failed hfail htr =>
    have hstoring : Storing ρ c (.deleteAuthor id) := storing_payload fun _ h => by cases h
    exact (unfailed (q := .deleteAuthor id) hf trivial hstoring hi he hfail htr).elim
  | rejected hij hjn hp hexc _ =>
    obtain ⟨_, f, hx⟩ := faultless_error hf hp
    obtain ⟨_, hfk, _, hrefs⟩ := deleteAuthor_error hx
    cases hfk
    rw [if_pos rfl] at hexc
    rw [performs_committed hi he (by simp) hp rfl] at hrefs
    obtain ⟨m, hm⟩ := List.exists_mem_of_ne_nil _ hrefs
    obtain ⟨hrow, hid⟩ := List.mem_filter.mp hm
    rw [hexc]
    exact .told hij hjn (.referenced (mem_rows_iff.mp hrow) (by simpa using hid))
  | commitRejected _ _ hp _ _ => exact (faultless_error hf hp).1.elim
  | absent hij hjn _ hnone _ => exact .told hij hjn (.deleteAuthorUnknown hnone)

end Writing

section Calls

/-- Every call that meets no fault answers what the abstract store did or has at an instant of the
call; only a page, an author with messages, a conflict of versions and a cached message take two
instants. -/
theorem ended_justified (ρ : Run s) {q : Request} {o : Outcome} (hf : ρ.Faultless c)
    (hfit : Fitting q) (hseed : q ≠ .seedInitialMessage) (h : ρ.Ended c q o n) :
    ∃ i < n, ρ.event i = .call c q ∧ Justified ρ c i n q o := by
  obtain ⟨i, hin, he, hs, hr⟩ := ended_started h
  have hi := hin.trans_le h.1
  -- a success of a request that writes took effect; what is left are reads and refusals
  have hacted : ∀ res, o = .ok res → Writes q →
      ∃ i < n, ρ.event i = .call c q ∧ Justified ρ c i n q o := by
    rintro res rfl hq
    obtain ⟨i, hin, he, hanswered⟩ := ended_answered h hq
    exact ⟨i, hin, he, .acted hanswered⟩
  cases q with
  | getMessage m => exact ⟨i, hin, he, getMessage_justified hf hi he (getMessage_ended hs h.1 hr)⟩
  | getAuthor id inc => exact ⟨i, hin, he, getAuthor_justified hf hi he h.1 hs hr⟩
  | listMessages limit offset => exact ⟨i, hin, he, listMessages_justified hf hi he h.1 hs hr⟩
  | listAuthors limit offset => exact ⟨i, hin, he, listAuthors_justified hf hi he h.1 hs hr⟩
  | createMessage p =>
    cases o with
    | ok res => exact hacted res rfl trivial
    | error exc =>
      exact ⟨i, hin, he, createMessage_refused hf hfit hi he (createMessage_ended hs h.1 hr)⟩
  | updateMessage m p =>
    cases o with
    | ok res => exact hacted res rfl trivial
    | error exc =>
      exact ⟨i, hin, he, updateMessage_refused hf hfit hi he (updateMessage_ended hs h.1 hr)⟩
  | deleteMessage m =>
    cases o with
    | ok res => exact hacted res rfl trivial
    | error exc =>
      exact ⟨i, hin, he, deleteMessage_refused hf hi he (deleteMessage_ended hs h.1 hr)⟩
  | createAuthor p =>
    cases o with
    | ok res => exact hacted res rfl trivial
    | error exc =>
      exact ⟨i, hin, he, createAuthor_refused hf hfit hi he
        (AuthorTraces.createAuthor_ended hs h.1 hr)⟩
  | updateAuthor id p =>
    have htrace := AuthorTraces.updateAuthor_ended hs h.1 hr
    cases o with
    | error exc => exact ⟨i, hin, he, updateAuthor_refused hf hfit hi he htrace⟩
    | ok res =>
      by_cases hempty : p.name = none ∧ p.email = none
      · cases htrace with
        | read hij hjn _ _ hrow _ => exact ⟨i, hin, he, .told hij hjn (.authorKept hrow hempty)⟩
        | updated _ _ _ hchange _ _ _ _ _ => exact absurd hempty hchange
      · exact hacted res rfl hempty
  | deleteAuthor id =>
    cases o with
    | ok res => exact hacted res rfl trivial
    | error exc =>
      exact ⟨i, hin, he, deleteAuthor_refused hf hi he (AuthorTraces.deleteAuthor_ended hs h.1 hr)⟩
  | seedInitialMessage => exact absurd rfl hseed

/-- One sequence of stores, in which the writes are executed one after another, is what every
answer is about. -/
structure AnswersTrue (ρ : Run s) : Prop where
  serial : ∀ n ≤ ρ.length,
    Serial (fun op => Takes op.2) (.ofDb s.toDb) (acted (acts ρ) n) (tables ρ n)
  justified : ∀ c q o n, ρ.Faultless c → Fitting q → q ≠ .seedInitialMessage → ρ.Ended c q o n →
    ∃ i < n, ρ.event i = .call c q ∧ Justified ρ c i n q o

theorem answers_true (ρ : Run s) : AnswersTrue ρ where
  serial _ hn := serial_run hn
  justified _ _ _ _ hf hfit hseed h := ended_justified ρ hf hfit hseed h

end Calls

end TrueAnswers
