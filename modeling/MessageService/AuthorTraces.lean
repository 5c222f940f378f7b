import MessageService.Traces

/-! How the author calls end.
The cases follow the branches of the service functions; `rejected` is the
`except IntegrityError` clause, which rolls back and translates the constraint. -/
namespace AuthorTraces

open Programs Interleaving Texts Models Schemas KeyedTables MessageJson Postgres Services
open ServiceRuns Transitions Statements Consistency Histories Traces

variable [JsonCodec] {s : SoundDb} {ρ : Run s}

inductive CreateTrace (ρ : Run s) (c : ℕ) (p : AuthorCreate) (i n : ℕ) : Outcome → Prop
  | failed {exc} : Failed ρ c i n exc → Translated ρ c exc → CreateTrace ρ c p i n (.error exc)
  | rejected {j x sqlstate exc} : i ≤ j → j < n →
      ρ.Performs j c (.insertAuthor p.name p.email) x (.error (.integrityError sqlstate)) →
      exc = (if sqlstate = some uniqueViolation then duplicateEmail p.email
        else .integrityError sqlstate) →
      Calm ρ c i n → CreateTrace ρ c p i n (.error exc)
  | created {j k x x' a} : i ≤ j → j < k → k < n → text a.name = p.name →
      text a.email = p.email → ρ.Performs j c (.insertAuthor p.name p.email) x (.ok a) →
      ¬(ρ.store j).db.emailTaken a.email →
      ρ.Performs k c .commit x' (.ok ()) → ρ.author (k + 1) a.id = some a →
      CreateTrace ρ c p i n (.ok (.author (.ofRow a)))

inductive UpdateTrace (ρ : Run s) (c : ℕ) (id : Uuid) (p : AuthorUpdate) (i n : ℕ) :
    Outcome → Prop
  | failed {exc} : Failed ρ c i n exc → Translated ρ c exc → UpdateTrace ρ c id p i n (.error exc)
  | read {j x a} : i ≤ j → j < n → p.name = none ∧ p.email = none →
      ρ.Performs j c (.selectAuthor id) x (.ok (some a)) →
      ρ.author j id = some a → Calm ρ c i n → UpdateTrace ρ c id p i n (.ok (.author (.ofRow a)))
  | readNothing {j x} : i ≤ j → j < n → p.name = none ∧ p.email = none →
      ρ.Performs j c (.selectAuthor id) x (.ok none) → ρ.author j id = none → Calm ρ c i n →
      UpdateTrace ρ c id p i n (.error (authorNotFound id))
  | rejected {j x sqlstate exc} : i ≤ j → j < n → ¬(p.name = none ∧ p.email = none) →
      ρ.Performs j c (.updateAuthor id p.name p.email) x (.error (.integrityError sqlstate)) →
      exc = (if sqlstate = some uniqueViolation then duplicateEmail (p.email.getD [])
        else .integrityError sqlstate) →
      Calm ρ c i n → UpdateTrace ρ c id p i n (.error exc)
  | absent {j x} : i ≤ j → j < n → ¬(p.name = none ∧ p.email = none) →
      ρ.Performs j c (.updateAuthor id p.name p.email) x (.ok none) →
      ρ.author j id = none → Calm ρ c i n → UpdateTrace ρ c id p i n (.error (authorNotFound id))
  | updated {j k x x' row} : i ≤ j → j < k → k < n → ¬(p.name = none ∧ p.email = none) →
      ρ.author j id = some row →
      ρ.Performs j c (.updateAuthor id p.name p.email) x
        (.ok (some (updatedAuthor row p.name p.email))) →
      AuthorFits (ρ.store j).db row p.name p.email →
      ρ.Performs k c .commit x' (.ok ()) →
      ρ.author (k + 1) id = some (updatedAuthor row p.name p.email) →
      UpdateTrace ρ c id p i n (.ok (.author (.ofRow (updatedAuthor row p.name p.email))))

inductive DeleteTrace (ρ : Run s) (c : ℕ) (id : Uuid) (i n : ℕ) : Outcome → Prop
  | failed {exc} : Failed ρ c i n exc → Translated ρ c exc → DeleteTrace ρ c id i n (.error exc)
  | rejected {j x sqlstate exc} : i ≤ j → j < n →
      ρ.Performs j c (.deleteAuthor id) x (.error (.integrityError sqlstate)) →
      exc = (if sqlstate = some fkViolation then hasMessages id else .integrityError sqlstate) →
      Calm ρ c i n → DeleteTrace ρ c id i n (.error exc)
  | commitRejected {k x sqlstate exc} : i ≤ k → k < n →
      ρ.Performs k c .commit x (.error (.integrityError sqlstate)) →
      Calm ρ c i k → Calm ρ c (k + 1) n → DeleteTrace ρ c id i n (.error exc)
  | absent {j x} : i ≤ j → j < n → ρ.Performs j c (.deleteAuthor id) x (.ok none) →
      ρ.author j id = none → Calm ρ c i n → DeleteTrace ρ c id i n (.error (authorNotFound id))
  | deleted {j k x x' row} : i ≤ j → j < k → k < n → ρ.author j id = some row →
      (ρ.store j).db.referencing id = [] →
      ρ.Performs j c (.deleteAuthor id) x (.ok (some id)) →
      ρ.Performs k c .commit x' (.ok ()) → ρ.author (k + 1) id = none →
      DeleteTrace ρ c id i n (.ok .none)

section Endings

variable {c i n : ℕ} {id : Uuid} {o : Outcome}

theorem createAuthor_ended {p : AuthorCreate} (hs : Session ρ c i i []) (hn : n ≤ ρ.length)
    (h : ρ.Reaches c (body (.createAuthor p)) i (.done o) n) : CreateTrace ρ c p i n o := by
  obtain ⟨j, x, r, hij, hjn, hs, hp, h⟩ := taken h hn hs
  have hdb := performs_db hp (by simp)
  rcases r with exc | a
  · cases exc with
    | integrityError sqlstate =>
      obtain ⟨l, x₂, r, hjl, hln, hs', hp₂, h⟩ := taken h hn (hs.step hp hdb rfl)
      rcases r with exc | _
      · obtain ⟨ho, _⟩ := reaches_done h
        cases ho
        exact .failed (hs'.failed (by omega) hln hp₂ h) fun _ _ => ⟨_, _, _, hp₂, fun h => h⟩
      have hs' := hs'.rolledBack hp₂
      by_cases hu : sqlstate = some uniqueViolation
      · rw [if_pos hu] at h
        obtain ⟨ho, _, hidle⟩ := reaches_done h
        cases ho
        exact .rejected hij hjn hp (by rw [if_pos hu]) (hs'.calm.idle hidle)
      · rw [if_neg hu] at h
        obtain ⟨ho, _, hidle⟩ := reaches_done h
        cases ho
        exact .rejected hij hjn hp (by rw [if_neg hu]) (hs'.calm.idle hidle)
    | notFoundError | conflictError | dataError | noResultFound | assertionError
    | validationError | other =>
      obtain ⟨ho, _⟩ := reaches_done h
      cases ho
      exact .failed (hs.failed (by omega) hjn hp h) (by rintro _ ⟨⟩)
  · obtain ⟨f, hx⟩ := performs_ok hp
    obtain ⟨ha, _, hfree, hw⟩ := insertAuthor_ok hx
    obtain ⟨hname, hemail⟩ := insertAuthor_stores hx
    rw [view_committed hs, ← hemail, string_text] at hfree
    have hs' : Session ρ c i (j + 1) [.putAuthor a] :=
      hs.step hp hdb (hw.trans (by rw [hs.pending]; rfl))
    obtain ⟨k, x₂, r, hjk, hkn, hs', hp₂, h⟩ := taken h hn hs'
    rcases r with exc | _
    · obtain ⟨ho, _⟩ := reaches_done h
      cases ho
      exact .failed (hs'.failed (by omega) hkn hp₂ h) fun _ _ => ⟨_, _, _, hp₂, fun h => h⟩
    · obtain ⟨ho, _⟩ := reaches_done h
      cases ho
      refine .created hij hjk hkn hname hemail hp hfree hp₂ ?_
      rw [Run.author, committed hp₂, commit_author, hs'.pending, lastAuthor_singleton,
        author?_put rfl]
      rfl

theorem updateAuthor_ended {p : AuthorUpdate} (hs : Session ρ c i i []) (hn : n ≤ ρ.length)
    (h : ρ.Reaches c (body (.updateAuthor id p)) i (.done o) n) : UpdateTrace ρ c id p i n o := by
  by_cases hempty : p.name = none ∧ p.email = none
  · simp only [body, updateAuthor, if_pos hempty] at h
    obtain ⟨j, x, r, hij, hjn, hs, hp, h⟩ := taken h hn hs
    rcases r with exc | r
    · obtain ⟨ho, _⟩ := reaches_done h
      cases ho
      exact .failed (hs.failed hij hjn hp h) fun _ _ => ⟨_, _, _, hp, fun h => h⟩
    have hr := (performs_answer hp fun _ => rfl).1
    rw [view_committed hs] at hr
    have hcalm := (hs.silent hp trivial).calm
    rcases r with _ | a
    · obtain ⟨ho, _, hidle⟩ := reaches_done h
      cases ho
      exact .readNothing hij hjn hempty hp hr.symm (hcalm.idle hidle)
    · obtain ⟨ho, _, hidle⟩ := reaches_done h
      cases ho
      exact .read hij hjn hempty hp hr.symm (hcalm.idle hidle)
  · simp only [body, updateAuthor, if_neg hempty] at h
    obtain ⟨j, x, r, hij, hjn, hs, hp, h⟩ := taken h hn hs
    have hdb := performs_db hp (by simp)
    rcases r with exc | r
    · cases exc with
      | integrityError sqlstate =>
        obtain ⟨l, x₂, r, hjl, hln, hs', hp₂, h⟩ := taken h hn (hs.step hp hdb rfl)
        rcases r with exc | _
        · obtain ⟨ho, _⟩ := reaches_done h
          cases ho
          exact .failed (hs'.failed (by omega) hln hp₂ h) fun _ _ => ⟨_, _, _, hp₂, fun h => h⟩
        have hs' := hs'.rolledBack hp₂
        by_cases hu : sqlstate = some uniqueViolation
        · rw [if_pos hu] at h
          obtain ⟨ho, _, hidle⟩ := reaches_done h
          cases ho
          exact .rejected hij hjn hempty hp (by rw [if_pos hu]) (hs'.calm.idle hidle)
        · rw [if_neg hu] at h
          obtain ⟨ho, _, hidle⟩ := reaches_done h
          cases ho
          exact .rejected hij hjn hempty hp (by rw [if_neg hu]) (hs'.calm.idle hidle)
      | notFoundError | conflictError | dataError | noResultFound | assertionError
      | validationError | other =>
        obtain ⟨ho, _⟩ := reaches_done h
        cases ho
        exact .failed (hs.failed (by omega) hjn hp h) (by rintro _ ⟨⟩)
    · obtain ⟨f, hx⟩ := performs_ok hp
      rcases updateAuthor_ok hx with ⟨rfl, hnone, hw⟩ | ⟨row, hrow, rfl, hfree, hw⟩
      · obtain ⟨ho, _, hidle⟩ := reaches_done h
        cases ho
        rw [view_committed hs] at hnone
        have hs' : Session ρ c i (j + 1) [] := hs.step hp hdb (by rw [hw]; exact hs.pending)
        exact .absent hij hjn hempty hp hnone (hs'.calm.idle hidle)
      · rw [view_committed hs] at hrow hfree
        have hid : (updatedAuthor row p.name p.email).id = id := (lookup_key hrow : row.id = id)
        have hs' : Session ρ c i (j + 1) [.putAuthor (updatedAuthor row p.name p.email)] :=
          hs.step hp hdb (hw.trans (by rw [hs.pending]; rfl))
        obtain ⟨k, x₂, r, hjk, hkn, hs', hp₂, h⟩ := taken h hn hs'
        rcases r with exc | _
        · obtain ⟨ho, _⟩ := reaches_done h
          cases ho
          exact .failed (hs'.failed (by omega) hkn hp₂ h) fun _ _ => ⟨_, _, _, hp₂, fun h => h⟩
        · obtain ⟨ho, _⟩ := reaches_done h
          cases ho
          refine .updated hij hjk hkn hempty hrow hp hfree hp₂ ?_
          rw [Run.author, committed hp₂, commit_author, hs'.pending, lastAuthor_singleton,
            author?_put hid]
          rfl

theorem deleteAuthor_ended (hs : Session ρ c i i []) (hn : n ≤ ρ.length)
    (h : ρ.Reaches c (body (.deleteAuthor id)) i (.done o) n) : DeleteTrace ρ c id i n o := by
  obtain ⟨j, x, r, hij, hjn, hs, hp, h⟩ := taken h hn hs
  have hdb := performs_db hp (by simp)
  rcases r with exc | r
  · cases exc with
    | integrityError sqlstate =>
      obtain ⟨l, x₂, r, hjl, hln, hs', hp₂, h⟩ := taken h hn (hs.step hp hdb rfl)
      rcases r with exc | _
      · obtain ⟨ho, _⟩ := reaches_done h
        cases ho
        exact .failed (hs'.failed (by omega) hln hp₂ h) fun _ _ => ⟨_, _, _, hp₂, fun h => h⟩
      have hs' := hs'.rolledBack hp₂
      by_cases hu : sqlstate = some fkViolation
      · rw [if_pos hu] at h
        obtain ⟨ho, _, hidle⟩ := reaches_done h
        cases ho
        exact .rejected hij hjn hp (by rw [if_pos hu]) (hs'.calm.idle hidle)
      · rw [if_neg hu] at h
        obtain ⟨ho, _, hidle⟩ := reaches_done h
        cases ho
        exact .rejected hij hjn hp (by rw [if_neg hu]) (hs'.calm.idle hidle)
    | notFoundError | conflictError | dataError | noResultFound | assertionError
    | validationError | other =>
      obtain ⟨ho, _⟩ := reaches_done h
      cases ho
      exact .failed (hs.failed (by omega) hjn hp h) (by rintro _ ⟨⟩)
  obtain ⟨f, hx⟩ := performs_ok hp
  obtain ⟨k, x₂, r₂, hjk, hkn, hs', hp₂, h⟩ := taken h hn (hs.step hp hdb rfl)
  rcases r₂ with exc | _
  · -- a commit that raises passes through the same clause
    cases exc with
    | integrityError sqlstate =>
      have fresh : Session ρ c (k + 1) (k + 1) ((ρ.store (k + 1)).pending c) :=
        ⟨rfl, fun _ _ _ _ _ _ _ => by omega⟩
      obtain ⟨l, x₃, r, hkl, hln, hs₂, hp₃, h⟩ := taken h hn fresh
      have hcalm := (hs₂.step hp₃ (performs_db hp₃ (by simp)) rfl).calm
      rcases r with exc | _
      · obtain ⟨ho, _, hidle⟩ := reaches_done h
        cases ho
        exact .commitRejected (by omega) hkn hp₂ hs'.calm (hcalm.idle hidle)
      by_cases hu : sqlstate = some fkViolation
      · rw [if_pos hu] at h
        obtain ⟨ho, _, hidle⟩ := reaches_done h
        cases ho
        exact .commitRejected (by omega) hkn hp₂ hs'.calm (hcalm.idle hidle)
      · rw [if_neg hu] at h
        obtain ⟨ho, _, hidle⟩ := reaches_done h
        cases ho
        exact .commitRejected (by omega) hkn hp₂ hs'.calm (hcalm.idle hidle)
    | notFoundError | conflictError | dataError | noResultFound | assertionError
    | validationError | other =>
      obtain ⟨ho, _⟩ := reaches_done h
      cases ho
      exact .failed (hs'.failed (by omega) hkn hp₂ h) (by rintro _ ⟨⟩)
  · rcases deleteAuthor_ok hx with ⟨rfl, hnone, hw⟩ | ⟨rfl, ⟨row, hrow⟩, hrefs, hw⟩
    · obtain ⟨ho, _, hidle⟩ := reaches_done h
      cases ho
      rw [hw, hs.pending] at hs'
      rw [view_committed hs] at hnone
      exact .absent hij hjn hp hnone ((hs'.committedNothing hp₂).calm.idle hidle)
    · obtain ⟨ho, _⟩ := reaches_done h
      cases ho
      rw [view_committed hs] at hrow hrefs
      refine .deleted hij hjk hkn hrow hrefs hp hp₂ ?_
      rw [Run.author, committed hp₂, commit_author, hs'.pending, hw, hs.pending, List.nil_append,
        lastAuthor_singleton, author?_drop]
      rfl

/-- The messages of an author are those of the tables at one instant, when they are asked for. -/
theorem getAuthor_read {inc : Bool} {res : Result} (hs : Session ρ c i i []) (hn : n ≤ ρ.length)
    (h : ρ.Reaches c (body (.getAuthor id inc)) i (.done (.ok res)) n) :
    ∃ a k, i ≤ k ∧ k < n ∧ res = .authorDetail a ∧ a.messages =
      if inc then some (((ρ.store k).db.messagesOf id).map MessageSummary.ofRow) else none := by
  obtain ⟨j, x, r, hij, hjn, hs, hp, h⟩ := taken h hn hs
  rcases r with exc | (_ | a)
  · cases (reaches_done h).1
  · cases (reaches_done h).1
  cases inc with
  | false =>
    obtain ⟨ho, _⟩ := reaches_done h
    cases ho
    exact ⟨_, j, hij, hjn, rfl, rfl⟩
  | true =>
    obtain ⟨k, x', r, hjk, hkn, hs, hp, h⟩ := taken h hn (hs.silent hp trivial)
    rcases r with exc | rows
    · cases (reaches_done h).1
    · obtain ⟨ho, _⟩ := reaches_done h
      cases ho
      obtain ⟨rfl, _⟩ := performs_answer hp fun _ => rfl
      rw [view_committed hs]
      exact ⟨_, k, by omega, hkn, rfl, rfl⟩

theorem getAuthor_ended {inc : Bool} {res : Result} (hs : Session ρ c i i []) (hn : n ≤ ρ.length)
    (h : ρ.Reaches c (body (.getAuthor id inc)) i (.done (.ok res)) n) :
    ∃ a k, k < n ∧ res = .authorDetail a ∧ ∀ ms, a.messages = some ms → ∀ r ∈ ms,
      ∃ row, ρ.row k r.id = some row ∧ r = .ofRow row := by
  obtain ⟨a, k, _, hkn, rfl, hmessages⟩ := getAuthor_read hs hn h
  refine ⟨a, k, hkn, rfl, ?_⟩
  intro ms hms r hr
  cases inc with
  | false =>
    rw [hms] at hmessages
    cases hmessages
  | true =>
    obtain rfl := Option.some.inj (hms.symm.trans hmessages)
    obtain ⟨row, hrow, rfl⟩ := List.mem_map.mp hr
    rw [Db.messagesOf, List.mem_insertionSort] at hrow
    have hmem := (List.mem_filter.mp hrow).1
    rw [mem_rows_iff] at hmem
    exact ⟨row, hmem, rfl⟩

/-- A listed page is cut out of the rows of one instant, and counted at a later one. -/
theorem listAuthors_page {limit offset : ℕ} {res : Result} (hs : Session ρ c i i [])
    (hn : n ≤ ρ.length)
    (h : ρ.Reaches c (body (.listAuthors limit offset)) i (.done (.ok res)) n) :
    ∃ j k, i ≤ j ∧ j < k ∧ k < n ∧ res = .authors
      ⟨(((ρ.store j).db.sortedAuthors.drop offset).take limit).map AuthorOut.ofRow,
        (ρ.store k).db.authors.rows.length⟩ := by
  obtain ⟨j, x, r, hij, hjn, hs, hp, h⟩ := taken h hn hs
  rcases r with exc | rows
  · cases (reaches_done h).1
  have hrows := (performs_answer hp fun _ => rfl).1
  rw [view_committed hs] at hrows
  obtain ⟨k, x', r, hjk, hkn, hs', hp', h⟩ := taken h hn (hs.silent hp trivial)
  rcases r with exc | total
  · cases (reaches_done h).1
  have htotal := (performs_answer hp' fun _ => rfl).1
  rw [view_committed hs'] at htotal
  obtain ⟨ho, _⟩ := reaches_done h
  cases ho
  exact ⟨j, k, hij, hjk, hkn, by rw [hrows, htotal]⟩

end Endings

end AuthorTraces
