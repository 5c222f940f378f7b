import MessageService.Traces

/-! How the message calls end.
One case for each way through a service function, with the instants at which it read and
wrote; a step that raises ends the call in `failed`, or in `unevicted` when the write was
already committed. -/
namespace MessageTraces

open Programs Interleaving Texts Models Schemas KeyedTables MessageJson Postgres Services
open ServiceRuns Transitions Statements Consistency Histories Footprints Traces

theorem mem_of_mapM {α β : Type} {f : α → Option β} {l : List α} {l' : List β}
    (h : l.mapM f = some l') : ∀ b ∈ l', ∃ a ∈ l, f a = some b := by
  induction l generalizing l' with
  | nil =>
    rw [List.mapM_nil] at h
    intro b hb
    rw [← Option.some.inj h] at hb
    cases hb
  | cons a l ih =>
    rw [List.mapM_cons] at h
    obtain ⟨b, hb, h⟩ := Option.bind_eq_some_iff.mp h
    obtain ⟨bs, hbs, h⟩ := Option.bind_eq_some_iff.mp h
    intro b' hb'
    rw [← Option.some.inj h] at hb'
    rcases List.mem_cons.mp hb' with rfl | hb'
    · exact ⟨a, List.mem_cons_self .., hb⟩
    · obtain ⟨a', ha', hf⟩ := ih hbs b' hb'
      exact ⟨a', List.mem_cons_of_mem _ ha', hf⟩

theorem mapM_some {α β : Type} {f : α → Option β} {l : List α} (h : ∀ x ∈ l, ∃ y, f x = some y) :
    ∃ ys, l.mapM f = some ys := by
  induction l with
  | nil => exact ⟨[], rfl⟩
  | cons x l ih =>
    obtain ⟨⟨y, hy⟩, hl⟩ := List.forall_mem_cons.mp h
    obtain ⟨ys, hys⟩ := ih hl
    refine ⟨y :: ys, ?_⟩
    rw [List.mapM_cons, hy, hys]
    rfl

/-- What is read off the results can be read off the rows. -/
theorem map_of_mapM {α β γ : Type} {f : α → Option β} {g : β → γ} {h : α → γ}
    (hf : ∀ a b, f a = some b → g b = h a) {l : List α} {l' : List β}
    (hl : l.mapM f = some l') : l'.map g = l.map h := by
  induction l generalizing l' with
  | nil =>
    rw [List.mapM_nil] at hl
    obtain rfl := Option.some.inj hl
    rfl
  | cons a l ih =>
    rw [List.mapM_cons] at hl
    obtain ⟨b, hb, hl⟩ := Option.bind_eq_some_iff.mp hl
    obtain ⟨bs, hbs, hl⟩ := Option.bind_eq_some_iff.mp hl
    obtain rfl := Option.some.inj hl
    rw [List.map_cons, List.map_cons, hf a b hb, ih hbs]

variable [JsonCodec] {s : SoundDb} {ρ : Run s}

inductive GetTrace (ρ : Run s) (c : ℕ) (m : Uuid) (i n : ℕ) : Outcome → Prop
  | failed {exc} : Failed ρ c i n exc → GetTrace ρ c m i n (.error exc)
  | hit {j x v out} : i ≤ j → j < n → ρ.Performs j c (.cacheGet m.str) x (.ok (some v)) →
      modelValidateJson v = some out → GetTrace ρ c m i n (.ok (.message out))
  | corrupt {j x v} : i ≤ j → j < n → ρ.Performs j c (.cacheGet m.str) x (.ok (some v)) →
      modelValidateJson v = none → GetTrace ρ c m i n (.error .validationError)
  | absent {j k x x'} : i ≤ j → j < k → k < n → ρ.Performs j c (.cacheGet m.str) x (.ok none) →
      ρ.Performs k c (.selectMessage m) x' (.ok none) → ρ.row k m = none →
      GetTrace ρ c m i n (.error (messageNotFound m))
  | loaded {j k l x x' x'' a out} : i ≤ j → j < k → k < l → l < n →
      ρ.Performs j c (.cacheGet m.str) x (.ok none) →
      ρ.Performs k c (.selectMessage m) x'' (.ok a) →
      representation (ρ.store k).db m = some out →
      ρ.Performs l c (.cacheSet m.str (modelDumpJson out)) x' (.ok ()) →
      GetTrace ρ c m i n (.ok (.message out))

inductive CreateTrace (ρ : Run s) (c : ℕ) (p : MessageCreate) (i n : ℕ) : Outcome → Prop
  | failed {exc} : Failed ρ c i n exc → Translated ρ c exc → CreateTrace ρ c p i n (.error exc)
  | noAuthor {j x} : i ≤ j → j < n → ρ.Performs j c (.selectAuthor p.authorId) x (.ok none) →
      ρ.author j p.authorId = none → Calm ρ c i n →
      CreateTrace ρ c p i n (.error (authorNotFound p.authorId))
  | rejected {j k x x' au sqlstate exc} : i ≤ j → j < k → k < n →
      ρ.Performs j c (.selectAuthor p.authorId) x (.ok (some au)) →
      ρ.Performs k c (.insertMessage p.title p.content p.authorId) x'
        (.error (.integrityError sqlstate)) →
      exc = (if sqlstate = some fkViolation then authorNotFound p.authorId
        else .integrityError sqlstate) →
      Calm ρ c i n → CreateTrace ρ c p i n (.error exc)
  | created {j k l x x' x'' row au} : i ≤ j → j < k → k < l → l < n →
      ρ.Performs j c (.selectAuthor p.authorId) x (.ok (some au)) →
      ρ.author j p.authorId = some au → row.version = 0 →
      ρ.Performs k c (.insertMessage p.title p.content p.authorId) x' (.ok row) →
      ρ.Performs l c .commit x'' (.ok ()) → ρ.row (l + 1) row.id = some row →
      CreateTrace ρ c p i n (.ok (.message ⟨.ofRow row, .ofRow au⟩))

/-- The statement of an `update_message` call. -/
abbrev updateOf (m : Uuid) (p : MessageUpdate) : Effect :=
  .updateMessage m p.version p.content p.title

inductive UpdateTrace (ρ : Run s) (c : ℕ) (m : Uuid) (p : MessageUpdate) (i n : ℕ) :
    Outcome → Prop
  | failed {exc} : Failed ρ c i n exc → UpdateTrace ρ c m p i n (.error exc)
  | unevicted {j k l x x' row exc} : i ≤ j → j < k → k < l → l < n →
      ρ.row j m = some row → row.version = p.version → ρ.Performs k c .commit x (.ok ()) →
      ρ.row (k + 1) m = some (updatedMessage row p.content p.title) →
      ρ.Performs l c (.cacheEvict m.str) x' (.error exc) → UpdateTrace ρ c m p i n (.error exc)
  | missed {j k l x x' exc} : i ≤ j → j < k → k < l → l < n →
      (∀ row, ρ.row j m = some row → row.version ≠ p.version) →
      ρ.Performs j c (updateOf m p) x (.ok none) →
      ρ.Performs k c (.cacheEvict m.str) x' (.ok ()) →
      exc = (match ρ.row l m with
        | none => messageNotFound m
        | some _ => staleVersion m p.version) →
      Calm ρ c i n → UpdateTrace ρ c m p i n (.error exc)
  | updated {j k l e x x' x'' row au} : i ≤ j → j < k → k < l → l < e → e < n →
      ρ.row j m = some row → row.version = p.version → row.version + 1 ≤ maxInt4 →
      ρ.Performs j c (updateOf m p) x (.ok (some m)) →
      ρ.author k row.authorId = some au →
      ρ.Performs l c .commit x' (.ok ()) →
      ρ.row (l + 1) m = some (updatedMessage row p.content p.title) →
      ρ.Performs e c (.cacheEvict m.str) x'' (.ok ()) →
      UpdateTrace ρ c m p i n
        (.ok (.message ⟨.ofRow (updatedMessage row p.content p.title), .ofRow au⟩))

inductive DeleteTrace (ρ : Run s) (c : ℕ) (m : Uuid) (i n : ℕ) : Outcome → Prop
  | failed {exc} : Failed ρ c i n exc → DeleteTrace ρ c m i n (.error exc)
  | unevicted {j k l x x' row exc} : i ≤ j → j < k → k < l → l < n →
      ρ.row j m = some row → ρ.Performs k c .commit x (.ok ()) → Dead (ρ.store (k + 1)) m →
      ρ.Performs l c (.cacheEvict m.str) x' (.error exc) → DeleteTrace ρ c m i n (.error exc)
  | absent {j k x} : i ≤ j → j < k → k < n → ρ.row j m = none →
      ρ.Performs k c (.cacheEvict m.str) x (.ok ()) → Calm ρ c i n →
      DeleteTrace ρ c m i n (.error (messageNotFound m))
  | deleted {j k l x x' x'' row} : i ≤ j → j < k → k < l → l < n → ρ.row j m = some row →
      ρ.Performs j c (.deleteMessage m) x (.ok (some m)) →
      lastMessage ((ρ.store k).pending c) m = some none →
      ρ.Performs k c .commit x' (.ok ()) → Dead (ρ.store (k + 1)) m →
      ρ.Performs l c (.cacheEvict m.str) x'' (.ok ()) → ρ.Idle c (l + 1) n →
      DeleteTrace ρ c m i n (.ok .none)

section Endings

variable {c i n : ℕ} {m : Uuid} {o : Outcome}

/-- The load of a message finds its row with its author, or no row. -/
theorem load_answer {j x r} (hp : ρ.Performs j c (.selectMessage m) x (.ok r)) :
    (r = none ∧ ((ρ.store j).view c).messages.lookup m = none) ∨
    ∃ row au, r = some (row, some au) ∧ ((ρ.store j).view c).messages.lookup m = some row ∧
      ((ρ.store j).view c).authors.lookup row.authorId = some au := by
  have hw := run_consistent ρ hp.within.le
  obtain ⟨rfl, _⟩ := performs_answer hp fun _ => rfl
  cases hm : ((ρ.store j).view c).messages.lookup m with
  | none => exact Or.inl ⟨rfl, rfl⟩
  | some row =>
    obtain ⟨au, ha⟩ := hw.foreign_keys c row (by rw [lookup_key hm]; exact hm)
    refine Or.inr ⟨row, au, ?_, rfl, ha⟩
    simp [Db.withAuthor, ha]

theorem getMessage_ended (hs : Session ρ c i i []) (hn : n ≤ ρ.length)
    (h : ρ.Reaches c (body (.getMessage m)) i (.done o) n) : GetTrace ρ c m i n o := by
  obtain ⟨j, x, r, hij, hjn, hs, hp, h⟩ := taken h hn hs
  rcases r with exc | (_ | v)
  · obtain ⟨ho, _⟩ := reaches_done h
    cases ho
    exact .failed (hs.failed hij hjn hp h)
  · have hs' := hs.silent hp trivial
    obtain ⟨k, x', r, hjk, hkn, hs', hp', h⟩ := taken h hn hs'
    rcases r with exc | r
    · obtain ⟨ho, _⟩ := reaches_done h
      cases ho
      exact .failed (hs'.failed (by omega) hkn hp' h)
    · rcases load_answer hp' with ⟨rfl, hm⟩ | ⟨row, au, rfl, hm, ha⟩
      · obtain ⟨ho, _⟩ := reaches_done h
        cases ho
        rw [view_committed hs'] at hm
        exact .absent hij hjk hkn hp hp' hm
      · have hs'' := hs'.silent hp' trivial
        obtain ⟨l, x'', r, hkl, hln, hs'', hp'', h⟩ := taken h hn hs''
        rcases r with exc | _
        · obtain ⟨ho, _⟩ := reaches_done h
          cases ho
          exact .failed (hs''.failed (by omega) hln hp'' h)
        · obtain ⟨ho, _⟩ := reaches_done h
          cases ho
          rw [view_committed hs'] at hm ha
          exact .loaded hij hjk hkl hln hp hp' (representation_some.mpr ⟨row, au, hm, ha, rfl⟩) hp''
  · have h : ρ.Reaches c (Program.bind (validated (modelValidateJson v))
        (ExceptT.bindCont fun out => pure (.message out))) (j + 1) (.done o) n := h
    cases hv : modelValidateJson v with
    | none =>
      rw [hv] at h
      obtain ⟨ho, _⟩ := reaches_done h
      cases ho
      exact .corrupt hij hjn hp hv
    | some out =>
      rw [hv] at h
      obtain ⟨ho, _⟩ := reaches_done h
      cases ho
      exact .hit hij hjn hp hv

theorem deleteMessage_ended (hs : Session ρ c i i []) (hn : n ≤ ρ.length)
    (h : ρ.Reaches c (body (.deleteMessage m)) i (.done o) n) : DeleteTrace ρ c m i n o := by
  obtain ⟨j, x, r, hij, hjn, hs, hp, h⟩ := taken h hn hs
  rcases r with exc | r
  · obtain ⟨ho, _⟩ := reaches_done h
    cases ho
    exact .failed (hs.failed hij hjn hp h)
  obtain ⟨f, hx⟩ := performs_ok hp
  have hdb := performs_db hp (by simp)
  rcases deleteMessage_ok hx with ⟨rfl, hw, hm⟩ | ⟨row, rfl, hm, hw⟩
  · have hs' : Session ρ c i (j + 1) [] := hs.step hp hdb (by rw [hw]; exact hs.pending)
    obtain ⟨k, x', r, hjk, hkn, hs', hp', h⟩ := taken h hn hs'
    rcases r with exc | _
    · obtain ⟨ho, _⟩ := reaches_done h
      cases ho
      exact .failed (hs'.failed (by omega) hkn hp' h)
    have hs'' := hs'.committedNothing hp'
    obtain ⟨l, x'', r, hkl, hln, hs'', hp'', h⟩ := taken h hn hs''
    rcases r with exc | _
    · obtain ⟨ho, _⟩ := reaches_done h
      cases ho
      exact .failed (hs''.failed (by omega) hln hp'' h)
    · obtain ⟨ho, _, hidle⟩ := reaches_done h
      cases ho
      rw [view_committed hs] at hm
      exact .absent hij (by omega) hln hm hp'' ((hs''.silent hp'' trivial).calm.idle hidle)
  · have hs' : Session ρ c i (j + 1) [.dropMessage m] :=
      hs.step hp hdb (hw.trans (by rw [hs.pending]; rfl))
    obtain ⟨k, x', r, hjk, hkn, hs', hp', h⟩ := taken h hn hs'
    rcases r with exc | _
    · obtain ⟨ho, _⟩ := reaches_done h
      cases ho
      exact .failed (hs'.failed (by omega) hkn hp' h)
    rw [view_committed hs] at hm
    have hlast : lastMessage ((ρ.store k).pending c) m = some none := by
      rw [hs'.pending, lastMessage_singleton, message?_drop]
    have hdead : Dead (ρ.store (k + 1)) m := by
      rw [committed hp']
      exact dead_of_deleted (run_consistent ρ (by omega)) hlast
    obtain ⟨l, x'', r, hkl, _, hp'', h⟩ := reaches_await_done h
    rcases r with exc | _
    · obtain ⟨ho, hlen, _⟩ := reaches_done h
      cases ho
      exact .unevicted hij hjk hkl hlen hm hp' hdead hp''
    · obtain ⟨ho, hlen, hidle⟩ := reaches_done h
      cases ho
      exact .deleted hij hjk hkl hlen hm hp hlast hp' hdead hp'' hidle

theorem updateMessage_ended {p : MessageUpdate} (hs : Session ρ c i i []) (hn : n ≤ ρ.length)
    (h : ρ.Reaches c (body (.updateMessage m p)) i (.done o) n) : UpdateTrace ρ c m p i n o := by
  obtain ⟨j, x, r, hij, hjn, hs, hp, h⟩ := taken h hn hs
  rcases r with exc | r
  · obtain ⟨ho, _⟩ := reaches_done h
    cases ho
    exact .failed (hs.failed hij hjn hp h)
  obtain ⟨f, hx⟩ := performs_ok hp
  have hdb := performs_db hp (by simp)
  rcases updateMessage_ok hx with ⟨rfl, hw, hm⟩ | ⟨row, rfl, hm, hv, hmax, hw⟩
  · -- the UPDATE matched no row: roll back, evict, and look at what is there now
    rw [view_committed hs] at hm
    have hs' : Session ρ c i (j + 1) [] := hs.step hp hdb (by rw [hw]; exact hs.pending)
    obtain ⟨a, x₁, r, hja, han, hs', hp₁, h⟩ := taken h hn hs'
    rcases r with exc | _
    · obtain ⟨ho, _⟩ := reaches_done h
      cases ho
      exact .failed (hs'.failed (by omega) han hp₁ h)
    obtain ⟨k, x₂, r, hak, hkn, hs', hp₂, h⟩ := taken h hn (hs'.rolledBack hp₁)
    rcases r with exc | _
    · obtain ⟨ho, _⟩ := reaches_done h
      cases ho
      exact .failed (hs'.failed (by omega) hkn hp₂ h)
    obtain ⟨l, x₃, r, hkl, hln, hs', hp₃, h⟩ := taken h hn (hs'.silent hp₂ trivial)
    rcases r with exc | r
    · obtain ⟨ho, _⟩ := reaches_done h
      cases ho
      exact .failed (hs'.failed (by omega) hln hp₃ h)
    have hr := (performs_answer hp₃ fun _ => rfl).1
    rw [view_committed hs'] at hr
    have hcalm := (hs'.silent hp₃ trivial).calm
    rcases r with _ | r
    · obtain ⟨ho, _, hidle⟩ := reaches_done h
      cases ho
      refine .missed hij (by omega) hkl hln hm hp hp₂ ?_ (hcalm.idle hidle)
      rw [Run.row, Option.map_eq_none_iff.mp hr.symm]
    · obtain ⟨ho, _, hidle⟩ := reaches_done h
      cases ho
      obtain ⟨row, hrow, _⟩ := Option.map_eq_some_iff.mp hr.symm
      refine .missed hij (by omega) hkl hln hm hp hp₂ ?_ (hcalm.idle hidle)
      rw [Run.row, hrow]
  · -- the row is updated and locked: read it back and commit
    rw [view_committed hs] at hm
    have hs' : Session ρ c i (j + 1) [.putMessage (updatedMessage row p.content p.title)] :=
      hs.step hp hdb (hw.trans (by rw [hs.pending]; rfl))
    have hid : (updatedMessage row p.content p.title).id = m := (lookup_key hm : row.id = m)
    obtain ⟨k, x₁, r, hjk, hkn, hs', hp₁, h⟩ := taken h hn hs'
    rcases r with exc | r
    · obtain ⟨ho, _⟩ := reaches_done h
      cases ho
      exact .failed (hs'.failed (by omega) hkn hp₁ h)
    have hown : ((ρ.store k).view c).messages.lookup m =
        some (updatedMessage row p.content p.title) := by
      rw [view_message, hs'.pending, lastMessage_singleton, message?_put hid]
      rfl
    rcases load_answer hp₁ with ⟨_, hnone⟩ | ⟨row', au, rfl, hrow', ha⟩
    · rw [hown] at hnone; cases hnone
    obtain rfl : updatedMessage row p.content p.title = row' :=
      Option.some.inj (hown.symm.trans hrow')
    rw [view_author, hs'.pending, lastAuthor_singleton] at ha
    obtain ⟨l, x₂, r, hkl, hln, hs', hp₂, h⟩ := taken h hn (hs'.silent hp₁ trivial)
    rcases r with exc | _
    · obtain ⟨ho, _⟩ := reaches_done h
      cases ho
      exact .failed (hs'.failed (by omega) hln hp₂ h)
    have hnew : ρ.row (l + 1) m = some (updatedMessage row p.content p.title) := by
      rw [Run.row, committed hp₂, commit_row, hs'.pending, lastMessage_singleton,
        message?_put hid]
      rfl
    obtain ⟨e, x₃, r, hle, _, hp₃, h⟩ := reaches_await_done h
    rcases r with exc | _
    · obtain ⟨ho, hlen, _⟩ := reaches_done h
      cases ho
      exact .unevicted hij (by omega) hle hlen hm hv hp₂ hnew hp₃
    · obtain ⟨ho, hlen, _⟩ := reaches_done h
      cases ho
      exact .updated hij hjk hkl hle hlen hm hv hmax hp ha hp₂ hnew hp₃

/-- An `update_message` call has one statement that can fail. -/
theorem update_fallible (m : Uuid) (p : MessageUpdate) :
    (body (.updateMessage m p)).Only fun e => Fallible e → e = updateOf m p :=
  awaits_bind (awaits_updateMessage (fun _ => rfl) (fun h => h.elim) (fun h => h.elim)
    (fun h => h.elim) (fun h => h.elim) (fun h => h.elim)) fun _ => awaits_pure _

/-- Without faults an update that fails was refused by its UPDATE. -/
theorem update_refused {p : MessageUpdate} {exc : Exc} (hf : ρ.Faultless c)
    (hi : i < ρ.length) (he : ρ.event i = .call c (.updateMessage m p))
    (h : Failed ρ c (i + 1) n exc) :
    ∃ j x, i < j ∧ j < n ∧ ρ.Performs j c (updateOf m p) x (.error exc) ∧
      (¬((∀ t ∈ p.title, Storable titleWidth t) ∧ Storable contentWidth p.content) ∨
      ∃ row, ρ.row j m = some row ∧ row.version = p.version ∧ maxInt4 < row.version + 1) := by
  obtain ⟨j, x, hij, hjn, hp⟩ := failed_at hf hi he (update_fallible m p) h
  obtain ⟨_, f, hx⟩ := faultless_error hf hp
  obtain ⟨_, _, hwhy⟩ := updateMessage_error hx
  rw [performs_committed hi he (by simp) hp rfl] at hwhy
  exact ⟨j, x, hij, hjn, hp, hwhy⟩

theorem createMessage_ended {p : MessageCreate} (hs : Session ρ c i i []) (hn : n ≤ ρ.length)
    (h : ρ.Reaches c (body (.createMessage p)) i (.done o) n) : CreateTrace ρ c p i n o := by
  obtain ⟨j, x, r, hij, hjn, hs, hp, h⟩ := taken h hn hs
  rcases r with exc | r
  · obtain ⟨ho, _⟩ := reaches_done h
    cases ho
    exact .failed (hs.failed hij hjn hp h) fun _ _ => ⟨_, _, _, hp, id⟩
  have hau := (performs_answer hp fun _ => rfl).1
  rw [view_committed hs] at hau
  have hs' := hs.silent hp trivial
  rcases r with _ | au
  · obtain ⟨ho, _, hidle⟩ := reaches_done h
    cases ho
    exact .noAuthor hij hjn hp hau.symm (hs'.calm.idle hidle)
  have hid : au.id = p.authorId := lookup_key hau.symm
  obtain ⟨k, x₁, r, hjk, hkn, hs', hp₁, h⟩ := taken h hn hs'
  have hdb := performs_db hp₁ (by simp)
  rw [hid] at hp₁
  rcases r with exc | row
  · cases exc with
    | integrityError sqlstate =>
      -- the author was deleted between the check and the insert
      obtain ⟨l, x₂, r, hkl, hln, hs', hp₂, h⟩ := taken h hn (hs'.step hp₁ hdb rfl)
      rcases r with exc | _
      · obtain ⟨ho, _⟩ := reaches_done h
        cases ho
        exact .failed (hs'.failed (by omega) hln hp₂ h) fun _ _ => ⟨_, _, _, hp₂, id⟩
      have hs' := hs'.rolledBack hp₂
      by_cases hfk : sqlstate = some fkViolation
      · rw [if_pos hfk] at h
        obtain ⟨ho, _, hidle⟩ := reaches_done h
        cases ho
        exact .rejected hij hjk hkn hp hp₁ (by rw [if_pos hfk]) (hs'.calm.idle hidle)
      · rw [if_neg hfk] at h
        obtain ⟨ho, _, hidle⟩ := reaches_done h
        cases ho
        exact .rejected hij hjk hkn hp hp₁ (by rw [if_neg hfk]) (hs'.calm.idle hidle)
    | notFoundError | conflictError | dataError | noResultFound | assertionError
    | validationError | other =>
      obtain ⟨ho, _⟩ := reaches_done h
      cases ho
      exact .failed (hs'.failed (by omega) hkn hp₁ h) (by rintro _ ⟨⟩)
  · obtain ⟨f, hx⟩ := performs_ok hp₁
    obtain ⟨hrow, _, _, hw⟩ := insertMessage_ok hx
    have hs' : Session ρ c i (k + 1) [.putMessage row] :=
      hs'.step hp₁ hdb (hw.trans (by rw [hs'.pending]; rfl))
    obtain ⟨l, x₂, r, hkl, hln, hs', hp₂, h⟩ := taken h hn hs'
    rcases r with exc | _
    · obtain ⟨ho, _⟩ := reaches_done h
      cases ho
      exact .failed (hs'.failed (by omega) hln hp₂ h) fun _ _ => ⟨_, _, _, hp₂, id⟩
    · obtain ⟨ho, _⟩ := reaches_done h
      cases ho
      refine .created hij hjk hkl hln hp hau.symm (by rw [hrow]) hp₁ hp₂ ?_
      · rw [Run.row, committed hp₂, commit_row, hs'.pending, lastMessage_singleton,
          message?_put rfl]
        rfl

/-- A listed page is cut out of the rows of one instant, and counted at a later one. -/
theorem listMessages_page {limit offset : ℕ} {res : Result} (hs : Session ρ c i i [])
    (hn : n ≤ ρ.length)
    (h : ρ.Reaches c (body (.listMessages limit offset)) i (.done (.ok res)) n) :
    ∃ page j k x r, i ≤ j ∧ j < k ∧ k < n ∧ ρ.Performs j c (.selectMessages limit offset) x r ∧
      res = .messages page ∧ page.totalCount = (ρ.store k).db.messages.rows.length ∧
      ((((ρ.store j).db.sortedMessages.drop offset).take limit).map
        (ρ.store j).db.withAuthor).mapM (fun r => MessageOut.ofRow r.1 r.2) = some page.items := by
  obtain ⟨j, x, r, hij, hjn, hs, hp, h⟩ := taken h hn hs
  rcases r with exc | rows
  · cases (reaches_done h).1
  have hread := hp
  obtain ⟨rfl, _⟩ := performs_answer hp fun _ => rfl
  rw [view_committed hs] at hp h
  obtain ⟨k, x', r, hjk, hkn, hs', hp', h⟩ := taken h hn (hs.silent hp trivial)
  rcases r with exc | total
  · cases (reaches_done h).1
  have htotal := (performs_answer hp' fun _ => rfl).1
  rw [view_committed hs'] at htotal
  generalize hrows : (((ρ.store j).db.sortedMessages.drop offset).take limit).map
    (ρ.store j).db.withAuthor = rows at h
  have h : ρ.Reaches c (Program.bind (Program.bind
      (validated (rows.mapM fun r => MessageOut.ofRow r.1 r.2))
      (ExceptT.bindCont fun items => pure (⟨items, total⟩ : Page MessageOut)))
      (ExceptT.bindCont fun page => pure (.messages page))) (k + 1) (.done (.ok res)) n := h
  cases hitems : rows.mapM fun r => MessageOut.ofRow r.1 r.2 with
  | none => rw [hitems] at h; cases (reaches_done h).1
  | some items =>
    rw [hitems] at h
    obtain ⟨ho, _⟩ := reaches_done h
    cases ho
    exact ⟨_, j, k, _, _, hij, hjk, hkn, hread, rfl, htotal, by rw [hrows]; exact hitems⟩

/-- Every message of a listed page stood in the tables when the page was selected. -/
theorem listMessages_ended {limit offset : ℕ} {res : Result} (hs : Session ρ c i i [])
    (hn : n ≤ ρ.length)
    (h : ρ.Reaches c (body (.listMessages limit offset)) i (.done (.ok res)) n) :
    ∃ page k x r, i ≤ k ∧ k < n ∧ ρ.Performs k c (.selectMessages limit offset) x r ∧
      res = .messages page ∧
      ∀ item ∈ page.items, representation (ρ.store k).db item.id = some item := by
  obtain ⟨page, j, k, x, r, hij, hjk, hkn, hread, rfl, _, hitems⟩ := listMessages_page hs hn h
  refine ⟨page, j, x, r, hij, hjk.trans hkn, hread, rfl, ?_⟩
  intro item hitem
  obtain ⟨r, hr, hof⟩ := mem_of_mapM hitems item hitem
  obtain ⟨row, hrow, rfl⟩ := List.mem_map.mp hr
  have hmem := List.mem_of_mem_drop (List.mem_of_mem_take hrow)
  rw [Db.sortedMessages, List.mem_insertionSort, mem_rows_iff] at hmem
  have hid : item.id = row.id := by
    cases ha : (ρ.store j).db.authors.lookup row.authorId with
    | none => rw [Db.withAuthor, ha] at hof; cases hof
    | some a => rw [Db.withAuthor, ha] at hof; rw [← Option.some.inj hof]; rfl
  rw [hid, representation, hmem]
  exact hof

end Endings

end MessageTraces
