import MessageService.AbstractStore
import MessageService.AuthorTraces
import MessageService.PendingWrites

/-! The service is its abstract store.
However its calls interleave and whatever fails under them, the tables change as if the requests
that write were executed one after another, each in one step, at its commit. -/
namespace SerialStore

open Programs Interleaving Texts Models Schemas KeyedTables MessageJson Postgres Services
open ServiceRuns Statements Consistency Histories Footprints Traces MessageTraces Commits
open PendingWrites AbstractStore SerialExecutions

variable [JsonCodec] {s : SoundDb} {ρ : Run s}

/-- The committed tables at instant `k`. -/
def tables (ρ : Run s) (k : ℕ) : Store := .ofDb (ρ.store k).db

section Commits

variable {c i k : ℕ}

theorem tables_sound {n : ℕ} (hn : n ≤ ρ.length) : Sound (tables ρ n) :=
  ofDb_sound (run_consistent ρ hn).committed_emails (run_consistent ρ hn).committed_foreign_keys

/-- A commit of one write applies it. -/
theorem tables_commit {x : Write} (hw : ρ.store (k + 1) = (ρ.store k).commit c)
    (hpending : (ρ.store k).pending c = [x]) :
    tables ρ (k + 1) = (tables ρ k).write x := by
  rw [tables, hw, commit_db, World.view, hpending]
  exact ofDb_apply _ x

/-- A session whose one write is uncommitted saw the committed rows when it wrote. -/
theorem since_view {j : ℕ} {x : Write} (h : Since ρ c j k [] x) :
    (ρ.store j).view c = (ρ.store j).db :=
  view_of_pending_nil h.pending

theorem createMessage_does {p : MessageCreate} {x r} (he : ρ.event i = .call c (.createMessage p))
    (hi : i < ρ.length) (hp : ρ.Performs k c .commit x r)
    (hw : ρ.store (k + 1) = (ρ.store k).commit c) :
    ∃ x, (ρ.store k).pending c = [x] ∧
      Does (.createMessage p) (.ofWrite x) (tables ρ k) (tables ρ (k + 1)) := by
  obtain ⟨ws, _, hs, hc⟩ := commit_called he hi hp
  cases hc with
  | @createMessage _ row hv ht hcontent hauthor =>
    have hT : tables ρ (k + 1) = (tables ρ k).putMessage row := tables_commit hw hs.pending
    obtain ⟨j, hsince⟩ := sole_since hp.within.le hs.pending
    obtain ⟨e, y, r', hp', hwrote⟩ := hsince.wrote
    have hnew : ρ.row k row.id = none := by
      generalize hx : Write.putMessage row = x at hwrote
      cases hwrote with
      | insertMessage hfresh _ =>
        cases hx
        exact hsince.uncommitted.message_new hsince.before.le hp.within.le hfresh
      | updateMessage =>
        cases hx
        cases hv
      | _ => cases hx
    have hauthors := referenced_of_sound (hT ▸ tables_sound hp.within)
    rw [hauthor] at hauthors
    rw [hT]
    exact ⟨_, hs.pending, .createMessage hnew hauthors ht hcontent hauthor hv⟩

theorem updateMessage_does {m : Uuid} {p : MessageUpdate} {x r}
    (he : ρ.event i = .call c (.updateMessage m p)) (hi : i < ρ.length)
    (hp : ρ.Performs k c .commit x r) (hw : ρ.store (k + 1) = (ρ.store k).commit c) :
    ∃ x, (ρ.store k).pending c = [x] ∧
      Does (.updateMessage m p) (.ofWrite x) (tables ρ k) (tables ρ (k + 1)) := by
  obtain ⟨ws, _, hs, hc⟩ := commit_called he hi hp
  cases hc with
  | @updateMessage _ _ j y row hij hjk hrow hv hmax hp' =>
    have hT : tables ρ (k + 1) = (tables ρ k).putMessage (updatedMessage row p.content p.title) :=
      tables_commit hw hs.pending
    have hsame := pending_update hjk.le hp.within.le hrow
      (by rw [hs.pending]; exact List.mem_singleton_self _)
    rw [hT]
    exact ⟨_, hs.pending, .updateMessage hsame hv (Nat.lt_of_succ_le hmax)⟩

theorem deleteMessage_does {m : Uuid} {x r} (he : ρ.event i = .call c (.deleteMessage m))
    (hi : i < ρ.length) (hp : ρ.Performs k c .commit x r)
    (hw : ρ.store (k + 1) = (ρ.store k).commit c) (hwrites : (ρ.store k).pending c ≠ []) :
    ∃ x, (ρ.store k).pending c = [x] ∧
      Does (.deleteMessage m) (.ofWrite x) (tables ρ k) (tables ρ (k + 1)) := by
  obtain ⟨ws, _, hs, hc⟩ := commit_called he hi hp
  cases hc with
  | deleteNoMessage => exact absurd hs.pending hwrites
  | deleteMessage hij hjk hrow =>
    have hT : tables ρ (k + 1) = (tables ρ k).dropMessage m := tables_commit hw hs.pending
    rw [hT]
    cases hold : ρ.row k m with
    | some old => exact ⟨_, hs.pending, .deleteMessage hold⟩
    | none =>
      have hdead := (row_dead hrow hjk.le hp.within.le hold).unwritten c (.dropMessage m)
        (by rw [hs.pending]; exact List.mem_singleton_self _)
      rw [message?_drop] at hdead
      cases hdead

theorem createAuthor_does {p : AuthorCreate} {x r} (he : ρ.event i = .call c (.createAuthor p))
    (hi : i < ρ.length) (hp : ρ.Performs k c .commit x r)
    (hw : ρ.store (k + 1) = (ρ.store k).commit c) :
    ∃ x, (ρ.store k).pending c = [x] ∧
      Does (.createAuthor p) (.ofWrite x) (tables ρ k) (tables ρ (k + 1)) := by
  obtain ⟨ws, _, hs, hc⟩ := commit_called he hi hp
  cases hc with
  | @createAuthor _ a _ _ _ _ hname hemail =>
    have hT : tables ρ (k + 1) = (tables ρ k).putAuthor a := tables_commit hw hs.pending
    obtain ⟨j, hsince⟩ := sole_since hp.within.le hs.pending
    obtain ⟨e, y, r', hp', hwrote⟩ := hsince.wrote
    have honly : ∀ id name email, e ≠ .updateAuthor id name email :=
      performs_only (P := fun e => ∀ id name email, e ≠ .updateAuthor id name email) hi he
        (awaits_bind (awaits_createAuthor (by simp) (by simp) (by simp)) fun _ => awaits_pure _) hp'
    have hnew : ρ.author k a.id = none := by
      have fresh := hsince.uncommitted.author_new hsince.before.le hp.within.le
      cases hwrote with
      | insertAuthor hfresh _ _ => exact fresh hfresh
      | upsertAuthor hfresh _ _ => exact fresh hfresh
      | updateAuthor => exact absurd rfl (honly _ _ _)
    rw [hT]
    exact ⟨_, hs.pending, .createAuthor hnew
      (unclaimed_of_sound (tables_sound hp.within) (congrArg Store.authors hT))
      hname hemail⟩

theorem updateAuthor_does {id : Uuid} {p : AuthorUpdate} {x r}
    (he : ρ.event i = .call c (.updateAuthor id p)) (hi : i < ρ.length)
    (hp : ρ.Performs k c .commit x r) (hw : ρ.store (k + 1) = (ρ.store k).commit c) :
    ∃ x, (ρ.store k).pending c = [x] ∧
      Does (.updateAuthor id p) (.ofWrite x) (tables ρ k) (tables ρ (k + 1)) := by
  obtain ⟨_, hs, K, hr⟩ := performs_reached hi he hp
  obtain ⟨j, row, hupdating⟩ := updateAuthor_writes hs hp.within.le hr
  have hid : row.id = id := lookup_key hupdating.read
  have hT : tables ρ (k + 1) = (tables ρ k).putAuthor (updatedAuthor row p.name p.email) :=
    tables_commit hw hupdating.session.pending
  have hrow : ρ.author k id = some row := by
    have hkept := author_kept hupdating.quiet hupdating.before hp.within.le
      (by rw [hupdating.pending]; exact List.mem_singleton_self _)
    have hread : ρ.author (j + 1) id = ρ.author j id := by
      obtain ⟨y, hp'⟩ := hupdating.updates
      rw [Run.author, performs_db hp' (by simp), Run.author]
    rw [updatedAuthor, hid] at hkept
    rw [hkept, hread, hupdating.read]
  have hfree := unclaimed_of_sound (tables_sound hp.within) (congrArg Store.authors hT)
  rw [updatedAuthor, hid] at hfree
  rw [hT]
  exact ⟨_, hupdating.session.pending, .updateAuthor hrow hfree⟩

theorem deleteAuthor_does {id : Uuid} {x r} (he : ρ.event i = .call c (.deleteAuthor id))
    (hi : i < ρ.length) (hp : ρ.Performs k c .commit x r)
    (hw : ρ.store (k + 1) = (ρ.store k).commit c) (hwrites : (ρ.store k).pending c ≠ []) :
    ∃ x, (ρ.store k).pending c = [x] ∧
      Does (.deleteAuthor id) (.ofWrite x) (tables ρ k) (tables ρ (k + 1)) := by
  obtain ⟨ws, _, hs, hc⟩ := commit_called he hi hp
  cases hc with
  | deleteNoAuthor => exact absurd hs.pending hwrites
  | deleteAuthor =>
    have hT : tables ρ (k + 1) = (tables ρ k).dropAuthor id := tables_commit hw hs.pending
    obtain ⟨j, hsince⟩ := sole_since hp.within.le hs.pending
    obtain ⟨e, y, r', hp', hwrote⟩ := hsince.wrote
    obtain ⟨row, hrow⟩ : ∃ row, ρ.author k id = some row := by
      rw [hsince.uncommitted.author_kept hsince.before.le hp.within.le (author?_drop id)]
      cases hwrote with
      | deleteAuthor hrow =>
        rw [since_view hsince] at hrow
        exact ⟨_, hrow⟩
    have hfree := unreferenced_of_sound (hT ▸ tables_sound hp.within)
    rw [hT]
    exact ⟨_, hs.pending, .deleteAuthor hrow hfree⟩

/-- A seed inserts the welcome text only, for the one author it has just read by e-mail. -/
theorem seed_inserts {j : ℕ} {title content : Text} {author : Uuid}
    {K : Reply (.insertMessage title content author) → host.Body}
    (h : ρ.Reaches c (body .seedInitialMessage) i (.await (.insertMessage title content author) K)
      j) : (title = text welcomeTitle ∧ content = text welcomeContent) ∧
      ∃ v z, v < j ∧ ρ.Performs v c (.selectAuthorIds systemEmail) z (.ok [author]) := by
  have raised : ∀ {p : host.Body} {n}, RollsBack p →
      ρ.Reaches c p n (.await (.insertMessage title content author) K) j → False := by
    rintro p n ⟨K', rfl, hd⟩ h
    rcases reaches_await h with ⟨ha, _⟩ | ⟨_, _, r, _, _, _, h⟩
    · cases await_effect ha
    · obtain ⟨exc, hexc⟩ := hd r
      rw [hexc] at h
      exact not_reaches_await h
  rcases reaches_await h with ⟨ha, _⟩ | ⟨_, _, r, _, _, _, h⟩
  · cases await_effect ha
  rcases r with exc | _
  · exact (raised ⟨_, rfl, by rintro (_ | _) <;> exact ⟨_, rfl⟩⟩ h).elim
  rcases reaches_await h with ⟨ha, _⟩ | ⟨_, _, r, _, _, _, h⟩
  · cases await_effect ha
  rcases r with exc | count
  · exact (raised ⟨_, rfl, by rintro (_ | _) <;> exact ⟨_, rfl⟩⟩ h).elim
  cases count with
  | succ count =>
    rcases reaches_await h with ⟨ha, _⟩ | ⟨_, _, r, _, _, _, h⟩
    · cases await_effect ha
    rcases r with exc | _
    · exact (raised ⟨_, rfl, by rintro (_ | _) <;> exact ⟨_, rfl⟩⟩ h).elim
    · exact (not_reaches_await h).elim
  | zero =>
    rcases reaches_await h with ⟨ha, _⟩ | ⟨_, _, r, _, _, _, h⟩
    · cases await_effect ha
    rcases r with exc | _
    · exact (raised ⟨_, rfl, by rintro (_ | _) <;> exact ⟨_, rfl⟩⟩ h).elim
    rcases reaches_await h with ⟨ha, _⟩ | ⟨v, z, r, _, _, hids, h⟩
    · cases await_effect ha
    rcases r with exc | (_ | ⟨id, _ | ⟨other, rest⟩⟩)
    · exact (raised ⟨_, rfl, by rintro (_ | _) <;> exact ⟨_, rfl⟩⟩ h).elim
    · exact (raised ⟨_, rfl, by rintro (_ | _) <;> exact ⟨_, rfl⟩⟩ h).elim
    · have hvj := h.le
      rcases reaches_await h with ⟨ha, _⟩ | ⟨_, _, r, _, _, _, h⟩
      · have heffect := await_effect ha
        injection heffect with ht hc hid
        subst ht hc hid
        exact ⟨⟨rfl, rfl⟩, v, z, hvj, hids⟩
      rcases r with exc | row
      · exact (raised ⟨_, rfl, by rintro (_ | _) <;> exact ⟨_, rfl⟩⟩ h).elim
      rcases reaches_await h with ⟨ha, _⟩ | ⟨_, _, r, _, _, _, h⟩
      · cases await_effect ha
      rcases r with exc | _
      · exact (raised ⟨_, rfl, by rintro (_ | _) <;> exact ⟨_, rfl⟩⟩ h).elim
      · exact (not_reaches_await h).elim
    · exact (raised ⟨_, rfl, by rintro (_ | _) <;> exact ⟨_, rfl⟩⟩ h).elim

/-- Where the row of a seed comes from: the author it has read, and nobody's committed row. -/
structure SeedRow (ρ : Run s) (c j k : ℕ) (row : Message) : Prop where
  welcome : Welcome row
  absent : ρ.row k row.id = none
  author : ∃ v z, v < j ∧ ρ.Performs v c (.selectAuthorIds systemEmail) z (.ok [row.authorId])

theorem seed_row {j : ℕ} {ws : List Write} {row : Message}
    (he : ρ.event i = .call c .seedInitialMessage) (hi : i < ρ.length) (hk : k ≤ ρ.length)
    (hv : row.version = 0) (hsince : Since ρ c j k ws (.putMessage row)) :
    SeedRow ρ c j k row := by
  obtain ⟨e, y, r, hp, hwrote⟩ := hsince.wrote
  obtain ⟨_, _, K, hr⟩ := performs_reached hi he hp
  generalize hx : Write.putMessage row = x at hwrote
  cases hwrote with
  | insertMessage hfresh htitle hcontent _ =>
    cases hx
    obtain ⟨⟨rfl, rfl⟩, hauthor⟩ := seed_inserts hr
    rw [string_text] at htitle hcontent
    exact ⟨⟨htitle, hcontent, hv⟩, hsince.uncommitted.message_new hsince.before.le hk hfresh,
      hauthor⟩
  | updateMessage =>
    cases hx
    cases hv
  | _ => cases hx

theorem seed_does {x r} (he : ρ.event i = .call c .seedInitialMessage) (hi : i < ρ.length)
    (hp : ρ.Performs k c .commit x r) (hw : ρ.store (k + 1) = (ρ.store k).commit c)
    (hwrites : (ρ.store k).pending c ≠ []) :
    Does .seedInitialMessage .none (tables ρ k) (tables ρ (k + 1)) := by
  obtain ⟨ws, _, hs, hc⟩ := commit_called he hi hp
  have hk := hp.within.le
  cases hc with
  | seedNothing => exact absurd hs.pending hwrites
  | @seedMessage row hv =>
    have hT : tables ρ (k + 1) = (tables ρ k).putMessage row := tables_commit hw hs.pending
    obtain ⟨j, hsince⟩ := sole_since hk hs.pending
    obtain ⟨hwelcome, hnew, _⟩ := seed_row he hi hk hv hsince
    obtain ⟨a, ha⟩ := referenced_of_sound (hT ▸ tables_sound hp.within)
    rw [hT]
    exact .seedMessage hwelcome hnew ha
  | @seedBoth a row _ _ _ _ hv =>
    have hT : tables ρ (k + 1) = ((tables ρ k).putAuthor a).putMessage row := by
      rw [tables, hw, commit_db, World.view, hs.pending]
      exact (ofDb_apply _ (.putMessage row)).trans
        (congrArg (Store.putMessage · row) (ofDb_apply _ (.putAuthor a)))
    have hpending : (ρ.store k).pending c = [.putAuthor a] ++ [.putMessage row] := hs.pending
    obtain ⟨j, hsince⟩ := pending_since hk hpending
    obtain ⟨hwelcome, hnew, v, z, hvj, hids⟩ := seed_row he hi hk hv hsince
    obtain ⟨u, hsinceAuthor⟩ := sole_since (hsince.before.le.trans hk) hsince.pending
    have hkept : Uncommitted ρ c u k (.putAuthor a) := by
      intro t hut htk
      rcases Nat.lt_or_ge j t with hjt | htj
      · rw [hsince.kept t hjt htk]
        simp
      · exact hsinceAuthor.uncommitted t hut htj
    obtain ⟨e, y, r', hp', hwrote⟩ := hsinceAuthor.wrote
    have honly :
        (∀ n m, e = .upsertAuthor n m → n = text "system" ∧ m = text systemEmail) ∧
        (∀ n m, e ≠ .insertAuthor n m) ∧ ∀ id n m, e ≠ .updateAuthor id n m :=
      performs_only (P := fun e =>
        (∀ n m, e = .upsertAuthor n m → n = text "system" ∧ m = text systemEmail) ∧
        (∀ n m, e ≠ .insertAuthor n m) ∧ ∀ id n m, e ≠ .updateAuthor id n m) hi he
        (awaits_bind (awaits_seedInitialMessage (by simp) (by simp) (by simp) (by simp) (by simp)
          (by simp) (by simp)) fun _ => awaits_pure _) hp'
    have huk : u ≤ k := hsinceAuthor.before.le.trans hsince.before.le
    cases hwrote with
    | insertAuthor => exact absurd rfl (honly.2.1 _ _)
    | updateAuthor => exact absurd rfl (honly.2.2 _ _ _)
    | upsertAuthor hfresh hname hemail =>
      obtain ⟨rfl, rfl⟩ := honly.1 _ _ rfl
      rw [string_text] at hname hemail
      have huv : u < v := by
        rcases Nat.lt_trichotomy u v with h | rfl | h
        · exact h
        · cases (hp'.effect_unique hids).2
        · exact absurd (effect_order hids hp' h) (by simp [rank])
      have hread : row.authorId = a.id := by
        have hview : a ∈ ((ρ.store v).view c).authors.rows := by
          rw [mem_rows_iff, view_author, hsinceAuthor.kept v huv hvj.le, List.nil_append,
            lastAuthor_singleton, author?_put rfl]
          rfl
        have hanswer := (performs_answer hids fun _ => rfl).1
        have hmem : a.id ∈ [row.authorId] := by
          rw [hanswer]
          exact List.mem_map_of_mem (List.mem_filter.mpr ⟨hview, by simpa using hemail⟩)
        exact (List.mem_singleton.mp hmem).symm
      have hfree := unclaimed_of_sound (tables_sound hp.within) (S := tables ρ k) (a := a)
        (by rw [hT]; rfl)
      rw [hT]
      exact .seedBoth hwelcome hnew (hkept.author_new huk hk hfresh) hfree hname hemail hread

end Commits

section Acts

variable {c i j k n : ℕ} {q : Request}

/-- The call, with its request, whose commit takes effect at instant `k`. -/
def acts (ρ : Run s) (k : ℕ) : Option (ℕ × Request) :=
  match ρ.taking k with
  | some (c, q, .commit) =>
    if (ρ.store k).pending c ≠ [] ∧ (ρ.store (k + 1)).pending c = [] then some (c, q) else none
  | _ => none

/-- A commit that fails has taken effect or it has not. -/
theorem commit_cases {x r} (hp : ρ.Performs k c .commit x r) :
    ρ.store (k + 1) = (ρ.store k).commit c ∨ ρ.store (k + 1) = ρ.store k := by
  have h := hp.answer
  cases x with
  | proceed f => exact Or.inl (congrArg Prod.snd (Option.some.inj h)).symm
  | raise exc => exact Or.inr (congrArg Prod.snd (Option.some.inj h)).symm
  | raiseAfter f exc => exact Or.inl (congrArg Prod.snd (Option.some.inj h)).symm

theorem acts_some (hk : k < ρ.length) (h : acts ρ k = some (c, q)) :
    ∃ i < k, ρ.event i = .call c q ∧ (∃ x r, ρ.Performs k c .commit x r) ∧
      ρ.store (k + 1) = (ρ.store k).commit c ∧ (ρ.store k).pending c ≠ [] := by
  unfold acts at h
  split at h
  swap
  · cases h
  rename_i d q' htaking
  split at h
  swap
  · cases h
  rename_i hpending
  obtain ⟨rfl, rfl⟩ : d = c ∧ q' = q := by simpa using h
  obtain ⟨x, r, hp, K, b, hcall⟩ := performs_of_taking hk htaking
  obtain ⟨q, b', K', hcall', _, i, hik, he, _, _⟩ := performs_started hp
  obtain ⟨rfl, _⟩ : q' = q ∧ _ := by simpa using hcall.symm.trans hcall'
  refine ⟨i, hik, he, ⟨x, r, hp⟩, ?_, hpending.1⟩
  rcases commit_cases hp with hw | hw
  · exact hw
  · rw [hw] at hpending
    exact absurd hpending.2 hpending.1

theorem acts_of_commit {x r} (he : ρ.event i = .call c q) (hi : i < ρ.length)
    (hp : ρ.Performs k c .commit x r) (hw : ρ.store (k + 1) = (ρ.store k).commit c)
    (hpending : (ρ.store k).pending c ≠ []) : acts ρ k = some (c, q) := by
  obtain ⟨q', b, K, hcall, _, i', hik, he', _, _⟩ := performs_started hp
  obtain rfl := ρ.call_unique hi (hik.trans hp.within) he he'
  obtain rfl : q = q' := by rw [he] at he'; injection he'
  rw [acts, taking_of_performs hp hcall]
  exact if_pos ⟨hpending, by rw [hw, commit_pending, if_pos rfl]⟩

/-- What acts changes the tables as its request says. -/
theorem acts_takes (hk : k < ρ.length) (h : acts ρ k = some (c, q)) :
    Takes q (tables ρ k) (tables ρ (k + 1)) := by
  obtain ⟨i, hik, he, ⟨x, r, hp⟩, hw, hpending⟩ := acts_some hk h
  have hi := hik.trans hk
  cases q with
  | createMessage p => exact ⟨_, (createMessage_does he hi hp hw).choose_spec.2⟩
  | updateMessage m p => exact ⟨_, (updateMessage_does he hi hp hw).choose_spec.2⟩
  | deleteMessage m => exact ⟨_, (deleteMessage_does he hi hp hw hpending).choose_spec.2⟩
  | createAuthor p => exact ⟨_, (createAuthor_does he hi hp hw).choose_spec.2⟩
  | updateAuthor id p => exact ⟨_, (updateAuthor_does he hi hp hw).choose_spec.2⟩
  | deleteAuthor id => exact ⟨_, (deleteAuthor_does he hi hp hw hpending).choose_spec.2⟩
  | seedInitialMessage => exact ⟨_, seed_does he hi hp hw hpending⟩
  | listMessages | getMessage | listAuthors | getAuthor =>
    exact (performs_only hi he (reading_silent trivial) hp).elim

/-- Where nothing acts the tables stay. -/
theorem tables_idle (hk : k < ρ.length) (h : acts ρ k = none) :
    tables ρ (k + 1) = tables ρ k := by
  rcases run_db ρ hk with hdb | ⟨c, x, r, hp, hw⟩
  · rw [tables, hdb, tables]
  · obtain ⟨q, i, ws, hik, he, _⟩ := commit_origin hp
    cases hpending : (ρ.store k).pending c with
    | nil => rw [tables, hw, commit_db, view_of_pending_nil hpending, tables]
    | cons x ws =>
      have hacts := acts_of_commit he (hik.trans hk) hp hw (by rw [hpending]; simp)
      rw [h] at hacts
      cases hacts

theorem acts_once {q' : Request} (hj : j < ρ.length) (hk : k < ρ.length)
    (h : acts ρ j = some (c, q)) (h' : acts ρ k = some (c, q')) : j = k := by
  obtain ⟨_, _, _, ⟨x, r, hp⟩, _⟩ := acts_some hj h
  obtain ⟨_, _, _, ⟨x', r', hp'⟩, _⟩ := acts_some hk h'
  exact effect_once hp hp'

end Acts

section Answers

variable {c i n : ℕ} {q : Request} {res : Result}

/-- Requests whose success is a write. -/
def Writes : Request → Prop
  | .createMessage _ | .updateMessage _ _ | .deleteMessage _ | .createAuthor _
  | .deleteAuthor _ => True
  | .updateAuthor _ p => ¬(p.name = none ∧ p.email = none)
  | _ => False

/-- The result shows the row of the answer; a message is shown with the author it had at some
instant of the call. -/
inductive Shows (ρ : Run s) (i n : ℕ) : Answer → Result → Prop
  | message {row au t} : i < t → t < n → ρ.author t row.authorId = some au →
      Shows ρ i n (.message row) (.message ⟨.ofRow row, .ofRow au⟩)
  | author {a} : Shows ρ i n (.author a) (.author (.ofRow a))
  | none : Shows ρ i n .none .none

/-- Call `c` made at `i` took effect at one instant before `n`, as its result says. -/
def Answered (ρ : Run s) (c i n : ℕ) (q : Request) (res : Result) : Prop :=
  ∃ k a, i < k ∧ k < n ∧ acts ρ k = some (c, q) ∧ Does q a (tables ρ k) (tables ρ (k + 1)) ∧
    Shows ρ i n a res

theorem answered {k : ℕ} {x y : Write} {z} (he : ρ.event i = .call c q) (hi : i < ρ.length)
    (hik : i < k) (hkn : k < n) (hp : ρ.Performs k c .commit z (.ok ()))
    (hx : (ρ.store k).pending c = [x])
    (hdoes : (ρ.store k).pending c = [y] ∧
      Does q (.ofWrite y) (tables ρ k) (tables ρ (k + 1)))
    (hshows : Shows ρ i n (.ofWrite x) res) : Answered ρ c i n q res := by
  obtain ⟨hy, hdoes⟩ := hdoes
  obtain rfl : x = y := by simpa using hx.symm.trans hy
  exact ⟨k, _, hik, hkn, acts_of_commit he hi hp (committed hp) (by rw [hx]; simp), hdoes, hshows⟩

/-- Every request that succeeds by writing took effect at one instant of its call. -/
theorem ended_answered (h : ρ.Ended c q (.ok res) n) (hq : Writes q) :
    ∃ i < n, ρ.event i = .call c q ∧ Answered ρ c i n q res := by
  obtain ⟨i, hin, he, hs, hr⟩ := ended_started h
  have hi : i < ρ.length := hin.trans_le h.1
  refine ⟨i, hin, he, ?_⟩
  cases q with
  | createMessage p =>
    cases createMessage_ended hs h.1 hr with
    | created hij hjk hkl hln _ hau _ hp hcommit _ =>
      obtain ⟨f, hx⟩ := performs_ok hp
      obtain ⟨rfl, _, _, hw⟩ := insertMessage_ok hx
      have hx := commits_write hi he (by simp) hp rfl hcommit hkl hw
      refine answered he hi (by omega) hln hcommit hx
        (createMessage_does he hi hcommit (committed hcommit)).choose_spec ?_
      exact .message (by omega) (by omega) hau
  | updateMessage m p =>
    cases updateMessage_ended hs h.1 hr with
    | updated hij hjk hkl hle hen hrow _ _ hp hau hcommit _ _ =>
      obtain ⟨f, hx⟩ := performs_ok hp
      rcases updateMessage_ok hx with ⟨hnone, _⟩ | ⟨row', _, hrow', _, _, hw⟩
      · cases hnone
      have hx := commits_write hi he (by simp) hp rfl hcommit (by omega) hw
      rw [performs_committed hi he (by simp) hp rfl] at hrow'
      obtain rfl := Option.some.inj (hrow.symm.trans hrow')
      refine answered he hi (by omega) (by omega) hcommit hx
        (updateMessage_does he hi hcommit (committed hcommit)).choose_spec ?_
      exact .message (by omega) (by omega) hau
  | deleteMessage m =>
    cases deleteMessage_ended hs h.1 hr with
    | deleted hij hjk hkl hln _ hp _ hcommit _ _ _ =>
      obtain ⟨f, hx⟩ := performs_ok hp
      rcases deleteMessage_ok hx with ⟨hnone, _⟩ | ⟨row', _, _, hw⟩
      · cases hnone
      have hx := commits_write hi he (by simp) hp rfl hcommit hjk hw
      exact answered he hi (by omega) (by omega) hcommit hx
        (deleteMessage_does he hi hcommit (committed hcommit) (by rw [hx]; simp)).choose_spec .none
  | createAuthor p =>
    cases AuthorTraces.createAuthor_ended hs h.1 hr with
    | created hij hjk hkn _ _ hp _ hcommit _ =>
      obtain ⟨f, hx⟩ := performs_ok hp
      obtain ⟨_, _, _, hw⟩ := insertAuthor_ok hx
      have hx := commits_write hi he (by simp) hp rfl hcommit hjk hw
      exact answered he hi (by omega) hkn hcommit hx
        (createAuthor_does he hi hcommit (committed hcommit)).choose_spec .author
  | updateAuthor id p =>
    cases AuthorTraces.updateAuthor_ended hs h.1 hr with
    | read _ _ hempty => exact absurd hempty hq
    | updated hij hjk hkn _ hrow hp _ hcommit _ =>
      obtain ⟨f, hx⟩ := performs_ok hp
      rcases updateAuthor_ok hx with ⟨hnone, _⟩ | ⟨row', hrow', _, _, hw⟩
      · cases hnone
      have hx := commits_write hi he (by simp) hp rfl hcommit hjk hw
      rw [performs_committed hi he (by simp) hp rfl] at hrow'
      obtain rfl := Option.some.inj (hrow.symm.trans hrow')
      exact answered he hi (by omega) hkn hcommit hx
        (updateAuthor_does he hi hcommit (committed hcommit)).choose_spec .author
  | deleteAuthor id =>
    cases AuthorTraces.deleteAuthor_ended hs h.1 hr with
    | deleted hij hjk hkn _ _ hp hcommit _ =>
      obtain ⟨f, hx⟩ := performs_ok hp
      rcases deleteAuthor_ok hx with ⟨hnone, _⟩ | ⟨_, _, _, hw⟩
      · cases hnone
      have hx := commits_write hi he (by simp) hp rfl hcommit hjk hw
      exact answered he hi (by omega) hkn hcommit hx
        (deleteAuthor_does he hi hcommit (committed hcommit) (by rw [hx]; simp)).choose_spec .none
  | listMessages | getMessage | listAuthors | getAuthor | seedInitialMessage => exact hq.elim

end Answers

/-- A run of the service is a serial execution of the requests that took effect in it, each
between the start and the end of its call. -/
structure Serializes (ρ : Run s) : Prop where
  serial : ∀ n ≤ ρ.length,
    Serial (fun op => Takes op.2) (.ofDb s.toDb) (acted (acts ρ) n) (tables ρ n)
  sound : ∀ n ≤ ρ.length, Sound (tables ρ n)
  once : ∀ n ≤ ρ.length, ((acted (acts ρ) n).map Prod.fst).Nodup
  within : ∀ k < ρ.length, ∀ c q, acts ρ k = some (c, q) →
    ∃ i < k, ρ.event i = .call c q ∧ ∀ o l, ρ.Ended c q o l → k < l
  /-- What ended before another call was made is executed before it. -/
  order : ∀ n ≤ ρ.length, ∀ c q o l d q', ρ.Ended c q o l →
    (∀ j < l, ρ.event j ≠ .call d q') → (c, q) ∈ acted (acts ρ) n → (d, q') ∈ acted (acts ρ) n →
    List.Sublist [(c, q), (d, q')] (acted (acts ρ) n)
  answered : ∀ n c q res, ρ.Ended c q (.ok res) n → Writes q →
    ∃ i < n, ρ.event i = .call c q ∧ Answered ρ c i n q res

theorem acts_within {c k : ℕ} {q : Request} (hk : k < ρ.length) (h : acts ρ k = some (c, q)) :
    ∃ i < k, ρ.event i = .call c q ∧ ∀ o l, ρ.Ended c q o l → k < l := by
  obtain ⟨i, hik, he, ⟨x, r, hp⟩, _⟩ := acts_some hk h
  refine ⟨i, hik, he, ?_⟩
  rintro o l ⟨_, b, hcall⟩
  exact ρ.done_before hcall hp

theorem acts_order {c d l n : ℕ} {q q' : Request} {o : Outcome} (hn : n ≤ ρ.length)
    (hended : ρ.Ended c q o l) (hlater : ∀ j < l, ρ.event j ≠ .call d q')
    (hc : (c, q) ∈ acted (acts ρ) n) (hd : (d, q') ∈ acted (acts ρ) n) :
    List.Sublist [(c, q), (d, q')] (acted (acts ρ) n) := by
  obtain ⟨k, hkn, hk⟩ := mem_acted.mp hc
  obtain ⟨k', hkn', hk'⟩ := mem_acted.mp hd
  obtain ⟨_, _, _, hbefore⟩ := acts_within (hkn.trans_le hn) hk
  obtain ⟨j', hj', he', _⟩ := acts_within (hkn'.trans_le hn) hk'
  have hkl := hbefore o l hended
  have hlj : l ≤ j' := by
    by_contra h
    exact hlater j' (by omega) he'
  exact acted_order hk hk' (by omega) hkn'

theorem serial_run {n : ℕ} (hn : n ≤ ρ.length) :
    Serial (fun op => Takes op.2) (.ofDb s.toDb) (acted (acts ρ) n) (tables ρ n) := by
  have h0 : tables ρ 0 = .ofDb s.toDb := by
    rw [tables, Run.store, ρ.start]
    rfl
  rw [← h0]
  refine serial_acted ?_ fun k hk => tables_idle (hk.trans_le hn)
  rintro k hk ⟨c, q⟩ h
  exact acts_takes (hk.trans_le hn) h

theorem acted_once {n : ℕ} (hn : n ≤ ρ.length) : ((acted (acts ρ) n).map Prod.fst).Nodup := by
  rw [acted_map]
  refine acted_nodup ?_
  intro k hk l hl c hkc hlc
  obtain ⟨⟨_, q⟩, hacts, rfl⟩ := Option.map_eq_some_iff.mp hkc
  obtain ⟨⟨_, q'⟩, hacts', rfl⟩ := Option.map_eq_some_iff.mp hlc
  exact acts_once (hk.trans_le hn) (hl.trans_le hn) hacts hacts'

theorem runs_serialize (ρ : Run s) : Serializes ρ where
  serial _ hn := serial_run hn
  sound _ hn := serial_sound (serial_run hn) (ofDb_sound s.emails_unique s.foreign_keys)
  once _ hn := acted_once hn
  within _ hk _ _ h := acts_within hk h
  order _ hn _ _ _ _ _ _ hended hlater hc hd := acts_order hn hended hlater hc hd
  answered _ _ _ _ h hq := ended_answered h hq

end SerialStore
