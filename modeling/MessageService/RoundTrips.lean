import MessageService.AuthorTraces
import MessageService.Library.Extensions
import MessageService.MessageTraces
import MessageService.StoredValues

/-! What the API hands out, it accepts back.
The rows of a run hold accepted strings. So an update that writes a row's own values back
passes the check and the constraints: on its own it succeeds from every instant, and among
other calls it fails only when the row has changed by the time of its statement. -/
namespace RoundTrips

open Programs Interleaving Extensions Texts Models Schemas MessageJson KeyedTables LockTables
open Postgres Services ServiceRuns Transitions Statements Consistency Histories Footprints
open Traces MessageTraces StoredStrings StoredValues

section Alone

variable [JsonCodec] {c : ℕ} {w : World} {f : Fresh}

/-- No other session has the row locked for writing. -/
def Unlocked (w : World) (c : ℕ) (r : Resource) : Prop := ∀ d, d ≠ c → ¬WriteLocked w d r

omit [JsonCodec] in
theorem lock_unlocked {r : Resource} (h : Unlocked w c r) :
    ∃ w', w.lock? c [(r, .noKeyUpdate)] = some w' := by
  have hfree : ¬w.locks.Blocks ⟨c, r, .noKeyUpdate⟩ := by
    rintro ⟨⟨d, r', mode⟩, hheld, hne, rfl, hconflict⟩
    apply h d hne
    cases mode with
    | keyShare => cases hconflict
    | noKeyUpdate => exact .inl hheld
    | update => exact .inr hheld
  obtain ⟨t, ht⟩ := acquire_free hfree
  refine ⟨{ w with locks := t }, ?_⟩
  simp [World.lock?, LockTable.acquireAll, ht]

/-- An update on its own: it writes the row, and leaves no lock behind. -/
theorem update_alone {m : Uuid} {p : MessageUpdate} {row : Message} {a : Author}
    (hpending : w.pending c = []) (hrow : w.db.messages.lookup m = some row)
    (hversion : row.version = p.version) (hmax : row.version < maxInt4)
    (hfits : (∀ t ∈ p.title, Storable titleWidth t) ∧ Storable contentWidth p.content)
    (ha : w.db.authors.lookup row.authorId = some a) (hfree : Unlocked w c (.message m)) :
    ∃ w', solo (H := host) c (.proceed f) (body (.updateMessage m p)) w =
        some (.ok (.message ⟨.ofRow (updatedMessage row p.content p.title), .ofRow a⟩), w') ∧
      w'.db = w.db.apply (.putMessage (updatedMessage row p.content p.title)) ∧
      ∀ d r mode, w'.locks.Holds d r mode → w.locks.Holds d r mode ∧ d ≠ c := by
  obtain ⟨u, hu⟩ := lock_unlocked hfree
  obtain ⟨hdb, hp, _, _⟩ := lock?_frame hu
  have hview : w.view c = w.db := view_of_pending_nil hpending
  have hupdate : execute c f w (.updateMessage m p.version p.content p.title) = some (.ok (some m),
      u.write c (.putMessage (updatedMessage row p.content p.title))) := by
    change execUpdateMessage c w m p.version p.content p.title = _
    unfold execUpdateMessage
    rw [if_neg (not_not.mpr hfits), hview, hrow]
    simp only
    rw [if_neg (not_not.mpr hversion), hu, Option.bind_eq_bind, Option.bind_some,
      if_neg (by omega)]
    rfl
  set v := u.write c (.putMessage (updatedMessage row p.content p.title)) with hv
  have hown : v.view c = w.db.apply (.putMessage (updatedMessage row p.content p.title)) := by
    rw [World.view, hv, write_db, write_pending, if_pos rfl, hdb, hp, hpending]
    rfl
  have hnew : (updatedMessage row p.content p.title).id = m := (lookup_key hrow : row.id = m)
  have hloaded : execute c f v (.selectMessage m) =
      some (.ok (some (updatedMessage row p.content p.title, some a)), v) := by
    change some (_, _) = _
    rw [hown, apply_message, message?_put hnew]
    simp only [Option.getD_some, Option.map_some, Db.withAuthor]
    rw [show (updatedMessage row p.content p.title).authorId = row.authorId from rfl]
    rw [apply_author, ← ha]
    rfl
  have hcommit : execute c f v .commit = some (.ok (), v.commit c) := rfl
  have hevict : execute c f (v.commit c) (.cacheEvict m.str) = some (.ok (),
      { v.commit c with cache := Function.update (v.commit c).cache m.str none }) := rfl
  refine ⟨{ v.commit c with cache := Function.update (v.commit c).cache m.str none }, ?_, ?_, ?_⟩
  · refine (solo_step hupdate).trans ?_
    refine (solo_step hloaded).trans ?_
    refine (solo_step hcommit).trans ?_
    exact (solo_step hevict).trans rfl
  · exact hown
  · intro d r mode hheld
    have hheld : (v.locks.release c).Holds d r mode := hheld
    rw [release_holds, hv, write_locks, lock?_holds hu] at hheld
    rcases hheld with ⟨⟨rfl, _⟩ | hheld, hne⟩
    · exact absurd rfl hne
    · exact ⟨hheld, hne⟩

/-- Writing an author's own values back, on its own. -/
theorem author_alone {p : AuthorUpdate} {row : Author} {id : Uuid} (hpending : w.pending c = [])
    (hrow : w.db.authors.lookup id = some row) (hname : p.name = some (text row.name))
    (hemail : p.email = some (text row.email))
    (hfits : Storable nameWidth (text row.name) ∧ Storable emailWidth (text row.email))
    (hfree : Unlocked w c (.author id)) :
    ∃ w', solo (H := host) c (.proceed f) (body (.updateAuthor id p)) w =
        some (.ok (.author (.ofRow row)), w') ∧ w'.db = w.db.apply (.putAuthor row) := by
  obtain ⟨u, hu⟩ := lock_unlocked hfree
  obtain ⟨hdb, hp, _, _⟩ := lock?_frame hu
  have hview : w.view c = w.db := view_of_pending_nil hpending
  have hupdate : execute c f w (.updateAuthor id p.name p.email) =
      some (.ok (some row), u.write c (.putAuthor row)) := by
    change execUpdateAuthor c w id p.name p.email = _
    unfold execUpdateAuthor
    rw [hname, hemail, if_neg (by simpa using hfits), hview, hrow]
    simp only [Option.map_some, Option.getD_some, string_text, if_true]
    rw [hu]
    rfl
  have hcommit : execute c f (u.write c (.putAuthor row)) .commit =
      some (.ok (), (u.write c (.putAuthor row)).commit c) := rfl
  refine ⟨(u.write c (.putAuthor row)).commit c, ?_, ?_⟩
  · have hsome : ¬(p.name = none ∧ p.email = none) := by simp [hname]
    simp only [body, updateAuthor, if_neg hsome]
    refine (solo_step hupdate).trans ?_
    exact (solo_step hcommit).trans rfl
  · rw [commit_db, World.view, write_db, write_pending, if_pos rfl, hdb, hp, hpending]
    rfl

end Alone

section Interleaved

variable [JsonCodec] {s : SoundDb} {ρ : Run s} {n c k : ℕ} {o : Outcome}

/-- The row after an update that writes its own values back. -/
def advanced (row : Message) : Message := { row with version := row.version + 1 }

omit [JsonCodec] in
/-- An update that sends back what was read only advances the version. -/
theorem updated_advanced (row : Message) :
    updatedMessage row (text row.content) (some (text row.title)) = advanced row := by
  simp [updatedMessage, advanced]

/-- Among other calls such an update succeeds, or finds another row than the one written back. -/
theorem update_interleaved {m : Uuid} {p : MessageUpdate} {row : Message}
    (hs : Stored (ρ.store n)) (hn : n ≤ ρ.length) (hrow : ρ.row n m = some row)
    (hmax : row.version < maxInt4) (htitle : p.title = some (text row.title))
    (hcontent : p.content = text row.content) (hversion : p.version = row.version)
    (hf : ρ.Faultless c) (h : ρ.Ended c (.updateMessage m p) o k) :
    (∃ a l, o = .ok (.message ⟨.ofRow (advanced row), a⟩) ∧ l < k ∧
      ρ.row (l + 1) m = some (advanced row)) ∨
    ∃ j x r, j < k ∧ ρ.Performs j c (updateOf m p) x r ∧ ρ.row j m ≠ some row := by
  obtain ⟨i, hi, he, hsession, hr⟩ := ended_started h
  have hupdated : updatedMessage row p.content p.title = advanced row := by
    rw [htitle, hcontent, updated_advanced]
  have haccepted := hs.db.messages m row hrow
  cases updateMessage_ended hsession h.1 hr with
  | failed hfailed =>
    obtain ⟨j, _, _, _, _, hwhy⟩ := update_refused hf (hi.trans_le h.1) he hfailed
    rcases hwhy with hunfit | ⟨row', _, hv, hover⟩
    · refine absurd ⟨?_, ?_⟩ hunfit
      · rw [htitle]
        rintro t ⟨⟩
        exact haccepted.title.2
      · rw [hcontent]
        exact haccepted.content.2
    · omega
  | unevicted _ _ _ _ _ _ _ _ hp => exact (faultless_error hf hp).1.elim
  | missed hij hjk hkl hln hne hp _ _ _ =>
    exact .inr ⟨_, _, _, by omega, hp, fun hj => hne row hj hversion.symm⟩
  | updated hij hjk hkl hle hen hold hv _ hp _ _ hnew _ =>
    obtain rfl := row_determined (by have := h.1; omega) hn hold hrow (hv.trans hversion)
    rw [hupdated] at hnew ⊢
    exact .inl ⟨_, _, rfl, by omega, hnew⟩

/-- The UPDATE that writes an author's own values back is refused for a changed row only. -/
theorem author_unrefused {id : Uuid} {p : AuthorUpdate} {row : Author} {i j : ℕ} {x : Choice}
    {exc : Exc} (hname : p.name = some (text row.name))
    (hemail : p.email = some (text row.email))
    (hfits : Storable nameWidth (text row.name) ∧ Storable emailWidth (text row.email))
    (hf : ρ.Faultless c)
    (hi : i < ρ.length) (he : ρ.event i = .call c (.updateAuthor id p))
    (hp : ρ.Performs j c (.updateAuthor id p.name p.email) x (.error exc)) :
    ρ.author j id ≠ some row := by
  intro hrow
  obtain ⟨_, f, hx⟩ := faultless_error hf hp
  rcases (updateAuthor_error hx).2 with ⟨_, hunfit⟩ | ⟨_, row', e, he', hrow', hne, _⟩
  · rw [hname, hemail] at hunfit
    exact hunfit (by simpa using hfits)
  · rw [performs_committed hi he (by simp) hp rfl] at hrow'
    obtain rfl := Option.some.inj (hrow'.symm.trans hrow)
    rw [hemail] at he'
    exact hne (Option.some.inj he').symm

theorem author_interleaved {id : Uuid} {p : AuthorUpdate} {row : Author}
    (hs : Stored (ρ.store n)) (hrow : ρ.author n id = some row)
    (hname : p.name = some (text row.name)) (hemail : p.email = some (text row.email))
    (hf : ρ.Faultless c)
    (h : ρ.Ended c (.updateAuthor id p) o k) :
    (∃ l, o = .ok (.author (.ofRow row)) ∧ l < k ∧ ρ.author (l + 1) id = some row) ∨
    ∃ j x r, j < k ∧ ρ.Performs j c (.updateAuthor id p.name p.email) x r ∧
      ρ.author j id ≠ some row := by
  obtain ⟨i, hi, he, hsession, hr⟩ := ended_started h
  have hik := hi.trans_le h.1
  have haccepted := hs.db.authors id row hrow
  have hfits : Storable nameWidth (text row.name) ∧ Storable emailWidth (text row.email) :=
    ⟨haccepted.name.2, haccepted.email.2⟩
  have hsome : ¬(p.name = none ∧ p.email = none) := by simp [hname]
  cases AuthorTraces.updateAuthor_ended hsession h.1 hr with
  | failed hfailed _ =>
    have honly : (body (.updateAuthor id p)).Only
        fun e => Fallible e → e = .updateAuthor id p.name p.email :=
      awaits_bind (awaits_updateAuthor (fun h => h.elim) (fun _ => rfl) (fun h => h.elim)
        (fun h => h.elim)) fun _ => awaits_pure _
    obtain ⟨j, x, _, hjk, hp⟩ := failed_at hf hik he honly hfailed
    exact .inr ⟨j, x, _, hjk, hp, author_unrefused hname hemail hfits hf hik he hp⟩
  | read _ _ hnone => exact absurd hnone hsome
  | readNothing _ _ hnone => exact absurd hnone hsome
  | rejected _ hjk _ hp _ _ =>
    exact .inr ⟨_, _, _, hjk, hp, author_unrefused hname hemail hfits hf hik he hp⟩
  | absent _ hjk _ hp hnone _ =>
    exact .inr ⟨_, _, _, hjk, hp, by rw [hnone]; simp⟩
  | @updated j l x _ row' _ hjl hlk _ hold hp _ _ hnew =>
    by_cases hsame : row' = row
    · subst hsame
      have hupdated : updatedAuthor row' p.name p.email = row' := by
        simp [updatedAuthor, hname, hemail]
      rw [hupdated] at hnew ⊢
      exact .inl ⟨l, rfl, hlk, hnew⟩
    · refine .inr ⟨j, x, _, by omega, hp, ?_⟩
      rw [hold]
      simpa using hsame

end Interleaved

section States

variable [JsonCodec] {s : SoundDb}

/-- The payload `p` is what the row itself holds, and writing it back advances the version. -/
structure MessageBack (ρ : Run s) (n : ℕ) (m : Uuid) (row : Message) (p : MessageUpdate) :
    Prop where
  title : p.title = some (text row.title)
  content : p.content = text row.content
  version : p.version = row.version
  alone : ∀ c f, (ρ.state n).calls c = none → Unlocked (ρ.store n) c (.message m) →
    ∃ σ w a, Extends σ ρ n ∧ Completes σ n c (.proceed f) (.updateMessage m p)
      (.ok (.message ⟨.ofRow (advanced row), a⟩)) w ∧ w.db.messages.lookup m = some (advanced row)
  interleaved : ∀ c k o, ρ.Faultless c → ρ.Ended c (.updateMessage m p) o k →
    (∃ a l, o = .ok (.message ⟨.ofRow (advanced row), a⟩) ∧ l < k ∧
      ρ.row (l + 1) m = some (advanced row)) ∨
    ∃ j x r, j < k ∧ ρ.Performs j c (updateOf m p) x r ∧ ρ.row j m ≠ some row

/-- The payload `p` is what the row itself holds, and writing it back leaves the row. -/
structure AuthorBack (ρ : Run s) (n : ℕ) (id : Uuid) (row : Author) (p : AuthorUpdate) : Prop where
  name : p.name = some (text row.name)
  email : p.email = some (text row.email)
  alone : ∀ c f, (ρ.state n).calls c = none → Unlocked (ρ.store n) c (.author id) →
    ∃ σ w, Extends σ ρ n ∧ Completes σ n c (.proceed f) (.updateAuthor id p)
      (.ok (.author (.ofRow row))) w ∧ w.db.authors.lookup id = some row
  interleaved : ∀ c k o, ρ.Faultless c → ρ.Ended c (.updateAuthor id p) o k →
    (∃ l, o = .ok (.author (.ofRow row)) ∧ l < k ∧ ρ.author (l + 1) id = some row) ∨
    ∃ j x r, j < k ∧ ρ.Performs j c (.updateAuthor id p.name p.email) x r ∧
      ρ.author j id ≠ some row

/-- At every instant each row passes the checks as it is, and its update succeeds. -/
structure AcceptsBack (ρ : Run s) : Prop where
  message : ∀ n ≤ ρ.length, ∀ m row, ρ.row n m = some row →
    Checked .title (text row.title) ∧ Checked .content (text row.content) ∧
    (row.version < maxInt4 → ∃ p, MessageBack ρ n m row p)
  author : ∀ n ≤ ρ.length, ∀ id row, ρ.author n id = some row →
    Checked .name (text row.name) ∧ Checked .email (text row.email) ∧ ∃ p, AuthorBack ρ n id row p

theorem messageBack {ρ : Run s} {n : ℕ} {m : Uuid} {row : Message} (hs : Stored (ρ.store n))
    (hn : n ≤ ρ.length) (hrow : ρ.row n m = some row) (hmax : row.version < maxInt4) :
    ∃ p, MessageBack ρ n m row p := by
  have haccepted := hs.db.messages m row hrow
  have hw := run_consistent ρ hn
  have hid : row.id = m := lookup_key hrow
  obtain ⟨a, ha⟩ := hw.committed_foreign_keys row (by rw [hid]; exact hrow)
  let p : MessageUpdate := ⟨some (text row.title), text row.content, row.version,
    by simpa using haccepted.title.1, haccepted.content.1, hmax.le⟩
  have hfits : (∀ t ∈ p.title, Storable titleWidth t) ∧ Storable contentWidth p.content := by
    constructor
    · rintro t ⟨⟩
      exact haccepted.title.2
    · exact haccepted.content.2
  refine ⟨p, rfl, rfl, rfl, ?_, ?_⟩
  · intro c f hc hfree
    have hupdated : updatedMessage row p.content p.title = advanced row := updated_advanced row
    obtain ⟨w, hsolo, hdb, _⟩ := update_alone (f := f) (p := p) (pending_unstarted hc hn) hrow rfl
      hmax hfits ha hfree
    rw [hupdated] at hsolo hdb
    obtain ⟨σ, hextends, hcompletes⟩ := solo_completes (q := Request.updateMessage m p) hn hc hsolo
    refine ⟨σ, w, .ofRow a, hextends, hcompletes, ?_⟩
    have hnew : (advanced row).id = m := hid
    rw [hdb, apply_message, message?_put hnew]
    rfl
  · intro c k o hf h
    exact update_interleaved hs hn hrow hmax rfl rfl rfl hf h

theorem authorBack {ρ : Run s} {n : ℕ} {id : Uuid} {row : Author} (hs : Stored (ρ.store n))
    (hn : n ≤ ρ.length) (hrow : ρ.author n id = some row) : ∃ p, AuthorBack ρ n id row p := by
  have haccepted := hs.db.authors id row hrow
  have hid : row.id = id := lookup_key hrow
  let p : AuthorUpdate := ⟨some (text row.name), some (text row.email),
    by simpa using haccepted.name.1, by simpa using haccepted.email.1⟩
  refine ⟨p, rfl, rfl, ?_, ?_⟩
  · intro c f hc hfree
    obtain ⟨w, hsolo, hdb⟩ := author_alone (f := f) (p := p) (pending_unstarted hc hn) hrow rfl rfl
      ⟨haccepted.name.2, haccepted.email.2⟩ hfree
    obtain ⟨σ, hextends, hcompletes⟩ := solo_completes (q := Request.updateAuthor id p) hn hc hsolo
    refine ⟨σ, w, hextends, hcompletes, ?_⟩
    rw [hdb, apply_author, author?_put hid]
    rfl
  · intro c k o hf h
    exact author_interleaved hs hrow rfl rfl hf h

/-- In every state that the seed and the calls of the API lead to from empty tables. -/
theorem accepts_back (ρ : Run .empty) : AcceptsBack ρ := by
  constructor
  · intro n hn m row hrow
    have hs := run_stored accepted_empty hn
    have haccepted := hs.db.messages m row hrow
    exact ⟨haccepted.title.1, haccepted.content.1, messageBack hs hn hrow⟩
  · intro n hn id row hrow
    have hs := run_stored accepted_empty hn
    have haccepted := hs.db.authors id row hrow
    exact ⟨haccepted.name.1, haccepted.email.1, authorBack hs hn hrow⟩

end States

end RoundTrips
