import MessageService.Library.Extensions
import MessageService.Pagination

/-! The messages embedded in an author, and the message list.
An author's messages are selected and then sorted; the list is sorted and then cut into pages.
Their order has no ties, so the two agree wherever both are read from the same messages. -/
namespace EmbeddedMessages

open Programs Interleaving Extensions Models Schemas MessageJson KeyedTables Postgres Services
open ServiceRuns Transitions Statements Consistency Histories Footprints Traces MessageTraces
open Commits Paging Pagination

section Tables

variable {db : Db} {a : Uuid}

/-- Two rows of a table that stand before each other are one row. -/
theorem rows_untied : ∀ x ∈ db.messages.rows, ∀ y ∈ db.messages.rows,
    messageBefore x y → messageBefore y x → x = y := by
  intro x hx y hy hxy hyx
  have hid : x.id = y.id := by
    rcases hxy with h | ⟨h, hid⟩
    · rcases hyx with h' | ⟨h', _⟩ <;> omega
    · rcases hyx with h' | ⟨_, hid'⟩
      · omega
      · exact le_antisymm hid' hid
  rw [mem_rows_iff] at hx hy
  rw [hid, hy] at hx
  exact (Option.some.inj hx).symm

/-- `WHERE` and `ORDER BY`: the messages of an author stand in the order of the list. -/
theorem messagesOf_sorted (db : Db) (a : Uuid) :
    db.messagesOf a = db.sortedMessages.filter (·.authorId = a) :=
  insertionSort_filter rows_untied _

/-- Of two messages created at one time the one of the larger id comes first. -/
example :
    (⟨⟨[ada], by decide⟩, ⟨[hello, { hello with id := 3 }], by decide⟩⟩ : Db).messagesOf ada.id =
    [{ hello with id := 3 }, hello] := by decide

theorem mem_messagesOf {row : Message} :
    row ∈ db.messagesOf a ↔ db.messages.lookup row.id = some row ∧ row.authorId = a := by
  rw [Db.messagesOf, List.mem_insertionSort, Db.referencing, List.mem_filter, mem_rows_iff,
    decide_eq_true_eq]

/-- The author of a listed message, and what an author's `messages` keep of it. -/
def listedEntry (m : MessageOut) : Uuid × MessageSummary := (m.author.id, m.toMessageSummary)

def rowEntry (row : Message) : Uuid × MessageSummary := (row.authorId, .ofRow row)

theorem listed_entry {db : Db} {row : Message} {out : MessageOut}
    (h : MessageOut.ofRow row (db.authors.lookup row.authorId) = some out) :
    listedEntry out = rowEntry row := by
  cases ha : db.authors.lookup row.authorId with
  | none => rw [ha] at h; cases h
  | some author =>
    rw [ha] at h
    obtain rfl := Option.some.inj h
    have hid : author.id = row.authorId := lookup_key ha
    exact Prod.ext hid rfl

/-- Selecting by author from what is listed is selecting from the rows. -/
theorem selected_entries {listed : List MessageOut} {rows : List Message}
    (h : listed.map listedEntry = rows.map rowEntry) :
    (listed.filter (·.author.id = a)).map (·.toMessageSummary) =
      (rows.filter (·.authorId = a)).map MessageSummary.ofRow := by
  have hlisted : (listed.filter (·.author.id = a)).map (·.toMessageSummary) =
      ((listed.map listedEntry).filter (·.1 = a)).map Prod.snd := by
    rw [List.filter_map, List.map_map]
    rfl
  have hrows : (rows.filter (·.authorId = a)).map MessageSummary.ofRow =
      ((rows.map rowEntry).filter (·.1 = a)).map Prod.snd := by
    rw [List.filter_map, List.map_map]
    rfl
  rw [hlisted, hrows, h]

/-- The messages `ms` embedded in author `a`, against all that is listed. -/
structure Agreement (db : Db) (a : Uuid) (listed : List MessageOut) (ms : List MessageSummary) :
    Prop where
  same : ms = (listed.filter (·.author.id = a)).map (·.toMessageSummary)
  complete : ∀ row, db.messages.lookup row.id = some row → row.authorId = a → .ofRow row ∈ ms
  sound : ∀ m ∈ ms, ∃ row, db.messages.lookup row.id = some row ∧ row.authorId = a ∧ m = .ofRow row
  distinct : (ms.map (·.id)).Nodup
  ordered : ms.Pairwise fun m m' =>
    Endpoint.messages.before (m.createdAt.ordinal, m.id) (m'.createdAt.ordinal, m'.id)

theorem agreement {listed : List MessageOut}
    (h : listed.map listedEntry = db.sortedMessages.map rowEntry) :
    Agreement db a listed ((db.messagesOf a).map MessageSummary.ofRow) := by
  have hsub : (db.messagesOf a).Sublist db.sortedMessages := by
    rw [messagesOf_sorted]
    exact List.filter_sublist
  constructor
  · rw [selected_entries h, messagesOf_sorted]
  · intro row hrow ha
    exact List.mem_map_of_mem (mem_messagesOf.mpr ⟨hrow, ha⟩)
  · intro m hm
    obtain ⟨row, hrow, rfl⟩ := List.mem_map.mp hm
    exact ⟨row, (mem_messagesOf.mp hrow).1, (mem_messagesOf.mp hrow).2, rfl⟩
  · have hids : (db.sortedMessages.map Message.id).Nodup :=
      ((List.perm_insertionSort messageBefore _).map _).nodup_iff.mpr db.messages.distinct
    rw [List.map_map]
    exact hids.sublist (hsub.map _)
  · have hordered := (table_ordered .messages db).sublist (hsub.map messageKey)
    rw [List.pairwise_map] at hordered
    exact List.pairwise_map.mpr hordered

end Tables

section Readings

variable [JsonCodec] {s : SoundDb} {ρ : Run s} {lo hi L : ℕ} {a : Uuid}

/-- A call made at `lo` or later has returned `res` by `hi`. -/
def Answered (ρ : Run s) (lo hi : ℕ) (q : Request) (res : Result) : Prop :=
  ∃ c i, lo ≤ i ∧ i < hi ∧ ρ.event i = .call c q ∧ ρ.Ended c q (.ok res) hi

/-- The committed messages stay as they are from `lo` to `hi`. -/
def Still (ρ : Run s) (lo hi : ℕ) : Prop :=
  ∀ k, lo ≤ k → k ≤ hi → (ρ.store k).db.messages = (ρ.store lo).db.messages

/-- All pages of `list_messages`, in calls of any order: offsets `0, L, 2L, ..` and on past
the total count. -/
structure Listing (ρ : Run s) (L lo hi : ℕ) where
  pages : ℕ
  page : ℕ → Page MessageOut
  answered : ∀ k < pages, Answered ρ lo hi (.listMessages L (k * L)) (.messages (page k))
  complete : ∃ k < pages, (page k).totalCount ≤ pages * L

/-- The concatenation of the pages. -/
def Listing.messages (l : Listing ρ L lo hi) : List MessageOut :=
  ((List.range l.pages).map fun k => (l.page k).items).flatten

theorem answered_started {q : Request} {res : Result} (h : Answered ρ lo hi q res) :
    ∃ c i, lo ≤ i ∧ hi ≤ ρ.length ∧ Session ρ c (i + 1) (i + 1) [] ∧
      ρ.Reaches c (body q) (i + 1) (.done (.ok res)) hi := by
  obtain ⟨c, i, hlo, hhi, he, hended⟩ := h
  obtain ⟨i', hi', he', hs, hr⟩ := ended_started hended
  obtain rfl := ρ.call_unique (hhi.trans_le hended.1) (hi'.trans_le hended.1) he he'
  exact ⟨c, i, hlo, hended.1, hs, hr⟩

/-- A page read while the messages stay is cut out of them. -/
theorem page_entries {offset : ℕ} {p : Page MessageOut} (hstill : Still ρ lo hi)
    (h : Answered ρ lo hi (.listMessages L offset) (.messages p)) :
    p.items.map listedEntry =
      (((ρ.store lo).db.sortedMessages.drop offset).take L).map rowEntry ∧
    p.totalCount = (ρ.store lo).db.messages.rows.length := by
  obtain ⟨c, i, hlo, hhi, hs, hr⟩ := answered_started h
  obtain ⟨p', j, k, _, _, hij, hjk, hkn, _, hres, htotal, hitems⟩ := listMessages_page hs hhi hr
  obtain rfl : p = p' := by injection hres
  have hj := hstill j (by omega) (by omega)
  have hk := hstill k (by omega) hkn.le
  have hsorted : (ρ.store j).db.sortedMessages = (ρ.store lo).db.sortedMessages := by
    rw [Db.sortedMessages, hj]
    rfl
  constructor
  · rw [List.mapM_map] at hitems
    rw [← hsorted]
    exact map_of_mapM (fun _ _ => listed_entry) hitems
  · rw [htotal, hk]

/-- The pages of a listing, one after the other, are the sorted table. -/
theorem listing_entries (hstill : Still ρ lo hi) (l : Listing ρ L lo hi) :
    l.messages.map listedEntry = (ρ.store lo).db.sortedMessages.map rowEntry := by
  have hpages : l.messages.map listedEntry =
      walked (fun _ => (ρ.store lo).db.sortedMessages.map rowEntry) L l.pages := by
    unfold Listing.messages walked
    rw [List.map_flatten, List.map_map]
    congr 1
    apply List.map_congr_left
    intro k hk
    have hentries := (page_entries hstill (l.answered k (List.mem_range.mp hk))).1
    rw [Function.comp_apply, hentries, page, List.map_take, List.map_drop]
  obtain ⟨k, hk, hcomplete⟩ := l.complete
  have htotal := (page_entries hstill (l.answered k hk)).2
  have hlength : (ρ.store lo).db.sortedMessages.length = (ρ.store lo).db.messages.rows.length :=
    List.length_insertionSort ..
  rw [hpages, walked_constant fun _ _ => rfl]
  apply List.take_of_length_le
  rw [List.length_map]
  omega

/-- What `get_author` embeds while the messages stay. -/
theorem embedded {d : AuthorDetailOut} (hstill : Still ρ lo hi)
    (h : Answered ρ lo hi (.getAuthor a true) (.authorDetail d)) :
    d.messages = some (((ρ.store lo).db.messagesOf a).map MessageSummary.ofRow) := by
  obtain ⟨c, i, hlo, hhi, hs, hr⟩ := answered_started h
  obtain ⟨d', k, hik, hkn, hres, hmessages⟩ := AuthorTraces.getAuthor_read hs hhi hr
  obtain rfl : d = d' := by injection hres
  have hsame : (ρ.store k).db.messagesOf a = (ρ.store lo).db.messagesOf a := by
    rw [Db.messagesOf, Db.referencing, hstill k (by omega) hkn.le]
    rfl
  rw [hmessages, if_pos rfl, hsame]

end Readings

section Alone

variable [JsonCodec] {s : SoundDb} {ρ σ τ : Run s} {n m : ℕ} {w : World} {a : Uuid}
variable {q : Request} {res : Result}

/-- On its own the request returns `res` and leaves the store as it is. -/
def ReadsAlone (w : World) (q : Request) (res : Result) : Prop :=
  ∀ c f, w.pending c = [] → solo (H := host) c (.proceed f) (body q) w = some (.ok res, w)

theorem getAuthor_alone {row : Author} (hrow : w.db.authors.lookup a = some row) :
    ∃ d, ReadsAlone w (.getAuthor a true) (.authorDetail d) := by
  refine ⟨⟨.ofRow row, some ((w.db.messagesOf a).map .ofRow)⟩, ?_⟩
  intro c f hpending
  have hview : w.view c = w.db := view_of_pending_nil hpending
  have hauthor : execute c f w (.selectAuthor a) = some (.ok (some row), w) := by
    change some (_, _) = _
    rw [hview, hrow]
  have hmessages : execute c f w (.selectMessagesOf a) = some (.ok (w.db.messagesOf a), w) := by
    change some (_, _) = _
    rw [hview]
  refine (solo_step hauthor).trans ?_
  exact (solo_step hmessages).trans rfl

/-- Every row of sound tables can be listed. -/
theorem listMessages_alone {L offset : ℕ} (hkeys : w.db.ForeignKeys) :
    ∃ p, ReadsAlone w (.listMessages L offset) (.messages p) := by
  have hitems : ∃ items, ((((w.db.sortedMessages.drop offset).take L).map w.db.withAuthor).mapM
      fun r => MessageOut.ofRow r.1 r.2) = some items := by
    apply mapM_some
    intro r hr
    obtain ⟨row, hrow, rfl⟩ := List.mem_map.mp hr
    have hmem := List.mem_of_mem_drop (List.mem_of_mem_take hrow)
    rw [Db.sortedMessages, List.mem_insertionSort, mem_rows_iff] at hmem
    obtain ⟨author, hauthor⟩ := hkeys row hmem
    rw [Db.withAuthor, hauthor]
    exact ⟨_, rfl⟩
  obtain ⟨items, hitems⟩ := hitems
  refine ⟨⟨items, w.db.messages.rows.length⟩, ?_⟩
  intro c f hpending
  have hview : w.view c = w.db := view_of_pending_nil hpending
  have hrows : execute c f w (.selectMessages L offset) =
      some (.ok (((w.db.sortedMessages.drop offset).take L).map w.db.withAuthor), w) := by
    change some (_, _) = _
    rw [hview]
  have htotal : execute c f w .countMessages = some (.ok w.db.messages.rows.length, w) := by
    change some (_, _) = _
    rw [hview]
  refine (solo_step hrows).trans ?_
  refine (solo_step htotal).trans ?_
  change solo (H := host) c _ (Program.bind (Program.bind
    (validated ((((w.db.sortedMessages.drop offset).take L).map w.db.withAuthor).mapM
      fun r : Message × Option Author => MessageOut.ofRow r.1 r.2))
    (ExceptT.bindCont fun items => pure (⟨items, w.db.messages.rows.length⟩ : Page MessageOut)))
    (ExceptT.bindCont fun page => pure (Result.messages page)) : host.Body) w = _
  rw [hitems]
  rfl

/-- A call that only reads leaves the tables through all its steps. -/
theorem read_extends (hn : n ≤ ρ.length) (hq : Reading q) (h : ReadsAlone (ρ.store n) q res) :
    ∃ σ : Run s, Extends σ ρ n ∧ Answered σ n σ.length q res ∧ Still σ n σ.length ∧
      σ.store σ.length = ρ.store n := by
  obtain ⟨b, hb⟩ := unused_call (fun _ => rfl) hn
  have hc := hb b le_rfl
  obtain ⟨σ, hextends, hcompletes⟩ := solo_completes (q := q) hn hc
    (h b ⟨0, ⟨0, 0, 0, 0, 0, 0, 0⟩⟩ (pending_unstarted hc hn))
  refine ⟨σ, hextends, ?_, ?_, hcompletes.shared⟩
  · obtain ⟨closed, hcalls⟩ := hcompletes.calls
    refine ⟨b, n, le_rfl, hcompletes.long, hcompletes.event, le_rfl, closed, ?_⟩
    rw [hcalls, Function.update_self]
  · intro k hnk hk
    induction k, hnk using Nat.le_induction with
    | base => rfl
    | succ k hnk ih =>
      rcases run_db σ hk with hdb | ⟨d, x, r, hp, _⟩
      · rw [hdb, ih (by omega)]
      · have hd : d = b := by
          by_cases hfirst : k = n
          · have hevent := hp.event
            rw [hfirst, hcompletes.event] at hevent
            cases hevent
          · have hevent := hp.event
            rw [hcompletes.steps k (by omega) hk] at hevent
            injection hevent with hd _
            exact hd.symm
        subst hd
        exact (performs_only (hcompletes.long) hcompletes.event (reading_silent hq) hp).elim

theorem Answered.later {lo hi : ℕ} (h : Answered σ lo hi q res) (hextends : Extends τ σ hi) :
    Answered τ lo τ.length q res := by
  obtain ⟨c, i, hlo, hhi, he, _, b, hcalls⟩ := h
  refine ⟨c, i, hlo, hhi.trans_le hextends.long, (hextends.event i hhi).trans he, ?_⟩
  apply ended_later (i := hi) ⟨hextends.long, b, ?_⟩ hextends.long le_rfl
  rw [hextends.state hi le_rfl, hcalls]

/-- Reads one after the other, all of the same tables. -/
theorem reads_extend (hn : n ≤ ρ.length) (qs : List (Request × Result))
    (h : ∀ p ∈ qs, Reading p.1 ∧ ReadsAlone (ρ.store n) p.1 p.2) :
    ∃ σ : Run s, Extends σ ρ n ∧ Still σ n σ.length ∧
      ∀ p ∈ qs, Answered σ n σ.length p.1 p.2 := by
  induction qs generalizing ρ n with
  | nil =>
    refine ⟨extend ρ n hn [] rfl, extend_extends hn _ _, ?_, by simp⟩
    intro k hnk hk
    obtain rfl : k = n := le_antisymm hk hnk
    rfl
  | cons p qs ih =>
    obtain ⟨hp, hqs⟩ := List.forall_mem_cons.mp h
    obtain ⟨σ, hextends, hanswered, hstill, hstore⟩ := read_extends hn hp.1 hp.2
    rw [← hstore] at hqs
    obtain ⟨τ, hextends', hstill', hanswered'⟩ := ih le_rfl hqs
    have hnσ := hextends.long
    have hsame : ∀ k ≤ σ.length, τ.store k = σ.store k := fun k hk =>
      congrArg State.shared (hextends'.state k hk)
    refine ⟨τ, hextends.trans hextends' hnσ, ?_, ?_⟩
    · intro k hnk hk
      rw [hsame n hnσ]
      by_cases hkσ : k ≤ σ.length
      · rw [hsame k hkσ]
        exact hstill k hnk hkσ
      · rw [hstill' k (by omega) hk, hsame _ le_rfl]
        exact hstill _ hnσ le_rfl
    · intro p' hp'
      rcases List.mem_cons.mp hp' with rfl | hp'
      · exact hanswered.later hextends'
      · obtain ⟨c, i, hlo, hhi, he, hended⟩ := hanswered' p' hp'
        exact ⟨c, i, by omega, hhi, he, hended⟩

end Alone

section Agreements

variable [JsonCodec] {s : SoundDb}

/-- While the messages stay, whatever is listed and whatever is embedded agree. From every instant
of a run on, both can be read. -/
structure EmbedsMessages (ρ : Run s) (a : Uuid) : Prop where
  agrees : ∀ lo hi d, Still ρ lo hi →
    Answered ρ lo hi (.getAuthor a true) (.authorDetail d) → ∃ ms, d.messages = some ms ∧
      ∀ L (l : Listing ρ L lo hi), Agreement (ρ.store lo).db a l.messages ms
  readable : ∀ n ≤ ρ.length, ∀ L, 0 < L → (∃ row, ρ.author n a = some row) →
    ∃ σ : Run s, Extends σ ρ n ∧ Still σ n σ.length ∧
      (∃ d, Answered σ n σ.length (.getAuthor a true) (.authorDetail d)) ∧
      Nonempty (Listing σ L n σ.length)

/-- From every instant the author and all pages can be read one after the other. -/
theorem reads_all {ρ : Run s} {n L : ℕ} {a : Uuid} {row : Author} (hn : n ≤ ρ.length) (hL : 0 < L)
    (hrow : ρ.author n a = some row) : ∃ σ : Run s, Extends σ ρ n ∧ Still σ n σ.length ∧
      (∃ d, Answered σ n σ.length (.getAuthor a true) (.authorDetail d)) ∧
      Nonempty (Listing σ L n σ.length) := by
  obtain ⟨d, hd⟩ := getAuthor_alone (w := ρ.store n) hrow
  have hpages : ∀ k, ∃ p, ReadsAlone (ρ.store n) (.listMessages L (k * L)) (.messages p) :=
    fun k => listMessages_alone (run_consistent ρ hn).committed_foreign_keys
  choose page hpage using hpages
  let total := (ρ.store n).db.messages.rows.length
  let pages := (List.range (total + 1)).map fun k =>
    (Request.listMessages L (k * L), Result.messages (page k))
  obtain ⟨σ, hextends, hstill, hanswered⟩ :=
    reads_extend hn ((.getAuthor a true, .authorDetail d) :: pages) (by
      intro p hp
      rcases List.mem_cons.mp hp with rfl | hp
      · exact ⟨trivial, hd⟩
      · obtain ⟨k, _, rfl⟩ := List.mem_map.mp hp
        exact ⟨trivial, hpage k⟩)
  have hlisted : ∀ k < total + 1,
      Answered σ n σ.length (.listMessages L (k * L)) (.messages (page k)) := by
    intro k hk
    apply hanswered (.listMessages L (k * L), .messages (page k))
    exact List.mem_cons_of_mem _ (List.mem_map.mpr ⟨k, List.mem_range.mpr hk, rfl⟩)
  refine ⟨σ, hextends, hstill, ⟨d, hanswered _ (List.mem_cons_self ..)⟩,
    ⟨⟨total + 1, page, hlisted, 0, Nat.succ_pos _, ?_⟩⟩⟩
  have htotal := (page_entries hstill (hlisted 0 (Nat.succ_pos _))).2
  have hstore : σ.store n = ρ.store n := congrArg State.shared (hextends.state n le_rfl)
  rw [htotal, hstore]
  calc total ≤ total + 1 := Nat.le_succ _
    _ ≤ (total + 1) * L := Nat.le_mul_of_pos_right _ hL

theorem embeds_messages (ρ : Run s) (a : Uuid) : EmbedsMessages ρ a := by
  constructor
  · intro lo hi d hstill h
    refine ⟨_, embedded hstill h, ?_⟩
    intro L l
    exact agreement (listing_entries hstill l)
  · rintro n hn L hL ⟨row, hrow⟩
    exact reads_all hn hL hrow

end Agreements

end EmbeddedMessages
