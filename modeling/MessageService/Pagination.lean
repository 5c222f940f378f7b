import Mathlib.Algebra.BigOperators.Intervals
import Mathlib.Data.List.Sort
import MessageService.AuthorTraces
import MessageService.Commits
import MessageService.Library.Paging
import MessageService.TextCodec

/-! Walking the pages of a listing, while others create and update.
A page and its total count come from two instants. Rows keep their sort key and are not
deleted during the walk, so the tables its pages are cut from only grow. -/
namespace Pagination

open Programs Interleaving Texts Models Schemas MessageJson KeyedTables Postgres Services
open ServiceRuns Transitions Statements Consistency Histories Traces MessageTraces Commits
open Paging

/-- `created_at` and `id` of a row. -/
abbrev Key := ℕ × Uuid

inductive Endpoint where
  | messages | authors
  deriving DecidableEq

section Tables

def messageKey (m : Message) : Key := (m.createdAt.ordinal, m.id)

def authorKey (a : Author) : Key := (a.createdAt.ordinal, a.id)

def Endpoint.request : Endpoint → ℕ → ℕ → Request
  | .messages, limit, offset => .listMessages limit offset
  | .authors, limit, offset => .listAuthors limit offset

/-- The keys of the table in the order of its listing. -/
def Endpoint.table : Endpoint → Db → List Key
  | .messages, db => db.sortedMessages.map messageKey
  | .authors, db => db.sortedAuthors.map authorKey

/-- `created_at DESC, id DESC` for messages and `created_at, id` for authors, strictly. -/
def Endpoint.before : Endpoint → Key → Key → Prop
  | .messages, a, b => b.1 < a.1 ∨ (b.1 = a.1 ∧ b.2 < a.2)
  | .authors, a, b => a.1 < b.1 ∨ (a.1 = b.1 ∧ a.2 < b.2)

/-- The keys of the rows a call returns. -/
def Endpoint.items : Endpoint → Result → List Key
  | .messages, .messages page => page.items.map fun m => (m.createdAt.ordinal, m.id)
  | .authors, .authors page => page.items.map fun a => (a.createdAt.ordinal, a.id)
  | _, _ => []

def totalCount : Result → ℕ
  | .messages page => page.totalCount
  | .authors page => page.totalCount
  | _ => 0

instance : Std.Total messageBefore where
  total a b := by
    unfold messageBefore
    rcases Nat.lt_trichotomy a.createdAt.ordinal b.createdAt.ordinal with h | h | h
    · exact .inr (.inl h)
    · rcases le_total a.id b.id with hid | hid
      · exact .inr (.inr ⟨h, hid⟩)
      · exact .inl (.inr ⟨h.symm, hid⟩)
    · exact .inl (.inl h)

instance : IsTrans Message messageBefore where
  trans a b d h h' := by
    unfold messageBefore at *
    rcases h with h | ⟨h, hid⟩ <;> rcases h' with h' | ⟨h', hid'⟩
    · exact .inl (h'.trans h)
    · exact .inl (by omega)
    · exact .inl (by omega)
    · exact .inr ⟨h'.trans h, hid'.trans hid⟩

instance : Std.Total authorBefore where
  total a b := by
    unfold authorBefore
    rcases Nat.lt_trichotomy a.createdAt.ordinal b.createdAt.ordinal with h | h | h
    · exact .inl (.inl h)
    · rcases le_total a.id b.id with hid | hid
      · exact .inl (.inr ⟨h, hid⟩)
      · exact .inr (.inr ⟨h.symm, hid⟩)
    · exact .inr (.inl h)

instance : IsTrans Author authorBefore where
  trans a b d h h' := by
    unfold authorBefore at *
    rcases h with h | ⟨h, hid⟩ <;> rcases h' with h' | ⟨h', hid'⟩
    · exact .inl (h.trans h')
    · exact .inl (by omega)
    · exact .inl (by omega)
    · exact .inr ⟨h.trans h', hid.trans hid'⟩

variable {e : Endpoint} {db : Db}

/-- A sorted table without two rows of one id is strictly sorted by its keys. -/
theorem table_ordered (e : Endpoint) (db : Db) : (e.table db).Pairwise e.before := by
  cases e with
  | messages =>
    have hids : (db.sortedMessages.map Message.id).Nodup :=
      ((List.perm_insertionSort messageBefore _).map _).nodup_iff.mpr db.messages.distinct
    have hsorted : db.sortedMessages.Pairwise messageBefore :=
      List.pairwise_insertionSort messageBefore _
    refine List.pairwise_map.mpr (((List.pairwise_map.mp hids).and hsorted).imp ?_)
    rintro a b ⟨hne, h | ⟨h, hid⟩⟩
    · exact .inl h
    · exact .inr ⟨h, lt_of_le_of_ne hid (Ne.symm hne)⟩
  | authors =>
    have hids : (db.sortedAuthors.map Author.id).Nodup :=
      ((List.perm_insertionSort authorBefore _).map _).nodup_iff.mpr db.authors.distinct
    have hsorted : db.sortedAuthors.Pairwise authorBefore :=
      List.pairwise_insertionSort authorBefore _
    refine List.pairwise_map.mpr (((List.pairwise_map.mp hids).and hsorted).imp ?_)
    rintro a b ⟨hne, h | ⟨h, hid⟩⟩
    · exact .inl h
    · exact .inr ⟨h, lt_of_le_of_ne hid hne⟩

theorem before_irrefl (a : Key) : ¬e.before a a := by
  cases e with
  | messages => simp [Endpoint.before]
  | authors => simp [Endpoint.before]

theorem before_asymm {a b : Key} (h : e.before a b) : ¬e.before b a := by
  cases e with
  | messages =>
    rcases h with h | ⟨h, hid⟩
    · rintro (h' | ⟨h', _⟩)
      · exact lt_asymm h h'
      · exact h.ne h'.symm
    · rintro (h' | ⟨_, hid'⟩)
      · exact h'.ne h.symm
      · exact lt_asymm hid hid'
  | authors =>
    rcases h with h | ⟨h, hid⟩
    · rintro (h' | ⟨h', _⟩)
      · exact lt_asymm h h'
      · exact h.ne h'.symm
    · rintro (h' | ⟨_, hid'⟩)
      · exact h'.ne h.symm
      · exact lt_asymm hid hid'

instance : Std.Antisymm e.before := ⟨fun _ _ h h' => absurd h' (before_asymm h)⟩

theorem table_nodup (e : Endpoint) (db : Db) : (e.table db).Nodup := by
  refine (table_ordered e db).imp ?_
  rintro a b h rfl
  exact before_irrefl a h

/-- Tables are compared by their keys: the order is determined. -/
theorem table_sublist {db' : Db} (h : ∀ key ∈ e.table db, key ∈ e.table db') :
    (e.table db).Sublist (e.table db') :=
  List.sublist_of_subperm_of_pairwise ((table_nodup e db).subperm h) (table_ordered e db)
    (table_ordered e db')

theorem mem_messages {key : Key} :
    key ∈ Endpoint.messages.table db ↔ ∃ m, db.messages.lookup key.2 = some m ∧
      m.createdAt.ordinal = key.1 := by
  simp only [Endpoint.table, Db.sortedMessages, List.mem_map, List.mem_insertionSort, mem_rows_iff]
  constructor
  · rintro ⟨m, hm, rfl⟩
    exact ⟨m, hm, rfl⟩
  · rintro ⟨m, hm, hkey⟩
    have hid := lookup_key hm
    exact ⟨m, by rw [hid]; exact hm, Prod.ext hkey hid⟩

theorem mem_authors {key : Key} :
    key ∈ Endpoint.authors.table db ↔ ∃ a, db.authors.lookup key.2 = some a ∧
      a.createdAt.ordinal = key.1 := by
  simp only [Endpoint.table, Db.sortedAuthors, List.mem_map, List.mem_insertionSort, mem_rows_iff]
  constructor
  · rintro ⟨a, ha, rfl⟩
    exact ⟨a, ha, rfl⟩
  · rintro ⟨a, ha, hkey⟩
    have hid := lookup_key ha
    exact ⟨a, by rw [hid]; exact ha, Prod.ext hkey hid⟩

/-- The number of rows of the table. -/
def Endpoint.size : Endpoint → Db → ℕ
  | .messages, db => db.messages.rows.length
  | .authors, db => db.authors.rows.length

theorem table_length (e : Endpoint) (db : Db) : (e.table db).length = e.size db := by
  cases e with
  | messages => simp [Endpoint.table, Endpoint.size, Db.sortedMessages]
  | authors => simp [Endpoint.table, Endpoint.size, Db.sortedAuthors]

end Tables

section Sizes

variable {e : Endpoint}

/-- The rows a write can add to the table. -/
def Endpoint.puts : Endpoint → Write → ℕ
  | .messages, .putMessage _ => 1
  | .authors, .putAuthor _ => 1
  | _, _ => 0

theorem put_length {κ ρ : Type} {key : ρ → κ} [DecidableEq κ] (t : Table κ ρ key) (r : ρ) :
    (t.put r).rows.length ≤ t.rows.length + 1 :=
  Nat.succ_le_succ (List.length_filter_le _ _)

theorem drop_length {κ ρ : Type} {key : ρ → κ} [DecidableEq κ] (t : Table κ ρ key) (k : κ) :
    (t.drop k).rows.length ≤ t.rows.length :=
  List.length_filter_le _ _

theorem size_apply (db : Db) (w : Write) : e.size (db.apply w) ≤ e.size db + e.puts w := by
  cases e with
  | messages =>
    cases w with
    | putMessage m => exact put_length _ _
    | dropMessage id => exact drop_length _ _
    | putAuthor | dropAuthor => exact le_rfl
  | authors =>
    cases w with
    | putAuthor a => exact put_length _ _
    | dropAuthor id => exact drop_length _ _
    | putMessage | dropMessage => exact le_rfl

theorem size_applyAll (db : Db) (ws : List Write) :
    e.size (db.applyAll ws) ≤ e.size db + (ws.map e.puts).sum := by
  induction ws using List.reverseRecOn with
  | nil => exact le_rfl
  | append_singleton ws w ih =>
    have hlast := size_apply (e := e) (db.applyAll ws) w
    rw [applyAll_append, List.map_append, List.sum_append, List.map_singleton, List.sum_singleton]
    omega

end Sizes

section Growth

variable [JsonCodec] {s : SoundDb} {ρ : Run s} {e : Endpoint} {a b k : ℕ}

abbrev keys (ρ : Run s) (e : Endpoint) (k : ℕ) : List Key := e.table (ρ.store k).db

/-- At instant `k` no row of the table is deleted. -/
def Undeleted (ρ : Run s) (e : Endpoint) (k : ℕ) : Prop :=
  ∀ key ∈ keys ρ e k, ∃ key' ∈ keys ρ e (k + 1), key'.2 = key.2

/-- At instant `k` a create is committed: a row appears in the table. -/
def Creates (ρ : Run s) (e : Endpoint) (k : ℕ) : Prop := ∃ key ∈ keys ρ e (k + 1), key ∉ keys ρ e k

instance : Decidable (Creates ρ e k) := inferInstanceAs (Decidable (∃ key ∈ keys ρ e (k + 1), _))

/-- The number of creates committed from instant `a` up to instant `b`. -/
def creates (ρ : Run s) (e : Endpoint) (a b : ℕ) : ℕ := ((Finset.Ico a b).filter (Creates ρ e)).card

/-- No UPDATE changes the time at which an author was created. -/
theorem author_created {id : Uuid} {old new : Author} (hk : k < ρ.length)
    (hold : ρ.author k id = some old) (hnew : ρ.author (k + 1) id = some new) :
    new.createdAt = old.createdAt := by
  rcases run_db ρ hk with hdb | ⟨c, x, r, _, hw⟩
  · rw [Run.author, hdb] at hnew
    obtain rfl := Option.some.inj (hold.symm.trans hnew)
    rfl
  · rw [Run.author, hw, commit_db] at hnew
    rcases viewed_author_row hnew with hdb | hown
    · obtain rfl := Option.some.inj (hold.symm.trans hdb)
      rfl
    · have hid : new.id = id := lookup_key hnew
      obtain ⟨_, _, hcreated⟩ := (run_consistent ρ hk.le).guarded c _ hown
      exact (hcreated old (by rw [hid]; exact hold)).symm

/-- A row that is not deleted keeps its place in the order. -/
theorem keeps_key (hk : k < ρ.length) (h : Undeleted ρ e k) :
    ∀ key ∈ keys ρ e k, key ∈ keys ρ e (k + 1) := by
  intro key hkey
  obtain ⟨key', hkey', hid⟩ := h key hkey
  cases e with
  | messages =>
    obtain ⟨old, hold, hcreated⟩ := mem_messages.mp hkey
    obtain ⟨new, hnew, _⟩ := mem_messages.mp hkey'
    rw [hid] at hnew
    refine mem_messages.mpr ⟨new, hnew, ?_⟩
    rcases row_history hold (Nat.le_succ k) hk hnew with rfl | hlater
    · exact hcreated
    · rw [hlater.created]
      exact hcreated
  | authors =>
    obtain ⟨old, hold, hcreated⟩ := mem_authors.mp hkey
    obtain ⟨new, hnew, _⟩ := mem_authors.mp hkey'
    rw [hid] at hnew
    refine mem_authors.mpr ⟨new, hnew, ?_⟩
    rw [author_created hk hold hnew]
    exact hcreated

theorem keys_grow (hab : a ≤ b) (hb : b ≤ ρ.length) (h : ∀ k, a ≤ k → k < b → Undeleted ρ e k) :
    (keys ρ e a).Sublist (keys ρ e b) := by
  induction b, hab using Nat.le_induction with
  | base => exact List.Sublist.refl _
  | succ b hab ih =>
    have hstep := table_sublist (keeps_key (by omega : b < ρ.length) (h b hab (by omega)))
    exact (ih (by omega) fun k hak hkb => h k hak (by omega)).trans hstep

theorem committing_puts {i c : ℕ} {q : Request} {ws : List Write}
    (h : Committing ρ i k c q ws) : (ws.map e.puts).sum ≤ 1 := by
  cases e with
  | messages => cases h <;> simp [Endpoint.puts]
  | authors => cases h <;> simp [Endpoint.puts]

/-- A commit creates at most one row of a table. -/
theorem creates_step (hk : k < ρ.length) :
    (keys ρ e (k + 1)).length ≤ (keys ρ e k).length + if Creates ρ e k then 1 else 0 := by
  by_cases hcreates : Creates ρ e k
  · rw [if_pos hcreates, table_length, table_length]
    rcases run_db ρ hk with hdb | ⟨c, x, r, hp, hw⟩
    · rw [hdb]
      exact Nat.le_succ _
    · obtain ⟨q, i, ws, _, _, hs, hcommitting⟩ := commit_origin hp
      have hsize := size_applyAll (e := e) (ρ.store k).db ws
      have hone := committing_puts (e := e) hcommitting
      rw [hw, commit_db, World.view, hs.pending]
      omega
  · rw [if_neg hcreates]
    refine ((table_nodup e _).subperm fun key hkey => ?_).length_le
    by_contra hnew
    exact hcreates ⟨key, hkey, hnew⟩

theorem creates_succ (hab : a ≤ b) :
    creates ρ e a (b + 1) = creates ρ e a b + if Creates ρ e b then 1 else 0 := by
  simp only [creates, Finset.card_filter]
  exact Finset.sum_Ico_succ_top hab _

theorem keys_bounded (hab : a ≤ b) (hb : b ≤ ρ.length) :
    (keys ρ e b).length ≤ (keys ρ e a).length + creates ρ e a b := by
  induction b, hab using Nat.le_induction with
  | base => exact Nat.le_add_right _ _
  | succ b hab ih =>
    have hstep := creates_step (e := e) (by omega : b < ρ.length)
    have hprev := ih (by omega)
    rw [creates_succ hab]
    omega

end Growth

section Walks

variable [JsonCodec] {s : SoundDb} {ρ : Run s} {e : Endpoint} {L : ℕ}

/-- What a listing that was called at `i` and has ended by `n` returns. -/
theorem listed {c i n offset : ℕ} {res : Result} (hi : i < ρ.length)
    (he : ρ.event i = .call c (e.request L offset))
    (h : ρ.Ended c (e.request L offset) (.ok res) n) :
    ∃ r t, i < r ∧ r < t ∧ t < n ∧ e.items res = ((keys ρ e r).drop offset).take L ∧
      totalCount res = (keys ρ e t).length := by
  obtain ⟨i', hi', he', hs, hr⟩ := ended_started h
  obtain rfl := ρ.call_unique hi (hi'.trans_le h.1) he he'
  cases e with
  | messages =>
    obtain ⟨page, r, t, _, _, hir, hrt, htn, _, rfl, htotal, hitems⟩ := listMessages_page hs h.1 hr
    refine ⟨r, t, hir, hrt, htn, ?_, ?_⟩
    · have hkeys : page.items.map (fun m => (m.createdAt.ordinal, m.id)) = _ :=
        map_of_mapM (h := fun r : Message × Option Author => messageKey r.1) ?_ hitems
      · rw [Endpoint.items, hkeys, List.map_map]
        simp only [keys, Endpoint.table, ← List.map_drop, ← List.map_take]
        rfl
      · rintro ⟨m, _ | a⟩ out hout
        · cases hout
        · obtain rfl := Option.some.inj hout
          rfl
    · rw [table_length]
      exact htotal
  | authors =>
    obtain ⟨r, t, hir, hrt, htn, rfl⟩ := AuthorTraces.listAuthors_page hs h.1 hr
    refine ⟨r, t, hir, hrt, htn, ?_, ?_⟩
    · simp only [Endpoint.items, keys, Endpoint.table, List.map_map, ← List.map_drop,
        ← List.map_take]
      rfl
    · rw [table_length]
      rfl

/-- A client walks through a listing: offsets `0, L, 2L, ..`, each after the page before, until
the total count of a page is reached. No row of the listing is deleted meanwhile. -/
structure Walk (ρ : Run s) (e : Endpoint) (L : ℕ) where
  pages : ℕ
  call : ℕ → ℕ
  result : ℕ → Result
  calledAt : ℕ → ℕ
  endedAt : ℕ → ℕ
  nonempty : 0 < pages
  called : ∀ k < pages, ρ.event (calledAt k) = .call (call k) (e.request L (k * L))
  ended : ∀ k < pages, ρ.Ended (call k) (e.request L (k * L)) (.ok (result k)) (endedAt k)
  lasts : ∀ k < pages, calledAt k < endedAt k
  next : ∀ k, k + 1 < pages → endedAt k ≤ calledAt (k + 1)
  continues : ∀ k, k + 1 < pages → k * L + L < totalCount (result k)
  stops : totalCount (result (pages - 1)) ≤ (pages - 1) * L + L
  undeleted : ∀ k, calledAt 0 ≤ k → k < endedAt (pages - 1) → Undeleted ρ e k

def Walk.start (W : Walk ρ e L) : ℕ := W.calledAt 0

def Walk.finish (W : Walk ρ e L) : ℕ := W.endedAt (W.pages - 1)

/-- Everything the pages of the walk return, in order. -/
def Walk.returned (W : Walk ρ e L) : List Key :=
  ((List.range W.pages).map fun k => e.items (W.result k)).flatten

structure SkipsNothing (W : Walk ρ e L) : Prop where
  covers : ∀ key ∈ keys ρ e W.start, key ∈ W.returned
  repeats : W.returned.length ≤ W.returned.toFinset.card + creates ρ e W.start W.finish
  ordered : ∀ k < W.pages, (e.items (W.result k)).Pairwise e.before
  exact : creates ρ e W.start W.finish = 0 → W.returned = keys ρ e W.start ∧
    W.returned.Nodup ∧ ∀ k < W.pages, totalCount (W.result k) = (keys ρ e W.start).length
  offsets : (∀ k < W.pages, totalCount (W.result k) < 2 ^ 31) → ∀ k < W.pages, k * L ≤ maxInt4

section Instants

variable (W : Walk ρ e L)

theorem called_later {j k : ℕ} (hjk : j ≤ k) (hk : k < W.pages) : W.calledAt j ≤ W.calledAt k := by
  induction k, hjk using Nat.le_induction with
  | base => exact le_rfl
  | succ k hjk ih =>
    have hlast := W.lasts k (by omega)
    have hnext := W.next k hk
    have hprev := ih (by omega)
    omega

theorem ended_by_finish {k : ℕ} (hk : k < W.pages) : W.endedAt k ≤ W.finish := by
  by_cases hlast : k = W.pages - 1
  · rw [hlast]
    exact le_rfl
  · have hnext := W.next k (by omega)
    have hlater := called_later W (by omega : k + 1 ≤ W.pages - 1) (by have := W.nonempty; omega)
    have hlasts := W.lasts (W.pages - 1) (by have := W.nonempty; omega)
    unfold Walk.finish
    omega

theorem finish_le : W.finish ≤ ρ.length := (W.ended _ (by have := W.nonempty; omega)).1

theorem walk_grows {a b : ℕ} (ha : W.start ≤ a) (hab : a ≤ b) (hb : b ≤ W.finish) :
    (keys ρ e a).Sublist (keys ρ e b) :=
  keys_grow hab (hb.trans (finish_le W)) fun k hak hkb =>
    W.undeleted k (ha.trans hak) (hkb.trans_le hb)

/-- Without creates the table is the same at all instants of the walk. -/
theorem walk_constant (h : creates ρ e W.start W.finish = 0) {n : ℕ} (hs : W.start ≤ n)
    (hn : n ≤ W.finish) : keys ρ e n = keys ρ e W.start := by
  have hgrows := walk_grows W le_rfl hs hn
  have hnone : creates ρ e W.start n = 0 := by
    refine Nat.le_zero.mp (h ▸ Finset.card_le_card (Finset.filter_subset_filter _ ?_))
    exact Finset.Ico_subset_Ico_right hn
  have hle := keys_bounded (e := e) hs (hn.trans (finish_le W))
  rw [hnone] at hle
  exact (hgrows.eq_of_length_le hle).symm

end Instants

section Readings

variable {W : Walk ρ e L} {read count : ℕ → ℕ}

/-- The instants at which the pages of the walk are cut out of the table and counted. -/
structure Reads (W : Walk ρ e L) (read count : ℕ → ℕ) : Prop where
  called : ∀ k < W.pages, W.calledAt k < read k
  counted : ∀ k < W.pages, read k < count k
  ended : ∀ k < W.pages, count k < W.endedAt k
  items : ∀ k < W.pages, e.items (W.result k) = page (keys ρ e (read k)) L k
  total : ∀ k < W.pages, totalCount (W.result k) = (keys ρ e (count k)).length

theorem walk_reads (W : Walk ρ e L) : ∃ read count, Reads W read count := by
  have hlisted : ∀ k, ∃ r t, k < W.pages → W.calledAt k < r ∧ r < t ∧ t < W.endedAt k ∧
      e.items (W.result k) = page (keys ρ e r) L k ∧
      totalCount (W.result k) = (keys ρ e t).length := by
    intro k
    by_cases hk : k < W.pages
    · have hlast := W.lasts k hk
      have hend := ended_by_finish W hk
      have hfinish := finish_le W
      obtain ⟨r, t, h⟩ := listed (by omega) (W.called k hk) (W.ended k hk)
      exact ⟨r, t, fun _ => h⟩
    · exact ⟨0, 0, fun h => absurd h hk⟩
  choose read count h using hlisted
  exact ⟨read, count, fun k hk => (h k hk).1, fun k hk => (h k hk).2.1,
    fun k hk => (h k hk).2.2.1, fun k hk => (h k hk).2.2.2.1, fun k hk => (h k hk).2.2.2.2⟩

theorem Reads.within (h : Reads W read count) {k : ℕ} (hk : k < W.pages) :
    W.start < read k ∧ read k < count k ∧ count k < W.finish := by
  have hstart : W.start ≤ W.calledAt k := called_later W (Nat.zero_le k) hk
  have hfinish := ended_by_finish W hk
  have hcalled := h.called k hk
  have hended := h.ended k hk
  exact ⟨by omega, h.counted k hk, by omega⟩

theorem Reads.growing (h : Reads W read count) :
    Growing (fun k => keys ρ e (read k)) W.pages := by
  constructor
  · exact fun k _ => table_nodup e _
  · intro k hk
    have hbefore := h.within (by omega : k < W.pages)
    have hafter := h.within hk
    have hended := h.ended k (by omega)
    have hcalled := h.called (k + 1) hk
    have hnext := W.next k hk
    exact walk_grows W (by omega) (by omega) (by omega)

theorem Reads.returned (h : Reads W read count) :
    W.returned = walked (fun k => keys ρ e (read k)) L W.pages := by
  unfold Walk.returned walked
  congr 1
  apply List.map_congr_left
  intro k hk
  exact h.items k (List.mem_range.mp hk)

/-- The total count of the last page was taken after its rows, so the walk got to their end. -/
theorem Reads.complete (h : Reads W read count) :
    (keys ρ e (read (W.pages - 1))).length ≤ W.pages * L := by
  have hlast : W.pages - 1 < W.pages := by have := W.nonempty; omega
  have hpages : (W.pages - 1) * L + L = W.pages * L := by
    rw [← Nat.succ_mul, Nat.succ_eq_add_one, Nat.sub_add_cancel W.nonempty]
  obtain ⟨hread, hcount, hended⟩ := h.within hlast
  have hle := (walk_grows W hread.le hcount.le hended.le).length_le
  have htotal := h.total _ hlast
  have hstops := W.stops
  omega

theorem Reads.covers (h : Reads W read count) : ∀ key ∈ keys ρ e W.start, key ∈ W.returned := by
  intro key hkey
  obtain ⟨hread, hcount, hended⟩ := h.within W.nonempty
  have hgrows := walk_grows W le_rfl hread.le (hcount.trans hended).le
  rw [h.returned]
  exact walk_covers h.growing W.nonempty h.complete (hgrows.subset hkey)

theorem Reads.repeats (h : Reads W read count) :
    W.returned.length ≤ W.returned.toFinset.card + creates ρ e W.start W.finish := by
  have hlast : W.pages - 1 < W.pages := by have := W.nonempty; omega
  obtain ⟨hread, hcount, hended⟩ := h.within hlast
  obtain ⟨hread0, hcount0, hended0⟩ := h.within W.nonempty
  have hrepeats := walk_repeats L h.growing W.nonempty
  have hbounded : (keys ρ e (read (W.pages - 1))).length ≤
      (keys ρ e W.start).length + creates ρ e W.start (read (W.pages - 1)) :=
    keys_bounded hread.le (by have := finish_le W; omega)
  have hmono : creates ρ e W.start (read (W.pages - 1)) ≤ creates ρ e W.start W.finish :=
    Finset.card_le_card (Finset.filter_subset_filter _ (Finset.Ico_subset_Ico_right (by omega)))
  have hfirst := (walk_grows W le_rfl hread0.le (hcount0.trans hended0).le).length_le
  rw [h.returned]
  omega

theorem Reads.ordered (h : Reads W read count) :
    ∀ k < W.pages, (e.items (W.result k)).Pairwise e.before := by
  intro k hk
  rw [h.items k hk]
  exact (table_ordered e _).sublist ((List.take_sublist _ _).trans (List.drop_sublist _ _))

theorem Reads.exact (h : Reads W read count) (hnone : creates ρ e W.start W.finish = 0) :
    W.returned = keys ρ e W.start ∧ W.returned.Nodup ∧
      ∀ k < W.pages, totalCount (W.result k) = (keys ρ e W.start).length := by
  have hread : ∀ k < W.pages, keys ρ e (read k) = keys ρ e W.start := by
    intro k hk
    obtain ⟨hread, hcount, hended⟩ := h.within hk
    exact walk_constant W hnone hread.le (hcount.trans hended).le
  have hreturned : W.returned = keys ρ e W.start := by
    have hcomplete := h.complete
    rw [hread _ (by have := W.nonempty; omega)] at hcomplete
    rw [h.returned, walked_constant hread]
    exact List.take_of_length_le hcomplete
  refine ⟨hreturned, ?_, ?_⟩
  · rw [hreturned]
    exact table_nodup e _
  · intro k hk
    obtain ⟨hread, hcount, hended⟩ := h.within hk
    rw [h.total k hk, walk_constant W hnone (hread.trans hcount).le hended.le]

end Readings

/-- While the counts are below 2^31 the offsets of the walk are valid ones. -/
theorem valid_offsets (W : Walk ρ e L) (hsmall : ∀ k < W.pages, totalCount (W.result k) < 2 ^ 31) :
    ∀ k < W.pages, k * L ≤ maxInt4 := by
  intro k hk
  cases k with
  | zero => simp
  | succ k =>
    have hmore := W.continues k hk
    have hcount := hsmall k (by omega)
    have hmax : maxInt4 = 2147483647 := rfl
    rw [Nat.succ_mul]
    omega

/-- A walk skips no row, repeats at most as many as are created, and without creates it returns
the table. -/
theorem walk_skips_nothing (W : Walk ρ e L) : SkipsNothing W := by
  obtain ⟨read, count, h⟩ := walk_reads W
  exact ⟨h.covers, h.repeats, h.ordered, h.exact, valid_offsets W⟩

end Walks

section Schedules

def news : MessageCreate :=
  ⟨text "News", text "Newer than the rest", 1, by decide +kernel, by decide +kernel⟩

/-- A message is created between the row query and the count query of the first page. -/
def createdWhileListing : Run oneMessage := scheduled oneMessage
  [.call 0 (.listMessages 1 0), act 0 0,
    .call 1 (.createMessage news), act 1 0, act 1 5, act 1 0, act 0 0,
    .call 2 (.listMessages 1 1), act 2 0, act 2 0] (by decide +kernel)

instance (ρ : Run oneMessage) (e : Endpoint) (k : ℕ) : Decidable (Undeleted ρ e k) :=
  inferInstanceAs (Decidable (∀ key ∈ keys ρ e k, ∃ key' ∈ keys ρ e (k + 1), key'.2 = key.2))

/-- The new message pushes the first one onto the second page, where it is returned again. -/
def repeatingWalk : Walk createdWhileListing .messages 1 where
  pages := 2
  call k := 2 * k
  result _ := .messages ⟨[⟨.ofRow hello, .ofRow ada⟩], 2⟩
  calledAt k := 7 * k
  endedAt k := 7 + 3 * k
  nonempty := by decide
  called k hk := by
    rcases k with _ | _ | k
    · rfl
    · rfl
    · omega
  ended := by decide +kernel
  lasts k hk := by omega
  next k hk := by omega
  continues k hk := by
    obtain rfl : k = 0 := by omega
    decide
  stops := by decide
  undeleted k _ hk := by
    have hall : ∀ k < 10, Undeleted createdWhileListing .messages k := by decide +kernel
    exact hall k hk

theorem newcomer_checked : Checked .name (text "Newcomer") ∧ Checked .email (text "new@x.org") := by
  decide +kernel

def newcomer : AuthorCreate :=
  ⟨text "Newcomer", text "new@x.org", newcomer_checked.1, newcomer_checked.2⟩

/-- An author is created between the row query and the count query of the first page. -/
def createdWhileListingAuthors : Run oneMessage := scheduled oneMessage
  [.call 0 (.listAuthors 1 0), act 0 0,
    .call 1 (.createAuthor newcomer), act 1 5, act 1 0, act 0 0,
    .call 2 (.listAuthors 1 1), act 2 0, act 2 0] (by decide +kernel)

/-- The page that the new author adds. -/
def newcomerOut : AuthorOut := ⟨5, "Newcomer", "new@x.org", insertedAt⟩

def authorsWalk : Walk createdWhileListingAuthors .authors 1 where
  pages := 2
  call k := 2 * k
  result k := .authors ⟨[if k = 0 then .ofRow ada else newcomerOut], 2⟩
  calledAt k := 6 * k
  endedAt k := 6 + 3 * k
  nonempty := by decide
  called k hk := by
    rcases k with _ | _ | k
    · rfl
    · rfl
    · omega
  ended := by decide +kernel
  lasts k hk := by omega
  next k hk := by omega
  continues k hk := by
    obtain rfl : k = 0 := by omega
    decide
  stops := by decide
  undeleted k _ hk := by
    have hall : ∀ k < 9, Undeleted createdWhileListingAuthors .authors k := by decide +kernel
    exact hall k hk

/-- A walk of either listing. -/
theorem walk_skips_nothing_repeating : (SkipsNothing repeatingWalk ∧
    repeatingWalk.returned.length = repeatingWalk.returned.toFinset.card + 1 ∧
    creates createdWhileListing .messages repeatingWalk.start repeatingWalk.finish = 1) ∧
    SkipsNothing authorsWalk ∧ authorsWalk.returned.length = 2 ∧
    creates createdWhileListingAuthors .authors authorsWalk.start authorsWalk.finish = 1 :=
  ⟨⟨walk_skips_nothing repeatingWalk, by decide +kernel, by decide +kernel⟩,
    walk_skips_nothing authorsWalk, by decide +kernel, by decide +kernel⟩

end Schedules

end Pagination
