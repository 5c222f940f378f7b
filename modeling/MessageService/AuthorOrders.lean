import MessageService.Library.Extensions
import MessageService.Statements
import MessageService.ServiceRuns

/-! Updates of one author, one after the other.
On its own an update is a function of the tables. It depends on nothing that an update of other
fields changes, so the two can be made in either order. -/
namespace AuthorOrders

open Programs Interleaving Extensions Texts Models Schemas MessageJson KeyedTables LockTables
open Postgres Services ServiceRuns Statements

section Tables

variable {db : Db} {a : Uuid} {p q : AuthorUpdate} {row : Author}

def Empty (p : AuthorUpdate) : Prop := p.name = none ∧ p.email = none

instance : Decidable (Empty p) := inferInstanceAs (Decidable (_ ∧ _))

def Storing (p : AuthorUpdate) : Prop :=
  (∀ n ∈ p.name, Storable nameWidth n) ∧ ∀ e ∈ p.email, Storable emailWidth e

instance : Decidable (Storing p) := inferInstanceAs (Decidable (_ ∧ _))

/-- The row after the update. -/
def after (row : Author) (p : AuthorUpdate) : Author := updatedAuthor row p.name p.email

/-- The new e-mail is another author's. -/
def Clashes (db : Db) (row : Author) (p : AuthorUpdate) : Prop :=
  (after row p).email ≠ row.email ∧ db.emailTaken (after row p).email

instance : Decidable (Clashes db row p) := inferInstanceAs (Decidable (_ ∧ _))

/-- The error of an `update_author` that is on its own. -/
def refusal (db : Db) (a : Uuid) (p : AuthorUpdate) : Option Exc :=
  if ¬Storing p then some .dataError
  else
    match db.authors.lookup a with
    | none => some (authorNotFound a)
    | some row => if Clashes db row p then some (duplicateEmail (p.email.getD [])) else none

/-- The tables after an `update_author` that is on its own. -/
def updated (db : Db) (a : Uuid) (p : AuthorUpdate) : Db :=
  match db.authors.lookup a with
  | none => db
  | some row =>
    if Empty p ∨ refusal db a p ≠ none then db else db.apply (.putAuthor (after row p))

/-- The locks it takes. -/
def updateLocks (db : Db) (a : Uuid) (p : AuthorUpdate) : List (Resource × LockMode) :=
  if Empty p ∨ ¬Storing p then []
  else
    match db.authors.lookup a with
    | none => []
    | some row =>
      if (after row p).email = row.email then [(.author a, .noKeyUpdate)]
      else
        [(.author a, .update), (.email (after row p).email, .update), (.email row.email, .update)]

/-- No field is set by both. -/
def Apart (p q : AuthorUpdate) : Prop :=
  (p.name = none ∨ q.name = none) ∧ (p.email = none ∨ q.email = none)

theorem Apart.symm (h : Apart p q) : Apart q p := ⟨h.1.symm, h.2.symm⟩

theorem after_comm (h : Apart p q) (row : Author) :
    after (after row p) q = after (after row q) p := by
  obtain ⟨hname, hemail⟩ := h
  have hn : (q.name.map string).getD ((p.name.map string).getD row.name) =
      (p.name.map string).getD ((q.name.map string).getD row.name) := by
    rcases hname with h | h
    · simp [h]
    · simp [h]
  have he : (q.email.map string).getD ((p.email.map string).getD row.email) =
      (p.email.map string).getD ((q.email.map string).getD row.email) := by
    rcases hemail with h | h
    · simp [h]
    · simp [h]
  simp only [after, updatedAuthor, hn, he]

theorem after_lookup (hrow : db.authors.lookup a = some row) :
    (db.apply (.putAuthor (after row q))).authors.lookup a = some (after row q) := by
  have hid : (after row q).id = a := (lookup_key hrow : row.id = a)
  rw [apply_author, author?_put hid]
  rfl

/-- An update that keeps the e-mail of its row keeps the e-mails that are taken. -/
theorem emailTaken_kept (hrow : db.authors.lookup a = some row) (hq : q.email = none) (e : String) :
    (db.apply (.putAuthor (after row q))).emailTaken e ↔ db.emailTaken e := by
  have hid : row.id = a := lookup_key hrow
  have hemail : (after row q).email = row.email := by simp [after, updatedAuthor, hq]
  have hmem : row ∈ db.authors.rows := lookup_mem hrow
  simp only [Db.emailTaken, Db.apply, Table.put, Table.drop, List.mem_cons, List.mem_filter,
    decide_eq_true_eq]
  constructor
  · rintro ⟨b, rfl | ⟨hb, _⟩, rfl⟩
    · exact ⟨row, hmem, hemail.symm⟩
    · exact ⟨b, hb, rfl⟩
  · rintro ⟨b, hb, rfl⟩
    by_cases hkey : b.id = a
    · have hsame : b = row := by
        rw [mem_rows_iff, hkey, hrow] at hb
        exact (Option.some.inj hb).symm
      exact ⟨after row q, .inl rfl, by rw [hsame, hemail]⟩
    · exact ⟨b, .inr ⟨hb, by rw [show (after row q).id = a from hid]; exact hkey⟩, rfl⟩

/-- What an update finds and locks is the same after an update of other fields. -/
theorem clashes_kept (h : Apart p q) (hrow : db.authors.lookup a = some row) :
    (Clashes (db.apply (.putAuthor (after row q))) (after row q) p ↔ Clashes db row p) ∧
      ((after (after row q) p).email = (after row q).email ↔ (after row p).email = row.email) := by
  unfold Clashes
  rcases h.2 with hp | hq
  · simp [after, updatedAuthor, hp]
  · have hemail : (after row q).email = row.email := by simp [after, updatedAuthor, hq]
    have hnew : (after (after row q) p).email = (after row p).email := by
      rw [← after_comm h]
      simp [after, updatedAuthor, hq]
    rw [hnew, hemail, emailTaken_kept hrow hq]
    exact ⟨Iff.rfl, Iff.rfl⟩

theorem updated_left (h : Empty q ∨ refusal db a q ≠ none) : updated db a q = db := by
  unfold updated
  cases db.authors.lookup a with
  | none => rfl
  | some row => exact if_pos h

theorem updated_written (hrow : db.authors.lookup a = some row)
    (h : ¬(Empty q ∨ refusal db a q ≠ none)) :
    updated db a q = db.apply (.putAuthor (after row q)) := by
  simp only [updated, hrow, if_neg h]

/-- An update leaves the tables, or it writes the row of its author. -/
theorem updated_cases (db : Db) (a : Uuid) (q : AuthorUpdate) : updated db a q = db ∨
    ∃ row, db.authors.lookup a = some row ∧
      updated db a q = db.apply (.putAuthor (after row q)) := by
  by_cases hleft : Empty q ∨ refusal db a q ≠ none
  · exact .inl (updated_left hleft)
  · cases hrow : db.authors.lookup a with
    | none => exact .inl (by simp only [updated, hrow])
    | some row => exact .inr ⟨row, rfl, updated_written hrow hleft⟩

theorem refusal_kept (h : Apart p q) (db : Db) (a : Uuid) :
    refusal (updated db a q) a p = refusal db a p := by
  rcases updated_cases db a q with hdb | ⟨row, hrow, hdb⟩
  · rw [hdb]
  · simp only [hdb, refusal, after_lookup hrow, hrow, (clashes_kept h hrow).1]

theorem locks_kept (h : Apart p q) (db : Db) (a : Uuid) :
    updateLocks (updated db a q) a p = updateLocks db a p := by
  rcases updated_cases db a q with hdb | ⟨row, hrow, hdb⟩
  · rw [hdb]
  · simp only [hdb, updateLocks, after_lookup hrow, hrow, (clashes_kept h hrow).2]
    by_cases hsame : (after row p).email = row.email
    · rw [if_pos hsame, if_pos hsame]
    · have hq : q.email = none := by
        rcases h.2 with hp | hq
        · exact absurd (by simp [after, updatedAuthor, hp]) hsame
        · exact hq
      have hemail : (after row q).email = row.email := by simp [after, updatedAuthor, hq]
      have hnew : (after (after row q) p).email = (after row p).email := by
        rw [← after_comm h]
        simp [after, updatedAuthor, hq]
      rw [if_neg hsame, if_neg hsame, hnew, hemail]

/-- Both orders lead to the same tables. -/
theorem updated_comm (h : Apart p q) (db : Db) (a : Uuid) :
    updated (updated db a p) a q = updated (updated db a q) a p := by
  have hp := refusal_kept h db a
  have hq := refusal_kept h.symm db a
  by_cases hpleft : Empty p ∨ refusal db a p ≠ none
  · have hlast : updated (updated db a q) a p = updated db a q := updated_left (hp ▸ hpleft)
    rw [updated_left hpleft, hlast]
  by_cases hqleft : Empty q ∨ refusal db a q ≠ none
  · have hlast : updated (updated db a p) a q = updated db a p := updated_left (hq ▸ hqleft)
    rw [updated_left hqleft, hlast]
  cases hrow : db.authors.lookup a with
  | none =>
    have hrefused : refusal db a p ≠ none := by
      unfold refusal
      by_cases hstoring : Storing p
      · simp [hstoring, hrow]
      · simp [hstoring]
    exact absurd (.inr hrefused) hpleft
  | some row =>
    have hid : row.id = a := lookup_key hrow
    have hpfirst := updated_written hrow hpleft
    have hqfirst := updated_written hrow hqleft
    rw [hpfirst] at hq
    rw [hqfirst] at hp
    rw [hpfirst, hqfirst, updated_written (after_lookup hrow) (hq ▸ hqleft),
      updated_written (after_lookup hrow) (hp ▸ hpleft), after_comm h]
    simp only [Db.apply]
    rw [put_put _ (by rfl), put_put _ (by rfl)]

end Tables

section Sessions

variable {c : ℕ} {w u : World} {rs : List (Resource × LockMode)} {x : Write}

/-- A session outside a transaction: it has written nothing and holds no lock. -/
structure Resting (w : World) (c : ℕ) : Prop where
  pending : w.pending c = []
  unlocked : ∀ r m, ¬w.locks.Holds c r m

theorem Resting.rollback (h : Resting w c) : w.rollback c = w := by
  have hpending : Function.update w.pending c [] = w.pending := by
    rw [← h.pending, Function.update_eq_self]
  have hnothing : w.locks.acquireAll [] = some w.locks := rfl
  have hlocks : w.locks.release c = w.locks :=
    acquireAll_release (by simp) h.unlocked hnothing
  rw [World.rollback, hpending, hlocks]

theorem requested_holder (rs : List (Resource × LockMode)) (c : ℕ) :
    ∀ l ∈ rs.map fun r => (⟨c, r.1, r.2⟩ : Lock ℕ Resource LockMode), l.holder = c := by
  intro l hl
  obtain ⟨r, _, rfl⟩ := List.mem_map.mp hl
  rfl

/-- A transaction of one statement leaves its write behind, and no lock. -/
theorem Resting.commit (h : Resting w c) (hu : w.lock? c rs = some u) :
    (u.write c x).commit c = { w with db := w.db.apply x } := by
  obtain ⟨t, ht, rfl⟩ := Option.map_eq_some_iff.mp hu
  have hlocks : t.release c = w.locks :=
    acquireAll_release (requested_holder rs c) h.unlocked ht
  have hpending : Function.update w.pending c [] = w.pending := by
    rw [← h.pending, Function.update_eq_self]
  simp [World.commit, World.rollback, World.write, World.view, Db.applyAll, h.pending, hlocks,
    hpending]

/-- Nobody has a lock that one of these has to wait for. -/
def Free (w : World) (rs : List (Resource × LockMode)) : Prop :=
  ∀ r ∈ rs, ¬∃ l ∈ w.locks.held, l.resource = r.1 ∧ Modes.conflicts l.mode r.2 = true

instance : Decidable (Free w rs) :=
  inferInstanceAs (Decidable (∀ r ∈ rs, ¬∃ l ∈ w.locks.held, _))

theorem Resting.lock (h : Resting w c) (rs : List (Resource × LockMode)) :
    (∃ u, w.lock? c rs = some u) ↔ Free w rs := by
  have hlocks : (∃ u, w.lock? c rs = some u) ↔
      ∃ t, w.locks.acquireAll (rs.map fun r => ⟨c, r.1, r.2⟩) = some t := by
    simp [World.lock?]
  rw [hlocks, acquireAll_free (requested_holder rs c), List.forall_mem_map]
  refine forall₂_congr fun r _ => not_congr ?_
  constructor
  · rintro ⟨l, hl, _, hconflict⟩
    exact ⟨l, hl, hconflict⟩
  · rintro ⟨l, hl, hconflict⟩
    refine ⟨l, hl, ?_, hconflict⟩
    rintro rfl
    exact h.unlocked _ _ hl

end Sessions

section Alone

variable [JsonCodec] {c : ℕ} {w : World} {a : Uuid} {p : AuthorUpdate}

def refused : Outcome → Option Exc
  | .ok _ => none
  | .error exc => some exc

omit [JsonCodec] in
/-- The UPDATE of a session outside a transaction. -/
theorem execute_resting (h : Resting w c) (f : Fresh) {row : Author}
    (hrow : w.db.authors.lookup a = some row) (hempty : ¬Empty p) (hstoring : Storing p) :
    execute c f w (.updateAuthor a p.name p.email) =
      (w.lock? c (updateLocks w.db a p)).map fun u =>
        if Clashes w.db row p then (.error (.integrityError uniqueViolation), w)
        else (.ok (some (after row p)), u.write c (.putAuthor (after row p))) := by
  have hview : w.view c = w.db := view_of_pending_nil h.pending
  have hfits : (∀ n ∈ p.name, Storable nameWidth n) ∧ ∀ e ∈ p.email, Storable emailWidth e :=
    hstoring
  have hlocks : updateLocks w.db a p = if (after row p).email = row.email
      then [(.author a, .noKeyUpdate)]
      else [(.author a, .update), (.email (after row p).email, .update),
        (.email row.email, .update)] := by
    unfold updateLocks
    rw [if_neg (by simp [hempty, hstoring]), hrow]
  change execUpdateAuthor c w a p.name p.email = _
  unfold execUpdateAuthor
  rw [if_neg (not_not.mpr hfits), hview, hrow, hlocks, h.rollback]
  by_cases hsame : (after row p).email = row.email
  · have hclash : ¬Clashes w.db row p := fun hclash => hclash.1 hsame
    rw [if_pos hsame]
    refine (if_pos hsame).trans ?_
    cases w.lock? c [(.author a, .noKeyUpdate)] with
    | none => rfl
    | some u =>
      rw [Option.map_some, if_neg hclash]
      rfl
  · rw [if_neg hsame]
    refine (if_neg hsame).trans ?_
    change (w.lock? c [(.author a, .update), (.email (after row p).email, .update),
        (.email row.email, .update)]).bind (fun u => (if w.db.emailTaken (after row p).email
          then some (Except.error (.integrityError uniqueViolation), w)
          else some (Except.ok (some (after row p)), u.write c (.putAuthor (after row p))) :
            Answered (.updateAuthor a p.name p.email))) = _
    cases w.lock? c [(.author a, .update), (.email (after row p).email, .update),
        (.email row.email, .update)] with
    | none => rfl
    | some u =>
      by_cases htaken : w.db.emailTaken (after row p).email
      · have hclash : Clashes w.db row p := ⟨hsame, htaken⟩
        rw [Option.map_some, if_pos hclash]
        exact if_pos htaken
      · have hclash : ¬Clashes w.db row p := fun hclash => htaken hclash.2
        rw [Option.map_some, if_neg hclash]
        exact if_neg htaken

omit [JsonCodec] in
/-- An update that finds nothing to lock and leaves the tables. -/
theorem lock_nothing {o : Outcome} (hlocks : updateLocks w.db a p = [])
    (hupdated : updated w.db a p = w.db) : some (o, w) =
      (w.lock? c (updateLocks w.db a p)).map fun _ => (o, { w with db := updated w.db a p }) := by
  rw [hlocks, hupdated]
  rfl

theorem empty_alone (h : Resting w c) (f : Fresh) (hempty : Empty p) :
    ∃ o, refused o = refusal w.db a p ∧
      solo (H := host) c (.proceed f) (body (.updateAuthor a p)) w =
        (w.lock? c (updateLocks w.db a p)).map fun _ => (o, { w with db := updated w.db a p }) := by
  have hlocks : updateLocks w.db a p = [] := if_pos (.inl hempty)
  have hstoring : Storing p := by
    obtain ⟨hname, hemail⟩ := hempty
    simp [Storing, hname, hemail]
  have hread : execute c f w (.selectAuthor a) = some (.ok (w.db.authors.lookup a), w) := by
    change some (_, _) = _
    rw [view_of_pending_nil h.pending]
  have hclash : ∀ row, ¬Clashes w.db row p := by
    rintro row ⟨hne, _⟩
    obtain ⟨_, hemail⟩ := hempty
    exact hne (by simp [after, updatedAuthor, hemail])
  have hnone : p.name = none ∧ p.email = none := hempty
  simp only [body, updateAuthor, if_pos hnone]
  cases hrow : w.db.authors.lookup a with
  | none =>
    rw [hrow] at hread
    refine ⟨.error (authorNotFound a), ?_, ?_⟩
    · simp [refused, refusal, hstoring, hrow]
    · rw [← lock_nothing hlocks (updated_left (.inl hempty))]
      exact (solo_step hread).trans rfl
  | some row =>
    rw [hrow] at hread
    refine ⟨.ok (.author (.ofRow row)), ?_, ?_⟩
    · simp [refused, refusal, hstoring, hrow, hclash]
    · rw [← lock_nothing hlocks (updated_left (.inl hempty))]
      exact (solo_step hread).trans rfl

/-- On its own an update does what the tables say, as soon as it has its locks. -/
theorem updateAuthor_alone (h : Resting w c) (f : Fresh) (a : Uuid) (p : AuthorUpdate) :
    ∃ o, refused o = refusal w.db a p ∧
      solo (H := host) c (.proceed f) (body (.updateAuthor a p)) w =
        (w.lock? c (updateLocks w.db a p)).map fun _ => (o, { w with db := updated w.db a p }) := by
  by_cases hempty : Empty p
  · exact empty_alone h f hempty
  have hsome : ¬(p.name = none ∧ p.email = none) := hempty
  simp only [body, updateAuthor, if_neg hsome]
  by_cases hstoring : Storing p
  swap
  · have hrefused : refusal w.db a p = some .dataError := if_pos hstoring
    have hupdate :
        execute c f w (.updateAuthor a p.name p.email) = some (.error .dataError, w) := by
      refine (if_pos hstoring).trans ?_
      rw [h.rollback]
    refine ⟨.error .dataError, hrefused.symm, ?_⟩
    rw [← lock_nothing (if_pos (.inr hstoring)) (updated_left (.inr (by simp [hrefused])))]
    exact (solo_step hupdate).trans rfl
  cases hrow : w.db.authors.lookup a with
  | none =>
    have hupdate : execute c f w (.updateAuthor a p.name p.email) = some (.ok none, w) := by
      refine (if_neg (not_not.mpr hstoring)).trans ?_
      rw [view_of_pending_nil h.pending, hrow]
    refine ⟨.error (authorNotFound a), ?_, ?_⟩
    · simp [refused, refusal, hstoring, hrow]
    · rw [← lock_nothing (by simp [updateLocks, hrow]) (by simp only [updated, hrow])]
      exact (solo_step hupdate).trans rfl
  | some row =>
    have hupdate := execute_resting h f hrow hempty hstoring
    cases hlock : w.lock? c (updateLocks w.db a p) with
    | none =>
      rw [hlock] at hupdate
      have hwaiting : host.answer c (.updateAuthor a p.name p.email) (.proceed f) w = none :=
        hupdate
      cases hrefusal : refusal w.db a p with
      | none => exact ⟨.ok .none, rfl, solo_waits hwaiting⟩
      | some exc => exact ⟨.error exc, rfl, solo_waits hwaiting⟩
    | some u =>
      rw [hlock, Option.map_some] at hupdate
      by_cases hclash : Clashes w.db row p
      · have hrefused : refusal w.db a p = some (duplicateEmail (p.email.getD [])) := by
          simp [refusal, hstoring, hrow, hclash]
        have hrollback : execute c f w .rollback = some (.ok (), w) := by
          change some (_, w.rollback c) = _
          rw [h.rollback]
        rw [if_pos hclash] at hupdate
        refine ⟨.error (duplicateEmail (p.email.getD [])), hrefused.symm, ?_⟩
        rw [Option.map_some, updated_left (.inr (by simp [hrefused]))]
        refine (solo_step hupdate).trans ?_
        exact (solo_step hrollback).trans rfl
      · have hallowed : refusal w.db a p = none := by simp [refusal, hstoring, hrow, hclash]
        have hcommit : execute c f (u.write c (.putAuthor (after row p))) .commit =
            some (.ok (), { w with db := w.db.apply (.putAuthor (after row p)) }) := by
          change some (_, World.commit _ c) = _
          rw [h.commit hlock]
        rw [if_neg hclash] at hupdate
        refine ⟨.ok (.author (.ofRow (after row p))), hallowed.symm, ?_⟩
        rw [Option.map_some, updated_written hrow (by simp [hempty, hallowed])]
        refine (solo_step hupdate).trans ?_
        exact (solo_step hcommit).trans rfl

end Alone

section Orders

variable [JsonCodec] {c d : ℕ} {w : World} {p q : AuthorUpdate}

/-- Two calls on their own, one after the other: how each ends, and the tables after both. -/
def inTurn (w : World) (c d : ℕ) (f : Fresh) (q q' : Request) : Option (Outcome × Outcome × Db) :=
  (solo (H := host) c (.proceed f) (body q) w).bind fun r =>
    (solo (H := host) d (.proceed f) (body q') r.2).map fun r' => (r.1, r'.1, r'.2.db)

/-- The refusal of the first and of the second call, and the tables. -/
def verdicts (r : Outcome × Outcome × Db) : Option Exc × Option Exc × Db :=
  (refused r.1, refused r.2.1, r.2.2)

theorem inTurn_updates (hc : Resting w c) (hd : Resting w d) (f : Fresh) (a : Uuid)
    (p q : AuthorUpdate) :
    (inTurn w c d f (.updateAuthor a p) (.updateAuthor a q)).map verdicts =
      if Free w (updateLocks w.db a p) ∧ Free w (updateLocks (updated w.db a p) a q)
      then some (refusal w.db a p, refusal (updated w.db a p) a q, updated (updated w.db a p) a q)
      else none := by
  let w' : World := { w with db := updated w.db a p }
  have hd' : Resting w' d := ⟨hd.pending, hd.unlocked⟩
  obtain ⟨o, ho, hfirst⟩ := updateAuthor_alone hc f a p
  obtain ⟨o', ho', hsecond⟩ := updateAuthor_alone hd' f a q
  have hlock := hc.lock (updateLocks w.db a p)
  have hlock' := hd'.lock (updateLocks w'.db a q)
  unfold inTurn
  rw [hfirst]
  cases h : w.lock? c (updateLocks w.db a p) with
  | none =>
    have hblocked : ¬Free w (updateLocks w.db a p) := by
      rw [← hlock, h]
      rintro ⟨_, ⟨⟩⟩
    rw [if_neg fun hfree => hblocked hfree.1]
    rfl
  | some u =>
    rw [Option.map_some, Option.bind_some, hsecond]
    cases h' : w'.lock? d (updateLocks w'.db a q) with
    | none =>
      have hblocked : ¬Free w' (updateLocks w'.db a q) := by
        rw [← hlock', h']
        rintro ⟨_, ⟨⟩⟩
      rw [if_neg fun hfree => hblocked hfree.2]
      rfl
    | some u' =>
      rw [if_pos ⟨hlock.mp ⟨u, h⟩, hlock'.mp ⟨u', h'⟩⟩, ← ho]
      simp only [Option.map_some, verdicts, ho']
      rfl

/-- Updates of different fields end the same way in both orders, and lead to the same tables. -/
theorem orders_agree (h : Apart p q) (hc : Resting w c) (hd : Resting w d) (f : Fresh) (a : Uuid) :
    (inTurn w c d f (.updateAuthor a p) (.updateAuthor a q)).map verdicts =
      ((inTurn w d c f (.updateAuthor a q) (.updateAuthor a p)).map verdicts).map
        fun r => (r.2.1, r.1, r.2.2) := by
  rw [inTurn_updates hc hd, inTurn_updates hd hc, refusal_kept h, refusal_kept h.symm,
    locks_kept h, locks_kept h.symm, updated_comm h]
  by_cases hfree : Free w (updateLocks w.db a p) ∧ Free w (updateLocks w.db a q)
  · rw [if_pos hfree, if_pos hfree.symm]
    rfl
  · rw [if_neg hfree, if_neg fun hfree' => hfree hfree'.symm]
    rfl

/-- Where nothing is locked, neither call has to wait. -/
theorem inTurn_ends (hc : Resting w c) (hd : Resting w d) (hfree : w.locks.held = []) (f : Fresh)
    (a : Uuid) (p q : AuthorUpdate) :
    (inTurn w c d f (.updateAuthor a p) (.updateAuthor a q)).isSome := by
  have hall : ∀ rs, Free w rs := by
    intro rs r _
    rw [hfree]
    simp
  have hverdicts := inTurn_updates hc hd f a p q
  rw [if_pos ⟨hall _, hall _⟩] at hverdicts
  obtain ⟨r, hr, _⟩ := Option.map_eq_some_iff.mp hverdicts
  rw [hr]
  rfl

end Orders

end AuthorOrders
