import MessageService.RoundTrips
import MessageService.TextCodec

/-! The version counter and its column.
The column is a 32-bit integer, and no run leaves it: the UPDATE that would is refused. But a
payload may carry the last value of the column, and then the call fails for it. -/
namespace VersionColumn

open Programs Interleaving Extensions Texts Models Schemas MessageJson KeyedTables LockTables
open Postgres Services ServiceRuns Transitions Statements Consistency Histories Footprints
open Traces MessageTraces StoredStrings StoredValues RoundTrips

section Column

variable {c : ℕ} {w w' : World}

def Bounded : Write → Prop
  | .putMessage m => m.version ≤ maxInt4
  | _ => True

structure InColumn (w : World) : Prop where
  db : ∀ id m, w.db.messages.lookup id = some m → m.version ≤ maxInt4
  pending : ∀ c, ∀ x ∈ w.pending c, Bounded x

/-- An UPDATE writes a version of the column, an INSERT the first one. -/
theorem bounded_statement (h : Statement c w w') (hp : ∀ x ∈ w.pending c, Bounded x) :
    ∀ x ∈ w'.pending c, Bounded x := by
  have wrote : ∀ (u : World) (y : Write), u.pending = w.pending → Bounded y →
      ∀ x ∈ (u.write c y).pending c, Bounded x := by
    intro u y hu hy x hx
    rw [write_pending, if_pos rfl, hu] at hx
    rcases List.mem_append.mp hx with hx | hx
    · exact hp x hx
    · obtain rfl := List.mem_singleton.mp hx
      exact hy
  cases h with
  | same => exact hp
  | lock hl =>
    rw [(lock?_frame hl).2.1]
    exact hp
  | insertAuthor _ hl _ => exact wrote _ _ (lock?_frame hl).2.1 trivial
  | renameAuthor _ _ _ _ hl => exact wrote _ _ (lock?_frame hl).2.1 trivial
  | moveAuthor _ _ _ hl _ => exact wrote _ _ (lock?_frame hl).2.1 trivial
  | deleteAuthor _ hl _ => exact wrote _ _ (lock?_frame hl).2.1 trivial
  | insertMessage _ hzero _ hl =>
    exact wrote _ _ (lock?_frame hl).2.1 (by simp [Bounded, hzero])
  | updateMessage _ _ _ _ _ hmax hl => exact wrote _ _ (lock?_frame hl).2.1 hmax
  | deleteMessage _ hl => exact wrote _ _ (lock?_frame hl).2.1 trivial

theorem inColumn_transition {e : Effect} (h : InColumn w) (ht : Transition c w e w') :
    InColumn w' := by
  constructor
  · rcases transition_db ht with hdb | ⟨_, rfl⟩
    · rw [hdb]
      exact h.db
    · intro id m hm
      rcases viewed_row hm with hdb | hown
      · exact h.db id m hdb
      · exact h.pending c _ hown
  · intro d
    by_cases hd : d = c
    · subst hd
      cases ht with
      | statement hs => exact bounded_statement hs (h.pending d)
      | commit => simp [commit_pending]
      | rollback => simp [rollback_pending]
      | cacheSet => exact h.pending d
      | cacheEvict => exact h.pending d
    · rw [transition_pending ht hd]
      exact h.pending d

variable [JsonCodec] {s : SoundDb} {ρ : Run s} {n : ℕ}

theorem run_inColumn (h0 : ∀ id m, s.messages.lookup id = some m → m.version ≤ maxInt4)
    (hn : n ≤ ρ.length) : InColumn (ρ.store n) := by
  refine run_persists ρ (P := InColumn) (i := 0) ?_ ?_ (Nat.zero_le n) hn
  · rw [Run.store, ρ.start]
    constructor
    · exact h0
    · intro d x hx
      cases hx
  · exact fun c e w w' _ h ht => inColumn_transition h ht

end Column

section Calls

variable [JsonCodec] {s : SoundDb} {ρ : Run s} {c n : ℕ} {m : Uuid} {p : MessageUpdate}
variable {o : Outcome}

/-- What an `update_message` call may end with: a message, a NotFoundError or a ConflictError. -/
def Answers : Outcome → Prop
  | .ok (.message _) | .error (.notFoundError _) | .error (.conflictError _) => True
  | _ => False

/-- The UPDATE of call `c` finds its row at the last version of the column. -/
def AtLast (ρ : Run s) (c : ℕ) (m : Uuid) (p : MessageUpdate) : Prop :=
  p.version = maxInt4 ∧ ∃ j x r row, ρ.Performs j c (updateOf m p) x r ∧
    ρ.row j m = some row ∧ row.version = maxInt4

def RepresentableUpdate (p : MessageUpdate) : Prop :=
  (∀ t ∈ p.title, Representable t) ∧ Representable p.content

omit [JsonCodec] in
theorem storable_update : ((∀ t ∈ p.title, Storable titleWidth t) ∧
    Storable contentWidth p.content) ↔ RepresentableUpdate p := by
  have htitle : ∀ t ∈ p.title, (Storable titleWidth t ↔ Representable t) := fun t ht =>
    accepted_fits_iff (p.title_checked t ht)
  have hcontent : Storable contentWidth p.content ↔ Representable p.content :=
    accepted_fits_iff p.content_checked
  constructor
  · rintro ⟨ht, hc⟩
    exact ⟨fun t h => (htitle t h).mp (ht t h), hcontent.mp hc⟩
  · rintro ⟨ht, hc⟩
    exact ⟨fun t h => (htitle t h).mpr (ht t h), hcontent.mpr hc⟩

/-- An UPDATE that does not fail could store its strings. -/
theorem update_stores {j : ℕ} {x : Choice} {a : Option Uuid}
    (hp : ρ.Performs j c (updateOf m p) x (.ok a)) : RepresentableUpdate p := by
  obtain ⟨f, hx⟩ := performs_ok hp
  exact storable_update.mp (updateMessage_stores hx)

theorem answers_iff (hf : ρ.Faultless c) (h : ρ.Ended c (.updateMessage m p) o n) :
    Answers o ↔ RepresentableUpdate p ∧ ¬AtLast ρ c m p := by
  obtain ⟨i, hi, he, hsession, hr⟩ := ended_started h
  cases updateMessage_ended hsession h.1 hr with
  | failed hfailed =>
    constructor
    · intro hanswer
      rcases faultless_failed hf hfailed with rfl | ⟨_, rfl⟩
      · exact hanswer.elim
      · exact hanswer.elim
    · rintro ⟨hplain, hlast⟩
      obtain ⟨j, x, _, _, hp, hwhy⟩ := update_refused hf (hi.trans_le h.1) he hfailed
      rcases hwhy with hunfit | ⟨row, hrow, hversion, hover⟩
      · exact absurd (storable_update.mpr hplain) hunfit
      · have hle := p.version_le
        exact absurd ⟨by omega, j, x, _, row, hp, hrow, by omega⟩ hlast
  | unevicted _ _ _ _ _ _ _ _ hp => exact (faultless_error hf hp).1.elim
  | @missed j k l x x' exc _ _ _ _ hne hp _ hexc _ =>
    constructor
    · intro _
      refine ⟨update_stores hp, ?_⟩
      rintro ⟨hversion, j', x', r, row, hp', hrow, hmax⟩
      obtain rfl := effect_once hp hp'
      exact hne row hrow (hmax.trans hversion.symm)
    · intro _
      cases hl : ρ.row l m with
      | none =>
        rw [hl] at hexc
        rw [hexc]
        trivial
      | some row =>
        rw [hl] at hexc
        rw [hexc]
        trivial
  | @updated j k l e x x' x'' row au _ _ _ _ _ hrow _ hle hp _ _ _ _ =>
    constructor
    · intro _
      refine ⟨update_stores hp, ?_⟩
      rintro ⟨_, j', x', r, row', hp', hrow', hmax⟩
      obtain rfl := effect_once hp hp'
      obtain rfl := Option.some.inj (hrow.symm.trans hrow')
      omega
    · exact fun _ => trivial

/-- The column is never left; a call that works on it fails exactly when it would leave it, or
cannot store its strings. -/
structure VersionFits (ρ : Run s) : Prop where
  column : ∀ n ≤ ρ.length, ∀ m row, ρ.row n m = some row → row.version ≤ maxInt4
  increment : ∀ n ≤ ρ.length, ∀ m row (p : MessageUpdate), ρ.row n m = some row →
    row.version = p.version → (row.version + 1 ≤ maxInt4 ↔ p.version ≠ maxInt4)
  calls : ∀ c m p o n, ρ.Faultless c → ρ.Ended c (.updateMessage m p) o n →
    (Answers o ↔ RepresentableUpdate p ∧ ¬AtLast ρ c m p)

theorem version_fits (ρ : Run .empty) : VersionFits ρ := by
  have hcolumn : ∀ n ≤ ρ.length, ∀ m row, ρ.row n m = some row → row.version ≤ maxInt4 := by
    intro n hn m row hrow
    have h0 : ∀ id m, SoundDb.empty.messages.lookup id = some m → m.version ≤ maxInt4 := by
      intro id m h
      cases h
    exact (run_inColumn h0 hn).db m row hrow
  constructor
  · exact hcolumn
  · intro n hn m row p hrow hversion
    have hle := hcolumn n hn m row hrow
    constructor
    · omega
    · omega
  · intro c m p o n hf h
    exact answers_iff hf h

end Calls

section Climb

variable [JsonCodec]

/-- A run without faults whose message 1 has got to version `v`, with no session at work. -/
structure Climbed (ρ : Run .empty) (v : ℕ) : Prop where
  faultless : ∀ k < ρ.length, faultless (ρ.event k) = true
  row : ∃ row, ρ.row ρ.length 1 = some row ∧ row.version = v
  unlocked : ∀ d r mode, ¬(ρ.store ρ.length).locks.Holds d r mode

theorem completes_faultless {ρ σ : Run .empty} {c : ℕ} {f : Fresh} {q : Request} {o : Outcome}
    {w : World} (h : ∀ k < ρ.length, faultless (ρ.event k) = true) (hσ : Extends σ ρ ρ.length)
    (hcompletes : Completes σ ρ.length c (.proceed f) q o w) :
    ∀ k < σ.length, faultless (σ.event k) = true := by
  intro k hk
  rcases Nat.lt_trichotomy k ρ.length with hlt | rfl | hgt
  · rw [hσ.event k hlt]
    exact h k hlt
  · rw [hcompletes.event]
    rfl
  · rw [hcompletes.steps k hgt hk]
    rfl

omit [JsonCodec] in
theorem second_fits (version : ℕ) (h : version ≤ maxInt4) :
    (∀ t ∈ (second version h).title, Storable titleWidth t) ∧
      Storable contentWidth (second version h).content := by
  constructor
  · rintro t ⟨⟩
  · change Storable contentWidth (text "Second")
    decide

theorem climb_step {ρ : Run .empty} {v : ℕ} (h : Climbed ρ v) (hv : v < maxInt4) :
    ∃ σ : Run .empty, Climbed σ (v + 1) := by
  obtain ⟨row, hrow, rfl⟩ := h.row
  obtain ⟨b, hunused⟩ := unused_call (ρ := ρ) (fun _ => rfl) le_rfl
  have hfree := hunused b le_rfl
  have hid : row.id = 1 := lookup_key hrow
  obtain ⟨a, ha⟩ := (run_consistent ρ le_rfl).committed_foreign_keys row (by rw [hid]; exact hrow)
  have hunlocked : Unlocked (ρ.store ρ.length) b (.message 1) := by
    rintro d _ (hd | hd)
    · exact h.unlocked _ _ _ hd
    · exact h.unlocked _ _ _ hd
  obtain ⟨w, hsolo, hdb, hlocks⟩ := update_alone (f := ⟨0, ada.createdAt⟩)
    (p := second row.version hv.le) (pending_unstarted hfree le_rfl) hrow rfl hv
    (second_fits _ _) ha hunlocked
  obtain ⟨σ, hextends, hcompletes⟩ :=
    solo_completes (q := Request.updateMessage 1 (second row.version hv.le)) le_rfl hfree hsolo
  have hstore : Run.store σ σ.length = w := hcompletes.shared
  refine ⟨σ, completes_faultless h.faultless hextends hcompletes,
    ⟨updatedMessage row (text "Second") none, ?_, rfl⟩, ?_⟩
  · have hnew : (updatedMessage row (text "Second") none).id = 1 := hid
    rw [Run.row, hstore, hdb, apply_message]
    change ((Write.putMessage (updatedMessage row (text "Second") none)).message? 1).getD _ = _
    rw [message?_put hnew]
    rfl
  · intro d r mode hheld
    rw [hstore] at hheld
    exact h.unlocked d r mode (hlocks d r mode hheld).1

theorem climb_run {ρ : Run .empty} (h : Climbed ρ 0) (v : ℕ) (hv : v ≤ maxInt4) :
    ∃ σ : Run .empty, Climbed σ v := by
  induction v with
  | zero => exact ⟨ρ, h⟩
  | succ v ih =>
    obtain ⟨σ, hσ⟩ := ih (by omega)
    exact climb_step hσ (by omega)

/-- At the last version the UPDATE is refused, whoever sends the version that was read. -/
theorem overflow_alone {c : ℕ} {f : Fresh} {w : World} {m : Uuid} {p : MessageUpdate}
    {row : Message} (hpending : w.pending c = []) (hrow : w.db.messages.lookup m = some row)
    (hversion : row.version = p.version) (hmax : row.version = maxInt4)
    (hfits : (∀ t ∈ p.title, Storable titleWidth t) ∧ Storable contentWidth p.content)
    (hfree : Unlocked w c (.message m)) :
    solo (H := host) c (.proceed f) (body (.updateMessage m p)) w =
      some (.error .dataError, w.rollback c) := by
  obtain ⟨u, hu⟩ := lock_unlocked hfree
  have hupdate : execute c f w (updateOf m p) = some (.error .dataError, w.rollback c) := by
    change execUpdateMessage c w m p.version p.content p.title = _
    unfold execUpdateMessage
    rw [if_neg (not_not.mpr hfits), view_of_pending_nil hpending, hrow]
    simp only
    rw [if_neg (not_not.mpr hversion), hu, Option.bind_eq_bind, Option.bind_some,
      if_pos (by omega)]
    rfl
  exact (solo_step hupdate).trans rfl

end Climb

section Schedules

def counter : AuthorCreate :=
  ⟨text "Counter", text "counter@x.org", by decide +kernel, by decide +kernel⟩

def counted : MessageCreate :=
  ⟨text "Counted", text "Zero", 0, by decide +kernel, by decide +kernel⟩

/-- An author and a message, in tables that were empty. -/
def firstMessage : Run .empty := scheduled .empty
  [.call 0 (.createAuthor counter), act 0 0, act 0 0,
    .call 1 (.createMessage counted), act 1 0, act 1 1, act 1 0] (by decide +kernel)

theorem firstMessage_climbed : Climbed firstMessage 0 := by
  have hheld : (firstMessage.store 7).locks.held = [] := by decide +kernel
  refine ⟨by decide +kernel, ⟨⟨1, "Counted", "Zero", 0, insertedAt, 0⟩, ?_, rfl⟩, ?_⟩
  · decide +kernel
  · intro d r mode h
    change (⟨d, r, mode⟩ : Lock ℕ Resource LockMode) ∈ (firstMessage.store 7).locks.held at h
    rw [hheld] at h
    cases h

/-- From empty tables a message gets to the last version, and its next update is a data error. -/
theorem last_version_fails : ∃ (ρ : Run .empty) (n c : ℕ) (row : Message), ρ.FaultFree ∧
    n ≤ ρ.length ∧ ρ.row n 1 = some row ∧ row.version = (second maxInt4 le_rfl).version ∧
    ρ.Ended c (.updateMessage 1 (second maxInt4 le_rfl)) (.error .dataError) ρ.length := by
  obtain ⟨ρ, h⟩ := climb_run firstMessage_climbed maxInt4 le_rfl
  obtain ⟨row, hrow, hversion⟩ := h.row
  obtain ⟨b, hunused⟩ := unused_call (ρ := ρ) (fun _ => rfl) le_rfl
  have hfree := hunused b le_rfl
  have hunlocked : Unlocked (ρ.store ρ.length) b (.message 1) := by
    rintro d _ (hd | hd)
    · exact h.unlocked _ _ _ hd
    · exact h.unlocked _ _ _ hd
  have hsolo := overflow_alone (f := ⟨0, ada.createdAt⟩) (p := second maxInt4 le_rfl)
    (pending_unstarted hfree le_rfl) hrow hversion hversion (second_fits _ _) hunlocked
  obtain ⟨σ, hextends, hcompletes⟩ :=
    solo_completes (q := Request.updateMessage 1 (second maxInt4 le_rfl)) le_rfl hfree hsolo
  refine ⟨σ, ρ.length, b, row, ?_, hextends.long, ?_, hversion, le_rfl, ?_⟩
  · exact faultFree_of_events σ (completes_faultless h.faultless hextends hcompletes)
  · rw [Run.row, Run.store, hextends.state _ le_rfl]
    exact hrow
  · obtain ⟨closed, hcalls⟩ := hcompletes.calls
    refine ⟨closed, ?_⟩
    rw [hcalls, Function.update_self]

end Schedules

end VersionColumn
