import MessageService.Footprints
import MessageService.MessageTraces
import MessageService.TextCodec

/-! Where a cache entry comes from.
Only `get_message` populates the cache, with what one SELECT of a session without writes
returned. So an entry is the committed row joined with its committed author at one earlier
instant, whatever failed or was rolled back around it. -/
namespace CacheProvenance

open Programs Interleaving Models Schemas KeyedTables MessageJson Postgres Services ServiceRuns
open Transitions Statements Consistency Histories Footprints Traces MessageTraces

section Entries

variable [JsonCodec] {s : SoundDb} {ρ : Run s}

/-- Call `c` of `get_message(m)` loads `out` at instant `k`. -/
structure Loads (ρ : Run s) (c : ℕ) (m : Uuid) (out : MessageOut) (k : ℕ) : Prop where
  called : ∃ i < k, ρ.event i = .call c (.getMessage m)
  performs : ∃ x a, ρ.Performs k c (.selectMessage m) x (.ok a)
  reads : representation (ρ.store k).db m = some out

/-- A cache entry is written by a `get_message` of its key, after its load, and nothing else. -/
theorem cacheSet_origin {c l key v x r} (hp : ρ.Performs l c (.cacheSet key v) x r) :
    ∃ m out k, k < l ∧ Loads ρ c m out k ∧ key = m.str ∧ v = modelDumpJson out := by
  obtain ⟨q, b, K, _, _, i, hi, he, hs, h⟩ := performs_started hp
  have hl := hp.within.le
  by_cases hq : ∃ m, q = .getMessage m
  swap
  · have honly := h.only (never_caches (fun m hm => hq ⟨m, hm⟩))
    exact absurd rfl (honly.1 key v)
  obtain ⟨m, rfl⟩ := hq
  rcases taken_or h hl hs with ⟨ha, _⟩ | ⟨j, x₁, r₁, hij, hjl, hs, hp₁, h⟩
  · cases await_effect ha
  rcases r₁ with exc | (_ | text)
  · exact (not_reaches_await h).elim
  · rcases taken_or h hl (hs.silent hp₁ trivial) with ⟨ha, _⟩ | ⟨k, x₂, r₂, hjk, hkl, hs, hp₂, h⟩
    · cases await_effect ha
    rcases r₂ with exc | a
    · exact (not_reaches_await h).elim
    rcases load_answer hp₂ with ⟨rfl, _⟩ | ⟨row, au, rfl, hm, ha⟩
    · exact (not_reaches_await h).elim
    rw [view_committed hs] at hm ha
    refine ⟨m, ⟨.ofRow row, .ofRow au⟩, k, hkl,
      ⟨⟨i, by omega, he⟩, ⟨x₂, _, hp₂⟩, representation_some.mpr ⟨row, au, hm, ha, rfl⟩⟩, ?_⟩
    rcases taken_or h hl (hs.silent hp₂ trivial) with ⟨hset, _⟩ | ⟨_, _, r₃, _, _, _, _, h⟩
    · exact Effect.cacheSet.inj (await_effect hset)
    · rcases r₃ with exc | _
      · exact (not_reaches_await h).elim
      · exact (not_reaches_await h).elim
  · have h : ρ.Reaches c (Program.bind (validated (modelValidateJson text))
        (ExceptT.bindCont fun out => pure (.message out))) (j + 1) (.await _ K) l := h
    cases hv : modelValidateJson text with
    | none => rw [hv] at h; exact (not_reaches_await h).elim
    | some out => rw [hv] at h; exact (not_reaches_await h).elim

/-- An entry was set at an earlier instant, from a load before that. -/
theorem entry_origin {n : ℕ} {m : Uuid} {v : String} (hn : n ≤ ρ.length)
    (h : (ρ.store n).cache m.str = some v) :
    ∃ c out k, k < n ∧ Loads ρ c m out k ∧ v = modelDumpJson out := by
  rcases run_entry ρ h (Nat.zero_le n) hn with hall | ⟨l, c, x, r, _, hln, hp, _⟩
  · have h0 := hall 0 le_rfl (Nat.zero_le n)
    rw [Run.store, ρ.start] at h0; cases h0
  · obtain ⟨m', out, k, hkl, hload, hkey, rfl⟩ := cacheSet_origin hp
    obtain rfl := str_injective hkey
    exact ⟨c, out, k, by omega, hload, rfl⟩

/-- The message a reader gets is one the tables held at an instant of the past. -/
theorem getMessage_origin {c n : ℕ} {m : Uuid} {out : MessageOut}
    (h : ρ.Ended c (.getMessage m) (.ok (.message out)) n) :
    ∃ k < n, representation (ρ.store k).db m = some out := by
  obtain ⟨i, hi, he, hs, hr⟩ := ended_started h
  cases getMessage_ended hs h.1 hr with
  | hit hij hjn hp hv =>
    have ha := (performs_answer hp fun _ => rfl).1
    obtain ⟨c', out', k, hk, hload, rfl⟩ := entry_origin hp.within.le ha.symm
    rw [validate_dump] at hv
    obtain rfl := Option.some.inj hv
    exact ⟨k, by omega, hload.reads⟩
  | loaded hij hjk hkl hln hp _ hrep hset => exact ⟨_, by omega, hrep⟩

/-- A reader that finds an entry returns at once what somebody loaded before. -/
theorem hit_ended {c i j : ℕ} {m : Uuid} {x v} (hi : i < ρ.length)
    (he : ρ.event i = .call c (.getMessage m))
    (hp : ρ.Performs j c (.cacheGet m.str) x (.ok (some v))) :
    ∃ d out k, k < j ∧ Loads ρ d m out k ∧
      ρ.Ended c (.getMessage m) (.ok (.message out)) (j + 1) := by
  have hfound := (performs_answer hp fun _ => rfl).1
  obtain ⟨d, out, k, hkj, hload, rfl⟩ := entry_origin hp.within.le hfound.symm
  obtain ⟨q, b, K, hcall, hnext, i', hij, he', hs, h⟩ := performs_started hp
  obtain rfl := ρ.call_unique hi (hij.trans hp.within) he he'
  obtain rfl : Request.getMessage m = q := by rw [he] at he'; injection he'
  refine ⟨d, out, k, hkj, hload, hp.within, false, ?_⟩
  rw [hnext]
  rcases reaches_await h with ⟨ha, _⟩ | ⟨l, _, r, _, _, hp', h⟩
  · injection ha with _ hK
    have hread : K (.ok (some (modelDumpJson out))) = Program.bind
        (validated (modelValidateJson (modelDumpJson out)))
        (ExceptT.bindCont fun out => pure (.message out)) := by rw [hK]; rfl
    rw [hread, validate_dump]
    rfl
  · -- the cache is read once only
    rcases r with exc | (_ | text)
    · exact (not_reaches_await h).elim
    · rcases reaches_await h with ⟨ha, _⟩ | ⟨_, _, r, _, _, hp', h⟩
      · cases await_effect ha
      rcases r with exc | a
      · exact (not_reaches_await h).elim
      rcases load_answer hp' with ⟨rfl, _⟩ | ⟨row, au, rfl, _, _⟩
      · exact (not_reaches_await h).elim
      rcases reaches_await h with ⟨ha, _⟩ | ⟨_, _, r, _, _, _, h⟩
      · cases await_effect ha
      rcases r with exc | _
      · exact (not_reaches_await h).elim
      · exact (not_reaches_await h).elim
    · have h : ρ.Reaches c (Program.bind (validated (modelValidateJson text))
          (ExceptT.bindCont fun out => pure (.message out))) (l + 1) (.await _ K) j := h
      cases hv : modelValidateJson text with
      | none => rw [hv] at h; exact (not_reaches_await h).elim
      | some out => rw [hv] at h; exact (not_reaches_await h).elim

/-- What is cached under a message's key, and what a reader returns: the committed row and
its committed author as they were together at one earlier instant. -/
structure Provenance (ρ : Run s) (n : ℕ) : Prop where
  cached : ∀ m text, (ρ.store n).cache m.str = some text →
    ∃ k < n, ∃ row a, ρ.row k m = some row ∧ ρ.author k row.authorId = some a ∧
      modelValidateJson text = some
        ⟨⟨m, row.title, row.content, row.createdAt, row.version⟩,
          ⟨a.id, a.name, a.email, a.createdAt⟩⟩
  returned : ∀ c m out, ρ.Ended c (.getMessage m) (.ok (.message out)) n →
    ∃ k < n, ∃ row a, ρ.row k m = some row ∧ ρ.author k row.authorId = some a ∧
      out = ⟨⟨m, row.title, row.content, row.createdAt, row.version⟩,
        ⟨a.id, a.name, a.email, a.createdAt⟩⟩
  notAhead : ∀ c m out, ρ.Ended c (.getMessage m) (.ok (.message out)) n →
    ∀ row, ρ.row n m = some row → out.version ≤ row.version

theorem representation_committed {k : ℕ} {m : Uuid} {out : MessageOut}
    (h : representation (ρ.store k).db m = some out) :
    ∃ row a, ρ.row k m = some row ∧ ρ.author k row.authorId = some a ∧
      out = ⟨⟨m, row.title, row.content, row.createdAt, row.version⟩,
        ⟨a.id, a.name, a.email, a.createdAt⟩⟩ := by
  obtain ⟨row, a, hrow, ha, rfl⟩ := representation_some.mp h
  obtain rfl : row.id = m := lookup_key hrow
  exact ⟨row, a, hrow, ha, rfl⟩

theorem cache_provenance (ρ : Run s) (n : ℕ) (hn : n ≤ ρ.length) : Provenance ρ n := by
  refine ⟨?_, ?_, ?_⟩
  · intro m text h
    obtain ⟨c, out, k, hk, hload, rfl⟩ := entry_origin hn h
    obtain ⟨row, a, hrow, ha, rfl⟩ := representation_committed hload.reads
    exact ⟨k, hk, row, a, hrow, ha, validate_dump _⟩
  · intro c m out h
    obtain ⟨k, hk, hrep⟩ := getMessage_origin h
    obtain ⟨row, a, hrow, ha, hout⟩ := representation_committed hrep
    exact ⟨k, hk, row, a, hrow, ha, hout⟩
  · intro c m out h row hrow
    obtain ⟨k, hk, hrep⟩ := getMessage_origin h
    obtain ⟨old, a, hold, _, rfl⟩ := representation_committed hrep
    exact row_version_le hold hk.le hn hrow

section Reading

/-! Loads and hits, told by what a call awaits. -/

theorem loads_taking {c k : ℕ} {m : Uuid} {out : MessageOut} (h : Loads ρ c m out k) :
    ρ.taking k = some (c, .getMessage m, .selectMessage m) := by
  obtain ⟨i, hik, he⟩ := h.called
  obtain ⟨x, a, hp⟩ := h.performs
  obtain ⟨q, b, K, hcall, _, i', hik', he', _⟩ := performs_started hp
  obtain rfl := ρ.call_unique (hik.trans hp.within) (hik'.trans hp.within) he he'
  obtain rfl : Request.getMessage m = q := by rw [he] at he'; injection he'
  exact taking_of_performs hp hcall

theorem hit_taking {c j : ℕ} {m : Uuid} (hf : ρ.Faultless c) (hj : j < ρ.length)
    (htake : ρ.taking j = some (c, .getMessage m, .cacheGet m.str))
    (hentry : ((ρ.store j).cache m.str).isSome) :
    ∃ d out k, k < j ∧ Loads ρ d m out k ∧
      ρ.Ended c (.getMessage m) (.ok (.message out)) (j + 1) := by
  obtain ⟨x, r, hp, K, b, hcall⟩ := performs_of_taking hj htake
  obtain ⟨f, rfl⟩ := hf j hj x hp.event
  have hr : r = .ok ((ρ.store j).cache m.str) :=
    (congrArg Prod.fst (Option.some.inj hp.answer)).symm
  obtain ⟨v, hv⟩ := Option.isSome_iff_exists.mp hentry
  rw [hr, hv] at hp
  obtain ⟨q, b', K', hcall', _, i, hij, he, _⟩ := performs_started hp
  rw [hcall] at hcall'
  obtain ⟨rfl, _⟩ : Request.getMessage m = q ∧ _ := by simpa using hcall'
  exact hit_ended (hij.trans hj) he hp

end Reading

end Entries

section Schedules

/-- A read populates the cache, an update whose commit fails is rolled back, and the entry is
read again. -/
def failedCommit : Run oneMessage := scheduled oneMessage
  [.call 0 (.getMessage 2), act 0 0, act 0 0, act 0 0,
    .call 1 (.updateMessage 2 (second 0 zero_version)), act 1 0, act 1 0,
    .step 1 (.raise (.other "connection lost")), .close 1,
    .call 2 (.getMessage 2), act 2 0] (by decide +kernel)

theorem cache_provenance_failedCommit :
    ((failedCommit.store 11).cache (Uuid.str 2)).isSome ∧ failedCommit.row 11 2 = some hello ∧
      Provenance failedCommit 11 :=
  ⟨by decide +kernel, by decide +kernel, cache_provenance failedCommit 11 (by decide)⟩

end Schedules

end CacheProvenance
