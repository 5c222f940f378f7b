import MessageService.AuthorTraces
import MessageService.CacheProvenance
import MessageService.Commits
import MessageService.TextCodec

/-! No lost update, even through a stale cache.
Whatever a call returned of a message, and however old the entry it came from, is a row that
was committed once. An update that succeeds for that version replaces the very same row. -/
namespace LostUpdate

open Programs Interleaving Texts Models Schemas KeyedTables MessageJson Postgres Services
open ServiceRuns Statements Histories Traces MessageTraces CacheProvenance Commits

/-- The representations of messages a result contains. -/
def representations : Result → List MessageSummary
  | .messages page => page.items.map (·.toMessageSummary)
  | .message out => [out.toMessageSummary]
  | .authorDetail a => a.messages.getD []
  | .authors _ | .author _ | .none => []

theorem summary_of_representation {db : Db} {m : Uuid} {out : MessageOut}
    (h : representation db m = some out) :
    ∃ row, db.messages.lookup m = some row ∧ out.toMessageSummary = .ofRow row := by
  obtain ⟨row, a, hrow, _, rfl⟩ := representation_some.mp h
  exact ⟨row, hrow, rfl⟩

theorem ofRow_id {row : Message} {r : MessageSummary} (h : r = .ofRow row) : r.id = row.id := by
  rw [h]; rfl

section Readings

variable [JsonCodec] {s : SoundDb} {ρ : Run s}

/-- Whatever a call returns of a message was its committed row at some instant. -/
theorem returned_committed {c n : ℕ} {q : Request} {res : Result} (h : ρ.Ended c q (.ok res) n)
    {r : MessageSummary} (hr : r ∈ representations res) :
    ∃ k ≤ n, ∃ row, ρ.row k r.id = some row ∧ r = .ofRow row := by
  have hn := h.1
  obtain ⟨i, hi, he, hs, ht⟩ := ended_started h
  cases q with
  | listMessages limit offset =>
    obtain ⟨page, k, _, _, _, hk, _, rfl, hitems⟩ := listMessages_ended hs hn ht
    obtain ⟨item, hitem, rfl⟩ := List.mem_map.mp hr
    obtain ⟨row, hrow, hof⟩ := summary_of_representation (hitems item hitem)
    exact ⟨k, hk.le, row, hrow, hof⟩
  | getMessage m =>
    obtain ⟨out, rfl⟩ : ∃ out, res = .message out := by
      cases getMessage_ended hs hn ht with
      | hit => exact ⟨_, rfl⟩
      | loaded => exact ⟨_, rfl⟩
    obtain ⟨k, hk, hrep⟩ := getMessage_origin h
    obtain ⟨row, hrow, hof⟩ := summary_of_representation hrep
    obtain rfl := List.mem_singleton.mp hr
    have hid : row.id = m := lookup_key hrow
    exact ⟨k, hk.le, row, by rw [ofRow_id hof, hid]; exact hrow, hof⟩
  | createMessage p =>
    cases createMessage_ended hs hn ht with
    | created _ _ _ hln _ _ _ _ _ hrow =>
      obtain rfl := List.mem_singleton.mp hr
      exact ⟨_, hln, _, hrow, rfl⟩
  | updateMessage m p =>
    cases updateMessage_ended hs hn ht with
    | updated _ _ _ hle hen hold _ _ _ _ _ hrow _ =>
      obtain rfl := List.mem_singleton.mp hr
      have hid := lookup_key hrow
      exact ⟨_, Nat.le_trans hle hen.le, _, (congrArg _ hid).trans hrow, rfl⟩
  | deleteMessage m =>
    cases deleteMessage_ended hs hn ht with
    | deleted => cases hr
  | getAuthor id inc =>
    obtain ⟨a, k, hk, rfl, hms⟩ := AuthorTraces.getAuthor_ended hs hn ht
    cases hm : a.messages with
    | none => rw [representations, hm] at hr; cases hr
    | some ms =>
      rw [representations, hm] at hr
      obtain ⟨row, hrow, hof⟩ := hms ms hm r hr
      exact ⟨k, hk.le, row, hrow, hof⟩
  | listAuthors | createAuthor | updateAuthor | deleteAuthor | seedInitialMessage =>
    have hnone : ∀ r, (Except.ok res : Outcome) = .ok r → representations r = [] := by
      refine reaches_bind_done
        (Q := fun o : Outcome => ∀ r, o = .ok r → representations r = []) ?_ ht
      rintro (exc | a)
      · exact ⟨.error exc, rfl, fun r hr => by cases hr⟩
      · exact ⟨_, rfl, fun r hr => by rw [← Except.ok.inj hr]; rfl⟩
    rw [hnone res rfl] at hr
    cases hr

/-- Two readings of one message at one version are readings of one row. -/
theorem reading_determined {c n j : ℕ} {q : Request} {res : Result} {r : MessageSummary}
    {row : Message} (h : ρ.Ended c q (.ok res) n) (hr : r ∈ representations res)
    (hj : j ≤ ρ.length) (hrow : ρ.row j r.id = some row) (hv : row.version = r.version) :
    r = .ofRow row := by
  obtain ⟨k, hk, read, hread, hof⟩ := returned_committed h hr
  have hrv : r.version = read.version := by rw [hof]; rfl
  have hsame : read = row :=
    row_determined (hk.trans h.1) hj hread hrow (hrv.symm.trans hv.symm)
  rw [hof, hsame]

/-- `update_message(m, p)` of call `d` changes the row of `m` at instant `k`. -/
structure Patches (ρ : Run s) (m : Uuid) (d : ℕ) (p : MessageUpdate) (k : ℕ) : Prop where
  called : ∃ i < k, ρ.event i = .call d (.updateMessage m p)
  within : k < ρ.length
  acts : (ρ.event k).caller = d
  changes : ρ.row (k + 1) m ≠ ρ.row k m

/-- Every update of `m` that takes effect writes the content somebody was given, incremented,
and is guarded by the version that came with it. -/
def Increments (ρ : Run s) (m : Uuid) (value : String → ℕ) : Prop :=
  ∀ d p k, Patches ρ m d p k → ∃ c q res n, ρ.Ended c q (.ok res) n ∧
    ∃ r ∈ representations res, r.id = m ∧ r.version = p.version ∧
      value (string p.content) = value r.content + 1

/-- The first committed row of `m` has version 0 and content 0. -/
def StartsAtZero (ρ : Run s) (m : Uuid) (value : String → ℕ) : Prop :=
  ∀ n row, n ≤ ρ.length → ρ.row n m = some row → (∀ k < n, ρ.row k m = none) →
    row.version = 0 ∧ value row.content = 0

theorem counter_step {m : Uuid} {value : String → ℕ} (hinc : Increments ρ m value) {k : ℕ}
    (hk : k < ρ.length) {old new : Message} (hold : ρ.row k m = some old)
    (hnew : ρ.row (k + 1) m = some new) (h : value old.content = old.version) :
    value new.content = new.version := by
  by_cases hne : new = old
  · rw [hne]; exact h
  obtain ⟨d, p, i, j, x, y, r, hij, hjk, hcall, _, hcommit, hread, hv, rfl⟩ :=
    row_updated hk hold hnew hne
  have hpatch : Patches ρ m d p k := by
    refine ⟨⟨i, by omega, hcall⟩, hk, by rw [hcommit.event]; rfl, ?_⟩
    rw [hold, hnew]
    exact fun heq => hne (Option.some.inj heq)
  obtain ⟨c, q, res, n, hended, r', hr', hid, hrv, hval⟩ := hinc d p k hpatch
  have hof := reading_determined hended hr' hk.le (by rw [hid]; exact hold) (hv.trans hrv.symm)
  have hcontent : r'.content = old.content := by rw [hof]; rfl
  calc value (string p.content) = value r'.content + 1 := hval
    _ = old.version + 1 := by rw [hcontent, h]

/-- The counter of a message equals its version in every committed state. -/
theorem counter_run {m : Uuid} {value : String → ℕ} (h0 : StartsAtZero ρ m value)
    (hinc : Increments ρ m value) {n : ℕ} (hn : n ≤ ρ.length) {row : Message}
    (hrow : ρ.row n m = some row) : value row.content = row.version := by
  induction n generalizing row with
  | zero =>
    obtain ⟨hv, hc⟩ := h0 0 row hn hrow (by omega)
    rw [hv, hc]
  | succ n ih =>
    cases hold : ρ.row n m with
    | some old => exact counter_step hinc hn hold hrow (ih (by omega) hold)
    | none =>
      have hfirst : ∀ k < n + 1, ρ.row k m = none := by
        intro k hk
        cases hk' : ρ.row k m with
        | none => rfl
        | some r =>
          have hdead := row_dead hk' (by omega : k ≤ n) (by omega) hold
          have habsent := (run_dead hdead (by omega : n ≤ n + 1) hn).absent
          exact absurd (habsent.symm.trans hrow) (by simp)
      obtain ⟨hv, hc⟩ := h0 (n + 1) row hn hrow hfirst
      rw [hv, hc]

/-- An update that succeeds replaces exactly the row its version was read from; so clients that
read, increment and write back under the version they read never lose an increment. -/
theorem no_lost_update (ρ : Run s) (m : Uuid) :
    (∀ c q res n, ρ.Ended c q (.ok res) n → ∀ r ∈ representations res, r.id = m →
      ∀ d p out n', ρ.Ended d (.updateMessage m p) (.ok out) n' → p.version = r.version →
      ∃ j x row, ρ.Performs j d (updateOf m p) x (.ok (some m)) ∧ ρ.row j m = some row ∧
        row.title = r.title ∧ row.content = r.content ∧ row.version = r.version) ∧
    ∀ value : String → ℕ, StartsAtZero ρ m value → Increments ρ m value →
      ∀ n ≤ ρ.length, ∀ row, ρ.row n m = some row → value row.content = row.version := by
  refine ⟨?_, fun value h0 hinc n hn row hrow => counter_run h0 hinc hn hrow⟩
  intro c q res n h r hr hid d p out n' hd hv
  obtain ⟨i, hi, he, hs, ht⟩ := ended_started hd
  cases updateMessage_ended hs hd.1 ht with
  | updated hij _ _ _ _ hold hversion _ hp _ _ _ _ =>
    have hof := reading_determined h hr hp.within.le (by rw [hid]; exact hold)
      (hversion.trans hv)
    exact ⟨_, _, _, hp, hold, by rw [hof]; rfl, by rw [hof]; rfl, by rw [hof]; rfl⟩

end Readings

section Schedules

/-- A client reads the message and writes it back under the version it read. -/
def readThenWrite : Run oneMessage := scheduled oneMessage
  [.call 0 (.getMessage 2), act 0 0, act 0 0, act 0 0,
    .call 1 (.updateMessage 2 (second 0 zero_version)), act 1 0, act 1 0, act 1 0, act 1 0]
  (by decide +kernel)

def isUpdate : Event host → Bool
  | .call _ (.updateMessage _ _) => true
  | _ => false

/-- The contents of the schedule, counted. -/
def count (content : String) : ℕ := if content = "Second" then 1 else 0

theorem read_ended : readThenWrite.Ended 0 (.getMessage 2)
    (.ok (.message ⟨.ofRow hello, .ofRow ada⟩)) 4 := by decide +kernel

theorem no_lost_update_readThenWrite :
    (∃ j x row, readThenWrite.Performs j 1 (updateOf 2 (second 0 zero_version)) x (.ok (some 2)) ∧
      readThenWrite.row j 2 = some row ∧ row.title = "Hello" ∧ row.content = "First" ∧
      row.version = 0) ∧
    ∀ n ≤ readThenWrite.length, ∀ row, readThenWrite.row n 2 = some row →
      count row.content = row.version := by
  have hread : MessageSummary.ofRow hello ∈
      representations (.message ⟨.ofRow hello, .ofRow ada⟩) := List.mem_singleton.mpr rfl
  refine ⟨(no_lost_update readThenWrite 2).1 0 _ _ 4 read_ended _ hread rfl 1
    (second 0 zero_version) (.message ⟨.ofRow { hello with content := "Second", version := 1 },
      .ofRow ada⟩) 9 (by decide +kernel) rfl, ?_⟩
  refine (no_lost_update readThenWrite 2).2 count ?_ ?_
  · intro n row hn hrow hfirst
    rcases n with _ | n
    · have h0 : readThenWrite.row 0 2 = some hello := by decide +kernel
      obtain rfl := Option.some.inj (h0.symm.trans hrow)
      decide
    · have hnone := hfirst 0 (Nat.succ_pos n)
      exact absurd hnone (by decide +kernel)
  · rintro d p k ⟨⟨i, hik, he⟩, hk, hcall, hne⟩
    have honce : ∀ i < 9, isUpdate (readThenWrite.event i) → i = 4 := by decide +kernel
    obtain rfl := honce i (hik.trans hk) (by rw [he]; rfl)
    cases he
    exact ⟨0, _, _, 4, read_ended, _, hread, rfl, rfl, by decide⟩

end Schedules

end LostUpdate
