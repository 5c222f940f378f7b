import MessageService.Commits
import MessageService.TextCodec

/-! Writes on one message behave as if executed one at a time.
The commits of its updates form one chain of versions, a deletion ends the chain, and a call
that is turned away had an instant of its own at which it was right to be. -/
namespace SerialWrites

open Programs Interleaving Texts Models Schemas KeyedTables MessageJson Postgres Services
open ServiceRuns Statements Consistency Histories Traces MessageTraces Commits

section Chains

variable [JsonCodec] {s : SoundDb} {ρ : Run s} {m : Uuid}

/-- The payload version of the `update_message(m)` call that takes its commit at instant `k`. -/
def commitVersion (ρ : Run s) (m : Uuid) (k : ℕ) : Option ℕ :=
  match ρ.taking k with
  | some (_, .updateMessage i p, .commit) => if i = m then some p.version else none
  | _ => none

/-- The payload versions of the updates of `m` committed before `n`, in commit order. -/
def updateVersions (ρ : Run s) (m : Uuid) (n : ℕ) : List ℕ :=
  (List.range n).filterMap (commitVersion ρ m)

/-- An id passed to a write on `m` belongs to a row already committed, or to no row ever. -/
def KnownIds (ρ : Run s) (m : Uuid) : Prop :=
  ∀ i < ρ.length, ∀ c q, ρ.event i = .call c q →
    q = .deleteMessage m ∨ (∃ p, q = .updateMessage m p) →
    (∃ k ≤ i, ∃ row, ρ.row k m = some row) ∨ ∀ k ≤ ρ.length, ρ.row k m = none

theorem commitVersion_some (hf : ρ.FaultFree) {k v : ℕ} (hk : k < ρ.length)
    (h : commitVersion ρ m k = some v) :
    ∃ c p i x, i < k ∧ ρ.event i = .call c (.updateMessage m p) ∧ p.version = v ∧
      ρ.Performs k c .commit x (.ok ()) := by
  unfold commitVersion at h
  split at h
  swap
  · cases h
  rename_i c m' p htake
  split at h
  swap
  · cases h
  rename_i hm
  subst hm
  obtain ⟨x, r, hp, K, b, hcall⟩ := performs_of_taking hk htake
  obtain ⟨q, b', K', hcall', _, i, hi, he, _, _⟩ := performs_started hp
  rw [hcall] at hcall'
  obtain ⟨rfl, _⟩ : .updateMessage m' p = q ∧ _ := by simpa using hcall'
  obtain ⟨f, rfl⟩ := hf c k hk x hp.event
  have hr : r = .ok () := (congrArg Prod.fst (Option.some.inj hp.answer)).symm
  rw [hr] at hp
  exact ⟨c, p, i, _, hi, he, Option.some.inj h, hp⟩

theorem commitVersion_of_commit {c i k : ℕ} {p : MessageUpdate} {x}
    (he : ρ.event i = .call c (.updateMessage m p)) (hi : i < ρ.length)
    (hp : ρ.Performs k c .commit x (.ok ())) : commitVersion ρ m k = some p.version := by
  obtain ⟨q, b, K, hcall, _, i', hi', he', _, _⟩ := performs_started hp
  obtain rfl := ρ.call_unique hi (hi'.trans hp.within) he he'
  obtain rfl : Request.updateMessage m p = q := by rw [he] at he'; injection he'
  unfold commitVersion
  rw [taking_of_performs hp hcall]
  simp only [if_true]

/-- What the chain of committed versions says of the row at an instant. -/
structure Chain (ρ : Run s) (m : Uuid) (n v : ℕ) : Prop where
  versions : updateVersions ρ m n = List.range' v (updateVersions ρ m n).length
  row : updateVersions ρ m n ≠ [] → Dead (ρ.store n) m ∨
    ∃ row, ρ.row n m = some row ∧ row.version = v + (updateVersions ρ m n).length

theorem updateVersions_succ (ρ : Run s) (m : Uuid) (n : ℕ) :
    updateVersions ρ m (n + 1) = updateVersions ρ m n ++ (commitVersion ρ m n).toList := by
  unfold updateVersions
  rw [List.range_succ, List.filterMap_append]
  cases h : commitVersion ρ m n with
  | none => simp [h]
  | some v => simp [h]

/-- Between commits of updates the row stays, or is deleted. -/
theorem row_kept {k : ℕ} (hk : k < ρ.length) {row : Message} (hrow : ρ.row k m = some row)
    (hf : ρ.FaultFree) (hnone : commitVersion ρ m k = none) :
    Dead (ρ.store (k + 1)) m ∨ ρ.row (k + 1) m = some row := by
  cases hnew : ρ.row (k + 1) m with
  | none => exact Or.inl (row_dead hrow (Nat.le_succ k) hk hnew)
  | some new =>
    by_cases hne : new = row
    · rw [hne]; exact Or.inr rfl
    obtain ⟨c, p, i, j, _, y, r, hij, hjk, he, _, hp, _, _, _⟩ := row_updated hk hrow hnew hne
    obtain ⟨f, rfl⟩ := hf c k hk y hp.event
    have hr : r = .ok () := (congrArg Prod.fst (Option.some.inj hp.answer)).symm
    rw [hr] at hp
    rw [commitVersion_of_commit he (by omega) hp] at hnone
    cases hnone

theorem chain_step (hf : ρ.FaultFree) {n v : ℕ} (hn : n < ρ.length) (h : Chain ρ m n v) :
    ∃ u, Chain ρ m (n + 1) u := by
  cases hc : commitVersion ρ m n with
  | none =>
    have hsame : updateVersions ρ m (n + 1) = updateVersions ρ m n := by
      rw [updateVersions_succ, hc]; simp
    refine ⟨v, by rw [hsame]; exact h.versions, ?_⟩
    intro hne
    rw [hsame] at hne ⊢
    rcases h.row hne with hd | ⟨row, hrow, hv⟩
    · exact Or.inl (run_dead hd (Nat.le_succ n) hn)
    · rcases row_kept hn hrow hf hc with hd | hrow
      · exact Or.inl hd
      · exact Or.inr ⟨row, hrow, hv⟩
  | some u =>
    obtain ⟨c, p, i, x, hi, he, hpv, hp⟩ := commitVersion_some hf hn hc
    obtain ⟨j, y, row, _, _, _, _, hrow, hv, hnew⟩ := update_commit he (by omega) hp
    have hsnoc : updateVersions ρ m (n + 1) = updateVersions ρ m n ++ [u] := by
      rw [updateVersions_succ, hc]; rfl
    by_cases hempty : updateVersions ρ m n = []
    · refine ⟨u, ?_, ?_⟩
      · rw [hsnoc, hempty]; rfl
      · intro _
        refine Or.inr ⟨_, hnew, ?_⟩
        rw [hsnoc, hempty]
        change row.version + 1 = u + 1
        omega
    · rcases h.row hempty with hd | ⟨row', hrow', hv'⟩
      · exact absurd (hd.absent.symm.trans hrow) (by simp)
      obtain rfl : row' = row := Option.some.inj (hrow'.symm.trans hrow)
      have hu : u = v + (updateVersions ρ m n).length := by omega
      refine ⟨v, ?_, ?_⟩
      · rw [hsnoc, List.length_append, List.length_singleton, List.range'_1_concat, ← hu,
          ← h.versions]
      · intro _
        refine Or.inr ⟨_, hnew, ?_⟩
        rw [hsnoc, List.length_append, List.length_singleton]
        change row'.version + 1 = _
        omega

theorem chain_run (hf : ρ.FaultFree) {n : ℕ} (hn : n ≤ ρ.length) : ∃ v, Chain ρ m n v := by
  induction n with
  | zero => exact ⟨0, rfl, fun h => absurd rfl h⟩
  | succ n ih =>
    obtain ⟨v, h⟩ := ih (by omega)
    exact chain_step hf hn h

/-- What it means for the writes on `m` to behave as if executed one at a time. -/
structure OneAtATime (ρ : Run s) (m : Uuid) : Prop where
  versions : ∃ v, updateVersions ρ m ρ.length =
    List.range' v (updateVersions ρ m ρ.length).length
  /-- A successful update has committed; it replaced a row of its own version. -/
  updated : ∀ c p res n, ρ.Ended c (.updateMessage m p) (.ok res) n →
    ∃ k < n, ∃ row out, (ρ.event k).caller = c ∧ commitVersion ρ m k = some p.version ∧
      ρ.row k m = some row ∧ row.version = p.version ∧ res = .message out ∧ out.id = m ∧
      out.version = p.version + 1 ∧ text out.content = p.content ∧
      text out.title = p.title.getD (text row.title)
  deletedOnce : ∀ c c' r r' n n', ρ.Ended c (.deleteMessage m) (.ok r) n →
    ρ.Ended c' (.deleteMessage m) (.ok r') n' → c = c'
  /-- A successful delete has committed, and no update commits from then on. -/
  deletedLast : ∀ c r n, ρ.Ended c (.deleteMessage m) (.ok r) n →
    ∃ k < n, (ρ.event k).caller = c ∧ (∃ row, ρ.row k m = some row) ∧
      ρ.row (k + 1) m = none ∧ ∀ k', k ≤ k' → k' < ρ.length → commitVersion ρ m k' = none
  conflicted : ∀ c p d n, ρ.Ended c (.updateMessage m p) (.error (.conflictError d)) n →
    ∃ i j, ρ.event i = .call c (.updateMessage m p) ∧ i < j ∧ j < n ∧
      ∃ row, ρ.row j m = some row ∧ row.version ≠ p.version
  missing : ∀ c q d n, q = .deleteMessage m ∨ (∃ p, q = .updateMessage m p) →
    ρ.Ended c q (.error (.notFoundError d)) n →
    ∃ i j, ρ.event i = .call c q ∧ i < j ∧ j < n ∧ ρ.row j m = none
  unchanged : ∀ c q exc n, q = .deleteMessage m ∨ (∃ p, q = .updateMessage m p) →
    (∃ d, exc = .notFoundError d ∨ exc = .conflictError d) → ρ.Ended c q (.error exc) n →
    Unchanging ρ c
  asserted : ∀ c q n, q = .deleteMessage m ∨ (∃ p, q = .updateMessage m p) →
    ¬ρ.Ended c q (.error .assertionError) n

section Endings

variable {c n : ℕ}

/-- Without faults an update ends in success, in a miss, or with an error of the store. -/
theorem update_ending (hf : ρ.Faultless c) {p : MessageUpdate} {exc : Exc} {i : ℕ}
    (h : UpdateTrace ρ c m p i n (.error exc))
    (hkind : exc ≠ .dataError ∧ ∀ sqlstate, exc ≠ .integrityError sqlstate) :
    ∃ j l, i ≤ j ∧ j < l ∧ l < n ∧ (∀ row, ρ.row j m = some row → row.version ≠ p.version) ∧
      exc = (match ρ.row l m with
        | none => messageNotFound m
        | some _ => staleVersion m p.version) ∧ Calm ρ c i n := by
  cases h with
  | failed h =>
    rcases faultless_failed hf h with h | ⟨q, h⟩
    · exact absurd h hkind.1
    · exact absurd h (hkind.2 q)
  | unevicted _ _ _ _ _ _ _ _ hp => exact (faultless_error hf hp).1.elim
  | missed hij hjk hkl hln hmiss _ _ hexc hcalm =>
    exact ⟨_, _, hij, by omega, hln, hmiss, hexc, hcalm⟩

theorem delete_ending (hf : ρ.Faultless c) {exc : Exc} {i : ℕ}
    (h : DeleteTrace ρ c m i n (.error exc))
    (hkind : exc ≠ .dataError ∧ ∀ sqlstate, exc ≠ .integrityError sqlstate) :
    ∃ j, i ≤ j ∧ j < n ∧ ρ.row j m = none ∧ exc = messageNotFound m ∧ Calm ρ c i n := by
  cases h with
  | failed h =>
    rcases faultless_failed hf h with h | ⟨q, h⟩
    · exact absurd h hkind.1
    · exact absurd h (hkind.2 q)
  | unevicted _ _ _ _ _ _ _ hp => exact (faultless_error hf hp).1.elim
  | absent hij hjk hkn hrow _ hcalm => exact ⟨_, hij, by omega, hrow, rfl, hcalm⟩

theorem update_returned {p : MessageUpdate} {res : Result}
    (h : ρ.Ended c (.updateMessage m p) (.ok res) n) :
    ∃ k < n, ∃ row out, (ρ.event k).caller = c ∧ commitVersion ρ m k = some p.version ∧
      ρ.row k m = some row ∧ row.version = p.version ∧ res = .message out ∧ out.id = m ∧
      out.version = p.version + 1 ∧ text out.content = p.content ∧
      text out.title = p.title.getD (text row.title) := by
  obtain ⟨i, hi, he, hs, ht⟩ := ended_started h
  have hn := h.1
  cases updateMessage_ended hs hn ht with
  | @updated j k l e x x' x'' row au hij hjk hkl hle hen hrow hv _ hupdate _ hp _ _ =>
    obtain ⟨f, hx⟩ := performs_ok hupdate
    obtain ⟨htitle, hcontent⟩ := updateMessage_stores hx
    obtain ⟨_, _, row', _, _, _, _, hnow, hv', _⟩ := update_commit he (by omega) hp
    obtain rfl : row' = row := row_determined hp.within.le (by omega) hnow hrow (by omega)
    exact ⟨l, by omega, row', _, by rw [hp.event]; rfl, commitVersion_of_commit he (by omega) hp,
      hnow, hv, rfl, (lookup_key hrow : row'.id = m), congrArg (· + 1) hv,
      text_string hcontent.2.1, text_getD fun t ht => (htitle t ht).2.1⟩

theorem delete_returned {r : Result} (h : ρ.Ended c (.deleteMessage m) (.ok r) n) :
    ∃ k < n, ∃ x, ρ.Performs k c .commit x (.ok ()) ∧
      lastMessage ((ρ.store k).pending c) m = some none ∧ Dead (ρ.store (k + 1)) m ∧
      ∃ row, ρ.row k m = some row := by
  obtain ⟨i, hi, he, hs, ht⟩ := ended_started h
  have hn := h.1
  cases deleteMessage_ended hs hn ht with
  | @deleted j k l x x' x'' row hij hjk hkl hln hrow hp hlast hcommit hdead hevict _ =>
    refine ⟨k, by omega, x', hcommit, hlast, hdead, ?_⟩
    cases hk : ρ.row k m with
    | some row' => exact ⟨row', rfl⟩
    | none =>
      have hd := row_dead hrow hjk.le hcommit.within.le hk
      rw [dead_last hd] at hlast
      cases hlast

theorem deleted_once {c c' n n' : ℕ} {r r' : Result}
    (h : ρ.Ended c (.deleteMessage m) (.ok r) n)
    (h' : ρ.Ended c' (.deleteMessage m) (.ok r') n') : c = c' := by
  obtain ⟨k, _, x, hp, hlast, hdead, _⟩ := delete_returned h
  obtain ⟨k', _, x', hp', hlast', hdead', _⟩ := delete_returned h'
  have later : ∀ {d a b}, Dead (ρ.store (a + 1)) m → a < b → b < ρ.length →
      lastMessage ((ρ.store b).pending d) m = some none → False := by
    intro d a b hd hab hb hl
    rw [dead_last (run_dead hd hab hb.le)] at hl
    cases hl
  rcases Nat.lt_trichotomy k k' with hlt | rfl | hlt
  · exact (later hdead hlt hp'.within hlast').elim
  · exact (hp.effect_unique hp').1
  · exact (later hdead' hlt hp.within hlast).elim

end Endings

theorem writes_one_at_a_time (ρ : Run s) (m : Uuid) (hf : ρ.FaultFree) (hk : KnownIds ρ m) :
    OneAtATime ρ m where
  versions := by
    obtain ⟨v, h⟩ := chain_run hf (m := m) le_rfl
    exact ⟨v, h.versions⟩
  updated c p res n h := update_returned h
  deletedOnce c c' r r' n n' h h' := deleted_once h h'
  deletedLast c r n h := by
    obtain ⟨k, hkn, x, hp, _, hdead, hrow⟩ := delete_returned h
    refine ⟨k, hkn, by rw [hp.event]; rfl, hrow, hdead.absent, ?_⟩
    intro k' hkk' hk'
    cases hc : commitVersion ρ m k' with
    | none => rfl
    | some v =>
      obtain ⟨d, p, i, x', hi, he, _, hp'⟩ := commitVersion_some hf hk' hc
      obtain ⟨_, _, row, _, _, _, _, hrow', _, hnew⟩ := update_commit he (by omega) hp'
      rcases Nat.eq_or_lt_of_le hkk' with rfl | hlt
      · exact absurd (hdead.absent.symm.trans hnew) (by simp)
      · exact absurd ((run_dead hdead hlt hk'.le).absent.symm.trans hrow') (by simp)
  conflicted c p d n h := by
    obtain ⟨i, hi, he, hs, ht⟩ := ended_started h
    have hn := h.1
    obtain ⟨j, l, hij, hjl, hln, hmiss, hexc, _⟩ :=
      update_ending (hf _) (updateMessage_ended hs hn ht) ⟨by simp, by simp⟩
    refine ⟨i, j, he, by omega, by omega, ?_⟩
    cases hrow : ρ.row j m with
    | some row => exact ⟨row, rfl, hmiss row hrow⟩
    | none =>
      -- the row was there before the call, so it is gone for good: not a conflict
      cases hl : ρ.row l m with
      | none => rw [hl] at hexc; cases hexc
      | some row =>
        rcases hk i (by omega) c _ he (Or.inr ⟨p, rfl⟩) with ⟨a, hai, old, hold⟩ | hnever
        · have hdead := row_dead hold (by omega : a ≤ j) (by omega) hrow
          exact absurd ((run_dead hdead hjl.le (by omega)).absent.symm.trans hl) (by simp)
        · exact absurd ((hnever l (by omega)).symm.trans hl) (by simp)
  missing c q d n hq h := by
    obtain ⟨i, hi, he, hs, ht⟩ := ended_started h
    have hn := h.1
    rcases hq with rfl | ⟨p, rfl⟩
    · obtain ⟨j, hij, hjn, hrow, _, _⟩ :=
        delete_ending (hf _) (deleteMessage_ended hs hn ht) ⟨by simp, by simp⟩
      exact ⟨i, j, he, by omega, hjn, hrow⟩
    · obtain ⟨j, l, hij, hjl, hln, _, hexc, _⟩ :=
        update_ending (hf _) (updateMessage_ended hs hn ht) ⟨by simp, by simp⟩
      refine ⟨i, l, he, by omega, hln, ?_⟩
      cases hrow : ρ.row l m with
      | none => rfl
      | some row => rw [hrow] at hexc; cases hexc
  unchanged c q exc n hq hexc h := by
    obtain ⟨i, hi, he, hs, ht⟩ := ended_started h
    have hn := h.1
    have hkind : exc ≠ .dataError ∧ ∀ sqlstate, exc ≠ .integrityError sqlstate := by
      obtain ⟨d, rfl | rfl⟩ := hexc <;> exact ⟨by simp, by simp⟩
    rcases hq with rfl | ⟨p, rfl⟩
    · obtain ⟨_, _, _, _, _, hcalm⟩ := delete_ending (hf _) (deleteMessage_ended hs hn ht) hkind
      exact unchanging h hi he hcalm
    · obtain ⟨_, _, _, _, _, _, _, hcalm⟩ :=
        update_ending (hf _) (updateMessage_ended hs hn ht) hkind
      exact unchanging h hi he hcalm
  asserted c q n hq h := by
    obtain ⟨i, hi, he, hs, ht⟩ := ended_started h
    have hn := h.1
    rcases hq with rfl | ⟨p, rfl⟩
    · obtain ⟨_, _, _, _, hexc, _⟩ :=
        delete_ending (hf _) (deleteMessage_ended hs hn ht) ⟨by simp, by simp⟩
      cases hexc
    · obtain ⟨_, l, _, _, _, _, hexc, _⟩ :=
        update_ending (hf _) (updateMessage_ended hs hn ht) ⟨by simp, by simp⟩
      cases hrow : ρ.row l m with
      | none => rw [hrow] at hexc; cases hexc
      | some row => rw [hrow] at hexc; cases hexc

end Chains

section Schedules

/-- Two updates read the same version; the second waits for the first and misses. -/
def sameVersion : Run oneMessage := scheduled oneMessage
  [.call 0 (.updateMessage 2 (second 0 zero_version)),
    .call 1 (.updateMessage 2 (second 0 zero_version)), .call 2 (.deleteMessage 2),
    act 0 0, act 0 0, act 0 0, act 1 0, act 1 0, act 0 0, act 1 0, act 1 0,
    act 2 0, act 2 0, act 2 0] (by decide +kernel)

theorem writes_one_at_a_time_sameVersion :
    updateVersions sameVersion 2 sameVersion.length = [0] ∧
    sameVersion.Ended 1 (.updateMessage 2 (second 0 zero_version))
      (.error (staleVersion 2 0)) 14 ∧ OneAtATime sameVersion 2 := by
  refine ⟨by decide +kernel, by decide +kernel, writes_one_at_a_time sameVersion 2 ?_ ?_⟩
  · exact faultFree_of_events _ (by decide +kernel)
  · intro i _ c q _ _
    exact Or.inl ⟨0, Nat.zero_le i, hello, by decide +kernel⟩

end Schedules

end SerialWrites
