import MessageService.CacheProvenance
import MessageService.Commits
import MessageService.FailedWrites
import MessageService.TextCodec
import Mathlib.Data.Set.Card

/-! A conflict heals a stale cache.
Since the last write by anyone else the row is what every load returns, so only a reader
that loaded before can still put a stale entry into the cache. A conflict evicts the entry
it came from, so every further one is charged to a slow reader of its own. -/
namespace ConflictHeals

open Programs Interleaving Models Schemas KeyedTables MessageJson Postgres Services ServiceRuns
open Statements Consistency Histories Footprints Traces MessageTraces CacheProvenance Commits
open FailedWrites

section Loops

variable [JsonCodec] {s : SoundDb}

/-- One client repeats `get_message(m)` and `update_message(m)` with the version it has just
read, one call after the other, all of them since instant `t`. -/
structure RetryLoop (ρ : Run s) (m : Uuid) (t rounds : ℕ) where
  reader : ℕ → ℕ
  writer : ℕ → ℕ
  payload : ℕ → MessageUpdate
  read : ℕ → MessageOut
  outcome : ℕ → Outcome
  readAt : ℕ → ℕ
  writeAt : ℕ → ℕ
  doneAt : ℕ → ℕ
  order : ∀ r < rounds, t ≤ readAt r ∧ readAt r < writeAt r ∧ writeAt r < doneAt r
  inTurn : ∀ r, r + 1 < rounds → doneAt r ≤ readAt (r + 1)
  reads : ∀ r < rounds, ρ.event (readAt r) = .call (reader r) (.getMessage m)
  returned : ∀ r < rounds,
    ρ.Ended (reader r) (.getMessage m) (.ok (.message (read r))) (writeAt r)
  guarded : ∀ r < rounds, (payload r).version = (read r).version
  writes : ∀ r < rounds, ρ.event (writeAt r) = .call (writer r) (.updateMessage m (payload r))
  answered : ∀ r < rounds,
    ρ.Ended (writer r) (.updateMessage m (payload r)) (outcome r) (doneAt r)

variable {ρ : Run s} {m : Uuid} {t rounds : ℕ}

def isConflict : Outcome → Bool
  | .error (.conflictError _) => true
  | _ => false

/-- The rounds before `n` that the client spent on a conflict. -/
def RetryLoop.conflicts (L : RetryLoop ρ m t rounds) (n : ℕ) : Finset ℕ :=
  (Finset.range n).filter fun r => isConflict (L.outcome r)

/-- Since `t` nobody but the client changes the row. -/
def RetryLoop.LastWriter (L : RetryLoop ρ m t rounds) : Prop :=
  ∀ k, t ≤ k → k < ρ.length → ρ.row (k + 1) m ≠ ρ.row k m →
    ∃ r < rounds, (ρ.event k).caller = L.writer r

/-- The readers of `m` that loaded before `t` and populate the cache after it, before `n`. -/
def slowReaders (ρ : Run s) (m : Uuid) (t n : ℕ) : Set ℕ :=
  {c | ∃ k l out v x r, Loads ρ c m out k ∧ k < t ∧ t ≤ l ∧ l < n ∧
    ρ.Performs l c (.cacheSet m.str v) x r}

theorem slowReaders_finite (ρ : Run s) (m : Uuid) (t n : ℕ) : (slowReaders ρ m t n).Finite := by
  refine ((Finset.range n).image fun l => (ρ.event l).caller).finite_toSet.subset ?_
  rintro c ⟨_, l, _, _, _, _, _, _, _, hln, hp⟩
  simp only [Finset.coe_image, Set.mem_image, Finset.mem_coe, Finset.mem_range]
  exact ⟨l, hln, by rw [hp.event]; rfl⟩

theorem slowReaders_mono {n n' : ℕ} (h : n ≤ n') : slowReaders ρ m t n ⊆ slowReaders ρ m t n' := by
  rintro c ⟨k, l, out, v, x, r, hload, hkt, htl, hln, hp⟩
  exact ⟨k, l, out, v, x, r, hload, hkt, htl, hln.trans_le h, hp⟩

/-- A call populates the cache once, as the last thing it does. -/
theorem sets_once {c l l' key key' v v' x x' r r'} (hp : ρ.Performs l c (.cacheSet key v) x r)
    (hp' : ρ.Performs l' c (.cacheSet key' v') x' r') : l = l' := by
  have ended : ∀ {l key v x r}, ρ.Performs l c (.cacheSet key v) x r →
      ∃ q o, (ρ.state (l + 1)).calls c = some ⟨q, .done o, false⟩ := by
    intro l key v x r hp
    obtain ⟨q, b, K, _, hnext, i, _, _, _, hr⟩ := performs_started hp
    obtain ⟨o, ho⟩ := (hr.last (caches_last q)).1 ⟨key, v, rfl⟩ r
    exact ⟨q, o, by rw [hnext, ho]⟩
  obtain ⟨q, o, h⟩ := ended hp
  obtain ⟨q', o', h'⟩ := ended hp'
  have := ρ.done_before h hp'
  have := ρ.done_before h' hp
  omega

/-- A load of a committed row has its version. -/
theorem representation_version {k : ℕ} {row : Message} {out : MessageOut}
    (hrow : ρ.row k m = some row) (h : representation (ρ.store k).db m = some out) :
    out.version = row.version := by
  obtain ⟨row', a, hrow', _, rfl⟩ := representation_some.mp h
  obtain rfl : row = row' := Option.some.inj (hrow.symm.trans hrow')
  rfl

end Loops

section Rounds

variable [JsonCodec] {s : SoundDb} {ρ : Run s} {m : Uuid} {t rounds : ℕ}
variable {L : RetryLoop ρ m t rounds} {row : Message}

theorem RetryLoop.later (L : RetryLoop ρ m t rounds) {r r' : ℕ} (h : r < r') (hr : r' < rounds) :
    L.doneAt r ≤ L.readAt r' := by
  induction r', h using Nat.le_induction with
  | base => exact L.inTurn r hr
  | succ r' h ih =>
    have := ih (by omega)
    have := L.order r' (by omega)
    have := L.inTurn r' hr
    omega

/-- The row is changed at a commit of one of the client's updates. -/
theorem changed_by_writer (hlast : L.LastWriter) {k : ℕ} (htk : t ≤ k) (hk : k < ρ.length)
    (hne : ρ.row (k + 1) m ≠ ρ.row k m) :
    ∃ r < rounds, L.writeAt r < k ∧ ∃ x a, ρ.Performs k (L.writer r) .commit x a := by
  obtain ⟨r, hr, hcall⟩ := hlast k htk hk hne
  rcases run_db ρ hk with hdb | ⟨c, x, a, hp, _⟩
  · exact absurd (by rw [Run.row, Run.row, hdb]) hne
  · obtain rfl : c = L.writer r := by rw [hp.event] at hcall; exact hcall
    have := L.order r hr
    have := (L.answered r hr).1
    exact ⟨r, hr, performs_after (by omega) (L.writes r hr) hp, x, a, hp⟩

theorem row_present (hf : ∀ r < rounds, ρ.Faultless (L.writer r)) (hlast : L.LastWriter)
    (hrow : ρ.row t m = some row) {k : ℕ} (htk : t ≤ k) (hk : k ≤ ρ.length) :
    ∃ row, ρ.row k m = some row := by
  induction k, htk using Nat.le_induction with
  | base => exact ⟨row, hrow⟩
  | succ k htk ih =>
    obtain ⟨old, hold⟩ := ih (by omega)
    by_cases hsame : ρ.row (k + 1) m = ρ.row k m
    · exact ⟨old, hsame.trans hold⟩
    obtain ⟨r, hr, hwk, x, a, hp⟩ := changed_by_writer hlast htk hk hsame
    obtain ⟨f, rfl⟩ := hf r hr k hk x hp.event
    obtain rfl : a = .ok () := (congrArg Prod.fst (Option.some.inj hp.answer)).symm
    obtain ⟨_, _, _, _, _, _, _, _, _, hnew⟩ := update_commit (L.writes r hr) (by omega) hp
    exact ⟨_, hnew⟩

/-- Until the first success the row is as the last writer left it. -/
theorem row_constant (hf : ∀ r < rounds, ρ.Faultless (L.writer r)) (hlast : L.LastWriter)
    (hrow : ρ.row t m = some row) {n k : ℕ} (hfail : ∀ r < n, ∀ res, L.outcome r ≠ .ok res)
    (htk : t ≤ k) (hk : k ≤ ρ.length) (hbefore : ∀ r, n ≤ r → r < rounds → k ≤ L.writeAt r) :
    ρ.row k m = some row := by
  induction k, htk using Nat.le_induction with
  | base => exact hrow
  | succ k htk ih =>
    rw [← ih (by omega) fun r hn hr => (hbefore r hn hr).trans' (Nat.le_succ k)]
    by_contra hne
    obtain ⟨r, hr, hwk, x, a, hp⟩ := changed_by_writer hlast htk hk hne
    rcases Nat.lt_or_ge r n with hrn | hnr
    · have hended := L.answered r hr
      cases ho : L.outcome r with
      | ok res => exact hfail r hrn res ho
      | error exc =>
        rw [ho] at hended
        have hdb := faultless_unchanging (q := .updateMessage m _) (hf r hr) trivial hended k hk
          (by rw [hp.event]; rfl)
        exact hne (by rw [Run.row, Run.row, hdb])
    · have := hbefore r hnr hr
      omega

/-- Without a success the client's update of round `r` misses, or is refused. -/
theorem round_failed (hf : ∀ r < rounds, ρ.Faultless (L.writer r)) (hlast : L.LastWriter)
    (hrow : ρ.row t m = some row) {r : ℕ} (hr : r < rounds) {exc : Exc}
    (ho : L.outcome r = .error exc) :
    (∃ j e x, L.writeAt r < j ∧ j < e ∧ e < L.doneAt r ∧
      (∀ row, ρ.row j m = some row → row.version ≠ (L.payload r).version) ∧
      ρ.Performs e (L.writer r) (.cacheEvict m.str) x (.ok ()) ∧
      isConflict (L.outcome r) = true) ∨
    (isConflict (L.outcome r) = false ∧ (∀ d, exc ≠ .notFoundError d) ∧
      ∃ j, L.writeAt r < j ∧ j < L.doneAt r ∧
      (¬((∀ t ∈ (L.payload r).title, Storable titleWidth t) ∧
          Storable contentWidth (L.payload r).content) ∨
        ∃ row, ρ.row j m = some row ∧ row.version = (L.payload r).version ∧
          maxInt4 < row.version + 1)) := by
  have hended := L.answered r hr
  have hwrites := L.writes r hr
  obtain ⟨hread, hwrite, hdone⟩ := L.order r hr
  have hlen := hended.1
  rw [ho] at hended ⊢
  obtain ⟨i, hi, he, hs, ht⟩ := ended_started hended
  obtain rfl := ρ.call_unique (by omega) (by omega) hwrites he
  cases updateMessage_ended hs hlen ht with
  | failed hfail =>
    obtain ⟨j, _, hij, hjn, _, hwhy⟩ := update_refused (hf r hr) (by omega) he hfail
    refine Or.inr ⟨?_, ?_, j, hij, hjn, hwhy⟩
    · rcases faultless_failed (hf r hr) hfail with rfl | ⟨q, rfl⟩
      · rfl
      · rfl
    · intro d hd
      rcases faultless_failed (hf r hr) hfail with rfl | ⟨q, rfl⟩
      · cases hd
      · cases hd
  | unevicted _ _ _ _ _ _ _ _ hp => exact (faultless_error (hf r hr) hp).1.elim
  | @missed j e l x x' _ hij hje hel hln hmiss _ hp hexc _ =>
    obtain ⟨now, hnow⟩ := row_present hf hlast hrow (by omega : t ≤ l) (by omega)
    rw [hnow] at hexc
    exact Or.inl ⟨j, e, x', by omega, hje, by omega, hmiss, hp, by rw [hexc]; rfl⟩

/-- A round that ends in a conflict read a stale entry, and evicted it. -/
theorem conflict_round (hf : ∀ r < rounds, ρ.Faultless (L.writer r)) (hlast : L.LastWriter)
    (hrow : ρ.row t m = some row) {r : ℕ} (hr : r < rounds)
    (hconst : ∀ k, t ≤ k → k ≤ L.doneAt r → ρ.row k m = some row)
    (hconf : isConflict (L.outcome r) = true) :
    ∃ j e v out, L.readAt r < j ∧ j < e ∧ e < L.doneAt r ∧ (ρ.store j).cache m.str = some v ∧
      modelValidateJson v = some out ∧ out.version ≠ row.version ∧
      (ρ.store (e + 1)).cache m.str = none := by
  obtain ⟨htr, hrw, hwd⟩ := L.order r hr
  have hlen := (L.answered r hr).1
  obtain ⟨exc, ho⟩ : ∃ exc, L.outcome r = .error exc := by
    cases ho : L.outcome r with
    | error exc => exact ⟨exc, rfl⟩
    | ok res => rw [ho] at hconf; cases hconf
  obtain ⟨j, e, x, hwj, hje, hed, hmiss, hp, _⟩ | ⟨hnot, _⟩ := round_failed hf hlast hrow hr ho
  swap
  · rw [hnot] at hconf; cases hconf
  have hstale : (L.read r).version ≠ row.version := by
    have := hmiss row (hconst j (by omega) (by omega))
    rw [L.guarded r hr] at this
    exact this.symm
  have hevicted : (ρ.store (e + 1)).cache m.str = none := by
    rw [evicted hp, Function.update_self]
  obtain ⟨i, hi, he, hs, ht⟩ := ended_started (L.returned r hr)
  obtain rfl := ρ.call_unique (by omega) (by omega) (L.reads r hr) he
  cases getMessage_ended hs (by omega) ht with
  | @hit g x v _ hig hgn hp hv =>
    have hfound := (performs_answer hp fun _ => rfl).1
    exact ⟨g, e, v, L.read r, by omega, by omega, hed, hfound.symm, hv, hstale, hevicted⟩
  | @loaded _ k _ _ _ _ _ _ hij hjk hkl hln _ _ hrep _ =>
    -- a load since `t` is not stale
    exact absurd (representation_version (hconst k (by omega) (by omega)) hrep) hstale

/-- What the conflicts so far are charged to: all but one of them to slow readers that had
populated the cache by the last eviction. -/
def Charged (L : RetryLoop ρ m t rounds) (n : ℕ) : Prop :=
  (L.conflicts n).card = 0 ∨
  ∃ e, t ≤ e ∧ e < ρ.length ∧ (∀ r, n ≤ r → r < rounds → e < L.readAt r) ∧
    (ρ.store (e + 1)).cache m.str = none ∧
    (L.conflicts n).card ≤ (slowReaders ρ m t e).ncard + 1

theorem conflicts_succ (L : RetryLoop ρ m t rounds) (n : ℕ) : (L.conflicts (n + 1)).card =
    (L.conflicts n).card + if isConflict (L.outcome n) = true then 1 else 0 := by
  unfold RetryLoop.conflicts
  rw [Finset.range_add_one, Finset.filter_insert]
  split
  · rw [Finset.card_insert_of_notMem (by simp)]
  · rfl

theorem charged_step (hf : ∀ r < rounds, ρ.Faultless (L.writer r)) (hlast : L.LastWriter)
    (hrow : ρ.row t m = some row) {n : ℕ} (hn : n < rounds)
    (hfail : ∀ r < n + 1, ∀ res, L.outcome r ≠ .ok res) (h : Charged L n) : Charged L (n + 1) := by
  by_cases hconf : isConflict (L.outcome n) = true
  swap
  · unfold Charged
    rw [conflicts_succ, if_neg hconf]
    rcases h with h | ⟨e, hte, hel, hnext, hc⟩
    · exact Or.inl h
    · exact Or.inr ⟨e, hte, hel, fun r hr => hnext r (by omega), hc⟩
  have hlen := (L.answered n hn).1
  have hconst : ∀ k, t ≤ k → k ≤ L.doneAt n → ρ.row k m = some row := by
    intro k htk hk
    refine row_constant hf hlast hrow hfail htk (by omega) ?_
    intro r hnr hr
    have := L.later hnr hr
    have := L.order r hr
    omega
  obtain ⟨j, e', v, out, hrj, hje, hed, hfound, hv, hstale, hevicted⟩ :=
    conflict_round hf hlast hrow hn hconst hconf
  have htr := (L.order n hn).1
  refine Or.inr ⟨e', by omega, by omega, ?_, hevicted, ?_⟩
  · intro r hnr hr
    have := L.later hnr hr
    omega
  rw [conflicts_succ, if_pos hconf]
  rcases h with h | ⟨e, hte, hel, hnext, hempty, hcard⟩
  · omega
  -- the entry was evicted before, so a slow reader has put it there since
  have hej := hnext n le_rfl hn
  rcases run_entry ρ hfound (by omega : e + 1 ≤ j) (by omega)
    with hall | ⟨l, c, x, a, hel', hlj, hp, _⟩
  · rw [hall (e + 1) le_rfl (by omega)] at hempty; cases hempty
  obtain ⟨m', out', k, hkl, hload, hkey, rfl⟩ := cacheSet_origin hp
  obtain rfl := str_injective hkey
  rw [validate_dump] at hv
  obtain rfl := Option.some.inj hv
  have hkt : k < t := by
    by_contra htk
    exact hstale (representation_version (hconst k (by omega) (by omega)) hload.reads)
  have hnew : c ∉ slowReaders ρ m t e := by
    rintro ⟨_, l', _, _, _, _, _, _, _, hl'e, hp'⟩
    have := sets_once hp hp'
    omega
  have hsub : insert c (slowReaders ρ m t e) ⊆ slowReaders ρ m t e' := by
    rintro d (rfl | hd)
    · exact ⟨k, l, _, _, x, a, hload, hkt, by omega, by omega, hp⟩
    · exact slowReaders_mono (by omega) hd
  have := Set.ncard_le_ncard hsub (slowReaders_finite ρ m t e')
  rw [Set.ncard_insert_of_notMem hnew (slowReaders_finite ρ m t e)] at this
  omega

theorem charged_run (hf : ∀ r < rounds, ρ.Faultless (L.writer r)) (hlast : L.LastWriter)
    (hrow : ρ.row t m = some row) {n : ℕ} (hn : n ≤ rounds)
    (hfail : ∀ r < n, ∀ res, L.outcome r ≠ .ok res) : Charged L n := by
  induction n with
  | zero => exact Or.inl rfl
  | succ n ih =>
    exact charged_step hf hlast hrow hn hfail
      (ih (by omega) fun r hr => hfail r (by omega))

/-- What the client can rely on. -/
structure Heals (L : RetryLoop ρ m t rounds) : Prop where
  /-- Before the first success there are at most as many conflicts as slow readers, and one. -/
  conflicts : ∀ n ≤ rounds, (∀ r < n, ∀ res, L.outcome r ≠ .ok res) →
    (L.conflicts n).card ≤ (slowReaders ρ m t ρ.length).ncard + 1
  /-- With payloads that can be stored, one round more is a success. -/
  succeeds : (∀ r < rounds, (∀ u ∈ (L.payload r).title, Storable titleWidth u) ∧
      Storable contentWidth (L.payload r).content) →
    (slowReaders ρ m t ρ.length).ncard + 1 < rounds → ∃ r < rounds, ∃ res, L.outcome r = .ok res
  found : ∀ r < rounds, ∀ d, L.outcome r ≠ .error (.notFoundError d)
  /-- A read never fails either. -/
  readable : ∀ i c o n, t ≤ i → i < ρ.length → ρ.event i = .call c (.getMessage m) →
    ρ.Faultless c → ρ.Ended c (.getMessage m) o n → ∃ out, o = .ok (.message out)

theorem conflicts_bounded (hf : ∀ r < rounds, ρ.Faultless (L.writer r)) (hlast : L.LastWriter)
    (hrow : ρ.row t m = some row) {n : ℕ} (hn : n ≤ rounds)
    (hfail : ∀ r < n, ∀ res, L.outcome r ≠ .ok res) :
    (L.conflicts n).card ≤ (slowReaders ρ m t ρ.length).ncard + 1 := by
  rcases charged_run hf hlast hrow hn hfail with h | ⟨e, _, hel, _, _, hcard⟩
  · omega
  · have := Set.ncard_le_ncard (slowReaders_mono (ρ := ρ) (m := m) (t := t) hel.le)
      (slowReaders_finite ρ m t ρ.length)
    omega

/-- A conflict heals the cache, whatever entry it held. -/
theorem conflicts_heal (ρ : Run s) (m : Uuid) (t rounds : ℕ) (L : RetryLoop ρ m t rounds)
    (hf : ∀ r < rounds, ρ.Faultless (L.writer r)) (row : Message)
    (hrow : ρ.row t m = some row) (hmax : row.version < maxInt4) (hlast : L.LastWriter) :
    Heals L where
  conflicts n hn hfail := conflicts_bounded hf hlast hrow hn hfail
  succeeds hstore hmany := by
    by_contra hnone
    have hfail : ∀ r < rounds, ∀ res, L.outcome r ≠ .ok res :=
      fun r hr res ho => hnone ⟨r, hr, res, ho⟩
    have hall : L.conflicts rounds = Finset.range rounds := by
      refine Finset.filter_true_of_mem ?_
      intro r hr
      have hr := Finset.mem_range.mp hr
      cases ho : L.outcome r with
      | ok res => exact absurd ho (hfail r hr res)
      | error exc =>
        obtain ⟨_, _, _, _, _, _, _, _, hconf⟩ | ⟨_, _, j, hwj, hjd, hwhy⟩ :=
          round_failed hf hlast hrow hr ho
        · rw [ho] at hconf; exact hconf
        rcases hwhy with hwhy | ⟨row', hrow', _, hgt⟩
        · exact absurd (hstore r hr) hwhy
        have := L.order r hr
        have := (L.answered r hr).1
        have hconst := row_constant hf hlast hrow hfail (by omega : t ≤ j) (by omega)
          fun r hn hr => by omega
        obtain rfl : row = row' := Option.some.inj (hconst.symm.trans hrow')
        omega
    have := conflicts_bounded hf hlast hrow le_rfl hfail
    rw [hall, Finset.card_range] at this
    omega
  found r hr d ho := by
    obtain ⟨_, _, _, _, _, _, _, _, hconf⟩ | ⟨_, hne, _⟩ := round_failed hf hlast hrow hr ho
    · rw [ho] at hconf; cases hconf
    · exact hne d rfl
  readable i c o n hti hi he hfc hended := by
    obtain ⟨i', hin, he', hs, ht⟩ := ended_started hended
    have hn := hended.1
    obtain rfl := ρ.call_unique hi (hin.trans_le hn) he he'
    cases getMessage_ended hs hn ht with
    | failed hfail =>
      obtain ⟨e, j, x, _, _, hp, _, _⟩ := hfail
      exact (reading_infallible (q := .getMessage m) hfc trivial hi he hp).elim
    | hit => exact ⟨_, rfl⟩
    | corrupt hij hjn hp hv =>
      have hfound := (performs_answer hp fun _ => rfl).1
      obtain ⟨_, out, _, _, _, rfl⟩ := entry_origin hp.within.le hfound.symm
      rw [validate_dump] at hv
      cases hv
    | @absent j k _ _ hij hjk hkn _ _ hgone =>
      obtain ⟨now, hnow⟩ := row_present hf hlast hrow (by omega : t ≤ k) (by omega)
      exact absurd (hgone.symm.trans hnow) (by simp)
    | loaded => exact ⟨_, rfl⟩

end Rounds

section Schedules

/-- A reader loads the message and populates the cache only after another client's update has
committed and evicted. The next client reads that entry, conflicts, reads again and succeeds. -/
def slowReader : Run oneMessage := scheduled oneMessage
  [.call 0 (.getMessage 2), act 0 0, act 0 0,
    .call 1 (.updateMessage 2 (second 0 zero_version)), act 1 0, act 1 0, act 1 0, act 1 0,
    act 0 0,
    .call 2 (.getMessage 2), act 2 0,
    .call 3 (.updateMessage 2 (second 0 zero_version)), act 3 0, act 3 0, act 3 0, act 3 0,
    .call 4 (.getMessage 2), act 4 0, act 4 0, act 4 0,
    .call 5 (.updateMessage 2 (second 1 one_version)), act 5 0, act 5 0, act 5 0, act 5 0]
  (by decide +kernel)

/-- The entry the client finds is the slow reader's. -/
theorem slowReader_stale : ∃ out : MessageOut, out.version = 0 ∧
    slowReader.Ended 2 (.getMessage 2) (.ok (.message out)) 11 := by
  obtain ⟨d, out, k, hk, hload, hread⟩ := hit_taking (ρ := slowReader) (c := 2) (j := 10) (m := 2)
    (faultFree_of_events slowReader (by decide +kernel) 2) (by decide) (by decide +kernel)
    (by decide +kernel)
  have hfirst : ∀ k < 10, (slowReader.taking k).any (fun t => t.2.2 matches .selectMessage _) →
      slowReader.row k 2 = some hello := by decide +kernel
  exact ⟨out, representation_version (hfirst k hk (by rw [loads_taking hload]; rfl)) hload.reads,
    hread⟩

/-- The row as the other client left it. -/
def updated : Message := { hello with content := "Second", version := 1 }

/-- The two rounds of the client, given what its first read returned. -/
def twoRounds (out : MessageOut) (hversion : out.version = 0)
    (hread : slowReader.Ended 2 (.getMessage 2) (.ok (.message out)) 11) :
    RetryLoop slowReader 2 7 2 where
  reader r := if r = 0 then 2 else 4
  writer r := if r = 0 then 3 else 5
  payload r := if r = 0 then second 0 zero_version else second 1 one_version
  read r := if r = 0 then out else ⟨.ofRow updated, .ofRow ada⟩
  outcome r := if r = 0 then .error (staleVersion 2 0) else
    .ok (.message ⟨.ofRow { updated with version := 2 }, .ofRow ada⟩)
  readAt r := if r = 0 then 9 else 16
  writeAt r := if r = 0 then 11 else 20
  doneAt r := if r = 0 then 16 else 25
  order := by decide
  inTurn r hr := by rw [Nat.lt_one_iff.mp (Nat.lt_of_succ_lt_succ hr)]; decide
  reads r _ := by rcases r with _ | r <;> rfl
  returned r hr := by
    rcases r with _ | r
    · exact hread
    · exact (by decide +kernel : slowReader.Ended 4 (.getMessage 2)
        (.ok (.message ⟨.ofRow updated, .ofRow ada⟩)) 20)
  guarded r _ := by
    rcases r with _ | r
    · exact hversion.symm
    · rfl
  writes r _ := by rcases r with _ | r <;> rfl
  answered := by decide +kernel

theorem conflicts_heal_slowReader : ∃ L : RetryLoop slowReader 2 7 2,
    isConflict (L.outcome 0) = true ∧ (∃ res, L.outcome 1 = .ok res) ∧ Heals L := by
  obtain ⟨out, hversion, hread⟩ := slowReader_stale
  have hlast : ∀ k < slowReader.length, 7 ≤ k →
      slowReader.row (k + 1) 2 ≠ slowReader.row k 2 → (slowReader.event k).caller = 5 := by
    decide +kernel
  refine ⟨twoRounds out hversion hread, rfl, ⟨_, rfl⟩,
    conflicts_heal slowReader 2 7 2 _ ?_ updated ?_ ?_ ?_⟩
  · intro r _
    exact faultFree_of_events _ (by decide +kernel) _
  · decide +kernel
  · decide
  · intro k h7 hk hne
    exact ⟨1, by decide, hlast k hk h7 hne⟩

end Schedules

end ConflictHeals
