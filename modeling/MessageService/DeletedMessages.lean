import MessageService.CacheProvenance
import MessageService.TextCodec

/-! Whether a deleted message stays deleted for readers.
The cache entry is evicted after the delete has committed, but a reader that loaded the
message before may populate the cache after that; nothing removes the entry then. -/
namespace DeletedMessages

open Programs Interleaving Models Schemas KeyedTables MessageJson Postgres Services ServiceRuns
open Statements Consistency Histories Footprints Traces MessageTraces CacheProvenance

section Readers

variable [JsonCodec] {s : SoundDb} {ρ : Run s} {m : Uuid}

def Deleted (ρ : Run s) (m : Uuid) (n : ℕ) : Prop :=
  ∃ c, ρ.Ended c (.deleteMessage m) (.ok .none) n

/-- Every `get_message(m)` called after that raises `NotFoundError`. -/
def StaysDeleted (ρ : Run s) (m : Uuid) : Prop :=
  ∀ i < ρ.length, ∀ c o n, Deleted ρ m i → ρ.event i = .call c (.getMessage m) →
    ρ.Ended c (.getMessage m) o n → o = .error (messageNotFound m)

/-- No reader of `m` populates the cache when the message has already been deleted. -/
def NoLateSet (ρ : Run s) (m : Uuid) : Prop :=
  ∀ k c v x r, ρ.Performs k c (.cacheSet m.str v) x r → ¬Deleted ρ m k

/-- A deletion returns with the row dead and the entry evicted. -/
theorem deleted_evicted {n : ℕ} (h : Deleted ρ m n) :
    ∃ l < n, Dead (ρ.store (l + 1)) m ∧ (ρ.store (l + 1)).cache m.str = none ∧
      Deleted ρ m (l + 1) := by
  obtain ⟨c, h⟩ := h
  obtain ⟨i, hi, he, hs, ht⟩ := ended_started h
  cases deleteMessage_ended hs h.1 ht with
  | deleted hij hjk hkl hln hrow hp hlast hcommit hdead hevict hidle =>
    refine ⟨_, hln, run_dead hdead (by omega) hevict.within, ?_, c, ended_since h hevict hidle⟩
    rw [evicted hevict, Function.update_self]

/-- While nobody populates it, an evicted entry stays away. -/
theorem cache_empty {l n : ℕ} (hset : NoLateSet ρ m) (hd : Deleted ρ m l)
    (hc : (ρ.store l).cache m.str = none) (hln : l ≤ n) (hn : n ≤ ρ.length) :
    (ρ.store n).cache m.str = none := by
  cases hv : (ρ.store n).cache m.str with
  | none => rfl
  | some v =>
    rcases run_entry ρ hv hln hn with hall | ⟨k, c, x, r, hlk, _, hp, _⟩
    · rw [hall l le_rfl hln] at hc; cases hc
    · obtain ⟨d, hd⟩ := hd
      exact absurd ⟨d, ended_later hd hlk hp.within.le⟩ (hset k c v x r hp)

theorem stays_deleted (ρ : Run s) (m : Uuid) (hf : ρ.FaultFree) (hset : NoLateSet ρ m) :
    StaysDeleted ρ m := by
  intro i hi c o n hd hcall h
  obtain ⟨l, hl, hdead, hevicted, hd⟩ := deleted_evicted hd
  obtain ⟨i', hin, he, hs, ht⟩ := ended_started h
  have hn := h.1
  obtain rfl := ρ.call_unique hi (hin.trans_le hn) hcall he
  have gone : ∀ {j x v}, i + 1 ≤ j →
      ρ.Performs j c (.cacheGet m.str) x (.ok v) → v = none := by
    intro j x v hij hp
    rw [(performs_answer hp fun _ => rfl).1]
    exact cache_empty hset hd hevicted (by omega) hp.within.le
  cases getMessage_ended hs hn ht with
  | failed hfail =>
    obtain ⟨e, j, x, _, _, hp, _, _⟩ := hfail
    exact (reading_infallible (q := .getMessage m) (hf c) trivial hi hcall hp).elim
  | hit hij _ hp _ => cases gone hij hp
  | corrupt hij _ hp _ => cases gone hij hp
  | absent => rfl
  | @loaded j k _ _ _ _ _ _ hij hjk hkl hln _ _ hrep _ =>
    obtain ⟨row, a, hrow, _, _⟩ := representation_some.mp hrep
    have hdead := run_dead hdead (by omega : l + 1 ≤ k) (by omega)
    exact absurd (hdead.absent.symm.trans hrow) (by simp)

end Readers

section Schedules

/-- The message is read and then deleted, with the delete finishing first or second. -/
def readerFirst : Run oneMessage := scheduled oneMessage
  [.call 0 (.getMessage 2), act 0 0, act 0 0, act 0 0, .call 1 (.deleteMessage 2), act 1 0,
    act 1 0, act 1 0, .call 2 (.getMessage 2), act 2 0, act 2 0] (by decide +kernel)

theorem stays_deleted_readerFirst :
    readerFirst.Ended 2 (.getMessage 2) (.error (messageNotFound 2)) 11 ∧
      StaysDeleted readerFirst 2 := by
  refine ⟨by decide +kernel, stays_deleted readerFirst 2 ?_ ?_⟩
  · exact faultFree_of_events _ (by decide +kernel)
  · intro k c v x r hp hd
    obtain ⟨l, hl, hdead, _, _⟩ := deleted_evicted hd
    obtain ⟨q, b, K, hcall, _⟩ := hp.awaiting
    have hthere : ∀ k < readerFirst.length, ∀ l < k,
        (readerFirst.taking k).any (fun t => t.2.2 matches .cacheSet _ _) →
          readerFirst.row (l + 1) 2 ≠ none := by decide +kernel
    exact hthere k hp.within l hl (by rw [taking_of_performs hp hcall]; rfl) hdead.absent

/-- The reader loads, and populates the cache only when the delete has returned. -/
def readerLast : Run oneMessage := scheduled oneMessage
  [.call 0 (.getMessage 2), act 0 0, act 0 0, .call 1 (.deleteMessage 2), act 1 0, act 1 0,
    act 1 0, .close 1, act 0 0, .call 2 (.getMessage 2), act 2 0] (by decide +kernel)

theorem deleted_message_returns : readerLast.FaultFree ∧ ¬StaysDeleted readerLast 2 := by
  refine ⟨faultFree_of_events _ (by decide +kernel), ?_⟩
  intro h
  have hdeleted : Deleted readerLast 2 9 := ⟨1, by decide +kernel⟩
  obtain ⟨_, out, _, _, _, hread⟩ := hit_taking (ρ := readerLast) (c := 2) (j := 10) (m := 2)
    (faultFree_of_events readerLast (by decide +kernel) 2) (by decide) (by decide +kernel)
    (by decide +kernel)
  cases h 9 (by decide) 2 _ 11 hdeleted rfl hread

end Schedules

end DeletedMessages
