import MessageService.AuthorTraces
import MessageService.MessageTraces
import MessageService.TextCodec

/-! A write that fails leaves the tables as they were.
Everything a service function awaits stands before its commit, but for the eviction of an
update or a delete. A session that never commits has no effect on the tables, however its
call ended. -/
namespace FailedWrites

open Programs Interleaving Models Schemas KeyedTables MessageJson Postgres Services ServiceRuns
open Transitions Statements Consistency Histories Traces

section Writes

variable [JsonCodec] {s : SoundDb} {ρ : Run s}

/-- A commit of call `c` that raises did not commit. -/
def CommitsHold (ρ : Run s) (c : ℕ) : Prop :=
  ∀ k x exc, ρ.Performs k c .commit x (.error exc) → (ρ.store (k + 1)).db = (ρ.store k).db

/-- The requests that write. -/
def Writing : Request → Prop
  | .createMessage _ | .updateMessage _ _ | .deleteMessage _ | .createAuthor _
  | .updateAuthor _ _ | .deleteAuthor _ => True
  | _ => False

/-- Call `c`, started by `q`, leaves the tables alone: at none of its instants do they change,
and when it is on its own they are the same at `n` as when it was called. -/
structure LeavesTables (ρ : Run s) (c : ℕ) (q : Request) (n : ℕ) : Prop where
  unchanging : Unchanging ρ c
  alone : ∀ i ≤ n, ρ.event i = .call c q → (∀ k, i ≤ k → k < n → (ρ.event k).caller = c) →
    (ρ.store n).db = (ρ.store i).db

/-- The eviction that follows the commit of an update or a delete raised `exc`: the row of the
message is written, and the call fails. -/
inductive Unevicted (ρ : Run s) (c n : ℕ) (exc : Exc) : Request → Prop
  | updated {m p k l x x' row} : k < l → l < n → ρ.Performs k c .commit x (.ok ()) →
      ρ.row (k + 1) m = some (updatedMessage row p.content p.title) →
      ρ.Performs l c (.cacheEvict m.str) x' (.error exc) → Unevicted ρ c n exc (.updateMessage m p)
  | deleted {m k l x x'} : k < l → l < n → ρ.Performs k c .commit x (.ok ()) →
      ρ.row (k + 1) m = none → ρ.Performs l c (.cacheEvict m.str) x' (.error exc) →
      Unevicted ρ c n exc (.deleteMessage m)

theorem commitsHold_of_events (ρ : Run s) (h : ∀ k < ρ.length,
    (ρ.event k matches .step _ (.raiseAfter _ _)) = false) (c : ℕ) : CommitsHold ρ c := by
  intro k x exc hp
  have hk := h k hp.within
  rw [hp.event] at hk
  have ha := hp.answer
  cases x with
  | proceed f => cases (congrArg Prod.fst (Option.some.inj ha))
  | raise exc' => exact congrArg World.db (congrArg Prod.snd (Option.some.inj ha)).symm
  | raiseAfter f exc' => cases hk

/-- The tables stay while nobody but call `c` acts. -/
theorem unchanging_alone {c i n : ℕ} (h : Unchanging ρ c) (hin : i ≤ n) (hn : n ≤ ρ.length)
    (halone : ∀ k, i ≤ k → k < n → (ρ.event k).caller = c) :
    (ρ.store n).db = (ρ.store i).db := by
  induction n, hin using Nat.le_induction with
  | base => rfl
  | succ n hin ih =>
    rw [h n hn (halone n hin (Nat.lt_succ_self n))]
    exact ih (by omega) fun k hik hkn => halone k hik (by omega)

/-- A step that raises leaves the tables, unless it is a commit that took place. -/
theorem raised_db {c j : ℕ} {e x exc} (hc : CommitsHold ρ c)
    (hp : ρ.Performs j c e x (.error exc)) :
    (ρ.store (j + 1)).db = (ρ.store j).db := by
  by_cases he : e = .commit
  · subst he
    exact hc j x exc hp
  · exact performs_db hp he

theorem failed_calm {c a n : ℕ} {exc : Exc} (hc : CommitsHold ρ c) (h : Failed ρ c a n exc) :
    Calm ρ c a n := by
  obtain ⟨e, j, x, _, _, hp, hcalm, hidle⟩ := h
  exact hcalm.over (raised_db hc hp) fun k e' x' r hjk hkn hp' =>
    absurd hp' (hidle k e' x' r hjk hkn)

/-- A write that ends in an exception has left its tables alone since it was called, or its
eviction raised. -/
theorem failed_write_calm {c i n : ℕ} {q : Request} {exc : Exc} (hc : CommitsHold ρ c)
    (hq : Writing q) (hs : Session ρ c i i []) (hn : n ≤ ρ.length)
    (h : ρ.Reaches c (body q) i (.done (.error exc)) n) :
    Calm ρ c i n ∨ Unevicted ρ c n exc q := by
  cases q with
  | createMessage p =>
    cases MessageTraces.createMessage_ended hs hn h with
    | failed hfail _ => exact Or.inl (failed_calm hc hfail)
    | noAuthor _ _ _ _ hcalm => exact Or.inl hcalm
    | rejected _ _ _ _ _ _ hcalm => exact Or.inl hcalm
  | updateMessage m p =>
    cases MessageTraces.updateMessage_ended hs hn h with
    | failed hfail => exact Or.inl (failed_calm hc hfail)
    | unevicted _ _ hkl hln _ _ hp hnew hp' => exact Or.inr (.updated hkl hln hp hnew hp')
    | missed _ _ _ _ _ _ _ _ hcalm => exact Or.inl hcalm
  | deleteMessage m =>
    cases MessageTraces.deleteMessage_ended hs hn h with
    | failed hfail => exact Or.inl (failed_calm hc hfail)
    | unevicted _ _ hkl hln _ hp hdead hp' => exact Or.inr (.deleted hkl hln hp hdead.absent hp')
    | absent _ _ _ _ _ hcalm => exact Or.inl hcalm
  | createAuthor p =>
    cases AuthorTraces.createAuthor_ended hs hn h with
    | failed hfail _ => exact Or.inl (failed_calm hc hfail)
    | rejected _ _ _ _ hcalm => exact Or.inl hcalm
  | updateAuthor id p =>
    cases AuthorTraces.updateAuthor_ended hs hn h with
    | failed hfail _ => exact Or.inl (failed_calm hc hfail)
    | readNothing _ _ _ _ _ hcalm => exact Or.inl hcalm
    | rejected _ _ _ _ _ hcalm => exact Or.inl hcalm
    | absent _ _ _ _ _ hcalm => exact Or.inl hcalm
  | deleteAuthor id =>
    cases AuthorTraces.deleteAuthor_ended hs hn h with
    | failed hfail _ => exact Or.inl (failed_calm hc hfail)
    | rejected _ _ _ _ hcalm => exact Or.inl hcalm
    | commitRejected _ _ hp hbefore hafter =>
      exact Or.inl (hbefore.over (hc _ _ _ hp) hafter)
    | absent _ _ _ _ hcalm => exact Or.inl hcalm
  | listMessages | getMessage | listAuthors | getAuthor | seedInitialMessage => exact hq.elim

/-- A write that ends in an exception, at whichever step it was raised, has left the tables as
they were, unless what raised is the eviction after its commit. -/
theorem failed_write_leaves_tables (ρ : Run s) (c n : ℕ) (hc : CommitsHold ρ c) (q : Request)
    (exc : Exc) (hq : Writing q) (h : ρ.Ended c q (.error exc) n) :
    LeavesTables ρ c q n ∨ Unevicted ρ c n exc q := by
  obtain ⟨i, hi, he, hs, hr⟩ := ended_started h
  rcases failed_write_calm hc hq hs h.1 hr with hcalm | hevict
  · have hkept := unchanging h hi he hcalm
    exact Or.inl ⟨hkept, fun i hin _ halone => unchanging_alone hkept hin h.1 halone⟩
  · exact Or.inr hevict

/-- Without faults nothing is written by a write that ends in an exception. -/
theorem faultless_unchanging {c n : ℕ} {q : Request} {exc : Exc} (hf : ρ.Faultless c)
    (hq : Writing q) (h : ρ.Ended c q (.error exc) n) : Unchanging ρ c := by
  have hc : CommitsHold ρ c := fun k x exc hp => (faultless_error hf hp).1.elim
  obtain ⟨i, hi, he, hs, hr⟩ := ended_started h
  rcases failed_write_calm hc hq hs h.1 hr with hcalm | hevict
  · exact unchanging h hi he hcalm
  · cases hevict with
    | updated _ _ _ _ hp => exact (faultless_error hf hp).1.elim
    | deleted _ _ _ _ hp => exact (faultless_error hf hp).1.elim

end Writes

section Schedules

/-- The commit of a delete raises: nothing is deleted. -/
def commitFails : Run oneMessage := scheduled oneMessage
  [.call 0 (.deleteMessage 2), act 0 0, .step 0 (.raise (.other "connection lost")), .close 0]
  (by decide +kernel)

theorem failed_write_commitFails : commitFails.Ended 0 (.deleteMessage 2)
    (.error (.other "connection lost")) 4 ∧ LeavesTables commitFails 0 (.deleteMessage 2) 4 := by
  have hended : commitFails.Ended 0 (.deleteMessage 2) (.error (.other "connection lost")) 4 := by
    decide +kernel
  refine ⟨hended, (failed_write_leaves_tables commitFails 0 4
    (commitsHold_of_events commitFails (by decide +kernel) 0) (.deleteMessage 2) _ trivial
    hended).resolve_right ?_⟩
  rintro (_ | ⟨_, _, _, _, hp⟩)
  obtain ⟨q, b, K, hcall, _⟩ := hp.awaiting
  have hnone : ∀ k < 4, ¬(commitFails.taking k).any (fun t => t.2.2 matches .cacheEvict _) := by
    decide +kernel
  exact hnone _ hp.within (by rw [taking_of_performs hp hcall]; rfl)

/-- The delete commits, and its eviction raises. -/
def evictFails : Run oneMessage := scheduled oneMessage
  [.call 0 (.deleteMessage 2), act 0 0, act 0 0, .step 0 (.raise (.other "client offline")),
    .close 0] (by decide +kernel)

theorem failed_delete_deletes : CommitsHold evictFails 0 ∧
    evictFails.Ended 0 (.deleteMessage 2) (.error (.other "client offline")) 5 ∧
    (evictFails.store 5).db ≠ (evictFails.store 0).db := by
  refine ⟨commitsHold_of_events evictFails (by decide +kernel) 0, by decide +kernel, ?_⟩
  intro h
  have hrows : evictFails.row 5 2 ≠ evictFails.row 0 2 := by decide +kernel
  exact hrows (by rw [Run.row, Run.row, h])

end Schedules

end FailedWrites
