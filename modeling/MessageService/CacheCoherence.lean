import MessageService.CacheProvenance
import MessageService.Commits
import MessageService.FailedWrites
import MessageService.TextCodec

/-! The cached read path against the uncached one, in sequential runs.
An entry stays what the tables say as long as every commit that touches its row evicts it.
The row of its author is the other half of it, and `update_author` evicts nothing. -/
namespace CacheCoherence

open Programs Interleaving Texts Models Schemas KeyedTables MessageJson Postgres Services
open ServiceRuns Statements Consistency Histories Footprints Traces MessageTraces
open CacheProvenance Commits FailedWrites

section Sequences

variable [JsonCodec] {s : SoundDb} {ρ : Run s}

/-- A call starts only when every other has ended. -/
def Sequential (ρ : Run s) : Prop :=
  ∀ k < ρ.length, ∀ c q, ρ.event k = .call c q →
    ∀ d a, (ρ.state k).calls d = some a → ∃ o, a.rest = .done o

/-- `update_author(a, p)` changes the name or the e-mail of the author. -/
def Renames (db : Db) (a : Uuid) (p : AuthorUpdate) : Prop :=
  ∃ row, db.authors.lookup a = some row ∧ AuthorFits db row p.name p.email ∧
    updatedAuthor row p.name p.email ≠ row

/-- Nobody changes an author of whom the cache holds a message. -/
def NoCachedAuthorChange (ρ : Run s) : Prop :=
  ∀ i < ρ.length, ∀ c a p, ρ.event i = .call c (.updateAuthor a p) →
    Renames (ρ.store i).db a p → ∀ m row, ρ.row i m = some row → row.authorId = a →
      (ρ.store i).cache m.str = none

/-- What an uncached `get_message(m)` returns. -/
def uncached (db : Db) (m : Uuid) : Outcome :=
  match representation db m with
  | some out => .ok (.message out)
  | none => .error (messageNotFound m)

section Turns

variable {c d i k t : ℕ} {q : Request} {m : Uuid}

/-- While a call is in progress no other takes a step. -/
theorem alone (hseq : Sequential ρ) (hi : ρ.event i = .call c q) (hit : i < t) (htk : t ≤ k)
    {e e' x x'} {r : Reply e} {r' : Reply e'} (hd : ρ.Performs t d e x r)
    (hc : ρ.Performs k c e' x' r') : d = c := by
  obtain ⟨q', _, _, _, _, i', hi't, he', _, _⟩ := performs_started hd
  have ht := hd.within
  rcases Nat.lt_trichotomy i' i with hlt | rfl | hlt
  · obtain ⟨p, b, hcall⟩ := ρ.present he' hlt (by omega)
    obtain ⟨o, ho⟩ := hseq i (by omega) c q hi d _ hcall
    obtain rfl : p = .done o := ho
    have := ρ.done_before hcall hd
    omega
  · rw [hi] at he'
    injection he' with hcd
    exact hcd.symm
  · obtain ⟨p, b, hcall⟩ := ρ.present hi hlt (by omega)
    obtain ⟨o, ho⟩ := hseq i' (by omega) d q' he' c _ hcall
    obtain rfl : p = .done o := ho
    have := ρ.done_before hcall hc
    omega

/-- A call in progress finds the tables as they were when it was called, while it is calm. -/
theorem solo_db (hseq : Sequential ρ) (hi : ρ.event i = .call c q) (hit : i ≤ t) (htk : t ≤ k)
    (hcalm : Calm ρ c (i + 1) t) {e x} {r : Reply e} (hc : ρ.Performs k c e x r) :
    (ρ.store t).db = (ρ.store i).db := by
  have hk := hc.within
  induction t, hit using Nat.le_induction with
  | base => rfl
  | succ t hit ih =>
    rw [← ih (by omega) fun l e x r hil hlt hp => hcalm l e x r hil (by omega) hp]
    rcases run_db ρ (by omega : t < ρ.length) with hdb | ⟨d, x', r', hp, _⟩
    · exact hdb
    · have hne : i ≠ t := by
        rintro rfl
        rw [hp.event] at hi
        cases hi
      obtain rfl := alone hseq hi (by omega : i < t) (by omega) hp hc
      exact hcalm t _ _ _ (by omega) (by omega) hp

/-- A call that a later call finds has ended, and has ended before the later one acts. -/
theorem ended_before (hseq : Sequential ρ) (hi : ρ.event i = .call c q) {i' : ℕ} {q' : Request}
    (hi' : ρ.event i' = .call d q') (hdc : d ≠ c) (hik : i < k) (hi'k : i' < k)
    {e x} {r : Reply e} (hc : ρ.Performs k c e x r) : ∃ o, ρ.Ended d q' o k := by
  have hk := hc.within
  rcases Nat.lt_trichotomy i' i with hlt | rfl | hlt
  · obtain ⟨p, b, hcall⟩ := ρ.present hi' hlt (by omega)
    obtain ⟨o, ho⟩ := hseq i (by omega) c q hi d _ hcall
    obtain rfl : p = .done o := ho
    exact ⟨o, ended_later ⟨by omega, b, hcall⟩ hik.le hk.le⟩
  · rw [hi] at hi'
    injection hi' with hcd
    exact absurd hcd.symm hdc
  · obtain ⟨p, b, hcall⟩ := ρ.present hi hlt (by omega)
    obtain ⟨o, ho⟩ := hseq i' (by omega) d q' hi' c _ hcall
    obtain rfl : p = .done o := ho
    have := ρ.done_before hcall hc
    omega

end Turns

section Commits

variable {c i t : ℕ} {m : Uuid} {out : MessageOut}

/-- What a commit can do to the representation of a message: an update or a delete of the
message wrote it, or an update of its author. -/
inductive Touches (ρ : Run s) (m : Uuid) (i : ℕ) : Request → Prop
  | update {p} : Touches ρ m i (.updateMessage m p)
  | delete : Touches ρ m i (.deleteMessage m)
  | rename {a p msg} : ρ.row i m = some msg → msg.authorId = a → Renames (ρ.store i).db a p →
      Touches ρ m i (.updateAuthor a p)

theorem representation_kept (hseq : Sequential ρ) {x r} (hp : ρ.Performs t c .commit x r)
    (hw : ρ.store (t + 1) = (ρ.store t).commit c)
    (hrep : representation (ρ.store t).db m = some out) :
    representation (ρ.store (t + 1)).db m = some out ∨
    ∃ i q, i < t ∧ ρ.event i = .call c q ∧ Touches ρ m i q := by
  obtain ⟨msg, au, hm, ha, _⟩ := representation_some.mp hrep
  obtain ⟨q, i, ws, hit, he, hs, hc⟩ := commit_origin hp
  have ht := hp.within
  have hview : (ρ.store (t + 1)).db = (ρ.store t).db.applyAll ws := by
    rw [hw, commit_db, World.view, hs.pending]
  have kept : ((lastMessage ws m).getD (some msg) = some msg) →
      ((lastAuthor ws msg.authorId).getD (some au) = some au) →
      representation (ρ.store (t + 1)).db m = some out := by
    intro hmessage hauthor
    rw [hview, representation_overlay hm ha hmessage hauthor, hrep]
  -- the tables this commit replaces are the ones its call has read
  have hsolo : ∀ j, i ≤ j → j ≤ t → (ρ.store j).db = (ρ.store i).db := fun j hij hjt =>
    solo_db hseq he hij hjt (fun l e x r hil hlj hp => hs.calm l e x r hil (by omega) hp) hp
  have inserted : ∀ row, .putMessage row ∈ ws → row.version = 0 →
      (Write.putMessage row).message? m = none := by
    intro row hmem hv
    by_cases hid : row.id = m
    · rw [← hs.pending] at hmem
      obtain ⟨_, _, hprec⟩ := (run_consistent ρ ht.le).guarded c _ hmem
      have := (hprec msg (by rw [hid]; exact hm)).version
      omega
    · exact message?_put_ne hid
  have created : ∀ j a, i < j → j < t → ρ.author j a.id = none →
      (Write.putAuthor a).author? msg.authorId = none := by
    intro j a hij hjt hnone
    by_cases hid : a.id = msg.authorId
    · rw [Run.author, hsolo j hij.le hjt.le, ← hsolo t hit.le le_rfl, hid, ha] at hnone
      cases hnone
    · exact author?_put_ne hid
  cases hc with
  | @createMessage p row hv =>
    have hnone := inserted row (List.mem_singleton_self _) hv
    exact Or.inl (kept (by rw [lastMessage_singleton, hnone]; rfl) rfl)
  | @updateMessage m' p j x' row hij hjt hrow _ _ _ =>
    have hid : row.id = m' := lookup_key hrow
    by_cases hm' : m' = m
    · subst hm'
      exact Or.inr ⟨i, _, hit, he, .update⟩
    · refine Or.inl (kept ?_ rfl)
      rw [lastMessage_singleton, message?_put_ne (m := updatedMessage row p.content p.title)
        (fun h => hm' (hid.symm.trans h))]
      rfl
  | @deleteMessage m' =>
    by_cases hm' : m' = m
    · subst hm'
      exact Or.inr ⟨i, _, hit, he, .delete⟩
    · refine Or.inl (kept ?_ rfl)
      rw [lastMessage_singleton, message?_drop_ne hm']
      rfl
  | deleteNoMessage => exact Or.inl (kept rfl rfl)
  | @createAuthor p a j hij hjt hnew =>
    have hnone := created j a (by omega) hjt hnew
    exact Or.inl (kept rfl (by rw [lastAuthor_singleton, hnone]; rfl))
  | @updateAuthor a p j row hij hjt hrow hfits =>
    have hid : row.id = a := lookup_key hrow
    rw [Run.author, hsolo j (by omega) hjt.le] at hrow
    rw [hsolo j (by omega) hjt.le] at hfits
    rw [hsolo t hit.le le_rfl] at hm ha
    by_cases hauthor : msg.authorId = a
    · by_cases hchange : updatedAuthor row p.name p.email = row
      · refine Or.inl (kept rfl ?_)
        obtain rfl : row = au := by
          rw [← hauthor] at hrow
          exact Option.some.inj (hrow.symm.trans ha)
        rw [hchange, lastAuthor_singleton, author?_put (hid.trans hauthor.symm)]
        rfl
      · exact Or.inr ⟨i, _, hit, he, .rename hm hauthor ⟨row, hrow, hfits, hchange⟩⟩
    · refine Or.inl (kept rfl ?_)
      rw [lastAuthor_singleton, author?_put_ne (a := updatedAuthor row p.name p.email)
        (fun h => hauthor (h.symm.trans hid))]
      rfl
  | @deleteAuthor a =>
    by_cases hauthor : a = msg.authorId
    · -- the foreign key of the message keeps its author
      subst hauthor
      have hkey := (run_consistent ρ (n := t + 1) ht).committed_foreign_keys msg (by
        rw [hview, applyAll_message, lookup_key hm, hm]; rfl)
      rw [hview, applyAll_author, lastAuthor_singleton, author?_drop] at hkey
      obtain ⟨_, hnone⟩ := hkey
      cases hnone
    · refine Or.inl (kept rfl ?_)
      rw [lastAuthor_singleton, author?_drop_ne hauthor]
      rfl
  | deleteNoAuthor => exact Or.inl (kept rfl rfl)
  | seedNothing => exact Or.inl (kept rfl rfl)
  | @seedMessage row hv =>
    have hnone := inserted row (List.mem_singleton_self _) hv
    exact Or.inl (kept (by rw [lastMessage_singleton, hnone]; rfl) rfl)
  | @seedBoth a row j hij hjt hnew hv =>
    have hnone := inserted row (by simp) hv
    have hfresh := created j a (by omega) hjt hnew
    refine Or.inl (kept ?_ ?_)
    · rw [← List.singleton_append, lastMessage_append, hnone]
      rfl
    · rw [← List.singleton_append, lastAuthor_append, lastAuthor_singleton, hfresh]
      rfl

end Commits

section Entries

variable {c d i j n : ℕ} {m : Uuid} {out : MessageOut}

/-- A successful update or delete of a message evicts it before it returns. -/
theorem touched_evicts {q : Request} {r : Result} (hi : ρ.event i = .call d q)
    (hlen : i < ρ.length) (htouch : q = .deleteMessage m ∨ ∃ p, q = .updateMessage m p)
    (h : ρ.Ended d q (.ok r) n) :
    ∃ e, i < e ∧ e < n ∧ (ρ.store (e + 1)).cache m.str = none := by
  obtain ⟨i', hin, he, hs, ht⟩ := ended_started h
  have hn := h.1
  obtain rfl := ρ.call_unique hlen (by omega) hi he
  have emptied : ∀ {e x}, ρ.Performs e d (.cacheEvict m.str) x (.ok ()) →
      (ρ.store (e + 1)).cache m.str = none := fun hp => by
    rw [evicted hp, Function.update_self]
  rcases htouch with rfl | ⟨p, rfl⟩
  · cases deleteMessage_ended hs hn ht with
    | deleted hij hjk hkl hln _ _ _ _ _ hevict _ => exact ⟨_, by omega, hln, emptied hevict⟩
  · cases updateMessage_ended hs hn ht with
    | updated hij hjk hkl hle hen _ _ _ _ _ _ _ hevict =>
      exact ⟨_, by omega, hen, emptied hevict⟩

/-- What a reader finds in the cache is what the tables say. The entry was current when it
was loaded, and every commit since then would have evicted it. -/
theorem entry_current (hf : ρ.FaultFree) (hseq : Sequential ρ) (hspare : NoCachedAuthorChange ρ)
    (hi : ρ.event i = .call c (.getMessage m)) (hij : i < j) {x v}
    (hp : ρ.Performs j c (.cacheGet m.str) x (.ok (some v))) :
    ∃ out, v = modelDumpJson out ∧ representation (ρ.store j).db m = some out := by
  have hj := hp.within
  have hfound := (performs_answer hp fun _ => rfl).1
  rcases run_entry ρ hfound.symm (Nat.zero_le j) hj.le with
    hall | ⟨l, d, x', r, _, hlj, hset, hsince⟩
  · have h0 := hall 0 le_rfl (Nat.zero_le j)
    rw [Run.store, ρ.start] at h0
    cases h0
  obtain ⟨m', out, k, hkl, hload, hkey, rfl⟩ := cacheSet_origin hset
  obtain rfl := str_injective hkey
  obtain ⟨g, hgk, hg⟩ := hload.called
  refine ⟨out, rfl, ?_⟩
  have hkj : k ≤ j := by omega
  suffices ∀ t, k ≤ t → t ≤ j → representation (ρ.store t).db m = some out from this j hkj le_rfl
  intro t hkt
  induction t, hkt using Nat.le_induction with
  | base => exact fun _ => hload.reads
  | succ t hkt ih =>
    intro htj
    have hrep := ih (by omega)
    rcases run_db ρ (by omega : t < ρ.length) with hdb | ⟨b, x'', r', hcommit, hw⟩
    · rw [hdb]; exact hrep
    rcases representation_kept hseq hcommit hw hrep with hrep | ⟨i', q, hi't, hi', htouch⟩
    · exact hrep
    have writes : ∀ {a}, q ≠ .getMessage a := by
      rintro a rfl
      cases htouch
    have apart : ∀ {a g}, ρ.event g = .call a (.getMessage m) → g < ρ.length → b ≠ a := by
      rintro a g hcall hlen rfl
      obtain rfl := ρ.call_unique hlen (by omega) hcall hi'
      rw [hcall] at hi'
      injection hi' with _ hq
      exact writes hq.symm
    have hbd := apart hg (by omega)
    have hbc := apart hi (by omega)
    -- the reader has ended before the call that commits is made
    have hli' : l < i' := by
      by_contra hle
      rcases Nat.lt_or_ge l t with hlt | htl
      · have hne : i' ≠ l := by
          rintro rfl
          rw [hset.event] at hi'
          cases hi'
        exact hbd (alone hseq hi' (by omega) hlt.le hset hcommit).symm
      · exact hbd (alone hseq hg (by omega) htl hcommit hset)
    obtain ⟨o, hended⟩ := ended_before hseq hi hi' hbc hij (by omega) hp
    have gone : (q = .deleteMessage m ∨ ∃ p, q = .updateMessage m p) →
        representation (ρ.store (t + 1)).db m = some out := by
      intro hq
      cases o with
      | error exc =>
        have hwriting : Writing q := by
          rcases hq with rfl | ⟨p, rfl⟩
          · trivial
          · trivial
        rw [faultless_unchanging (hf b) hwriting hended t hcommit.within
          (by rw [hcommit.event]; rfl)]
        exact hrep
      | ok r =>
        obtain ⟨e, hie, hej, hnone⟩ := touched_evicts hi' (by omega) hq hended
        rw [hsince (e + 1) (by omega) hej] at hnone
        cases hnone
    cases htouch with
    | update => exact gone (Or.inr ⟨_, rfl⟩)
    | delete => exact gone (Or.inl rfl)
    | rename hrow hauthor hrename =>
      have hnone := hspare i' (by omega) b _ _ hi' hrename m _ hrow hauthor
      rw [hsince i' hli' (by omega)] at hnone
      cases hnone

/-- The tables a reading call sees are those it was called on. -/
theorem reading_db (hseq : Sequential ρ) {q : Request} (hq : Reading q)
    (hi : ρ.event i = .call c q) (hij : i < j) {e x} {r : Reply e} (hp : ρ.Performs j c e x r) :
    (ρ.store j).db = (ρ.store i).db := by
  refine solo_db hseq hi hij.le le_rfl ?_ hp
  intro k e' x' r' hik hkj hp'
  have hj := hp.within
  have hsilent : Silent e' := performs_only (by omega) hi (reading_silent hq) hp'
  refine performs_db hp' ?_
  rintro rfl
  exact hsilent

/-- How the cached reads of a run compare with the tables they are made on. -/
structure Coherent (ρ : Run s) : Prop where
  read : ∀ i < ρ.length, ∀ c m o n, ρ.event i = .call c (.getMessage m) →
    ρ.Ended c (.getMessage m) o n → o = uncached (ρ.store i).db m
  missing : ∀ i < ρ.length, ∀ c m o n, ρ.event i = .call c (.getMessage m) →
    ρ.Ended c (.getMessage m) o n → (o = .error (messageNotFound m) ↔ ρ.row i m = none)
  /-- A list made on the same tables shows the same item. -/
  listed : ∀ i < ρ.length, ∀ c m o n, ρ.event i = .call c (.getMessage m) →
    ρ.Ended c (.getMessage m) o n → ∀ j < ρ.length, ∀ d limit offset page n',
    ρ.event j = .call d (.listMessages limit offset) → (ρ.store j).db = (ρ.store i).db →
    ρ.Ended d (.listMessages limit offset) (.ok (.messages page)) n' →
    ∀ item ∈ page.items, item.id = m → o = .ok (.message item)

theorem read_current (hf : ρ.FaultFree) (hseq : Sequential ρ) (hspare : NoCachedAuthorChange ρ)
    (hi : ρ.event i = .call c (.getMessage m)) (hlen : i < ρ.length) {o : Outcome}
    (h : ρ.Ended c (.getMessage m) o n) : o = uncached (ρ.store i).db m := by
  obtain ⟨i', hin, he, hs, ht⟩ := ended_started h
  have hn := h.1
  obtain rfl := ρ.call_unique hlen (by omega) hi he
  have same : ∀ {j e x} {r : Reply e}, i < j → ρ.Performs j c e x r →
      (ρ.store j).db = (ρ.store i).db :=
    fun hij hp => reading_db (q := .getMessage m) hseq trivial hi hij hp
  unfold uncached
  cases getMessage_ended hs hn ht with
  | failed hfail =>
    obtain ⟨e, j, x, _, _, hp, _, _⟩ := hfail
    exact (reading_infallible (q := .getMessage m) (hf c) trivial hlen hi hp).elim
  | hit hij hjn hp hv =>
    obtain ⟨out, rfl, hrep⟩ := entry_current hf hseq hspare hi (by omega) hp
    rw [validate_dump] at hv
    obtain rfl := Option.some.inj hv
    rw [← same (by omega) hp, hrep]
  | corrupt hij hjn hp hv =>
    obtain ⟨out, rfl, _⟩ := entry_current hf hseq hspare hi (by omega) hp
    rw [validate_dump] at hv
    cases hv
  | absent hij hjk hkn hp hload hrow =>
    rw [Run.row, same (by omega) hload] at hrow
    rw [representation, hrow]
    rfl
  | loaded hij hjk hkl hln hp hload hrep hset => rw [← same (by omega) hload, hrep]

/-- In every sequential run in which no author is changed while the cache holds a message of
theirs, a cached read returns what an uncached one would. -/
theorem reads_coherent (ρ : Run s) (hf : ρ.FaultFree) (hseq : Sequential ρ)
    (hspare : NoCachedAuthorChange ρ) : Coherent ρ where
  read i hlen c m o n hi h := read_current hf hseq hspare hi hlen h
  missing i hlen c m o n hi h := by
    rw [read_current hf hseq hspare hi hlen h, uncached, Run.row,
      ← representation_none (run_consistent ρ hlen.le).committed_foreign_keys]
    cases representation (ρ.store i).db m with
    | none => exact ⟨fun _ => rfl, fun _ => rfl⟩
    | some out => simp
  listed i hlen c m o n hi h j hj d limit offset page n' hcall hsame h' item hitem hid := by
    obtain ⟨j', hjn, he, hs, ht⟩ := ended_started h'
    obtain rfl := ρ.call_unique hj (hjn.trans_le h'.1) hcall he
    obtain ⟨page', k, x, r, hjk, hkn, hp, hpage, hitems⟩ := listMessages_ended hs h'.1 ht
    obtain rfl := Result.messages.inj hpage
    have hrep := hitems item hitem
    rw [reading_db (q := .listMessages limit offset) hseq trivial hcall (by omega) hp, hsame,
      hid] at hrep
    rw [read_current hf hseq hspare hi hlen h, uncached, hrep]

end Entries

/-- Whether a call is still in progress, or not there at all. -/
def inProgress : Option (Interleaving.Call host) → Bool
  | some ⟨_, .await _ _, _⟩ => true
  | _ => false

theorem sequential_of_events (ρ : Run s) (h : ∀ k < ρ.length, ρ.event k matches .call _ _ →
    ∀ i < k, inProgress ((ρ.state k).calls (ρ.event i).caller) = false) : Sequential ρ := by
  intro k hk c q he d a hd
  obtain ⟨i, hi, hcall, _, _⟩ := ρ.started (fun _ => rfl) (q := a.request) (p := a.rest)
    (b := a.closed) hd hk.le
  have hended := h k hk (by rw [he]) i hi
  rw [hcall] at hended
  change inProgress ((ρ.state k).calls d) = false at hended
  rw [hd] at hended
  cases hp : a.rest with
  | done o => exact ⟨o, rfl⟩
  | await e K =>
    obtain ⟨q', p', b'⟩ := a
    obtain rfl : p' = .await e K := hp
    cases hended

end Sequences

section Schedules

/-- The first requests of the schedules: an author with one message. -/
def adaCreate : AuthorCreate :=
  ⟨text "Ada", text "ada@example.com", by decide +kernel, by decide +kernel⟩

def helloCreate : MessageCreate := ⟨text "Hello", text "First", 1, hello_checked.1, hello_checked.2⟩

def toGrace : AuthorUpdate :=
  ⟨some (text "Grace"), none, by rintro n ⟨rfl⟩; decide +kernel, by rintro e ⟨⟩⟩

/-- The author is renamed before anybody reads the message. -/
def renamedFirst : Run .empty := scheduled .empty
  [.call 0 (.createAuthor adaCreate), act 0 1, act 0 0, .close 0,
    .call 1 (.createMessage helloCreate), act 1 0, act 1 2, act 1 0, .close 1,
    .call 2 (.updateAuthor 1 toGrace), act 2 0, act 2 0, .close 2,
    .call 3 (.getMessage 2), act 3 0, act 3 0, act 3 0] (by decide +kernel)

theorem reads_coherent_renamedFirst : Coherent renamedFirst := by
  refine reads_coherent renamedFirst (faultFree_of_events _ (by decide +kernel))
    (sequential_of_events _ (by decide +kernel)) ?_
  intro i hi c a p he _ m row _ _
  have hfirst : ∀ i < renamedFirst.length,
      renamedFirst.event i matches .call _ (.updateAuthor _ _) →
      i = 9 := by decide +kernel
  obtain rfl := hfirst i hi (by rw [he])
  cases hv : (renamedFirst.store 9).cache m.str with
  | none => rfl
  | some v =>
    obtain ⟨d, out, k, hk, hload, _⟩ := entry_origin (by decide) hv
    have hnone : ∀ k < 9, ¬(renamedFirst.taking k).any
        (fun t => t.2.2 matches .selectMessage _) := by decide +kernel
    exact absurd (by rw [loads_taking hload]; rfl) (hnone k hk)

/-- The message is read, its author renamed, and the message read again. -/
def renamedLast : Run .empty := scheduled .empty
  [.call 0 (.createAuthor adaCreate), act 0 1, act 0 0, .close 0,
    .call 1 (.createMessage helloCreate), act 1 0, act 1 2, act 1 0, .close 1,
    .call 2 (.getMessage 2), act 2 0, act 2 0, act 2 0, .close 2,
    .call 3 (.updateAuthor 1 toGrace), act 3 0, act 3 0, .close 3,
    .call 4 (.getMessage 2), act 4 0] (by decide +kernel)

/-- The second read still shows the old name. -/
theorem renamed_author_stays_cached : renamedLast.FaultFree ∧ Sequential renamedLast ∧
    ¬Coherent renamedLast := by
  have hfree : renamedLast.FaultFree := faultFree_of_events _ (by decide +kernel)
  refine ⟨hfree, sequential_of_events _ (by decide +kernel), ?_⟩
  intro h
  obtain ⟨d, out, k, hk, hload, hread⟩ := hit_taking (ρ := renamedLast) (c := 4) (j := 19) (m := 2)
    (hfree 4) (by decide) (by decide +kernel) (by decide +kernel)
  have hbefore : ∀ k < 19, (renamedLast.taking k).any (fun t => t.2.2 matches .selectMessage _) →
      (representation (renamedLast.store k).db 2).map (·.author.name) = some "Ada" := by
    decide +kernel
  have hold := hbefore k hk (by rw [loads_taking hload]; rfl)
  rw [hload.reads] at hold
  have hnow : (representation (renamedLast.store 18).db 2).map (·.author.name) = some "Grace" := by
    decide +kernel
  have hsame := h.read 18 (by decide) 4 2 _ 20 rfl hread
  unfold uncached at hsame
  cases hrep : representation (renamedLast.store 18).db 2 with
  | none => rw [hrep] at hnow; cases hnow
  | some out' =>
    rw [hrep] at hsame hnow
    obtain rfl : out = out' := Result.message.inj (Except.ok.inj hsame)
    rw [hold] at hnow
    exact absurd hnow (by decide)

end Schedules

end CacheCoherence
