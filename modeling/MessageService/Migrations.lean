import MessageService.Library.Executions
import MessageService.Postgres

/-! `migrations/env.py` on any number of replicas over one database.
The advisory lock is held by one session of a replica and the migration runs in a transaction of
another. Alembic is here as far as the environment relies on it: it reads the applied revision,
runs the upgrade bodies that follow and records the last of them, all in one transaction. -/
namespace Migrations

open Executions LockTables Postgres

/-- `MIGRATION_LOCK_KEY` -/
def migrationLockKey : ℕ := 7265490000

/-- The chain of revisions under `migrations/versions`, from the base to the head. -/
structure Script where
  revisions : List String
  distinct : revisions.Nodup

def versions : Script := ⟨["0001"], by decide⟩

/-- Where a replica is in `run_migrations_online`. `rollingBack` is the way out of the transaction
with an exception, `unlocking` the `finally` clause and `closing` the way out of the `async with`;
the last two know whether an exception is on its way. -/
inductive Stage where
  | start
  | lockConnected
  | connected
  | locked
  | begun
  | upgrading (next : ℕ)
  | rollingBack
  | unlocking (raised : Bool)
  | closing (raised : Bool)
  | finished
  | failed
  | dead
  deriving DecidableEq, Repr

/-- `tx` is the open transaction of the working session: the upgrade bodies run in it. -/
structure Replica where
  stage : Stage
  lockSession : Bool
  workSession : Bool
  tx : Option (List String)
  deriving DecidableEq, Repr

def Replica.fresh : Replica := ⟨.start, false, false, none⟩

/-- `version` is the number of applied revisions, as `alembic_version` records it; `log` is the
history of the upgrade bodies that were committed. -/
structure State where
  replica : ℕ → Replica
  locks : LockTable ℕ Resource LockMode
  version : ℕ
  log : List String

def State.Holds (s : State) (r : ℕ) : Prop := s.locks.Holds r (.advisory migrationLockKey) .update

def State.set (s : State) (r : ℕ) (replica : Replica) : State :=
  { s with replica := Function.update s.replica r replica }

def State.unlock (s : State) (r : ℕ) : State := { s with locks := s.locks.release r }

/-- The end of a transaction that ran `bodies`, the last of them the revision before `next`. -/
def State.commit (s : State) (bodies : List String) (next : ℕ) : State :=
  { s with log := s.log ++ bodies, version := if bodies = [] then s.version else next }

inductive Act where
  | connectLock | connect | lock | begin | read | upgrade | commit | rollback | unlock | close
  /-- The awaited step raises, before it had an effect. -/
  | raise
  /-- The commit takes effect and raises. -/
  | commitRaise
  /-- The process dies; then its two sessions end, in either order. -/
  | crash | endLock | endWork
  deriving DecidableEq, Repr

structure Event where
  replica : ℕ
  act : Act
  deriving DecidableEq, Repr

variable {script : Script}

/-- A stage that is inside the `try`. -/
def Stage.migrating : Stage → Bool
  | .locked | .begun | .upgrading _ | .rollingBack => true
  | _ => false

/-- A process that is running. -/
def Stage.alive : Stage → Bool
  | .finished | .failed | .dead => false
  | _ => true

/-- An exception leaves the transaction and then goes through the `finally`, once there is one. A
ROLLBACK that raises has lost its connection, and the end of the session rolls back. -/
def raise (s : State) (r : ℕ) (a : Replica) : Option State :=
  match a.stage with
  | .start | .lockConnected | .connected => some (s.set r { a with stage := .closing true })
  | .locked => some (s.set r { a with stage := .unlocking true })
  | .begun | .upgrading _ => some (s.set r { a with stage := .rollingBack })
  | .rollingBack =>
    some (s.set r { a with stage := .unlocking true, workSession := false, tx := none })
  | .unlocking _ => some (s.set r { a with stage := .closing true })
  | _ => none

/-- The commit comes when no revision is left to run. -/
def commit (script : Script) (s : State) (r : ℕ) (a : Replica) (raised : Bool) : Option State :=
  match a.stage, a.tx with
  | .upgrading k, some bodies =>
    if k < script.revisions.length then none
    else some ((s.commit bodies k).set r { a with stage := .unlocking raised, tx := none })
  | _, _ => none

def next (script : Script) (s : State) (e : Event) : Option State :=
  let r := e.replica
  let a := s.replica r
  match e.act with
  | .connectLock =>
    if a.stage = .start then some (s.set r { a with stage := .lockConnected, lockSession := true })
    else none
  | .connect =>
    if a.stage = .lockConnected then
      some (s.set r { a with stage := .connected, workSession := true })
    else none
  | .lock =>
    if a.stage = .connected then
      (s.locks.acquire ⟨r, .advisory migrationLockKey, .update⟩).map fun locks =>
        { s with locks := locks }.set r { a with stage := .locked }
    else none
  | .begin =>
    if a.stage = .locked then some (s.set r { a with stage := .begun, tx := some [] }) else none
  | .read =>
    if a.stage = .begun then some (s.set r { a with stage := .upgrading s.version }) else none
  | .upgrade =>
    match a.stage with
    | .upgrading k => (script.revisions[k]?).map fun body =>
        s.set r { a with stage := .upgrading (k + 1), tx := a.tx.map (· ++ [body]) }
    | _ => none
  | .commit => commit script s r a false
  | .commitRaise => commit script s r a true
  | .raise => raise s r a
  | .rollback =>
    if a.stage = .rollingBack then some (s.set r { a with stage := .unlocking true, tx := none })
    else none
  | .unlock =>
    match a.stage with
    | .unlocking raised => some ((s.unlock r).set r { a with stage := .closing raised })
    | _ => none
  | .close =>
    match a.stage with
    | .closing raised => some ((s.unlock r).set r
        { a with stage := if raised then .failed else .finished, lockSession := false,
                 workSession := false })
    | _ => none
  | .crash => if a.stage.alive then some (s.set r { a with stage := .dead }) else none
  | .endLock =>
    if a.stage = .dead ∧ a.lockSession then
      some ((s.unlock r).set r { a with lockSession := false })
    else none
  | .endWork =>
    if a.stage = .dead ∧ a.workSession then
      some (s.set r { a with workSession := false, tx := none })
    else none

/-- A database at one of its revisions, with no replica running. -/
def initial (script : Script) (v : Fin (script.revisions.length + 1)) : State :=
  ⟨fun _ => .fresh, .empty, v, script.revisions.take v⟩

abbrev Run (script : Script) (v : Fin (script.revisions.length + 1)) :=
  Execution (next script) (initial script v)

section Steps

variable {s t : State} {r : ℕ}

/-- Before the `try`. -/
def Stage.connecting : Stage → Bool
  | .start | .lockConnected | .connected => true
  | _ => false

/-- In the transaction. -/
def Stage.working : Stage → Bool
  | .begun | .upgrading _ => true
  | _ => false

/-- What each act does. -/
inductive Step (script : Script) (s : State) (r : ℕ) : Act → State → Prop where
  | connectLock : (s.replica r).stage = .start → Step script s r .connectLock
      (s.set r { s.replica r with stage := .lockConnected, lockSession := true })
  | connect : (s.replica r).stage = .lockConnected → Step script s r .connect
      (s.set r { s.replica r with stage := .connected, workSession := true })
  | lock {locks} : (s.replica r).stage = .connected →
      s.locks.acquire ⟨r, .advisory migrationLockKey, .update⟩ = some locks →
      Step script s r .lock ({ s with locks := locks }.set r { s.replica r with stage := .locked })
  | begin : (s.replica r).stage = .locked →
      Step script s r .begin (s.set r { s.replica r with stage := .begun, tx := some [] })
  | read : (s.replica r).stage = .begun →
      Step script s r .read (s.set r { s.replica r with stage := .upgrading s.version })
  | upgrade {k body} : (s.replica r).stage = .upgrading k → script.revisions[k]? = some body →
      Step script s r .upgrade (s.set r
        { s.replica r with stage := .upgrading (k + 1), tx := (s.replica r).tx.map (· ++ [body]) })
  | commit {act k bodies raised} : act = (if raised then .commitRaise else .commit) →
      (s.replica r).stage = .upgrading k → (s.replica r).tx = some bodies →
      script.revisions.length ≤ k → Step script s r act ((s.commit bodies k).set r
        { s.replica r with stage := .unlocking raised, tx := none })
  | fail : (s.replica r).stage.connecting = true →
      Step script s r .raise (s.set r { s.replica r with stage := .closing true })
  | untouched : (s.replica r).stage = .locked →
      Step script s r .raise (s.set r { s.replica r with stage := .unlocking true })
  | raise : (s.replica r).stage.working = true →
      Step script s r .raise (s.set r { s.replica r with stage := .rollingBack })
  | rollback : (s.replica r).stage = .rollingBack →
      Step script s r .rollback (s.set r { s.replica r with stage := .unlocking true, tx := none })
  | rollbackRaise : (s.replica r).stage = .rollingBack → Step script s r .raise (s.set r
      { s.replica r with stage := .unlocking true, workSession := false, tx := none })
  | unlockRaise {raised} : (s.replica r).stage = .unlocking raised →
      Step script s r .raise (s.set r { s.replica r with stage := .closing true })
  | unlock {raised} : (s.replica r).stage = .unlocking raised →
      Step script s r .unlock ((s.unlock r).set r { s.replica r with stage := .closing raised })
  | close {raised} : (s.replica r).stage = .closing raised →
      Step script s r .close ((s.unlock r).set r { s.replica r with
        stage := if raised then .failed else .finished, lockSession := false,
        workSession := false })
  | crash : (s.replica r).stage.alive = true →
      Step script s r .crash (s.set r { s.replica r with stage := .dead })
  | endLock : (s.replica r).stage = .dead →
      Step script s r .endLock ((s.unlock r).set r { s.replica r with lockSession := false })
  | endWork : (s.replica r).stage = .dead →
      Step script s r .endWork (s.set r { s.replica r with workSession := false, tx := none })

theorem commit_step {raised : Bool} (h : commit script s r (s.replica r) raised = some t) :
    Step script s r (if raised then .commitRaise else .commit) t := by
  unfold commit at h
  split at h
  · rename_i k bodies hstage htx
    split at h
    · cases h
    · cases h
      exact .commit rfl hstage htx (by omega)
  · cases h

theorem raise_step (h : raise s r (s.replica r) = some t) : Step script s r .raise t := by
  unfold raise at h
  cases hstage : (s.replica r).stage with
  | start | lockConnected | connected =>
    rw [hstage] at h
    cases h
    exact .fail (by rw [hstage]; rfl)
  | locked =>
    rw [hstage] at h
    cases h
    exact .untouched hstage
  | begun | upgrading k =>
    rw [hstage] at h
    cases h
    exact .raise (by rw [hstage]; rfl)
  | rollingBack =>
    rw [hstage] at h
    cases h
    exact .rollbackRaise hstage
  | unlocking raised =>
    rw [hstage] at h
    cases h
    exact .unlockRaise hstage
  | closing raised | finished | failed | dead =>
    rw [hstage] at h
    cases h

theorem next_step {e : Event} (h : next script s e = some t) :
    Step script s e.replica e.act t := by
  obtain ⟨r, act⟩ := e
  cases act with
  | commit => simpa using commit_step h
  | commitRaise => simpa using commit_step h
  | raise => exact raise_step h
  | connectLock =>
    simp only [next] at h
    split at h
    · rename_i hstage; cases h; exact .connectLock hstage
    · cases h
  | connect =>
    simp only [next] at h
    split at h
    · rename_i hstage; cases h; exact .connect hstage
    · cases h
  | lock =>
    simp only [next] at h
    split at h
    · rename_i hstage
      obtain ⟨locks, hlocks, rfl⟩ := Option.map_eq_some_iff.mp h
      exact .lock hstage hlocks
    · cases h
  | begin =>
    simp only [next] at h
    split at h
    · rename_i hstage; cases h; exact .begin hstage
    · cases h
  | read =>
    simp only [next] at h
    split at h
    · rename_i hstage; cases h; exact .read hstage
    · cases h
  | upgrade =>
    simp only [next] at h
    split at h
    · rename_i k hstage
      obtain ⟨body, hbody, rfl⟩ := Option.map_eq_some_iff.mp h
      exact .upgrade hstage hbody
    · cases h
  | rollback =>
    simp only [next] at h
    split at h
    · rename_i hstage; cases h; exact .rollback hstage
    · cases h
  | unlock =>
    simp only [next] at h
    split at h
    · rename_i raised hstage; cases h; exact .unlock hstage
    · cases h
  | close =>
    simp only [next] at h
    split at h
    · rename_i raised hstage; cases h; exact .close hstage
    · cases h
  | crash =>
    simp only [next] at h
    split at h
    · rename_i halive; cases h; exact .crash halive
    · cases h
  | endLock =>
    simp only [next] at h
    split at h
    · rename_i hdead; cases h; exact .endLock hdead.1
    · cases h
  | endWork =>
    simp only [next] at h
    split at h
    · rename_i hdead; cases h; exact .endWork hdead.1
    · cases h

end Steps

section Invariants

/-- Inside the `try` and its `finally`, where the replica holds the lock. -/
def Stage.holding : Stage → Bool
  | .locked | .begun | .upgrading _ | .rollingBack | .unlocking _ => true
  | _ => false

/-- What a replica that has come this far may rely on, in a database of `version`. -/
structure Coherent (script : Script) (version : ℕ) (holds : Prop) (a : Replica) : Prop where
  held : a.stage.holding = true → holds
  ended : a.stage ≠ .begun → (∀ k, a.stage ≠ .upgrading k) → a.stage ≠ .rollingBack →
    a.stage ≠ .dead → a.tx = none
  begun : a.stage = .begun → a.tx = some []
  planned : ∀ k, a.stage = .upgrading k → version ≤ k ∧ k ≤ script.revisions.length ∧
    a.tx = some ((script.revisions.take k).drop version)
  migrated : a.stage = .unlocking false ∨ a.stage = .closing false ∨ a.stage = .finished →
    version = script.revisions.length

structure Invariant (script : Script) (s : State) : Prop where
  coherent : ∀ r, Coherent script s.version (s.Holds r) (s.replica r)
  version_le : s.version ≤ script.revisions.length
  history : s.log = script.revisions.take s.version

/-- A stage in which no transaction is open. -/
def Stage.idle : Stage → Bool
  | .begun | .upgrading _ | .rollingBack | .dead => false
  | _ => true

theorem Coherent.tx_none {version : ℕ} {holds : Prop} {a : Replica}
    (h : Coherent script version holds a) (hidle : a.stage.idle = true) : a.tx = none := by
  refine h.ended ?_ ?_ ?_ ?_
  · intro hstage
    rw [hstage] at hidle
    cases hidle
  · intro k hstage
    rw [hstage] at hidle
    cases hidle
  · intro hstage
    rw [hstage] at hidle
    cases hidle
  · intro hstage
    rw [hstage] at hidle
    cases hidle

variable {s t : State} {r : ℕ}

@[simp] theorem set_self (s : State) (r : ℕ) (a : Replica) : (s.set r a).replica r = a :=
  Function.update_self ..

theorem set_other {q : ℕ} (h : q ≠ r) (a : Replica) : (s.set r a).replica q = s.replica q :=
  Function.update_of_ne h ..

@[simp] theorem set_holds (s : State) (r q : ℕ) (a : Replica) :
    (s.set r a).Holds q ↔ s.Holds q := Iff.rfl

theorem unlock_holds {q : ℕ} : (s.unlock r).Holds q ↔ s.Holds q ∧ q ≠ r :=
  release_holds ..

/-- A step of one replica that keeps the database leaves the others their locks. -/
theorem invariant_set {u : State} {a : Replica} (h : Invariant script s)
    (hreplica : u.replica = s.replica) (hversion : u.version = s.version) (hlog : u.log = s.log)
    (hothers : ∀ q, q ≠ r → s.Holds q → u.Holds q)
    (ha : Coherent script s.version (u.Holds r) a) : Invariant script (u.set r a) := by
  constructor
  · intro q
    by_cases hq : q = r
    · subst hq
      rw [set_self]
      exact hversion ▸ ha
    · rw [set_other hq, hreplica]
      have hc := h.coherent q
      exact ⟨fun hs => hothers q hq (hc.held hs), hc.ended, hc.begun,
        hversion ▸ hc.planned, hversion ▸ hc.migrated⟩
  · exact hversion ▸ h.version_le
  · rw [show (u.set r a).log = s.log from hlog, h.history]
    rw [show (u.set r a).version = s.version from hversion]

theorem take_drop_succ {l : List String} {v k : ℕ} {body : String} (h : l[k]? = some body)
    (hv : v ≤ k) : (l.take k).drop v ++ [body] = (l.take (k + 1)).drop v := by
  have hk : k < l.length := (List.getElem?_eq_some_iff.mp h).1
  rw [List.take_add_one, h, Option.toList_some, List.drop_append_of_le_length]
  rw [List.length_take]
  omega

/-- A commit that has run every revision leaves the database at the head. -/
theorem commit_version (h : s.version ≤ script.revisions.length) :
    (s.commit (script.revisions.drop s.version) script.revisions.length).version =
      script.revisions.length := by
  unfold State.commit
  dsimp only
  split
  · rename_i hempty
    have := List.drop_eq_nil_iff.mp hempty
    omega
  · rfl

/-- The replica that commits holds the lock, so no other one is inside the `try`: what it commits
is all that the version lacks. -/
theorem commit_invariant {k : ℕ} {bodies : List String} {raised : Bool}
    (h : Invariant script s) (hstage : (s.replica r).stage = .upgrading k)
    (htx : (s.replica r).tx = some bodies) (hk : script.revisions.length ≤ k) :
    Invariant script
      ((s.commit bodies k).set r { s.replica r with stage := .unlocking raised, tx := none }) := by
  obtain ⟨hv, hkl, hplanned⟩ := (h.coherent r).planned k hstage
  obtain rfl : k = script.revisions.length := by omega
  obtain rfl : bodies = script.revisions.drop s.version := by
    rw [htx, List.take_length] at hplanned
    exact Option.some.inj hplanned
  have hheld : s.Holds r := (h.coherent r).held (by rw [hstage]; rfl)
  have hversion : (s.commit (script.revisions.drop s.version) script.revisions.length).version =
      script.revisions.length := commit_version hv
  constructor
  · intro q
    by_cases hq : q = r
    · subst hq
      rw [set_self]
      constructor
      · exact fun _ => hheld
      · simp
      · simp
      · simp
      · exact fun _ => hversion
    · rw [set_other hq]
      have hc := h.coherent q
      refine ⟨hc.held, hc.ended, hc.begun, ?_, fun _ => hversion⟩
      intro k hk
      have hk : (s.replica q).stage = .upgrading k := hk
      -- two replicas that are both inside the try would both hold the lock
      exact absurd (holds_unique (hc.held (by rw [hk]; rfl)) hheld rfl) hq
  · exact hversion.le
  · change s.log ++ script.revisions.drop s.version = _
    rw [h.history, List.take_append_drop]
    exact (List.take_of_length_le hversion.ge).symm

theorem step_invariant {act : Act} (h : Invariant script s) (hstep : Step script s r act t) :
    Invariant script t := by
  have hr := h.coherent r
  have keep : ∀ q, q ≠ r → s.Holds q → s.Holds q := fun _ _ hq => hq
  have unlocked : ∀ q, q ≠ r → s.Holds q → (s.unlock r).Holds q :=
    fun q hq hs => unlock_holds.mpr ⟨hs, hq⟩
  cases hstep with
  | connectLock hstage =>
    refine invariant_set h rfl rfl rfl keep ?_
    have htx := hr.tx_none (by rw [hstage]; rfl)
    constructor <;> simp_all [Stage.holding]
  | connect hstage =>
    refine invariant_set h rfl rfl rfl keep ?_
    have htx := hr.tx_none (by rw [hstage]; rfl)
    constructor <;> simp_all [Stage.holding]
  | lock hstage hlocks =>
    have hholds : ∀ q, State.Holds { s with locks := _ } q ↔ _ :=
      fun q => acquire_holds hlocks q (.advisory migrationLockKey) .update
    refine invariant_set h rfl rfl rfl (fun q _ hq => (hholds q).mpr (Or.inr hq)) ?_
    have htx := hr.tx_none (by rw [hstage]; rfl)
    constructor <;> simp_all [Stage.holding]
  | begin hstage =>
    refine invariant_set h rfl rfl rfl keep ?_
    have hheld := hr.held (by rw [hstage]; rfl)
    constructor <;> simp_all [Stage.holding]
  | read hstage =>
    refine invariant_set h rfl rfl rfl keep ?_
    have hheld := hr.held (by rw [hstage]; rfl)
    have hle := h.version_le
    have htx := hr.begun hstage
    constructor <;> simp_all [Stage.holding]
  | upgrade hstage hbody =>
    rename_i k body
    refine invariant_set h rfl rfl rfl keep ?_
    have hheld := hr.held (by rw [hstage]; rfl)
    obtain ⟨hv, _, htx⟩ := hr.planned k hstage
    have hk := (List.getElem?_eq_some_iff.mp hbody).1
    constructor
    · exact fun _ => hheld
    · simp
    · simp
    · intro k' hk'
      obtain rfl : k + 1 = k' := Stage.upgrading.inj hk'
      refine ⟨by omega, hk, ?_⟩
      rw [htx, Option.map_some, take_drop_succ hbody hv]
    · simp
  | commit hact hstage htx hk => exact commit_invariant h hstage htx hk
  | fail hstage =>
    refine invariant_set h rfl rfl rfl keep ?_
    have htx : (s.replica r).tx = none := by
      refine hr.tx_none ?_
      revert hstage
      cases (s.replica r).stage <;> simp [Stage.connecting, Stage.idle]
    constructor <;> simp_all [Stage.holding]
  | untouched hstage =>
    refine invariant_set h rfl rfl rfl keep ?_
    have hheld := hr.held (by rw [hstage]; rfl)
    have htx := hr.tx_none (by rw [hstage]; rfl)
    constructor <;> simp_all [Stage.holding]
  | raise hstage =>
    refine invariant_set h rfl rfl rfl keep ?_
    have hheld : s.Holds r := by
      refine hr.held ?_
      revert hstage
      cases (s.replica r).stage <;> simp [Stage.working, Stage.holding]
    constructor <;> simp_all [Stage.holding]
  | rollback hstage | rollbackRaise hstage =>
    refine invariant_set h rfl rfl rfl keep ?_
    have hheld := hr.held (by rw [hstage]; rfl)
    constructor <;> simp_all [Stage.holding]
  | unlockRaise hstage =>
    refine invariant_set h rfl rfl rfl keep ?_
    have htx := hr.tx_none (by rw [hstage]; rfl)
    constructor <;> simp_all [Stage.holding]
  | unlock hstage =>
    refine invariant_set h rfl rfl rfl unlocked ?_
    have htx := hr.tx_none (by rw [hstage]; rfl)
    have hdone := hr.migrated
    rw [hstage] at hdone
    constructor <;> simp_all [Stage.holding]
  | close hstage =>
    rename_i raised
    refine invariant_set h rfl rfl rfl unlocked ?_
    have htx := hr.tx_none (by rw [hstage]; rfl)
    have hdone := hr.migrated
    rw [hstage] at hdone
    cases raised <;> constructor <;> simp_all [Stage.holding]
  | crash hstage =>
    refine invariant_set h rfl rfl rfl keep ?_
    constructor <;> simp [Stage.holding]
  | endLock hstage =>
    refine invariant_set h rfl rfl rfl unlocked ?_
    constructor <;> simp [hstage, Stage.holding]
  | endWork hstage =>
    refine invariant_set h rfl rfl rfl keep ?_
    constructor <;> simp [hstage, Stage.holding]

theorem initial_invariant (v : Fin (script.revisions.length + 1)) :
    Invariant script (initial script v) := by
  refine ⟨fun r => ?_, Nat.lt_succ_iff.mp v.isLt, rfl⟩
  constructor <;> simp [initial, Replica.fresh, Stage.holding]

end Invariants

section Runs

variable {v : Fin (script.revisions.length + 1)} {ρ : Run script v} {s t : State} {r : ℕ} {n : ℕ}

theorem run_invariant (hn : n ≤ ρ.length) : Invariant script (ρ.state n) := by
  refine ρ.invariant (initial_invariant v) ?_ hn
  intro s e t h hnext
  exact step_invariant h (next_step hnext)

/-- A step changes its own replica only. -/
theorem step_other {act : Act} (h : Step script s r act t) {q : ℕ} (hq : q ≠ r) :
    t.replica q = s.replica q := by
  cases h <;> exact set_other hq _

/-- All that a replica in the `finally` does is to unlock, unless it dies. -/
theorem unlocking_step {act : Act} (h : Step script s r act t) {raised : Bool}
    (hs : (s.replica r).stage = .unlocking raised) :
    act = .unlock ∨ act = .raise ∨ act = .crash := by
  cases h with
  | unlock => exact Or.inl rfl
  | unlockRaise => exact Or.inr (Or.inl rfl)
  | crash => exact Or.inr (Or.inr rfl)
  | connectLock hstage | connect hstage | lock hstage | begin hstage | read hstage
  | upgrade hstage | untouched hstage | rollback hstage | rollbackRaise hstage | close hstage
  | endLock hstage | endWork hstage =>
    rw [hs] at hstage
    cases hstage
  | commit _ hstage =>
    rw [hs] at hstage
    cases hstage
  | fail hstage | raise hstage =>
    rw [hs] at hstage
    cases hstage

/-- The way of an exception out of the `try`. -/
def Stage.leaving : Stage → Bool
  | .rollingBack | .unlocking true => true
  | _ => false

/-- A migration that raises goes to the `finally`, out of its transaction if there is one. -/
theorem raised_step {act : Act} (h : Step script s r act t)
    (hact : act = .raise ∨ act = .commitRaise)
    (hs : (s.replica r).stage.migrating = true) : (t.replica r).stage.leaving = true := by
  cases h with
  | untouched | raise | rollbackRaise =>
    rw [set_self]
    rfl
  | commit hact' hstage htx hk =>
    rename_i raised
    cases raised with
    | true =>
      rw [set_self]
      rfl
    | false =>
      rw [hact'] at hact
      rcases hact with h | h <;> cases h
  | fail hstage =>
    revert hs hstage
    cases (s.replica r).stage <;> simp [Stage.migrating, Stage.connecting]
  | unlockRaise hstage =>
    rw [hstage] at hs
    cases hs
  | connectLock | connect | lock | begin | read | upgrade | rollback | unlock | close | crash
  | endLock | endWork => rcases hact with h | h <;> cases h

/-- After an exception: the transaction is rolled back and then the lock is released, unless the
process dies. -/
theorem leaving_step {act : Act} (h : Step script s r act t)
    (hs : (s.replica r).stage = .rollingBack) :
    (t.replica r).stage = .unlocking true ∨ act = .crash := by
  cases h with
  | rollback | rollbackRaise => exact Or.inl (by rw [set_self])
  | crash => exact Or.inr rfl
  | connectLock hstage | connect hstage | lock hstage | begin hstage | read hstage
  | upgrade hstage | untouched hstage | unlock hstage | unlockRaise hstage | close hstage
  | endLock hstage | endWork hstage =>
    rw [hs] at hstage
    cases hstage
  | commit _ hstage =>
    rw [hs] at hstage
    cases hstage
  | fail hstage | raise hstage =>
    rw [hs] at hstage
    cases hstage

/-- The rollback is possible and has not been executed. -/
def AwaitsRollback (script : Script) (s : State) (r : ℕ) : Prop :=
  (s.replica r).stage = .rollingBack ∧ ∃ t, next script s ⟨r, .rollback⟩ = some t

/-- The unlock is possible and has not been executed. -/
def AwaitsUnlock (script : Script) (s : State) (r : ℕ) : Prop :=
  (s.replica r).stage = .unlocking true ∧ ∃ t, next script s ⟨r, .unlock⟩ = some t

/-- Replica `r` executes its unlock, which may raise, or its process dies. -/
def Unlocks (ρ : Run script v) (r j : ℕ) : Prop :=
  ((ρ.event j = ⟨r, .unlock⟩ ∨ ρ.event j = ⟨r, .raise⟩) ∧
    ((ρ.state j).replica r).stage = .unlocking true) ∨ ρ.event j = ⟨r, .crash⟩

/-- What the environment promises to replicas that run it at once. -/
structure MigratesOnce (ρ : Run script v) : Prop where
  exclusive : ∀ n ≤ ρ.length, ∀ q r, (ρ.state n).Holds q → (ρ.state n).Holds r → q = r
  unlocks_last : ∀ k < ρ.length, ∀ r, ρ.event k = ⟨r, .unlock⟩ → ((ρ.state k).replica r).tx = none
  /-- A replica whose migration raises rolls back what it has begun and executes the unlock next,
  unless its process dies; the unlock itself may raise. -/
  unlocks_raised : ∀ k r n, ρ.event k = ⟨r, .raise⟩ ∨ ρ.event k = ⟨r, .commitRaise⟩ →
    ((ρ.state k).replica r).stage.migrating = true → k < n → n ≤ ρ.length →
    AwaitsRollback script (ρ.state n) r ∨ AwaitsUnlock script (ρ.state n) r ∨
      ∃ j, k < j ∧ j < n ∧ Unlocks ρ r j
  once : ∀ n ≤ ρ.length, ∀ body, (ρ.state n).log.count body ≤ 1
  head : ∀ n ≤ ρ.length, ∀ r, ((ρ.state n).replica r).stage = .finished →
    (ρ.state n).version = script.revisions.length

theorem rollback_possible (h : (s.replica r).stage = .rollingBack) : AwaitsRollback script s r :=
  ⟨h, by simp [next, h]⟩

theorem unlock_possible (h : (s.replica r).stage = .unlocking true) : AwaitsUnlock script s r :=
  ⟨h, by simp [next, h]⟩

theorem awaits_leaving (h : (s.replica r).stage.leaving = true) :
    AwaitsRollback script s r ∨ AwaitsUnlock script s r := by
  unfold Stage.leaving at h
  split at h
  · rename_i hstage
    exact Or.inl (rollback_possible hstage)
  · rename_i hstage
    exact Or.inr (unlock_possible hstage)
  · cases h

theorem raised_unlocks {k : ℕ}
    (he : ρ.event k = ⟨r, .raise⟩ ∨ ρ.event k = ⟨r, .commitRaise⟩)
    (hs : ((ρ.state k).replica r).stage.migrating = true) (hkn : k + 1 ≤ n) (hn : n ≤ ρ.length) :
    AwaitsRollback script (ρ.state n) r ∨ AwaitsUnlock script (ρ.state n) r ∨
      ∃ j, k < j ∧ j < n ∧ Unlocks ρ r j := by
  induction n, hkn using Nat.le_induction with
  | base =>
    have hstep := next_step (ρ.valid k hn)
    have hleaving : ((ρ.state (k + 1)).replica r).stage.leaving = true := by
      rcases he with he | he
      · rw [he] at hstep
        exact raised_step hstep (Or.inl rfl) hs
      · rw [he] at hstep
        exact raised_step hstep (Or.inr rfl) hs
    exact (awaits_leaving hleaving).elim Or.inl fun h => Or.inr (Or.inl h)
  | succ n hkn ih =>
    rcases ih (by omega) with ⟨hstage, _⟩ | ⟨hstage, _⟩ | ⟨j, hkj, hjn, hj⟩
    · have hstep := next_step (ρ.valid n hn)
      by_cases hr : (ρ.event n).replica = r
      · have hev : ρ.event n = ⟨r, (ρ.event n).act⟩ := by rw [← hr]
        rw [hr] at hstep
        rcases leaving_step hstep hstage with hunlocking | hcrash
        · exact Or.inr (Or.inl (unlock_possible hunlocking))
        · exact Or.inr (Or.inr ⟨n, hkn, Nat.lt_succ_self n, Or.inr (by rw [hev, hcrash])⟩)
      · exact Or.inl (rollback_possible (by rw [step_other hstep (Ne.symm hr)]; exact hstage))
    · have hstep := next_step (ρ.valid n hn)
      by_cases hr : (ρ.event n).replica = r
      · have hev : ρ.event n = ⟨r, (ρ.event n).act⟩ := by rw [← hr]
        rw [hr] at hstep
        refine Or.inr (Or.inr ⟨n, hkn, Nat.lt_succ_self n, ?_⟩)
        rcases unlocking_step hstep hstage with h | h | h
        · exact Or.inl ⟨Or.inl (by rw [hev, h]), hstage⟩
        · exact Or.inl ⟨Or.inr (by rw [hev, h]), hstage⟩
        · exact Or.inr (by rw [hev, h])
      · exact Or.inr (Or.inl
          (unlock_possible (by rw [step_other hstep (Ne.symm hr)]; exact hstage)))
    · exact Or.inr (Or.inr ⟨j, hkj, by omega, hj⟩)

theorem unlock_step {act : Act} (h : Step script s r act t) (hact : act = .unlock) :
    ∃ raised, (s.replica r).stage = .unlocking raised := by
  cases h with
  | unlock hstage => exact ⟨_, hstage⟩
  | commit hact' hstage htx hk =>
    rename_i raised
    rw [hact] at hact'
    cases raised <;> cases hact'
  | connectLock | connect | lock | begin | read | upgrade | fail | untouched | raise | rollback
  | rollbackRaise | unlockRaise | close | crash | endLock | endWork => cases hact

/-- Whatever the replicas do and wherever they die, one of them migrates at a time and every
revision is applied once. -/
theorem migrates_once (ρ : Run script v) : MigratesOnce ρ where
  exclusive n hn q r hq hr := holds_unique hq hr rfl
  unlocks_last k hk r he := by
    have hstep := next_step (ρ.valid k hk)
    rw [he] at hstep
    obtain ⟨raised, hstage⟩ := unlock_step hstep rfl
    exact ((run_invariant hk.le).coherent r).tx_none (by rw [hstage]; rfl)
  unlocks_raised k r n he hs hkn hn := raised_unlocks he hs hkn hn
  once n hn body := by
    rw [(run_invariant hn).history]
    exact List.nodup_iff_count_le_one.mp (script.distinct.sublist (List.take_sublist _ _)) body
  head n hn r hr := ((run_invariant hn).coherent r).migrated (Or.inr (Or.inr hr))

/-- The second replica waits for the first and finds nothing to do. -/
example : (runEvents (next versions) (initial versions 0) [⟨0, .connectLock⟩, ⟨1, .connectLock⟩,
    ⟨0, .connect⟩, ⟨1, .connect⟩, ⟨1, .lock⟩, ⟨1, .begin⟩, ⟨1, .read⟩, ⟨1, .upgrade⟩,
    ⟨1, .commit⟩, ⟨1, .unlock⟩, ⟨0, .lock⟩, ⟨0, .begin⟩, ⟨0, .read⟩, ⟨0, .commit⟩]).map State.log =
      some ["0001"] := by decide

end Runs

end Migrations
