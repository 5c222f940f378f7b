import Mathlib.Data.List.Basic

/-! Lock tables: locks of several modes on resources, held until their holder releases them.
The table carries the proof that no two holders have conflicting locks on one resource. -/
namespace LockTables

structure Lock (η κ μ : Type) where
  holder : η
  resource : κ
  mode : μ
  deriving DecidableEq, Repr

/-- Which modes exclude each other between two holders. -/
class Modes (μ : Type) where
  conflicts : μ → μ → Bool
  symm : ∀ a b, conflicts a b = conflicts b a

variable {η κ μ : Type} [Modes μ]

structure LockTable (η κ μ : Type) [Modes μ] where
  held : List (Lock η κ μ)
  exclusive : ∀ l ∈ held, ∀ m ∈ held, l.resource = m.resource →
    Modes.conflicts l.mode m.mode = true → l.holder = m.holder

def LockTable.empty : LockTable η κ μ := ⟨[], by simp⟩

def LockTable.Holds (t : LockTable η κ μ) (h : η) (r : κ) (m : μ) : Prop := ⟨h, r, m⟩ ∈ t.held

theorem holds_unique {t : LockTable η κ μ} {h h' : η} {r : κ} {m m' : μ} (hl : t.Holds h r m)
    (hl' : t.Holds h' r m') (hc : Modes.conflicts m m' = true) : h = h' :=
  t.exclusive _ hl _ hl' rfl hc

@[simp] theorem holds_empty (h : η) (r : κ) (m : μ) :
    ¬ (LockTable.empty : LockTable η κ μ).Holds h r m := by
  simp [LockTable.Holds, LockTable.empty]

section Requests

variable [DecidableEq η]

def LockTable.release (t : LockTable η κ μ) (h : η) : LockTable η κ μ where
  held := t.held.filter (fun l => l.holder ≠ h)
  exclusive l hl m hm :=
    t.exclusive l (List.mem_of_mem_filter hl) m (List.mem_of_mem_filter hm)

@[simp] theorem release_holds (t : LockTable η κ μ) (h a : η) (r : κ) (m : μ) :
    (t.release h).Holds a r m ↔ t.Holds a r m ∧ a ≠ h := by
  simp [LockTable.Holds, LockTable.release]

variable [DecidableEq κ]

/-- A lock of another holder that the requested one has to wait for. -/
def LockTable.Blocks (t : LockTable η κ μ) (l : Lock η κ μ) : Prop :=
  ∃ m ∈ t.held, m.holder ≠ l.holder ∧ m.resource = l.resource ∧
    Modes.conflicts m.mode l.mode = true

instance (t : LockTable η κ μ) (l : Lock η κ μ) : Decidable (t.Blocks l) :=
  inferInstanceAs (Decidable (∃ m ∈ t.held, _))

/-- The table with the lock added, or nothing while the lock has to be waited for. -/
def LockTable.acquire (t : LockTable η κ μ) (l : Lock η κ μ) : Option (LockTable η κ μ) :=
  if h : t.Blocks l then none
  else some {
    held := l :: t.held
    exclusive := by
      have free : ∀ m ∈ t.held, m.resource = l.resource →
          Modes.conflicts m.mode l.mode = true → m.holder = l.holder := by
        intro m hm hr hc
        by_contra hne
        exact h ⟨m, hm, hne, hr, hc⟩
      intro a ha b hb hr hc
      rcases List.mem_cons.mp ha with hal | hat <;> rcases List.mem_cons.mp hb with hbl | hbt
      · rw [hal, hbl]
      · rw [hal] at hr hc ⊢
        exact (free b hbt hr.symm (by rw [Modes.symm]; exact hc)).symm
      · rw [hbl] at hr hc ⊢
        exact free a hat hr hc
      · exact t.exclusive a hat b hbt hr hc }

theorem acquire_free {t : LockTable η κ μ} {l : Lock η κ μ} (h : ¬t.Blocks l) :
    ∃ u, t.acquire l = some u :=
  ⟨_, dif_neg h⟩

def LockTable.acquireAll (t : LockTable η κ μ) :
    List (Lock η κ μ) → Option (LockTable η κ μ)
  | [] => some t
  | l :: ls => (t.acquire l).bind fun u => u.acquireAll ls

theorem acquire_holds {t u : LockTable η κ μ} {l : Lock η κ μ} (h : t.acquire l = some u)
    (a : η) (r : κ) (m : μ) : u.Holds a r m ↔ ⟨a, r, m⟩ = l ∨ t.Holds a r m := by
  unfold LockTable.acquire at h
  split at h
  · cases h
  · obtain rfl := Option.some.inj h
    simp [LockTable.Holds]

theorem acquireAll_holds {t u : LockTable η κ μ} {ls : List (Lock η κ μ)}
    (h : t.acquireAll ls = some u) (a : η) (r : κ) (m : μ) :
    u.Holds a r m ↔ ⟨a, r, m⟩ ∈ ls ∨ t.Holds a r m := by
  induction ls generalizing t with
  | nil => obtain rfl := Option.some.inj h; simp
  | cons l ls ih =>
    obtain ⟨v, hv, hu⟩ := Option.bind_eq_some_iff.mp h
    rw [ih hu, acquire_holds hv, List.mem_cons]
    tauto

/-- Locks of one holder do not wait for each other. -/
theorem acquireAll_free {t : LockTable η κ μ} {ls : List (Lock η κ μ)} {h : η}
    (hown : ∀ l ∈ ls, l.holder = h) :
    (∃ u, t.acquireAll ls = some u) ↔ ∀ l ∈ ls, ¬t.Blocks l := by
  induction ls generalizing t with
  | nil => simp [LockTable.acquireAll]
  | cons l ls ih =>
    obtain ⟨hl, hls⟩ := List.forall_mem_cons.mp hown
    rw [List.forall_mem_cons]
    by_cases hfree : t.Blocks l
    · have hnone : t.acquire l = none := dif_pos hfree
      simp [LockTable.acquireAll, hnone, hfree]
    · obtain ⟨v, hv⟩ := acquire_free hfree
      have hblocks : ∀ l' ∈ ls, v.Blocks l' ↔ t.Blocks l' := by
        intro l' hl'
        have hheld := acquire_holds hv
        constructor
        · rintro ⟨m, hm, hne, hm'⟩
          rcases (hheld m.holder m.resource m.mode).mp hm with heq | hm
          · have hholder : m.holder = l.holder := congrArg Lock.holder heq
            exact absurd (hholder.trans (hl.trans (hls l' hl').symm)) hne
          · exact ⟨m, hm, hne, hm'⟩
        · rintro ⟨m, hm, hm'⟩
          exact ⟨m, (hheld m.holder m.resource m.mode).mpr (.inr hm), hm'⟩
      rw [LockTable.acquireAll, hv, Option.bind_some, ih hls]
      constructor
      · exact fun hall => ⟨hfree, fun l' hl' => (hblocks l' hl').not.mp (hall l' hl')⟩
      · exact fun hall l' hl' => (hblocks l' hl').not.mpr (hall.2 l' hl')

/-- Taking locks and giving them back leaves the table. -/
theorem acquireAll_release {t u : LockTable η κ μ} {ls : List (Lock η κ μ)} {h : η}
    (hown : ∀ l ∈ ls, l.holder = h) (hnone : ∀ r m, ¬t.Holds h r m)
    (hu : t.acquireAll ls = some u) : u.release h = t := by
  have hreleased : t.release h = t := by
    have hkeep : t.held.filter (fun l => l.holder ≠ h) = t.held := by
      rw [List.filter_eq_self]
      intro l hl
      rw [decide_eq_true_eq]
      rintro rfl
      exact hnone _ _ hl
    cases t
    simpa [LockTable.release] using hkeep
  have hsame : u.release h = t.release h := by
    clear hreleased hnone
    induction ls generalizing t with
    | nil =>
      obtain rfl := Option.some.inj hu
      rfl
    | cons l ls ih =>
      obtain ⟨hl, hls⟩ := List.forall_mem_cons.mp hown
      obtain ⟨v, hv, hu⟩ := Option.bind_eq_some_iff.mp hu
      rw [ih hls hu]
      unfold LockTable.acquire at hv
      split at hv
      · cases hv
      · obtain rfl := Option.some.inj hv
        simp [LockTable.release, hl]
  rw [hsame, hreleased]

end Requests

end LockTables
