import Mathlib.Data.List.Nodup

/-! Tables of rows with a primary key.
A table is a list of rows without two rows of one key; the list order is the storage
order, which no lookup depends on. -/
namespace KeyedTables

structure Table (κ ρ : Type) (key : ρ → κ) where
  rows : List ρ
  distinct : (rows.map key).Nodup

variable {κ ρ : Type} {key : ρ → κ} [DecidableEq κ]

def Table.empty : Table κ ρ key := ⟨[], by simp⟩

instance [DecidableEq ρ] : DecidableEq (Table κ ρ key) := fun t u =>
  decidable_of_iff (t.rows = u.rows) (by cases t; cases u; simp)

def Table.lookup (t : Table κ ρ key) (k : κ) : Option ρ := t.rows.find? (fun r => key r = k)

def Table.drop (t : Table κ ρ key) (k : κ) : Table κ ρ key where
  rows := t.rows.filter (fun r => key r ≠ k)
  distinct := t.distinct.sublist (List.filter_sublist.map key)

/-- Insert a row, or replace the row that has its key. -/
def Table.put (t : Table κ ρ key) (r : ρ) : Table κ ρ key where
  rows := r :: (t.drop (key r)).rows
  distinct := by
    rw [List.map_cons, List.nodup_cons]
    refine ⟨?_, (t.drop (key r)).distinct⟩
    simp [Table.drop]

theorem lookup_key {t : Table κ ρ key} {k : κ} {r : ρ} (h : t.lookup k = some r) : key r = k := by
  simpa using List.find?_some h

theorem lookup_mem {t : Table κ ρ key} {k : κ} {r : ρ} (h : t.lookup k = some r) : r ∈ t.rows :=
  List.mem_of_find?_eq_some h

/-- Distinct keys: the row stored under its key is the only one there. -/
theorem mem_rows_iff {t : Table κ ρ key} {r : ρ} : r ∈ t.rows ↔ t.lookup (key r) = some r := by
  constructor
  · intro hr
    cases hl : t.lookup (key r) with
    | none => exact absurd (List.find?_eq_none.mp hl r hr) (by simp)
    | some r' =>
      have hk := lookup_key hl
      exact congrArg some (List.inj_on_of_nodup_map t.distinct (lookup_mem hl) hr hk)
  · exact lookup_mem

@[simp] theorem lookup_empty (k : κ) : (Table.empty : Table κ ρ key).lookup k = none := rfl

@[simp] theorem lookup_drop (t : Table κ ρ key) (k k' : κ) :
    (t.drop k).lookup k' = if k' = k then none else t.lookup k' := by
  unfold Table.lookup Table.drop
  rw [List.find?_filter]
  by_cases h : k' = k
  · subst h; simp
  · rw [if_neg h]
    congr 1
    funext r
    by_cases hr : key r = k'
    · simp [hr, h]
    · simp [hr]

theorem put_empty {t : Table κ ρ key} {r : ρ} (h : t.rows = []) : (t.put r).rows = [r] := by
  simp [Table.put, Table.drop, h]

@[simp] theorem lookup_put (t : Table κ ρ key) (r : ρ) (k : κ) :
    (t.put r).lookup k = if k = key r then some r else t.lookup k := by
  by_cases h : k = key r
  · subst h; simp [Table.lookup, Table.put]
  · rw [if_neg h]
    have hd := lookup_drop t (key r) k
    rw [if_neg h] at hd
    rw [← hd]
    simp [Table.lookup, Table.put, Ne.symm h]

/-- Of two rows of one key the later one stays. -/
theorem put_put (t : Table κ ρ key) {r r' : ρ} (h : key r = key r') :
    (t.put r).put r' = t.put r' := by
  have hrows : ((t.put r).put r').rows = (t.put r').rows := by
    simp [Table.put, Table.drop, h]
  cases ht : (t.put r).put r'
  cases ht' : t.put r'
  rw [ht, ht'] at hrows
  simpa using hrows

end KeyedTables
