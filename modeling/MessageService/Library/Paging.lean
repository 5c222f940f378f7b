import Mathlib.Data.Finset.Card
import Mathlib.Data.List.Nodup
import Mathlib.Data.List.Sort

/-! Walking the pages of a list that grows.
Page `k` is cut by its offset out of what the list is then. New entries may stand anywhere;
they only push the others back, so a walk skips nothing, and what it returns again is paid
for by what was inserted. -/
namespace Paging

variable {κ : Type} {l l' : List κ} {size k n : ℕ} {x : κ}

def page (l : List κ) (size k : ℕ) : List κ := (l.drop (k * size)).take size

theorem take_page (l : List κ) (size k : ℕ) :
    l.take (k * size) ++ page l size k = l.take ((k + 1) * size) := by
  rw [page, Nat.succ_mul, List.take_add]

theorem mem_take_succ :
    x ∈ l.take ((k + 1) * size) ↔ x ∈ l.take (k * size) ∨ x ∈ page l size k := by
  rw [← take_page, List.mem_append]

/-- What a page returns is not also before it. -/
theorem page_disjoint (h : l.Nodup) (hx : x ∈ page l size k) : x ∉ l.take (k * size) := by
  have hsplit : (l.take (k * size) ++ page l size k).Nodup := by
    rw [take_page]
    exact h.sublist (List.take_sublist _ _)
  intro hbefore
  exact (List.nodup_append.mp hsplit).2.2 x hbefore x hx rfl

theorem page_nodup (h : l.Nodup) (size k : ℕ) : (page l size k).Nodup :=
  h.sublist ((List.take_sublist _ _).trans (List.drop_sublist _ _))

section Insertions

/-- An insertion moves an entry back, never forward. -/
theorem take_of_sublist (h : l.Sublist l') (hn : l'.Nodup) (hx : x ∈ l) {t : ℕ}
    (ht : x ∈ l'.take t) : x ∈ l.take t := by
  induction h generalizing t with
  | slnil => cases hx
  | cons a h ih =>
    rename_i l l'
    cases t with
    | zero => cases ht
    | succ t =>
      rcases List.mem_cons.mp ht with rfl | ht
      · exact absurd (h.subset hx) (List.nodup_cons.mp hn).1
      · have hbefore := ih (List.nodup_cons.mp hn).2 hx ht
        exact (List.take_sublist_take_left (Nat.le_succ t)).subset hbefore
  | cons_cons a h ih =>
    cases t with
    | zero => cases ht
    | succ t =>
      rcases List.mem_cons.mp ht with rfl | ht
      · exact List.mem_cons_self ..
      · rcases List.mem_cons.mp hx with rfl | hx
        · exact List.mem_cons_self ..
        · exact List.mem_cons_of_mem _ (ih (List.nodup_cons.mp hn).2 hx ht)

variable [DecidableEq κ]

/-- Every insertion pushes at most one entry over a given position. -/
theorem crossed_le (h : l.Sublist l') (t : ℕ) :
    ((l.take t).toFinset \ (l'.take t).toFinset).card + l.length ≤ l'.length := by
  induction h generalizing t with
  | slnil => simp
  | cons a h ih =>
    rename_i l l'
    cases t with
    | zero => simpa using h.length_le.trans (Nat.le_succ _)
    | succ t =>
      have hlast : (l.take (t + 1)).toFinset ⊆ (l.take t).toFinset ∪ (l[t]?).toList.toFinset := by
        rw [List.take_add_one, List.toFinset_append]
      have hsub : (l.take (t + 1)).toFinset \ ((a :: l').take (t + 1)).toFinset ⊆
          ((l.take t).toFinset \ (l'.take t).toFinset) ∪ (l[t]?).toList.toFinset := by
        intro y hy
        rw [Finset.mem_sdiff, List.take_succ_cons, List.toFinset_cons, Finset.mem_insert] at hy
        rcases Finset.mem_union.mp (hlast hy.1) with hbefore | hat
        · exact Finset.mem_union_left _ (Finset.mem_sdiff.mpr ⟨hbefore, fun h => hy.2 (.inr h)⟩)
        · exact Finset.mem_union_right _ hat
      have hone : (l[t]?).toList.toFinset.card ≤ 1 := by
        refine (List.toFinset_card_le _).trans ?_
        cases l[t]? with
        | none => simp
        | some y => simp
      have hcard := (Finset.card_le_card hsub).trans (Finset.card_union_le _ _)
      have hprev := ih t
      simp only [List.length_cons]
      omega
  | cons_cons a h ih =>
    rename_i l l'
    cases t with
    | zero => simpa using h.length_le
    | succ t =>
      have hsub : ((a :: l).take (t + 1)).toFinset \ ((a :: l').take (t + 1)).toFinset ⊆
          (l.take t).toFinset \ (l'.take t).toFinset := by
        intro y hy
        simp only [List.take_succ_cons, List.toFinset_cons, Finset.mem_sdiff, Finset.mem_insert,
          not_or] at hy ⊢
        exact ⟨hy.1.resolve_left hy.2.1, hy.2.2⟩
      have hcard := Finset.card_le_card hsub
      have hprev := ih t
      simp only [List.length_cons]
      omega

end Insertions

section Walks

/-- The pages `0, .., n - 1`, one after the other, where `T k` is the list page `k` is cut from. -/
def walked (T : ℕ → List κ) (size n : ℕ) : List κ :=
  ((List.range n).map fun k => page (T k) size k).flatten

theorem walked_succ (T : ℕ → List κ) (size n : ℕ) :
    walked T size (n + 1) = walked T size n ++ page (T n) size n := by
  simp [walked, List.range_succ]

theorem mem_walked {T : ℕ → List κ} : x ∈ walked T size n ↔ ∃ k < n, x ∈ page (T k) size k := by
  simp [walked]

/-- The lists a walk of `n` pages sees: entries are inserted and none is taken away. -/
structure Growing (T : ℕ → List κ) (n : ℕ) : Prop where
  nodup : ∀ k < n, (T k).Nodup
  grows : ∀ k, k + 1 < n → (T k).Sublist (T (k + 1))

variable {T : ℕ → List κ}

theorem Growing.sublist (h : Growing T n) (hk : k < n) : (T 0).Sublist (T k) := by
  induction k with
  | zero => exact List.Sublist.refl _
  | succ k ih => exact (ih (by omega)).trans (h.grows k hk)

/-- A walk over a list that does not change returns the list. -/
theorem walked_constant (h : ∀ k < n, T k = l) : walked T size n = l.take (n * size) := by
  induction n with
  | zero => simp [walked]
  | succ n ih =>
    rw [walked_succ, ih fun k hk => h k (by omega), h n (by omega), take_page]

/-- An entry that a page has got past was on it or on an earlier one. -/
theorem passed_walked (h : Growing T n) (hx : x ∈ T 0) (hk : k < n)
    (hpassed : x ∈ (T k).take ((k + 1) * size)) : x ∈ walked T size n := by
  induction k with
  | zero =>
    rcases mem_take_succ.mp hpassed with hbefore | hpage
    · simp at hbefore
    · exact mem_walked.mpr ⟨0, hk, hpage⟩
  | succ k ih =>
    rcases mem_take_succ.mp hpassed with hbefore | hpage
    · have hin : x ∈ T k := (h.sublist (by omega)).subset hx
      exact ih (by omega) (take_of_sublist (h.grows k hk) (h.nodup _ hk) hin hbefore)
    · exact mem_walked.mpr ⟨k + 1, hk, hpage⟩

/-- A walk that got to the end of its list has returned every entry of the first one. -/
theorem walk_covers (h : Growing T n) (hn : 0 < n) (hend : (T (n - 1)).length ≤ n * size)
    (hx : x ∈ T 0) : x ∈ walked T size n := by
  apply passed_walked h hx (by omega : n - 1 < n)
  rw [Nat.sub_add_cancel hn, List.take_of_length_le hend]
  exact (h.sublist (by omega)).subset hx

variable [DecidableEq κ]

/-- The entries returned by page `k` that the list has pushed back behind it since. -/
def ahead (T : ℕ → List κ) (size k : ℕ) : Finset κ :=
  (walked T size (k + 1)).toFinset \ ((T k).take ((k + 1) * size)).toFinset

/-- One more page: it returns again only what was ahead of it or has been pushed there. -/
theorem ahead_step (size : ℕ) (h : Growing T n) (hk : k + 1 < n) :
    ((walked T size (k + 1)).toFinset ∩ (page (T (k + 1)) size (k + 1)).toFinset).card +
      (ahead T size (k + 1)).card + (T k).length ≤
    (ahead T size k).card + (T (k + 1)).length := by
  have hcross := crossed_le (h.grows k hk) ((k + 1) * size)
  set R := (walked T size (k + 1)).toFinset with hR
  set P := (page (T (k + 1)) size (k + 1)).toFinset with hP
  have hpage : ∀ y, y ∈ P → y ∉ (T (k + 1)).take ((k + 1) * size) := by
    intro y hy
    exact page_disjoint (h.nodup _ hk) (List.mem_toFinset.mp hy)
  have hahead : ahead T size (k + 1) ⊆
      (R \ ((T (k + 1)).take ((k + 1) * size)).toFinset) \ P := by
    intro y hy
    rw [ahead, Finset.mem_sdiff, List.mem_toFinset, List.mem_toFinset, walked_succ,
      List.mem_append, mem_take_succ (k := k + 1), not_or] at hy
    simp only [hR, hP, Finset.mem_sdiff, List.mem_toFinset]
    exact ⟨⟨hy.1.resolve_right hy.2.2, hy.2.1⟩, hy.2.2⟩
  have hrepeat : R ∩ P ⊆ R \ ((T (k + 1)).take ((k + 1) * size)).toFinset := by
    intro y hy
    rw [Finset.mem_inter] at hy
    exact Finset.mem_sdiff.mpr ⟨hy.1, fun h => hpage y hy.2 (List.mem_toFinset.mp h)⟩
  have hdisjoint : Disjoint (R ∩ P) (ahead T size (k + 1)) := by
    rw [Finset.disjoint_left]
    intro y hy hy'
    exact (Finset.mem_sdiff.mp (hahead hy')).2 (Finset.mem_inter.mp hy).2
  have hboth : (R ∩ P) ∪ ahead T size (k + 1) ⊆
      R \ ((T (k + 1)).take ((k + 1) * size)).toFinset :=
    Finset.union_subset hrepeat fun y hy => (Finset.mem_sdiff.mp (hahead hy)).1
  have hpushed : R \ ((T (k + 1)).take ((k + 1) * size)).toFinset ⊆ ahead T size k ∪
      (((T k).take ((k + 1) * size)).toFinset \
        ((T (k + 1)).take ((k + 1) * size)).toFinset) := by
    intro y hy
    rw [Finset.mem_sdiff] at hy
    by_cases hbefore : y ∈ ((T k).take ((k + 1) * size)).toFinset
    · exact Finset.mem_union_right _ (Finset.mem_sdiff.mpr ⟨hbefore, hy.2⟩)
    · exact Finset.mem_union_left _ (Finset.mem_sdiff.mpr ⟨hy.1, hbefore⟩)
  have hcard := Finset.card_le_card (hboth.trans hpushed)
  rw [Finset.card_union_of_disjoint hdisjoint] at hcard
  have hsum := Finset.card_union_le (ahead T size k)
    (((T k).take ((k + 1) * size)).toFinset \ ((T (k + 1)).take ((k + 1) * size)).toFinset)
  omega

/-- The run lemma: repeats so far, and those still to come, are at most the insertions so far. -/
theorem repeats_ahead (size : ℕ) (h : Growing T n) (hk : k < n) :
    (walked T size (k + 1)).length + (ahead T size k).card + (T 0).length ≤
      (walked T size (k + 1)).toFinset.card + (T k).length := by
  induction k with
  | zero =>
    have hfirst : walked T size 1 = (T 0).take (1 * size) := by
      rw [walked_succ, ← take_page (T 0) size 0]
      simp [walked]
    have hnodup : ((T 0).take (1 * size)).Nodup := (h.nodup 0 hk).sublist (List.take_sublist _ _)
    simp only [ahead, Nat.zero_add, hfirst]
    rw [Finset.sdiff_self, Finset.card_empty, List.toFinset_card_of_nodup hnodup]
    omega
  | succ k ih =>
    have hprev := ih (by omega)
    have hstep := ahead_step size h hk
    have hpage := List.toFinset_card_of_nodup (page_nodup (h.nodup _ hk) size (k + 1))
    have hunion := Finset.card_union_add_card_inter (walked T size (k + 1)).toFinset
      (page (T (k + 1)) size (k + 1)).toFinset
    rw [walked_succ T size (k + 1), List.length_append, List.toFinset_append]
    omega

/-- What a walk returns again is at most what was inserted. -/
theorem walk_repeats (size : ℕ) (h : Growing T n) (hn : 0 < n) :
    (walked T size n).length + (T 0).length ≤
      (walked T size n).toFinset.card + (T (n - 1)).length := by
  have hlast := repeats_ahead size h (k := n - 1) (by omega)
  rw [Nat.sub_add_cancel hn] at hlast
  omega

end Walks

section Filters

variable {r : κ → κ → Prop} [DecidableRel r] [Std.Total r] [IsTrans κ r]

/-- Sorting what is selected is selecting from what is sorted, where the order has no ties. -/
theorem insertionSort_filter (htie : ∀ x ∈ l, ∀ y ∈ l, r x y → r y x → x = y) (p : κ → Bool) :
    (l.filter p).insertionSort r = (l.insertionSort r).filter p := by
  have hperm : ((l.filter p).insertionSort r).Perm ((l.insertionSort r).filter p) :=
    (List.perm_insertionSort r _).trans ((List.perm_insertionSort r l).filter p).symm
  apply List.Perm.eq_of_pairwise ?_ (List.pairwise_insertionSort r _)
    ((List.pairwise_insertionSort r l).filter p) hperm
  intro x y hx hy
  apply htie x (List.mem_filter.mp ((List.mem_insertionSort r).mp hx)).1
  exact (List.mem_insertionSort r).mp (List.mem_filter.mp hy).1

end Filters

end Paging
