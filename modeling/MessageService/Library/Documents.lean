import Mathlib.Data.List.Basic
import Mathlib.Data.Rat.Init

/-! Nested documents that are edited in place: the object under a name, or every object of an
object. What an edit leaves alone, when it changes nothing, and where references stand. -/
namespace Documents

inductive Doc where
  | null
  | bool (b : Bool)
  | num (n : ℚ)
  | str (s : String)
  | arr (items : List Doc)
  | obj (members : List (String × Doc))

abbrev Members := List (String × Doc)

section Members

def get? (name : String) : Members → Option Doc
  | [] => none
  | (k, v) :: ms => if k = name then some v else get? name ms

/-- A value in place of the one that is there, or at the end. -/
def set (name : String) (value : Doc) : Members → Members
  | [] => [(name, value)]
  | (k, v) :: ms => if k = name then (k, value) :: ms else (k, v) :: set name value ms

def pop (name : String) : Members → Members
  | [] => []
  | (k, v) :: ms => if k = name then pop name ms else (k, v) :: pop name ms

variable {name k : String} {v w : Doc} {ms : Members}

theorem get?_set (name k : String) (v : Doc) (ms : Members) :
    get? k (set name v ms) = if k = name then some v else get? k ms := by
  induction ms with
  | nil => simp [set, get?, eq_comm]
  | cons m ms ih =>
    obtain ⟨key, value⟩ := m
    by_cases hkey : key = name
    · subst hkey
      by_cases hk : k = key
      · subst hk
        simp [set, get?]
      · simp [set, get?, hk, Ne.symm hk]
    · by_cases hk : key = k
      · subst hk
        simp [set, get?, hkey]
      · simp [set, get?, hkey, hk, ih]

theorem get?_pop (name k : String) (ms : Members) :
    get? k (pop name ms) = if k = name then none else get? k ms := by
  induction ms with
  | nil => simp [pop, get?]
  | cons m ms ih =>
    obtain ⟨key, value⟩ := m
    by_cases hkey : key = name
    · subst hkey
      by_cases hk : k = key
      · simp [pop, hk, hk ▸ ih]
      · simp [pop, get?, hk, Ne.symm hk, ih]
    · by_cases hk : key = k
      · subst hk
        simp [pop, get?, hkey]
      · simp [pop, get?, hkey, hk, ih]

/-- Setting what is there changes nothing. -/
theorem set_get (h : get? name ms = some v) : set name v ms = ms := by
  induction ms with
  | nil => cases h
  | cons m ms ih =>
    obtain ⟨key, value⟩ := m
    by_cases hkey : key = name
    · subst hkey
      obtain rfl : value = v := by simpa [get?] using h
      simp [set]
    · simp [set, hkey, ih (by simpa [get?, hkey] using h)]

theorem pop_absent (h : get? name ms = none) : pop name ms = ms := by
  induction ms with
  | nil => rfl
  | cons m ms ih =>
    obtain ⟨key, value⟩ := m
    by_cases hkey : key = name
    · simp [get?, hkey] at h
    · simp [pop, hkey, ih (by simpa [get?, hkey] using h)]

end Members

section Edits

/-- The object under a name is edited; a name that is not there is left alone. Anything but an
object there is an error. -/
def within (name : String) (f : Members → Option Members) (ms : Members) : Option Members :=
  match get? name ms with
  | none => some ms
  | some (.obj inner) => (f inner).map fun inner => set name (.obj inner) ms
  | some _ => none

/-- Every value is an object and is edited, knowing its key. -/
def each (f : String → Members → Option Members) : Members → Option Members
  | [] => some []
  | (k, .obj inner) :: ms => (f k inner).bind fun inner =>
    (each f ms).map fun ms => (k, .obj inner) :: ms
  | _ :: _ => none

/-- What stands under `name`, if anything does, is an object with `P`. -/
def ObjectAt (name : String) (P : Members → Prop) (ms : Members) : Prop :=
  ∀ v, get? name ms = some v → ∃ inner, v = .obj inner ∧ P inner

def AllObjects (P : String → Members → Prop) (ms : Members) : Prop :=
  ∀ m ∈ ms, ∃ inner, m.2 = .obj inner ∧ P m.1 inner

/-- Nothing before and nothing after, or an object and its edited form. -/
inductive Edited (R : Members → Members → Prop) : Option Doc → Option Doc → Prop where
  | absent : Edited R none none
  | object {inner inner'} : R inner inner' → Edited R (some (.obj inner)) (some (.obj inner'))

theorem Edited.after {R : Members → Members → Prop} {before : Option Doc} {v : Doc}
    (h : Edited R before (some v)) :
    ∃ inner inner', before = some (.obj inner) ∧ v = .obj inner' ∧ R inner inner' := by
  cases h with
  | object hR => exact ⟨_, _, rfl, rfl, hR⟩

theorem Edited.before {R : Members → Members → Prop} {inner : Members} {after : Option Doc}
    (h : Edited R (some (.obj inner)) after) :
    ∃ inner', after = some (.obj inner') ∧ R inner inner' := by
  cases h with
  | object hR => exact ⟨_, rfl, hR⟩

structure EditedAt (name : String) (R : Members → Members → Prop) (ms ms' : Members) : Prop where
  others : ∀ k, k ≠ name → get? k ms' = get? k ms
  edited : Edited R (get? name ms) (get? name ms')

def EditedEach (R : String → Members → Members → Prop) (ms ms' : Members) : Prop :=
  ∀ k, Edited (R k) (get? k ms) (get? k ms')

variable {name : String} {f : Members → Option Members} {ms ms' : Members}
  {g : String → Members → Option Members} {P : Members → Prop} {Q : String → Members → Prop}
  {R : Members → Members → Prop} {S : String → Members → Members → Prop}

theorem within_edits (hobject : ObjectAt name P ms)
    (hf : ∀ inner, P inner → ∃ inner', f inner = some inner' ∧ R inner inner') :
    ∃ ms', within name f ms = some ms' ∧ EditedAt name R ms ms' := by
  unfold within
  cases hget : get? name ms with
  | none =>
    refine ⟨ms, rfl, fun _ _ => rfl, ?_⟩
    rw [hget]
    exact .absent
  | some v =>
    obtain ⟨inner, rfl, hP⟩ := hobject v hget
    obtain ⟨inner', hinner, hR⟩ := hf inner hP
    refine ⟨set name (.obj inner') ms, by simp [hinner], ?_, ?_⟩
    · intro k hk
      rw [get?_set, if_neg hk]
    · rw [hget, get?_set, if_pos rfl]
      exact .object hR

theorem each_edits (hobjects : AllObjects Q ms)
    (hg : ∀ k inner, Q k inner → ∃ inner', g k inner = some inner' ∧ S k inner inner') :
    ∃ ms', each g ms = some ms' ∧ EditedEach S ms ms' := by
  induction ms with
  | nil => exact ⟨[], rfl, fun _ => .absent⟩
  | cons m ms ih =>
    obtain ⟨key, value⟩ := m
    obtain ⟨inner, hvalue, hQ⟩ := hobjects _ (List.mem_cons_self ..)
    obtain rfl : value = .obj inner := hvalue
    obtain ⟨inner', hinner, hS⟩ := hg key inner hQ
    obtain ⟨ms', hms', hedited⟩ := ih fun m hm => hobjects m (List.mem_cons_of_mem _ hm)
    refine ⟨(key, .obj inner') :: ms', by simp [each, hinner, hms'], ?_⟩
    intro k
    by_cases hk : key = k
    · subst hk
      simp only [get?, if_true]
      exact .object hS
    · simp only [get?, if_neg hk]
      exact hedited k

theorem AllObjects.pop (h : AllObjects Q ms) (name : String) : AllObjects Q (pop name ms) := by
  induction ms with
  | nil => exact h
  | cons m ms ih =>
    obtain ⟨key, value⟩ := m
    obtain ⟨hm, hms⟩ := List.forall_mem_cons.mp h
    rw [Documents.pop]
    by_cases hkey : key = name
    · rw [if_pos hkey]
      exact ih hms
    · rw [if_neg hkey]
      exact List.forall_mem_cons.mpr ⟨hm, ih hms⟩

theorem within_others (h : within name f ms = some ms') {k : String} (hk : k ≠ name) :
    get? k ms' = get? k ms := by
  unfold within at h
  cases hget : get? name ms with
  | none =>
    rw [hget] at h
    rw [Option.some.inj h]
  | some v =>
    rw [hget] at h
    cases v with
    | obj inner =>
      obtain ⟨inner', _, rfl⟩ := Option.map_eq_some_iff.mp h
      rw [get?_set, if_neg hk]
    | _ => cases h

/-- Editing the values adds no key. -/
theorem each_absent (h : each g ms = some ms') {k : String} (hk : get? k ms = none) :
    get? k ms' = none := by
  induction ms generalizing ms' with
  | nil =>
    obtain rfl := Option.some.inj h
    exact hk
  | cons m ms ih =>
    obtain ⟨key, value⟩ := m
    cases value with
    | obj inner =>
      obtain ⟨inner', _, hrest⟩ := Option.bind_eq_some_iff.mp h
      obtain ⟨rest, hms, rfl⟩ := Option.map_eq_some_iff.mp hrest
      by_cases hkey : key = k
      · simp [get?, hkey] at hk
      · simp only [get?, if_neg hkey] at hk ⊢
        exact ih hms hk
    | _ => cases h

/-- An edit changes nothing exactly when it does not change the object it is made in. -/
theorem within_fixed_iff : within name f ms = some ms ↔
    ∀ v, get? name ms = some v → ∃ inner, v = .obj inner ∧ f inner = some inner := by
  unfold within
  cases hget : get? name ms with
  | none => simp
  | some v =>
    cases v with
    | obj inner =>
      constructor
      · intro h v hv
        obtain rfl := Option.some.inj hv
        obtain ⟨inner', hinner, hset⟩ := Option.map_eq_some_iff.mp h
        have hsame := get?_set name name (.obj inner') ms
        rw [hset, hget, if_pos rfl] at hsame
        obtain rfl : inner = inner' := by simpa using hsame
        exact ⟨inner, rfl, hinner⟩
      · intro h
        obtain ⟨inner', hinner, hfixed⟩ := h _ rfl
        obtain rfl : inner = inner' := by simpa using hinner
        simp [hfixed, set_get hget]
    | _ => simp

theorem within_idempotent (hf : ∀ inner inner', f inner = some inner' → f inner' = some inner')
    (h : within name f ms = some ms') : within name f ms' = some ms' := by
  rw [within_fixed_iff]
  intro v hv
  unfold within at h
  cases hget : get? name ms with
  | none =>
    rw [hget] at h
    obtain rfl := Option.some.inj h
    rw [hget] at hv
    cases hv
  | some w =>
    rw [hget] at h
    cases w with
    | obj inner =>
      obtain ⟨inner', hinner, rfl⟩ := Option.map_eq_some_iff.mp h
      rw [get?_set, if_pos rfl] at hv
      exact ⟨inner', (Option.some.inj hv).symm, hf _ _ hinner⟩
    | _ => cases h

theorem each_idempotent
    (hg : ∀ k inner inner', g k inner = some inner' → g k inner' = some inner')
    (h : each g ms = some ms') : each g ms' = some ms' := by
  induction ms generalizing ms' with
  | nil =>
    obtain rfl := Option.some.inj h
    rfl
  | cons m ms ih =>
    obtain ⟨key, value⟩ := m
    cases value with
    | obj inner =>
      obtain ⟨inner', hinner, hrest⟩ := Option.bind_eq_some_iff.mp h
      obtain ⟨rest, hms, rfl⟩ := Option.map_eq_some_iff.mp hrest
      simp [each, hg _ _ _ hinner, ih hms]
    | _ => cases h

end Edits

section References

/-- A reference with `P` stands in a document at this place. -/
inductive RefersAt (P : String → Prop) : List String → Doc → Prop where
  | here {ref ms} : get? "$ref" ms = some (.str ref) → P ref → RefersAt P [] (.obj ms)
  | member {k v keys ms} : get? k ms = some v → RefersAt P keys v →
    RefersAt P (k :: keys) (.obj ms)
  | item {i : ℕ} {v : Doc} {keys : List String} {items : List Doc} : items[i]? = some v →
    RefersAt P keys v → RefersAt P (toString i :: keys) (.arr items)

def ownReference (k : String) : Doc → List (List String × String)
  | .str ref => if k = "$ref" then [([], ref)] else []
  | _ => []

mutual
/-- The references of a document, each with its place. -/
def references : Doc → List (List String × String)
  | .arr items => itemReferences 0 items
  | .obj members => memberReferences members
  | _ => []

def memberReferences : List (String × Doc) → List (List String × String)
  | [] => []
  | m :: ms => memberReference m ++ memberReferences ms

def memberReference : String × Doc → List (List String × String)
  | (k, v) => ownReference k v ++ (references v).map fun r => (k :: r.1, r.2)

def itemReferences : ℕ → List Doc → List (List String × String)
  | _, [] => []
  | i, v :: items =>
    (references v).map (fun r => (toString i :: r.1, r.2)) ++ itemReferences (i + 1) items
end

variable {P : String → Prop} {name : String} {ms ms' : Members} {keys : List String}
  {R : Members → Members → Prop} {S : String → Members → Members → Prop}

theorem mem_memberReferences {k : String} {v : Doc} {r : List String × String}
    (h : get? k ms = some v) (hr : r ∈ memberReference (k, v)) : r ∈ memberReferences ms := by
  induction ms with
  | nil => cases h
  | cons m ms ih =>
    rw [memberReferences, List.mem_append]
    rw [get?] at h
    split at h
    · next hk =>
      obtain rfl := Option.some.inj h
      rw [← hk] at hr
      exact Or.inl hr
    · exact Or.inr (ih h)

theorem mem_itemReferences {i j : ℕ} {v : Doc} {items : List Doc} {r : List String × String}
    (h : items[i]? = some v) (hr : r ∈ references v) :
    (toString (j + i) :: r.1, r.2) ∈ itemReferences j items := by
  induction items generalizing i j with
  | nil => cases h
  | cons v' items ih =>
    rw [itemReferences, List.mem_append]
    cases i with
    | zero =>
      obtain rfl := Option.some.inj h
      exact Or.inl (List.mem_map_of_mem hr)
    | succ i =>
      have hplace : j + (i + 1) = j + 1 + i := by omega
      rw [hplace]
      exact Or.inr (ih h)

/-- No reference is missed. -/
theorem RefersAt.listed {d : Doc} (h : RefersAt P keys d) :
    ∃ ref, (keys, ref) ∈ references d ∧ P ref := by
  induction h with
  | here hget hP =>
    refine ⟨_, ?_, hP⟩
    rw [references]
    exact mem_memberReferences hget (by simp [memberReference, ownReference])
  | member hget _ ih =>
    obtain ⟨ref, hmem, hP⟩ := ih
    refine ⟨ref, ?_, hP⟩
    rw [references]
    refine mem_memberReferences hget ?_
    rw [memberReference, List.mem_append]
    exact Or.inr (List.mem_map_of_mem hmem)
  | item hget _ ih =>
    obtain ⟨ref, hmem, hP⟩ := ih
    refine ⟨ref, ?_, hP⟩
    rw [references]
    simpa using mem_itemReferences (j := 0) hget hmem

/-- A reference in an edited object stood there before, or is in the part that was edited. -/
theorem EditedAt.refers (h : EditedAt name R ms ms') (hname : name ≠ "$ref")
    (href : RefersAt P keys (.obj ms')) :
    (RefersAt P keys (.obj ms) ∧ keys.head? ≠ some name) ∨
      ∃ rest inner inner', keys = name :: rest ∧ get? name ms = some (.obj inner) ∧
        R inner inner' ∧ RefersAt P rest (.obj inner') := by
  cases href with
  | here hget hP =>
    rw [h.others _ (Ne.symm hname)] at hget
    exact Or.inl ⟨.here hget hP, by simp⟩
  | member hget hv =>
    rename_i k v rest
    by_cases hk : k = name
    · subst hk
      have hedited := h.edited
      rw [hget] at hedited
      obtain ⟨inner, inner', hbefore, rfl, hR⟩ := hedited.after
      exact Or.inr ⟨rest, inner, inner', rfl, hbefore, hR, hv⟩
    · rw [h.others k hk] at hget
      exact Or.inl ⟨.member hget hv, by simpa using hk⟩

theorem EditedEach.refers (h : EditedEach S ms ms') (href : RefersAt P keys (.obj ms')) :
    ∃ k rest inner inner', keys = k :: rest ∧ get? k ms = some (.obj inner) ∧ S k inner inner' ∧
      RefersAt P rest (.obj inner') := by
  cases href with
  | here hget hP =>
    have hedited := h "$ref"
    rw [hget] at hedited
    obtain ⟨_, _, _, hstr, _⟩ := hedited.after
    cases hstr
  | member hget hv =>
    rename_i k v rest
    have hedited := h k
    rw [hget] at hedited
    obtain ⟨inner, inner', hbefore, rfl, hS⟩ := hedited.after
    exact ⟨k, rest, inner, inner', rfl, hbefore, hS, hv⟩

end References

end Documents
