import MessageService.Asgi
import MessageService.Library.UriReferences

/-! The `instance` of a problem as a URI reference. Quoting keeps the characters of a path apart,
but what a reference begins with decides how the rest of it is read. -/
namespace ProblemInstances

open Problems Asgi UriReferences

section Quoting

/-- What `quote` leaves alone. -/
def kept (c : Char) : Bool := c.isAlphanum || c ∈ ['_', '.', '-', '~', '/']

theorem quote_escape (s : String) : (quote s).toList = escape kept s.toList := by
  rw [quote, String.toList_ofList, escape]
  congr 1
  funext c
  unfold quoteChar escapeChar
  have hkept : (c.isAlphanum = true ∨ c ∈ ['_', '.', '-', '~', '/']) ↔ kept c = true := by
    simp [kept]
  by_cases h : kept c = true
  · rw [if_pos (hkept.mpr h), if_pos h]
  · rw [if_neg (mt hkept.mp h), if_neg h]
    rfl

theorem alphanum_ascii {c : Char} (h : c.isAlphanum = true) : c.toNat < 128 := by
  have hranges : ((decide (65 ≤ c.val ∧ c.val ≤ 90) || (97 ≤ c.val && c.val ≤ 122)) ||
      (48 ≤ c.val && c.val ≤ 57)) = true := h
  simp only [Bool.or_eq_true, Bool.and_eq_true, decide_eq_true_eq, UInt32.le_iff_toNat_le]
    at hranges
  change ((65 ≤ c.toNat ∧ c.toNat ≤ 90) ∨ (97 ≤ c.toNat ∧ c.toNat ≤ 122)) ∨
    (48 ≤ c.toNat ∧ c.toNat ≤ 57) at hranges
  omega

theorem kept_plain (c : Char) (h : kept c = true) : c ≠ '%' ∧ c.toNat < 128 := by
  rcases Bool.or_eq_true_iff.mp h with h | h
  · refine ⟨?_, alphanum_ascii h⟩
    rintro rfl
    exact absurd h (by decide)
  · simp only [List.mem_cons, List.not_mem_nil, or_false, decide_eq_true_eq] at h
    rcases h with rfl | rfl | rfl | rfl | rfl <;> decide

theorem kept_pathChar (c : Char) (h : kept c = true) : isPathChar c = true := by
  rcases Bool.or_eq_true_iff.mp h with h | h
  · rw [isPathChar, h]
    rfl
  · simp only [List.mem_cons, List.not_mem_nil, or_false, decide_eq_true_eq] at h
    rcases h with rfl | rfl | rfl | rfl | rfl <;> decide

end Quoting

section Denoting

/-- A reference made of a path only, which decodes to `path`. -/
structure Denotes (instancePath path : String) : Prop where
  reference : PathAbsolute instancePath.toList
  components : components instancePath.toList = ⟨none, none, instancePath.toList, none, none⟩
  decodes : decodeText instancePath.toList = some path

theorem decodes_quote (s : String) : decodeText (quote s).toList = some s := by
  rw [quote_escape]
  exact decodeText_escape kept_plain s

theorem quote_injective {s t : String} (h : quote s = quote t) : s = t := by
  have hs := decodes_quote s
  rw [h, decodes_quote t] at hs
  exact (Option.some.inj hs).symm

theorem quote_slash {s : String} {rest : List Char} (h : s.toList = '/' :: rest) :
    (quote s).toList = '/' :: escape kept rest := by
  rw [quote_escape, h, escape, List.flatMap_cons]
  rfl

/-- A single slash at the start of a path stays one. -/
theorem quote_denotes {s : String} {rest : List Char} (h : s.toList = '/' :: rest)
    (hsingle : rest.head? ≠ some '/') : Denotes (quote s) s := by
  have habsolute : PathAbsolute (quote s).toList := by
    refine ⟨?_, escape kept rest, quote_slash h, ?_⟩
    · rw [quote_escape]
      exact escape_pathText kept_pathChar _
    · intro hhead
      exact hsingle (escape_head (by decide) hhead)
  exact ⟨habsolute, habsolute.components, decodes_quote s⟩

/-- What follows two slashes is read as an authority. -/
theorem quote_authority {s : String} {rest : List Char} (h : s.toList = '/' :: '/' :: rest) :
    (components (quote s).toList).authority ≠ none := by
  have hslashes : (quote s).toList = '/' :: '/' :: escape kept rest := by
    rw [quote_slash h, escape, List.flatMap_cons]
    rfl
  rw [hslashes]
  exact components_slashes _

theorem quote_denotes_iff {s : String} (h : s.toList.head? = some '/') :
    Denotes (quote s) s ↔ ¬['/', '/'] <+: s.toList := by
  cases hs : s.toList with
  | nil =>
    rw [hs] at h
    cases h
  | cons c rest =>
    rw [hs] at h
    obtain rfl : c = '/' := Option.some.inj h
    constructor
    · rintro hdenotes ⟨tail, htail⟩
      have hdoubled : s.toList = '/' :: '/' :: tail := by
        rw [hs, ← htail]
        rfl
      apply quote_authority hdoubled
      rw [hdenotes.components]
    · intro hslashes
      apply quote_denotes hs
      intro hhead
      cases rest with
      | nil => cases hhead
      | cons d rest =>
        obtain rfl : d = '/' := Option.some.inj hhead
        exact hslashes ⟨rest, rfl⟩

/-- The instances of the problems built on a scope. -/
structure InstancesDenote (scope : Scope) : Prop where
  denotes : ∀ status code detail invalidParams typeSlug p,
    (problemResponse scope status code detail invalidParams typeSlug).1.content = .problem p →
    scope.path.toList.head? = some '/' →
      (Denotes p.instancePath scope.path ↔ ¬['/', '/'] <+: scope.path.toList)
  /-- Under every path the instance decodes to it. -/
  decodes : ∀ status code detail invalidParams typeSlug p,
    (problemResponse scope status code detail invalidParams typeSlug).1.content = .problem p →
      decodeText p.instancePath.toList = some scope.path
  distinct : ∀ scope' status status' code code' detail detail' invalidParams invalidParams'
    typeSlug typeSlug' p p',
    (problemResponse scope status code detail invalidParams typeSlug).1.content = .problem p →
    (problemResponse scope' status' code' detail' invalidParams' typeSlug').1.content =
      .problem p' → p.instancePath = p'.instancePath → scope.path = scope'.path

theorem instances_denote (scope : Scope) : InstancesDenote scope where
  denotes status code detail invalidParams typeSlug p hp hpath := by
    obtain rfl := Content.problem.inj hp
    exact quote_denotes_iff hpath
  decodes status code detail invalidParams typeSlug p hp := by
    obtain rfl := Content.problem.inj hp
    exact decodes_quote scope.path
  distinct scope' status status' code code' detail detail' invalidParams invalidParams' typeSlug
      typeSlug' p p' hp hp' hsame := by
    obtain rfl := Content.problem.inj hp
    obtain rfl := Content.problem.inj hp'
    exact quote_injective hsame

end Denoting

section NetworkPath

/-- A path that no route matches. -/
def doubled : Scope := ⟨"http", "GET", "//example.org/x", [], none, none⟩

theorem doubled_instance_authority :
    (problemResponse doubled 404 "NOT_FOUND" "Not Found" [] none).1.content =
        .problem (problemBody doubled.path 404 "NOT_FOUND" "Not Found" [] none) ∧
      doubled.path.toList.head? = some '/' ∧
      components (quote doubled.path).toList =
        ⟨none, some "example.org".toList, "/x".toList, none, none⟩ ∧
      ¬Denotes (problemBody doubled.path 404 "NOT_FOUND" "Not Found" [] none).instancePath
        doubled.path := by
  refine ⟨rfl, rfl, by decide, ?_⟩
  intro h
  have hnone := h.components
  exact absurd (congrArg Components.authority hnone) (by decide)

end NetworkPath

end ProblemInstances
