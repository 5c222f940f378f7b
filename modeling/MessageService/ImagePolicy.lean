import Mathlib.Data.List.Forall2
import Mathlib.Data.Nat.Notation

/-! The `restrict-image-repositories` policy. Its rule reads the repository off an image by
hand, with colons and slashes; a reference is the grammar a container runtime reads it by. -/
namespace ImagePolicy

structure Container where
  image : String
  deriving DecidableEq, Repr

structure PodSpec where
  containers : List Container
  initContainers : Option (List Container)
  deriving DecidableEq, Repr

section Rule

/-- `variables.containers` -/
def containers (spec : PodSpec) : List Container :=
  spec.containers ++ spec.initContainers.getD []

/-- `variables.allowed` -/
def allowed : List String :=
  ["docker.io/miqui/rest-message-api", "docker.io/library/postgres", "docker.io/library/busybox",
    "docker.io/library/nginx", "docker.io/curlimages/curl", "docker.io/hazelcast/hazelcast",
    "quay.io/prometheuscommunity/postgres-exporter", "docker.io/grafana/grafana",
    "docker.io/prom/prometheus", "docker.io/prom/node-exporter",
    "docker.io/otel/opentelemetry-collector-contrib",
    "registry.k8s.io/kube-state-metrics/kube-state-metrics", "o2cr.ai/openobserve/openobserve",
    "ghcr.io/headlamp-k8s/headlamp"]

/-- `lastIndexOf`, for a character that is there. -/
def lastIndexOf (cs : List Char) (c : Char) : ℕ := cs.length - 1 - cs.reverse.idxOf c

/-- A first segment that is a registry host when there is a second one. -/
def hostLike (cs : List Char) : Bool := '.' ∈ cs || ':' ∈ cs || cs = "localhost".toList

/-- `ref`: the image without its digest. -/
def dropDigest (image : List Char) : List Char := (image.splitOn '@').headD []

/-- `repo`: a colon in the last segment begins a tag. -/
def dropTag (ref : List Char) : List Char :=
  if ':' ∈ (ref.splitOn '/').getLastD [] then ref.take (lastIndexOf ref ':') else ref

/-- The names of Docker Hub are qualified. -/
def qualify (repo : List Char) : List Char :=
  let parts := repo.splitOn '/'
  if parts.length > 1 && hostLike (parts.headD []) then repo
  else if parts.length = 1 then "docker.io/library/".toList ++ repo
  else "docker.io/".toList ++ repo

/-- `variables.repos` of one container. -/
def repo (c : Container) : String := String.ofList (qualify (dropTag (dropDigest c.image.toList)))

/-- `variables.repos` -/
def repos (spec : PodSpec) : List String := (containers spec).map repo

/-- The validation of the policy. -/
def validates (spec : PodSpec) : Bool := (repos spec).all fun r => r ∈ allowed

end Rule

section References

/-- A well-formed reference. Without a host the first of several segments is not one. -/
structure Reference where
  host : Option (List Char)
  path : List (List Char)
  tag : Option (List Char)
  digest : Option (List Char)
  host_like : ∀ h ∈ host, hostLike h = true
  host_plain : ∀ h ∈ host, '/' ∉ h ∧ '@' ∉ h
  path_ne : path ≠ []
  path_plain : ∀ s ∈ path, '/' ∉ s ∧ ':' ∉ s ∧ '@' ∉ s
  hostless : host = none → path.length > 1 → hostLike (path.headD []) = false
  tag_plain : ∀ t ∈ tag, '/' ∉ t ∧ '@' ∉ t ∧ ':' ∉ t

namespace Reference

variable (r : Reference)

/-- The segments as they are written. -/
def segments : List (List Char) := r.host.toList ++ r.path

/-- A mark and what follows it, if there is anything. -/
def marked (mark : Char) : Option (List Char) → List Char
  | some cs => mark :: cs
  | none => []

def join (segments : List (List Char)) : List Char := ['/'].intercalate segments

/-- The text of a reference. -/
def render : List Char := join r.segments ++ marked ':' r.tag ++ marked '@' r.digest

def dockerHub : List Char := "docker.io".toList

/-- A second name of Docker Hub. -/
def dockerIndex : List Char := "index.docker.io".toList

def library : List Char := "library".toList

/-- The registry a runtime asks: without a host it is Docker Hub. -/
def registry : List Char :=
  match r.host with
  | some h => if h = dockerIndex then dockerHub else h
  | none => dockerHub

/-- The repository a runtime resolves; a single name on Docker Hub is one of its library. -/
def repository : List (List Char) :=
  if r.registry = dockerHub ∧ r.path.length = 1 then
    r.registry :: library :: r.path
  else r.registry :: r.path

/-- The repository the rule reads: it takes a host that is written as it is. -/
def written : List (List Char) :=
  match r.host with
  | some h => h :: r.path
  | none => if r.path.length = 1 then dockerHub :: library :: r.path
    else dockerHub :: r.path

end Reference

end References

section Reading

open Reference

theorem segments_ne (r : Reference) : r.segments ≠ [] := by
  unfold segments
  intro h
  exact r.path_ne (List.append_eq_nil_iff.mp h).2

theorem segments_plain (r : Reference) : ∀ s ∈ r.segments, '/' ∉ s ∧ '@' ∉ s := by
  intro s hs
  rcases List.mem_append.mp hs with hhost | hpath
  · exact r.host_plain s (Option.mem_toList.mp hhost)
  · obtain ⟨hslash, _, hat⟩ := r.path_plain s hpath
    exact ⟨hslash, hat⟩

theorem join_cons {s : List Char} {rest : List (List Char)} (h : rest ≠ []) :
    join (s :: rest) = s ++ '/' :: join rest := by
  rw [join, List.intercalate_cons_of_ne_nil h, List.append_assoc]
  rfl

/-- A character that is in no segment and is not the slash is not in the name. -/
theorem not_mem_join {c : Char} {segments : List (List Char)} (hc : c ≠ '/')
    (h : ∀ s ∈ segments, c ∉ s) : c ∉ join segments := by
  unfold join
  induction segments with
  | nil => simp
  | cons s segments ih =>
    have hs := h s (List.mem_cons_self ..)
    have hrest := ih fun t ht => h t (List.mem_cons_of_mem _ ht)
    by_cases hnil : segments = []
    · subst hnil
      simpa using hs
    · rw [List.intercalate_cons_of_ne_nil hnil]
      simp [hs, hc, hrest]

theorem dropDigest_render (r : Reference) :
    dropDigest r.render = join r.segments ++ marked ':' r.tag := by
  have hname : '@' ∉ join r.segments :=
    not_mem_join (by decide) fun s hs => (segments_plain r s hs).2
  have htag : '@' ∉ marked ':' r.tag := by
    cases ht : r.tag with
    | none => simp [marked]
    | some t => simp [marked, (r.tag_plain t ht).2.1]
  have hplain : ∀ c ∈ join r.segments ++ marked ':' r.tag, (c == '@') = false := by
    rintro c hc
    rw [beq_eq_false_iff_ne]
    rintro rfl
    exact (List.mem_append.mp hc).elim hname htag
  unfold dropDigest render
  rw [List.splitOn_eq_splitOnP]
  cases hd : r.digest with
  | none =>
    rw [marked, List.append_nil, List.splitOnP_eq_singleton hplain]
    rfl
  | some d =>
    rw [marked, List.splitOnP_append_cons_of_forall_mem hplain _ (by decide)]
    rfl

/-- A tag stands at the end of the last segment. -/
theorem join_append (segments : List (List Char)) (last tag : List Char) :
    join (segments ++ [last]) ++ tag = join (segments ++ [last ++ tag]) := by
  unfold join
  induction segments with
  | nil => simp
  | cons s segments ih =>
    rw [List.cons_append, List.cons_append, List.intercalate_cons_of_ne_nil (by simp),
      List.intercalate_cons_of_ne_nil (by simp), List.append_assoc, ih]

theorem lastIndexOf_append {before after : List Char} {c : Char} (h : c ∉ after) :
    lastIndexOf (before ++ c :: after) c = before.length := by
  have hrev : (before ++ c :: after).reverse = after.reverse ++ c :: before.reverse := by simp
  have hidx : (before ++ c :: after).reverse.idxOf c = after.length := by
    rw [hrev, List.idxOf_append_of_notMem (by simpa using h)]
    simp
  unfold lastIndexOf
  rw [hidx]
  simp only [List.length_append, List.length_cons]
  omega

/-- The last segment has a colon exactly when there is a tag. -/
theorem dropTag_name (r : Reference) :
    dropTag (join r.segments ++ marked ':' r.tag) = join r.segments := by
  obtain ⟨first, last, hsegments, hlast⟩ :
      ∃ first last, r.segments = first ++ [last] ∧ last ∈ r.path := by
    refine ⟨r.host.toList ++ r.path.dropLast, r.path.getLast r.path_ne, ?_, List.getLast_mem _⟩
    rw [List.append_assoc, List.dropLast_append_getLast]
    rfl
  have hslash : '/' ∉ marked ':' r.tag := by
    cases ht : r.tag with
    | none => simp [marked]
    | some t => simp [marked, (r.tag_plain t ht).1]
  have hsplit : (join r.segments ++ marked ':' r.tag).splitOn '/' =
      first ++ [last ++ marked ':' r.tag] := by
    rw [hsegments, join_append]
    apply List.splitOn_intercalate
    · intro s hs
      rcases List.mem_append.mp hs with hs | hs
      · exact (segments_plain r s (by simp [hsegments, hs])).1
      · rw [List.mem_singleton.mp hs, List.mem_append, not_or]
        exact ⟨(r.path_plain last hlast).1, hslash⟩
    · simp
  have hcolon := (r.path_plain last hlast).2.1
  unfold dropTag
  rw [hsplit, List.getLastD_concat]
  cases ht : r.tag with
  | none =>
    rw [marked, List.append_nil, if_neg hcolon, List.append_nil]
  | some t =>
    rw [marked, if_pos (by simp), lastIndexOf_append (r.tag_plain t ht).2.2, List.take_left]

/-- The rule reads the repository of a reference as it is written. -/
theorem qualify_name (r : Reference) : qualify (join r.segments) = join r.written := by
  have hsplit : (join r.segments).splitOn '/' = r.segments :=
    List.splitOn_intercalate _ (fun s hs => (segments_plain r s hs).1) (segments_ne r)
  unfold qualify
  simp only [hsplit]
  have hlen := List.length_pos_of_ne_nil r.path_ne
  cases hh : r.host with
  | some h =>
    have hseg : r.segments = h :: r.path := by simp [segments, hh]
    rw [hseg, if_pos, written, hh]
    simp only [List.length_cons, List.headD_cons, r.host_like h hh, Bool.and_true]
    simp
    omega
  | none =>
    have hseg : r.segments = r.path := by simp [segments, hh]
    rw [hseg, written, hh]
    by_cases hone : r.path.length = 1
    · rw [if_neg (by simp [hone]), if_pos hone]
      dsimp only
      rw [if_pos hone, join_cons (by simp), join_cons r.path_ne]
      rfl
    · have hmany : r.path.length > 1 := by omega
      rw [r.hostless hh hmany, if_neg (by simp), if_neg hone]
      dsimp only
      rw [if_neg hone, join_cons r.path_ne]
      rfl

theorem repo_written {c : Container} {r : Reference} (h : c.image.toList = r.render) :
    repo c = String.ofList (join r.written) := by
  rw [repo, h, dropDigest_render, dropTag_name, qualify_name]

end Reading

section Allowlist

open Reference

/-- An entry of the allowlist names its repository in full. -/
theorem allowed_full : ∀ a ∈ allowed, (a.toList.splitOn '/').headD [] ≠ dockerIndex ∧
    ((a.toList.splitOn '/').headD [] = dockerHub → (a.toList.splitOn '/').length = 3) := by
  decide

theorem written_plain (r : Reference) : r.written ≠ [] ∧ ∀ s ∈ r.written, '/' ∉ s := by
  have hpath : ∀ s ∈ r.path, '/' ∉ s := fun s hs => (r.path_plain s hs).1
  unfold written
  cases hh : r.host with
  | some h =>
    refine ⟨List.cons_ne_nil _ _, List.forall_mem_cons.mpr ⟨(r.host_plain h hh).1, hpath⟩⟩
  | none =>
    dsimp only
    by_cases hone : r.path.length = 1
    · rw [if_pos hone]
      refine ⟨List.cons_ne_nil _ _, List.forall_mem_cons.mpr ⟨by decide, ?_⟩⟩
      exact List.forall_mem_cons.mpr ⟨by decide, hpath⟩
    · rw [if_neg hone]
      exact ⟨List.cons_ne_nil _ _, List.forall_mem_cons.mpr ⟨by decide, hpath⟩⟩

/-- A repository that is allowed as it is written is written in full, so that the runtime
resolves it to itself. -/
theorem repository_allowed {r : Reference} (h : String.ofList (join r.written) ∈ allowed) :
    r.repository = r.written := by
  obtain ⟨hindex, hhub⟩ := allowed_full _ h
  obtain ⟨hne, hplain⟩ := written_plain r
  rw [String.toList_ofList, join, List.splitOn_intercalate _ hplain hne] at hindex hhub
  cases hh : r.host with
  | none =>
    have hregistry : r.registry = dockerHub := by rw [registry, hh]
    rw [repository, written, hregistry, hh]
    dsimp only
    by_cases hone : r.path.length = 1
    · rw [if_pos ⟨rfl, hone⟩, if_pos hone]
    · rw [if_neg fun h => hone h.2, if_neg hone]
  | some host =>
    have hwritten : r.written = host :: r.path := by rw [written, hh]
    rw [hwritten, List.headD_cons] at hindex hhub
    have hregistry : r.registry = host := by
      rw [registry, hh]
      exact if_neg hindex
    rw [repository, hwritten, hregistry, if_neg]
    rintro ⟨rfl, hone⟩
    have := hhub rfl
    simp only [List.length_cons] at this
    omega

/-- Two images that differ at most in their tags and digests. -/
def SameName (c c' : Container) : Prop :=
  ∃ r r' : Reference, c.image.toList = r.render ∧ c'.image.toList = r'.render ∧
    r.host = r'.host ∧ r.path = r'.path

/-- The containers and the init containers of a pod that passes are of repositories of the list.
Of these, a name of the library behind a spelled-out host and a second name of the host are
refused; tags and digests do not matter. -/
structure Restricts : Prop where
  sound : ∀ spec, validates spec = true → ∀ c,
    (c ∈ spec.containers ∨ ∃ cs, spec.initContainers = some cs ∧ c ∈ cs) → ∀ r : Reference,
      c.image.toList = r.render → String.ofList (join r.repository) ∈ allowed
  exact : ∀ c, ∀ r : Reference, c.image.toList = r.render → (repo c ∈ allowed ↔
    String.ofList (join r.repository) ∈ allowed ∧ r.repository = r.written)
  named : ∀ spec spec', List.Forall₂ SameName spec.containers spec'.containers →
    List.Forall₂ SameName (spec.initContainers.getD []) (spec'.initContainers.getD []) →
    validates spec = validates spec'

theorem mem_containers {spec : PodSpec} {c : Container}
    (h : c ∈ spec.containers ∨ ∃ cs, spec.initContainers = some cs ∧ c ∈ cs) :
    c ∈ containers spec := by
  refine List.mem_append.mpr ?_
  rcases h with hc | ⟨cs, hcs, hc⟩
  · exact Or.inl hc
  · exact Or.inr (by rw [hcs]; exact hc)

theorem validates_iff {spec : PodSpec} :
    validates spec = true ↔ ∀ c ∈ containers spec, repo c ∈ allowed := by
  simp [validates, repos]

theorem repos_named {cs cs' : List Container} (h : List.Forall₂ SameName cs cs') :
    cs.map repo = cs'.map repo := by
  induction h with
  | nil => rfl
  | cons hc _ ih =>
    obtain ⟨r, r', hr, hr', hhost, hpath⟩ := hc
    have hwritten : r.written = r'.written := by rw [written, written, hhost, hpath]
    rw [List.map_cons, List.map_cons, ih, repo_written hr, repo_written hr', hwritten]

theorem restricts : Restricts where
  sound spec hvalid c hc r hr := by
    have hallowed := validates_iff.mp hvalid c (mem_containers hc)
    rw [repo_written hr] at hallowed
    rw [repository_allowed hallowed]
    exact hallowed
  exact c r hr := by
    rw [repo_written hr]
    constructor
    · intro h
      have hsame := repository_allowed h
      exact ⟨hsame ▸ h, hsame⟩
    · rintro ⟨h, hsame⟩
      exact hsame ▸ h
  named spec spec' hcontainers hinit := by
    unfold validates repos containers
    rw [List.map_append, List.map_append, repos_named hcontainers, repos_named hinit]

/-- Two images of one repository. -/
def SameRepository (c c' : Container) : Prop :=
  ∃ r r' : Reference, c.image.toList = r.render ∧ c'.image.toList = r'.render ∧
    r.repository = r'.repository

/-- A name of Docker Hub, and the same name behind its host. -/
def busybox (host : Option (List Char)) (h : ∀ d ∈ host, d = dockerHub) : Reference where
  host := host
  path := ["busybox".toList]
  tag := none
  digest := none
  host_like d hd := by rw [h d hd]; decide
  host_plain d hd := by rw [h d hd]; decide
  path_ne := by simp
  path_plain := by decide
  hostless _ hlen := by simp at hlen
  tag_plain := by simp

theorem spelled_host_refused : SameRepository ⟨"busybox"⟩ ⟨"docker.io/busybox"⟩ ∧
    validates ⟨[⟨"busybox"⟩], none⟩ = true ∧
    validates ⟨[⟨"docker.io/busybox"⟩], none⟩ = false := by
  refine ⟨⟨busybox none (by simp), busybox (some dockerHub) (by simp), ?_, ?_, ?_⟩, ?_, ?_⟩ <;>
    decide

example : validates ⟨[⟨"postgres:16-alpine"⟩], some [⟨"busybox@sha256:9ae9"⟩]⟩ = true := by decide

end Allowlist

end ImagePolicy
