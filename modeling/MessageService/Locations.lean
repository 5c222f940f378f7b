import MessageService.ClientAnswers

/-! What was created is found at its `Location`.
A later GET there is answered with the row, also from the cache, as long as nobody deletes it; and
as long as nobody updates it either, with what was created. -/
namespace Locations

open Programs Interleaving Texts Models Schemas MessageJson Postgres Services ServiceRuns Traces
open Statements Requests AbstractStore SerialExecutions SerialStore Endpoints AcceptedBodies
open TrueAnswers ClientAnswers BodyLimit
open Asgi (Payload Response Scope Received)

section Rows

variable {S T : Store} {q : Request} {updated : Prop} {row : Message} {a : Author}

/-- The message is there, with its author and the time it was created at, and unless it was updated
it is as it was. -/
def MessageKept (updated : Prop) (row : Message) (S : Store) : Prop :=
  ∃ row', S.messages row.id = some row' ∧ row'.authorId = row.authorId ∧
    row'.createdAt = row.createdAt ∧ (¬updated → row' = row)

def AuthorKept (updated : Prop) (a : Author) (S : Store) : Prop :=
  ∃ a', S.authors a.id = some a' ∧ a'.createdAt = a.createdAt ∧ (¬updated → a' = a)

theorem messageKept_put (h : MessageKept updated row S) {other : Message}
    (hother : row.id ≠ other.id) : MessageKept updated row (S.putMessage other) := by
  obtain ⟨row', hrow, hsame⟩ := h
  exact ⟨row', by rw [putMessage_messages, if_neg hother, hrow], hsame⟩

theorem authorKept_put (h : AuthorKept updated a S) {other : Author} (hother : a.id ≠ other.id) :
    AuthorKept updated a (S.putAuthor other) := by
  obtain ⟨a', ha, hsame⟩ := h
  exact ⟨a', by rw [putAuthor_authors, if_neg hother, ha], hsame⟩

/-- Only the request that deletes a message takes it away, and only those that update it change
it. -/
theorem messageKept_takes (hS : Sound S) (ht : Takes q S T) (hdrop : q ≠ .deleteMessage row.id)
    (hupdate : ∀ p, q = .updateMessage row.id p → updated) (h : MessageKept updated row S) :
    MessageKept updated row T := by
  obtain ⟨row', hrow, hauthor, hcreated, hsame⟩ := h
  have fresh : ∀ other : Message, S.messages other.id = none → row.id ≠ other.id := by
    intro other hnone hid
    rw [← hid, hrow] at hnone
    cases hnone
  have h : MessageKept updated row S := ⟨row', hrow, hauthor, hcreated, hsame⟩
  obtain ⟨answer, hdoes⟩ := ht
  cases hdoes with
  | createMessage hnone => exact messageKept_put h (fresh _ hnone)
  | @updateMessage m p _ old hold =>
    have hm : old.id = m := hS.message_id m old hold
    by_cases hid : row.id = m
    · rw [hid, hold] at hrow
      obtain rfl := Option.some.inj hrow
      have hput := (putMessage_messages S (updatedMessage old p.content p.title) row.id).trans
        (if_pos (hid.trans hm.symm))
      exact ⟨_, hput, hauthor, hcreated, fun hnot => absurd (hupdate p (by rw [hid])) hnot⟩
    · exact messageKept_put h fun hsame => hid (hsame.trans hm)
  | @deleteMessage m _ old hold =>
    have hm : row.id ≠ m := fun hid => hdrop (by rw [hid])
    exact ⟨row', by rw [dropMessage_messages, if_neg hm, hrow], hauthor, hcreated, hsame⟩
  | createAuthor | updateAuthor | deleteAuthor => exact h
  | seedMessage _ hnone _ => exact messageKept_put h (fresh _ hnone)
  | seedBoth _ hnone => exact messageKept_put h (fresh _ hnone)

theorem authorKept_takes (hS : Sound S) (ht : Takes q S T) (hdrop : q ≠ .deleteAuthor a.id)
    (hupdate : ∀ p, q = .updateAuthor a.id p → updated) (h : AuthorKept updated a S) :
    AuthorKept updated a T := by
  obtain ⟨a', ha, hcreated, hsame⟩ := h
  have fresh : ∀ other : Author, S.authors other.id = none → a.id ≠ other.id := by
    intro other hnone hid
    rw [← hid, ha] at hnone
    cases hnone
  have h : AuthorKept updated a S := ⟨a', ha, hcreated, hsame⟩
  obtain ⟨answer, hdoes⟩ := ht
  cases hdoes with
  | createAuthor hnone => exact authorKept_put h (fresh _ hnone)
  | @updateAuthor id p _ old hold =>
    have hold' : old.id = id := hS.author_id id old hold
    by_cases hid : a.id = id
    · rw [hid, hold] at ha
      obtain rfl := Option.some.inj ha
      have hput := (putAuthor_authors S (updatedAuthor old p.name p.email) a.id).trans
        (if_pos (hid.trans hold'.symm))
      exact ⟨_, hput, hcreated, fun hnot => absurd (hupdate p (by rw [hid])) hnot⟩
    · exact authorKept_put h fun hsame => hid (hsame.trans hold')
  | @deleteAuthor id _ old hold =>
    have hid : a.id ≠ id := fun hid => hdrop (by rw [hid])
    exact ⟨a', by rw [dropAuthor_authors, if_neg hid, ha], hcreated, hsame⟩
  | createMessage | updateMessage | deleteMessage | seedMessage => exact h
  | seedBoth _ _ hnone => exact authorKept_put h (fresh _ hnone)

end Rows

section Runs

variable [JsonCodec] {s : SoundDb} {ρ : Run s} {c d i j n : ℕ} {updated : Prop}
variable {row : Message} {a : Author} {o : Outcome}

/-- The invariant rule of a run: what every request keeps that was called, the tables keep. -/
theorem tables_keep {I : Store → Prop} (hn : n ≤ ρ.length) (hjn : j ≤ n) (h : I (tables ρ j))
    (hkeep : ∀ q S T, (∃ l < n, ∃ e, ρ.event l = .call e q) → Sound S → Takes q S T → I S → I T) :
    I (tables ρ n) := by
  refine acted_keeps hjn h ?_ fun k hk => tables_idle (hk.trans_le hn)
  rintro k hk ⟨e, q⟩ hacts hI
  have hkl := hk.trans_le hn
  obtain ⟨l, hl, he, _⟩ := acts_within hkl hacts
  exact hkeep q _ _ ⟨l, hl.trans hk, e, he⟩ (tables_sound hkl.le) (acts_takes hkl hacts) hI

theorem message_kept (hn : n ≤ ρ.length) (hjn : j ≤ n)
    (hdrop : ∀ l < n, ∀ e, ρ.event l ≠ .call e (.deleteMessage row.id))
    (hupdate : ∀ l < n, ∀ e p, ρ.event l = .call e (.updateMessage row.id p) → updated)
    (h : MessageKept updated row (tables ρ j)) : MessageKept updated row (tables ρ n) := by
  refine tables_keep hn hjn h ?_
  rintro q S T ⟨l, hl, e, he⟩ hS ht
  refine messageKept_takes hS ht ?_ ?_
  · rintro rfl
    exact hdrop l hl e he
  · rintro p rfl
    exact hupdate l hl e p he

theorem author_kept (hn : n ≤ ρ.length) (hjn : j ≤ n)
    (hdrop : ∀ l < n, ∀ e, ρ.event l ≠ .call e (.deleteAuthor a.id))
    (hupdate : ∀ l < n, ∀ e p, ρ.event l = .call e (.updateAuthor a.id p) → updated)
    (h : AuthorKept updated a (tables ρ j)) : AuthorKept updated a (tables ρ n) := by
  refine tables_keep hn hjn h ?_
  rintro q S T ⟨l, hl, e, he⟩ hS ht
  refine authorKept_takes hS ht ?_ ?_
  · rintro rfl
    exact hdrop l hl e he
  · rintro p rfl
    exact hupdate l hl e p he

/-- Without a delete a message that is not there has not been there before. -/
theorem message_absent {m : Uuid} (hn : n ≤ ρ.length) (hjn : j ≤ n)
    (hdrop : ∀ l < n, ∀ e, ρ.event l ≠ .call e (.deleteMessage m))
    (h : (tables ρ n).messages m = none) : (tables ρ j).messages m = none := by
  cases hrow : (tables ρ j).messages m with
  | none => rfl
  | some row =>
    obtain rfl := (tables_sound (hjn.trans hn)).message_id m row hrow
    have hkept : MessageKept True row (tables ρ j) := ⟨row, hrow, rfl, rfl, fun _ => rfl⟩
    obtain ⟨row', hrow', _⟩ := message_kept hn hjn hdrop (fun _ _ _ _ _ => trivial) hkept
    rw [h] at hrow'
    cases hrow'

/-- A message begins at instant `k`, when call `c` takes effect. -/
structure Begins (ρ : Run s) (c k : ℕ) (p : MessageCreate) (row : Message) : Prop where
  acted : acts ρ k = some (c, .createMessage p)
  absent : (tables ρ k).messages row.id = none
  present : (tables ρ (k + 1)).messages row.id = some row
  title : text row.title = p.title
  content : text row.content = p.content
  authorId : row.authorId = p.authorId
  version : row.version = 0

theorem message_begins {p : MessageCreate} {out : MessageOut}
    (h : ρ.Ended c (.createMessage p) (.ok (.message out)) n) :
    ∃ k row a, k < n ∧ out = ⟨.ofRow row, .ofRow a⟩ ∧ Begins ρ c k p row := by
  obtain ⟨i, _, _, k, answer, _, hkn, hacts, hdoes, hshows⟩ := ended_answered h trivial
  generalize hput : tables ρ (k + 1) = T at hdoes
  cases hdoes with
  | createMessage hnone hauthor htitle hcontent hid hversion =>
    cases hshows with
    | message =>
      exact ⟨k, _, _, hkn, rfl, hacts, hnone, by rw [hput, putMessage_messages, if_pos rfl],
        htitle, hcontent, hid, hversion⟩

theorem author_begins {p : AuthorCreate} {out : AuthorOut}
    (h : ρ.Ended c (.createAuthor p) (.ok (.author out)) n) :
    ∃ k a, k < n ∧ out = .ofRow a ∧ acts ρ k = some (c, .createAuthor p) ∧
      (tables ρ (k + 1)).authors a.id = some a ∧
      text a.name = p.name ∧ text a.email = p.email := by
  obtain ⟨i, _, _, k, answer, _, hkn, hacts, hdoes, hshows⟩ := ended_answered h trivial
  generalize hput : tables ρ (k + 1) = T at hdoes
  cases hdoes with
  | createAuthor _ _ hname hemail =>
    cases hshows with
    | author => exact ⟨k, _, hkn, rfl, hacts, by rw [hput, putAuthor_self], hname, hemail⟩

/-- What is shown of what call `c` created: its row at an instant between its creation and `n`. -/
inductive Current (ρ : Run s) (c n : ℕ) : Payload → Result → Result → Prop where
  | message {p m row shown k j} : acts ρ k = some (c, .createMessage p) → k < j → j < n →
      (tables ρ j).messages m.id = some row → Shown (tables ρ j) row shown →
      row.authorId = p.authorId → row.createdAt = m.createdAt →
      ((∀ l < n, ∀ e p', ρ.event l ≠ .call e (.updateMessage m.id p')) →
        text row.title = p.title ∧ text row.content = p.content ∧ row.version = 0) →
      Current ρ c n (.createMessage p) (.message m) (.message shown)
  | author {p a row k j} : acts ρ k = some (c, .createAuthor p) → k < j → j < n →
      (tables ρ j).authors a.id = some row → row.createdAt = a.createdAt →
      ((∀ l < n, ∀ e p', ρ.event l ≠ .call e (.updateAuthor a.id p')) →
        text row.name = p.name ∧ text row.email = p.email) →
      Current ρ c n (.createAuthor p) (.author a) (.authorDetail ⟨.ofRow row, none⟩)

variable {m : MessageOut} {p : MessageCreate} {k : ℕ}

/-- From its beginning on the message is there. -/
theorem begins_kept (hbegins : Begins ρ c k p row) (hn : n ≤ ρ.length)
    (hdrop : ∀ l < n, ∀ e, ρ.event l ≠ .call e (.deleteMessage row.id)) (hkj : k < j)
    (hjn : j < n) :
    MessageKept (∃ l < n, ∃ e p', ρ.event l = .call e (.updateMessage row.id p')) row
      (tables ρ j) := by
  refine message_kept (hjn.le.trans hn) hkj ?_ ?_
    ⟨row, hbegins.present, rfl, rfl, fun _ => rfl⟩
  · exact fun l hl e => hdrop l (hl.trans hjn) e
  · exact fun l hl e p' hcall => ⟨l, hl.trans hjn, e, p', hcall⟩

theorem message_current (hbegins : Begins ρ c k p row) (hn : n ≤ ρ.length)
    (hdrop : ∀ l < n, ∀ e, ρ.event l ≠ .call e (.deleteMessage row.id)) (hkj : k < j)
    (hjn : j < n) {row' : Message} {shown : MessageOut}
    (hrow' : (tables ρ j).messages row.id = some row') (hshown : Shown (tables ρ j) row' shown) :
    Current ρ c n (.createMessage p) (.message ⟨.ofRow row, .ofRow a⟩) (.message shown) := by
  obtain ⟨_, hsome, hid, hcreated, hsame⟩ := begins_kept hbegins hn hdrop hkj hjn
  obtain rfl := Option.some.inj (hrow'.symm.trans hsome)
  refine .message hbegins.acted hkj hjn hrow' hshown (hid.trans hbegins.authorId) hcreated ?_
  intro huntouched
  obtain rfl := hsame fun ⟨l, hl, e, p', hcall⟩ => huntouched l hl e p' hcall
  exact ⟨hbegins.title, hbegins.content, hbegins.version⟩

theorem message_found {n' : ℕ} (h : ρ.Ended c (.createMessage p) (.ok (.message m)) n)
    (hafter : ∀ l < n, ρ.event l ≠ .call d (.getMessage m.id)) (hf : ρ.Faultless d)
    (hfetched : ρ.Ended d (.getMessage m.id) o n')
    (hdrop : ∀ l < n', ∀ e, ρ.event l ≠ .call e (.deleteMessage m.id)) :
    ∃ shown, o = .ok shown ∧ Current ρ c n' (.createMessage p) (.message m) shown := by
  obtain ⟨k, row, a, hkn, rfl, hbegins⟩ := message_begins h
  have hn' := hfetched.1
  have hfit : Fitting (.getMessage row.id) := ⟨fun _ hfs => (by cases hfs), trivial⟩
  obtain ⟨i, hi, he, hjustified⟩ := ended_justified ρ hf hfit (by simp) hfetched
  have hni : n ≤ i := by
    by_contra hlt
    exact hafter i (by omega) he
  cases hjustified with
  | acted hacted =>
    obtain ⟨j, _, _, _, _, hdoes, _⟩ := hacted
    generalize tables ρ (j + 1) = T at hdoes
    cases hdoes
  | told hij hjn htells =>
    cases htells with
    | message hrow' hshown =>
      exact ⟨_, rfl, message_current hbegins hn' hdrop (by omega) hjn hrow' hshown⟩
    | noMessage hgone =>
      obtain ⟨_, hsome, _⟩ := begins_kept hbegins hn' hdrop (by omega) hjn
      cases hgone.symm.trans hsome
  | @cached _ l j _ _ _ hil hln _ hjl htells =>
    cases htells with
    | message hrow' hshown =>
      -- an entry of the cache is no older than the message
      have hkj : k < j := by
        by_contra hle
        have hgone : (tables ρ j).messages row.id = none :=
          message_absent (hkn.le.trans h.1) (by omega) (fun l hl e => hdrop l (by omega) e)
            hbegins.absent
        cases hgone.symm.trans hrow'
      exact ⟨_, rfl, message_current hbegins hn' hdrop hkj (hjl.trans hln) hrow' hshown⟩

theorem author_found {p : AuthorCreate} {out : AuthorOut} {n' : ℕ}
    (h : ρ.Ended c (.createAuthor p) (.ok (.author out)) n)
    (hafter : ∀ l < n, ρ.event l ≠ .call d (.getAuthor out.id false)) (hf : ρ.Faultless d)
    (hfetched : ρ.Ended d (.getAuthor out.id false) o n')
    (hdrop : ∀ l < n', ∀ e, ρ.event l ≠ .call e (.deleteAuthor out.id)) :
    ∃ shown, o = .ok shown ∧ Current ρ c n' (.createAuthor p) (.author out) shown := by
  obtain ⟨k, a, hkn, rfl, hacts, hauthor, hname, hemail⟩ := author_begins h
  have hn' := hfetched.1
  have hfit : Fitting (.getAuthor a.id false) := ⟨fun _ hfs => (by cases hfs), trivial⟩
  obtain ⟨i, hi, he, hjustified⟩ := ended_justified ρ hf hfit (by simp) hfetched
  have hni : n ≤ i := by
    by_contra hlt
    exact hafter i (by omega) he
  have hkept : ∀ j, k < j → j < n' → AuthorKept
      (∃ l < n', ∃ e p', ρ.event l = .call e (.updateAuthor a.id p')) a (tables ρ j) := by
    intro j hkj hjn'
    refine author_kept (hjn'.le.trans hn') hkj ?_ ?_ ⟨a, hauthor, rfl, fun _ => rfl⟩
    · exact fun l hl e => hdrop l (hl.trans hjn') e
    · exact fun l hl e p' hcall => ⟨l, hl.trans hjn', e, p', hcall⟩
  cases hjustified with
  | acted hacted =>
    obtain ⟨j, _, _, _, _, hdoes, _⟩ := hacted
    generalize tables ρ (j + 1) = T at hdoes
    cases hdoes
  | told hij hjn htells =>
    have hkj := hkn.trans (hni.trans_lt hij)
    obtain ⟨_, hsome, hcreated, hsame⟩ := hkept _ hkj hjn
    cases htells with
    | author hrow =>
      obtain rfl := Option.some.inj (hrow.symm.trans hsome)
      refine ⟨_, rfl, .author hacts hkj hjn hrow hcreated ?_⟩
      intro huntouched
      obtain rfl := hsame fun ⟨l, hl, e, p', hcall⟩ => huntouched l hl e p' hcall
      exact ⟨hname, hemail⟩
    | noAuthor hgone => cases hgone.symm.trans hsome

end Runs

section Fetching

/-- The calls that fetch and that delete what was created. -/
inductive Created : Payload → Result → Request → Request → Prop where
  | message {p m} : Created (.createMessage p) (.message m) (.getMessage m.id) (.deleteMessage m.id)
  | author {p a} : Created (.createAuthor p) (.author a) (.getAuthor a.id false)
      (.deleteAuthor a.id)

/-- A GET without a body. -/
structure Fetches (path : String) (scope : Scope) : Prop where
  http : scope.type = "http"
  method : scope.method = "GET"
  path : scope.path = path
  undeclared : isDigits (declared scope) = false

theorem ne_of_before {before id path : String} (h : ¬before.toList <+: path.toList) :
    before ++ id ≠ path := by
  rintro rfl
  rw [String.toList_append] at h
  exact h (List.prefix_append ..)

/-- An operation without a parameter whose path does not begin so. -/
theorem fixed_apart {op : Operation} {before id : String} (hop : op.declared.parameter = false)
    (h : ¬before.toList <+: op.declared.path.toList ∧
      ¬before.toList <+: (op.declared.path ++ "\n").toList) :
    op.matchPath (before ++ id) = none := by
  unfold Operation.matchPath
  rw [hop, if_neg (by simp), if_neg]
  rintro (hpath | hpath)
  · exact ne_of_before h.1 hpath
  · exact ne_of_before h.2 hpath

theorem matchPath_segment {op : Operation} {path : String} (hop : op.declared.parameter = true) :
    op.matchPath path = segment op.declared.path path :=
  if_pos hop

theorem findRoute_message (docs : Docs) (id : Uuid) :
    findRoute docs "GET" ("/messages/" ++ id.str) = .operation .getMessage id.str := by
  have hlive : Operation.liveness.matchPath ("/messages/" ++ id.str) = none :=
    fixed_apart rfl (by decide)
  have hready : Operation.readiness.matchPath ("/messages/" ++ id.str) = none :=
    fixed_apart rfl (by decide)
  have hlist : Operation.listMessages.matchPath ("/messages/" ++ id.str) = none :=
    fixed_apart rfl (by decide)
  have hget : Operation.getMessage.matchPath ("/messages/" ++ id.str) = some id.str :=
    (matchPath_segment rfl).trans (segment_append (str_segment id).1 (str_segment id).2)
  exact found_operation (by simp [operations, Operation.declared, hlive, hready, hlist, hget])

theorem findRoute_author (docs : Docs) (id : Uuid) :
    findRoute docs "GET" ("/authors/" ++ id.str) = .operation .getAuthor id.str := by
  have hlive : Operation.liveness.matchPath ("/authors/" ++ id.str) = none :=
    fixed_apart rfl (by decide)
  have hready : Operation.readiness.matchPath ("/authors/" ++ id.str) = none :=
    fixed_apart rfl (by decide)
  have hmessages : Operation.listMessages.matchPath ("/authors/" ++ id.str) = none :=
    fixed_apart rfl (by decide)
  have hmessage : Operation.getMessage.matchPath ("/authors/" ++ id.str) = none :=
    (matchPath_segment rfl).trans (segment_author id.str)
  have hlist : Operation.listAuthors.matchPath ("/authors/" ++ id.str) = none :=
    fixed_apart rfl (by decide)
  have hget : Operation.getAuthor.matchPath ("/authors/" ++ id.str) = some id.str :=
    (matchPath_segment rfl).trans (segment_append (str_segment id).1 (str_segment id).2)
  exact found_operation
    (by simp [operations, Operation.declared, hlive, hready, hmessages, hmessage, hlist, hget])

variable [frameworks : Frameworks] [JsonCodec] {s : SoundDb} {c d n n' : ℕ} {b : Backend}
variable {maxBytes patience : ℕ} {scope : Scope} {messages : List Received} {clock : Client → ℚ}
variable {payload : Payload} {res : Result} {q drop : Request} {o : Outcome} {path : String}

omit [JsonCodec] in
/-- A GET at the location asks for what was created. -/
theorem location_made (hfaithful : Faithful frameworks) (hcreated : Created payload res q drop)
    (hlocation : (b.success (operationOf payload) res).location = some path)
    (h : Fetches path scope) :
    ∃ op, (∀ shown, b.success op shown = jsonResponse 200 (b.render shown)) ∧
      Made b maxBytes patience [] scope messages op q messages [] := by
  have huuid : ∀ id : Uuid, pathUuid id.str = .ok id := by
    intro id
    unfold pathUuid checkedUuid
    rw [hfaithful.uuid]
  have hundeclared : ¬isDigits (declared scope) = true := by simp [h.undeclared]
  have hdeclared : ¬DeclaredTooLarge maxBytes scope := fun hlarge => hundeclared hlarge.1
  have hdigits : isDigits (declared scope) = true → (declared scope).length ≤ 4300 :=
    fun hd => absurd hd hundeclared
  cases hcreated with
  | message =>
    obtain rfl := Option.some.inj hlocation
    refine ⟨.getMessage, fun _ => rfl,
      .bodyless h.http hdeclared hdigits ?_ (.getMessage (huuid _))⟩
    rw [h.method, h.path]
    exact findRoute_message b.docs _
  | author =>
    obtain rfl := Option.some.inj hlocation
    refine ⟨.getAuthor, fun _ => rfl,
      .bodyless h.http hdeclared hdigits ?_ (.getAuthor (huuid _) rfl)⟩
    rw [h.method, h.path]
    exact findRoute_author b.docs _

/-- A GET at the `Location` of what was created, made after the creation was answered, is answered
with it, unless somebody asks to delete it. -/
theorem created_found (hfaithful : Faithful frameworks) (ρ : Run s)
    (hcreated : Created payload res q drop)
    (hended : ρ.Ended c (requestOf payload) (.ok res) n)
    (hlocation : (b.success (operationOf payload) res).location = some path)
    (hfetches : Fetches path scope)
    (hafter : ∀ l < n, ρ.event l ≠ .call d q) (hf : ρ.Faultless d) (hfetched : ρ.Ended d q o n')
    (hkept : ∀ l < n', ∀ e, ρ.event l ≠ .call e drop) (hb : b.outcome q = o.mapError raised) :
    ∃ shown, serve b.endpoint clock
        (createApp maxBytes patience (b.endpoints patience [])) scope messages =
          ⟨messages, (jsonResponse 200 (b.render shown)).messages, []⟩ ∧
      Current ρ c n' payload res shown := by
  have hfound : ∃ shown, o = .ok shown ∧ Current ρ c n' payload res shown := by
    cases hcreated with
    | message => exact message_found hended hafter hf hfetched hkept
    | author => exact author_found hended hafter hf hfetched hkept
  obtain ⟨shown, rfl, hcurrent⟩ := hfound
  have houtcome : b.outcome q = .ok shown := hb
  obtain ⟨op, hsuccess, hmade⟩ : ∃ op,
      (∀ shown, b.success op shown = jsonResponse 200 (b.render shown)) ∧
      Made b maxBytes patience [] scope messages op q messages [] :=
    location_made hfaithful hcreated hlocation hfetches
  refine ⟨shown, ?_, hcurrent⟩
  have hreply : replyOf scope ((b.outcome q).map (b.success op)) =
      jsonResponse 200 (b.render shown) := by
    rw [houtcome]
    exact hsuccess shown
  rw [serve_made hfaithful hmade fun name => by rw [houtcome]; simp, hreply]

end Fetching

section Fetched

/-- An author is created, and fetched by another call. -/
def fetched : Run .empty := scheduled .empty
  [.call 0 (.createAuthor adaCreate), .step 0 (.proceed ⟨1, ServiceRuns.ada.createdAt⟩), act 0 0,
    .close 0, .call 1 (.getAuthor 1 false), act 1 0, .close 1] (by decide +kernel)

def ada : AuthorOut := ⟨1, "Ada", "ada@x.org", ServiceRuns.ada.createdAt⟩

def showing : Backend where
  outcome _ := .ok (.authorDetail ⟨ada, none⟩)
  render _ := "\x7b\x7d"
  ready := true
  docs := ⟨false, fun _ => ("", [])⟩

def getAda : Scope := ⟨"http", "GET", "/authors/" ++ Uuid.str 1, [], none, none⟩

theorem created_found_fetched : ∃ shown, serve showing.endpoint (fun _ => 0)
    (@createApp strict 16384 1 (@Backend.endpoints strict showing 1 [])) getAda [] =
      ⟨[], (jsonResponse 200 (showing.render shown)).messages, []⟩ ∧
    Current fetched 0 7 (.createAuthor adaCreate) (.author ada) shown := by
  have hcaller : ∀ l < 4, (fetched.event l).caller = 0 := by decide +kernel
  have hafter : ∀ l < 4, fetched.event l ≠ .call 1 (.getAuthor 1 false) := by
    intro l hl h
    have hzero := hcaller l hl
    rw [h] at hzero
    cases hzero
  have hkept : ∀ l < 7, ∀ e, fetched.event l ≠ .call e (.deleteAuthor 1) := by
    intro l hl e h
    interval_cases l <;> cases h
  exact @created_found strict _ _ 0 1 4 7 showing _ _ _ _ _ (.createAuthor adaCreate)
    (.author ada) (.getAuthor 1 false) (.deleteAuthor 1) (.ok (.authorDetail ⟨ada, none⟩)) _
    strict_faithful fetched .author (by decide +kernel) rfl ⟨rfl, rfl, rfl, rfl⟩ hafter
    (faultFree_of_events fetched (by decide +kernel) 1) (by decide +kernel) hkept rfl

end Fetched

end Locations
