import MessageService.TextCodec
import MessageService.Traces

/-! What the API accepts and what the columns store.
The two definitions of an acceptable string agree on the lengths; a column refuses U+0000 and a
lone surrogate has no encoding, the check of the API accepts both. -/
namespace StoredStrings

open Programs Interleaving Texts Models Schemas Postgres Services ServiceRuns Transitions
open Statements Footprints Traces MessageJson KeyedTables

section Strings

/-- The width of the column of a field. -/
def width : Field → ℕ
  | .title => titleWidth
  | .content => contentWidth
  | .name => nameWidth
  | .email => emailWidth

/-- A string for a field that its column stores. -/
def Fits (fs : Field × Text) : Prop := Storable (width fs.1) fs.2

instance (fs : Field × Text) : Decidable (Fits fs) := inferInstanceAs (Decidable (Storable _ _))

theorem clean_length {value t : Text} {name : String} {n : ℕ} (h : clean value name n = .ok t) :
    t.length ≤ n := by
  obtain ⟨_, hlen, rfl⟩ := clean_ok h
  exact hlen

theorem checked_length {f : Field} {value t : Text} (h : checkString f value = .ok t) :
    t.length ≤ width f := by
  cases f with
  | title => exact clean_length h
  | content => exact clean_length h
  | name => exact clean_length h
  | email => exact clean_length (cleanEmail_ok_iff.mp h).1

/-- Of an accepted string its column refuses U+0000 and lone surrogates only. -/
theorem accepted_fits_iff {f : Field} {value t : Text} (h : checkString f value = .ok t) :
    Fits (f, t) ↔ Representable t := by
  constructor
  · exact fun hfits => hfits.2
  · exact fun hplain => ⟨checked_length h, hplain⟩

end Strings

section Writing

/-- The strings a statement writes. -/
def stringsOf : Effect → List (Field × Text)
  | .insertAuthor name email | .upsertAuthor name email => [(.name, name), (.email, email)]
  | .updateAuthor _ name email =>
    name.toList.map (Prod.mk .name) ++ email.toList.map (Prod.mk .email)
  | .insertMessage title content _ => [(.title, title), (.content, content)]
  | .updateMessage _ _ content title => title.toList.map (Prod.mk .title) ++ [(.content, content)]
  | _ => []

/-- The strings of a validated payload. -/
def payloadStrings : Request → List (Field × Text)
  | .createMessage p => [(.title, p.title), (.content, p.content)]
  | .updateMessage _ p => p.title.toList.map (Prod.mk .title) ++ [(.content, p.content)]
  | .createAuthor p => [(.name, p.name), (.email, p.email)]
  | .updateAuthor _ p => p.name.toList.map (Prod.mk .name) ++ p.email.toList.map (Prod.mk .email)
  | _ => []

/-- An UPDATE of a message whose version is the last one of its column. -/
def AtLimit (w : World) (c : ℕ) : Effect → Prop
  | .updateMessage id version _ _ => ∃ row, (w.view c).messages.lookup id = some row ∧
      row.version = version ∧ maxInt4 < row.version + 1
  | _ => False

variable {c : ℕ} {f : Fresh} {w w' : World} {e : Effect}

theorem fits_optional {g : Field} {value : Option Text} :
    (∀ fs ∈ value.toList.map (Prod.mk g), Fits fs) ↔ ∀ v ∈ value, Storable (width g) v := by
  cases value with
  | none => simp
  | some v => simp [Fits]

/-- A statement with a string that does not fit fails, whatever it finds. -/
theorem unfit_refused {r : Reply e} (h : execute c f w e = some (r, w'))
    (hunfit : ¬∀ fs ∈ stringsOf e, Fits fs) : r = .error .dataError := by
  cases e with
  | insertAuthor name email =>
    change execInsertAuthor c f w name email = _ at h
    unfold execInsertAuthor at h
    split at h
    · cases h
    · rw [if_pos (by simpa [stringsOf, Fits, width] using hunfit)] at h
      cases h
      rfl
  | upsertAuthor name email =>
    change execUpsertAuthor c f w name email = _ at h
    unfold execUpsertAuthor at h
    split at h
    · cases h
    · rw [if_pos (by simpa [stringsOf, Fits, width] using hunfit)] at h
      cases h
      rfl
  | updateAuthor id name email =>
    change execUpdateAuthor c w id name email = _ at h
    unfold execUpdateAuthor at h
    rw [stringsOf, List.forall_mem_append, fits_optional, fits_optional] at hunfit
    rw [if_pos (by simpa only [width] using hunfit)] at h
    cases h
    rfl
  | insertMessage title content authorId =>
    change execInsertMessage c f w title content authorId = _ at h
    unfold execInsertMessage at h
    split at h
    · cases h
    · rw [if_pos (by simpa [stringsOf, Fits, width] using hunfit)] at h
      cases h
      rfl
  | updateMessage id version content title =>
    change execUpdateMessage c w id version content title = _ at h
    unfold execUpdateMessage at h
    rw [stringsOf, List.forall_mem_append, fits_optional] at hunfit
    rw [if_pos (by simpa [Fits, width] using hunfit)] at h
    cases h
    rfl
  | deleteAuthor | deleteMessage | advisoryXactLock | selectAuthor | selectMessagesOf
  | selectAuthors | countAuthors | selectMessage | selectMessageId | selectMessages
  | countMessages | selectAuthorIds | cacheGet | cacheSet | cacheEvict | commit
  | rollback => exact absurd (by simp [stringsOf]) hunfit

/-- What the store refuses as data. -/
theorem execute_dataError (h : execute c f w e = some (.error .dataError, w')) :
    (∃ fs ∈ stringsOf e, ¬Fits fs) ∨ AtLimit w c e := by
  have hfall := execute_error h
  by_cases hfits : ∀ fs ∈ stringsOf e, Fits fs
  · right
    cases e with
    | insertAuthor name email =>
      rcases (insertAuthor_error h).2 with ⟨_, hdata⟩ | ⟨h, _⟩
      · exact absurd (by simpa [stringsOf, Fits, width] using hfits) hdata
      · cases h
    | upsertAuthor name email =>
      exact absurd (by simpa [stringsOf, Fits, width] using hfits) (upsertAuthor_error h).2.2
    | updateAuthor id name email =>
      rcases (updateAuthor_error h).2 with ⟨_, hdata⟩ | ⟨h, _⟩
      · rw [stringsOf, List.forall_mem_append, fits_optional, fits_optional] at hfits
        exact absurd hfits hdata
      · cases h
    | deleteAuthor id =>
      cases (deleteAuthor_error h).2.1
    | insertMessage title content authorId =>
      rcases (insertMessage_error h).2 with ⟨_, hdata⟩ | ⟨h, _⟩
      · exact absurd (by simpa [stringsOf, Fits, width] using hfits) hdata
      · cases h
    | updateMessage id version content title =>
      rcases (updateMessage_error h).2.2 with hdata | hlimit
      · rw [stringsOf, List.forall_mem_append, fits_optional] at hfits
        exact absurd (by simpa [Fits, width] using hfits) hdata
      · exact hlimit
    | deleteMessage | advisoryXactLock | selectAuthor | selectMessagesOf | selectAuthors
    | countAuthors | selectMessage | selectMessageId | selectMessages | countMessages
    | selectAuthorIds | cacheGet | cacheSet | cacheEvict | commit | rollback => exact hfall.elim
  · left
    simpa using hfits

end Writing

section Calls

variable [JsonCodec] {s : SoundDb} {ρ : Run s} {c i j : ℕ} {q : Request}

omit [JsonCodec] in
theorem payload_checked (q : Request) : ∀ fs ∈ payloadStrings q, Checked fs.1 fs.2 := by
  cases q with
  | createMessage p =>
    simpa [payloadStrings] using ⟨p.title_checked, p.content_checked⟩
  | updateMessage m p =>
    intro fs hfs
    rcases List.mem_append.mp hfs with hfs | hfs
    · obtain ⟨t, ht, rfl⟩ := List.mem_map.mp hfs
      exact p.title_checked t (by simpa using ht)
    · obtain rfl := List.mem_singleton.mp hfs
      exact p.content_checked
  | createAuthor p =>
    simpa [payloadStrings] using ⟨p.name_checked, p.email_checked⟩
  | updateAuthor id p =>
    intro fs hfs
    rcases List.mem_append.mp hfs with hfs | hfs
    · obtain ⟨t, ht, rfl⟩ := List.mem_map.mp hfs
      exact p.name_checked t (by simpa using ht)
    · obtain ⟨t, ht, rfl⟩ := List.mem_map.mp hfs
      exact p.email_checked t (by simpa using ht)
  | listMessages | getMessage | deleteMessage | listAuthors | getAuthor | deleteAuthor
  | seedInitialMessage => simp [payloadStrings]

/-- A call writes the strings of its payload, all of them in one statement. -/
theorem writes_payload (hq : q ≠ .seedInitialMessage) :
    (body q).Only fun e => stringsOf e = [] ∨ stringsOf e = payloadStrings q := by
  cases q with
  | listMessages limit offset =>
    exact awaits_bind (awaits_listMessages (.inl rfl) (.inl rfl)) fun _ => awaits_pure _
  | getMessage m =>
    exact awaits_bind (awaits_getMessage (.inl rfl) (.inl rfl) fun _ => .inl rfl)
      fun _ => awaits_pure _
  | listAuthors limit offset =>
    exact awaits_bind (awaits_listAuthors (.inl rfl) (.inl rfl)) fun _ => awaits_pure _
  | getAuthor id inc =>
    exact awaits_bind (awaits_getAuthor (.inl rfl) (.inl rfl)) fun _ => awaits_pure _
  | createMessage p =>
    exact awaits_bind (awaits_createMessage (.inl rfl) (fun _ => .inr rfl) (.inl rfl) (.inl rfl))
      fun _ => awaits_pure _
  | updateMessage m p =>
    exact awaits_bind (awaits_updateMessage (.inr rfl) (.inl rfl) (.inl rfl) (.inl rfl) (.inl rfl)
      (.inl rfl)) fun _ => awaits_pure _
  | deleteMessage m =>
    exact awaits_bind (awaits_deleteMessage (.inl rfl) (.inl rfl) (.inl rfl)) fun _ => awaits_pure _
  | createAuthor p =>
    exact awaits_bind (awaits_createAuthor (.inr rfl) (.inl rfl) (.inl rfl)) fun _ => awaits_pure _
  | updateAuthor id p =>
    exact awaits_bind (awaits_updateAuthor (.inl rfl) (.inr rfl) (.inl rfl) (.inl rfl))
      fun _ => awaits_pure _
  | deleteAuthor id =>
    exact awaits_bind (awaits_deleteAuthor (.inl rfl) (.inl rfl) (.inl rfl)) fun _ => awaits_pure _
  | seedInitialMessage => exact absurd rfl hq

/-- The call has executed its INSERT or UPDATE. -/
def WritesStrings (ρ : Run s) (c : ℕ) : Prop :=
  ∃ k e x r, ρ.Performs k c e x r ∧ stringsOf e ≠ []

/-- The database refuses a string of the call. -/
def FailsForString (ρ : Run s) (c : ℕ) : Prop :=
  ∃ k e x, ρ.Performs k c e x (.error .dataError) ∧ ∃ fs ∈ stringsOf e, ¬Fits fs

theorem performs_payload (hi : i < ρ.length) (he : ρ.event i = .call c q)
    (hq : q ≠ .seedInitialMessage) {e x} {r : Reply e} (hp : ρ.Performs j c e x r) :
    stringsOf e = [] ∨ stringsOf e = payloadStrings q :=
  performs_only hi he (writes_payload hq) hp

omit [JsonCodec] in
theorem fits_payload (fs : Field × Text) (h : fs ∈ payloadStrings q) :
    Fits fs ↔ Representable fs.2 :=
  accepted_fits_iff (payload_checked q fs h)

theorem failsForString_iff (hi : i < ρ.length) (he : ρ.event i = .call c q)
    (hq : q ≠ .seedInitialMessage) (hf : ρ.Faultless c) :
    FailsForString ρ c ↔ WritesStrings ρ c ∧ ∃ fs ∈ payloadStrings q, ¬Representable fs.2 := by
  constructor
  · rintro ⟨k, e, x, hp, fs, hfs, hunfit⟩
    rcases performs_payload hi he hq hp with hnone | hpayload
    · rw [hnone] at hfs
      cases hfs
    · refine ⟨⟨k, e, x, _, hp, List.ne_nil_of_mem hfs⟩, fs, ?_, ?_⟩
      · rw [← hpayload]
        exact hfs
      · rw [hpayload] at hfs
        rw [← fits_payload fs hfs]
        exact hunfit
  · rintro ⟨⟨k, e, x, r, hp, hwrites⟩, fs, hfs, hrefused⟩
    rcases performs_payload hi he hq hp with hnone | hpayload
    · exact absurd hnone hwrites
    · have hunfit : ¬Fits fs := by
        rw [fits_payload fs hfs]
        exact hrefused
      rw [← hpayload] at hfs
      obtain ⟨f, rfl⟩ := hf k hp.within x hp.event
      have hx : execute c f (ρ.store k) e = some (r, ρ.store (k + 1)) := hp.answer
      obtain rfl := unfit_refused hx fun h => hunfit (h fs hfs)
      exact ⟨k, e, _, hp, fs, hfs, hunfit⟩

/-- Which accepted strings are stored, and which calls fail for a string. -/
structure StoresAccepted (ρ : Run s) : Prop where
  strings : ∀ f value t, checkString f value = .ok t → (Fits (f, t) ↔ Representable t)
  calls : ∀ i < ρ.length, ∀ c q, ρ.event i = .call c q → q ≠ .seedInitialMessage →
    ρ.Faultless c → (FailsForString ρ c ↔
      WritesStrings ρ c ∧ ∃ fs ∈ payloadStrings q, ¬Representable fs.2)
  /-- Nothing else is refused as data but a version that leaves its column. -/
  others : ∀ k c e x, ρ.Faultless c → ρ.Performs k c e x (.error .dataError) →
    (∃ fs ∈ stringsOf e, ¬Fits fs) ∨ AtLimit (ρ.store k) c e

theorem stores_accepted (ρ : Run s) : StoresAccepted ρ where
  strings f value t h := accepted_fits_iff h
  calls _ hi _ _ he hq hf := failsForString_iff hi he hq hf
  others k c e x hf hp := by
    obtain ⟨_, f, hx⟩ := faultless_error hf hp
    exact execute_dataError hx

end Calls

section Schedules

/-- A name with a U+0000 is accepted, and one with half of a surrogate pair. -/
theorem nul_checked : Checked .name (text "A\x00") ∧ Checked .name (text "A" ++ [0xd800]) ∧
    Checked .email (text "a@b.c") := by decide +kernel

def nulAuthor : AuthorCreate := ⟨text "A\x00", text "a@b.c", nul_checked.1, nul_checked.2.2⟩

def loneAuthor : AuthorCreate :=
  ⟨text "A" ++ [0xd800], text "a@b.c", nul_checked.2.1, nul_checked.2.2⟩

def createOf (p : AuthorCreate) : List (Event host) := [.call 0 (.createAuthor p), act 0 1]

def createNul : Run .empty := scheduled .empty (createOf nulAuthor) (by decide +kernel)

def createLone : Run .empty := scheduled .empty (createOf loneAuthor) (by decide +kernel)

theorem nul_accepted_unstored :
    (checkString .name nulAuthor.name = .ok nulAuthor.name ∧ ¬Fits (.name, nulAuthor.name) ∧
      createNul.Ended 0 (.createAuthor nulAuthor) (.error .dataError) 2) ∧
    checkString .name loneAuthor.name = .ok loneAuthor.name ∧ ¬Fits (.name, loneAuthor.name) ∧
      createLone.Ended 0 (.createAuthor loneAuthor) (.error .dataError) 2 := by
  refine ⟨⟨nul_checked.1, by decide, by decide +kernel⟩, nul_checked.2.1, by decide, ?_⟩
  decide +kernel

end Schedules

end StoredStrings
