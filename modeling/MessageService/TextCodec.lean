import MessageService.Library.JsonText
import MessageService.MessageJson

/-! The text the service's models write: compact JSON, and datetimes in ISO 8601 with a `Z`.
Microseconds are written when there are any. -/
namespace TextCodec

open FixedDigits Models MessageJson

def isoFormat (t : Datetime) : String := String.ofList (
  encode 10 4 t.year ++ '-' :: (encode 10 2 t.month ++ '-' :: (encode 10 2 t.day ++
    'T' :: (encode 10 2 t.hour ++ ':' :: (encode 10 2 t.minute ++ ':' :: (encode 10 2 t.second ++
      if t.microsecond = 0 then ['Z'] else '.' :: (encode 10 6 t.microsecond ++ ['Z'])))))))

/-- A number of `w` digits below `n`, and what follows it. -/
def readFin (n w : ℕ) (cs : List Char) : Option (Fin n × List Char) :=
  if (cs.take w).length = w ∧ (cs.take w).all Char.isDigit then
    if h : decode 10 (cs.take w) < n then some (⟨decode 10 (cs.take w), h⟩, cs.drop w) else none
  else none

def expect (c : Char) : List Char → Option (List Char)
  | d :: cs => if d = c then some cs else none
  | [] => none

/-- The fraction of a second, if there is one, and the closing `Z`. -/
def readFraction : List Char → Option (Fin 1000000)
  | ['Z'] => some 0
  | '.' :: cs =>
    match readFin 1000000 6 cs with
    | some (us, ['Z']) => some us
    | _ => none
  | _ => none

def fromIso (s : String) : Option Datetime := do
  let (year, cs) ← readFin 10000 4 s.toList
  let cs ← expect '-' cs
  let (month, cs) ← readFin 13 2 cs
  let cs ← expect '-' cs
  let (day, cs) ← readFin 32 2 cs
  let cs ← expect 'T' cs
  let (hour, cs) ← readFin 24 2 cs
  let cs ← expect ':' cs
  let (minute, cs) ← readFin 60 2 cs
  let cs ← expect ':' cs
  let (second, cs) ← readFin 60 2 cs
  let microsecond ← readFraction cs
  return ⟨year, month, day, hour, minute, second, microsecond⟩

theorem isDigit_digitChar {d : ℕ} (h : d < 10) : (Nat.digitChar d).isDigit = true := by
  interval_cases d <;> decide

@[simp] theorem expect_cons (c : Char) (cs : List Char) : expect c (c :: cs) = some cs := by
  simp [expect]

theorem readFin_encode {n w : ℕ} (hn : n ≤ 10 ^ w) (i : Fin n) (cs : List Char) :
    readFin n w (encode 10 w i ++ cs) = some (i, cs) := by
  have htake : (encode 10 w i ++ cs).take w = encode 10 w i := by
    rw [List.take_left' (length_encode 10 w i)]
  have hdrop : (encode 10 w i ++ cs).drop w = cs := by
    rw [List.drop_left' (length_encode 10 w i)]
  have hdec : decode 10 (encode 10 w i) = i :=
    decode_encode (by omega) (by omega) w i (lt_of_lt_of_le i.isLt hn)
  unfold readFin
  rw [htake, hdrop, if_pos, dif_pos (by rw [hdec]; exact i.isLt)]
  · exact congrArg (fun j => some (j, cs)) (Fin.ext hdec)
  · refine ⟨length_encode 10 w i, List.all_eq_true.mpr ?_⟩
    intro c hc
    obtain ⟨d, hd, rfl⟩ := mem_encode (by omega) hc
    exact isDigit_digitChar hd

theorem readFraction_written (us : Fin 1000000) :
    readFraction (if us = 0 then ['Z'] else '.' :: (encode 10 6 us ++ ['Z'])) = some us := by
  split
  · rename_i h; rw [h]; rfl
  · simp only [readFraction, readFin_encode (n := 1000000) (w := 6) (by norm_num) us ['Z']]

/-- A datetime is read back field by field. -/
theorem fromIso_isoFormat (t : Datetime) : fromIso (isoFormat t) = some t := by
  unfold fromIso
  rw [isoFormat, String.toList_ofList]
  refine Option.bind_eq_some_iff.mpr ⟨_, readFin_encode (by norm_num) t.year _, ?_⟩
  refine Option.bind_eq_some_iff.mpr ⟨_, expect_cons _ _, ?_⟩
  refine Option.bind_eq_some_iff.mpr ⟨_, readFin_encode (by norm_num) t.month _, ?_⟩
  refine Option.bind_eq_some_iff.mpr ⟨_, expect_cons _ _, ?_⟩
  refine Option.bind_eq_some_iff.mpr ⟨_, readFin_encode (by norm_num) t.day _, ?_⟩
  refine Option.bind_eq_some_iff.mpr ⟨_, expect_cons _ _, ?_⟩
  refine Option.bind_eq_some_iff.mpr ⟨_, readFin_encode (by norm_num) t.hour _, ?_⟩
  refine Option.bind_eq_some_iff.mpr ⟨_, expect_cons _ _, ?_⟩
  refine Option.bind_eq_some_iff.mpr ⟨_, readFin_encode (by norm_num) t.minute _, ?_⟩
  refine Option.bind_eq_some_iff.mpr ⟨_, expect_cons _ _, ?_⟩
  refine Option.bind_eq_some_iff.mpr ⟨_, readFin_encode (by norm_num) t.second _, ?_⟩
  exact Option.bind_eq_some_iff.mpr ⟨_, readFraction_written t.microsecond, rfl⟩

instance textCodec : JsonCodec where
  dumps := JsonText.dumps
  loads := JsonText.loads
  loads_dumps := JsonText.loads_dumps
  isoFormat := isoFormat
  fromIso := fromIso
  fromIso_isoFormat := fromIso_isoFormat

example : isoFormat ⟨2026, 3, 1, 12, 0, 5, 250⟩ = "2026-03-01T12:00:05.000250Z" := by decide

end TextCodec
