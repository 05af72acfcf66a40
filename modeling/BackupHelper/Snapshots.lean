import BackupHelper.Config.Models
import BackupHelper.Lib.Calendar

/-!
# Snapshot ids, and which job a snapshot belongs to

An id is the start of its run, `2026-07-05_03-15-00`, and in a config with several jobs names the
job as well, `2026-07-05_03-15-00_files-nightly`.

* `jobSlug`, `newSnapshotId`        the id of a run;
* `parseSnapshotId`                 start and job slug of an id, read with the leniency of
                                    `strptime` (`Stamp`);
* `SnapshotScope.owns`, `scopeFor`  which snapshots a job's retention may delete.

`parse_newSnapshotId` is the round trip, `newSnapshotId_free` that an id holds no dot.
-/

namespace BackupHelper
open Text Calendar

/-! ## the characters of an id -/

def isSlugChar (c : Char) : Bool :=
  ('A' ≤ c && c ≤ 'Z') || ('a' ≤ c && c ≤ 'z') || ('0' ≤ c && c ≤ '9') || c == '_' || c == '-'

/-- the job name as an id carries it -/
def jobSlug (name : Str) : Str :=
  match name with
  | [] => ['-']
  | _ => name.map (fun c => if isSlugChar c then c else '-')

def digitChar (n : ℕ) : Char := Char.ofNat (48 + n % 10)

def pad2 (n : ℕ) : Str := [digitChar (n / 10), digitChar n]

def pad4 (n : ℕ) : Str := [digitChar (n / 1000), digitChar (n / 100), digitChar (n / 10), digitChar n]

/-- `strftime("%Y-%m-%d_%H-%M-%S")` -/
def stamp (t : Datetime) : Str :=
  pad4 (yearOf t.day) ++ '-' :: (pad2 (monthOf t.day) ++ '-' :: (pad2 (dayOf t.day) ++
    '_' :: (pad2 t.hour ++ '-' :: (pad2 t.minute ++ '-' :: pad2 t.second))))

def newSnapshotId (now : Datetime) (job : Option Str) : Str :=
  match job with
  | none => stamp now
  | some name => stamp now ++ '_' :: jobSlug name

/-! ## reading an id -/

/-- where the ten decimal digits of a script begin (`\d` and `int` take them all) -/
def decimalStarts : List ℕ :=
  [0x30, 0x660, 0x6F0, 0x7C0, 0x966, 0x9E6, 0xA66, 0xAE6, 0xB66, 0xBE6, 0xC66, 0xCE6, 0xD66, 0xDE6,
   0xE50, 0xED0, 0xF20, 0x1040, 0x1090, 0x17E0, 0x1810, 0x1946, 0x19D0, 0x1A80, 0x1A90, 0x1B50,
   0x1BB0, 0x1C40, 0x1C50, 0xA620, 0xA8D0, 0xA900, 0xA9D0, 0xA9F0, 0xAA50, 0xABF0, 0xFF10, 0x104A0,
   0x10D30, 0x10D40, 0x11066, 0x110F0, 0x11136, 0x111D0, 0x112F0, 0x11450, 0x114D0, 0x11650,
   0x116C0, 0x116D0, 0x116DA, 0x11730, 0x118E0, 0x11950, 0x11BF0, 0x11C50, 0x11D50, 0x11DA0,
   0x11F50, 0x16130, 0x16A60, 0x16AC0, 0x16B50, 0x16D70, 0x1CCF0, 0x1D7CE, 0x1D7D8, 0x1D7E2,
   0x1D7EC, 0x1D7F6, 0x1E140, 0x1E2F0, 0x1E4F0, 0x1E5F1, 0x1E950, 0x1FBF0]

/-- the value of a decimal digit of any script -/
def decimal (c : Char) : Option ℕ :=
  (decimalStarts.find? (fun s => s ≤ c.toNat && c.toNat < s + 10)).map (c.toNat - ·)

/-- an ASCII digit between `lo` and `hi` -/
def asciiIn (lo hi : ℕ) (c : Char) : Option ℕ :=
  if 48 + lo ≤ c.toNat ∧ c.toNat ≤ 48 + hi then some (c.toNat - 48) else none

/-- two characters, the first an ASCII digit between `lo` and `hi`, the second as `snd` reads it -/
def twoDigits (lo hi : ℕ) (snd : Char → Option ℕ) : Str → Option ℕ
  | [a, b] => do return 10 * (← asciiIn lo hi a) + (← snd b)
  | _ => none

def oneDigit (d : Char → Option ℕ) : Str → Option ℕ
  | [a] => d a
  | _ => none

/-- a blank and a digit -/
def blankDigit (d : Char → Option ℕ) : Str → Option ℕ
  | [' ', a] => d a
  | _ => none

/-- `%Y`: `\d\d\d\d` -/
def readYear : Str → Option ℕ
  | [a, b, c, d] => do
    return 1000 * (← decimal a) + 100 * (← decimal b) + 10 * (← decimal c) + (← decimal d)
  | _ => none

/-- `%m`: `1[0-2]|0[1-9]|[1-9]` -/
def readMonth (s : Str) : Option ℕ :=
  twoDigits 1 1 (asciiIn 0 2) s <|> twoDigits 0 0 (asciiIn 1 9) s <|> oneDigit (asciiIn 1 9) s

/-- `%d`: `3[0-1]|[1-2]\d|0[1-9]|[1-9]| [1-9]` -/
def readDay (s : Str) : Option ℕ :=
  twoDigits 3 3 (asciiIn 0 1) s <|> twoDigits 1 2 decimal s <|> twoDigits 0 0 (asciiIn 1 9) s <|>
    oneDigit (asciiIn 1 9) s <|> blankDigit (asciiIn 1 9) s

/-- `%H`: `2[0-3]|[0-1]\d|\d| \d` -/
def readHour (s : Str) : Option ℕ :=
  twoDigits 2 2 (asciiIn 0 3) s <|> twoDigits 0 1 decimal s <|> oneDigit decimal s <|> blankDigit decimal s

/-- `%M`: `[0-5]\d|\d` -/
def readMinute (s : Str) : Option ℕ := twoDigits 0 5 decimal s <|> oneDigit decimal s

/-- `%S`: `6[0-1]|[0-5]\d|\d` -/
def readSecond (s : Str) : Option ℕ :=
  twoDigits 6 6 (asciiIn 0 1) s <|> twoDigits 0 5 decimal s <|> oneDigit decimal s

theorem ymd2ord_le {y m d : ℕ} (hy : 1 ≤ y ∧ y ≤ maxYear) (hm : 1 ≤ m ∧ m ≤ 12)
    (hd : d ≤ daysInMonth y m) : ymd2ord y m d ≤ maxOrdinal := by
  have hmonth : daysBeforeMonth y m + d ≤ 365 + leapDay y := by
    obtain ⟨h1, h2⟩ := hm
    unfold daysInMonth at hd
    interval_cases m <;> simp only [daysBeforeMonth] at hd ⊢ <;> omega
  have hyear := daysBeforeYear_mono (show y + 1 ≤ maxYear + 1 by omega)
  rw [daysBeforeYear_succ y (by omega)] at hyear
  unfold ymd2ord maxOrdinal
  omega

/-- a point in time from the fields of a date; none for a date the calendar lacks -/
def mkDatetime (y m d hh mm ss : ℕ) : Option Datetime :=
  if h : (1 ≤ y ∧ y ≤ maxYear) ∧ (1 ≤ m ∧ m ≤ 12) ∧ (1 ≤ d ∧ d ≤ daysInMonth y m) ∧
      hh < 24 ∧ mm < 60 ∧ ss < 60 then
    some ⟨ymd2ord y m d, (hh * 3600 + mm * 60 + ss) * 1000000,
      by unfold ymd2ord; omega,
      ymd2ord_le h.1 h.2.1 h.2.2.1.2,
      by unfold microsPerDay; omega⟩
  else none

/-- `strptime(s, "%Y-%m-%d_%H-%M-%S")`: the fields hold no separator, so the regular expression of
the format matches in one way only -/
def strptime (s : Str) : Option Datetime := do
  let (y, s) ← splitAt1 '-' s
  let (m, s) ← splitAt1 '-' s
  let (d, s) ← splitAt1 '_' s
  let (hh, s) ← splitAt1 '-' s
  let (mm, ss) ← splitAt1 '-' s
  mkDatetime (← readYear y) (← readMonth m) (← readDay d) (← readHour hh) (← readMinute mm)
    (← readSecond ss)

def timestampLen : ℕ := 19

/-- start and job slug of an id the engine generated, the slug `none` for a plain id; `none` for
any other id -/
def parseSnapshotId (sid : Str) : Option Datetime × Option Str :=
  match strptime (sid.take timestampLen) with
  | none => (none, none)
  | some when_ =>
    match sid.drop timestampLen with
    | [] => (some when_, none)
    | c :: slug =>
      if c = '_' ∧ slug ≠ [] ∧ slug.all isSlugChar then (some when_, some slug) else (none, none)

/-! ## the ids the engine writes -/

theorem readYear_pad4 (y : ℕ) (h : y < 10000) : readYear (pad4 y) = some y := by
  have hd : ∀ k < 10, decimal (Char.ofNat (48 + k)) = some k := by decide
  have hc : ∀ k, decimal (digitChar k) = some (k % 10) := fun k => hd _ (Nat.mod_lt _ (by omega))
  simp only [readYear, pad4, hc, Option.bind_eq_bind, Option.bind_some, Option.pure_def,
    Option.some.injEq]
  omega

theorem readMonth_pad2 : ∀ m < 13, 1 ≤ m → readMonth (pad2 m) = some m := by decide
theorem readDay_pad2 : ∀ d < 32, 1 ≤ d → readDay (pad2 d) = some d := by decide
theorem readHour_pad2 : ∀ h < 24, readHour (pad2 h) = some h := by decide
theorem readMinute_pad2 : ∀ m < 60, readMinute (pad2 m) = some m := by decide
theorem readSecond_pad2 : ∀ s < 60, readSecond (pad2 s) = some s := by decide

theorem digitChar_ne {c : Char} (hc : ¬ (48 ≤ c.toNat ∧ c.toNat < 58)) (n : ℕ) :
    c ≠ digitChar n := by
  have h : ∀ k < 10, 48 ≤ (Char.ofNat (48 + k)).toNat ∧ (Char.ofNat (48 + k)).toNat < 58 := by
    decide
  rintro rfl
  exact hc (h _ (Nat.mod_lt _ (by omega)))

theorem pad2_free {c : Char} (hc : ¬ (48 ≤ c.toNat ∧ c.toNat < 58)) (n : ℕ) : free c (pad2 n) := by
  simp [free, pad2, digitChar_ne hc]

theorem pad4_free {c : Char} (hc : ¬ (48 ≤ c.toNat ∧ c.toNat < 58)) (n : ℕ) : free c (pad4 n) := by
  simp [free, pad4, digitChar_ne hc]

/-- the second a point in time lies in -/
def toSecond (t : Datetime) : Datetime :=
  ⟨t.day, t.micro / 1000000 * 1000000, t.day_pos, t.day_le, by have := t.micro_lt; omega⟩

theorem daysInMonth_le (y m : ℕ) (h : 1 ≤ m ∧ m ≤ 12) : daysInMonth y m ≤ 31 := by
  have hl := leapDay_le y
  obtain ⟨h1, h2⟩ := h
  unfold daysInMonth
  interval_cases m <;> simp only [daysBeforeMonth] <;> omega

theorem mkDatetime_civil (t : Datetime) :
    mkDatetime (yearOf t.day) (monthOf t.day) (dayOf t.day) t.hour t.minute t.second
      = some (toSecond t) := by
  have hy := yearOf_spec t.day t.day_pos
  have hy' := yearOf_le t.day t.day_pos t.day_le
  have hm := (monthOf_spec t.day t.day_pos).1
  have hd := dayOf_spec t.day t.day_pos
  have ho := ymd2ord_civil t.day t.day_pos
  have hmicro := t.micro_lt
  unfold microsPerDay at hmicro
  unfold mkDatetime
  rw [dif_pos ⟨⟨hy.1, hy'⟩, hm, hd, by unfold Datetime.hour; omega,
    by unfold Datetime.minute; omega, by unfold Datetime.second; omega⟩]
  have hs : (t.hour * 3600 + t.minute * 60 + t.second) * 1000000 = t.micro / 1000000 * 1000000 := by
    unfold Datetime.hour Datetime.minute Datetime.second
    omega
  simp only [toSecond, ho, hs]

theorem stamp_length (t : Datetime) : (stamp t).length = timestampLen := by
  simp [stamp, pad2, pad4, timestampLen]

theorem strptime_stamp (t : Datetime) : strptime (stamp t) = some (toSecond t) := by
  have hy' := yearOf_le t.day t.day_pos t.day_le
  have hm := (monthOf_spec t.day t.day_pos).1
  have hd := dayOf_spec t.day t.day_pos
  have hdm := daysInMonth_le (yearOf t.day) _ hm
  have hmicro := t.micro_lt
  unfold microsPerDay at hmicro
  have e1 := readYear_pad4 (yearOf t.day) (by unfold maxYear at hy'; omega)
  have e2 := readMonth_pad2 (monthOf t.day) (by omega) hm.1
  have e3 := readDay_pad2 (dayOf t.day) (by omega) hd.1
  have e4 := readHour_pad2 t.hour (by unfold Datetime.hour; omega)
  have e5 := readMinute_pad2 t.minute (by unfold Datetime.minute; omega)
  have e6 := readSecond_pad2 t.second (by unfold Datetime.second; omega)
  unfold strptime stamp
  rw [splitAt1_append (pad4_free (by decide) _)]
  show (splitAt1 '-' _).bind _ = _
  rw [splitAt1_append (pad2_free (by decide) _)]
  show (splitAt1 '_' _).bind _ = _
  rw [splitAt1_append (pad2_free (by decide) _)]
  show (splitAt1 '-' _).bind _ = _
  rw [splitAt1_append (pad2_free (by decide) _)]
  show (splitAt1 '-' _).bind _ = _
  rw [splitAt1_append (pad2_free (by decide) _)]
  show (readYear _).bind _ = _
  rw [e1]
  show (readMonth _).bind _ = _
  rw [e2]
  show (readDay _).bind _ = _
  rw [e3]
  show (readHour _).bind _ = _
  rw [e4]
  show (readMinute _).bind _ = _
  rw [e5]
  show (readSecond _).bind _ = _
  rw [e6]
  exact mkDatetime_civil t

theorem jobSlug_ne_nil (name : Str) : jobSlug name ≠ [] := by
  cases name <;> simp [jobSlug]

theorem jobSlug_all (name : Str) : (jobSlug name).all isSlugChar = true := by
  cases name with
  | nil => rfl
  | cons c s =>
    simp only [jobSlug, List.all_map, List.all_eq_true]
    intro d _
    show isSlugChar (if isSlugChar d then d else '-') = true
    split
    · assumption
    · rfl

/-- **The id of a run reads back as its start and its job's slug.** -/
theorem parse_newSnapshotId (t : Datetime) (job : Option Str) :
    parseSnapshotId (newSnapshotId t job) = (some (toSecond t), job.map jobSlug) := by
  have hl := stamp_length t
  cases job with
  | none =>
    have htake : (stamp t).take timestampLen = stamp t := by rw [← hl, List.take_length]
    have hdrop : (stamp t).drop timestampLen = [] := by rw [← hl, List.drop_length]
    simp [parseSnapshotId, newSnapshotId, htake, hdrop, strptime_stamp]
  | some name =>
    have htake : (stamp t ++ '_' :: jobSlug name).take timestampLen = stamp t := by
      rw [← hl, List.take_left]
    have hdrop : (stamp t ++ '_' :: jobSlug name).drop timestampLen = '_' :: jobSlug name := by
      rw [← hl, List.drop_left]
    simp [parseSnapshotId, newSnapshotId, htake, hdrop, strptime_stamp, jobSlug_ne_nil, jobSlug_all,
      -List.all_eq_true]

theorem free_of_all_slug {s : Str} (h : s.all isSlugChar = true) {c : Char}
    (hc : isSlugChar c = false) : free c s := by
  intro hm
  have := List.all_eq_true.mp h c hm
  rw [hc] at this
  exact Bool.false_ne_true this

theorem stamp_all (t : Datetime) : (stamp t).all isSlugChar = true := by
  have h : ∀ k < 10, isSlugChar (Char.ofNat (48 + k)) = true := by decide
  have hd : ∀ n, isSlugChar (digitChar n) = true := fun n => h _ (Nat.mod_lt _ (by omega))
  have h1 : isSlugChar '-' = true := by decide
  have h2 : isSlugChar '_' = true := by decide
  simp [stamp, pad2, pad4, hd, h1, h2]

theorem newSnapshotId_all (t : Datetime) (job : Option Str) :
    (newSnapshotId t job).all isSlugChar = true := by
  have h2 : isSlugChar '_' = true := by decide
  cases job with
  | none => exact stamp_all t
  | some name =>
    show (stamp t ++ '_' :: jobSlug name).all isSlugChar = true
    rw [List.all_append, stamp_all, List.all_cons, h2, jobSlug_all]
    rfl

theorem newSnapshotId_free (t : Datetime) (job : Option Str) : free '.' (newSnapshotId t job) :=
  free_of_all_slug (newSnapshotId_all t job) (by decide)

/-! ## the ids that are read -/

theorem asciiIn_dot (lo hi : ℕ) : asciiIn lo hi '.' = none := by
  unfold asciiIn
  rw [if_neg]
  intro h
  have : ('.' : Char).toNat = 46 := by decide
  omega

theorem decimal_dot : decimal '.' = none := by decide

theorem twoDigits_free {lo hi : ℕ} {snd : Char → Option ℕ} (hsnd : snd '.' = none) {s : Str} {n : ℕ}
    (h : twoDigits lo hi snd s = some n) : free '.' s := by
  unfold twoDigits at h
  split at h
  · rename_i a b
    rintro hm
    rcases List.mem_cons.mp hm with rfl | hm
    · rw [asciiIn_dot] at h
      simp at h
    · rcases List.mem_singleton.mp hm with rfl
      rw [hsnd] at h
      simp at h
  · simp at h

theorem oneDigit_free {d : Char → Option ℕ} (hd : d '.' = none) {s : Str} {n : ℕ}
    (h : oneDigit d s = some n) : free '.' s := by
  unfold oneDigit at h
  split at h
  · rintro hm
    rcases List.mem_singleton.mp hm with rfl
    rw [hd] at h
    simp at h
  · simp at h

theorem blankDigit_free {d : Char → Option ℕ} (hd : d '.' = none) {s : Str} {n : ℕ}
    (h : blankDigit d s = some n) : free '.' s := by
  unfold blankDigit at h
  split at h
  · rintro hm
    simp only [List.mem_cons, List.not_mem_nil, or_false] at hm
    rcases hm with hm | rfl
    · simp at hm
    · rw [hd] at h
      cases h
  · cases h

theorem readYear_free {s : Str} {n : ℕ} (h : readYear s = some n) : free '.' s := by
  unfold readYear at h
  split at h
  · intro hm
    simp only [List.mem_cons, List.not_mem_nil, or_false] at hm
    rcases hm with rfl | rfl | rfl | rfl <;> simp [decimal_dot] at h
  · simp at h

theorem readMonth_free {s : Str} {n : ℕ} (h : readMonth s = some n) : free '.' s := by
  unfold readMonth at h
  simp only [Option.orElse_eq_orElse, Option.orElse_eq_or, Option.or_eq_some_iff] at h
  rcases h with h | ⟨-, h | ⟨-, h⟩⟩
  · exact twoDigits_free (asciiIn_dot _ _) h
  · exact twoDigits_free (asciiIn_dot _ _) h
  · exact oneDigit_free (asciiIn_dot _ _) h

theorem readDay_free {s : Str} {n : ℕ} (h : readDay s = some n) : free '.' s := by
  unfold readDay at h
  simp only [Option.orElse_eq_orElse, Option.orElse_eq_or, Option.or_eq_some_iff] at h
  rcases h with h | ⟨-, h | ⟨-, h | ⟨-, h | ⟨-, h⟩⟩⟩⟩
  · exact twoDigits_free (asciiIn_dot _ _) h
  · exact twoDigits_free decimal_dot h
  · exact twoDigits_free (asciiIn_dot _ _) h
  · exact oneDigit_free (asciiIn_dot _ _) h
  · exact blankDigit_free (asciiIn_dot _ _) h

theorem readHour_free {s : Str} {n : ℕ} (h : readHour s = some n) : free '.' s := by
  unfold readHour at h
  simp only [Option.orElse_eq_orElse, Option.orElse_eq_or, Option.or_eq_some_iff] at h
  rcases h with h | ⟨-, h | ⟨-, h | ⟨-, h⟩⟩⟩
  · exact twoDigits_free (asciiIn_dot _ _) h
  · exact twoDigits_free decimal_dot h
  · exact oneDigit_free decimal_dot h
  · exact blankDigit_free decimal_dot h

theorem readMinute_free {s : Str} {n : ℕ} (h : readMinute s = some n) : free '.' s := by
  unfold readMinute at h
  simp only [Option.orElse_eq_orElse, Option.orElse_eq_or, Option.or_eq_some_iff] at h
  rcases h with h | ⟨-, h⟩
  · exact twoDigits_free decimal_dot h
  · exact oneDigit_free decimal_dot h

theorem readSecond_free {s : Str} {n : ℕ} (h : readSecond s = some n) : free '.' s := by
  unfold readSecond at h
  simp only [Option.orElse_eq_orElse, Option.orElse_eq_or, Option.or_eq_some_iff] at h
  rcases h with h | ⟨-, h | ⟨-, h⟩⟩
  · exact twoDigits_free (asciiIn_dot _ _) h
  · exact twoDigits_free decimal_dot h
  · exact oneDigit_free decimal_dot h

theorem free_append {c : Char} {s t : Str} : free c (s ++ t) ↔ free c s ∧ free c t := by
  simp [free]

theorem free_cons {c d : Char} {s : Str} : free c (d :: s) ↔ c ≠ d ∧ free c s := by
  simp [free]

theorem strptime_free {s : Str} {t : Datetime} (h : strptime s = some t) : free '.' s := by
  unfold strptime at h
  simp only [Option.bind_eq_bind, Option.bind_eq_some_iff] at h
  obtain ⟨⟨y, s₁⟩, h₁, ⟨m, s₂⟩, h₂, ⟨d, s₃⟩, h₃, ⟨hh, s₄⟩, h₄, ⟨mm, ss⟩, h₅, _, hy, _, hm, _, hd, _,
    hhh, _, hmm, _, hss, -⟩ := h
  obtain rfl : s = y ++ '-' :: s₁ := splitAt1_eq_some h₁
  obtain rfl : s₁ = m ++ '-' :: s₂ := splitAt1_eq_some h₂
  obtain rfl : s₂ = d ++ '_' :: s₃ := splitAt1_eq_some h₃
  obtain rfl : s₃ = hh ++ '-' :: s₄ := splitAt1_eq_some h₄
  obtain rfl : s₄ = mm ++ '-' :: ss := splitAt1_eq_some h₅
  simp only [free_append, free_cons]
  refine ⟨readYear_free hy, by decide, readMonth_free hm, by decide, readDay_free hd, by decide,
    readHour_free hhh, by decide, readMinute_free hmm, by decide, readSecond_free hss⟩

/-- **An id that names a time has no dot.** -/
theorem parseSnapshotId_free {s : Str} {t : Datetime} (h : (parseSnapshotId s).1 = some t) :
    free '.' s := by
  have hs : s = s.take timestampLen ++ s.drop timestampLen := (List.take_append_drop _ _).symm
  unfold parseSnapshotId at h
  split at h
  · simp at h
  · rename_i when_ hw
    rw [hs, free_append]
    refine ⟨strptime_free hw, ?_⟩
    split at h
    · rename_i hd
      rw [hd]
      exact List.not_mem_nil
    · rename_i c slug hd
      rw [hd, free_cons]
      split at h
      · rename_i hc
        exact ⟨by rw [hc.1]; decide, free_of_all_slug hc.2.2 (by decide)⟩
      · simp at h

/-! ## ownership -/

def localPlace : Str := "local".toList

def pendingSuffix : Str := ".offsite-pending.json".toList

/-- the place of an S3 destination: endpoint, bucket and key prefix -/
def s3Place (c : S3Spec) : Str :=
  "s3:".toList ++ c.endpoint ++ '|' :: c.bucket ++ '|' :: c.prefix_

/-- where `job` stores its snapshots: its S3 places, and the data dir when it has a local
destination or no S3 destination with a bucket -/
def jobPlaces (job : Job) : List Str :=
  let places := job.offsite.map s3Place
  if places = [] ∨ DestinationSpec.local ∈ job.destinations then places ++ [localPlace] else places

/-- how one job names its snapshots, and which snapshots it owns -/
structure SnapshotScope where
  job : Str
  /-- ids carry the job name -/
  scopedIds : Bool := false
  /-- places where a plain id belongs to this job; `none`: everywhere -/
  plainAt : Option (List Str) := none

def SnapshotScope.newId (scope : SnapshotScope) (now : Datetime) : Str :=
  newSnapshotId now (if scope.scopedIds then some scope.job else none)

/-- whether snapshot `sid` at `place` belongs to this job; `markedFor` is the job its pending marker
names -/
def SnapshotScope.owns (scope : SnapshotScope) (sid place : Str) (markedFor : Option Str) : Bool :=
  match (parseSnapshotId sid).2 with
  | some slug => slug = jobSlug scope.job
  | none =>
    match scope.plainAt with
    | none => true
    | some places =>
      match markedFor with
      | some j => j = scope.job
      | none => place ∈ places

/-- the first job, in config order, that stores snapshots in `place` -/
def firstStoring (jobs : List Job) (place : Str) : Option Str :=
  (jobs.find? (fun j => place ∈ jobPlaces j)).map (·.name)

/-- the scope of `job` within the configured `jobs` -/
def scopeFor (jobs : List Job) (job : Job) : SnapshotScope :=
  if jobs.length ≤ 1 then { job := job.name }
  else
    { job := job.name
      scopedIds := true
      plainAt := some (((jobs.flatMap jobPlaces).dedup).filter
        (fun p => firstStoring jobs p = some job.name)) }

end BackupHelper
