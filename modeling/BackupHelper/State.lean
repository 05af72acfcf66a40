import BackupHelper.Runner.Names
import BackupHelper.Lib.Glob

/-!
# Run records in the state dir

Every run leaves the outcome of its job in `.state/job-<name>.json`, and the daemon its start in
`.state/daemon.json`.  A file is written under a temporary name first and then put in place; a JSON
text is known by its value.

* `parseTimestamp`        reads what `isoformat` writes (`parse_isoformat`);
* `recordRun`, `readRuns` the writer and the reader of the records;
* `recordAll`             a sequence of writes, each of which may fail.

The name of a record's file does not tell all job names apart (`jobFile`): `records_faithful_iff` says when
the reader gets back, for each job, the last record that was written for it.
-/

namespace BackupHelper
open Text Glob Calendar

/-! ## timestamps -/

/-- ASCII digits as a number -/
def asciiNumber (s : Str) : Option ℕ :=
  if s = [] then none else s.foldlM (fun n c => (asciiIn 0 9 c).map (10 * n + ·)) 0

/-- exactly `n` of them -/
def digitsOf (n : ℕ) (s : Str) : Option ℕ := if s.length = n then asciiNumber s else none

/-- `.ffffff`, in microseconds -/
def readFraction : Str → Option ℕ
  | [] => some 0
  | '.' :: s => digitsOf 6 s
  | _ => none

def addMicros (t : Datetime) (n : ℕ) : Option Datetime :=
  if h : t.micro + n < microsPerDay then some ⟨t.day, t.micro + n, t.day_pos, t.day_le, h⟩ else none

/-- `YYYY-MM-DDTHH:MM:SS[.ffffff][+00:00]`, the form that the engine writes -/
def parseTimestamp (s : Str) : Option Datetime := do
  let (y, s) ← splitAt1 '-' s
  let (m, s) ← splitAt1 '-' s
  let (d, s) ← splitAt1 'T' s
  let (hh, s) ← splitAt1 ':' s
  let (mm, s) ← splitAt1 ':' s
  let s := (stem "+00:00".toList s).getD s
  let t ← mkDatetime (← digitsOf 4 y) (← digitsOf 2 m) (← digitsOf 2 d) (← digitsOf 2 hh)
    (← digitsOf 2 mm) (← digitsOf 2 (s.take 2))
  addMicros t (← readFraction (s.drop 2))

theorem asciiIn_digitChar (n : ℕ) : asciiIn 0 9 (digitChar n) = some (n % 10) := by
  have h : ∀ k < 10, asciiIn 0 9 (Char.ofNat (48 + k)) = some k := by decide
  exact h _ (Nat.mod_lt _ (by omega))

theorem digitsOf_pad2 {n : ℕ} (h : n < 100) : digitsOf 2 (pad2 n) = some n := by
  unfold digitsOf asciiNumber pad2
  simp only [List.length_cons, List.length_nil, if_true, reduceCtorEq, if_false, List.foldlM_cons,
    List.foldlM_nil, asciiIn_digitChar, Option.map_some, Option.bind_eq_bind, Option.bind_some,
    Option.pure_def, Option.some.injEq]
  omega

theorem digitsOf_pad4 {n : ℕ} (h : n < 10000) : digitsOf 4 (pad4 n) = some n := by
  unfold digitsOf asciiNumber pad4
  simp only [List.length_cons, List.length_nil, if_true, reduceCtorEq, if_false, List.foldlM_cons,
    List.foldlM_nil, asciiIn_digitChar, Option.map_some, Option.bind_eq_bind, Option.bind_some,
    Option.pure_def, Option.some.injEq]
  omega

theorem digitsOf_pad6 {n : ℕ} (h : n < 1000000) : digitsOf 6 (pad6 n) = some n := by
  unfold digitsOf asciiNumber pad6 pad2 pad4
  simp only [List.length_cons, List.length_nil, List.cons_append, List.nil_append, if_true,
    reduceCtorEq, if_false, List.foldlM_cons, List.foldlM_nil, asciiIn_digitChar, Option.map_some,
    Option.bind_eq_bind, Option.bind_some, Option.pure_def, Option.some.injEq]
  omega

theorem addMicros_toSecond (t : Datetime) :
    addMicros (toSecond t) (t.micro % 1000000) = some t := by
  have hm : (toSecond t).micro + t.micro % 1000000 = t.micro := by
    show t.micro / 1000000 * 1000000 + t.micro % 1000000 = t.micro
    omega
  unfold addMicros
  rw [dif_pos (by rw [hm]; exact t.micro_lt)]
  simp only [hm]
  rfl

/-- the parts of a timestamp; its fraction is left out where it is zero -/
theorem isoformat_parts (t : Datetime) : ∃ frac, readFraction frac = some (t.micro % 1000000) ∧
    isoformat t = pad4 (yearOf t.day) ++ '-' :: (pad2 (monthOf t.day) ++ '-' ::
      (pad2 (dayOf t.day) ++ 'T' :: (pad2 t.hour ++ ':' :: (pad2 t.minute ++ ':' ::
        (pad2 t.second ++ (frac ++ "+00:00".toList)))))) := by
  by_cases h0 : t.micro % 1000000 = 0
  · refine ⟨[], by rw [h0]; rfl, ?_⟩
    simp [isoformat, h0, List.append_assoc]
  · refine ⟨'.' :: pad6 (t.micro % 1000000), digitsOf_pad6 (by omega), ?_⟩
    simp [isoformat, h0, List.append_assoc]

/-- **What `isoformat` writes is read back.** -/
theorem parse_isoformat (t : Datetime) : parseTimestamp (isoformat t) = some t := by
  have hy' := yearOf_le t.day t.day_pos t.day_le
  have hm := (monthOf_spec t.day t.day_pos).1
  have hd := dayOf_spec t.day t.day_pos
  have hdm := daysInMonth_le (yearOf t.day) _ hm
  have hmicro := t.micro_lt
  unfold microsPerDay at hmicro
  have e1 : digitsOf 4 (pad4 (yearOf t.day)) = _ := digitsOf_pad4 (by unfold maxYear at hy'; omega)
  have e2 : digitsOf 2 (pad2 (monthOf t.day)) = _ := digitsOf_pad2 (by omega)
  have e3 : digitsOf 2 (pad2 (dayOf t.day)) = _ := digitsOf_pad2 (by omega)
  have e4 : digitsOf 2 (pad2 t.hour) = _ := digitsOf_pad2 (by unfold Datetime.hour; omega)
  have e5 : digitsOf 2 (pad2 t.minute) = _ := digitsOf_pad2 (by unfold Datetime.minute; omega)
  have e6 : digitsOf 2 (pad2 t.second) = _ := digitsOf_pad2 (by unfold Datetime.second; omega)
  obtain ⟨frac, hfrac, hiso⟩ := isoformat_parts t
  have htail : (stem "+00:00".toList (pad2 t.second ++ (frac ++ "+00:00".toList))).getD
      (pad2 t.second ++ (frac ++ "+00:00".toList)) = pad2 t.second ++ frac := by
    rw [← List.append_assoc, stem_append]
    rfl
  have htake : (pad2 t.second ++ frac).take 2 = pad2 t.second := rfl
  have hdrop : (pad2 t.second ++ frac).drop 2 = frac := rfl
  rw [hiso]
  unfold parseTimestamp
  rw [splitAt1_append (pad4_free (by decide) _)]
  show (splitAt1 '-' _).bind _ = _
  rw [splitAt1_append (pad2_free (by decide) _)]
  show (splitAt1 'T' _).bind _ = _
  rw [splitAt1_append (pad2_free (by decide) _)]
  show (splitAt1 ':' _).bind _ = _
  rw [splitAt1_append (pad2_free (by decide) _)]
  show (splitAt1 ':' _).bind _ = _
  rw [splitAt1_append (pad2_free (by decide) _)]
  simp only [Option.bind_eq_bind, Option.bind_some, e1, e2, e3, e4, e5, htail, htake, hdrop, e6,
    mkDatetime_civil]
  -- by a lemma about `bind`: unfolding `addMicros` here counts up to `microsPerDay`
  exact Option.bind_eq_some_iff.mpr ⟨_, hfrac, addMicros_toSecond t⟩

/-! ## the state dir -/

/-- the content of a file of the state dir -/
inductive StateFile where
  | run (r : RunRecord)
  | daemon (startedAt : Datetime)
  /-- anything that is no record and no start -/
  | other (b : Bytes)

/-- the files right in `.state`, by name -/
abbrev StateDir := AList (fun _ : Str => StateFile)

/-- where a write fails -/
inductive WriteFault where
  /-- the state dir is missing and cannot be made -/
  | mkdir
  /-- the temporary file cannot be written; what is left of it -/
  | text (b : Option Bytes)
  /-- it cannot be put in place; whether it is removed again -/
  | replace (removed : Bool)

/-- the temporary name of `name`; `tag` is the process and the thread -/
def tempName (name tag : Str) : Str := '.' :: name ++ '.' :: tag ++ ".tmp".toList

def writeJson (d : StateDir) (name tag : Str) (data : StateFile) : Option WriteFault → StateDir
  | none => (d.insert name data).erase (tempName name tag)
  | some .mkdir => d
  | some (.text none) => d.erase (tempName name tag)
  | some (.text (some b)) => d.insert (tempName name tag) (.other b)
  | some (.replace true) => d.erase (tempName name tag)
  | some (.replace false) => d.insert (tempName name tag) data

/-- persist the outcome of a run -/
def recordRun (d : StateDir) (r : RunRecord) (tag : Str) (f : Option WriteFault) : StateDir :=
  writeJson d (jobFile r.job) tag (.run r) f

def recordPattern : Str := "job-*.json".toList

/-- every record, in the order of the files' names -/
def readRuns (d : StateDir) : List RunRecord :=
  (sorted (d.keys.filter (fnmatch recordPattern))).filterMap (fun k =>
    match d.lookup k with
    | some (.run r) => some r
    | _ => none)

def daemonFile : Str := "daemon.json".toList

def recordDaemonStart (d : StateDir) (now : Datetime) (tag : Str) (f : Option WriteFault) : StateDir :=
  writeJson d daemonFile tag (.daemon now) f

def readDaemonStart (d : StateDir) : Option Datetime :=
  match d.lookup daemonFile with
  | some (.daemon t) => some t
  | some (.run r) => some r.startedAt
  | _ => none

/-! ## a sequence of writes -/

structure RecordCall where
  record : RunRecord
  tag : Str
  fault : Option WriteFault

def RecordCall.written (c : RecordCall) : Bool := c.fault.isNone

def recordAll (calls : List RecordCall) : StateDir :=
  calls.foldl (fun d c => recordRun d c.record c.tag c.fault) ∅

/-- the last record that was written for `job` -/
def lastWritten (calls : List RecordCall) (job : Str) : Option RunRecord :=
  ((calls.filter (fun c => c.written && c.record.job = job)).getLast?).map (·.record)

/-- each job has its last record and no other, and a write that fails changes none -/
structure Faithful (calls : List RecordCall) : Prop where
  last : ∀ job, (readRuns (recordAll calls)).filter (fun r => r.job = job) =
    (lastWritten calls job).toList
  failed : ∀ before c after, calls = before ++ c :: after → c.written = false →
    readRuns (recordAll (before ++ [c])) = readRuns (recordAll before)

/-- no two jobs with a record share a file -/
def SeparateFiles (calls : List RecordCall) : Prop :=
  ∀ c ∈ calls, ∀ c' ∈ calls, c.written = true → c'.written = true →
    jobFile c.record.job = jobFile c'.record.job → c.record.job = c'.record.job

/-! ## one write -/

theorem lookup_writeJson {d : StateDir} {name tag k : Str} {data : StateFile}
    (f : Option WriteFault) (hk : k ≠ tempName name tag) :
    (writeJson d name tag data f).lookup k =
      if f = none ∧ k = name then some data else d.lookup k := by
  cases f with
  | none =>
    rw [writeJson, AList.lookup_erase_ne hk]
    by_cases hn : k = name
    · rw [hn, AList.lookup_insert, if_pos ⟨rfl, rfl⟩]
    · rw [AList.lookup_insert_ne hn, if_neg fun h => hn h.2]
  | some f =>
    rw [if_neg fun h => by simp at h]
    cases f with
    | mkdir => rfl
    | text b =>
      cases b with
      | none => exact AList.lookup_erase_ne hk
      | some b => exact AList.lookup_insert_ne hk
    | replace removed =>
      cases removed with
      | true => exact AList.lookup_erase_ne hk
      | false => exact AList.lookup_insert_ne hk

theorem recordPattern_eq : recordPattern = "job-".toList ++ '*' :: ".json".toList := by decide

theorem matches_jobFile (job : Str) : fnmatch recordPattern (jobFile job) = true := by
  rw [recordPattern_eq, fnmatch_within (by decide) (by decide)]
  exact ⟨_, List.append_assoc _ _ _⟩

/-- a temporary file is no record -/
theorem ne_tempName {k : Str} (hk : fnmatch recordPattern k = true) (name tag : Str) :
    k ≠ tempName name tag := by
  rw [recordPattern_eq, fnmatch_within (by decide) (by decide)] at hk
  obtain ⟨r, rfl⟩ := hk
  intro h
  have hhead := congrArg List.head? h
  simp [tempName] at hhead

theorem readRuns_congr {d d' : StateDir}
    (h : ∀ k, fnmatch recordPattern k = true → d.lookup k = d'.lookup k) : readRuns d = readRuns d' := by
  have hkeys : sorted (d.keys.filter (fnmatch recordPattern)) =
      sorted (d'.keys.filter (fnmatch recordPattern)) := by
    refine sorted_ext (d.nodupKeys.filter _) (d'.nodupKeys.filter _) fun k => ?_
    rw [List.mem_filter, List.mem_filter, and_congr_left_iff]
    intro hk
    show k ∈ d ↔ k ∈ d'
    rw [← AList.lookup_isSome, ← AList.lookup_isSome, h k hk]
  unfold readRuns
  rw [hkeys]
  refine List.filterMap_congr fun k hk => ?_
  rw [h k (List.mem_filter.mp (mem_sorted.mp hk)).2]

/-- the start of the daemon is read back and no record changes; a write that fails leaves the earlier start -/
theorem readDaemonStart_record (d : StateDir) (now : Datetime) (tag : Str) (f : Option WriteFault) :
    readDaemonStart (recordDaemonStart d now tag f) = (if f = none then some now else readDaemonStart d) ∧
      readRuns (recordDaemonStart d now tag f) = readRuns d := by
  have hdaemon : daemonFile ≠ tempName daemonFile tag := by
    intro h
    have hd : daemonFile.head? = some 'd' := by decide +kernel
    have hdot : (tempName daemonFile tag).head? = some '.' := rfl
    rw [h, hdot] at hd
    cases hd
  have hnorecord : fnmatch recordPattern daemonFile = false := by decide +kernel
  constructor
  · unfold readDaemonStart recordDaemonStart
    rw [lookup_writeJson f hdaemon]
    by_cases hf : f = none
    · rw [if_pos ⟨hf, rfl⟩, if_pos hf]
    · rw [if_neg fun h => hf h.1, if_neg hf]
  · refine readRuns_congr fun k hk => ?_
    unfold recordDaemonStart
    rw [lookup_writeJson f (ne_tempName hk _ _), if_neg]
    rintro ⟨-, rfl⟩
    rw [hnorecord] at hk
    cases hk

/-! ## all writes -/

/-- the last record that was written to the file `k` -/
def lastAt (calls : List RecordCall) (k : Str) : Option RunRecord :=
  ((calls.filter (fun c => c.written && jobFile c.record.job = k)).getLast?).map (·.record)

theorem recordAll_concat (calls : List RecordCall) (c : RecordCall) :
    recordAll (calls ++ [c]) = recordRun (recordAll calls) c.record c.tag c.fault := by
  simp [recordAll]

theorem lookup_recordAll (calls : List RecordCall) {k : Str} (hk : fnmatch recordPattern k = true) :
    (recordAll calls).lookup k = (lastAt calls k).map .run := by
  induction calls using List.reverseRecOn with
  | nil => simp [recordAll, lastAt]
  | append_singleton calls c ih =>
    rw [recordAll_concat, recordRun, lookup_writeJson _ (ne_tempName hk _ _), ih]
    unfold lastAt
    rw [List.filter_append]
    by_cases hc : c.fault = none ∧ k = jobFile c.record.job
    · have hf : [c].filter (fun c => c.written && jobFile c.record.job = k) = [c] := by
        simp [RecordCall.written, hc.1, hc.2]
      rw [if_pos hc, hf]
      simp
    · have hf : [c].filter (fun c => c.written && jobFile c.record.job = k) = [] := by
        rw [List.filter_eq_nil_iff]
        intro c' hc'
        rw [List.mem_singleton.mp hc']
        simp only [RecordCall.written, Bool.and_eq_true, Option.isNone_iff_eq_none, decide_eq_true_eq]
        exact fun h => hc ⟨h.1, h.2.symm⟩
      rw [if_neg hc, hf, List.append_nil]

theorem mem_of_lastAt {calls : List RecordCall} {k : Str} {r : RunRecord} (h : lastAt calls k = some r) :
    ∃ c ∈ calls, c.written = true ∧ c.record = r ∧ jobFile r.job = k := by
  obtain ⟨c, hc, rfl⟩ := Option.map_eq_some_iff.mp h
  obtain ⟨hmem, hp⟩ := List.mem_filter.mp (List.mem_of_mem_getLast? hc)
  rw [Bool.and_eq_true, decide_eq_true_eq] at hp
  exact ⟨c, hmem, hp.1, rfl, hp.2⟩

/-- of a list without repetitions in which only `k₀` has an image with `p` -/
theorem filter_filterMap_single {α γ : Type} {g : α → Option γ} {p : γ → Bool} {k₀ : α} {ks : List α}
    (hnd : ks.Nodup) (honly : ∀ k ∈ ks, ∀ r, g k = some r → p r = true → k = k₀)
    (hall : k₀ ∉ ks → g k₀ = none) : (ks.filterMap g).filter p = ((g k₀).filter p).toList := by
  induction ks with
  | nil => simp [hall]
  | cons k ks ih =>
    obtain ⟨hk, hnd'⟩ := List.nodup_cons.mp hnd
    by_cases he : k = k₀
    · subst he
      have hrest : (ks.filterMap g).filter p = [] := by
        rw [List.filter_eq_nil_iff]
        intro r hr hp
        obtain ⟨x, hx, hg⟩ := List.mem_filterMap.mp hr
        have hxk := honly x (List.mem_cons_of_mem _ hx) r hg hp
        exact hk (hxk ▸ hx)
      cases hg : g k with
      | none => rw [List.filterMap_cons_none hg, hrest]; rfl
      | some r =>
        rw [List.filterMap_cons_some hg, List.filter_cons, hrest]
        cases hp : p r <;> simp [Option.filter, hp]
    · have hih := ih hnd' (fun x hx => honly x (List.mem_cons_of_mem _ hx)) fun hn =>
        hall (by simp [hn, Ne.symm he])
      cases hg : g k with
      | none => rw [List.filterMap_cons_none hg, hih]
      | some r =>
        have hp : ¬ p r = true := fun hp => he (honly k List.mem_cons_self r hg hp)
        rw [List.filterMap_cons_some hg, List.filter_cons_of_neg hp, hih]

/-- of the records that are read, those of `job` -/
theorem readRuns_filter (calls : List RecordCall) (job : Str) :
    (readRuns (recordAll calls)).filter (fun r => r.job = job) =
      ((lastAt calls (jobFile job)).filter (fun r => r.job = job)).toList := by
  let g : Str → Option RunRecord := fun k =>
    match (recordAll calls).lookup k with
    | some (.run r) => some r
    | _ => none
  have hg : ∀ k, fnmatch recordPattern k = true → g k = lastAt calls k := by
    intro k hk
    show (match (recordAll calls).lookup k with | some (.run r) => some r | _ => none) = _
    rw [lookup_recordAll calls hk]
    cases lastAt calls k <;> rfl
  rw [← hg _ (matches_jobFile job)]
  refine filter_filterMap_single (sorted_nodup ((recordAll calls).nodupKeys.filter _)) ?_ ?_
  · intro k hk r hr hjob
    have hlast : lastAt calls k = some r := by
      rw [← hg k (List.mem_filter.mp (mem_sorted.mp hk)).2]
      exact hr
    obtain ⟨-, -, -, -, hfile⟩ := mem_of_lastAt hlast
    rw [← hfile, of_decide_eq_true hjob]
  · intro hnot
    have hnone : (recordAll calls).lookup (jobFile job) = none := by
      by_contra hne
      refine hnot (mem_sorted.mpr (List.mem_filter.mpr ⟨?_, matches_jobFile job⟩))
      exact AList.lookup_isSome.mp (Option.ne_none_iff_isSome.mp hne)
    show (match (recordAll calls).lookup (jobFile job) with | some (.run r) => some r | _ => none) = _
    rw [hnone]

theorem lastWritten_some {calls : List RecordCall} {c : RecordCall} (hc : c ∈ calls)
    (hw : c.written = true) : ∃ r, lastWritten calls c.record.job = some r ∧ r.job = c.record.job := by
  have hmem : c ∈ calls.filter (fun x => x.written && x.record.job = c.record.job) :=
    List.mem_filter.mpr ⟨hc, by simp [hw]⟩
  cases hl : (calls.filter (fun x => x.written && x.record.job = c.record.job)).getLast? with
  | none =>
    rw [List.getLast?_eq_none_iff] at hl
    rw [hl] at hmem
    simp at hmem
  | some x =>
    have hp := (List.mem_filter.mp (List.mem_of_mem_getLast? hl)).2
    rw [Bool.and_eq_true, decide_eq_true_eq] at hp
    exact ⟨x.record, by rw [lastWritten, hl]; rfl, hp.2⟩

/-- **Which sequences of writes leave each job its last record**, and nothing else. -/
theorem records_faithful_iff (calls : List RecordCall) : Faithful calls ↔ SeparateFiles calls := by
  constructor
  · intro h c hc c' hc' hw hw' hfile
    -- both jobs get a record back from the same file
    have hback : ∀ x ∈ calls, x.written = true →
        ∃ r, lastAt calls (jobFile x.record.job) = some r ∧ r.job = x.record.job := by
      intro x hx hxw
      obtain ⟨r, hr, hjob⟩ := lastWritten_some hx hxw
      have hlast := h.last x.record.job
      rw [readRuns_filter, hr] at hlast
      have hmem : r ∈ (lastAt calls (jobFile x.record.job)).filter (fun r => r.job = x.record.job) := by
        rw [Option.mem_def, ← Option.mem_toList, hlast]
        simp
      exact ⟨r, (Option.filter_eq_some_iff.mp hmem).1, hjob⟩
    obtain ⟨r, hr, hjob⟩ := hback c hc hw
    obtain ⟨r', hr', hjob'⟩ := hback c' hc' hw'
    rw [hfile, hr'] at hr
    rw [← hjob, ← hjob', Option.some.inj hr]
  · intro h
    refine ⟨fun job => ?_, fun before c after _ hw => ?_⟩
    · rw [readRuns_filter]
      congr 1
      by_cases hex : ∃ c ∈ calls, c.written = true ∧ c.record.job = job
      · obtain ⟨c, hc, hw, rfl⟩ := hex
        have hsame : calls.filter (fun x => x.written && jobFile x.record.job = jobFile c.record.job) =
            calls.filter (fun x => x.written && x.record.job = c.record.job) := by
          refine List.filter_congr fun x hx => ?_
          cases hxw : x.written with
          | false => rfl
          | true =>
            rw [Bool.true_and, Bool.true_and, decide_eq_decide]
            exact ⟨fun he => h x hx c hc hxw hw he, fun he => by rw [he]⟩
        obtain ⟨r, hr, hjob⟩ := lastWritten_some hc hw
        have hat : lastAt calls (jobFile c.record.job) = lastWritten calls c.record.job := by
          unfold lastAt lastWritten
          rw [hsame]
        rw [hat, hr, Option.filter_some, if_pos (by simpa using hjob)]
      · have hnone : lastWritten calls job = none := by
          unfold lastWritten
          rw [Option.map_eq_none_iff, List.getLast?_eq_none_iff, List.filter_eq_nil_iff]
          intro c hc hp
          rw [Bool.and_eq_true, decide_eq_true_eq] at hp
          exact hex ⟨c, hc, hp.1, hp.2⟩
        rw [hnone, Option.filter_eq_none_iff]
        intro r hr hjob
        obtain ⟨c, hc, hw, rfl, -⟩ := mem_of_lastAt hr
        exact hex ⟨c, hc, hw, of_decide_eq_true hjob⟩
    · refine readRuns_congr fun k hk => ?_
      have hf : ¬ (c.fault = none ∧ k = jobFile c.record.job) := by
        intro hc
        rw [RecordCall.written, hc.1] at hw
        simp at hw
      rw [recordAll_concat, recordRun, lookup_writeJson _ (ne_tempName hk _ _), if_neg hf]

/-! ## where it fails -/

def recordOf (job : Str) (status : Status) (at_ : Datetime) : RunRecord :=
  ⟨job, stamp at_, status, at_, []⟩

/-- the good run of `a b` after the failed one of `a_b` -/
def collidingCalls : List RecordCall :=
  [⟨recordOf "a_b".toList .error noon, "1.1".toList, none⟩,
    ⟨recordOf "a b".toList .success noon, "1.1".toList, none⟩]

/-- **Two jobs with one file**: different names and slugs, and only one record is left. -/
theorem records_collide : jobSlug "a b".toList ≠ jobSlug "a_b".toList ∧
    (readRuns (recordAll collidingCalls)).map (·.job) = ["a b".toList] ∧
    ¬ Faithful collidingCalls := by
  refine ⟨by decide, by decide +kernel, fun h => ?_⟩
  have hjob := (records_faithful_iff collidingCalls).mp h _ List.mem_cons_self _
    (List.mem_cons_of_mem _ List.mem_cons_self) rfl rfl (by decide)
  exact absurd hjob (by decide)

end BackupHelper
