import BackupHelper.Runner.Ends
import BackupHelper.State
import BackupHelper.Lib.Lines
import BackupHelper.Ownership
import BackupHelper.OffsitePending

/-!
# The healthcheck

`check` judges a data dir by the run records in `.state` and the manifests next to the snapshots: the
newest of them decides, and on equal times a record beats a manifest.  With several jobs every job is
judged by its own record and the manifests of its own snapshots.

* `manifestRuns`, `recordRuns`  the two kinds of evidence;
* `judge`                       the verdict over one set of them;
* `Past`                        a sequence of runs from an empty data dir;
* `healthcheck_exact`           healthy exactly if the last run of every job calls for it.

A manifest was made by a run that also left a record, at the same time or later, so no manifest is
ever the newest evidence of its job (`Evident`).
-/

namespace BackupHelper
open Text Glob Effects Calendar

/-! ## evidence -/

/-- a run as the healthcheck knows it -/
structure HealthRun where
  at_ : Datetime
  /-- on equal times a run record (1) beats a manifest (0) -/
  rank : ℕ
  label : Str
  /-- why this run counts as failed -/
  failure : Option Str
  /-- the job of a run record -/
  job : Option Str
  /-- the snapshot of a manifest, by its file name -/
  sid : Option Str

def failedText (names : List Str) : Str := "failed component(s): ".toList ++ joined ", ".toList names

def Manifest.failure (m : Manifest) : Option Str :=
  let failed := (m.components.filter (·.failed)).map (·.name)
  if failed ≠ [] then some (failedText failed)
  else if m.status = .error then some "status error".toList
  else none

/-- what a file tells; nothing if it is no manifest or its time is not readable -/
def World.manifestRun (w : World) (path : Str) : Option HealthRun :=
  match w.get .data path with
  | some (.manifest m) =>
    let name := path.take (path.length - manifestSuffix.length)
    (parseTimestamp m.createdAt).map fun created =>
      { at_ := created
        rank := 0
        label := "snapshot ".toList ++ if m.snapshotId = [] then name else m.snapshotId
        failure := m.failure
        job := none
        sid := some name }
  | _ => none

def World.manifestRuns (w : World) : List HealthRun :=
  (w.globbed ('*' :: manifestSuffix)).filterMap w.manifestRun

def RunRecord.failure (r : RunRecord) : Option Str :=
  if r.status = .error then
    some (if r.failedComponents ≠ [] then failedText r.failedComponents
      else "the run ended in error".toList)
  else none

def RunRecord.healthRun (r : RunRecord) : HealthRun where
  at_ := r.startedAt
  rank := 1
  label := "snapshot ".toList ++ r.snapshotId ++ " (job ".toList ++ r.job ++ ")".toList
  failure := r.failure
  job := some r.job
  sid := none

def recordRuns (d : StateDir) : List HealthRun := (readRuns d).map (·.healthRun)

/-! ## verdicts -/

/-- what the text of a verdict tells -/
inductive Reason where
  | noDataDir
  | notWritable (stateDir : Bool)
  | noStart
  | grace (started : Datetime)
  | overdue (started : Datetime)
  | failed (latest : HealthRun)
  | stale (latest : HealthRun)
  | fresh (latest : HealthRun)
  /-- with several jobs, those that are unhealthy, or all if none is -/
  | jobs (verdicts : List (Str × Reason))

structure Health where
  healthy : Bool
  reason : Reason

/-- a duration has less than a billion days; other hours raise -/
def timedelta : Hours → Option ℤ
  | .finite micros =>
    if -999999999 * microsPerDay ≤ micros ∧ micros < 1000000000 * microsPerDay then some micros
    else none
  | .boundless => none

/-- `now - at_` in microseconds -/
def age (now at_ : Datetime) : ℤ :=
  ((now.day : ℤ) - at_.day) * microsPerDay + ((now.micro : ℤ) - at_.micro)

/-- `(at_, rank)` is greater -/
def HealthRun.Beats (r s : HealthRun) : Prop :=
  s.at_.Before r.at_ ∨ (¬ r.at_.Before s.at_ ∧ s.rank < r.rank)

instance (r s : HealthRun) : Decidable (r.Beats s) := inferInstanceAs (Decidable (_ ∨ _ ∧ _))

/-- the first of the greatest -/
def latestOf (first : HealthRun) (rest : List HealthRun) : HealthRun :=
  rest.foldl (fun best r => if r.Beats best then r else best) first

def judge (runs : List HealthRun) (maxAge : Hours) (now : Datetime) (started : Option Datetime) :
    Option Health :=
  (timedelta maxAge).map fun limit =>
    match runs with
    | [] =>
      match started with
      | none => ⟨false, .noStart⟩
      | some s => if age now s ≤ limit then ⟨true, .grace s⟩ else ⟨false, .overdue s⟩
    | first :: rest =>
      let latest := latestOf first rest
      if latest.failure.isSome then ⟨false, .failed latest⟩
      else if age now latest.at_ > limit then ⟨false, .stale latest⟩
      else ⟨true, .fresh latest⟩

def Job.maxAge (job : Job) (default_ : Hours) : Hours := job.healthcheckMaxAge.getD default_

/-! ## the check -/

/-- what the check looks at -/
structure DataDir where
  world : World
  /-- the start that the daemon recorded -/
  daemon : Option Datetime
  isDir : Bool
  writable : Bool
  /-- whether `.state` is writable, if it is there -/
  stateWritable : Option Bool

/-- the files in `.state` -/
def DataDir.state (d : DataDir) : StateDir :=
  let records : StateDir :=
    ⟨d.world.runs.entries.map (Sigma.map id fun _ r => .run r), d.world.runs.nodupKeys.map₂ _ _⟩
  match d.daemon with
  | none => records
  | some t => records.insert daemonFile (.daemon t)

def DataDir.notWritable (d : DataDir) : Option Reason :=
  if !d.isDir then some .noDataDir
  else if !d.writable then some (.notWritable false)
  else if d.stateWritable = some false then some (.notWritable true)
  else none

/-- the evidence that counts for `job` -/
def ownRuns (jobs : List Job) (marked : List (Str × Str)) (runs : List HealthRun) (job : Job) :
    List HealthRun :=
  runs.filter fun r =>
    match r.job with
    | some name => decide (name = job.name)
    | none => (scopeFor jobs job).owns (r.sid.getD []) localPlace (marked.lookup (r.sid.getD []))

def verdicts (jobs : List Job) (marked : List (Str × Str)) (runs : List HealthRun) (maxAge : Hours)
    (now : Datetime) (started : Option Datetime) : List Job → Option (List (Str × Health))
  | [] => some []
  | job :: rest => do
    let health ← judge (ownRuns jobs marked runs job) (job.maxAge maxAge) now started
    let others ← verdicts jobs marked runs maxAge now started rest
    pure ((job.name, health) :: others)

/-- the newest of the evidence decides, for each job of several on its own -/
def DataDir.evidence (d : DataDir) : List HealthRun := d.world.manifestRuns ++ recordRuns d.state

/-- judge the data dir; nothing if a max age is no duration -/
def check (d : DataDir) (maxAge : Hours) (now : Datetime) (jobs : List Job) : Option Health :=
  match d.notWritable with
  | some reason => some ⟨false, reason⟩
  | none =>
    let runs := d.evidence
    let started := readDaemonStart d.state
    if jobs.length ≤ 1 then
      judge runs (match jobs with | [] => maxAge | job :: _ => job.maxAge maxAge) now started
    else
      (verdicts jobs d.world.pending runs maxAge now started jobs).map fun verdicts =>
        let failing := verdicts.filter fun v => !v.2.healthy
        ⟨failing = [], .jobs ((if failing = [] then verdicts else failing).map
          fun v => (v.1, v.2.reason))⟩

/-! ## what has run -/

/-- how a run ended, if it ran at all -/
def RunEnd.status : RunEnd → Option Status
  | .refused _ => none
  | .aborted _ => some .error
  | .escaped _ => none
  | .finished result _ => some result.status

structure PastRun where
  args : RunArgs
  status : Status

/-- `h` are the runs of configured jobs that have led from an empty data dir to `w` -/
inductive Past (env : Env) (jobs : List Job) : List PastRun → World → Prop
  | empty {w : World} (hfiles : ∀ k, w.get .data k = none) (hruns : w.runs = ∅) : Past env jobs [] w
  | run {h : List PastRun} {w w' : World} {a : RunArgs} {made : Except Raised Made} {fs : List Fault}
      {e : RunEnd} {status : Status} (past : Past env jobs h w) (hjob : a.job ∈ jobs)
      (hscope : a.scope = scopeFor jobs a.job) (hid : a.snapshotId = none)
      (hlater : ∀ r ∈ h, r.args.now.Before a.now)
      (hexec : (runEnd env a made).exec env.step .calm fs w = (e, w'))
      (hstatus : e.status = some status) : Past env jobs (h ++ [⟨a, status⟩]) w'

/-- the last run of `job` -/
def lastRun (h : List PastRun) (job : Job) : Option PastRun :=
  (h.filter (fun r => r.args.job.name = job.name)).getLast?

/-- at most so many hours -/
def Hours.Covers : Hours → ℤ → Prop
  | .finite micros, x => x ≤ micros
  | .boundless, _ => True

/-- the last run of `job` was good and recent, or there was none and the daemon has just started -/
def Fit (d : DataDir) (h : List PastRun) (job : Job) (maxAge : Hours) (now : Datetime) : Prop :=
  match lastRun h job with
  | some r => r.status ≠ .error ∧ (job.maxAge maxAge).Covers (age now r.args.now)
  | none => ∃ started, d.daemon = some started ∧ (job.maxAge maxAge).Covers (age now started)

/-- the verdict over `job` -/
def DataDir.verdict (d : DataDir) (jobs : List Job) (maxAge : Hours) (now : Datetime) (job : Job) :
    Option Health :=
  judge (if jobs.length ≤ 1 then d.evidence else ownRuns jobs d.world.pending d.evidence job)
    (job.maxAge maxAge) now (readDaemonStart d.state)

/-- the data dir is there, and neither it nor its state dir refuses a write -/
def DataDir.Writable (d : DataDir) : Prop :=
  d.isDir = true ∧ d.writable = true ∧ d.stateWritable ≠ some false

/-- healthy exactly if the data dir is writable and the last run of every job calls for it -/
def Exact (jobs : List Job) (maxAge : Hours) (now : Datetime) (h : List PastRun) (d : DataDir) : Prop :=
  ∃ health, check d maxAge now jobs = some health ∧
    (health.healthy = true ↔ d.Writable ∧ ∀ job ∈ jobs, Fit d h job maxAge now)

/-! ## the newest evidence -/

theorem Beats.asymm {r s : HealthRun} (h : r.Beats s) : ¬ s.Beats r := by
  unfold HealthRun.Beats Datetime.Before at *
  omega

/-- what beats everything else is the newest, wherever it stands -/
theorem latestOf_eq {x first : HealthRun} {rest : List HealthRun} (hx : x ∈ first :: rest)
    (hmax : ∀ y ∈ first :: rest, y = x ∨ x.Beats y) : latestOf first rest = x := by
  induction rest generalizing first with
  | nil => exact (List.mem_singleton.mp hx).symm
  | cons r rest ih =>
    have hfirst := hmax first List.mem_cons_self
    have hr := hmax r (List.mem_cons_of_mem _ List.mem_cons_self)
    have hrest : ∀ y ∈ rest, y = x ∨ x.Beats y :=
      fun y hy => hmax y (List.mem_cons_of_mem _ (List.mem_cons_of_mem _ hy))
    show latestOf (if r.Beats first then r else first) rest = x
    by_cases hb : r.Beats first
    · rw [if_pos hb]
      refine ih ?_ fun y hy => ?_
      · rcases List.mem_cons.mp hx with rfl | hx
        · exact absurd hb (hr.elim (fun h => h ▸ fun h' => Beats.asymm h' h') Beats.asymm)
        · exact hx
      · rcases List.mem_cons.mp hy with rfl | hy
        · exact hr
        · exact hrest y hy
    · rw [if_neg hb]
      refine ih ?_ fun y hy => ?_
      · rcases List.mem_cons.mp hx with rfl | hx
        · exact List.mem_cons_self
        · rcases List.mem_cons.mp hx with rfl | hx
          · exact hfirst.elim (fun h => h ▸ List.mem_cons_self) fun h => absurd h hb
          · exact List.mem_cons_of_mem _ hx
      · rcases List.mem_cons.mp hy with rfl | hy
        · exact hfirst
        · exact hrest y hy

/-! ## the state dir -/

theorem daemonFile_not_record : fnmatch recordPattern daemonFile = false := by decide

theorem lookup_state (d : DataDir) {k : Str} (hk : fnmatch recordPattern k = true) :
    d.state.lookup k = (d.world.runs.lookup k).map .run := by
  have hbase : ∀ h, AList.lookup k
      (⟨d.world.runs.entries.map (Sigma.map id fun _ r => StateFile.run r), h⟩ : StateDir) =
        (d.world.runs.lookup k).map .run := fun _ => List.dlookup_map₂ (f := fun _ r => StateFile.run r) k
  unfold DataDir.state
  cases d.daemon with
  | none => exact hbase _
  | some t =>
    have hne : k ≠ daemonFile := by
      rintro rfl
      rw [daemonFile_not_record] at hk
      simp at hk
    show AList.lookup k (AList.insert daemonFile _ _) = _
    rw [AList.lookup_insert_ne hne]
    exact hbase _

theorem readDaemonStart_state (d : DataDir) (hruns : d.world.runs.lookup daemonFile = none) :
    readDaemonStart d.state = d.daemon := by
  have hbase : ∀ h, AList.lookup daemonFile
      (⟨d.world.runs.entries.map (Sigma.map id fun _ r => StateFile.run r), h⟩ : StateDir) =
        (d.world.runs.lookup daemonFile).map .run :=
    fun _ => List.dlookup_map₂ (f := fun _ r => StateFile.run r) daemonFile
  have hlook : d.state.lookup daemonFile = d.daemon.map .daemon := by
    unfold DataDir.state
    cases d.daemon with
    | none => exact (hbase _).trans (by rw [hruns]; rfl)
    | some t => exact AList.lookup_insert _
  unfold readDaemonStart
  rw [hlook]
  cases d.daemon <;> rfl

theorem mem_readRuns {s : StateDir} {r : RunRecord} :
    r ∈ readRuns s ↔ ∃ k, fnmatch recordPattern k = true ∧ s.lookup k = some (.run r) := by
  unfold readRuns
  simp only [List.mem_filterMap, mem_sorted, List.mem_filter]
  constructor
  · rintro ⟨k, ⟨-, hk⟩, hr⟩
    refine ⟨k, hk, ?_⟩
    split at hr
    · rename_i r' hl
      rw [hl, Option.some.inj hr]
    · simp at hr
  · rintro ⟨k, hk, hl⟩
    refine ⟨k, ⟨AList.lookup_isSome.mp (by rw [hl]; rfl), hk⟩, ?_⟩
    rw [hl]

/-! ## where manifests come from -/

/-- every manifest in the data dir has a name and a time with `P` -/
def Stems (P : Str → Str → Prop) (w : World) : Prop :=
  ∀ k m, w.get .data k = some (.manifest m) → P k m.createdAt

section
variable {env : Env} {P : Str → Str → Prop} {w w' : World}

theorem Stems.of_files (h : Stems P w) (hfiles : w'.files = w.files) : Stems P w' := by
  intro k m hk
  refine h k m ?_
  rwa [World.get, hfiles] at hk

theorem Stems.of_removed {l : Loc} {k : Str} {r : Except Exc Unit} (h : Stems P w)
    (hrem : Removed l k w r w') : Stems P w' := by
  intro k' m hk
  refine h k' m ?_
  rwa [← hrem.get_of_isSome (by rw [hk]; rfl)]

theorem Stems.of_wrote {l : Loc} {k : Str} {c : Content} {r : Except Exc Unit} (h : Stems P w)
    (hw : Wrote l k c w r w') (hc : l = .data → ∀ m, c = .manifest m → P k m.createdAt) :
    Stems P w' := by
  intro k' m hk
  by_cases he : (Loc.data, k') = (l, k)
  · obtain ⟨rfl, rfl⟩ := Prod.mk.inj he
    rcases hw.here with hh | hh | ⟨b, hh⟩
    · exact h _ m (hh.symm.trans hk)
    · exact hc rfl m (Option.some.inj (hh.symm.trans hk))
    · rw [hh] at hk
      simp at hk
  · rw [hw.other _ _ he] at hk
    exact h k' m hk

theorem Stems.of_put {l : Loc} {k : Str} {c c' : Content} {r : Except Exc Unit} (h : Stems P w)
    (hread : Read (.work c') c w r w') (hw : Wrote l k c w r w')
    (hc : l = .data → ∀ m, c' = .manifest m → P k m.createdAt) : Stems P w' := by
  rcases hread with hsome | ⟨-, hfiles⟩
  · obtain rfl : c' = c := Option.some.inj hsome
    exact h.of_wrote hw hc
  · exact h.of_files hfiles

/-- a run puts one manifest into the data dir, its own -/
theorem Stems.runJob (h : Stems P w) {a : RunArgs} (made : Except Raised Made)
    (hown : P (a.sid ++ manifestSuffix) (isoformat a.now)) :
    (runJob env a made).wp env.step (fun _ _ => True) (fun _ w' => Stems P w') w := by
  cases made with
  | error raised =>
    exact Prog.wp_post (wp_runJob_raised (fun _ _ _ => trivial) a raised w) fun _ _ hr =>
      h.of_files hr.1.same
  | ok made =>
    have hquiet : ∀ (_ : List Dest) w w', Quiet w w' → Stems P w → Stems P w' :=
      fun _ _ _ hq h => h.of_files hq.same
    have hkeeps : Keeps env (fun _ _ => True) a.job a.scope a.now (a.artifact made)
        (.work (.manifest (a.manifest env made))) a.sid 0 (fun _ => Stems P) (fun _ => Stems P)
        (fun _ => Stems P) := by
      refine
        { calm := fun _ _ _ => trivial
          quietD := hquiet
          quietI := hquiet
          quietE := hquiet
          since := fun _ _ _ => Nat.zero_le _
          upload := ?upload
          enter := fun _ _ h _ => h
          mark := ?mark
          ship := ?ship
          unlink := ?unlink
          prune := ?prune
          finish := fun _ _ h => h
          drop := ?drop
          start := fun _ h => h }
      case upload =>
        intro dests _ before d after S w _ _ h
        apply wp_uploadTo
        intro c r w₁ hread hwrote _
        have h₁ := h.of_put hread hwrote fun _ m hc => by simp at hc
        refine ⟨trivial, fun _ _ => h₁, fun _ c' r' w₂ hread' hwrote' _ => ⟨trivial, ?_⟩⟩
        refine h₁.of_put hread' hwrote' fun hl m hc => ?_
        cases d with
        | s3 c => simp [Dest.loc] at hl
        | «local» =>
          obtain rfl := Content.manifest.inj hc
          exact hown
      case mark =>
        intro S w r w' h _ _ _ hwrote _ _
        have h' := h.of_wrote hwrote fun _ m hc => by simp at hc
        exact ⟨trivial, fun _ => h', h'⟩
      case ship =>
        intro S ws _ q _ w₁ x _ _ d hd key src c w r w' _ h _ hwrote _
        refine ⟨trivial, h.of_wrote hwrote fun hl => ?_⟩
        obtain ⟨-, hne⟩ := mem_offsiteOf.mp hd
        cases d with
        | s3 c => simp [Dest.loc] at hl
        | «local» => exact absurd rfl hne
      case unlink =>
        intro S ws _ _ q _ w₁ _ name w r w' h _ hrem _ _
        exact ⟨trivial, h.of_removed hrem⟩
      case prune =>
        intro S w _ dest _ only _ out _ p _ key _ w₁ r w₂ h₁ _ hrem _
        exact ⟨trivial, h₁.of_removed hrem⟩
      case drop =>
        intro S _ _ name _ w r w' h hrem _
        exact ⟨trivial, h.of_removed hrem⟩
    exact Prog.wp_post (hkeeps.runJob h) fun r w' hr => hr.2.choose_spec

end

/-! ## the invariant -/

def PastRun.record (r : PastRun) (failed : List Str) : RunRecord :=
  ⟨r.args.job.name, r.args.sid, r.status, r.args.now, failed⟩

/-- what the files in the data dir tell of the runs so far -/
structure Evident (jobs : List Job) (h : List PastRun) (w : World) : Prop where
  runs : ∀ r ∈ h, r.args.job ∈ jobs ∧ r.args.sid = newIdOf jobs r.args.job r.args.now
  increasing : h.Pairwise fun r s => r.args.now.Before s.args.now
  manifests : Stems (fun k created => ∃ r ∈ h, k = r.args.sid ++ manifestSuffix ∧
    created = isoformat r.args.now) w
  records : ∀ job ∈ jobs, (lastRun h job = none ∧ w.runs.lookup (jobFile job.name) = none) ∨
    ∃ r failed, lastRun h job = some r ∧ w.runs.lookup (jobFile job.name) = some (r.record failed)
  named : ∀ k r, w.runs.lookup k = some r → ∃ job ∈ jobs, k = jobFile job.name ∧ r.job = job.name

theorem lastRun_concat (h : List PastRun) (r : PastRun) (job : Job) :
    lastRun (h ++ [r]) job = if r.args.job.name = job.name then some r else lastRun h job := by
  unfold lastRun
  rw [List.filter_append]
  by_cases hr : r.args.job.name = job.name
  · rw [if_pos hr, List.filter_cons_of_pos (by simpa using hr), List.filter_nil, List.getLast?_concat]
  · rw [if_neg hr, List.filter_cons_of_neg (by simpa using hr), List.filter_nil, List.append_nil]

theorem lastRun_mem {h : List PastRun} {job : Job} {r : PastRun} (hl : lastRun h job = some r) :
    r ∈ h ∧ r.args.job.name = job.name := by
  obtain ⟨hm, hn⟩ := List.mem_filter.mp (List.mem_of_getLast? hl)
  exact ⟨hm, of_decide_eq_true hn⟩

/-- the last run of a job is the latest -/
theorem lastRun_upto {h : List PastRun} (hinc : h.Pairwise fun r s => r.args.now.Before s.args.now)
    {job : Job} {r : PastRun} (hl : lastRun h job = some r) {s : PastRun} (hs : s ∈ h)
    (hjob : s.args.job.name = job.name) : s.args.now.Upto r.args.now := by
  obtain ⟨l, hl⟩ := List.getLast?_eq_some_iff.mp hl
  have hpair : (h.filter fun r => r.args.job.name = job.name).Pairwise
      fun r s => r.args.now.Before s.args.now := hinc.filter _
  have hmem : s ∈ h.filter fun r => r.args.job.name = job.name :=
    List.mem_filter.mpr ⟨hs, by simpa using hjob⟩
  rw [hl] at hpair hmem
  rcases List.mem_append.mp hmem with hmem | hmem
  · exact ((List.pairwise_append.mp hpair).2.2 s hmem r List.mem_cons_self).upto
  · rw [List.mem_singleton.mp hmem]
    exact Datetime.Upto.refl _

/-- a run that ended left a record -/
theorem EndedAs.recorded {env : Env} {a : RunArgs} {made : Except Raised Made} {w w' : World}
    {e : RunEnd} {status : Status} (h : EndedAs env a made w e w') (hs : e.status = some status)
    (hsure : ∀ r, env.sure (.record r) = true) : ∃ failed,
      w'.runs = w.runs.insert (jobFile a.job.name) ((⟨a, status⟩ : PastRun).record failed) := by
  cases e with
  | refused e => simp [RunEnd.status] at hs
  | aborted e =>
    obtain rfl : Status.error = status := Option.some.inj hs
    exact h.1.record hsure
  | escaped e => simp [RunEnd.status] at hs
  | finished result reported =>
    obtain rfl : result.status = status := Option.some.inj hs
    exact h.1.record hsure

/-- **After every run the files tell what has run.** -/
theorem Past.evident {env : Env} {jobs : List Job} {h : List PastRun} {w : World}
    (hpast : Past env jobs h w) (hsure : ∀ r, env.sure (.record r) = true)
    (hfiles : (jobs.map fun j => jobFile j.name).Nodup) : Evident jobs h w := by
  induction hpast with
  | @empty w hnone hruns =>
    have hlook : ∀ k, w.runs.lookup k = none := fun k => by
      rw [hruns]
      exact AList.lookup_empty k
    refine ⟨by simp, List.Pairwise.nil, fun k m hk => ?_, fun job _ => Or.inl ⟨rfl, hlook _⟩,
      fun k r hk => ?_⟩
    · rw [hnone] at hk
      simp at hk
    · rw [hlook] at hk
      simp at hk
  | @run h w w' a made fs e status hpast hjob hscope hid hlater hexec hstatus ih =>
    obtain ⟨-, hend⟩ := (Prog.wp_iff_exec Fault.calm _ _ _).mp (wp_runEnd (a := a) made w) fs
    rw [hexec] at hend
    obtain ⟨failed, hruns⟩ := hend.recorded hstatus hsure
    refine ⟨?_, ?_, ?_, ?_, ?_⟩
    · intro r hr
      rcases List.mem_append.mp hr with hr | hr
      · exact ih.runs r hr
      · rw [List.mem_singleton.mp hr]
        exact ⟨hjob, sid_eq hscope hid⟩
    · refine List.pairwise_append.mpr ⟨ih.increasing, List.pairwise_singleton _ _, fun r hr s hs => ?_⟩
      rw [List.mem_singleton.mp hs]
      exact hlater r hr
    · have hmono : Stems (fun k created => ∃ r ∈ h ++ [⟨a, status⟩],
          k = r.args.sid ++ manifestSuffix ∧ created = isoformat r.args.now) w := by
        intro k m hk
        obtain ⟨r, hr, hkr⟩ := ih.manifests k m hk
        exact ⟨r, List.mem_append_left _ hr, hkr⟩
      have hrun : (runJob env a made).wp env.step (fun _ _ => True) _ w :=
        hmono.runJob made ⟨⟨a, status⟩, by simp, rfl, rfl⟩
      obtain ⟨-, hstems⟩ := (Prog.wp_iff_exec Fault.calm _ _ _).mp hrun fs
      rw [runJob_eq, Prog.exec_map, hexec] at hstems
      exact hstems
    · intro job hj
      rw [lastRun_concat, hruns]
      by_cases hname : a.job.name = job.name
      · rw [if_pos hname]
        refine Or.inr ⟨_, failed, rfl, ?_⟩
        rw [← hname]
        exact AList.lookup_insert _
      · have hne : jobFile job.name ≠ jobFile a.job.name := by
          intro he
          exact hname (by rw [List.inj_on_of_nodup_map hfiles hj hjob he])
        rw [if_neg hname, AList.lookup_insert_ne hne]
        exact ih.records job hj
    · intro k r hk
      rw [hruns] at hk
      by_cases he : k = jobFile a.job.name
      · rw [he, AList.lookup_insert] at hk
        obtain rfl := Option.some.inj hk
        exact ⟨a.job, hjob, he, rfl⟩
      · rw [AList.lookup_insert_ne he] at hk
        exact ih.named k r hk

/-! ## the evidence of one job -/

/-- the evidence of one job: the record of its last run, and manifests of its runs -/
structure OwnEvidence (h : List PastRun) (job : Job) (own : List HealthRun) : Prop where
  none : lastRun h job = none → own = []
  some : ∀ r, lastRun h job = some r → ∃ failed, (r.record failed).healthRun ∈ own ∧
    ∀ e ∈ own, e = (r.record failed).healthRun ∨
      (e.rank = 0 ∧ ∃ s ∈ h, s.args.job.name = job.name ∧ e.at_ = s.args.now)

theorem covers_iff {hours : Hours} {limit : ℤ} (h : timedelta hours = .some limit) (x : ℤ) :
    hours.Covers x ↔ x ≤ limit := by
  cases hours with
  | boundless => simp [timedelta] at h
  | finite micros =>
    by_cases hin : -999999999 * microsPerDay ≤ micros ∧ micros < 1000000000 * microsPerDay
    · rw [timedelta, if_pos hin] at h
      rw [← Option.some.inj h]
      rfl
    · rw [timedelta, if_neg hin] at h
      simp at h

theorem failure_isSome (r : RunRecord) : r.failure.isSome = true ↔ r.status = .error := by
  unfold RunRecord.failure
  by_cases h : r.status = .error
  · rw [if_pos h]
    exact ⟨fun _ => h, fun _ => rfl⟩
  · rw [if_neg h]
    exact ⟨fun hn => by simp at hn, fun he => absurd he h⟩

/-- the verdict over the evidence of a job is the one that its last run calls for -/
theorem OwnEvidence.judge {h : List PastRun} {job : Job} {own : List HealthRun}
    (hown : OwnEvidence h job own) (hinc : h.Pairwise fun r s => r.args.now.Before s.args.now)
    {d : DataDir} {maxAge : Hours} {now : Datetime} {limit : ℤ}
    (hlimit : timedelta (job.maxAge maxAge) = .some limit) :
    ∃ health, judge own (job.maxAge maxAge) now d.daemon = .some health ∧
      (health.healthy = true ↔ Fit d h job maxAge now) := by
  unfold BackupHelper.judge
  rw [hlimit]
  refine ⟨_, rfl, ?_⟩
  cases hl : lastRun h job with
  | none =>
    have hfit : Fit d h job maxAge now ↔ ∃ s, d.daemon = .some s ∧ age now s ≤ limit := by
      unfold Fit
      simp only [hl, covers_iff hlimit]
    rw [hown.none hl, hfit]
    cases hd : d.daemon with
    | none => simp
    | some s =>
      by_cases hs : age now s ≤ limit
      · simp [hs]
      · simp [hs]
  | some r =>
    obtain ⟨failed, hmem, hrest⟩ := hown.some r hl
    have hfit : Fit d h job maxAge now ↔ r.status ≠ .error ∧ age now r.args.now ≤ limit := by
      unfold Fit
      simp only [hl, covers_iff hlimit]
    rw [hfit]
    cases own with
    | nil => simp at hmem
    | cons first rest =>
      have hlatest : latestOf first rest = (r.record failed).healthRun := by
        refine latestOf_eq hmem fun e he => ?_
        rcases hrest e he with rfl | ⟨hrank, s, hs, hjob, hat⟩
        · exact Or.inl rfl
        · -- a manifest is not newer, and on equal times the record wins
          refine Or.inr (Or.inr ⟨?_, ?_⟩)
          · rw [hat]
            exact lastRun_upto hinc hl hs hjob
          · rw [hrank]
            exact Nat.one_pos
      have hfailed : (r.record failed).failure.isSome = true ↔ r.status = .error := failure_isSome _
      simp only [hlatest]
      show (if (r.record failed).failure.isSome = true then _ else
        if age now r.args.now > limit then _ else _ : Health).healthy = true ↔ _
      by_cases hst : r.status = .error
      · rw [if_pos (hfailed.mpr hst)]
        simp [hst]
      · rw [if_neg fun h => hst (hfailed.mp h)]
        by_cases ha : age now r.args.now ≤ limit
        · rw [if_neg (by omega)]
          simp [hst, ha]
        · rw [if_pos (by omega)]
          simp [ha]

section
variable {jobs : List Job} {h : List PastRun} {d : DataDir}

theorem mem_manifestRuns (hev : Evident jobs h d.world) {e : HealthRun}
    (he : e ∈ d.world.manifestRuns) : ∃ r ∈ h, e.at_ = r.args.now ∧ e.rank = 0 ∧ e.job = none ∧
      e.sid = some r.args.sid := by
  obtain ⟨path, -, hrun⟩ := List.mem_filterMap.mp he
  unfold World.manifestRun at hrun
  cases hg : d.world.get .data path with
  | none => simp [hg] at hrun
  | some c =>
    cases c with
    | raw b => simp [hg] at hrun
    | marker j => simp [hg] at hrun
    | manifest m =>
      obtain ⟨r, hr, rfl, hcreated⟩ := hev.manifests path m hg
      rw [hg] at hrun
      simp only [hcreated, parse_isoformat, Option.map_some, Option.some.injEq] at hrun
      refine ⟨r, hr, ?_, ?_, ?_, ?_⟩
      · rw [← hrun]
      · rw [← hrun]
      · rw [← hrun]
      · rw [← hrun]
        simp

theorem mem_recordRuns (hev : Evident jobs h d.world) {e : HealthRun} :
    e ∈ recordRuns d.state ↔ ∃ job ∈ jobs, ∃ r failed, lastRun h job = some r ∧
      d.world.runs.lookup (jobFile job.name) = some (r.record failed) ∧
      e = (r.record failed).healthRun := by
  unfold recordRuns
  rw [List.mem_map]
  constructor
  · rintro ⟨r, hr, rfl⟩
    obtain ⟨k, hk, hl⟩ := mem_readRuns.mp hr
    rw [lookup_state d hk, Option.map_eq_some_iff] at hl
    obtain ⟨r', hl, he⟩ := hl
    obtain rfl := StateFile.run.inj he
    obtain ⟨job, hj, rfl, -⟩ := hev.named k r' hl
    rcases hev.records job hj with ⟨-, hnone⟩ | ⟨s, failed, hlast, hsome⟩
    · rw [hnone] at hl
      simp at hl
    · refine ⟨job, hj, s, failed, hlast, hsome, ?_⟩
      rw [hsome] at hl
      rw [Option.some.inj hl]
  · rintro ⟨job, hj, r, failed, -, hl, rfl⟩
    refine ⟨r.record failed, mem_readRuns.mpr ⟨_, matches_jobFile job.name, ?_⟩, rfl⟩
    rw [lookup_state d (matches_jobFile _), hl]
    rfl

/-- evidence that is attributed to `job` by the job of a record and the owner of a manifest -/
theorem ownEvidence (hev : Evident jobs h d.world) {job : Job} (hjob : job ∈ jobs)
    {own : List HealthRun} (hsub : ∀ e ∈ own, e ∈ d.evidence)
    (hrecord : ∀ e ∈ own, ∀ name, e.job = some name → name = job.name)
    (hmanifest : ∀ e ∈ own, e.job = none → ∀ r ∈ h, e.sid = some r.args.sid →
      r.args.job.name = job.name)
    (hall : ∀ e ∈ recordRuns d.state, e.job = some job.name → e ∈ own) : OwnEvidence h job own := by
  -- the two kinds
  have hkinds : ∀ e ∈ own, (e.rank = 0 ∧ ∃ s ∈ h, s.args.job.name = job.name ∧ e.at_ = s.args.now) ∨
      ∃ r failed, lastRun h job = some r ∧
        d.world.runs.lookup (jobFile job.name) = some (r.record failed) ∧
        e = (r.record failed).healthRun := by
    intro e he
    rcases List.mem_append.mp (hsub e he) with hm | hm
    · obtain ⟨s, hs, hat, hrank, hnone, hsid⟩ := mem_manifestRuns hev hm
      exact Or.inl ⟨hrank, s, hs, hmanifest e he hnone s hs hsid, hat⟩
    · obtain ⟨j, hj, r, failed, hlast, hlook, rfl⟩ := (mem_recordRuns hev).mp hm
      have hname : j.name = job.name := by
        rw [← (lastRun_mem hlast).2]
        exact hrecord _ he _ rfl
      refine Or.inr ⟨r, failed, ?_, ?_, rfl⟩
      · unfold lastRun at hlast ⊢
        rwa [hname] at hlast
      · rwa [hname] at hlook
  refine ⟨fun hnone => ?_, fun r hlast => ?_⟩
  · refine List.eq_nil_iff_forall_not_mem.mpr fun e he => ?_
    rcases hkinds e he with ⟨-, s, hs, hname, -⟩ | ⟨r, failed, hlast, -⟩
    · have hmem : s ∈ h.filter fun r => r.args.job.name = job.name :=
        List.mem_filter.mpr ⟨hs, by simpa using hname⟩
      rw [List.getLast?_eq_none_iff.mp hnone] at hmem
      simp at hmem
    · rw [hnone] at hlast
      simp at hlast
  · rcases hev.records job hjob with ⟨hnone, -⟩ | ⟨r', failed, hlast', hlook⟩
    · rw [hnone] at hlast
      simp at hlast
    · obtain rfl : r' = r := Option.some.inj (hlast'.symm.trans hlast)
      refine ⟨failed, hall _ ((mem_recordRuns hev).mpr ⟨job, hjob, r', failed, hlast, hlook, rfl⟩) ?_,
        fun e he => ?_⟩
      · show some r'.args.job.name = some job.name
        rw [(lastRun_mem hlast).2]
      · rcases hkinds e he with hm | ⟨s, failed', -, hlook', rfl⟩
        · exact Or.inr hm
        · rw [hlook] at hlook'
          rw [← Option.some.inj hlook']
          exact Or.inl rfl

end

/-! ## the check -/

theorem notWritable_eq_none (d : DataDir) : d.notWritable = none ↔ d.Writable := by
  unfold DataDir.notWritable DataDir.Writable
  cases d.isDir with
  | false => simp
  | true =>
    cases d.writable with
    | false => simp
    | true =>
      by_cases h : d.stateWritable = some false
      · simp [h]
      · simp [h]

section
variable {jobs : List Job} {h : List PastRun} {d : DataDir} {maxAge : Hours} {now : Datetime}

/-- with several jobs, each is judged by its own evidence -/
theorem ownRuns_evidence (hev : Evident jobs h d.world) (hdist : Distinct jobs)
    (hseveral : 2 ≤ jobs.length) {job : Job} (hjob : job ∈ jobs) :
    OwnEvidence h job (ownRuns jobs d.world.pending d.evidence job) := by
  refine ownEvidence hev hjob (fun e he => (List.mem_filter.mp he).1) (fun e he name hname => ?_)
    (fun e he hnone r hr hsid => ?_) (fun e he hname => ?_)
  · have hown := (List.mem_filter.mp he).2
    simp only [hname] at hown
    exact of_decide_eq_true hown
  · have hown := (List.mem_filter.mp he).2
    simp only [hnone, hsid, Option.getD_some, (hev.runs r hr).2] at hown
    have howner : Owns jobs _ localPlace _ job := ⟨hjob, hown⟩
    rw [(owns_newIdOf_iff hdist hseveral (hev.runs r hr).1 _ _ _).mp howner]
  · refine List.mem_filter.mpr ⟨List.mem_append_right _ he, ?_⟩
    simp only [hname, decide_true]

theorem single_evidence {job : Job} (hev : Evident [job] h d.world) :
    OwnEvidence h job d.evidence := by
  refine ownEvidence hev List.mem_cons_self (fun e he => he) (fun e he name hname => ?_)
    (fun e _ _ r hr _ => ?_) (fun e he _ => List.mem_append_right _ he)
  · rcases List.mem_append.mp he with hm | hm
    · obtain ⟨r, -, -, -, hnone, -⟩ := mem_manifestRuns hev hm
      rw [hnone] at hname
      simp at hname
    · obtain ⟨j, hj, r, failed, hlast, -, rfl⟩ := (mem_recordRuns hev).mp hm
      rw [← Option.some.inj hname, ← List.mem_singleton.mp hj]
      exact (lastRun_mem hlast).2
  · rw [List.mem_singleton.mp (hev.runs r hr).1]

theorem Evident.daemon (hev : Evident jobs h d.world) : readDaemonStart d.state = d.daemon := by
  refine readDaemonStart_state d (Option.eq_none_iff_forall_ne_some.mpr fun r hr => ?_)
  obtain ⟨job, -, hk, -⟩ := hev.named _ r hr
  have hmatch := matches_jobFile job.name
  rw [← hk, daemonFile_not_record] at hmatch
  simp at hmatch

/-- every job gets the verdict that its last run calls for -/
theorem verdict_fit (now : Datetime) (hev : Evident jobs h d.world) (hdist : Distinct jobs) {job : Job}
    (hjob : job ∈ jobs) (hage : (timedelta (job.maxAge maxAge)).isSome) :
    ∃ health, d.verdict jobs maxAge now job = some health ∧
      (health.healthy = true ↔ Fit d h job maxAge now) := by
  obtain ⟨limit, hlimit⟩ := Option.isSome_iff_exists.mp hage
  unfold DataDir.verdict
  rw [hev.daemon]
  by_cases hle : jobs.length ≤ 1
  · rw [if_pos hle]
    match jobs, hle with
    | [j], _ =>
      obtain rfl := List.mem_singleton.mp hjob
      exact (single_evidence hev).judge hev.increasing hlimit
  · rw [if_neg hle]
    exact (ownRuns_evidence hev hdist (by omega) hjob).judge hev.increasing hlimit

theorem verdicts_fit {marked : List (Str × Str)} {runs : List HealthRun} {started : Option Datetime}
    {rest : List Job}
    (hrest : ∀ job ∈ rest, ∃ health,
      judge (ownRuns jobs marked runs job) (job.maxAge maxAge) now started = some health ∧
        (health.healthy = true ↔ Fit d h job maxAge now)) :
    ∃ vs, verdicts jobs marked runs maxAge now started rest = some vs ∧
      List.Forall₂ (fun v job => v.2.healthy = true ↔ Fit d h job maxAge now) vs rest := by
  induction rest with
  | nil => exact ⟨[], rfl, .nil⟩
  | cons job rest ih =>
    obtain ⟨health, hj, hfit⟩ := hrest job List.mem_cons_self
    obtain ⟨vs, hvs, hfits⟩ := ih fun x hx => hrest x (List.mem_cons_of_mem _ hx)
    refine ⟨(job.name, health) :: vs, ?_, .cons hfit hfits⟩
    unfold verdicts
    rw [hj, hvs]
    rfl

theorem forall₂_all {vs : List (Str × Health)} {rest : List Job}
    (hfits : List.Forall₂ (fun v job => v.2.healthy = true ↔ Fit d h job maxAge now) vs rest) :
    vs.filter (fun v => !v.2.healthy) = [] ↔ ∀ job ∈ rest, Fit d h job maxAge now := by
  induction hfits with
  | nil => simp
  | cons hv _ ih =>
    rw [List.forall_mem_cons, ← ih, ← hv, List.filter_cons]
    split
    · simp_all
    · simp_all

/-- **The healthcheck reports every job's last run exactly**, and the verdict over a job does not
depend on the runs of other jobs. -/
theorem healthcheck_exact (env : Env) (jobs : List Job) (hsome : jobs ≠ []) (hdist : Distinct jobs)
    (hfiles : (jobs.map fun j => jobFile j.name).Nodup) (maxAge : Hours)
    (hages : ∀ job ∈ jobs, (timedelta (job.maxAge maxAge)).isSome)
    (hsure : ∀ r, env.sure (.record r) = true) (h : List PastRun) (d : DataDir)
    (hpast : Past env jobs h d.world) (now : Datetime) :
    Exact jobs maxAge now h d ∧
    ∀ h' (d' : DataDir), Past env jobs h' d'.world → d'.daemon = d.daemon → ∀ job ∈ jobs,
      lastRun h' job = lastRun h job → (d'.verdict jobs maxAge now job).map (·.healthy) =
        (d.verdict jobs maxAge now job).map (·.healthy) := by
  have hev := hpast.evident hsure hfiles
  constructor
  · unfold Exact check
    cases hw : d.notWritable with
    | some reason =>
      have hnot : ¬ d.Writable := fun h => by simp [(notWritable_eq_none d).mpr h] at hw
      exact ⟨_, rfl, fun h => by simp at h, fun h => absurd h.1 hnot⟩
    | none =>
      have hwrite := (notWritable_eq_none d).mp hw
      simp only [hwrite, true_and]
      by_cases hle : jobs.length ≤ 1
      · rw [if_pos hle]
        match jobs, hle with
        | [j], _ =>
          obtain ⟨health, hj, hfit⟩ := verdict_fit now hev hdist List.mem_cons_self
            (hages j List.mem_cons_self)
          refine ⟨health, hj, ?_⟩
          rw [hfit, List.forall_mem_singleton]
      · rw [if_neg hle]
        have heach : ∀ job ∈ jobs, ∃ health,
            judge (ownRuns jobs d.world.pending d.evidence job) (job.maxAge maxAge) now
              (readDaemonStart d.state) = some health ∧
              (health.healthy = true ↔ Fit d h job maxAge now) := by
          intro job hjob
          have hv := verdict_fit now hev hdist hjob (hages job hjob)
          unfold DataDir.verdict at hv
          rwa [if_neg hle] at hv
        obtain ⟨vs, hvs, hfits⟩ := verdicts_fit heach
        refine ⟨_, by rw [hvs]; rfl, ?_⟩
        rw [← forall₂_all hfits]
        exact decide_eq_true_iff
  · intro h' d' hpast' hdaemon job hjob hlast
    obtain ⟨v, hv, hfit⟩ := verdict_fit now hev hdist hjob (hages job hjob)
    obtain ⟨v', hv', hfit'⟩ :=
      verdict_fit now (hpast'.evident hsure hfiles) hdist hjob (hages job hjob)
    have hsame : Fit d' h' job maxAge now ↔ Fit d h job maxAge now := by
      unfold Fit
      rw [hlast, hdaemon]
    rw [hv, hv', Option.map_some, Option.map_some]
    exact congrArg some (Bool.eq_iff_iff.mpr (hfit'.trans (hsame.trans hfit.symm)))

end

/-! ## two jobs, and no job -/

def day : Hours := .finite microsPerDay

def recordEnv : Env :=
  { plainEnv with
    sure := fun o => match o with
      | .record _ => true
      | _ => false }

/-- the first of two jobs that share the data dir runs at noon -/
def firstRun : RunArgs :=
  { runAt { name := "files".toList } none with
    scope := scopeFor sharingJobs { name := "files".toList } }

def afterFirst : RunEnd × World :=
  (runEnd recordEnv firstRun (.ok bundle)).exec recordEnv.step .calm [] (worldOf [])

theorem past_first : ∃ w, Past recordEnv sharingJobs [⟨firstRun, .success⟩] w :=
  ⟨afterFirst.2, Past.run (Past.empty (fun _ => rfl) rfl) List.mem_cons_self rfl rfl (by simp)
    (Prod.mk.eta (p := afterFirst)).symm (by decide +kernel)⟩

theorem healthcheck_exact_sharing : ∃ w, Past recordEnv sharingJobs [⟨firstRun, .success⟩] w ∧
    Exact sharingJobs day noon [⟨firstRun, .success⟩] ⟨w, some noon, true, true, none⟩ := by
  have hages : ∀ job ∈ sharingJobs, (timedelta (job.maxAge day)).isSome := by decide +kernel
  have hdist : Distinct sharingJobs := by decide +kernel
  have hfiles : (sharingJobs.map fun j => jobFile j.name).Nodup := by decide +kernel
  obtain ⟨w, hpast⟩ := past_first
  have h := healthcheck_exact recordEnv sharingJobs (by simp [sharingJobs]) hdist hfiles day hages
    (fun _ => rfl) [⟨firstRun, .success⟩] ⟨w, some noon, true, true, none⟩ hpast noon
  exact ⟨w, hpast, h.1⟩

/-- **Where the verdict is another**: without a job the check still waits for a daemon start, and a
max age that is no duration makes it raise. -/
theorem healthcheck_inexact :
    let unused : DataDir := ⟨worldOf [], none, true, true, none⟩
    let started : DataDir := ⟨worldOf [], some noon, true, true, none⟩
    let patient : List Job := [{ healthcheckMaxAge := some .boundless }]
    (Past recordEnv [] [] unused.world ∧ ¬ Exact [] day noon [] unused) ∧
      Past recordEnv patient [] started.world ∧ ¬ Exact patient day noon [] started := by
  refine ⟨⟨Past.empty (fun _ => rfl) rfl, ?_⟩, Past.empty (fun _ => rfl) rfl, ?_⟩
  · rintro ⟨health, hcheck, hiff⟩
    have hverdict : (check ⟨worldOf [], none, true, true, none⟩ day noon []).map (·.healthy) =
        some false := by decide +kernel
    rw [hcheck, Option.map_some, Option.some.injEq] at hverdict
    have hfit := hiff.mpr ⟨⟨rfl, rfl, by simp⟩, by simp⟩
    rw [hverdict] at hfit
    exact Bool.false_ne_true hfit
  · rintro ⟨health, hcheck, -⟩
    have hraises : (check ⟨worldOf [], some noon, true, true, none⟩ day noon
        [{ healthcheckMaxAge := some .boundless }]).isNone = true := by decide +kernel
    rw [hcheck] at hraises
    simp at hraises

end BackupHelper
