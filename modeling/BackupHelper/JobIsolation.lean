import BackupHelper.Runner.Names
import BackupHelper.Prune

/-!
# No job deletes another job's snapshots

Jobs share the data dir, and buckets under prefixes of their own choice.  A run deletes by ids that
its job owns, and an id is what is left of an object key once the destination's prefix is cut off.

* `Belongs`                the files of the snapshots that a job writes;
* `Separate`               the condition on prefixes: no key that may be there reads as an id of one
                           job and begins the keys of another job's snapshots;
* `jobs_spare_each_other`  runs and `prune` commands in any order, whatever calls fail.

In the data dir the condition holds by itself: the ids there have no dot (`Tidy`), so `<id>.` begins
the files of that id only, and an id that names a job belongs to no other.
-/

set_option linter.unusedSectionVars false

namespace BackupHelper
open Text Glob Effects Calendar Keep

/-! ## what is claimed -/

def newIdOf (jobs : List Job) (job : Job) (t : Datetime) : Str := (scopeFor jobs job).newId t

/-- the files of a snapshot on a destination -/
def snapshotFiles (dest : Dest) (sid : Str) : List Str :=
  [archiveName sid .none, archiveName sid .age, archiveName sid .gpg, sid ++ manifestSuffix] ++
    (if dest.isLocal then [sid ++ pendingSuffix] else [])

/-- `k` of `l` is a file of a snapshot that `job` writes -/
def Belongs (env : Env) (jobs : List Job) (job : Job) (l : Loc) (k : Str) : Prop :=
  ∃ d ∈ places job, ∃ t, ∃ x ∈ snapshotFiles d (newIdOf jobs job t), l = d.loc env ∧ k = d.pre ++ x

/-- no file of another job's snapshots goes -/
def Spares (env : Env) (jobs : List Job) (job : Job) (w w' : World) : Prop :=
  ∀ b ∈ jobs, b.name ≠ job.name → ∀ l k, Belongs env jobs b l k → (w.get l k).isSome →
    (w'.get l k).isSome

/-- each part of the loop of `prune` spares the files of the other jobs -/
def EachSpares (env : Env) (jobs : List Job) (a : PruneArgs) (plan : PrunePlan) :
    List Job → World → Prop
  | [], _ => True
  | target :: targets, w =>
    (pruneTarget env jobs a plan target).wp env.step (Spares env jobs target)
      (fun r w' => r.1 = .ok () → EachSpares env jobs a plan targets w') w

inductive Command where
  | run (a : RunArgs) (made : Except Raised Made)
  | prune (a : PruneArgs)

/-- a run of a configured job, which names its snapshot itself -/
def Command.Valid (jobs : List Job) : Command → Prop
  | .run a _ => a.job ∈ jobs ∧ a.scope = scopeFor jobs a.job ∧ a.snapshotId = none
  | .prune _ => True

def runCommands (env : Env) (jobs : List Job) : List Command → M Unit
  | [] => pure ()
  | .run a made :: cs => do
    let _ ← runJob env a made
    runCommands env jobs cs
  | .prune a :: cs => do
    let _ ← prune env jobs a
    runCommands env jobs cs

/-- what the command does to the files of other jobs than the one it works for -/
def Command.Spares (env : Env) (jobs : List Job) : Command → World → Prop
  | .run a made, w => (runJob env a made).wp env.step (BackupHelper.Spares env jobs a.job)
      (fun _ _ => True) w
  | .prune a, w => prunePlan.wp env.step (fun w w' => w'.files = w.files)
      (fun plan w' => EachSpares env jobs a plan (a.targets jobs) w') w

/-! ## the condition -/

/-- the ids that a job may upload: its new ones, and those it has pending at first -/
def JobId (jobs : List Job) (w₀ : World) (job : Job) (q : Str) : Prop :=
  (∃ t, q = newIdOf jobs job t) ∨ q ∈ w₀.pendingOf job.name

/-- the manifest keys that may be in a bucket: those there at first, and those of the jobs -/
def MayHold (env : Env) (jobs : List Job) (w₀ : World) (site : Site) (key : Str) : Prop :=
  (w₀.get (.bucket site) key).isSome ∨ ∃ j ∈ jobs, ∃ c ∈ j.offsite, env.site c.endpoint c.bucket = site ∧
    ∃ q, JobId jobs w₀ j q ∧ key = c.prefix_ ++ (q ++ manifestSuffix)

/-- where job `a` prunes, an id that it owns and that may be there begins no file of job `b` -/
def Separate (env : Env) (jobs : List Job) (w₀ : World) : Prop :=
  ∀ a ∈ jobs, ∀ b ∈ jobs, b.name ≠ a.name → (0 < a.retention.count ∨ 0 < a.retention.ageDays) →
    ∀ c ∈ a.offsite, ∀ p, free '/' p → (scopeFor jobs a).owns p (s3Place c) none = true →
      MayHold env jobs w₀ (env.site c.endpoint c.bucket) (c.prefix_ ++ (p ++ manifestSuffix)) →
      ∀ l k, l = .bucket (env.site c.endpoint c.bucket) → Belongs env jobs b l k →
        ¬ c.prefix_ ++ (p ++ ['.']) <+: k

/-- the data dir at first: ids are of the characters that the engine writes, and a pending one that
names a job is no id of another job -/
structure Tidy (jobs : List Job) (w₀ : World) : Prop where
  ids : ∀ x, free '/' x → (w₀.get .data (x ++ manifestSuffix)).isSome → x.all isSlugChar = true
  marked : ∀ j ∈ jobs, ∀ q ∈ w₀.pendingOf j.name, q.all isSlugChar = true ∧
    ∀ b ∈ jobs, b.name ≠ j.name → ∀ t, q ≠ newIdOf jobs b t

/-- slugs are pairwise distinct, and so are names -/
def Distinct (jobs : List Job) : Prop := (jobs.map (fun j => jobSlug j.name)).Nodup

instance (jobs : List Job) : Decidable (Distinct jobs) := inferInstanceAs (Decidable (List.Nodup _))

/-! ## ids -/

section
variable {env : Env} {jobs : List Job} {w₀ : World}

theorem newIdOf_all (jobs : List Job) (job : Job) (t : Datetime) :
    (newIdOf jobs job t).all isSlugChar = true := newSnapshotId_all _ _

theorem dotless {s : Str} (h : s.all isSlugChar = true) : free '.' s := free_of_all_slug h (by decide)

theorem slashless {s : Str} (h : s.all isSlugChar = true) : free '/' s :=
  free_of_all_slug h (by decide)

theorem plain_of_all {s : Str} (h : s.all isSlugChar = true) : plain s :=
  ⟨free_of_all_slug h (by decide), free_of_all_slug h (by decide), free_of_all_slug h (by decide)⟩

theorem scopeFor_job (jobs : List Job) (job : Job) : (scopeFor jobs job).job = job.name := by
  unfold scopeFor
  split <;> rfl

theorem parse_newIdOf {a b : Job} (ha : a ∈ jobs) (hb : b ∈ jobs) (hab : b.name ≠ a.name)
    (t : Datetime) : (parseSnapshotId (newIdOf jobs b t)).2 = some (jobSlug b.name) := by
  have hlen : ¬ jobs.length ≤ 1 := by
    intro hle
    match jobs, hle with
    | [], _ => simp at ha
    | [j], _ =>
      rw [List.mem_singleton.mp ha, List.mem_singleton.mp hb] at hab
      exact hab rfl
  unfold newIdOf scopeFor SnapshotScope.newId
  rw [if_neg hlen, parse_newSnapshotId]
  rfl

section
variable (hdist : Distinct jobs)
include hdist

theorem Distinct.eq_of_slug {a b : Job} (ha : a ∈ jobs) (hb : b ∈ jobs)
    (h : jobSlug b.name = jobSlug a.name) : b = a :=
  List.inj_on_of_nodup_map hdist hb ha h

/-- an id that a job owns is no new id of another one -/
theorem ne_newIdOf_of_owns {a b : Job} (ha : a ∈ jobs) (hb : b ∈ jobs) (hab : b.name ≠ a.name)
    {s place : Str} {m : Option Str} (h : (scopeFor jobs a).owns s place m = true) (t : Datetime) :
    s ≠ newIdOf jobs b t := by
  rintro rfl
  unfold SnapshotScope.owns at h
  rw [parse_newIdOf ha hb hab t, scopeFor_job] at h
  exact hab (by rw [hdist.eq_of_slug ha hb (of_decide_eq_true h)])

theorem newIdOf_ne {a b : Job} (ha : a ∈ jobs) (hb : b ∈ jobs) (hab : b.name ≠ a.name)
    (s t : Datetime) : newIdOf jobs a s ≠ newIdOf jobs b t := by
  intro he
  have h := parse_newIdOf hb ha hab.symm s
  rw [he, parse_newIdOf ha hb hab t] at h
  exact hab (by rw [hdist.eq_of_slug ha hb (Option.some.inj h)])

variable (htidy : Tidy jobs w₀)
include htidy

theorem JobId.spec {a : Job} (ha : a ∈ jobs) {q : Str} (h : JobId jobs w₀ a q) :
    q.all isSlugChar = true ∧ ∀ b ∈ jobs, b.name ≠ a.name → ∀ t, q ≠ newIdOf jobs b t := by
  rcases h with ⟨t, rfl⟩ | hq
  · exact ⟨newIdOf_all _ _ _, fun b hb hab t' => newIdOf_ne hdist ha hb hab t t'⟩
  · exact htidy.marked a ha q hq

end

/-! ## files of other jobs -/

theorem begins_snapshotFiles {d : Dest} {sid x : Str} (h : x ∈ snapshotFiles d sid) :
    sid ++ ['.'] <+: x := by
  unfold snapshotFiles at h
  rcases List.mem_append.mp h with h | h
  · simp only [List.mem_cons, List.not_mem_nil, or_false] at h
    rcases h with rfl | rfl | rfl | rfl
    · exact begins_archive _ _
    · exact begins_archive _ _
    · exact begins_archive _ _
    · exact begins_manifest _
  · split at h
    · rw [List.mem_singleton.mp h]
      exact begins_pending _
    · simp at h

/-- a file `<q>.…` of the data dir belongs to no job that does not name the id `q` -/
theorem not_belongs_data {b : Job} {q key : Str} (hq : q.all isSlugChar = true)
    (hne : ∀ t, q ≠ newIdOf jobs b t) (hkey : q ++ ['.'] <+: key) :
    ¬ Belongs env jobs b .data key := by
  rintro ⟨d, -, t, x, hx, hl, hk⟩
  cases d with
  | s3 c => simp [Dest.loc] at hl
  | «local» =>
    have hx' : newIdOf jobs b t ++ ['.'] <+: key := by
      rw [show key = x from hk]
      exact begins_snapshotFiles hx
    have hnot : ∀ {u v : Str}, v.all isSlugChar = true → ¬ u ++ ['.'] <+: v := fun hv h =>
      dotless hv (h.subset (by simp))
    exact hne t (begins_unique hkey hx' (hnot (newIdOf_all _ _ _)) (hnot hq))

theorem Spares.of_wrote {job : Job} {l : Loc} {k : Str} {c : Content} {w w' : World}
    {r : Except Exc Unit} (h : Wrote l k c w r w') : Spares env jobs job w w' :=
  fun _ _ _ _ _ _ hs => h.isSome hs

theorem Spares.of_quiet {job : Job} {w w' : World} (h : Quiet w w') : Spares env jobs job w w' :=
  fun _ _ _ l k _ hs => by rwa [h.get l k]

theorem Spares.of_removed {job : Job} {l : Loc} {k : Str} {w w' : World} {r : Except Exc Unit}
    (h : Removed l k w r w')
    (hnot : ∀ b ∈ jobs, b.name ≠ job.name → ¬ Belongs env jobs b l k) :
    Spares env jobs job w w' := by
  intro b hb hne l' k' hbel hs
  rwa [h.other l' k' fun he => ?_]
  obtain ⟨rfl, rfl⟩ := Prod.mk.inj he
  exact hnot b hb hne hbel

/-! ## the invariant -/

/-- what is there stems from the jobs, or was there at first -/
structure Sane (env : Env) (jobs : List Job) (w₀ w : World) : Prop where
  ids : ∀ x, free '/' x → (w.get .data (x ++ manifestSuffix)).isSome → x.all isSlugChar = true
  marked : ∀ j ∈ jobs, ∀ q ∈ w.pendingOf j.name, JobId jobs w₀ j q
  buckets : ∀ site y, (w.get (.bucket site) (y ++ manifestSuffix)).isSome →
    MayHold env jobs w₀ site (y ++ manifestSuffix)

theorem Sane.start (htidy : Tidy jobs w₀) : Sane env jobs w₀ w₀ :=
  ⟨htidy.ids, fun _ _ _ hq => Or.inr hq, fun _ _ hs => Or.inl hs⟩

theorem Sane.of_files {w w' : World} (h : Sane env jobs w₀ w) (hfiles : w'.files = w.files) :
    Sane env jobs w₀ w' := by
  have hget : ∀ l k, w'.get l k = w.get l k := fun l k => by rw [World.get, hfiles, World.get]
  refine ⟨fun x hx hs => h.ids x hx ?_, fun j hj q hq => h.marked j hj q ?_,
    fun site y hs => h.buckets site y ?_⟩
  · rwa [hget] at hs
  · rw [mem_pendingOf, World.owner_eq_some] at hq ⊢
    rwa [hget] at hq
  · rwa [hget] at hs

theorem Sane.of_removed {l : Loc} {k : Str} {w w' : World} {r : Except Exc Unit}
    (h : Sane env jobs w₀ w) (hrem : Removed l k w r w') : Sane env jobs w₀ w' := by
  refine ⟨fun x hx hs => h.ids x hx ?_, fun j hj q hq => h.marked j hj q ?_,
    fun site y hs => h.buckets site y ?_⟩
  · rwa [← hrem.get_of_isSome hs]
  · rw [mem_pendingOf, World.owner_eq_some] at hq ⊢
    rw [← hrem.get_of_isSome (by rw [hq.2]; rfl)]
    exact hq
  · rwa [← hrem.get_of_isSome hs]

theorem Sane.of_wrote {l : Loc} {k : Str} {c : Content} {w w' : World} {r : Except Exc Unit}
    (h : Sane env jobs w₀ w) (hw : Wrote l k c w r w')
    (hid : l = .data → ∀ x, free '/' x → k = x ++ manifestSuffix → x.all isSlugChar = true)
    (hmark : l = .data → ∀ q, k = q ++ pendingSuffix → ∀ j ∈ jobs, c = .marker j.name →
      JobId jobs w₀ j q)
    (hbucket : ∀ site y, l = .bucket site → k = y ++ manifestSuffix →
      MayHold env jobs w₀ site (y ++ manifestSuffix)) : Sane env jobs w₀ w' := by
  refine ⟨fun x hx hs => ?_, fun j hj q hq => ?_, fun site y hs => ?_⟩
  · by_cases he : (Loc.data, x ++ manifestSuffix) = (l, k)
    · exact hid (Prod.mk.inj he).1.symm x hx (Prod.mk.inj he).2.symm
    · rw [hw.other _ _ he] at hs
      exact h.ids x hx hs
  · have hold : w.get .data (q ++ pendingSuffix) = some (.marker j.name) → JobId jobs w₀ j q :=
      fun hg => h.marked j hj q
        (mem_pendingOf.mpr ⟨(mem_pendingOf.mp hq).1, World.owner_eq_some.mpr hg⟩)
    have ho := World.owner_eq_some.mp (mem_pendingOf.mp hq).2
    by_cases he : (Loc.data, q ++ pendingSuffix) = (l, k)
    · obtain ⟨rfl, rfl⟩ := Prod.mk.inj he
      rcases hw.here with hh | hh | ⟨b, hh⟩
      · exact hold (hh.symm.trans ho)
      · exact hmark rfl q rfl j hj (Option.some.inj (hh.symm.trans ho))
      · rw [hh] at ho
        simp at ho
    · rw [hw.other _ _ he] at ho
      exact hold ho
  · by_cases he : (Loc.bucket site, y ++ manifestSuffix) = (l, k)
    · exact hbucket site y (Prod.mk.inj he).1.symm (Prod.mk.inj he).2.symm
    · rw [hw.other _ _ he] at hs
      exact h.buckets site y hs

/-! ## a run -/

section
variable {a : RunArgs} {made : Made}

theorem sid_eq (hscope : a.scope = scopeFor jobs a.job) (hid : a.snapshotId = none) :
    a.sid = newIdOf jobs a.job a.now := by
  unfold RunArgs.sid newIdOf
  rw [hid, hscope]

/-- a run puts one of its two files to a destination -/
theorem Sane.put {w w' : World} {d : Dest} {x : Str} {c : Content} {r : Except Exc Unit}
    (h : Sane env jobs w₀ w) (ha : a.job ∈ jobs) (hsid : a.sid = newIdOf jobs a.job a.now)
    (hd : d ∈ places a.job) (hx : Own a made x)
    (hw : Wrote (d.loc env) (d.pre ++ x) c w r w') : Sane env jobs w₀ w' := by
  have harch : ∀ pre y, pre ++ archiveName a.sid made.encrypted ≠ y ++ manifestSuffix := by
    intro pre y he
    have hassoc : pre ++ archiveName a.sid made.encrypted = archiveName (pre ++ a.sid) made.encrypted := by
      simp [archiveName]
    exact archive_not_manifest _ _ _ (hassoc.symm.trans he)
  cases d with
  | «local» =>
    refine h.of_wrote hw (fun _ y hy he => ?_) (fun _ q he => ?_) (fun site y hl => by
      simp [Dest.loc] at hl)
    · rcases hx with rfl | rfl
      · exact absurd he (harch [] y)
      · have hey : a.sid = y := List.append_cancel_right he
        rw [← hey, hsid]
        exact newIdOf_all _ _ _
    · rcases hx with rfl | rfl
      · exact absurd he (archive_not_pending _ _ _)
      · exact absurd he (manifest_not_pending _ _)
  | s3 c' =>
    refine h.of_wrote hw (fun hl => by simp [Dest.loc] at hl) (fun hl => by simp [Dest.loc] at hl)
      fun site y hl he => ?_
    rcases hx with rfl | rfl
    · exact absurd he (harch _ y)
    · refine Or.inr ⟨a.job, ha, c', mem_offsite.mp hd, ?_, a.sid, Or.inl ⟨_, hsid⟩, he.symm⟩
      simpa [Dest.loc] using hl

variable (hdist : Distinct jobs) (htidy : Tidy jobs w₀) (hsep : Separate env jobs w₀)
include hdist htidy hsep

/-- retention deletes no file of another job -/
theorem not_belongs_pruned {w : World} (h : Sane env jobs w₀ w) {job : Job} (hjob : job ∈ jobs)
    {dest : Dest} (hd : dest ∈ places job) {only : Option (List Str)}
    (honly : only = none ∨ (dest = .local ∧ only = some (w.pendingOf job.name)))
    {now : Datetime} {out : List Str}
    (hout : w.prunable env dest job.retention now (scopeFor jobs job) only = .ok out) {p key : Str}
    (hp : p ∈ out) (hkey : p ++ ['.'] <+: key) {b : Job} (hb : b ∈ jobs) (hne : b.name ≠ job.name) :
    ¬ Belongs env jobs b (dest.loc env) (dest.pre ++ key) := by
  obtain ⟨hmine, hnot⟩ := (mem_prunable hout p).mp hp
  obtain ⟨hids, hsel⟩ := List.mem_filter.mp hmine
  obtain ⟨hfree, hthere⟩ := mem_ids.mp hids
  cases dest with
  | «local» =>
    refine not_belongs_data (h.ids p hfree hthere) (fun t => ?_) hkey
    rcases honly with rfl | ⟨-, rfl⟩
    · exact ne_newIdOf_of_owns hdist hjob hb hne hsel t
    · have hq := h.marked job hjob p (of_decide_eq_true hsel)
      exact (hq.spec hdist htidy hjob).2 b hb hne t
  | s3 c =>
    have hnone : only = none := honly.resolve_right fun ho => by simp at ho
    subst hnone
    have howns : (scopeFor jobs job).owns p (s3Place c) none = true := by
      have hmark : (w.markedAt (.s3 c)).lookup p = none := by
        unfold World.markedAt
        rw [if_neg (place_s3 c)]
        rfl
      have hsel' : (scopeFor jobs job).owns p (place (.s3 c)) ((w.markedAt (.s3 c)).lookup p) = true :=
        hsel
      rwa [hmark] at hsel'
    have hhold : MayHold env jobs w₀ (env.site c.endpoint c.bucket)
        (c.prefix_ ++ (p ++ manifestSuffix)) := by
      rw [← List.append_assoc]
      refine h.buckets _ _ ?_
      rw [List.append_assoc]
      exact hthere
    have hprunes : 0 < job.retention.count ∨ 0 < job.retention.ageDays := by
      by_contra hno
      refine hnot ⟨mem_ofList.mpr hmine, Or.inl ?_⟩
      rintro (⟨hc, -⟩ | ⟨hage, -⟩)
      · exact hno (Or.inl (by simp only [policyOf] at hc; omega))
      · exact hno (Or.inr hage)
    intro hbel
    refine hsep job hjob b hb hne hprunes c (mem_offsite.mp hd) p hfree howns hhold _ _ rfl hbel ?_
    obtain ⟨z, rfl⟩ := hkey
    exact ⟨z, by simp [Dest.pre]⟩

/-- what catch-up unlinks belongs to no other job -/
theorem not_belongs_unlinked {job : Job} (hjob : job ∈ jobs) {n : ℕ} {keepsLocal : Bool}
    {offsite : List Dest} {q name : Str} (hq : JobId jobs w₀ job q) {w₁ w : World}
    (h : UnlinkReason n keepsLocal offsite q name w₁ w) {b : Job} (hb : b ∈ jobs)
    (hne : b.name ≠ job.name) : ¬ Belongs env jobs b .data name := by
  obtain ⟨hall, hother⟩ := hq.spec hdist htidy hjob
  refine not_belongs_data hall (hother b hb hne) ?_
  rcases h with ⟨rfl, -⟩ | ⟨x, hx, -, rfl | ⟨-, rfl | rfl⟩⟩
  · exact begins_pending q
  · exact begins_pending q
  · exact begins_tar (artifactOf_some (plain_of_all hall) hx).1
  · exact begins_manifest q

/-- **The conditions of an invariant of a run hold of `Sane`.** -/
theorem keeps_sane (ha : a.job ∈ jobs) (hscope : a.scope = scopeFor jobs a.job)
    (hid : a.snapshotId = none) :
    Keeps env (Spares env jobs a.job) a.job a.scope a.now (a.artifact made)
      (.work (.manifest (a.manifest env made))) a.sid 0
      (fun S w => (∀ d ∈ S, d ∈ places a.job) ∧ Sane env jobs w₀ w)
      (fun S w => (∀ d ∈ S, d ∈ places a.job) ∧ Sane env jobs w₀ w)
      (fun S w => (∀ d ∈ S, d ∈ places a.job) ∧ Sane env jobs w₀ w) := by
  have hsid := sid_eq hscope hid
  have hall : a.sid.all isSlugChar = true := by
    rw [hsid]
    exact newIdOf_all _ _ _
  have hname := artifact_name made (slashless hall)
  have hquiet : ∀ (S : List Dest) w w', Quiet w w' →
      ((∀ d ∈ S, d ∈ places a.job) ∧ Sane env jobs w₀ w) →
      (∀ d ∈ S, d ∈ places a.job) ∧ Sane env jobs w₀ w' :=
    fun S w w' hq h => ⟨h.1, h.2.of_files hq.same⟩
  have hown : ∀ {b}, b ∈ jobs → b.name ≠ a.job.name → ∀ t, a.sid ≠ newIdOf jobs b t := by
    intro b hb hne t
    rw [hsid]
    exact newIdOf_ne hdist ha hb hne _ _
  refine
    { calm := fun w w' => Spares.of_quiet
      quietD := hquiet
      quietI := hquiet
      quietE := hquiet
      since := fun S w h => Nat.zero_le _
      upload := ?upload
      enter := fun S w h _ => h
      mark := ?mark
      ship := ?ship
      unlink := ?unlink
      prune := ?prune
      finish := fun S w h => h
      drop := ?drop
      start := fun w h => h }
  case upload =>
    intro dests ht before d after S w hdests _ h
    have hd : d ∈ places a.job := ht.subset (by rw [hdests]; simp)
    apply wp_uploadTo
    intro c r w₁ _ hwrote _
    rw [hname] at hwrote
    have harch : Own a made (archiveName a.sid made.encrypted) := Or.inl rfl
    have hman : Own a made (a.sid ++ manifestSuffix) := Or.inr rfl
    have h₁ := h.2.put ha hsid hd harch hwrote
    refine ⟨Spares.of_wrote hwrote, ?_, ?_⟩
    · rintro e rfl
      exact ⟨h.1, h₁⟩
    · rintro rfl c' r' w₂ _ hwrote' _
      refine ⟨Spares.of_wrote hwrote', ?_, h₁.put ha hsid hd hman hwrote'⟩
      intro x hx
      split at hx
      · rcases List.mem_append.mp hx with hx | hx
        · exact h.1 x hx
        · rw [List.mem_singleton.mp hx]
          exact hd
      · exact h.1 x hx
  case mark =>
    intro S w r w' h _ _ _ hwrote _ _
    have hs : Sane env jobs w₀ w' := by
      refine h.2.of_wrote hwrote (fun _ x _ he => ?_) (fun _ q he j hj hc => ?_) (fun _ _ hl => by
        simp at hl)
      · exact absurd he.symm (manifest_not_pending _ _)
      · have hjob : a.job = j := hdist.eq_of_slug hj ha (by rw [Content.marker.inj hc])
        refine Or.inl ⟨a.now, ?_⟩
        rw [← hjob, ← hsid]
        exact (List.append_cancel_right he).symm
    exact ⟨Spares.of_wrote hwrote, fun _ => ⟨h.1, hs⟩, h.1, hs⟩
  case ship =>
    intro S ws hs q hq w₁ x h₁ hx d hd key src c w r w' hship h _ hwrote _
    obtain ⟨hdS, hl⟩ := mem_offsiteOf.mp hd
    have hjq := hs.2.marked a.job ha q hq
    have hplain := plain_of_all (hjq.spec hdist htidy ha).1
    refine ⟨Spares.of_wrote hwrote, h.1, ?_⟩
    cases d with
    | «local» => exact absurd rfl hl
    | s3 c' =>
      refine h.2.of_wrote hwrote (fun hl => by simp [Dest.loc] at hl)
        (fun hl => by simp [Dest.loc] at hl) fun site y hloc he => ?_
      have hsite : env.site c'.endpoint c'.bucket = site := by simpa [Dest.loc] using hloc
      rcases hship.name with rfl | rfl
      · -- the artifact found is no manifest
        exfalso
        obtain ⟨htar, hfree, hthere⟩ := artifactOf_some hplain hx
        rcases List.suffix_or_suffix_of_suffix ⟨y, he.symm⟩ ⟨c'.prefix_, rfl⟩ with hsuf | hsuf
        · obtain ⟨z, rfl⟩ := hsuf
          have hz := h₁.2.ids z (free_append.mp hfree).1 hthere
          exact dotless hz ((tar_begins_manifest htar).subset
            (List.mem_append_right q (by decide)))
        · have hmem : 'z' ∈ key := htar.subset (List.mem_append_right q (by decide))
          exact absurd (hsuf.subset hmem) (by decide)
      · exact Or.inr ⟨a.job, ha, c', mem_offsite.mp (h.1 _ hdS), hsite, q, hjq, he.symm⟩
  case unlink =>
    intro S ws hs _ q hq w₁ _ name w r w' h hreason hrem _ _
    refine ⟨Spares.of_removed hrem fun b hb hne => ?_, h.1, h.2.of_removed hrem⟩
    exact not_belongs_unlinked hdist htidy hsep ha (hs.2.marked a.job ha q hq) hreason hb hne
  case prune =>
    intro S w h dest hd only honly out hout p hp key hkey w₁ r w₂ h₁ _ hrem _
    rw [hscope] at hout
    refine ⟨Spares.of_removed hrem fun b hb hne => ?_, h₁.1, h₁.2.of_removed hrem⟩
    exact not_belongs_pruned hdist htidy hsep h.2 ha hd honly hout hp hkey hb hne
  case drop =>
    intro S _ _ name hname' w r w' h hrem _
    rw [hname] at hname'
    refine ⟨Spares.of_removed hrem fun b hb hne => ?_, h.1, h.2.of_removed hrem⟩
    refine not_belongs_data hall (hown hb hne) ?_
    rcases hname' with rfl | rfl
    · exact begins_archive _ _
    · exact begins_manifest _

theorem Sane.run {w : World} (h : Sane env jobs w₀ w) (ha : a.job ∈ jobs)
    (hscope : a.scope = scopeFor jobs a.job) (hid : a.snapshotId = none)
    (made : Except Raised Made) :
    (runJob env a made).wp env.step (Spares env jobs a.job) (fun _ w' => Sane env jobs w₀ w') w := by
  cases made with
  | error raised =>
    exact Prog.wp_post (wp_runJob_raised (fun w w' => Spares.of_quiet) a raised w)
      fun r w' hr => h.of_files hr.1.same
  | ok made =>
    refine Prog.wp_post ((keeps_sane hdist htidy hsep ha hscope hid).runJob (w := w) ⟨by simp, h⟩)
      fun r w' hr => ?_
    obtain ⟨-, S, hE⟩ := hr
    exact hE.2

end

/-! ## the `prune` command -/

section
variable (hdist : Distinct jobs)
include hdist

theorem Sane.unlinkAll {w : World} (h : Sane env jobs w₀ w) {target : Job} {sid : Str}
    (hall : sid.all isSlugChar = true)
    (hne : ∀ b ∈ jobs, b.name ≠ target.name → ∀ t, sid ≠ newIdOf jobs b t) {names : List Str}
    (hnames : ∀ name ∈ names, sid ++ ['.'] <+: name) :
    (unlinkAll names).wp env.step (Spares env jobs target) (fun _ w' => Sane env jobs w₀ w') w := by
  induction names generalizing w with
  | nil => exact h
  | cons name names ih =>
    have hone : (unlink name).wp env.step (Spares env jobs target)
        (fun _ w' => Sane env jobs w₀ w') w := by
      apply wp_unlink
      intro r w' hrem _ _
      refine ⟨Spares.of_removed hrem fun b hb hbn => ?_, h.of_removed hrem⟩
      exact not_belongs_data hall (hne b hb hbn) (hnames name List.mem_cons_self)
    refine Prog.wp_seq hone fun r w' h' => ?_
    cases r with
    | error e => exact h'
    | ok u => exact ih h' fun x hx => hnames x (List.mem_cons_of_mem _ hx)

theorem Sane.pruneSnapshots {w : World} (h : Sane env jobs w₀ w) {target : Job} (dryRun : Bool)
    {sids : List Str} (hsids : ∀ sid ∈ sids, sid.all isSlugChar = true ∧
      ∀ b ∈ jobs, b.name ≠ target.name → ∀ t, sid ≠ newIdOf jobs b t) :
    (pruneSnapshots env dryRun sids).wp env.step (Spares env jobs target)
      (fun _ w' => Sane env jobs w₀ w') w := by
  induction sids generalizing w with
  | nil => exact h
  | cons sid sids ih =>
    obtain ⟨hall, hne⟩ := hsids sid List.mem_cons_self
    have hplain : plain (sid ++ ['.']) := plain_append (plain_of_all hall) (by decide)
    have hfiles : (unlinkSnapshot env sid).wp env.step (Spares env jobs target)
        (fun _ w' => Sane env jobs w₀ w') w := by
      have hglob : (glob (sid ++ ".*".toList)).wp env.step (Spares env jobs target)
          (fun r w' => Sane env jobs w₀ w' ∧ ∀ name ∈ r, sid ++ ['.'] <+: name) w := by
        refine wp_glob (fun w' hq => Spares.of_quiet hq) fun w' hq => ⟨h.of_files hq.same, ?_⟩
        intro name hname
        obtain ⟨-, -, hmatch⟩ := World.mem_globbed.mp hname
        have hpat : sid ++ ".*".toList = sid ++ ['.'] ++ ['*'] := by simp
        rw [hpat] at hmatch
        exact (fnmatch_begins hplain name).mp hmatch
      refine Prog.wp_seq hglob fun names w₁ h₁ => ?_
      exact h₁.1.unlinkAll hdist hall hne fun name hname =>
        h₁.2 name ((env.iter_perm names).mem_iff.mp hname)
    have hone : (if dryRun then pure (.ok ()) else unlinkSnapshot env sid : M (Except Exc Unit)).wp
        env.step (Spares env jobs target) (fun _ w' => Sane env jobs w₀ w') w := by
      cases dryRun with
      | true => exact h
      | false => exact hfiles
    refine Prog.wp_seq hone fun r w₁ h₁ => ?_
    cases r with
    | error e => exact h₁
    | ok u =>
      exact Prog.wp_seq (ih h₁ fun x hx => hsids x (List.mem_cons_of_mem _ hx)) fun _ _ h₂ => h₂

/-- the loop body for one job -/
theorem Sane.pruneTarget {w : World} (h : Sane env jobs w₀ w) {a : PruneArgs} {plan : PrunePlan}
    (hplan : ∀ s ∈ plan.sids, s.all isSlugChar = true) {target : Job} (ht : target ∈ jobs) :
    (pruneTarget env jobs a plan target).wp env.step (Spares env jobs target)
      (fun _ w' => Sane env jobs w₀ w') w := by
  unfold BackupHelper.pruneTarget
  cases hp : plan.prunable jobs a target with
  | error e => exact h
  | ok prunable =>
    refine h.pruneSnapshots hdist a.dryRun fun sid hsid => ?_
    have hmem := selectPrunable_subset hp (mem_sorted.mp hsid)
    rw [snapshotsAt, List.map_map] at hmem
    obtain ⟨s, hs, rfl⟩ := List.mem_map.mp hmem
    obtain ⟨hsids, howns⟩ := List.mem_filter.mp hs
    exact ⟨hplan s hsids, fun b hb hne t => ne_newIdOf_of_owns hdist ht hb hne howns t⟩

omit hdist in
theorem Sane.prunePlan {w : World} (h : Sane env jobs w₀ w) :
    prunePlan.wp env.step (fun w w' => w'.files = w.files) (fun plan w' => Sane env jobs w₀ w' ∧
      ∀ s ∈ plan.sids, s.all isSlugChar = true) w := by
  have hglob : (glob ('*' :: manifestSuffix)).wp env.step (fun w w' => w'.files = w.files)
      (fun r w' => Quiet w w' ∧ r = w.globbed ('*' :: manifestSuffix)) w :=
    wp_glob (fun w' hq => hq.same) fun w' hq => ⟨hq, rfl⟩
  refine Prog.wp_seq hglob fun manifests w₁ hm => ?_
  obtain ⟨hq₁, rfl⟩ := hm
  refine Prog.wp_seq (wp_pendingOwners (fun w w' hq => hq.same) w₁) fun marked w₂ ho => ?_
  refine ⟨(h.of_files hq₁.same).of_files ho.1.same, fun s hs => ?_⟩
  obtain ⟨m, hm, rfl⟩ := List.mem_map.mp (mem_sorted.mp hs)
  obtain ⟨hthere, hfree, hmatch⟩ := World.mem_globbed.mp hm
  obtain ⟨t, rfl⟩ := (fnmatch_ends (show plain manifestSuffix by decide) m).mp hmatch
  have ht : (t ++ manifestSuffix).take ((t ++ manifestSuffix).length - manifestSuffix.length) = t := by
    simp
  rw [ht]
  exact h.ids t (free_append.mp hfree).1 hthere

theorem Sane.eachSpares {w : World} (h : Sane env jobs w₀ w) {a : PruneArgs} {plan : PrunePlan}
    (hplan : ∀ s ∈ plan.sids, s.all isSlugChar = true) {targets : List Job}
    (ht : ∀ t ∈ targets, t ∈ jobs) : EachSpares env jobs a plan targets w := by
  induction targets generalizing w with
  | nil => trivial
  | cons target targets ih =>
    refine Prog.wp_post (h.pruneTarget hdist hplan (ht target List.mem_cons_self)) fun r w' h' _ => ?_
    exact ih h' fun t hm => ht t (List.mem_cons_of_mem _ hm)

theorem Sane.pruneTargets {w : World} (h : Sane env jobs w₀ w) {a : PruneArgs} {plan : PrunePlan}
    (hplan : ∀ s ∈ plan.sids, s.all isSlugChar = true) {targets : List Job}
    (ht : ∀ t ∈ targets, t ∈ jobs) : (pruneTargets env jobs a plan targets).wp env.step
      (fun _ _ => True) (fun _ w' => Sane env jobs w₀ w') w := by
  induction targets generalizing w with
  | nil => exact h
  | cons target targets ih =>
    refine Prog.wp_seq (Prog.wp_mono (h.pruneTarget hdist hplan (ht target List.mem_cons_self))
      (fun _ _ _ => trivial) fun _ _ h => h) fun r w' h' => ?_
    obtain ⟨r, lines⟩ := r
    cases r with
    | error e => exact h'
    | ok u =>
      exact Prog.wp_seq (ih h' fun t hm => ht t (List.mem_cons_of_mem _ hm)) fun _ _ h'' => h''

theorem Sane.prune {w : World} (h : Sane env jobs w₀ w) (a : PruneArgs) :
    (prune env jobs a).wp env.step (fun _ _ => True) (fun _ w' => Sane env jobs w₀ w') w := by
  unfold BackupHelper.prune
  by_cases hj : jobs.isEmpty = true
  · rw [if_pos hj]
    exact h
  · rw [if_neg hj]
    by_cases ht : (a.targets jobs).isEmpty = true
    · rw [if_pos ht]
      exact h
    · rw [if_neg ht]
      refine Prog.wp_seq (Prog.wp_mono h.prunePlan (fun _ _ _ => trivial) fun _ _ h => h)
        fun plan w₁ h₁ => ?_
      exact h₁.1.pruneTargets hdist h₁.2 fun t hm => (List.mem_filter.mp hm).1

end

/-! ## commands -/

section
variable (hdist : Distinct jobs) (htidy : Tidy jobs w₀) (hsep : Separate env jobs w₀)
include hdist htidy hsep

theorem Sane.runCommands {w : World} (h : Sane env jobs w₀ w) {cs : List Command}
    (hcs : ∀ c ∈ cs, c.Valid jobs) : (runCommands env jobs cs).wp env.step (fun _ _ => True)
      (fun _ w' => Sane env jobs w₀ w') w := by
  induction cs generalizing w with
  | nil => exact h
  | cons c cs ih =>
    have hrest : ∀ w', Sane env jobs w₀ w' → (BackupHelper.runCommands env jobs cs).wp env.step
        (fun _ _ => True) (fun _ w' => Sane env jobs w₀ w') w' :=
      fun w' h' => ih h' fun x hx => hcs x (List.mem_cons_of_mem _ hx)
    cases c with
    | run a made =>
      obtain ⟨ha, hscope, hid⟩ := hcs _ List.mem_cons_self
      refine Prog.wp_seq (Prog.wp_mono (h.run hdist htidy hsep ha hscope hid made)
        (fun _ _ _ => trivial) fun _ _ h => h) fun _ w' h' => hrest w' h'
    | prune a => exact Prog.wp_seq (h.prune hdist a) fun _ w' h' => hrest w' h'

end

/-- prefixes of which none properly begins another one in its bucket, and no manifests at first -/
theorem Separate.of_incomparable (hdist : Distinct jobs) (htidy : Tidy jobs w₀)
    (hempty : ∀ site y, w₀.get (.bucket site) (y ++ manifestSuffix) = none)
    (hpre : ∀ a ∈ jobs, ∀ b ∈ jobs, ∀ c ∈ a.offsite, ∀ c' ∈ b.offsite,
      env.site c.endpoint c.bucket = env.site c'.endpoint c'.bucket → c.prefix_ <+: c'.prefix_ →
        c.prefix_ = c'.prefix_) : Separate env jobs w₀ := by
  have heq : ∀ a ∈ jobs, ∀ b ∈ jobs, ∀ c ∈ a.offsite, ∀ c' ∈ b.offsite,
      env.site c.endpoint c.bucket = env.site c'.endpoint c'.bucket → ∀ {k},
      c.prefix_ <+: k → c'.prefix_ <+: k → c.prefix_ = c'.prefix_ := by
    intro a ha b hb c hc c' hc' hsite k h h'
    rcases List.prefix_or_prefix_of_prefix h h' with hle | hle
    · exact hpre a ha b hb c hc c' hc' hsite hle
    · exact (hpre b hb a ha c' hc' c hc hsite.symm hle).symm
  intro a ha b hb hne _ c hc p _ howns hhold l k hl hbel hbegin
  have hp : p.all isSlugChar = true := by
    rcases hhold with hsome | ⟨j, hj, c', hc', hsite, q, hq, he⟩
    · rw [← List.append_assoc, hempty] at hsome
      simp at hsome
    · have hbegin' : c'.prefix_ <+: c.prefix_ ++ (p ++ manifestSuffix) := by
        rw [he]
        exact List.prefix_append _ _
      have hcc := heq a ha j hj c hc c' hc' hsite.symm (List.prefix_append _ _) hbegin'
      rw [hcc] at he
      rw [List.append_cancel_right (List.append_cancel_left he)]
      exact (hq.spec hdist htidy hj).1
  obtain ⟨d, hd, t, x, hx, hld, rfl⟩ := hbel
  cases d with
  | «local» =>
    rw [hl] at hld
    simp [Dest.loc] at hld
  | s3 c' =>
    have hsite : env.site c.endpoint c.bucket = env.site c'.endpoint c'.bucket := by
      rw [hl] at hld
      simpa [Dest.loc] using hld
    have hcc : c.prefix_ = c'.prefix_ := heq a ha b hb c hc c' (mem_offsite.mp hd) hsite
      ((List.prefix_append _ _).trans hbegin) (List.prefix_append _ _)
    have hpx : p ++ ['.'] <+: x := by
      rw [hcc] at hbegin
      exact (List.prefix_append_right_inj _).mp hbegin
    have hnot : ∀ {u v : Str}, v.all isSlugChar = true → ¬ u ++ ['.'] <+: v := fun hv h =>
      dotless hv (h.subset (by simp))
    refine ne_newIdOf_of_owns hdist ha hb hne howns t ?_
    exact begins_unique hpx (begins_snapshotFiles hx) (hnot (newIdOf_all _ _ _)) (hnot hp)

end

/-- **Jobs spare each other's snapshots.**  After any runs and `prune` commands, whatever calls fail,
no step of the next run, and no part of the next `prune` command, takes away a file of a snapshot of
another job than the one it works for. -/
theorem jobs_spare_each_other (env : Env) (jobs : List Job) (w : World) (hdist : Distinct jobs)
    (htidy : Tidy jobs w) (hsep : Separate env jobs w) (cs : List Command) (c : Command)
    (hcs : ∀ x ∈ cs, x.Valid jobs) (hc : c.Valid jobs) :
    (runCommands env jobs cs).wp env.step (fun _ _ => True) (fun _ w' => c.Spares env jobs w') w := by
  refine Prog.wp_post ((Sane.start htidy).runCommands hdist htidy hsep hcs) fun _ w' h => ?_
  cases c with
  | run a made =>
    obtain ⟨ha, hscope, hid⟩ := hc
    exact Prog.wp_post (h.run hdist htidy hsep ha hscope hid made) fun _ _ _ => trivial
  | prune a =>
    refine Prog.wp_post h.prunePlan fun plan w₁ h₁ => ?_
    exact h₁.1.eachSpares hdist h₁.2 fun t hm => (List.mem_filter.mp hm).1

/-! ## concrete jobs -/

/-- two jobs that keep one snapshot each, in the data dir and under their prefixes of one bucket -/
def twoJobs (filesPrefix dbPrefix : Str) : List Job :=
  [{ name := "files".toList
     destinations := [.local, .s3 ⟨[], "backups".toList, filesPrefix⟩]
     retention := { count := 1 } },
   { name := "db".toList
     destinations := [.local, .s3 ⟨[], "backups".toList, dbPrefix⟩]
     retention := { count := 1 } }]

def scopedRun (jobs : List Job) (job : Job) : RunArgs :=
  { runAt job none with scope := scopeFor jobs job }

theorem jobs_spare_each_other_sharedPrefix :
    (runCommands plainEnv (twoJobs "x/".toList "x/".toList)
      [.run (scopedRun (twoJobs "x/".toList "x/".toList) (twoJobs "x/".toList "x/".toList)[1])
        (.ok bundle)]).wp plainEnv.step (fun _ _ => True)
      (fun _ w' => (Command.prune ⟨none, false, none, noon⟩).Spares plainEnv
        (twoJobs "x/".toList "x/".toList) w') (worldOf []) := by
  have hdist : Distinct (twoJobs "x/".toList "x/".toList) := by decide +kernel
  have htidy : Tidy (twoJobs "x/".toList "x/".toList) (worldOf []) := by
    refine ⟨fun x _ hs => by simp [World.get, worldOf] at hs, fun j _ q hq => ?_⟩
    rw [mem_pendingOf, World.owner_eq_some] at hq
    simp [World.get, worldOf] at hq
  refine jobs_spare_each_other plainEnv _ (worldOf []) hdist htidy ?_ _ _ ?_ trivial
  · refine Separate.of_incomparable hdist htidy (fun site y => rfl) ?_
    simp [twoJobs, Job.offsite, DestinationSpec.offsite?]
  · intro c hc
    rw [List.mem_singleton.mp hc]
    exact ⟨by simp [scopedRun, runAt], rfl, rfl⟩

/-- **Where a job deletes another job's snapshot**: the prefix `iam` begins the prefix `iam-old`, so
the snapshots of `db` are listed for `files` under ids that name no job. -/
theorem other_job_pruned :
    let jobs := twoJobs "iam".toList "iam-old".toList
    let key := "iam-old".toList ++ (newIdOf jobs jobs[1] noon ++ manifestSuffix)
    let stored := ((runJob plainEnv (scopedRun jobs jobs[1]) (.ok bundle)).exec plainEnv.step .calm []
      (worldOf [])).2
    let after := ((runJob plainEnv (scopedRun jobs jobs[0]) (.ok bundle)).exec plainEnv.step .calm []
      stored).2
    Distinct jobs ∧ Belongs plainEnv jobs jobs[1] (.bucket ([], "backups".toList)) key ∧
      (stored.get (.bucket ([], "backups".toList)) key).isSome ∧
      after.get (.bucket ([], "backups".toList)) key = none := by
  refine ⟨by decide +kernel, ⟨.s3 ⟨[], "backups".toList, "iam-old".toList⟩, by decide +kernel, noon, _,
    ?_, rfl, rfl⟩, by decide +kernel, by decide +kernel⟩
  exact List.mem_append_left _ (by simp)

end BackupHelper
