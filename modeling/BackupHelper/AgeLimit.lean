import BackupHelper.Ownership
import BackupHelper.Retention.Exact
import BackupHelper.SourceFailures

/-!
# An age limit that reaches back before the calendar

The config takes any number of days from 0 on; `now - timedelta(days=ageDays)` raises unless there are
more days than that from the first of the calendar to now.

* `selectPrunable_isOk`       the selection itself;
* `retention_isOk`, `prune_isOk`   a pass of a run, and the command, when no call fails;
* `age_arithmetic`            the three of them.
-/

namespace BackupHelper
open Text Effects Calendar Prog

section
variable {env : Env} {cfg : RetentionConfig} {now : Datetime}

theorem subDays_isSome_iff (t : Datetime) (k : ℕ) : (t.subDays k).isSome ↔ k < t.day := by
  unfold Datetime.subDays
  split <;> simp_all

theorem selectPrunable_isOk (snaps : List Snapshot) (cfg : RetentionConfig) (now : Datetime) :
    (∃ out, selectPrunable snaps cfg now = .ok out) ↔ cfg.ageDays < now.day := by
  rw [selectPrunable_ok_iff, subDays_isSome_iff]
  have := now.day_pos
  omega

/-! ## retention of a run -/

theorem steady_deleteKeys (dest : Dest) (keys : List Str) :
    (deleteKeys dest keys).Steady Op.smooth (fun r => r = .ok ()) := by
  induction keys with
  | nil => exact rfl
  | cons key keys ih =>
    refine (steady_returned (o := .delete dest key) (by simp)).bind fun r hr => ?_
    cases r with
    | error e => cases hr
    | ok u => exact ih

theorem steady_pruneIds (dest : Dest) (ids : List Str) :
    (pruneIds dest ids).Steady Op.smooth (fun r => r = .ok ()) := by
  induction ids with
  | nil => exact rfl
  | cons sid ids ih =>
    refine (steady_returned (o := .listKeys dest (sid ++ ['.'])) (by simp)).bind fun r hr => ?_
    cases r with
    | error e => cases hr
    | ok keys =>
      refine (steady_deleteKeys dest keys).bind fun r hr => ?_
      rw [hr]
      exact ih

variable {dest : Dest} {scope : SnapshotScope} {only : Option (List Str)}

theorem steady_applyRetention (h : cfg.ageDays < now.day) :
    (applyRetention env cfg now scope only dest).Steady Op.smooth (fun errors => errors = []) := by
  have hpass : (retentionPass env dest cfg now scope only).Steady Op.smooth (fun r => r = .ok ()) := by
    refine (Steady.of_forall (Q := fun _ => True) fun _ => trivial).bind fun marked _ => ?_
    refine (steady_returned (o := .listKeys dest []) (by simp)).bind fun r hr => ?_
    cases r with
    | error e => cases hr
    | ok keys =>
      obtain ⟨out, hout⟩ := (selectPrunable_isOk (snapshotsAt now
        (scope.mine only (place dest) marked (snapshotIds keys))) cfg now).mpr h
      simp only [hout]
      exact steady_pruneIds dest _
  refine hpass.bind fun r hr => ?_
  rw [hr]
  exact rfl

theorem answers_applyRetention (h : ¬ cfg.ageDays < now.day) :
    (applyRetention env cfg now scope only dest).Answers (fun errors => errors ≠ []) := by
  have hpass : (retentionPass env dest cfg now scope only).Answers (fun r => isOk r = false) := by
    refine Answers.after fun marked => Answers.after fun r => ?_
    cases r with
    | error e => exact rfl
    | ok keys =>
      cases hout : selectPrunable (snapshotsAt now
          (scope.mine only (place dest) marked (snapshotIds keys))) cfg now with
      | error e =>
        simp only [hout]
        exact rfl
      | ok out => exact absurd ((selectPrunable_isOk _ cfg now).mp ⟨out, hout⟩) h
  refine hpass.bind fun r hr => ?_
  cases r with
  | error e =>
    show ["retention failed: ".toList ++ e.reason] ≠ []
    exact List.cons_ne_nil _ _
  | ok u => cases hr

theorem retention_isOk (env : Env) (cfg : RetentionConfig) (now : Datetime) (scope : SnapshotScope)
    (only : Option (List Str)) (dest : Dest) (w : World) :
    ((applyRetention env cfg now scope only dest).exec env.step .calm [] w).1 = [] ↔
      cfg.ageDays < now.day := by
  constructor
  · intro h
    by_contra hn
    exact (answers_applyRetention hn).exec Fault.calm [] w h
  · intro h
    exact (steady_applyRetention h).exec Fault.calm smooth_calm w

/-! ## the command -/

theorem steady_unlinkAll (names : List Str) :
    (unlinkAll names).Steady Op.smooth (fun r => isOk r = true) := by
  induction names with
  | nil => exact rfl
  | cons name names ih =>
    refine (steady_unlink name).bind fun r hr => ?_
    cases r with
    | error e => cases hr
    | ok u => exact ih

theorem steady_pruneSnapshots (dryRun : Bool) (sids : List Str) :
    (pruneSnapshots env dryRun sids).Steady Op.smooth (fun r => isOk r.1 = true) := by
  induction sids with
  | nil => exact rfl
  | cons sid sids ih =>
    have hone : (if dryRun then pure (.ok ()) else unlinkSnapshot env sid : M _).Steady Op.smooth
        (fun r => isOk r = true) := by
      cases dryRun with
      | true => exact rfl
      | false =>
        exact (Steady.of_forall (Q := fun _ => True) fun _ => trivial).bind fun names _ =>
          steady_unlinkAll _
    refine hone.bind fun r hr => ?_
    cases r with
    | error e => cases hr
    | ok u => exact ih.bind fun r hr => hr

variable {jobs : List Job} {a : PruneArgs} {plan : PrunePlan}

theorem prunable_isOk (target : Job) : (∃ out, plan.prunable jobs a target = .ok out) ↔
    (a.retention target).ageDays < a.now.day :=
  selectPrunable_isOk _ _ _

theorem steady_pruneTargets {targets : List Job}
    (h : ∀ target ∈ targets, (a.retention target).ageDays < a.now.day) :
    (pruneTargets env jobs a plan targets).Steady Op.smooth (fun r => isOk r.1 = true) := by
  induction targets with
  | nil => exact rfl
  | cons target targets ih =>
    have hone : (pruneTarget env jobs a plan target).Steady Op.smooth (fun r => isOk r.1 = true) := by
      obtain ⟨out, hout⟩ := (prunable_isOk target).mpr (h target List.mem_cons_self)
      unfold pruneTarget
      rw [hout]
      exact steady_pruneSnapshots _ _
    refine hone.bind fun r hr => ?_
    obtain ⟨r, lines⟩ := r
    cases r with
    | error e => cases hr
    | ok u =>
      refine (ih fun t ht => h t (List.mem_cons_of_mem _ ht)).bind fun r hr => ?_
      exact hr

theorem answers_pruneTargets {targets : List Job} {target : Job} (hmem : target ∈ targets)
    (h : ¬ (a.retention target).ageDays < a.now.day) :
    (pruneTargets env jobs a plan targets).Answers (fun r => isOk r.1 = false) := by
  induction targets with
  | nil => cases hmem
  | cons first targets ih =>
    rcases List.mem_cons.mp hmem with rfl | hmem
    · unfold pruneTargets pruneTarget
      cases hout : plan.prunable jobs a target with
      | error e => exact rfl
      | ok out => exact absurd ((prunable_isOk target).mp ⟨out, hout⟩) h
    · refine Answers.after fun r => ?_
      obtain ⟨r, lines⟩ := r
      cases r with
      | error e => exact rfl
      | ok u => exact (ih hmem).bind fun r hr => hr

/-- the command for configured jobs -/
theorem prune_isOk (env : Env) (jobs : List Job) (a : PruneArgs) (w : World)
    (htargets : a.targets jobs ≠ []) :
    isOk ((prune env jobs a).exec env.step .calm [] w).1.1 = true ↔
      ∀ target ∈ a.targets jobs, (a.retention target).ageDays < a.now.day := by
  have hjobs : jobs.isEmpty = false := by
    cases jobs with
    | nil => exact absurd rfl htargets
    | cons j js => rfl
  have hne : (a.targets jobs).isEmpty = false := by
    cases hts : a.targets jobs with
    | nil => exact absurd hts htargets
    | cons t ts => rfl
  unfold prune
  simp only [hjobs, hne, Bool.false_eq_true, if_false]
  constructor
  · intro h
    by_contra hn
    push Not at hn
    obtain ⟨target, hmem, hlt⟩ := hn
    have hfail : (prunePlan >>= fun plan => pruneTargets env jobs a plan (a.targets jobs)).Answers
        (fun r => isOk r.1 = false) :=
      Answers.after fun plan => answers_pruneTargets hmem (not_lt.mpr hlt)
    have hrun : isOk ((prunePlan >>= fun plan => pruneTargets env jobs a plan (a.targets jobs)).exec
        env.step .calm [] w).1.1 = false := hfail.exec Fault.calm [] w
    rw [hrun] at h
    cases h
  · intro h
    exact ((Steady.of_forall (Q := fun _ => True) fun _ => trivial).bind fun plan _ =>
      steady_pruneTargets h).exec Fault.calm smooth_calm w

end

/-- **Nothing of a policy raises but an age limit of at least as many days as the calendar has had**:
neither the selection, nor a pass of a run, nor the command. -/
theorem age_arithmetic (env : Env) (now : Datetime) :
    (∀ cfg snaps, (∃ out, selectPrunable snaps cfg now = .ok out) ↔ cfg.ageDays < now.day) ∧
    (∀ cfg scope only dest w,
      ((applyRetention env cfg now scope only dest).exec env.step .calm [] w).1 = [] ↔
        cfg.ageDays < now.day) ∧
    ∀ jobs keep dryRun job w, (PruneArgs.mk keep dryRun job now).targets jobs ≠ [] →
      (isOk ((prune env jobs ⟨keep, dryRun, job, now⟩).exec env.step .calm [] w).1.1 = true ↔
        ∀ target ∈ (PruneArgs.mk keep dryRun job now).targets jobs, target.retention.ageDays < now.day) := by
  refine ⟨fun cfg snaps => selectPrunable_isOk snaps cfg now,
    fun cfg scope only dest w => retention_isOk env cfg now scope only dest w,
    fun jobs keep dryRun job w htargets => ?_⟩
  rw [prune_isOk env jobs _ w htargets]
  cases keep <;> exact Iff.rfl

/-- a million days -/
def millionDays : RetentionConfig := { ageDays := 1000000 }

theorem age_arithmetic_files :
    isOk ((prune plainEnv sharingJobs ⟨none, false, none, noon⟩).exec plainEnv.step .calm []
      ⟨fun _ => ∅, [], ∅, []⟩).1.1 = true := by
  have htargets : (PruneArgs.mk none false none noon).targets sharingJobs ≠ [] := by decide
  apply ((age_arithmetic plainEnv noon).2.2 sharingJobs none false none _ htargets).mpr
  decide

/-- the policy of a million days, now and with one snapshot -/
theorem age_overflows : selectPrunable
    [⟨"2024-04-24_12-00-00".toList, noon⟩] millionDays noon =
      .error ⟨"OverflowError".toList, "date value out of range".toList⟩ :=
  rfl

end BackupHelper
