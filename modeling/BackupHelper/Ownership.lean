import BackupHelper.JobIsolation

/-!
# Every snapshot has at most one owner

Retention, `prune`, the healthcheck and the choice of a job by snapshot id decide with the same
predicate, `SnapshotScope.owns`, each on its own.

* `Owns jobs sid place m j`   job `j` accepts the id at the place, its marker naming `m`;
* `Claimed`                   the id names a job, or its marker does, or some job stores there;
* `pickJob`                   the job that a command without `--job` works for;
* `one_owner`                 no id has two owners, a claimed one has one, and a new id has its job.
-/

namespace BackupHelper
open Text Calendar

/-- the job named by `--job`; without it the job that a job-scoped id names, else the first one -/
def pickJob (jobs : List Job) (jobName snapshotId : Option Str) : Option Job :=
  match jobs with
  | [] => none
  | first :: _ =>
    match jobName with
    | some name => jobs.find? (fun j => j.name = name)
    | none =>
      let slug : Option Str := match snapshotId with
        | none => none
        | some sid => if sid = [] then none else (parseSnapshotId sid).2
      let owner : Option Job := match slug with
        | none => none
        | some slug => jobs.find? (fun j : Job => jobSlug j.name = slug)
      some (owner.getD first)

def Owns (jobs : List Job) (sid place : Str) (m : Option Str) (j : Job) : Prop :=
  j ∈ jobs ∧ (scopeFor jobs j).owns sid place m = true

/-- the id names a configured job; or it names none and its marker does; or neither names one and
some job stores at the place -/
def Claimed (jobs : List Job) (sid place : Str) (m : Option Str) : Prop :=
  match (parseSnapshotId sid).2, m with
  | some slug, _ => ∃ j ∈ jobs, jobSlug j.name = slug
  | none, some name => ∃ j ∈ jobs, j.name = name
  | none, none => ∃ j ∈ jobs, place ∈ jobPlaces j

section
variable {jobs : List Job}

theorem plainAt_scopeFor (h : 2 ≤ jobs.length) (j : Job) : (scopeFor jobs j).plainAt =
    some (((jobs.flatMap jobPlaces).dedup).filter (fun p => firstStoring jobs p = some j.name)) := by
  rw [scopeFor, if_neg (by omega)]

/-- what ownership comes to in a config with several jobs -/
theorem owns_scopeFor (h : 2 ≤ jobs.length) (j : Job) (sid place : Str) (m : Option Str) :
    (scopeFor jobs j).owns sid place m = true ↔
      match (parseSnapshotId sid).2, m with
      | some slug, _ => jobSlug j.name = slug
      | none, some name => j.name = name
      | none, none => firstStoring jobs place = some j.name := by
  unfold SnapshotScope.owns
  rw [plainAt_scopeFor h, scopeFor_job]
  cases (parseSnapshotId sid).2 with
  | some slug => rw [decide_eq_true_eq]; exact eq_comm
  | none =>
    cases m with
    | some name => rw [decide_eq_true_eq]; exact eq_comm
    | none =>
      show decide (place ∈ ((jobs.flatMap jobPlaces).dedup).filter _) = true ↔ _
      rw [decide_eq_true_eq, List.mem_filter, List.mem_dedup, List.mem_flatMap, decide_eq_true_eq,
        and_iff_right_iff_imp]
      intro hfirst
      obtain ⟨k, hk, -⟩ := Option.map_eq_some_iff.mp hfirst
      have hplace := List.find?_some hk
      exact ⟨k, List.mem_of_find?_eq_some hk, of_decide_eq_true hplace⟩

/-- some job is the first to store at a place if any stores there -/
theorem exists_firstStoring {place : Str} (h : ∃ j ∈ jobs, place ∈ jobPlaces j) :
    ∃ j ∈ jobs, firstStoring jobs place = some j.name := by
  obtain ⟨j, hj, hp⟩ := h
  cases hf : jobs.find? (fun k => place ∈ jobPlaces k) with
  | none =>
    rw [List.find?_eq_none] at hf
    exact absurd (decide_eq_true hp) (hf j hj)
  | some k => exact ⟨k, List.mem_of_find?_eq_some hf, by rw [firstStoring, hf]; rfl⟩

theorem scopedIds_scopeFor (h : 2 ≤ jobs.length) (j : Job) : (scopeFor jobs j).scopedIds = true := by
  rw [scopeFor, if_neg (by omega)]

theorem parse_newIdOf_self (h : 2 ≤ jobs.length) (j : Job) (t : Datetime) :
    (parseSnapshotId (newIdOf jobs j t)).2 = some (jobSlug j.name) := by
  unfold newIdOf SnapshotScope.newId
  rw [parse_newSnapshotId, scopedIds_scopeFor h, scopeFor_job]
  rfl

theorem newIdOf_ne_nil (j : Job) (t : Datetime) : newIdOf jobs j t ≠ [] := by
  have hl := stamp_length t
  intro hnil
  have hlen : (newIdOf jobs j t).length = 0 := by rw [hnil]; rfl
  unfold newIdOf SnapshotScope.newId newSnapshotId at hlen
  split at hlen
  · rw [hl] at hlen
    simp [timestampLen] at hlen
  · rw [List.length_append, hl] at hlen
    simp [timestampLen] at hlen

variable (hdist : Distinct jobs)
include hdist

theorem Distinct.eq_of_name {a b : Job} (ha : a ∈ jobs) (hb : b ∈ jobs) (h : b.name = a.name) :
    b = a :=
  hdist.eq_of_slug ha hb (by rw [h])

theorem Owns.unique (h : 2 ≤ jobs.length) {sid place : Str} {m : Option Str} {a b : Job}
    (ha : Owns jobs sid place m a) (hb : Owns jobs sid place m b) : b = a := by
  obtain ⟨ha, hoa⟩ := ha
  obtain ⟨hb, hob⟩ := hb
  rw [owns_scopeFor h] at hoa hob
  cases hs : (parseSnapshotId sid).2 with
  | some slug =>
    rw [hs] at hoa hob
    exact hdist.eq_of_slug ha hb (hob.trans hoa.symm)
  | none =>
    rw [hs] at hoa hob
    cases m with
    | some name => exact hdist.eq_of_name ha hb (hob.trans hoa.symm)
    | none => exact hdist.eq_of_name ha hb (Option.some.inj (hob.symm.trans hoa))

theorem Claimed.exists_owner (h : 2 ≤ jobs.length) {sid place : Str} {m : Option Str}
    (hc : Claimed jobs sid place m) : ∃! j, Owns jobs sid place m j := by
  have hex : ∃ j, Owns jobs sid place m j := by
    unfold Claimed at hc
    unfold Owns
    simp only [owns_scopeFor h]
    cases hs : (parseSnapshotId sid).2 with
    | some slug => rw [hs] at hc; exact hc
    | none =>
      rw [hs] at hc
      cases m with
      | some name => exact hc
      | none => exact exists_firstStoring hc
  obtain ⟨j, hj⟩ := hex
  exact ⟨j, hj, fun k hk => hj.unique hdist h hk⟩

theorem owns_newIdOf_iff (h : 2 ≤ jobs.length) {j k : Job} (hj : j ∈ jobs) (t : Datetime) (place : Str)
    (m : Option Str) : Owns jobs (newIdOf jobs j t) place m k ↔ k = j := by
  unfold Owns
  rw [owns_scopeFor h, parse_newIdOf_self h]
  constructor
  · rintro ⟨hk, hslug⟩
    exact hdist.eq_of_slug hj hk hslug
  · rintro rfl
    exact ⟨hj, rfl⟩

theorem pickJob_newIdOf (h : 2 ≤ jobs.length) {j : Job} (hj : j ∈ jobs) (t : Datetime) :
    pickJob jobs none (some (newIdOf jobs j t)) = some j := by
  have hfind : jobs.find? (fun k => jobSlug k.name = jobSlug j.name) = some j := by
    cases hf : jobs.find? (fun k => jobSlug k.name = jobSlug j.name) with
    | none =>
      rw [List.find?_eq_none] at hf
      exact absurd (decide_eq_true rfl) (hf j hj)
    | some k =>
      have hk := List.find?_some hf
      rw [hdist.eq_of_slug hj (List.mem_of_find?_eq_some hf) (of_decide_eq_true hk)]
  unfold pickJob
  cases hjobs : jobs with
  | nil => simp [hjobs] at hj
  | cons first rest =>
    rw [← hjobs]
    simp only [parse_newIdOf_self h, if_neg (newIdOf_ne_nil j t), hfind, Option.getD_some]
    rw [hjobs]

end

/-- **Every snapshot has at most one owner**, one if it is claimed, and a new id has its job for an
owner everywhere, which is also the job that a command picks for it. -/
theorem one_owner (jobs : List Job) (h : 2 ≤ jobs.length) (hdist : Distinct jobs) :
    (∀ sid place m a b, Owns jobs sid place m a → Owns jobs sid place m b → b = a) ∧
    (∀ sid place m, Claimed jobs sid place m → ∃! j, Owns jobs sid place m j) ∧
    ∀ j ∈ jobs, ∀ t, (∀ place m k, Owns jobs (newIdOf jobs j t) place m k ↔ k = j) ∧
      pickJob jobs none (some (newIdOf jobs j t)) = some j :=
  ⟨fun _ _ _ _ _ ha hb => ha.unique hdist h hb,
    fun _ _ _ hc => hc.exists_owner hdist h,
    fun _ hj t => ⟨fun place m _ => owns_newIdOf_iff hdist h hj t place m, pickJob_newIdOf hdist h hj t⟩⟩

/-- two jobs that share the data dir -/
def sharingJobs : List Job := [{ name := "files".toList }, { name := "db".toList }]

theorem one_owner_sharing : ∃! j, Owns sharingJobs "2024-04-24_12-00-00".toList localPlace none j :=
  (one_owner sharingJobs (by decide) (by decide)).2.1 _ _ none (by
    have hslug : (parseSnapshotId "2024-04-24_12-00-00".toList).2 = none := by decide +kernel
    unfold Claimed
    rw [hslug]
    exact ⟨_, List.mem_cons_self, by decide⟩)

/-! ## the commands ask the same question -/

section
variable {env : Env} {jobs : List Job}

/-- retention of a job on one of its destinations -/
theorem mem_mine_iff {w : World} {dest : Dest} {j : Job} (hj : j ∈ jobs) {s : Str} :
    s ∈ w.mine env dest (scopeFor jobs j) none ↔
      s ∈ w.ids env dest ∧ Owns jobs s (place dest) ((w.markedAt dest).lookup s) j := by
  unfold World.mine SnapshotScope.mine Owns
  rw [List.mem_filter, and_iff_right hj]

end
end BackupHelper
