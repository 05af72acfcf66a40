import BackupHelper.Concurrency.Looks

/-!
# Two runs side by side

Each part of a run does amid the other job as it does alone, and so does the run.

* `Side.Runs a`      a run as the scheduler starts it: of this job, with a new id;
* `fixed_*`          the parts of a run, from the upload of one file to the whole;
* `jobs_run_apart`   **two runs in any interleaving end as they do alone, and so as they do in any
                     other interleaving, one after the other among them**.
-/

set_option linter.unusedSectionVars false

namespace BackupHelper
open Text Glob Effects Calendar

section
variable {s : Side} {plan : Prog.Plan Op Fault}

/-! ## delivery -/

theorem fixed_build (c : S3Spec) : s.Fixed plan (fun _ => True) (build c) :=
  fixed_still (fun _ => by simp) (fun _ _ => rfl) (fun _ _ _ => rfl)

theorem fixed_buildDestinations (specs : List DestinationSpec) :
    s.Fixed plan (fun r => ∀ d ∈ r.1, d ∈ specDests specs) (buildDestinations s.env specs) := by
  induction specs with
  | nil => exact fixed_pure fun d hd => absurd hd List.not_mem_nil
  | cons spec specs ih =>
    cases spec with
    | «local» =>
      have hspecs : specDests (.local :: specs) = .local :: specDests specs := rfl
      rw [hspecs]
      refine fixed_bind ih fun r hr => fixed_pure fun d hd => ?_
      rcases List.mem_cons.mp hd with rfl | hd
      · exact List.mem_cons_self
      · exact List.mem_cons_of_mem _ (hr d hd)
    | s3 c =>
      unfold buildDestinations
      by_cases hb : c.bucket = []
      · have hspecs : specDests (.s3 c :: specs) = specDests specs := by
          simp [specDests, DestinationSpec.dest?, hb]
        rw [if_pos hb, hspecs]
        exact ih
      · have hspecs : specDests (.s3 c :: specs) = .s3 c :: specDests specs := by
          simp [specDests, DestinationSpec.dest?, hb]
        rw [if_neg hb, hspecs]
        refine fixed_bind (fixed_build c) fun built _ => fixed_bind ih fun r hr => ?_
        cases built with
        | ok u =>
          refine fixed_pure fun d hd => ?_
          rcases List.mem_cons.mp hd with rfl | hd
          · exact List.mem_cons_self
          · exact List.mem_cons_of_mem _ (hr d hd)
        | error e => exact fixed_pure fun d hd => List.mem_cons_of_mem _ (hr d hd)

/-- an archive and a manifest of the id `q`, from the work dir or from files of the zone -/
structure Side.Parcel (s : Side) (artifact : Artifact) (sidecar : Src) (q : Str) : Prop where
  own : s.Scoped q
  name : q ++ ['.'] <+: artifact.name
  vouched : Vouched artifact.name
  source : ∀ name, artifact.src = .data name → s.Zone .data name
  sidecar : ∀ name, sidecar = .data name → s.Zone .data name

variable (h : s.Apart)
include h

theorem fixed_uploadTo {artifact : Artifact} {sidecar : Src} {q : Str} (hp : s.Parcel artifact sidecar q)
    {d : Dest} (hd : d ∈ places s.job) (hmark : d = .local → ∀ q', artifact.name ≠ q' ++ pendingSuffix) :
    s.Fixed plan (fun _ => True) (uploadTo d artifact sidecar q) := by
  have hsafe := hp.own.safe h hd
  have hmanifest : Vouched (q ++ manifestSuffix) := fun p _ he => List.append_cancel_right he ▸ hp.own.1
  refine fixed_bind (fixed_put h hd (hsafe _ hp.name) hp.source hp.vouched hmark) fun r _ => ?_
  cases r with
  | error e => exact fixed_pure trivial
  | ok u =>
    exact fixed_put h hd (hsafe _ (begins_manifest q)) hp.sidecar hmanifest
      fun _ q' => manifest_not_pending q q'

theorem fixed_upload {artifact : Artifact} {sidecar : Src} {q : Str} (hp : s.Parcel artifact sidecar q)
    {dests : List Dest} (hd : ∀ d ∈ dests, d ∈ places s.job)
    (hmark : .local ∈ dests → ∀ q', artifact.name ≠ q' ++ pendingSuffix) :
    s.Fixed plan (fun r => ∀ d ∈ r.1, d ∈ dests) (upload artifact sidecar q dests) := by
  induction dests with
  | nil => exact fixed_pure fun d hd => absurd hd List.not_mem_nil
  | cons d dests ih =>
    refine fixed_bind (fixed_uploadTo h hp (hd d List.mem_cons_self) ?_) fun r _ =>
      fixed_bind (ih (fun d' hd' => hd d' (List.mem_cons_of_mem d hd')) ?_) fun r' hr' => ?_
    · rintro rfl
      exact hmark List.mem_cons_self
    · exact fun hl => hmark (List.mem_cons_of_mem d hl)
    · cases r with
      | error e => exact fixed_pure fun d' hd' => List.mem_cons_of_mem d (hr' d' hd')
      | ok u =>
        refine fixed_pure fun d' hd' => ?_
        rcases List.mem_cons.mp hd' with rfl | hd'
        · exact List.mem_cons_self
        · exact List.mem_cons_of_mem d (hr' d' hd')

/-- all destinations of a delivery are places of the job -/
structure Side.Placed (s : Side) (d : Delivery) : Prop where
  destinations : ∀ x ∈ d.destinations, x ∈ places s.job
  stored : ∀ x ∈ d.stored, x ∈ places s.job
  fallback : ∀ x ∈ d.fallback, x ∈ places s.job

theorem fixed_deliver {artifact : Artifact} {sidecar : Src} {q : Str} (hp : s.Parcel artifact sidecar q)
    (hmark : ∀ q', artifact.name ≠ q' ++ pendingSuffix) :
    s.Fixed plan (fun r => s.Placed r.1) (deliver s.env s.job artifact sidecar q) := by
  refine fixed_bind (fixed_buildDestinations s.job.destinations) fun r hr => ?_
  obtain ⟨built, failures⟩ := r
  have hall : ∀ d ∈ (if built = [] ∧ failures = [] then [Dest.local] else built), d ∈ places s.job := by
    intro d hd
    by_cases hb : built = [] ∧ failures = []
    · rw [if_pos hb] at hd
      rw [List.mem_singleton.mp hd]
      exact List.mem_cons_self
    · rw [if_neg hb] at hd
      exact List.mem_cons_of_mem _ (hr d hd)
  refine fixed_bind (fixed_upload h hp hall fun _ => hmark) fun r₁ hr₁ => ?_
  obtain ⟨stored, uploadErrors⟩ := r₁
  have hlocal : ∀ d ∈ [Dest.local], d ∈ places s.job := by
    intro d hd
    rw [List.mem_singleton.mp hd]
    exact List.mem_cons_self
  by_cases hf : stored = [] ∧ ¬ (if built = [] ∧ failures = [] then [Dest.local] else built).any
      (·.isLocal) = true
  · show s.Fixed plan _ (if stored = [] ∧ ¬ _ then _ else _)
    rw [if_pos hf]
    refine fixed_bind (fixed_upload h hp hlocal fun _ => hmark) fun r₂ hr₂ => fixed_pure ?_
    exact ⟨hall, fun x hx => hlocal x (hr₂ x hx), fun x hx => hlocal x (by simpa using hx.symm)⟩
  · show s.Fixed plan _ (if stored = [] ∧ ¬ _ then _ else _)
    rw [if_neg hf]
    exact fixed_pure ⟨hall, fun x hx => hall x (hr₁ x hx), fun x hx => by cases hx⟩

/-! ## off-site copies -/

theorem fixed_orRaise {p : M (Except Exc Unit)} {q : M (Except Exc Unit × List Str)}
    (hp : s.Fixed plan (fun _ => True) p) (hq : s.Fixed plan (fun _ => True) q) :
    s.Fixed plan (fun _ => True) (orRaise p q) := by
  refine fixed_bind hp fun r _ => ?_
  cases r with
  | error e => exact fixed_pure trivial
  | ok u => exact hq

theorem fixed_shipPending {keepsLocal : Bool} {offsite : List Dest}
    (hoff : ∀ d ∈ offsite, d ∈ places s.job) (hlocal : Dest.local ∉ offsite) {ids : List Str}
    (hids : ∀ q ∈ ids, s.Scoped q) :
    s.Fixed plan (fun _ => True) (shipPending keepsLocal offsite ids) := by
  induction ids with
  | nil => exact fixed_pure trivial
  | cons q ids ih =>
    have hq := hids q List.mem_cons_self
    have hrest := ih fun q' hq' => hids q' (List.mem_cons_of_mem q hq')
    have hmarker : s.Fixed plan (fun _ => True) (unlink (q ++ pendingSuffix)) :=
      fixed_unlink (zone_data h hq (begins_pending q))
    have hsidecar : s.Zone .data (q ++ manifestSuffix) := zone_data h hq (begins_manifest q)
    refine fixed_bind (fixed_findArtifact h hq) fun r hr => fixed_bind (fixed_isThere hsidecar) fun there _ => ?_
    cases r with
    | none => exact fixed_orRaise h hmarker hrest
    | some m =>
      obtain ⟨hpre, hvouched⟩ := hr m rfl
      have hzone : s.Zone .data m := zone_data h hq (begins_tar hpre)
      cases there with
      | false => exact fixed_orRaise h hmarker hrest
      | true =>
        have hparcel : s.Parcel ⟨m, .data m⟩ (.data (q ++ manifestSuffix)) q :=
          ⟨hq, begins_tar hpre, hvouched, fun name hn => Src.data.inj hn ▸ hzone,
            fun name hn => Src.data.inj hn ▸ hsidecar⟩
        refine fixed_bind (fixed_upload h hparcel hoff fun hl => absurd hl hlocal) fun r₁ _ => ?_
        obtain ⟨stored, failures⟩ := r₁
        by_cases hlt : stored.length < offsite.length
        · show s.Fixed plan _ (if stored.length < offsite.length then _ else _)
          rw [if_pos hlt]
          exact fixed_bind hrest fun r₂ _ => fixed_pure trivial
        · show s.Fixed plan _ (if stored.length < offsite.length then _ else _)
          rw [if_neg hlt]
          refine fixed_orRaise h hmarker ?_
          cases keepsLocal with
          | true => exact hrest
          | false =>
            exact fixed_orRaise h (fixed_unlink hzone) (fixed_orRaise h (fixed_unlink hsidecar) hrest)

theorem fixed_trackOffsite {q : Str} (hq : s.Scoped q) {d : Delivery} (hd : s.Placed d) :
    s.Fixed plan (fun _ => True) (trackOffsite s.job q d) := by
  unfold trackOffsite
  by_cases hoff : d.stored.filter (fun x => !x.isLocal) = []
  · simp only [hoff, if_true]
    by_cases hmark : s.job.offsite ≠ [] ∧ d.stored ≠ []
    · rw [if_pos hmark]
      exact fixed_orRaise h (fixed_writeMarker h hq) (fixed_pure trivial)
    · rw [if_neg hmark]
      exact fixed_pure trivial
  · simp only [hoff, if_false]
    refine fixed_bind (fixed_pendingIds h) fun ids hids => ?_
    refine fixed_shipPending h (fun x hx => hd.stored x (List.mem_filter.mp hx).1) ?_ hids
    intro hl
    exact absurd (List.mem_filter.mp hl).2 (by simp [Dest.isLocal])

theorem fixed_maybeDropLocal {q name : Str} (hq : s.Scoped q) (hname : q ++ ['.'] <+: name)
    (stored : List Dest) : s.Fixed plan (fun _ => True) (maybeDropLocal s.job name q stored) := by
  have hdrop : s.Fixed plan (fun _ => True) (orRaise (unlink name)
      (orRaise (unlink (q ++ manifestSuffix)) (pure (.ok (), [])))) :=
    fixed_orRaise h (fixed_unlink (zone_data h hq hname))
      (fixed_orRaise h (fixed_unlink (zone_data h hq (begins_manifest q))) (fixed_pure trivial))
  unfold maybeDropLocal
  by_cases hkeep : s.job.keepLocal = true ∨ ¬ hasLocal s.job.destinations = true
  · rw [if_pos hkeep]
    exact fixed_pure trivial
  rw [if_neg hkeep]
  by_cases hlocal : ¬ stored.any (·.isLocal) = true
  · rw [if_pos hlocal]
    exact fixed_pure trivial
  rw [if_neg hlocal]
  by_cases hoff : ¬ stored.any (fun d => !d.isLocal) = true
  · rw [if_pos hoff]
    exact fixed_pure trivial
  · rw [if_neg hoff]
    exact hdrop

/-! ## retention -/

theorem fixed_deleteKeys {d : Dest} {keys : List Str}
    (hkeys : ∀ key ∈ keys, s.Zone (d.loc s.env) (d.pre ++ key)) :
    s.Fixed plan (fun _ => True) (deleteKeys d keys) := by
  induction keys with
  | nil => exact fixed_pure trivial
  | cons key keys ih =>
    refine fixed_bind (fixed_delete (hkeys key List.mem_cons_self)) fun r _ => ?_
    cases r with
    | error e => exact fixed_pure trivial
    | ok u => exact ih fun key' hkey' => hkeys key' (List.mem_cons_of_mem key hkey')

theorem fixed_pruneIds {d : Dest} {ids : List Str} (hids : ∀ p ∈ ids, s.Safe d p) :
    s.Fixed plan (fun _ => True) (pruneIds d ids) := by
  induction ids with
  | nil => exact fixed_pure trivial
  | cons p ids ih =>
    have hsafe := hids p List.mem_cons_self
    refine fixed_bind (fixed_listBelow hsafe) fun r hr => ?_
    cases r with
    | error e => exact fixed_pure trivial
    | ok keys =>
      refine fixed_bind (fixed_deleteKeys h fun key hkey => hsafe key (hr keys rfl key hkey))
        fun r₁ _ => ?_
      cases r₁ with
      | error e => exact fixed_pure trivial
      | ok u => exact ih fun p' hp' => hids p' (List.mem_cons_of_mem p hp')

/-- a pass of retention is over the ids that the job owns, or those of them that are asked for -/
theorem mine_ownIds {only : Option (List Str)} (honly : ∀ ids ∈ only, ∀ q ∈ ids, s.Scoped q)
    {marked : List (Str × Str)} (hm : Slugged marked) (d : Dest) (keys : List Str) :
    (scopeFor s.jobs s.job).mine only (place d) marked (snapshotIds keys) =
      (s.ownIds d keys).filter fun p => only.all fun ids => p ∈ ids := by
  unfold SnapshotScope.mine Side.ownIds
  rw [List.filter_filter]
  refine List.filter_congr fun p _ => ?_
  cases only with
  | none => simpa using owns_slugged h hm p (place d)
  | some ids =>
    by_cases hp : p ∈ ids
    · have hown := ((honly ids rfl p hp).ownAt h (place d)).2
      simp [hp, hown]
    · simp [hp]

theorem fixed_retentionPass {d : Dest} (hd : d ∈ places s.job) (cfg : RetentionConfig) (now : Datetime)
    {only : Option (List Str)} (honly : ∀ ids ∈ only, ∀ q ∈ ids, s.Scoped q) :
    s.Fixed plan (fun _ => True) (retentionPass s.env d cfg now (scopeFor s.jobs s.job) only) := by
  refine Prog.Sim.bind (same_equivalence s) (sim_markedFor h d) fun marked marked' hmarked => ?_
  refine Prog.Sim.bind (same_equivalence s) (sim_listKeys hd) fun r r' hr => ?_
  rcases hr with ⟨e, rfl, rfl⟩ | ⟨keys, keys', rfl, rfl, hown, hsafe⟩
  · exact fixed_pure trivial
  · dsimp only
    rw [mine_ownIds h honly hmarked.1, mine_ownIds h honly hmarked.2, ← hown]
    cases hsel : selectPrunable (snapshotsAt now ((s.ownIds d keys).filter fun p =>
        only.all fun ids => p ∈ ids)) cfg now with
    | error e => exact fixed_pure trivial
    | ok prunable =>
      refine fixed_pruneIds h fun p hp => hsafe p ?_
      have hmem := selectPrunable_subset hsel ((s.env.iter_perm prunable).mem_iff.mp hp)
      rw [snapshotsAt, List.map_map] at hmem
      obtain ⟨p', hp', rfl⟩ := List.mem_map.mp hmem
      exact (List.mem_filter.mp hp').1

theorem fixed_applyRetention {d : Dest} (hd : d ∈ places s.job) (cfg : RetentionConfig) (now : Datetime)
    {only : Option (List Str)} (honly : ∀ ids ∈ only, ∀ q ∈ ids, s.Scoped q) :
    s.Fixed plan (fun _ => True) (applyRetention s.env cfg now (scopeFor s.jobs s.job) only d) := by
  refine fixed_bind (fixed_retentionPass h hd cfg now honly) fun r _ => ?_
  cases r with
  | error e => exact fixed_pure trivial
  | ok u => exact fixed_pure trivial

theorem fixed_applyRetentions {dests : List Dest} (hd : ∀ d ∈ dests, d ∈ places s.job)
    (cfg : RetentionConfig) (now : Datetime) :
    s.Fixed plan (fun _ => True) (applyRetentions s.env cfg now (scopeFor s.jobs s.job) dests) := by
  induction dests with
  | nil => exact fixed_pure trivial
  | cons d dests ih =>
    have hnone : ∀ ids ∈ (none : Option (List Str)), ∀ q ∈ ids, s.Scoped q := fun ids hids => by cases hids
    exact fixed_bind (fixed_applyRetention h (hd d List.mem_cons_self) cfg now hnone) fun _ _ =>
      fixed_bind (ih fun d' hd' => hd d' (List.mem_cons_of_mem d hd')) fun _ _ => fixed_pure trivial

theorem fixed_fallbackRetention (now : Datetime) {fallback : Option Dest}
    (hd : ∀ d ∈ fallback, d ∈ places s.job) :
    s.Fixed plan (fun _ => True)
      (fallbackRetention s.env s.job now (scopeFor s.jobs s.job) fallback) := by
  cases fallback with
  | none => exact fixed_pure trivial
  | some d =>
    refine fixed_bind (fixed_pendingIds h) fun ids hids => ?_
    refine fixed_applyRetention h (hd d rfl) s.job.retention now ?_
    intro ids' hids'
    cases hids'
    exact hids

/-! ## the run -/

theorem fixed_storePhase (now : Datetime) {artifact : Artifact} {sidecar : Src} {q : Str}
    (hp : s.Parcel artifact sidecar q) (hmark : ∀ q', artifact.name ≠ q' ++ pendingSuffix) :
    s.Fixed plan (fun _ => True)
      (storePhase s.env s.job (scopeFor s.jobs s.job) now artifact sidecar q) := by
  refine fixed_bind (fixed_deliver h hp hmark) fun r hr => ?_
  obtain ⟨delivery, delivered⟩ := r
  refine fixed_bind (fixed_trackOffsite h hp.own hr) fun r₁ _ => ?_
  obtain ⟨tracked, tracking⟩ := r₁
  cases tracked with
  | error e => exact fixed_pure trivial
  | ok u =>
    refine fixed_bind (fixed_applyRetentions h hr.destinations s.job.retention now) fun _ _ =>
      fixed_bind (fixed_fallbackRetention h now hr.fallback) fun _ _ =>
        fixed_bind (fixed_maybeDropLocal h hp.own hp.name delivery.stored) fun r₂ _ => ?_
    exact fixed_pure trivial

/-- a run as the scheduler starts it: of this job, with its own scope and a new id -/
structure Side.Runs (s : Side) (a : RunArgs) : Prop where
  job : a.job = s.job
  scope : a.scope = scopeFor s.jobs s.job
  snapshotId : a.snapshotId = none

theorem Side.Runs.scoped {a : RunArgs} (ha : s.Runs a) : s.Scoped a.sid := by
  unfold RunArgs.sid
  rw [ha.snapshotId, ha.scope]
  exact h.scoped_new a.now

theorem Side.Runs.name_eq {a : RunArgs} (ha : s.Runs a) (made : Made) :
    (a.artifact made).name = archiveName a.sid made.encrypted :=
  artifact_name made (free_of_all_slug (Side.Runs.scoped h ha).1.slug (by decide))

theorem Side.Runs.parcel {a : RunArgs} (ha : s.Runs a) (made : Made) (m : Manifest) :
    s.Parcel (a.artifact made) (.work (.manifest m)) a.sid where
  own := Side.Runs.scoped h ha
  name := by
    rw [Side.Runs.name_eq h ha made]
    exact begins_archive _ _
  vouched p _ he := absurd ((Side.Runs.name_eq h ha made).symm.trans he) (archive_not_manifest _ _ _)
  source _ hn := by cases hn
  sidecar _ hn := by cases hn

omit h

theorem fixed_record (r : RunRecord) : s.Fixed plan (fun _ => True) (record r) :=
  fixed_still (fun _ => by simp) (fun f _ => by cases f <;> rfl) (fun _ _ _ => rfl)

theorem fixed_ifNotifier (a : RunArgs) (e : AlertEvent) :
    s.Fixed plan (fun _ => True) (ifNotifier a e) := by
  have hnotify : s.Fixed plan (fun _ => True) (notify e) :=
    fixed_still (fun _ => by simp) (fun f _ => by cases f <;> rfl) (fun _ _ _ => rfl)
  unfold ifNotifier
  by_cases hn : a.notifier = true
  · rw [if_pos hn]
    exact hnotify
  · rw [if_neg hn]
    exact fixed_pure trivial

theorem fixed_ifHooks (a : RunArgs) (phase : Str) : s.Fixed plan (fun _ => True) (ifHooks a phase) := by
  have hhook : s.Fixed plan (fun _ => True) (hook phase) :=
    fixed_still (fun _ => by simp) (fun _ _ => rfl) (fun _ _ _ => rfl)
  unfold ifHooks
  by_cases hh : a.hooks = true
  · rw [if_pos hh]
    exact hhook
  · rw [if_neg hh]
    exact fixed_pure trivial

theorem fixed_abort (a : RunArgs) (r : Raised) : s.Fixed plan (fun _ => True) (abort a r) := by
  rcases abort_cases a r with he | ⟨e, he⟩
  swap
  · rw [he]
    exact fixed_pure trivial
  rw [he]
  refine fixed_bind (fixed_record _) fun _ _ => ?_
  by_cases hn : a.notifier = true
  · rw [if_pos hn]
    refine fixed_bind (fixed_still (fun _ => by simp) (fun f _ => by cases f <;> rfl) (fun _ _ _ => rfl))
      fun _ _ => fixed_pure trivial
  · rw [if_neg hn]
    exact fixed_pure trivial

include h

theorem fixed_finish {a : RunArgs} (ha : s.Runs a) (made : Made) (m : Manifest) (delivery : Delivery)
    (errors : List Str) : s.Fixed plan (fun _ => True) (finish a made m delivery errors) := by
  have hname : s.Zone .data (a.artifact made).name :=
    zone_data h (Side.Runs.scoped h ha) (Side.Runs.parcel h ha made m).name
  refine fixed_bind (fixed_isThere hname) fun _ _ => fixed_bind (fixed_record _) fun _ _ =>
    fixed_bind (fixed_ifNotifier _ _) fun r _ => ?_
  cases r with
  | error e => exact fixed_pure trivial
  | ok u =>
    refine fixed_bind (fixed_ifHooks _ _) fun r₁ _ => ?_
    cases r₁ with
    | error e => exact fixed_pure trivial
    | ok u => exact fixed_pure trivial

/-- **Amid the other job a run does as it does alone.** -/
theorem fixed_runJob {a : RunArgs} (ha : s.Runs a) (made : Except Raised Made) :
    s.Fixed plan (fun _ => True) (runJob s.env a made) := by
  have hmkdirs : s.Fixed plan (fun _ => True) mkdirs :=
    fixed_still (fun _ => by simp) (fun _ _ => rfl) (fun _ _ _ => rfl)
  refine fixed_bind hmkdirs fun r _ => ?_
  cases r with
  | error e => exact fixed_pure trivial
  | ok u =>
    refine fixed_bind (fixed_ifHooks _ _) fun r₁ _ => ?_
    cases r₁ with
    | error e => exact fixed_abort _ _
    | ok u =>
      cases made with
      | error raised => exact fixed_abort _ _
      | ok made =>
        dsimp only
        have hmark : ∀ q', (a.artifact made).name ≠ q' ++ pendingSuffix := fun q' he =>
          archive_not_pending _ _ _ ((Side.Runs.name_eq h ha made).symm.trans he)
        rw [ha.job, ha.scope]
        refine fixed_bind (fixed_storePhase h a.now
          (Side.Runs.parcel h ha made (a.manifest s.env made)) hmark) fun r₂ _ => ?_
        obtain ⟨r₂, errors⟩ := r₂
        cases r₂ with
        | error e => exact fixed_abort _ _
        | ok delivery => exact fixed_finish h ha _ _ _ _

end

/-! ## two runs -/

/-- what the operations of two jobs leave alone: all that is in neither zone -/
def Side.Bystander (s : Side) (w w' : World) : Prop :=
  s.Tame w → s.Tame w' ∧ ∀ l k, ¬ s.Zone l k → ¬ s.swap.Zone l k → w'.get l k = w.get l k

theorem bystander_trans (s : Side) (w₁ w₂ w₃ : World) (h₁ : s.Bystander w₁ w₂)
    (h₂ : s.Bystander w₂ w₃) : s.Bystander w₁ w₃ := by
  intro ht
  obtain ⟨ht₂, hkeep⟩ := h₁ ht
  obtain ⟨ht₃, hkeep'⟩ := h₂ ht₂
  exact ⟨ht₃, fun l k hz hz' => (hkeep' l k hz hz').trans (hkeep l k hz hz')⟩

theorem unseen_trans (s : Side) (w₁ w₂ w₃ : World) (h₁ : s.Unseen w₁ w₂) (h₂ : s.Unseen w₂ w₃) :
    s.Unseen w₁ w₃ := by
  intro ht
  obtain ⟨ht₂, hs⟩ := h₁ ht
  obtain ⟨ht₃, hs'⟩ := h₂ ht₂
  exact ⟨ht₃, (same_equivalence s).trans hs hs'⟩

section
variable {s : Side} {plan plan' : Prog.Plan Op Fault} (h : s.Apart) {a a' : RunArgs} (ha : s.Runs a)
  (ha' : s.swap.Runs a') (made made' : Except Raised Made) {w : World} (ht : s.Tame w)
include h ha ha' ht

/-- each job's answer and its files are those of a run without the other, and all else is left -/
theorem weave_runs {r r' : Except Exc JobResult} {w₁ : World}
    (hweave : Prog.Weave s.env.stepRead Op.counts plan plan' (runJob s.env a made) []
      (runJob s.env a' made') [] w r r' w₁) :
    (r = ((runJob s.env a made).alone s.env.stepRead Op.counts plan [] w).1 ∧
      s.Same w₁ ((runJob s.env a made).alone s.env.stepRead Op.counts plan [] w).2.2) ∧
    (r' = ((runJob s.env a' made').alone s.env.stepRead Op.counts plan' [] w).1 ∧
      s.swap.Same w₁ ((runJob s.env a' made').alone s.env.stepRead Op.counts plan' [] w).2.2) ∧
    s.Tame w₁ ∧ ∀ l k, ¬ s.Zone l k → ¬ s.swap.Zone l k → w₁.get l k = w.get l k := by
  have hfixed : s.Fixed plan (fun _ => True) (runJob s.env a made) := fixed_runJob h ha made
  have hfixed' : s.swap.Fixed plan' (fun _ => True) (runJob s.env a' made') :=
    fixed_runJob h.swap ha' made'
  have hp := hfixed w w [] ht ht ((same_equivalence s).refl w)
  have hq := hfixed' w w [] ht.swap ht.swap ((same_equivalence s.swap).refl w)
  have hG' : ∀ w w', s.swap.Moves w w' → s.Unseen w w' := fun w w' hm => hm.unseen h.swap
  have hG : ∀ w w', s.Moves w w' → s.swap.Unseen w w' := fun w w' hm => hm.unseen h
  obtain ⟨⟨h₁, ⟨hr, -⟩, -, -, -, hs⟩, h₂, ⟨hr', -⟩, -, -, -, hs'⟩ :=
    Prog.Weave.amid unseen_refl unseen_refl (unseen_trans s) (unseen_trans s.swap) hG hG' hweave hp hq
  have hby : s.Bystander w w₁ := by
    refine Prog.Weave.moves unseen_refl unseen_refl (unseen_trans s) (unseen_trans s.swap) hG hG'
      (fun w ht => ⟨ht, fun _ _ _ _ => rfl⟩) (bystander_trans s) (fun w w' hm ht => ?_)
      (fun w w' hm ht => ?_) hweave hp hq
    · exact ⟨(hm ht).1, fun l k hz _ => (hm ht).2 l k hz⟩
    · exact ⟨(hm ht.swap).1.swap, fun l k _ hz => (hm ht.swap).2 l k hz⟩
  exact ⟨⟨hr.symm, hs⟩, ⟨hr'.symm, hs'⟩, hby ht⟩

/-- any two interleavings come to the same -/
theorem weaves_agree {r r' r₂ r₂' : Except Exc JobResult} {w₁ w₂ : World}
    (hweave : Prog.Weave s.env.stepRead Op.counts plan plan' (runJob s.env a made) []
      (runJob s.env a' made') [] w r r' w₁)
    (hweave₂ : Prog.Weave s.env.stepRead Op.counts plan plan' (runJob s.env a made) []
      (runJob s.env a' made') [] w r₂ r₂' w₂) :
    r = r₂ ∧ r' = r₂' ∧ ∀ l k, w₁.get l k = w₂.get l k := by
  obtain ⟨⟨hr, hs⟩, ⟨hr', hs'⟩, -, hrest⟩ := weave_runs h ha ha' made made' ht hweave
  obtain ⟨⟨hr₂, hs₂⟩, ⟨hr₂', hs₂'⟩, -, hrest₂⟩ := weave_runs h ha ha' made made' ht hweave₂
  refine ⟨hr.trans hr₂.symm, hr'.trans hr₂'.symm, fun l k => ?_⟩
  by_cases hz : s.Zone l k
  · exact (hs l k hz).trans (hs₂ l k hz).symm
  by_cases hz' : s.swap.Zone l k
  · exact (hs' l k hz').trans (hs₂' l k hz').symm
  · exact (hrest l k hz hz').trans (hrest₂ l k hz hz').symm

/-- **Two runs of different jobs in any interleaving end as one after the other, in either order**:
both answers are those of the job alone, and so are the files. -/
theorem jobs_run_apart {r r' : Except Exc JobResult} {w₁ : World}
    (hweave : Prog.Weave s.env.stepRead Op.counts plan plan' (runJob s.env a made) []
      (runJob s.env a' made') [] w r r' w₁) :
    let first := (runJob s.env a made).alone s.env.stepRead Op.counts plan [] w
    let first' := (runJob s.env a' made').alone s.env.stepRead Op.counts plan' [] w
    let second := (runJob s.env a made).alone s.env.stepRead Op.counts plan [] first'.2.2
    let second' := (runJob s.env a' made').alone s.env.stepRead Op.counts plan' [] first.2.2
    (r = first.1 ∧ r' = first'.1) ∧ (r = second.1 ∧ r' = second'.1) ∧ s.Tame w₁ ∧
      (∀ l k, w₁.get l k = second.2.2.get l k ∧ w₁.get l k = second'.2.2.get l k) := by
  intro first first' second second'
  obtain ⟨⟨hr, -⟩, ⟨hr', -⟩, ht₁, -⟩ := weave_runs h ha ha' made made' ht hweave
  have hone := weaves_agree h ha ha' made made' ht hweave
    (Prog.weave_alone (runJob s.env a made) (runJob s.env a' made') [] [] w)
  have htwo := weaves_agree h ha ha' made made' ht hweave
    (Prog.weave_alone (runJob s.env a' made') (runJob s.env a made) [] [] w).symm
  exact ⟨⟨hr, hr'⟩, ⟨htwo.1, hone.2.1⟩, ht₁, fun l k => ⟨htwo.2.2 l k, hone.2.2 l k⟩⟩

end

/-- two jobs that share the data dir and a prefix of a bucket -/
def sharing : Side where
  env := plainEnv
  jobs := twoJobs "x/".toList "x/".toList
  job := (twoJobs "x/".toList "x/".toList)[0]
  other := (twoJobs "x/".toList "x/".toList)[1]

def sharingRun (job : Job) : RunArgs := scopedRun sharing.jobs job

/-- the whole run of one between the first two operations of the other -/
theorem jobs_run_apart_sharing : ∃ r r' w₁,
    Prog.Weave plainEnv.stepRead Op.counts (fun _ _ => Fault.calm) (fun _ _ => torn)
      (runJob plainEnv (sharingRun sharing.job) (.ok bundle)) []
      (runJob plainEnv (sharingRun sharing.other) (.ok bundle)) [] (worldOf []) r r' w₁ ∧
    r = ((runJob plainEnv (sharingRun sharing.job) (.ok bundle)).alone plainEnv.stepRead Op.counts
      (fun _ _ => Fault.calm) [] (worldOf [])).1 := by
  have hapart : sharing.Apart := by
    refine ⟨List.mem_cons_self, List.mem_cons_of_mem _ List.mem_cons_self, by decide +kernel, ?_⟩
    intro c hc c' hc' hsite
    have hone : ∀ c ∈ sharing.job.offsite ++ sharing.other.offsite, c = ⟨[], "backups".toList, "x/".toList⟩ := by
      decide +kernel
    rw [hone c (List.mem_append_left _ hc), hone c' (List.mem_append_right _ hc')]
    exact ⟨rfl, rfl, fun _ => rfl⟩
  have htame : sharing.Tame (worldOf []) := by
    refine ⟨fun d _ _ p _ hs => ?_, fun q name _ ho => ?_⟩
    · cases d <;> simp [World.get, worldOf, Dest.loc] at hs
    · rw [World.owner_eq_some] at ho
      simp [World.get, worldOf] at ho
  obtain ⟨k, hk⟩ : ∃ k, runJob plainEnv (sharingRun sharing.job) (.ok bundle) = .op Op.mkdirs k :=
    ⟨_, rfl⟩
  obtain ⟨r, r', w₁, hweave⟩ : ∃ r r' w₁,
      Prog.Weave plainEnv.stepRead Op.counts (fun _ _ => Fault.calm) (fun _ _ => torn)
        (runJob plainEnv (sharingRun sharing.job) (.ok bundle)) []
        (runJob plainEnv (sharingRun sharing.other) (.ok bundle)) [] (worldOf []) r r' w₁ := by
    rw [hk]
    exact ⟨_, _, _, .left (Prog.weave_alone (runJob plainEnv (sharingRun sharing.other) (.ok bundle))
      (k _) [] _ _).symm⟩
  exact ⟨r, r', w₁, hweave, (jobs_run_apart hapart ⟨rfl, rfl, rfl⟩ ⟨rfl, rfl, rfl⟩ (.ok bundle)
    (.ok bundle) htame hweave).1.1⟩

end BackupHelper
