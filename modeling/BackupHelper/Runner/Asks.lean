import BackupHelper.Runner.Tells

/-!
# What a run may ask of the stores

Whatever the operations answer, a run puts its own archive and manifest or copies a file of the data
dir under its name, and it puts and deletes at the places of its job only.

* `Asks`           such an operation;
* `asks_runJob`    **every operation of a run is one of these**.
-/

set_option linter.unusedSectionVars false

namespace BackupHelper
open Text Effects Calendar Prog

section
variable {env : Env} {job : Job} {artifact : Artifact} {sidecar : Src} {sid : Str}

variable (job artifact sidecar sid) in
def Asks : Op → Prop
  | .put d key src => d ∈ places job ∧ (src = .data key ∨ (key = artifact.name ∧ src = artifact.src) ∨
      (key = sid ++ manifestSuffix ∧ src = sidecar))
  | .delete d _ => d ∈ places job
  | .writeMarker name owner => name = sid ++ pendingSuffix ∧ owner = job.name
  | _ => True

theorem asks_of_reads {α : Type} {p : M α} (hp : p.Only Op.reads) : p.Only (Asks job artifact sidecar sid) := by
  apply hp.mono
  intro o ho
  cases o with
  | glob pat => trivial
  | isThere name => trivial
  | readMarker name => trivial
  | _ => exact ho.elim

/-! ## delivery -/

theorem asks_build (specs : List DestinationSpec) :
    (buildDestinations env specs).Only (Asks job artifact sidecar sid) := by
  induction specs with
  | nil => trivial
  | cons spec specs ih =>
    cases spec with
    | «local» => exact ih.bind fun r => trivial
    | s3 c =>
      unfold buildDestinations
      split
      · exact ih
      · refine Only.bind (only_op trivial) fun built => ih.bind fun r => ?_
        cases built <;> trivial

/-- what is built is configured -/
theorem within_build (specs : List DestinationSpec) :
    (buildDestinations env specs).Answers fun r => ∀ d ∈ r.1, d ∈ specDests specs := by
  induction specs with
  | nil => exact fun d hd => hd
  | cons spec specs ih =>
    cases spec with
    | «local» =>
      refine Answers.bind ih fun r hr d hd => ?_
      rcases List.mem_cons.mp hd with rfl | hd
      · exact List.mem_cons_self
      · exact List.mem_cons_of_mem _ (hr d hd)
    | s3 c =>
      unfold buildDestinations
      by_cases hb : c.bucket = []
      · have hspecs : specDests (.s3 c :: specs) = specDests specs := by
          simp [specDests, DestinationSpec.dest?, hb]
        rw [if_pos hb, hspecs]
        exact ih
      · have hspecs : specDests (.s3 c :: specs) = .s3 c :: specDests specs := by
          simp [specDests, DestinationSpec.dest?, hb]
        rw [if_neg hb, hspecs]
        refine Answers.after fun built => Answers.bind ih fun r hr => ?_
        cases built with
        | error e => exact fun d hd => List.mem_cons_of_mem _ (hr d hd)
        | ok u =>
          intro d hd
          rcases List.mem_cons.mp hd with rfl | hd
          · exact List.mem_cons_self
          · exact List.mem_cons_of_mem _ (hr d hd)

/-- the upload of some archive and manifest -/
theorem asks_upload {a : Artifact} {s : Src} {q : Str} {dests : List Dest}
    (hput : ∀ d ∈ dests, Asks job artifact sidecar sid (.put d a.name a.src) ∧
      Asks job artifact sidecar sid (.put d (q ++ manifestSuffix) s)) :
    (upload a s q dests).Only (Asks job artifact sidecar sid) := by
  induction dests with
  | nil => trivial
  | cons d dests ih =>
    obtain ⟨harchive, hmanifest⟩ := hput d List.mem_cons_self
    have hone : (uploadTo d a s q).Only (Asks job artifact sidecar sid) := by
      refine Only.bind (only_op harchive) fun r => ?_
      cases r with
      | error e => trivial
      | ok u => exact only_op hmanifest
    refine hone.bind fun r => (ih fun d' hd' => hput d' (List.mem_cons_of_mem _ hd')).bind fun r' => ?_
    cases r <;> trivial

theorem within_upload (a : Artifact) (s : Src) (q : Str) (dests : List Dest) :
    (upload a s q dests).Answers fun r => ∀ d ∈ r.1, d ∈ dests := by
  induction dests with
  | nil => exact fun d hd => hd
  | cons d dests ih =>
    refine Answers.after fun r => Answers.bind ih fun r' hr' => ?_
    cases r with
    | error e => exact fun x hx => List.mem_cons_of_mem _ (hr' x hx)
    | ok u =>
      intro x hx
      rcases List.mem_cons.mp hx with rfl | hx
      · exact List.mem_cons_self
      · exact List.mem_cons_of_mem _ (hr' x hx)

/-- the delivery is at the places of the job -/
def Delivery.Within (job : Job) (d : Delivery) : Prop :=
  (∀ x ∈ d.destinations, x ∈ places job) ∧ (∀ x ∈ d.stored, x ∈ places job) ∧
    ∀ x ∈ d.fallback, x ∈ places job

theorem asks_own {dests : List Dest} (hd : ∀ d ∈ dests, d ∈ places job) :
    (upload artifact sidecar sid dests).Only (Asks job artifact sidecar sid) :=
  asks_upload fun d hmem => ⟨⟨hd d hmem, Or.inr (Or.inl ⟨rfl, rfl⟩)⟩, hd d hmem, Or.inr (Or.inr ⟨rfl, rfl⟩)⟩

theorem asks_deliver : (deliver env job artifact sidecar sid).Only (Asks job artifact sidecar sid) ∧
    (deliver env job artifact sidecar sid).Answers fun r => r.1.Within job := by
  have hlocal : ∀ d ∈ [Dest.local], d ∈ places job := by
    intro d hd
    rw [List.mem_singleton.mp hd]
    exact List.mem_cons_self
  have hall : ∀ r : List Dest × List Str, (∀ d ∈ r.1, d ∈ specDests job.destinations) →
      ∀ d ∈ (if r.1 = [] ∧ r.2 = [] then [Dest.local] else r.1), d ∈ places job := by
    intro r hr d hd
    by_cases hb : r.1 = [] ∧ r.2 = []
    · rw [if_pos hb] at hd
      exact hlocal d hd
    · rw [if_neg hb] at hd
      exact List.mem_cons_of_mem _ (hr d hd)
  constructor
  · refine (asks_build _).bind_of (within_build _) fun r hr => ?_
    have hd := hall r hr
    dsimp only
    generalize (if r.1 = [] ∧ r.2 = [] then [Dest.local] else r.1) = destinations at hd ⊢
    refine (asks_own hd).bind fun r' => ?_
    split
    · exact (asks_own hlocal).bind fun r'' => Only.pure _
    · exact Only.pure _
  · refine Answers.bind (within_build _) fun r hr => ?_
    have hd := hall r hr
    dsimp only
    generalize (if r.1 = [] ∧ r.2 = [] then [Dest.local] else r.1) = destinations at hd ⊢
    refine Answers.bind (within_upload _ _ _ _) fun r' hr' => ?_
    split
    · refine Answers.bind (within_upload _ _ _ _) fun r'' hr'' => ?_
      exact ⟨hd, fun x hx => hlocal x (hr'' x hx), fun x hx => hlocal x (by simpa using hx.symm)⟩
    · exact ⟨hd, fun x hx => hd x (hr' x hx), fun x hx => by cases hx⟩

/-! ## off-site copies -/

theorem asks_unlink (name : Str) : (unlink name).Only (Asks job artifact sidecar sid) := only_op trivial

theorem asks_shipPending (keepsLocal : Bool) {offsite : List Dest} (hoff : ∀ d ∈ offsite, d ∈ places job)
    (ids : List Str) : (shipPending keepsLocal offsite ids).Only (Asks job artifact sidecar sid) := by
  induction ids with
  | nil => trivial
  | cons q ids ih =>
    have hfind : (findArtifact q).Only (Asks job artifact sidecar sid) :=
      Only.bind (only_op trivial) fun found => trivial
    refine hfind.bind fun a => Only.bind (only_op trivial) fun there => ?_
    split
    · refine (asks_upload fun d hd => ⟨⟨hoff d hd, Or.inl rfl⟩, hoff d hd, Or.inl rfl⟩).bind fun r => ?_
      dsimp only
      split
      · exact ih.bind fun r' => trivial
      · refine only_orRaise (asks_unlink _) ?_
        split
        · exact ih
        · exact only_orRaise (asks_unlink _) (only_orRaise (asks_unlink _) ih)
    · exact only_orRaise (asks_unlink _) ih

theorem asks_trackOffsite {delivery : Delivery} (hd : delivery.Within job) :
    (trackOffsite job sid delivery).Only (Asks job artifact sidecar sid) := by
  unfold trackOffsite
  dsimp only
  split
  · split
    · exact only_orRaise (only_op ⟨rfl, rfl⟩) trivial
    · trivial
  · refine (asks_of_reads (reads_pendingIds _)).bind fun pending => asks_shipPending _ (fun d hmem => ?_) _
    exact hd.2.1 d (List.mem_filter.mp hmem).1

theorem asks_maybeDropLocal (name q : Str) (stored : List Dest) :
    (maybeDropLocal job name q stored).Only (Asks job artifact sidecar sid) := by
  unfold maybeDropLocal
  split
  · trivial
  · split
    · trivial
    · split
      · trivial
      · exact only_orRaise (asks_unlink _) (only_orRaise (asks_unlink _) trivial)

/-! ## retention -/

theorem asks_deleteKeys {d : Dest} (hd : d ∈ places job) (keys : List Str) :
    (deleteKeys d keys).Only (Asks job artifact sidecar sid) := by
  induction keys with
  | nil => trivial
  | cons key keys ih =>
    refine Only.bind (only_op hd) fun r => ?_
    cases r with
    | error e => trivial
    | ok u => exact ih

theorem asks_pruneIds {d : Dest} (hd : d ∈ places job) (ids : List Str) :
    (pruneIds d ids).Only (Asks job artifact sidecar sid) := by
  induction ids with
  | nil => trivial
  | cons q ids ih =>
    refine Only.bind (only_op trivial) fun r => ?_
    cases r with
    | error e => trivial
    | ok keys =>
      refine (asks_deleteKeys hd _).bind fun r' => ?_
      cases r' with
      | error e => trivial
      | ok u => exact ih

theorem asks_applyRetention {d : Dest} (hd : d ∈ places job) (cfg : RetentionConfig) (now : Datetime)
    (scope : SnapshotScope) (only : Option (List Str)) :
    (applyRetention env cfg now scope only d).Only (Asks job artifact sidecar sid) := by
  have hmarked : (markedFor d).Only (Asks job artifact sidecar sid) := by
    unfold markedFor
    split
    · exact asks_of_reads reads_pendingOwners
    · trivial
  refine Only.bind (hmarked.bind fun marked => Only.bind (only_op trivial) fun r => ?_) fun r => ?_
  · cases r with
    | error e => trivial
    | ok keys =>
      dsimp only
      split
      · trivial
      · exact asks_pruneIds hd _
  · cases r <;> trivial

theorem asks_applyRetentions {dests : List Dest} (hd : ∀ d ∈ dests, d ∈ places job)
    (cfg : RetentionConfig) (now : Datetime) (scope : SnapshotScope) :
    (applyRetentions env cfg now scope dests).Only (Asks job artifact sidecar sid) := by
  induction dests with
  | nil => trivial
  | cons d dests ih =>
    exact (asks_applyRetention (hd d List.mem_cons_self) _ _ _ _).bind fun errors =>
      (ih fun d' hd' => hd d' (List.mem_cons_of_mem _ hd')).bind fun more => trivial

theorem asks_storePhase (scope : SnapshotScope) (now : Datetime) :
    (storePhase env job scope now artifact sidecar sid).Only (Asks job artifact sidecar sid) := by
  refine asks_deliver.1.bind_of asks_deliver.2 fun r hr => ?_
  refine (asks_trackOffsite hr).bind fun r' => ?_
  dsimp only
  split
  · trivial
  · refine (asks_applyRetentions hr.1 _ _ _).bind fun pruning => Only.bind ?_ fun fallback => ?_
    · cases hf : r.1.fallback with
      | none => trivial
      | some d =>
        exact (asks_of_reads (reads_pendingIds _)).bind fun pending =>
          asks_applyRetention (hr.2.2 d hf) _ _ _ _
    · exact (asks_maybeDropLocal _ _ _).bind fun dropped => trivial

end

/-! ## the run -/

section
variable {env : Env} {artifact : Artifact} {sidecar : Src} {sid : Str}

theorem asks_abort {job : Job} (a : RunArgs) (r : Raised) :
    (abort a r).Only (Asks job artifact sidecar sid) := by
  rcases abort_cases a r with he | ⟨e, he⟩
  swap
  · rw [he]
    trivial
  rw [he]
  refine Only.bind (only_op trivial) fun _ => ?_
  split
  · exact Only.bind (only_op trivial) fun _ => trivial
  · trivial

theorem asks_ifHooks {job : Job} (a : RunArgs) (phase : Str) :
    (ifHooks a phase).Only (Asks job artifact sidecar sid) := by
  unfold ifHooks
  split
  · exact only_op trivial
  · trivial

theorem asks_finish {job : Job} (a : RunArgs) (made : Made) (m : Manifest) (delivery : Delivery)
    (errors : List Str) : (finish a made m delivery errors).Only (Asks job artifact sidecar sid) := by
  have hnotify : ∀ e, (ifNotifier a e).Only (Asks job artifact sidecar sid) := by
    intro e
    unfold ifNotifier
    split
    · exact only_op trivial
    · trivial
  refine Only.bind (only_op trivial) fun there => Only.bind (only_op trivial) fun _ => (hnotify _).bind fun r => ?_
  cases r with
  | error e => trivial
  | ok u =>
    refine (asks_ifHooks a _).bind fun r' => ?_
    cases r' <;> trivial

/-- **What a run asks of the stores**, whatever they answer. -/
theorem asks_runJob (a : RunArgs) (made : Made) :
    (runJob env a (.ok made)).Only
      (Asks a.job (a.artifact made) (.work (.manifest (a.manifest env made))) a.sid) := by
  refine Only.bind (only_op trivial) fun r => ?_
  cases r with
  | error e => trivial
  | ok u =>
    refine (asks_ifHooks a _).bind fun r' => ?_
    cases r' with
    | error e => exact asks_abort a _
    | ok u =>
      refine (asks_storePhase _ _).bind fun r'' => ?_
      dsimp only
      split
      · exact asks_abort a _
      · exact asks_finish a _ _ _ _

end
end BackupHelper
