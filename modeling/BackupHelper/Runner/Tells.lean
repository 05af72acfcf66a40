import BackupHelper.Runner.Ends

/-!
# What raises shows in the errors of a run

Each step of the runner that answers with errors names there every call that raised in it: a step
without errors had only operations that returned.  The one call that a run passes over is the
writing of its record.

* `Op.fine`            an operation returned, or is the writing of the record;
* `Unharmed`           a step went on and left no error;
* `shows_storePhase`, `shows_runJob`   the steps of the runner, up to the whole run;
* `wp_runJob_fine`     a run that returns without errors has a log of `Op.fine` entries.
-/

namespace BackupHelper
open Text Effects Calendar

/-- the operation returned, or it writes the record, whose failure is passed over -/
def Op.fine (o : Op) (r : Res o) : Prop := o.returned r = true ∨ ∃ x, o = .record x

/-- the step did not raise and left no error -/
def Unharmed {α : Type} (r : Except Exc α × List Str) : Prop := isOk r.1 = true ∧ r.2 = []

section
open Prog

/-- operations that never raise: reads of the data dir that answer with what is there -/
def Op.reads : Op → Prop
  | .glob _ => True
  | .isThere _ => True
  | .readMarker _ => True
  | _ => False

theorem Op.reads.fine {o : Op} (h : o.reads) (r : Res o) : o.fine r := by
  cases o <;> first | exact h.elim | exact Or.inl rfl

/-- one operation that answers with what it raised -/
theorem shows_op {o : Op} {clean : Res o → Prop} (h : ∀ r, clean r → o.returned r = true) :
    (Prog.op o Prog.ret : M (Res o)).Shows Op.fine clean :=
  fun r => ⟨fun hf hc => hf (Or.inl (h r hc)), trivial⟩

variable {env : Env}

theorem shows_buildDestinations (specs : List DestinationSpec) :
    (buildDestinations env specs).Shows Op.fine (fun r => r.2 = []) := by
  induction specs with
  | nil => trivial
  | cons spec specs ih =>
    cases spec with
    | «local» => exact ih.bind (fun r hr => hr) fun r => trivial
    | s3 c =>
      unfold buildDestinations
      split
      · exact ih
      · have hbuild : (build c).Shows Op.fine (fun r => isOk r = true) := shows_op fun r h => h
        refine hbuild.bind (fun r hr => ?_) fun r => ?_
        · refine Answers.after fun r' => ?_
          cases r with
          | ok u => exact absurd rfl hr
          | error e => exact List.cons_ne_nil _ _
        · refine ih.bind (fun r' hr' => ?_) fun r' => ?_
          · cases r with
            | ok u => exact hr'
            | error e => exact List.cons_ne_nil _ _
          · cases r <;> trivial

theorem shows_put (d : Dest) (key : Str) (src : Src) :
    (put d key src).Shows Op.fine (fun r => isOk r = true) := shows_op fun _ h => h

theorem shows_unlink (name : Str) : (unlink name).Shows Op.fine (fun r => isOk r = true) :=
  shows_op fun _ h => h

theorem shows_uploadTo (d : Dest) (artifact : Artifact) (sidecar : Src) (sid : Str) :
    (uploadTo d artifact sidecar sid).Shows Op.fine (fun r => isOk r = true) := by
  refine (shows_put _ _ _).bind (fun r hr => ?_) fun r => ?_
  · cases r with
    | ok u => exact absurd rfl hr
    | error e => exact hr
  · cases r with
    | ok u => exact shows_put _ _ _
    | error e => trivial

theorem shows_upload (artifact : Artifact) (sidecar : Src) (sid : Str) (dests : List Dest) :
    (upload artifact sidecar sid dests).Shows Op.fine (fun r => r.2 = []) := by
  induction dests with
  | nil => trivial
  | cons d dests ih =>
    refine (shows_uploadTo _ _ _ _).bind (fun r hr => ?_) fun r => ?_
    · refine Answers.after fun r' => ?_
      cases r with
      | ok u => exact absurd rfl hr
      | error e => exact List.cons_ne_nil _ _
    · refine ih.bind (fun r' hr' => ?_) fun r' => ?_
      · cases r with
        | ok u => exact hr'
        | error e => exact List.cons_ne_nil _ _
      · cases r <;> trivial

/-- each destination stored both or left an error -/
theorem answers_upload (artifact : Artifact) (sidecar : Src) (sid : Str) (dests : List Dest) :
    (upload artifact sidecar sid dests).Answers
      (fun r => r.1.length + r.2.length = dests.length) := by
  induction dests with
  | nil => rfl
  | cons d dests ih =>
    refine Answers.after fun r => ih.bind fun r' hr' => ?_
    cases r with
    | ok u =>
      show (d :: r'.1).length + r'.2.length = (d :: dests).length
      simp only [List.length_cons]
      omega
    | error e =>
      show r'.1.length + (_ :: r'.2).length = (d :: dests).length
      simp only [List.length_cons]
      omega

theorem shows_deliver (job : Job) (artifact : Artifact) (sidecar : Src) (sid : Str) :
    (deliver env job artifact sidecar sid).Shows Op.fine (fun r => r.2 = []) := by
  refine (shows_buildDestinations _).bind (fun r hr => ?_) fun r => ?_
  · dsimp only
    generalize (if r.1 = [] ∧ r.2 = [] then [Dest.local] else r.1) = destinations
    refine Answers.after fun r' => ?_
    split
    · refine Answers.after fun r'' => fun h => hr ?_
      exact (List.append_eq_nil_iff.mp (List.append_eq_nil_iff.mp
        (List.append_eq_nil_iff.mp h).1).1).1
    · exact fun h => hr (List.append_eq_nil_iff.mp h).1
  · dsimp only
    generalize (if r.1 = [] ∧ r.2 = [] then [Dest.local] else r.1) = destinations
    refine (shows_upload _ _ _ _).bind (fun r' hr' => ?_) fun r' => ?_
    · split
      · refine Answers.after fun r'' => fun h => hr' ?_
        exact (List.append_eq_nil_iff.mp (List.append_eq_nil_iff.mp
          (List.append_eq_nil_iff.mp h).1).1).2
      · exact fun h => hr' (List.append_eq_nil_iff.mp h).2
    · split
      · refine (shows_upload _ _ _ _).bind (fun r'' hr'' => fun h => hr'' ?_) fun r'' => trivial
        exact (List.append_eq_nil_iff.mp (List.append_eq_nil_iff.mp h).1).2
      · trivial

/-! ## off-site copies -/

theorem reads_readOwners (markers : List Str) : (readOwners markers).Only Op.reads := by
  induction markers with
  | nil => trivial
  | cons marker markers ih =>
    refine Only.bind (only_op trivial) fun owner => ih.bind fun owners => ?_
    split <;> trivial

theorem reads_pendingOwners : pendingOwners.Only Op.reads :=
  Only.bind (only_op trivial) fun markers => reads_readOwners markers

theorem reads_pendingIds (jobName : Str) : (pendingIds jobName).Only Op.reads :=
  reads_pendingOwners.bind fun _ => trivial

theorem shows_of_reads {α : Type} {p : M α} (h : p.Only Op.reads) (clean : α → Prop) :
    p.Shows Op.fine clean :=
  Only.shows (fun _ ho => ho.fine) h

theorem shows_orRaise {p : M (Except Exc Unit)} {q : M (Except Exc Unit × List Str)}
    (hp : p.Shows Op.fine (fun r => isOk r = true)) (hq : q.Shows Op.fine Unharmed) :
    (orRaise p q).Shows Op.fine Unharmed := by
  refine hp.bind (fun r hr => ?_) fun r => ?_
  · cases r with
    | ok u => exact absurd rfl hr
    | error e => exact fun h => hr h.1
  · cases r with
    | ok u => exact hq
    | error e => trivial

theorem shows_shipPending (keepsLocal : Bool) (offsite : List Dest) (ids : List Str) :
    (shipPending keepsLocal offsite ids).Shows Op.fine Unharmed := by
  induction ids with
  | nil => trivial
  | cons q ids ih =>
    have hread : (findArtifact q).Only Op.reads := Only.bind (only_op trivial) fun _ => trivial
    have hthere : (isThere (q ++ manifestSuffix)).Only Op.reads := only_op trivial
    refine (shows_of_reads hread fun _ => True).bind (fun _ h => absurd trivial h) fun artifact => ?_
    refine (shows_of_reads hthere fun _ => True).bind (fun _ h => absurd trivial h) fun there => ?_
    split
    · refine ((shows_upload _ _ _ _).sharpen (answers_upload _ _ _ _)).bind (fun r hr => ?_) fun r => ?_
      · dsimp only
        split
        · refine Answers.after fun r' => fun h => (Classical.not_imp.mp hr).2 ?_
          exact List.map_eq_nil_iff.mp (List.append_eq_nil_iff.mp h.2).1
        · rename_i hlt
          have hlen := (Classical.not_imp.mp hr).1
          have hne := List.length_pos_iff.mpr (Classical.not_imp.mp hr).2
          omega
      · dsimp only
        split
        · refine ih.bind (fun r' hr' => fun h => hr' ⟨h.1, ?_⟩) fun r' => trivial
          exact (List.append_eq_nil_iff.mp h.2).2
        · refine shows_orRaise (shows_unlink _) ?_
          split
          · exact ih
          · exact shows_orRaise (shows_unlink _) (shows_orRaise (shows_unlink _) ih)
    · exact shows_orRaise (shows_unlink _) ih

theorem shows_trackOffsite (job : Job) (sid : Str) (delivery : Delivery) :
    (trackOffsite job sid delivery).Shows Op.fine Unharmed := by
  have hwrite : ∀ name j, (writeMarker name j).Shows Op.fine (fun r => isOk r = true) :=
    fun name j => shows_op fun _ h => h
  unfold trackOffsite
  dsimp only
  split
  · split
    · exact shows_orRaise (hwrite _ _) trivial
    · trivial
  · refine (shows_of_reads (reads_pendingIds _) fun _ => True).bind (fun _ h => absurd trivial h)
      fun pending => ?_
    exact shows_shipPending _ _ _

theorem shows_maybeDropLocal (job : Job) (artifactName sid : Str) (stored : List Dest) :
    (maybeDropLocal job artifactName sid stored).Shows Op.fine Unharmed := by
  unfold maybeDropLocal
  split
  · trivial
  · split
    · trivial
    · split
      · trivial
      · exact shows_orRaise (shows_unlink _) (shows_orRaise (shows_unlink _) trivial)

/-! ## retention -/

theorem shows_deleteKeys (dest : Dest) (keys : List Str) :
    (deleteKeys dest keys).Shows Op.fine (fun r => isOk r = true) := by
  induction keys with
  | nil => trivial
  | cons key keys ih =>
    have hdelete : (delete dest key).Shows Op.fine (fun r => isOk r = true) := shows_op fun _ h => h
    refine hdelete.bind (fun r hr => ?_) fun r => ?_
    · cases r with
      | ok u => exact absurd rfl hr
      | error e => exact hr
    · cases r with
      | ok u => exact ih
      | error e => trivial

theorem shows_listKeys (dest : Dest) (pfx : Str) :
    (listKeys dest pfx).Shows Op.fine (fun r => isOk r = true) := shows_op fun _ h => h

theorem shows_pruneIds (dest : Dest) (ids : List Str) :
    (pruneIds dest ids).Shows Op.fine (fun r => isOk r = true) := by
  induction ids with
  | nil => trivial
  | cons q ids ih =>
    refine (shows_listKeys _ _).bind (fun r hr => ?_) fun r => ?_
    · cases r with
      | ok keys => exact absurd rfl hr
      | error e => exact hr
    · cases r with
      | error e => trivial
      | ok keys =>
        refine (shows_deleteKeys _ _).bind (fun r hr => ?_) fun r => ?_
        · cases r with
          | ok u => exact absurd rfl hr
          | error e => exact hr
        · cases r with
          | ok u => exact ih
          | error e => trivial

theorem shows_applyRetention (cfg : RetentionConfig) (now : Datetime) (scope : SnapshotScope)
    (only : Option (List Str)) (dest : Dest) :
    (applyRetention env cfg now scope only dest).Shows Op.fine (fun r => r = []) := by
  have hmarked : (markedFor dest).Only Op.reads := by
    unfold markedFor
    split
    · exact reads_pendingOwners
    · trivial
  have hpass : (retentionPass env dest cfg now scope only).Shows Op.fine (fun r => isOk r = true) := by
    refine (shows_of_reads hmarked fun _ => True).bind (fun _ h => absurd trivial h) fun marked => ?_
    refine (shows_listKeys _ _).bind (fun r hr => ?_) fun r => ?_
    · cases r with
      | ok keys => exact absurd rfl hr
      | error e => exact hr
    · cases r with
      | error e => trivial
      | ok keys =>
        dsimp only
        split
        · trivial
        · exact shows_pruneIds _ _
  refine hpass.bind (fun r hr => ?_) fun r => ?_
  · cases r with
    | ok u => exact absurd rfl hr
    | error e => exact List.cons_ne_nil _ _
  · cases r <;> trivial

theorem shows_applyRetentions (cfg : RetentionConfig) (now : Datetime) (scope : SnapshotScope)
    (dests : List Dest) :
    (applyRetentions env cfg now scope dests).Shows Op.fine (fun r => r = []) := by
  induction dests with
  | nil => trivial
  | cons d dests ih =>
    refine (shows_applyRetention _ _ _ _ _).bind (fun errors he => ?_) fun errors => ?_
    · exact Answers.after fun more => fun h => he (List.append_eq_nil_iff.mp h).1
    · exact ih.bind (fun more hm => fun h => hm (List.append_eq_nil_iff.mp h).2) fun more => trivial

theorem shows_fallbackRetention (job : Job) (now : Datetime) (scope : SnapshotScope)
    (fallback : Option Dest) :
    (fallbackRetention env job now scope fallback).Shows Op.fine (fun r => r = []) := by
  cases fallback with
  | none => trivial
  | some d =>
    refine (shows_of_reads (reads_pendingIds _) fun _ => True).bind (fun _ h => absurd trivial h)
      fun pending => ?_
    exact shows_applyRetention _ _ _ _ _

/-! ## the run -/

theorem shows_storePhase (job : Job) (scope : SnapshotScope) (now : Datetime) (artifact : Artifact)
    (sidecar : Src) (sid : Str) :
    (storePhase env job scope now artifact sidecar sid).Shows Op.fine Unharmed := by
  refine (shows_deliver _ _ _ _).bind (fun r hr => ?_) fun r => ?_
  · -- the errors of the delivery come first in every answer
    have hdelivered : ∀ more, (if r.1.stored = [] then r.2 ++ [notStoredText] else r.2) ++ more ≠ [] := by
      intro more h
      have hnil := (List.append_eq_nil_iff.mp h).1
      split at hnil
      · exact hr (List.append_eq_nil_iff.mp hnil).1
      · exact hr hnil
    refine Answers.after fun r' => ?_
    obtain ⟨tracked, tracking⟩ := r'
    cases tracked with
    | error e => exact fun h => hdelivered _ h.2
    | ok u =>
      refine Answers.after fun pruning => Answers.after fun fallback => Answers.after fun dropped => ?_
      intro h
      have herrors := h.2
      simp only [List.append_assoc] at herrors
      exact hdelivered _ herrors
  · refine (shows_trackOffsite _ _ _).bind (fun r' hr' => ?_) fun r' => ?_
    · obtain ⟨tracked, tracking⟩ := r'
      cases tracked with
      | error e => exact fun h => Bool.false_ne_true h.1
      | ok u =>
        refine Answers.after fun pruning => Answers.after fun fallback => Answers.after fun dropped => ?_
        intro h
        refine hr' ⟨rfl, ?_⟩
        have herrors := h.2
        simp only [List.append_eq_nil_iff] at herrors
        exact herrors.1.1.1.2
    · obtain ⟨tracked, tracking⟩ := r'
      cases tracked with
      | error e => trivial
      | ok u =>
        refine (shows_applyRetentions _ _ _ _).bind (fun pruning hp => ?_) fun pruning => ?_
        · refine Answers.after fun fallback => Answers.after fun dropped => ?_
          intro h
          have herrors := h.2
          simp only [List.append_eq_nil_iff] at herrors
          exact hp herrors.1.1.2
        · refine (shows_fallbackRetention _ _ _ _).bind (fun fallback hf => ?_) fun fallback => ?_
          · refine Answers.after fun dropped => ?_
            intro h
            have herrors := h.2
            simp only [List.append_eq_nil_iff] at herrors
            exact hf herrors.1.2
          · refine (shows_maybeDropLocal _ _ _ _).bind (fun dropped hd => ?_) fun dropped => trivial
            intro h
            have herrors := h.2
            simp only [List.append_eq_nil_iff] at herrors
            obtain ⟨result, dropping⟩ := dropped
            cases result with
            | error e => exact Bool.false_ne_true h.1
            | ok u => exact hd ⟨rfl, herrors.2⟩

/-- the run returned, and its result shows no error -/
def Spotless (r : Except Exc JobResult) : Prop := ∃ result, r = .ok result ∧ result.errors = []

theorem answers_abort (a : RunArgs) (r : Raised) : (abort a r).Answers (fun r => ¬ Spotless r) := by
  rcases abort_cases a r with he | ⟨e, he⟩
  swap
  · rw [he]
    exact fun ⟨_, h, _⟩ => by cases h
  rw [he]
  refine Answers.after fun _ => ?_
  split
  · exact Answers.after fun _ => fun ⟨_, h, _⟩ => by cases h
  · exact fun ⟨_, h, _⟩ => by cases h

theorem shows_ifHooks (a : RunArgs) (phase : Str) :
    (ifHooks a phase).Shows Op.fine (fun r => isOk r = true) := by
  unfold ifHooks
  split
  · exact shows_op fun _ h => h
  · trivial

theorem shows_finish (a : RunArgs) (made : Made) (manifest : Manifest) (delivery : Delivery)
    (errors : List Str) : (finish a made manifest delivery errors).Shows Op.fine Spotless := by
  have hthere : ∀ name, (isThere name).Only Op.reads := fun name => only_op trivial
  have hrecord : ∀ st, (recordState a st made.components).Only (fun o => ∃ x, o = .record x) :=
    fun st => only_op ⟨_, rfl⟩
  have hnotify : ∀ e, (ifNotifier a e).Shows Op.fine (fun r => isOk r = true) := by
    intro e
    unfold ifNotifier
    split
    · exact shows_op fun _ h => h
    · trivial
  refine (shows_of_reads (hthere _) fun _ => True).bind (fun _ h => absurd trivial h) fun there => ?_
  have hrec : ∀ st, (recordState a st made.components).Shows Op.fine (fun _ => True) :=
    fun st => Only.shows (fun _ ho r => Or.inr ho) (hrecord st)
  refine (hrec _).bind (fun _ h => absurd trivial h) fun _ => ?_
  refine (hnotify _).bind (fun r hr => ?_) fun r => ?_
  · cases r with
    | ok u => exact absurd rfl hr
    | error e => exact fun ⟨_, h, _⟩ => by cases h
  · cases r with
    | error e => trivial
    | ok u =>
      refine (shows_ifHooks _ _).bind (fun r hr => ?_) fun r => ?_
      · cases r with
        | ok u => exact absurd rfl hr
        | error e => exact fun ⟨_, h, _⟩ => by cases h
      · cases r <;> trivial

theorem answers_finish (a : RunArgs) (made : Made) (manifest : Manifest) (delivery : Delivery)
    (errors : List Str) :
    (finish a made manifest delivery errors).Answers (fun r => ∀ result, r = .ok result →
      result.errors = errors) := by
  refine Answers.after fun there => Answers.after fun _ => Answers.after fun r => ?_
  cases r with
  | error e => exact fun result h => by cases h
  | ok u =>
    refine Answers.after fun r => ?_
    cases r with
    | error e => exact fun result h => by cases h
    | ok u => exact fun result h => by rw [← Except.ok.inj h]

theorem shows_runJob (a : RunArgs) (made : Except Raised Made) :
    (runJob env a made).Shows Op.fine Spotless := by
  have hmk : mkdirs.Shows Op.fine (fun r => isOk r = true) := shows_op fun _ h => h
  refine hmk.bind (fun r hr => ?_) fun r => ?_
  · cases r with
    | ok u => exact absurd rfl hr
    | error e => exact fun ⟨_, h, _⟩ => by cases h
  cases r with
  | error e => trivial
  | ok u =>
    refine (shows_ifHooks _ _).bind (fun r hr => ?_) fun r => ?_
    · cases r with
      | ok u => exact absurd rfl hr
      | error e => exact answers_abort _ _
    cases r with
    | error e => exact (answers_abort _ _).shows
    | ok u =>
      cases made with
      | error raised => exact (answers_abort _ _).shows
      | ok made =>
        refine (shows_storePhase _ _ _ _ _ _).bind (fun r hr => ?_) fun r => ?_
        · obtain ⟨r, errors⟩ := r
          cases r with
          | error e => exact answers_abort _ _
          | ok delivery =>
            refine (answers_finish _ _ _ _ _).mono fun r hall => ?_
            rintro ⟨result, rfl, hnil⟩
            rw [hall result rfl] at hnil
            exact hr ⟨rfl, (List.append_eq_nil_iff.mp hnil).2⟩
        · obtain ⟨r, errors⟩ := r
          cases r with
          | error e => exact (answers_abort _ _).shows
          | ok delivery => exact shows_finish _ _ _ _ _

/-- an entry of the log whose operation returned, or wrote the record -/
def FineEntry (e : Op × Bool) : Prop := e.2 = true ∨ ∃ x, e.1 = .record x

/-- an operation itself notes nothing -/
theorem effect_log (env : Env) (o : Op) (f : Fault) (w : World) : (env.effect o f w).2.log = w.log := by
  have hstoring : o.storing → (env.effect o f w).2.log = w.log :=
    fun h => (report_effect env f w h).2.2
  cases o with
  | mkdirs => rfl
  | hook p => rfl
  | record r => cases f <;> rfl
  | notify e => cases f <;> rfl
  | _ => exact hstoring trivial

/-- the log grows by each operation -/
theorem grew_step {P : Op × Bool → Prop} (o : Op) (f : Fault) (w : World)
    (h : P (o, o.returned (env.step o f w).1)) : Grew P w (env.step o f w).2 := by
  refine ⟨[(o, o.returned (env.step o f w).1)], ?_, fun e he => ?_⟩
  · show _ ++ _ = _
    rw [effect_log]
    rfl
  · rw [List.mem_singleton.mp he]
    exact h

/-- **A run that returns without errors** performed no operation that raised, but for the writing of
its record. -/
theorem wp_runJob_fine (a : RunArgs) (made : Except Raised Made) (w : World) :
    (runJob env a made).wp env.step (fun _ _ => True)
      (fun r w' => Spotless r → Grew FineEntry w w') w := by
  refine (shows_runJob a made).wp (fun o f w₁ h hf => ?_) (Grew.refl _ w)
  exact h.trans (grew_step o f w₁ hf)

end
end BackupHelper
