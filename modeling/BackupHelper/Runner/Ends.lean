import BackupHelper.Runner.Names

/-!
# How a run ends

A run is refused a work dir, or aborts, or finishes and then reports: `runEnd` is `runJob` with an
answer that tells these ends apart (`runJob_eq`).

* `Op.storing`    the operations between the two hooks; they report nothing (`storing_wp`);
* `Took`          the destinations that took archive and sidecar, by the log;
* `EndedAs`         what a run has handed to the notifier and recorded, by how it ended;
* `wp_runEnd`     every run ends so.
-/

set_option linter.unusedSectionVars false

namespace BackupHelper
open Text Glob Effects Calendar

/-! ## operations that report nothing -/

/-- no hook, no report, and not the making of the work dir -/
def Op.storing : Op → Prop
  | .mkdirs => False
  | .hook _ => False
  | .record _ => False
  | .notify _ => False
  | _ => True

/-- nothing was reported, and the log grew by storing operations only -/
structure Unreported (w w' : World) : Prop where
  alerts : w'.alerts = w.alerts
  runs : w'.runs = w.runs
  log : ∃ es, w'.log = w.log ++ es ∧ ∀ e ∈ es, e.1.storing

theorem Unreported.refl (w : World) : Unreported w w := ⟨rfl, rfl, [], by simp, by simp⟩

theorem Unreported.trans {w₁ w₂ w₃ : World} (h : Unreported w₁ w₂) (h' : Unreported w₂ w₃) : Unreported w₁ w₃ := by
  obtain ⟨ha, hr, es, hl, he⟩ := h
  obtain ⟨ha', hr', es', hl', he'⟩ := h'
  refine ⟨ha'.trans ha, hr'.trans hr, es ++ es', by rw [hl', hl, List.append_assoc], ?_⟩
  intro e hmem
  rcases List.mem_append.mp hmem with h | h
  · exact he e h
  · exact he' e h

/-- a write or a removal touches the files only -/
theorem report_put (w : World) (l : Loc) (k : Str) (c : Content) (f : Fault) :
    (w.put l k c f).alerts = w.alerts ∧ (w.put l k c f).runs = w.runs ∧ (w.put l k c f).log = w.log := by
  cases f with
  | calm => exact ⟨rfl, rfl, rfl⟩
  | raise e r => cases r <;> exact ⟨rfl, rfl, rfl⟩

theorem report_remove (w : World) (l : Loc) (k : Str) (f : Fault) :
    (w.remove l k f).alerts = w.alerts ∧ (w.remove l k f).runs = w.runs ∧ (w.remove l k f).log = w.log := by
  cases f with
  | calm => exact ⟨rfl, rfl, rfl⟩
  | raise e r => cases r <;> exact ⟨rfl, rfl, rfl⟩

theorem report_effect (env : Env) {o : Op} (f : Fault) (w : World) (h : o.storing) :
    (env.effect o f w).2.alerts = w.alerts ∧ (env.effect o f w).2.runs = w.runs ∧
      (env.effect o f w).2.log = w.log := by
  cases o with
  | mkdirs => exact h.elim
  | hook p => exact h.elim
  | record r => exact h.elim
  | notify e => exact h.elim
  | put d key src =>
    cases hc : w.content src with
    | none => rw [effect_put_none f hc]; exact ⟨rfl, rfl, rfl⟩
    | some c => rw [effect_put_some f hc]; exact report_put w _ _ _ f
  | delete d key => exact report_remove w _ _ f
  | writeMarker name job => exact report_put w _ _ _ f
  | unlink name => exact report_remove w _ _ f
  | _ => exact ⟨rfl, rfl, rfl⟩

section
variable {env : Env} {G : World → World → Prop}

theorem stored_step {o : Op} (f : Fault) (w : World) (h : o.storing) : Unreported w (env.step o f w).2 := by
  obtain ⟨ha, hr, hl⟩ := report_effect env (if env.sure o then .calm else f) w h
  refine ⟨ha, hr, [(o, o.returned (env.step o f w).1)], ?_, by simpa using h⟩
  show _ ++ _ = _
  rw [hl]
  rfl

theorem storing_wp {α : Type} {p : M α} (hp : p.Only Op.storing) (w : World) :
    p.wp env.step (fun _ _ => True) (fun _ w' => Unreported w w') w :=
  hp.wp (fun _ f w₁ ho h => ⟨trivial, h.trans (stored_step f w₁ ho)⟩) (Unreported.refl w)

end

/-! ## the operations of each step -/

section
open Prog

/-- `P` holds of every operation of the delivery and of the tracking -/
structure Delivers (P : Op → Prop) : Prop where
  build : ∀ c, P (.build c)
  put : ∀ d key src, P (.put d key src)
  glob : ∀ pat, P (.glob pat)
  isThere : ∀ name, P (.isThere name)
  readMarker : ∀ name, P (.readMarker name)
  writeMarker : ∀ name job, P (.writeMarker name job)
  unlink : ∀ name, P (.unlink name)

theorem storing_delivers : Delivers Op.storing where
  build _ := trivial
  put _ _ _ := trivial
  glob _ := trivial
  isThere _ := trivial
  readMarker _ := trivial
  writeMarker _ _ := trivial
  unlink _ := trivial

theorem only_op {P : Op → Prop} {o : Op} (h : P o) : (Prog.op o Prog.ret : M (Res o)).Only P :=
  Only.perform h

section
variable {P : Op → Prop} (hP : Delivers P)
include hP

theorem only_build (env : Env) (specs : List DestinationSpec) :
    (buildDestinations env specs).Only P := by
  induction specs with
  | nil => trivial
  | cons spec specs ih =>
    cases spec with
    | «local» => exact ih.bind fun r => trivial
    | s3 c =>
      unfold buildDestinations
      split
      · exact ih
      · refine Only.bind (only_op (hP.build c)) fun built => ih.bind fun r => ?_
        cases built <;> trivial

theorem only_uploadTo (dest : Dest) (artifact : Artifact) (sidecar : Src) (sid : Str) :
    (uploadTo dest artifact sidecar sid).Only P := by
  refine Only.bind (only_op (hP.put _ _ _)) fun r => ?_
  split
  · trivial
  · exact only_op (hP.put _ _ _)

theorem only_upload (artifact : Artifact) (sidecar : Src) (sid : Str) (dests : List Dest) :
    (upload artifact sidecar sid dests).Only P := by
  induction dests with
  | nil => trivial
  | cons d dests ih =>
    refine (only_uploadTo hP d artifact sidecar sid).bind fun r => ih.bind fun r' => ?_
    cases r <;> trivial

theorem only_deliver (env : Env) (job : Job) (artifact : Artifact) (sidecar : Src) (sid : Str) :
    (deliver env job artifact sidecar sid).Only P := by
  refine (only_build hP env _).bind fun r => ?_
  dsimp only
  generalize (if r.1 = [] ∧ r.2 = [] then [Dest.local] else r.1) = destinations
  refine (only_upload hP _ _ _ _).bind fun r' => ?_
  split
  · exact (only_upload hP _ _ _ _).bind fun r'' => Only.pure _
  · exact Only.pure _

theorem only_readOwners (markers : List Str) : (readOwners markers).Only P := by
  induction markers with
  | nil => trivial
  | cons marker markers ih =>
    refine Only.bind (only_op (hP.readMarker _)) fun owner => ih.bind fun owners => ?_
    split <;> trivial

theorem only_pendingOwners : pendingOwners.Only P :=
  Only.bind (only_op (hP.glob _)) fun markers => only_readOwners hP markers

theorem only_pendingIds (jobName : Str) : (pendingIds jobName).Only P :=
  (only_pendingOwners hP).bind fun _ => trivial

omit hP in
theorem only_orRaise {p : M (Except Exc Unit)} {q : M (Except Exc Unit × List Str)}
    (hp : p.Only P) (hq : q.Only P) : (orRaise p q).Only P := by
  refine hp.bind fun r => ?_
  split
  · trivial
  · exact hq

theorem only_shipPending (keepsLocal : Bool) (offsite : List Dest) (ids : List Str) :
    (shipPending keepsLocal offsite ids).Only P := by
  induction ids with
  | nil => trivial
  | cons q ids ih =>
    have hun : ∀ name, (unlink name).Only P := fun name => only_op (hP.unlink name)
    refine Only.bind (Only.bind (only_op (hP.glob _)) fun found => trivial) fun artifact =>
      Only.bind (only_op (hP.isThere _)) fun there => ?_
    split
    · refine (only_upload hP _ _ _ _).bind fun r => ?_
      dsimp only
      split
      · exact ih.bind fun r' => trivial
      · refine only_orRaise (hun _) ?_
        split
        · exact ih
        · exact only_orRaise (hun _) (only_orRaise (hun _) ih)
    · exact only_orRaise (hun _) ih

theorem only_trackOffsite (job : Job) (sid : Str) (delivery : Delivery) :
    (trackOffsite job sid delivery).Only P := by
  unfold trackOffsite
  dsimp only
  split
  · split
    · exact only_orRaise (only_op (hP.writeMarker _ _)) trivial
    · trivial
  · exact (only_pendingIds hP _).bind fun pending => only_shipPending hP _ _ _

theorem only_maybeDropLocal (job : Job) (artifactName sid : Str) (stored : List Dest) :
    (maybeDropLocal job artifactName sid stored).Only P := by
  have hun : ∀ name, (unlink name).Only P := fun name => only_op (hP.unlink name)
  unfold maybeDropLocal
  split
  · trivial
  · split
    · trivial
    · split
      · trivial
      · exact only_orRaise (hun _) (only_orRaise (hun _) trivial)

theorem only_markedFor (dest : Dest) : (markedFor dest).Only P := by
  unfold markedFor
  split
  · exact only_pendingOwners hP
  · trivial

end

theorem only_deleteKeys (dest : Dest) (keys : List Str) : (deleteKeys dest keys).Only Op.storing := by
  induction keys with
  | nil => trivial
  | cons key keys ih =>
    refine Only.bind (only_op trivial) fun r => ?_
    split
    · trivial
    · exact ih

theorem only_pruneIds (dest : Dest) (ids : List Str) : (pruneIds dest ids).Only Op.storing := by
  induction ids with
  | nil => trivial
  | cons q ids ih =>
    refine Only.bind (only_op trivial) fun r => ?_
    split
    · trivial
    · refine (only_deleteKeys _ _).bind fun r' => ?_
      split
      · trivial
      · exact ih

theorem only_retentionPass (env : Env) (dest : Dest) (cfg : RetentionConfig) (now : Datetime)
    (scope : SnapshotScope) (only : Option (List Str)) :
    (retentionPass env dest cfg now scope only).Only Op.storing := by
  refine (only_markedFor storing_delivers dest).bind fun marked => Only.bind (only_op trivial) fun r => ?_
  split
  · trivial
  · dsimp only
    split
    · trivial
    · exact only_pruneIds _ _

theorem only_applyRetention (env : Env) (cfg : RetentionConfig) (now : Datetime)
    (scope : SnapshotScope) (only : Option (List Str)) (dest : Dest) :
    (applyRetention env cfg now scope only dest).Only Op.storing := by
  refine (only_retentionPass _ _ _ _ _ _).bind fun r => ?_
  split <;> trivial

theorem only_applyRetentions (env : Env) (cfg : RetentionConfig) (now : Datetime)
    (scope : SnapshotScope) (dests : List Dest) :
    (applyRetentions env cfg now scope dests).Only Op.storing := by
  induction dests with
  | nil => trivial
  | cons d dests ih =>
    exact (only_applyRetention _ _ _ _ _ _).bind fun errors => ih.bind fun more => trivial

theorem only_fallbackRetention (env : Env) (job : Job) (now : Datetime) (scope : SnapshotScope)
    (fallback : Option Dest) : (fallbackRetention env job now scope fallback).Only Op.storing := by
  cases fallback with
  | none => trivial
  | some d =>
    exact (only_pendingIds storing_delivers _).bind fun pending => only_applyRetention _ _ _ _ _ _

theorem only_storePhase (env : Env) (job : Job) (scope : SnapshotScope) (now : Datetime)
    (artifact : Artifact) (sidecar : Src) (sid : Str) :
    (storePhase env job scope now artifact sidecar sid).Only Op.storing := by
  have hP := storing_delivers
  refine (only_deliver hP _ _ _ _ _).bind fun r => (only_trackOffsite hP _ _ _).bind fun r' => ?_
  dsimp only
  split
  · trivial
  · refine (only_applyRetentions _ _ _ _ _).bind fun pruning => ?_
    refine (only_fallbackRetention _ _ _ _ _).bind fun fallback => ?_
    exact (only_maybeDropLocal hP _ _ _ _).bind fun dropped => trivial

end

/-! ## the ends of a run -/

inductive RunEnd where
  /-- the data dir or the work dir could not be made -/
  | refused (e : Exc)
  /-- an exception before the run finished, of which the abort path tells -/
  | aborted (e : Exc)
  /-- an exception that the abort path lets pass, or that it raises itself -/
  | escaped (e : Exc)
  /-- the run has finished; what the notifier and the `post_backup` hook came to -/
  | finished (result : JobResult) (reported : Except Exc Unit)

def RunEnd.answer : RunEnd → Except Exc JobResult
  | .refused e => .error e
  | .aborted e => .error e
  | .escaped e => .error e
  | .finished result reported => reported.map (fun _ => result)

/-- the end is one of these two -/
def RunEnd.escapes : RunEnd → Bool
  | .escaped _ => true
  | _ => false

def RunEnd.refuses : RunEnd → Bool
  | .refused _ => true
  | _ => false

def abortEnd (a : RunArgs) (r : Raised) : M RunEnd :=
  match r.taken with
  | .described => do
    let _ ← tellAbort a r
    pure (.aborted r.exc)
  | .wordless e => pure (.escaped e)
  | .passing => pure (.escaped r.exc)

def finishEnd (a : RunArgs) (made : Made) (manifest : Manifest) (delivery : Delivery)
    (errors : List Str) : M RunEnd := do
  let stored : Bool := delivery.stored ≠ []
  let status := jobStatus made.components errors stored
  let name := (a.artifact made).name
  let there ← isThere name
  let result : JobResult := ⟨status, a.sid, if there then some name else none, manifest.totalBytes,
    made.components, errors⟩
  let _ ← recordState a status made.components
  match ← ifNotifier a (event a.job.name a.instance_ a.sid status manifest.totalBytes errors
    (outcome status made.components stored)) with
  | .error e => pure (.finished result (.error e))
  | .ok () => do
    let hooked ← ifHooks a "post_backup".toList
    pure (.finished result hooked)

/-- from the delivery on -/
def storeEnd (env : Env) (a : RunArgs) (made : Made) : M RunEnd := do
  let manifest := a.manifest env made
  let (r, errors) ← storePhase env a.job a.scope a.now (a.artifact made)
    (.work (.manifest manifest)) a.sid
  match r with
  | .error e => abortEnd a ⟨e, .described, made.components, made.errors ++ errors⟩
  | .ok delivery => finishEnd a made manifest delivery (made.errors ++ errors)

/-- behind the `pre_backup` hooks -/
def hookedEnd (env : Env) (a : RunArgs) (made : Except Raised Made) : Except Exc Unit → M RunEnd
  | .error e => abortEnd a ⟨e, env.taken e, [], []⟩
  | .ok () =>
    match made with
    | .error r => abortEnd a r
    | .ok made => storeEnd env a made

def runEnd (env : Env) (a : RunArgs) (made : Except Raised Made) : M RunEnd := do
  match ← mkdirs with
  | .error e => pure (.refused e)
  | .ok () => do
    let hooked ← ifHooks a "pre_backup".toList
    hookedEnd env a made hooked

theorem abort_eq (a : RunArgs) (r : Raised) :
    abort a r = abortEnd a r >>= fun e => pure e.answer := by
  unfold abort abortEnd
  cases r.taken with
  | wordless e => rfl
  | passing => rfl
  | described =>
    dsimp only
    rw [Prog.bind_assoc]
    unfold tellAbort
    dsimp only
    cases a.notifier with
    | true =>
      simp only [if_true, Prog.bind_assoc]
      rfl
    | false =>
      simp only [Bool.false_eq_true, if_false, Prog.bind_assoc]
      rfl

theorem finish_eq (a : RunArgs) (made : Made) (manifest : Manifest) (delivery : Delivery)
    (errors : List Str) : finish a made manifest delivery errors =
      finishEnd a made manifest delivery errors >>= fun e => pure e.answer := by
  unfold finish finishEnd
  simp only [Prog.bind_assoc]
  refine congrArg _ (funext fun there => congrArg _ (funext fun _ => congrArg _ (funext fun r => ?_)))
  cases r with
  | error e => rfl
  | ok u =>
    show (ifHooks a "post_backup".toList >>= _) = (ifHooks a "post_backup".toList >>= _) >>= _
    rw [Prog.bind_assoc]
    refine congrArg _ (funext fun hooked => ?_)
    cases hooked <;> rfl

/-- **A run answers what its end says.** -/
theorem runJob_eq (env : Env) (a : RunArgs) (made : Except Raised Made) :
    runJob env a made = runEnd env a made >>= fun e => pure e.answer := by
  unfold runJob runEnd
  rw [Prog.bind_assoc]
  refine congrArg _ (funext fun r => ?_)
  cases r with
  | error e => rfl
  | ok u =>
    show (ifHooks a "pre_backup".toList >>= _) = (ifHooks a "pre_backup".toList >>= _) >>= _
    rw [Prog.bind_assoc]
    refine congrArg _ (funext fun r => ?_)
    cases r with
    | error e => exact abort_eq a _
    | ok u =>
      cases made with
      | error raised => exact abort_eq a raised
      | ok made =>
        show (storePhase env a.job a.scope a.now (a.artifact made) _ a.sid >>= _) =
          (storePhase env a.job a.scope a.now (a.artifact made) _ a.sid >>= _) >>= _
        rw [Prog.bind_assoc]
        refine congrArg _ (funext fun r => ?_)
        obtain ⟨r, errors⟩ := r
        cases r with
        | error e => exact abort_eq a _
        | ok delivery => exact finish_eq a made _ delivery _

/-! ## which destinations took the snapshot -/

/-- `d` took the archive and the sidecar after the first `n` operations -/
def World.TookSince (w : World) (n : ℕ) (artifact : Artifact) (sidecar : Src) (sid : Str) (d : Dest) :
    Prop :=
  (Op.put d artifact.name artifact.src, true) ∈ w.log.drop n ∧
    (Op.put d (sid ++ manifestSuffix) sidecar, true) ∈ w.log.drop n

/-- `S` are the destinations that took them -/
structure Took (n : ℕ) (artifact : Artifact) (sidecar : Src) (sid : Str) (S : List Dest) (w : World) :
    Prop where
  since : n ≤ w.log.length
  both : ∀ d ∈ S, w.TookSince n artifact sidecar sid d
  only : ∀ d, (Op.put d (sid ++ manifestSuffix) sidecar, true) ∈ w.log.drop n → d ∈ S

section
variable {env : Env} {n : ℕ} {artifact : Artifact} {sidecar : Src} {sid : Str} {S : List Dest}
  {w w' : World}

theorem drop_log {es : List (Op × Bool)} (hn : n ≤ w.log.length) (hlog : w'.log = w.log ++ es) :
    w'.log.drop n = w.log.drop n ++ es := by
  rw [hlog, List.drop_append, Nat.sub_eq_zero_of_le hn, List.drop_zero]

theorem Took.mem_iff (h : Took n artifact sidecar sid S w) {d : Dest} :
    d ∈ S ↔ w.TookSince n artifact sidecar sid d :=
  ⟨h.both d, fun ht => h.only d ht.2⟩

/-- the log grows by puts to destinations that took them already -/
theorem Took.grow (h : Took n artifact sidecar sid S w) {es : List (Op × Bool)}
    (hlog : w'.log = w.log ++ es)
    (hes : ∀ d, (Op.put d (sid ++ manifestSuffix) sidecar, true) ∈ es → d ∈ S) :
    Took n artifact sidecar sid S w' := by
  have hd := drop_log h.since hlog
  refine ⟨?_, fun d hmem => ?_, fun d hmem => ?_⟩
  · rw [hlog, List.length_append]
    exact Nat.le_add_right_of_le h.since
  · obtain ⟨h1, h2⟩ := h.both d hmem
    unfold World.TookSince
    rw [hd]
    exact ⟨List.mem_append_left _ h1, List.mem_append_left _ h2⟩
  · rw [hd] at hmem
    exact (List.mem_append.mp hmem).elim (h.only d) (hes d)

theorem Took.quiet (h : Took n artifact sidecar sid S w) (hq : Quiet w w') :
    Took n artifact sidecar sid S w' := by
  obtain ⟨es, hlog, hes⟩ := hq.log
  exact h.grow hlog fun d hm => (hes _ hm).elim

/-- `d` took the sidecar last -/
theorem Took.take {d : Dest} (h : Took n artifact sidecar sid S w)
    (hfirst : (Op.put d artifact.name artifact.src, true) ∈ w.log.drop n)
    (hlog : w'.log = w.log ++ [(.put d (sid ++ manifestSuffix) sidecar, true)]) :
    Took n artifact sidecar sid (S ++ [d]) w' := by
  have hd := drop_log h.since hlog
  refine ⟨?_, fun x hx => ?_, fun x hx => ?_⟩
  · rw [hlog, List.length_append]
    exact Nat.le_add_right_of_le h.since
  · unfold World.TookSince
    rw [hd]
    rcases List.mem_append.mp hx with hx | hx
    · obtain ⟨h1, h2⟩ := h.both x hx
      exact ⟨List.mem_append_left _ h1, List.mem_append_left _ h2⟩
    · rw [List.mem_singleton.mp hx]
      exact ⟨List.mem_append_left _ hfirst, List.mem_append_right _ List.mem_cons_self⟩
  · rw [hd] at hx
    rcases List.mem_append.mp hx with hx | hx
    · exact List.mem_append_left _ (h.only x hx)
    · simp only [List.mem_singleton, Prod.mk.injEq, Op.put.injEq, and_true] at hx
      exact List.mem_append_right _ (List.mem_singleton.mpr hx)

theorem took_uploadTo {d : Dest} (hsrc : artifact.src ≠ sidecar)
    (h : Took n artifact sidecar sid S w) :
    (uploadTo d artifact sidecar sid).wp env.step (fun _ _ => True)
      (fun r w' => Took n artifact sidecar sid (if isOk r then S ++ [d] else S) w') w := by
  apply wp_uploadTo
  intro c r w₁ _ _ hlog
  have h₁ : Took n artifact sidecar sid S w₁ := by
    refine h.grow hlog fun x hx => ?_
    simp only [List.mem_singleton, Prod.mk.injEq, Op.put.injEq] at hx
    exact absurd hx.1.2.2.symm hsrc
  refine ⟨trivial, ?_, ?_⟩
  · rintro e rfl
    exact h₁
  · rintro rfl c' r' w₂ _ _ hlog'
    refine ⟨trivial, ?_⟩
    cases r' with
    | ok u =>
      refine h₁.take ?_ hlog'
      rw [drop_log h.since hlog]
      exact List.mem_append_right _ List.mem_cons_self
    | error e =>
      refine h₁.grow hlog' fun x hx => ?_
      simp [isOk] at hx

theorem keeps_took {job : Job} {scope : SnapshotScope} {now : Datetime} (hsrc : artifact.src ≠ sidecar) :
    Keeps env (fun _ _ => True) job scope now artifact sidecar sid n
      (Took n artifact sidecar sid) (Took n artifact sidecar sid) (Took n artifact sidecar sid) where
  calm := fun _ _ _ => trivial
  quietD := fun _ _ _ hq h => h.quiet hq
  quietI := fun _ _ _ hq h => h.quiet hq
  quietE := fun _ _ _ hq h => h.quiet hq
  since := fun _ _ h => h.since
  upload := fun _ _ _ _ _ _ _ _ _ h => took_uploadTo hsrc h
  enter := fun _ _ h _ => h
  mark := fun _ _ _ _ h _ _ _ _ _ hlog =>
    ⟨trivial, fun _ => h.grow hlog (by simp), h.grow hlog (by simp)⟩
  ship := by
    intro S ws _ q _ w₀ b _ _ d hd key src c w r w' _ h _ _ hlog
    refine ⟨trivial, h.grow hlog fun x hx => ?_⟩
    simp only [List.mem_singleton, Prod.mk.injEq, Op.put.injEq] at hx
    rw [hx.1.1]
    exact (mem_offsiteOf.mp hd).1
  unlink := fun _ _ _ _ _ _ _ _ _ _ _ _ h _ _ _ hlog => ⟨trivial, h.grow hlog (by simp)⟩
  prune := fun _ _ _ _ _ _ _ _ _ _ _ _ _ _ _ _ h _ _ hlog => ⟨trivial, h.grow hlog (by simp)⟩
  finish := fun _ _ h => h
  drop := fun _ _ _ _ _ _ _ _ h _ hlog => ⟨trivial, h.grow hlog (by simp)⟩
  start := fun _ h => h

end

/-! ## what a run has reported at its end -/

/-- the operations since `w` -/
def World.since (w w' : World) : List (Op × Bool) := w'.log.drop w.log.length

/-- the log grew by entries with `P` -/
def Grew (P : Op × Bool → Prop) (w w' : World) : Prop :=
  ∃ es, w'.log = w.log ++ es ∧ ∀ e ∈ es, P e

theorem Grew.refl (P : Op × Bool → Prop) (w : World) : Grew P w w := ⟨[], by simp, by simp⟩

theorem Grew.trans {P : Op × Bool → Prop} {w₁ w₂ w₃ : World} (h : Grew P w₁ w₂) (h' : Grew P w₂ w₃) :
    Grew P w₁ w₃ := by
  obtain ⟨es, hl, he⟩ := h
  obtain ⟨es', hl', he'⟩ := h'
  refine ⟨es ++ es', by rw [hl', hl, List.append_assoc], ?_⟩
  intro e hmem
  rcases List.mem_append.mp hmem with h | h
  · exact he e h
  · exact he' e h

theorem Grew.mono {P P' : Op × Bool → Prop} {w w' : World} (h : Grew P w w') (hp : ∀ e, P e → P' e) :
    Grew P' w w' := by
  obtain ⟨es, hl, he⟩ := h
  exact ⟨es, hl, fun e hm => hp e (he e hm)⟩

theorem Grew.mem {P : Op × Bool → Prop} {w w' : World} (h : Grew P w w') {e : Op × Bool}
    (hmem : e ∈ w.since w') : P e := by
  obtain ⟨es, hl, he⟩ := h
  unfold World.since at hmem
  rw [hl, List.drop_left] at hmem
  exact he e hmem

theorem Grew.since_trans {P : Op × Bool → Prop} {w₁ w₂ w₃ : World} (h : Grew P w₁ w₂)
    {P' : Op × Bool → Prop} (h' : Grew P' w₂ w₃) {e : Op × Bool} (hmem : e ∈ w₂.since w₃) :
    e ∈ w₁.since w₃ := by
  obtain ⟨es, hl, -⟩ := h
  obtain ⟨es', hl', -⟩ := h'
  unfold World.since at *
  rw [hl', List.drop_left] at hmem
  rw [hl', hl, List.append_assoc, List.drop_left]
  exact List.mem_append_right _ hmem

theorem Grew.since_mono {P : Op × Bool → Prop} {w₁ w₂ w₃ : World} (h : Grew P w₁ w₂)
    {P' : Op × Bool → Prop} (h' : Grew P' w₂ w₃) {e : Op × Bool} (hmem : e ∈ w₁.since w₂) :
    e ∈ w₁.since w₃ := by
  obtain ⟨es, hl, -⟩ := h
  obtain ⟨es', hl', -⟩ := h'
  unfold World.since at *
  rw [hl, List.drop_left] at hmem
  rw [hl', hl, List.append_assoc, List.drop_left]
  exact List.mem_append_left _ hmem

theorem since_note (w : World) (e : Op × Bool) : w.since (w.note e) = [e] :=
  List.drop_left

def preBackup : Str := "pre_backup".toList

def postBackup : Str := "post_backup".toList

/-- neither the making of the work dir nor the `post_backup` hook raised -/
def Unmarred (e : Op × Bool) : Prop := e ≠ (.mkdirs, false) ∧ e ≠ (.hook postBackup, false)

theorem Op.storing.unmarred {e : Op × Bool} (h : e.1.storing) : Unmarred e := by
  constructor
  · rintro rfl
    exact h
  · rintro rfl
    exact h

/-- one alert and one run record, both with `status` -/
structure Reported (env : Env) (a : RunArgs) (status : Status) (w w' : World) : Prop where
  alert : a.notifier = true → (∀ e, env.sure (.notify e) = true) →
    ∃ e : AlertEvent, e.status = status ∧ w'.alerts = w.alerts ++ [e]
  record : (∀ r, env.sure (.record r) = true) →
    ∃ failed, w'.runs = w.runs.insert (jobFile a.job.name) ⟨a.job.name, a.sid, status, a.now, failed⟩

/-- what stands in the notifier, the state files and the log at the end of a run from `w` -/
def EndedAs (env : Env) (a : RunArgs) (made : Except Raised Made) (w : World) : RunEnd → World → Prop
  | .refused _, w' => w'.alerts = w.alerts ∧ w'.runs = w.runs ∧ (.mkdirs, false) ∈ w.since w'
  | .aborted _, w' => Reported env a .error w w' ∧ Grew Unmarred w w'
  | .escaped _, w' => w'.alerts = w.alerts ∧ w'.runs = w.runs ∧ Grew Unmarred w w'
  | .finished result reported, w' =>
    Reported env a result.status w w' ∧ (.mkdirs, false) ∉ w.since w' ∧
      (isOk reported = true → Grew Unmarred w w') ∧
      (isOk reported = false → (∀ e, env.sure (.notify e) = true) →
        (.hook postBackup, false) ∈ w.since w') ∧
      ∃ m stored, made = .ok m ∧
        result.status = jobStatus m.components result.errors (decide (stored ≠ [])) ∧
        Took w.log.length (a.artifact m) (.work (.manifest (a.manifest env m))) a.sid stored w'

section
variable {env : Env} {a : RunArgs}

theorem wp_recordState (status : Status) (components : List Component) (w : World) :
    (recordState a status components).wp env.step (fun _ _ => True) (fun _ w' =>
      w'.alerts = w.alerts ∧ Quiet w w' ∧ Grew Unmarred w w' ∧
      ((∀ r, env.sure (.record r) = true) → ∃ failed, w'.runs =
        w.runs.insert (jobFile a.job.name) ⟨a.job.name, a.sid, status, a.now, failed⟩)) w := by
  intro f
  let r : RunRecord := ⟨a.job.name, a.sid, status, a.now, (components.filter (·.failed)).map (·.name)⟩
  have hentry : ∀ b, Unmarred (.record r, b) := fun b => by constructor <;> simp
  refine ⟨trivial, ?_⟩
  unfold Env.step
  cases hf : (if env.sure (.record r) then Fault.calm else f) with
  | calm =>
    exact ⟨rfl, ⟨rfl, [(.record r, true)], rfl, by simp [Op.quiet]⟩,
      ⟨[(.record r, true)], rfl, by simpa using hentry true⟩, fun _ => ⟨_, rfl⟩⟩
  | raise e s =>
    refine ⟨rfl, ⟨rfl, [(.record r, false)], rfl, by simp [Op.quiet]⟩,
      ⟨[(.record r, false)], rfl, by simpa using hentry false⟩, fun hsure => ?_⟩
    rw [if_pos (hsure r)] at hf
    cases hf

theorem wp_notify (e : AlertEvent) (w : World) :
    (notify e).wp env.step (fun _ _ => True) (fun r w' =>
      w'.runs = w.runs ∧ Quiet w w' ∧ Grew Unmarred w w' ∧
      (env.sure (.notify e) = true → isOk r = true ∧ w'.alerts = w.alerts ++ [e])) w := by
  intro f
  have hentry : ∀ b, Unmarred (.notify e, b) := fun b => by constructor <;> simp
  refine ⟨trivial, ?_⟩
  unfold Env.step
  cases hf : (if env.sure (.notify e) then Fault.calm else f) with
  | calm =>
    exact ⟨rfl, ⟨rfl, [(.notify e, true)], rfl, by simp [Op.quiet]⟩,
      ⟨[(.notify e, true)], rfl, by simpa using hentry true⟩, fun _ => ⟨rfl, rfl⟩⟩
  | raise x s =>
    refine ⟨rfl, ⟨rfl, [(.notify e, false)], rfl, by simp [Op.quiet]⟩,
      ⟨[(.notify e, false)], rfl, by simpa using hentry false⟩, fun hsure => ?_⟩
    rw [if_pos hsure] at hf
    cases hf

/-- a hook reports nothing; if it raises, the log says so -/
theorem wp_hook (phase : Str) (w : World) :
    (ifHooks a phase).wp env.step (fun _ _ => True) (fun r w' =>
      w'.alerts = w.alerts ∧ w'.runs = w.runs ∧ Quiet w w' ∧
      Grew (fun e => e = (.hook phase, isOk r)) w w' ∧
      (isOk r = false → (.hook phase, false) ∈ w.since w')) w := by
  unfold ifHooks
  cases a.hooks with
  | false => exact ⟨rfl, rfl, Quiet.refl w, Grew.refl _ w, fun h => by simp [isOk] at h⟩
  | true =>
    intro f
    refine ⟨trivial, ?_⟩
    unfold Env.step
    cases (if env.sure (.hook phase) then Fault.calm else f) with
    | calm =>
      refine ⟨rfl, rfl, Quiet.note _ trivial, ⟨[(.hook phase, true)], rfl, fun e he => ?_⟩,
        fun h => ?_⟩
      · exact List.mem_singleton.mp he
      · cases (show true = false from h)
    | raise e s =>
      refine ⟨rfl, rfl, Quiet.note _ trivial, ⟨[(.hook phase, false)], rfl, fun e he => ?_⟩,
        fun _ => ?_⟩
      · exact List.mem_singleton.mp he
      · show (Op.hook phase, false) ∈ w.since (w.note (Op.hook phase, false))
        rw [since_note]
        exact List.mem_cons_self

theorem wp_abortEnd (r : Raised) (w : World) :
    (abortEnd a r).wp env.step (fun _ _ => True) (fun e w' =>
      (e = .aborted r.exc ∧ Reported env a .error w w' ∧ Grew Unmarred w w') ∨
        ∃ x, e = .escaped x ∧ w' = w) w := by
  have hrun : (tellAbort a r).wp env.step (fun _ _ => True) (fun _ w' =>
      Reported env a .error w w' ∧ Grew Unmarred w w') w := by
    refine Prog.wp_seq (wp_recordState .error r.components w) fun _ w₁ h₁ => ?_
    obtain ⟨hal, -, hgrew, hrec⟩ := h₁
    cases hn : a.notifier with
    | false => exact ⟨⟨fun h => by simp [hn] at h, hrec⟩, hgrew⟩
    | true =>
      refine Prog.wp_seq (wp_notify _ w₁) fun _ w₂ h₂ => ?_
      obtain ⟨hruns, -, hgrew', hal'⟩ := h₂
      refine ⟨⟨fun _ hsure => ?_, fun hsure => ?_⟩, hgrew.trans hgrew'⟩
      · exact ⟨_, rfl, by rw [(hal' (hsure _)).2, hal]⟩
      · rw [hruns]
        exact hrec hsure
  unfold abortEnd
  cases r.taken with
  | described => exact Prog.wp_seq hrun fun _ w' h => Or.inl ⟨rfl, h⟩
  | wordless e => exact Or.inr ⟨e, rfl, rfl⟩
  | passing => exact Or.inr ⟨r.exc, rfl, rfl⟩

theorem wp_finishEnd (m : Made) (manifest : Manifest) (delivery : Delivery) (errors : List Str)
    (w : World) : (finishEnd a m manifest delivery errors).wp env.step (fun _ _ => True) (fun e w' =>
      ∃ result reported, e = .finished result reported ∧
        result.status = jobStatus m.components result.errors (decide (delivery.stored ≠ [])) ∧
        Reported env a result.status w w' ∧ Quiet w w' ∧ (.mkdirs, false) ∉ w.since w' ∧
        (isOk reported = true → Grew Unmarred w w') ∧
        (isOk reported = false → (∀ e, env.sure (.notify e) = true) →
          (.hook postBackup, false) ∈ w.since w')) w := by
  have hthere : (isThere (a.artifact m).name).wp env.step (fun _ _ => True) (fun _ w' =>
      w'.alerts = w.alerts ∧ w'.runs = w.runs ∧ Quiet w w' ∧ Grew Unmarred w w') w := by
    intro f
    exact ⟨trivial, rfl, rfl, Quiet.note _ trivial,
      ⟨[(.isThere _, true)], rfl, by simp [Unmarred]⟩⟩
  refine Prog.wp_seq hthere fun there w₁ h₁ => ?_
  obtain ⟨hal₁, hruns₁, hq₁, hg₁⟩ := h₁
  refine Prog.wp_seq (wp_recordState _ m.components w₁) fun _ w₂ h₂ => ?_
  obtain ⟨hal₂, hq₂, hg₂, hrec⟩ := h₂
  have hrec' := hrec
  rw [hruns₁] at hrec'
  have hg := hg₁.trans hg₂
  have hq := hq₁.trans hq₂
  have hal : w₂.alerts = w.alerts := hal₂.trans hal₁
  let status := jobStatus m.components errors (decide (delivery.stored ≠ []))
  have hnotify : (ifNotifier a (event a.job.name a.instance_ a.sid status manifest.totalBytes errors
      (outcome status m.components (decide (delivery.stored ≠ []))))).wp env.step (fun _ _ => True)
      (fun r w' => Reported env a status w w' ∧ Quiet w w' ∧ Grew Unmarred w w' ∧
        ((∀ e, env.sure (.notify e) = true) → isOk r = true)) w₂ := by
    unfold ifNotifier
    cases hn : a.notifier with
    | false => exact ⟨⟨fun h => by simp [hn] at h, hrec'⟩, hq, hg, fun _ => rfl⟩
    | true =>
      refine Prog.wp_post (wp_notify _ w₂) fun r w₃ h₃ => ?_
      obtain ⟨hruns, hq₃, hg₃, hal₃⟩ := h₃
      refine ⟨⟨fun _ hsure => ?_, fun hsure => ?_⟩, hq.trans hq₃, hg.trans hg₃,
        fun hsure => (hal₃ (hsure _)).1⟩
      · exact ⟨_, rfl, by rw [(hal₃ (hsure _)).2, hal]⟩
      · rw [hruns]
        exact hrec' hsure
  have hno : ∀ {w'}, Grew Unmarred w w' → (Op.mkdirs, false) ∉ w.since w' :=
    fun hg hmem => (hg.mem hmem).1 rfl
  refine Prog.wp_seq hnotify fun r w₃ h₃ => ?_
  obtain ⟨hrep, hq₃, hg₃, hsure₃⟩ := h₃
  cases r with
  | error e =>
    refine ⟨_, _, rfl, rfl, hrep, hq₃, hno hg₃, fun h => by simp [isOk] at h, fun _ hsure => ?_⟩
    exact absurd (hsure₃ hsure) (by simp [isOk])
  | ok u =>
    refine Prog.wp_seq (wp_hook postBackup w₃) fun r w₄ h₄ => ?_
    obtain ⟨hal₄, hruns₄, hq₄, hg₄, hraised⟩ := h₄
    have hrep₄ : Reported env a status w w₄ :=
      ⟨fun hn hs => by rw [hal₄]; exact hrep.alert hn hs, fun hs => by rw [hruns₄]; exact hrep.record hs⟩
    have hmk : (Op.mkdirs, false) ∉ w.since w₄ := by
      have hboth : Grew (fun e => e ≠ (Op.mkdirs, false)) w w₄ := by
        refine (hg₃.mono fun e h => h.1).trans (hg₄.mono fun e h => ?_)
        rw [h]
        simp
      exact fun hmem => hboth.mem hmem rfl
    refine ⟨_, _, rfl, rfl, hrep₄, hq₃.trans hq₄, hmk, fun hok => ?_, fun hok _ => ?_⟩
    · refine hg₃.trans (hg₄.mono fun e h => ?_)
      rw [h, hok]
      simp [Unmarred]
    · exact hg₃.since_trans hg₄ (hraised hok)

theorem wp_storePhase_ends (m : Made) {n : ℕ} {w : World}
    (h : Took n (a.artifact m) (.work (.manifest (a.manifest env m))) a.sid [] w) :
    (storePhase env a.job a.scope a.now (a.artifact m) (.work (.manifest (a.manifest env m)))
      a.sid).wp env.step (fun _ _ => True) (fun r w' => Unreported w w' ∧ ∀ delivery, r.1 = .ok delivery →
        Took n (a.artifact m) (.work (.manifest (a.manifest env m))) a.sid delivery.stored w') w := by
  have hsrc : (a.artifact m).src ≠ .work (.manifest (a.manifest env m)) := by simp [RunArgs.artifact]
  have hkeeps : Keeps env (fun _ _ => True) a.job a.scope a.now (a.artifact m)
      (.work (.manifest (a.manifest env m))) a.sid n _ _ _ := keeps_took hsrc
  have htook := hkeeps.storePhase h
  refine Prog.wp_mono (Prog.wp_and htook (storing_wp (only_storePhase ..) w)) (fun _ _ _ => trivial) fun r w' h => ?_
  exact ⟨h.2, fun delivery hd => (h.1.1 delivery hd).1⟩

/-- **Every run ends so**, whatever fails. -/
theorem wp_runEnd (made : Except Raised Made) (w : World) :
    (runEnd env a made).wp env.step (fun _ _ => True) (EndedAs env a made w) w := by
  have hmk : mkdirs.wp env.step (fun _ _ => True) (fun r w' => w'.alerts = w.alerts ∧
      w'.runs = w.runs ∧ Quiet w w' ∧ (isOk r = true → Grew Unmarred w w') ∧
      (isOk r = false → (.mkdirs, false) ∈ w.since w')) w := by
    intro f
    refine ⟨trivial, ?_⟩
    unfold Env.step
    cases (if env.sure .mkdirs then Fault.calm else f) with
    | calm =>
      refine ⟨rfl, rfl, Quiet.note _ trivial,
        fun _ => ⟨[(.mkdirs, true)], rfl, by simp [Unmarred]⟩, fun h => ?_⟩
      cases (show true = false from h)
    | raise e s =>
      refine ⟨rfl, rfl, Quiet.note _ trivial, fun h => ?_, fun _ => ?_⟩
      · cases (show false = true from h)
      · show (Op.mkdirs, false) ∈ w.since (w.note (Op.mkdirs, false))
        rw [since_note]
        exact List.mem_cons_self
  refine Prog.wp_seq hmk fun r w₁ h₁ => ?_
  obtain ⟨hal₁, hruns₁, hq₁, hg₁, hraised⟩ := h₁
  cases r with
  | error e => exact ⟨hal₁, hruns₁, hraised rfl⟩
  | ok u =>
    -- everything before the report leaves notifier and state files alone
    have habort : ∀ r w₂, w₂.alerts = w.alerts → w₂.runs = w.runs → Grew Unmarred w w₂ →
        (abortEnd a r).wp env.step (fun _ _ => True) (EndedAs env a made w) w₂ := by
      intro r w₂ hal hruns hg
      refine Prog.wp_post (wp_abortEnd r w₂) fun e w' h => ?_
      rcases h with ⟨rfl, hrep, hg'⟩ | ⟨x, rfl, rfl⟩
      · exact ⟨⟨fun hn hs => by rw [← hal]; exact hrep.alert hn hs,
          fun hs => by rw [← hruns]; exact hrep.record hs⟩, hg.trans hg'⟩
      · exact ⟨hal, hruns, hg⟩
    refine Prog.wp_seq (wp_hook _ w₁) fun r w₂ h₂ => ?_
    obtain ⟨hal₂, hruns₂, hq₂, hg₂, -⟩ := h₂
    have hal := hal₂.trans hal₁
    have hruns := hruns₂.trans hruns₁
    have hpre : Grew Unmarred w w₂ := by
      have hne : "pre_backup".toList ≠ postBackup := by decide
      refine (hg₁ rfl).trans (hg₂.mono fun e h => ?_)
      rw [h]
      refine ⟨fun he => ?_, fun he => ?_⟩
      · cases (Prod.mk.inj he).1
      · exact hne (Op.hook.inj (Prod.mk.inj he).1)
    cases r with
    | error e => exact habort _ w₂ hal hruns hpre
    | ok u =>
      cases made with
      | error raised => exact habort raised w₂ hal hruns hpre
      | ok m =>
        have hstart : Took w.log.length (a.artifact m) (.work (.manifest (a.manifest env m))) a.sid []
            w := ⟨le_rfl, by simp, by simp⟩
        refine Prog.wp_seq (wp_storePhase_ends m (hstart.quiet (hq₁.trans hq₂))) fun r w₃ h₃ => ?_
        obtain ⟨hst, hdel⟩ := h₃
        obtain ⟨r, errors⟩ := r
        have hpre₃ : Grew Unmarred w w₃ := by
          refine hpre.trans ?_
          obtain ⟨es, hl, he⟩ := hst.log
          exact ⟨es, hl, fun e hm => (he e hm).unmarred⟩
        have hal₃ := hst.alerts.trans hal
        have hruns₃ := hst.runs.trans hruns
        cases r with
        | error e => exact habort _ w₃ hal₃ hruns₃ hpre₃
        | ok delivery =>
          have ht := hdel delivery rfl
          refine Prog.wp_post (wp_finishEnd m _ delivery _ w₃) fun e w' h => ?_
          obtain ⟨result, reported, rfl, hstatus, hrep, hq, hmk', hok, hnot⟩ := h
          obtain ⟨es, hl, hes⟩ := hq.log
          refine ⟨⟨fun hn hs => by rw [← hal₃]; exact hrep.alert hn hs,
            fun hs => by rw [← hruns₃]; exact hrep.record hs⟩, fun hmem => ?_,
            fun h => hpre₃.trans (hok h), fun h hs => hpre₃.since_trans ⟨es, hl, hes⟩ (hnot h hs),
            m, delivery.stored, rfl, hstatus, ht.quiet hq⟩
          obtain ⟨es₁, hl₁, hes₁⟩ := hpre₃
          have hsplit : w.since w' = es₁ ++ w₃.since w' := by
            unfold World.since
            rw [hl, hl₁, List.append_assoc, List.drop_left, ← List.append_assoc, List.drop_left]
          rw [hsplit] at hmem
          rcases List.mem_append.mp hmem with h | h
          · exact (hes₁ _ h).1 rfl
          · exact hmk' h

end
end BackupHelper
