import BackupHelper.Runner.Ends

/-!
# When a run ends without its alert

A run with a notifier hands over one alert, on the way out of an abort or at its end.  Two steps
stand outside of both: the making of the data dir and the work dir, before the abort path begins,
and the `post_backup` hook, after the alert has been sent.  And the abort path is a handler of
`Exception` that asks for the text first: what is none, or has no text, leaves it without a word.

* `Spoken`        one alert, of status `error` if the run raised;
* `Worded`        what ends the run before its delivery is an `Exception` with a text;
* `spoken_iff`    the runs that speak, whatever fails in them;
* `silent_runs`   one run of each kind that does not.
-/

namespace BackupHelper
open Text Effects

/-- exactly one alert since `w`, and it has status `error` if the run raised -/
def Spoken (r : Except Exc JobResult) (w w' : World) : Prop :=
  ∃ e, w'.alerts = w.alerts ++ [e] ∧ (isOk r = false → e.status = .error)

/-- a component failed, or no destination took the snapshot after the first `n` operations -/
def Deficient (env : Env) (a : RunArgs) (made : Except Raised Made) (n : ℕ) (w : World) : Prop :=
  ∃ m, made = .ok m ∧ (m.components.any (·.failed) = true ∨
    ∀ d, ¬ w.TookSince n (a.artifact m) (.work (.manifest (a.manifest env m))) a.sid d)

/-- what the `pre_backup` hooks come to under the fault `f` -/
def hooked (env : Env) (a : RunArgs) (f : Fault) : Except Exc Unit :=
  if a.hooks then (if env.sure (.hook preBackup) then Fault.calm else f).answer else .ok ()

/-- an exception of the `pre_backup` hooks, or else of the sources and the bundle, is an `Exception`
with a text -/
def Worded (env : Env) (made : Except Raised Made) : Except Exc Unit → Prop
  | .error e => env.taken e = .described
  | .ok () => ∀ r, made = .error r → r.taken = .described

theorem jobStatus_error {components : List Component} {errors : List Str} {stored : Bool} :
    jobStatus components errors stored = .error ↔
      components.any (·.failed) = true ∨ stored = false := by
  unfold jobStatus
  by_cases h : ¬ stored = true ∨ components.any (·.failed) = true
  · rw [if_pos h]
    simp only [true_iff]
    exact h.symm.imp id (by simp)
  · rw [if_neg h]
    push Not at h
    have hne : (if errors = [] then Status.success else Status.warning) ≠ .error := by
      split <;> simp
    constructor
    · intro he
      exact absurd he hne
    · rintro (hc | hs)
      · exact absurd hc h.2
      · rw [hs] at h
        exact absurd h.1 (by simp)

section
variable {env : Env} {a : RunArgs} {made : Except Raised Made} {w w' : World}

theorem Grew.mkdirs (h : Grew Unmarred w w') : (Op.mkdirs, false) ∉ w.since w' :=
  fun hmem => (h.mem hmem).1 rfl

theorem Grew.hook (h : Grew Unmarred w w') : (Op.hook postBackup, false) ∉ w.since w' :=
  fun hmem => (h.mem hmem).2 rfl

theorem Reported.spoken {status : Status} (h : Reported env a status w w')
    (hnotifier : a.notifier = true) (hsure : ∀ e, env.sure (.notify e) = true)
    (r : Except Exc JobResult) : Spoken r w w' ↔ (isOk r = false → status = .error) := by
  obtain ⟨e, hstatus, hal⟩ := h.alert hnotifier hsure
  constructor
  · rintro ⟨e', hal', he'⟩ hr
    rw [hal] at hal'
    rw [← hstatus, (List.cons.inj (List.append_cancel_left hal')).1]
    exact he' hr
  · intro hs
    exact ⟨e, hal, fun hr => hstatus.trans (hs hr)⟩

theorem EndedAs.refused {e : RunEnd} (h : EndedAs env a made w e w') (he : e.refuses = true) :
    (Op.mkdirs, false) ∈ w.since w' := by
  cases e with
  | refused x => exact h.2.2
  | _ => cases he

/-- the end of a run and its alert -/
theorem EndedAs.spoken {e : RunEnd} (h : EndedAs env a made w e w') (hnotifier : a.notifier = true)
    (hsure : ∀ e, env.sure (.notify e) = true) :
    Spoken e.answer w w' ↔ (Op.mkdirs, false) ∉ w.since w' ∧ e.escapes = false ∧
      ((Op.hook postBackup, false) ∈ w.since w' → Deficient env a made w.log.length w') := by
  cases e with
  | refused x =>
    obtain ⟨hal, -, hmk⟩ := h
    constructor
    · rintro ⟨e, he, -⟩
      rw [hal] at he
      simp at he
    · intro hc
      exact absurd hmk hc.1
  | aborted x =>
    obtain ⟨hrep, hgrew⟩ := h
    rw [hrep.spoken hnotifier hsure]
    exact iff_of_true (fun _ => rfl) ⟨hgrew.mkdirs, rfl, fun hmem => absurd hmem hgrew.hook⟩
  | escaped x =>
    obtain ⟨hal, -, -⟩ := h
    constructor
    · rintro ⟨e, he, -⟩
      rw [hal] at he
      simp at he
    · intro hc
      cases hc.2.1
  | finished result reported =>
    obtain ⟨hrep, hmk, hok, hraised, m, stored, rfl, hstatus, htook⟩ := h
    rw [hrep.spoken hnotifier hsure]
    cases reported with
    | ok u =>
      have hgrew := hok rfl
      refine iff_of_true (fun hr => ?_) ⟨hmk, rfl, fun hmem => absurd hmem hgrew.hook⟩
      cases (show true = false from hr)
    | error x =>
      -- the alert was sent before the hook raised
      have hmem := hraised rfl hsure
      have hdef : Deficient env a (.ok m) w.log.length w' ↔ result.status = .error := by
        rw [hstatus, jobStatus_error]
        constructor
        · rintro ⟨m', hm, hc⟩
          obtain rfl := Except.ok.inj hm
          refine hc.imp id fun hnone => ?_
          have hnil : stored = [] := List.eq_nil_iff_forall_not_mem.mpr fun d hd =>
            hnone d (htook.mem_iff.mp hd)
          simp [hnil]
        · intro hc
          refine ⟨m, rfl, hc.imp id fun hnil d ht => ?_⟩
          have hd := htook.mem_iff.mpr ht
          rw [show stored = [] by simpa using hnil] at hd
          simp at hd
      rw [hdef]
      constructor
      · intro hs
        exact ⟨hmk, rfl, fun _ => hs rfl⟩
      · intro hc _
        exact hc.2.2 hmem

/-- which exceptions the abort path finds words for -/
theorem answers_abortEnd (a : RunArgs) (r : Raised) :
    (abortEnd a r).Answers (fun e => e.escapes = false ↔ r.taken = .described) := by
  unfold abortEnd
  cases r.taken with
  | wordless e => exact iff_of_false (fun h => by cases h) fun h => by cases h
  | passing => exact iff_of_false (fun h => by cases h) fun h => by cases h
  | described => exact Prog.Answers.after fun _ => iff_of_true rfl rfl

/-- a delivery raises `Exception`s with a text only -/
theorem answers_storeEnd (env : Env) (a : RunArgs) (m : Made) :
    (storeEnd env a m).Answers (fun e => e.escapes = false) := by
  refine Prog.Answers.after fun r => ?_
  obtain ⟨r, errors⟩ := r
  cases r with
  | error e => exact (answers_abortEnd a _).mono fun e h => h.mpr rfl
  | ok delivery =>
    refine Prog.Answers.after fun there => Prog.Answers.after fun _ => Prog.Answers.after fun told => ?_
    cases told with
    | error e => exact (rfl : (RunEnd.finished _ _).escapes = false)
    | ok u => exact Prog.Answers.after fun hooked => rfl

theorem answers_hookedEnd (env : Env) (a : RunArgs) (made : Except Raised Made) (r : Except Exc Unit) :
    (hookedEnd env a made r).Answers (fun e => e.escapes = false ↔ Worded env made r) := by
  cases r with
  | error e => exact answers_abortEnd a ⟨e, env.taken e, [], []⟩
  | ok u =>
    cases made with
    | error raised =>
      refine (answers_abortEnd a raised).mono fun e h => h.trans ⟨fun ht r hr => ?_, fun hall => hall raised rfl⟩
      rw [← Except.error.inj hr]
      exact ht
    | ok m =>
      refine (answers_storeEnd env a m).mono fun e h => iff_of_true h fun r hr => ?_
      cases hr

/-- the first operation of a run -/
theorem exec_mkdirs {α : Type} (env : Env) (k : Except Exc Unit → M α) (fs : List Fault) (w : World) :
    (mkdirs >>= k).exec env.step .calm fs w =
      (k (if env.sure .mkdirs then Fault.calm else fs.headD .calm).answer).exec env.step .calm fs.tail
        (env.step .mkdirs (fs.headD .calm) w).2 := rfl

/-- and the second, where there are hooks -/
theorem exec_preBackup {α : Type} (env : Env) (a : RunArgs) (k : Except Exc Unit → M α) (fs : List Fault)
    (w : World) : ∃ fs' w', (ifHooks a preBackup >>= k).exec env.step .calm fs w =
      (k (hooked env a (fs.headD .calm))).exec env.step .calm fs' w' := by
  unfold ifHooks hooked
  cases a.hooks with
  | true => exact ⟨fs.tail, _, rfl⟩
  | false => exact ⟨fs, w, rfl⟩

/-- **A run that has begun escapes exactly from an exception without words.** -/
theorem escapes_iff (env : Env) (a : RunArgs) (made : Except Raised Made) (fs : List Fault) (w : World)
    (hbegun : ((runEnd env a made).exec env.step .calm fs w).1.refuses = false) :
    ((runEnd env a made).exec env.step .calm fs w).1.escapes = false ↔
      Worded env made (hooked env a (fs.tail.headD .calm)) := by
  unfold runEnd at hbegun ⊢
  rw [exec_mkdirs] at hbegun ⊢
  cases hmk : (if env.sure .mkdirs then Fault.calm else fs.headD .calm) with
  | raise e r =>
    rw [hmk] at hbegun
    cases hbegun
  | calm =>
    obtain ⟨fs', w', hexec⟩ := exec_preBackup env a (hookedEnd env a made) fs.tail
      (env.step .mkdirs (fs.headD .calm) w).2
    have hanswers := answers_hookedEnd env a made (hooked env a (fs.tail.headD .calm))
    have hend : ((hookedEnd env a made (hooked env a (fs.tail.headD .calm))).exec env.step .calm fs'
        w').1.escapes = false ↔ Worded env made (hooked env a (fs.tail.headD .calm)) :=
      hanswers.exec .calm fs' w'
    rw [← hexec] at hend
    exact hend

end

/-- **Which runs speak.**  With a notifier that does not raise, whatever else fails: a run hands
over exactly one alert, of status `error` if the run raises, if and only if data dir and work dir
could be made, an exception before the delivery has words, and the `post_backup` hook raised at most
after a run whose snapshot is deficient. -/
theorem spoken_iff (env : Env) (a : RunArgs) (made : Except Raised Made) (fs : List Fault) (w : World)
    (hnotifier : a.notifier = true) (hsure : ∀ e, env.sure (.notify e) = true) :
    let run := (runJob env a made).exec env.step .calm fs w
    Spoken run.1 w run.2 ↔ (Op.mkdirs, false) ∉ w.since run.2 ∧
      Worded env made (hooked env a (fs.tail.headD .calm)) ∧
      ((Op.hook postBackup, false) ∈ w.since run.2 → Deficient env a made w.log.length run.2) := by
  intro run
  have hrun : run = (((runEnd env a made).exec env.step .calm fs w).1.answer,
      ((runEnd env a made).exec env.step .calm fs w).2) := by
    show (runJob env a made).exec env.step .calm fs w = _
    rw [runJob_eq]
    exact Prog.exec_map _ _ _ _ _
  have hwp : (runEnd env a made).wp env.step (fun _ _ => True) (EndedAs env a made w) w := wp_runEnd made w
  have hend := Prog.exec_wp .calm hwp fs
  rw [hrun, hend.spoken hnotifier hsure]
  cases hbegun : ((runEnd env a made).exec env.step .calm fs w).1.refuses with
  | false => rw [escapes_iff env a made fs w hbegun]
  | true =>
    have hno := hend.refused hbegun
    exact iff_of_false (fun h => h.1 hno) fun h => h.1 hno

/-! ## concrete runs -/

/-- the notifier does not raise, and a hook may ask the interpreter to exit -/
def alertEnv : Env :=
  { plainEnv with
    sure := fun o => match o with
      | .notify _ => true
      | _ => false
    taken := fun e => if e.type = "SystemExit".toList then .passing else .described }

/-- a run of the default job with notifier and hooks -/
def alertedRun : RunArgs := { runAt {} none with notifier := true, hooks := true }

theorem spoken_iff_alertedRun :
    let run := (runJob alertEnv alertedRun (.ok bundle)).exec alertEnv.step .calm [] (worldOf [])
    Spoken run.1 (worldOf []) run.2 ↔ (Op.mkdirs, false) ∉ (worldOf []).since run.2 ∧
      Worded alertEnv (.ok bundle) (hooked alertEnv alertedRun (([] : List Fault).tail.headD .calm)) ∧
      ((Op.hook postBackup, false) ∈ (worldOf []).since run.2 →
        Deficient alertEnv alertedRun (.ok bundle) (worldOf []).log.length run.2) :=
  spoken_iff alertEnv alertedRun (.ok bundle) [] (worldOf []) rfl fun _ => rfl

/-- a run from the empty store under the faults `fs` -/
def alertedEnd (fs : List Fault) : Except Exc JobResult × World :=
  (runJob alertEnv alertedRun (.ok bundle)).exec alertEnv.step .calm fs (worldOf [])

/-- the ninth operation after the first is the `post_backup` hook -/
def lateFault : List Fault := List.replicate 9 .calm ++ [torn]

/-- the second operation is the `pre_backup` hook -/
def exitFault : List Fault := [.calm, .raise ⟨"SystemExit".toList, "1".toList⟩ .untouched]

/-- **Where a run is silent**: a data dir that cannot be made, a `pre_backup` hook that exits, and a
`post_backup` hook that raises after the alert of a success. -/
theorem silent_runs :
    ¬ Spoken (alertedEnd [torn]).1 (worldOf []) (alertedEnd [torn]).2 ∧
      ¬ Spoken (alertedEnd exitFault).1 (worldOf []) (alertedEnd exitFault).2 ∧
        ¬ Spoken (alertedEnd lateFault).1 (worldOf []) (alertedEnd lateFault).2 := by
  refine ⟨?_, ?_, ?_⟩
  · rintro ⟨e, he, -⟩
    have hnone : (alertedEnd [torn]).2.alerts = [] := by decide +kernel
    rw [hnone] at he
    cases he
  · rintro ⟨e, he, -⟩
    have hnone : (alertedEnd exitFault).2.alerts = [] := by decide +kernel
    rw [hnone] at he
    cases he
  · rintro ⟨e, he, hstatus⟩
    have hraised : isOk (alertedEnd lateFault).1 = false := by decide +kernel
    have hsuccess : (alertedEnd lateFault).2.alerts.map (·.status) = [.success] := by decide +kernel
    rw [he, show (worldOf []).alerts ++ [e] = [e] from rfl, List.map_singleton,
      hstatus hraised] at hsuccess
    cases hsuccess

end BackupHelper
