import BackupHelper.Alerts
import BackupHelper.OffsitePending
import BackupHelper.RetentionPasses
import BackupHelper.Runner.Produce
import BackupHelper.Runner.Tells

/-!
# What a run of status success has done

* `CleanSources`           every source produced only components without error and warnings;
* `World.CaughtUp`         a pending snapshot was copied to a destination;
* `World.FindsOwn`         the condition on pending ids: the archive that is looked up is their own;
* `Succeeded`              all that status success is taken to say;
* `success_is_sound`       a run of status success has done all of it, and status error tells
                           exactly of failed components and of snapshots that no destination took;
* `success_without_catchUp`  the run that the condition excludes.
-/

set_option linter.unusedSectionVars false

namespace BackupHelper
open Text Glob Effects Calendar Files Python

/-! ## the sources -/

section
variable {h : Host} {d : Disk FileData}

/-- a component with a file, without an error text and without warnings -/
def CleanItem (h : Host) : Item → Prop
  | .other => False
  | .component sc => sc.error.truthy = false ∧ sc.path ≠ .absent ∧
      ∃ m, sc.metadata = .dict m ∧ warningTexts h m = .ok []

/-- every active source returned clean components only, each at the directory that the sources
before it left -/
def CleanSources (h : Host) : List SourceRun → Disk FileData → Prop
  | [], _ => True
  | s :: sources, d =>
    if active s then
      (∃ returned, (s.run d).2 = .ok returned ∧ returned.stop = none ∧
        ∀ item ∈ returned.items, CleanItem h item) ∧
        CleanSources h sources (s.run d).1
    else CleanSources h sources d

theorem reportSourceWarnings_nil {name : PyText} {m : List (PyText × PyVal)}
    (hw : reportSourceWarnings h name m = .ok []) : warningTexts h m = .ok [] := by
  unfold reportSourceWarnings at hw
  cases ht : warningTexts h m with
  | error e =>
    rw [ht] at hw
    cases hw
  | ok ws =>
    rw [ht] at hw
    cases ws with
    | nil => rfl
    | cons w ws => cases hw

theorem buildComponent_ok {name kind : PyVal} {size : ℕ} {sha : Str} {error : Option PyText}
    {metadata : PyVal} {c : PyComponent}
    (hc : buildComponent h name kind size sha error metadata = .ok c) :
    name = .text c.name ∧ kind = .text c.kind ∧ metadata = .dict c.metadata ∧ c.size = size ∧
      c.sha256 = sha ∧ c.error = error := by
  unfold buildComponent at hc
  split at hc
  · obtain rfl := Except.ok.inj hc
    exact ⟨rfl, rfl, rfl, rfl, rfl, rfl⟩
  · cases hc

theorem failure_none {sc : PyStaged} (hf : failure h sc = .ok none) :
    sc.error.truthy = false ∧ sc.path ≠ .absent := by
  unfold failure at hf
  split at hf
  · split at hf <;> cases hf
  · rename_i htruthy
    split at hf
    · cases hf
    · rename_i hpath
      exact ⟨Bool.eq_false_iff.mpr htruthy, hpath⟩

/-- a component that leaves no error is clean -/
theorem recordComponent_clean {sc : PyStaged} {cs : List PyComponent}
    (hr : recordComponent h d sc = (.ok cs, [])) :
    CleanItem h (.component sc) ∧ ∀ c ∈ cs, c.error = none := by
  unfold recordComponent at hr
  split at hr
  · cases (Prod.mk.inj hr).1
  · cases (Prod.mk.inj hr).2
  · rename_i hf
    obtain ⟨htruthy, hpath⟩ := failure_none hf
    split at hr
    · cases (Prod.mk.inj hr).1
    · split at hr
      · cases (Prod.mk.inj hr).1
      · rename_i c hc
        obtain ⟨-, -, hmeta, -, -, herr⟩ := buildComponent_ok hc
        split at hr
        · cases (Prod.mk.inj hr).1
        · rename_i errors hw
          obtain ⟨hcs, rfl⟩ := Prod.mk.inj hr
          obtain rfl := Except.ok.inj hcs
          refine ⟨⟨htruthy, hpath, c.metadata, hmeta, reportSourceWarnings_nil hw⟩, fun c' hc' => ?_⟩
          rw [List.mem_singleton.mp hc', herr]

theorem recordItems_clean {stop : Option PyExc} {items : List Item} {cs : List PyComponent}
    (hr : recordItems h d stop items = (.ok cs, [])) :
    stop = none ∧ (∀ item ∈ items, CleanItem h item) ∧ ∀ c ∈ cs, c.error = none := by
  induction items generalizing cs with
  | nil =>
    unfold recordItems at hr
    cases stop with
    | none =>
      obtain rfl := Except.ok.inj (Prod.mk.inj hr).1
      exact ⟨rfl, by simp, by simp⟩
    | some e => cases (Prod.mk.inj hr).1
  | cons item items ih =>
    unfold recordItems at hr
    split at hr
    · cases (Prod.mk.inj hr).1
    · rename_i first errors hi
      obtain ⟨hcs, herrs⟩ := Prod.mk.inj hr
      obtain ⟨rfl, hrest⟩ := List.append_eq_nil_iff.mp herrs
      obtain ⟨rest, hok, rfl⟩ : ∃ rest, (recordItems h d stop items).1 = .ok rest ∧
          first ++ rest = cs := by
        cases hx : (recordItems h d stop items).1 with
        | error e =>
          rw [hx] at hcs
          cases hcs
        | ok rest =>
          rw [hx] at hcs
          exact ⟨rest, rfl, Except.ok.inj hcs⟩
      obtain ⟨hstop, hitems, hcomps⟩ := ih (Prod.ext hok hrest)
      cases item with
      | other => cases (Prod.mk.inj hi).1
      | component sc =>
        obtain ⟨hclean, hfirst⟩ := recordComponent_clean hi
        refine ⟨hstop, fun item hm => ?_, fun c hc => ?_⟩
        · rcases List.mem_cons.mp hm with rfl | hm
          · exact hclean
          · exact hitems item hm
        · exact (List.mem_append.mp hc).elim (hfirst c) (hcomps c)

theorem recordRaised_loud {type : Str} {name : PyVal} {e : PyExc} {cs : List PyComponent}
    {errors : List PyText} (hr : recordRaised h type name e = (.ok cs, errors)) : errors ≠ [] := by
  unfold recordRaised at hr
  split at hr
  · cases (Prod.mk.inj hr).1
  · rw [← (Prod.mk.inj hr).2]
    simp

theorem stage_clean {staging : Path} {s : SourceRun} {d' : Disk FileData} {cs : List PyComponent}
    (hs : stage h staging s d = (d', .ok cs, [])) :
    d' = (s.run d).1 ∧ (∃ returned, (s.run d).2 = .ok returned ∧ returned.stop = none ∧
      ∀ item ∈ returned.items, CleanItem h item) ∧ ∀ c ∈ cs, c.error = none := by
  unfold stage at hs
  split at hs
  · cases (Prod.mk.inj (Prod.mk.inj hs).2).1
  · split at hs
    · rename_i d₁ returned hrun
      obtain ⟨rfl, hrec⟩ := Prod.mk.inj hs
      obtain ⟨hstop, hitems, hcs⟩ := recordItems_clean hrec
      rw [hrun]
      exact ⟨rfl, ⟨returned, rfl, hstop, hitems⟩, hcs⟩
    · split at hs
      · cases (Prod.mk.inj (Prod.mk.inj hs).2).1
      · rename_i hraised
        split at hs
        · cases (Prod.mk.inj (Prod.mk.inj hs).2).1
        · obtain ⟨-, name, -, hloud⟩ := handleRaised_ok h hraised
          exact absurd (Prod.mk.inj (Prod.mk.inj hs).2).2 (recordRaised_loud hloud)

/-- **A run of the sources that leaves no error was clean.** -/
theorem produce_clean {staging : Path} {sources : List SourceRun} {d' : Disk FileData}
    {cs : List PyComponent} (hp : produce h staging sources d = (d', .ok cs, [])) :
    CleanSources h sources d ∧ ∀ c ∈ cs, c.error = none := by
  induction sources generalizing d cs with
  | nil =>
    obtain rfl := Except.ok.inj (Prod.mk.inj (Prod.mk.inj hp).2).1
    exact ⟨trivial, by simp⟩
  | cons s sources ih =>
    unfold produce at hp
    unfold CleanSources
    split at hp
    · rename_i hactive
      rw [if_pos hactive]
      split at hp
      · cases (Prod.mk.inj (Prod.mk.inj hp).2).1
      · rename_i d₁ first errors hs
        obtain ⟨hd, hp⟩ := Prod.mk.inj hp
        obtain ⟨hcs, herrs⟩ := Prod.mk.inj hp
        obtain ⟨rfl, hrest⟩ := List.append_eq_nil_iff.mp herrs
        obtain ⟨rfl, hclean, hfirst⟩ := stage_clean hs
        obtain ⟨rest, hok, rfl⟩ : ∃ rest, (produce h staging sources (s.run d).1).2.1 = .ok rest ∧
            first ++ rest = cs := by
          cases hx : (produce h staging sources (s.run d).1).2.1 with
          | error e =>
            rw [hx] at hcs
            cases hcs
          | ok rest =>
            rw [hx] at hcs
            exact ⟨rest, rfl, Except.ok.inj hcs⟩
        obtain ⟨hsources, hcomps⟩ := ih (Prod.ext hd (Prod.ext hok hrest))
        refine ⟨⟨hclean, hsources⟩, fun c hc => ?_⟩
        exact (List.mem_append.mp hc).elim (hfirst c) (hcomps c)
    · rename_i hactive
      rw [if_neg hactive]
      exact ih hp

theorem maybeEncrypt_quiet {mode : EncryptionMode} {archive b : Bytes} {e : EncryptionMode}
    (he : maybeEncrypt h mode archive = .ok (b, e, [])) :
    e = mode ∧ (mode ≠ .none → h.encrypt mode archive = .ok b) := by
  unfold maybeEncrypt at he
  split at he
  · rw [← (Prod.mk.inj (Prod.mk.inj (Except.ok.inj he)).2).1]
    exact ⟨rfl, fun hne => absurd rfl hne⟩
  · split at he
    · rename_i hb
      obtain ⟨hbytes, hmode⟩ := Prod.mk.inj (Except.ok.inj he)
      rw [← (Prod.mk.inj hmode).1, ← hbytes]
      exact ⟨rfl, fun _ => hb⟩
    · rename_i x hx
      split at he
      · cases he
      cases hd : describe h x with
      | error e' =>
        rw [hd] at he
        cases he
      | ok reason =>
        rw [hd] at he
        cases (Prod.mk.inj (Prod.mk.inj (Except.ok.inj he)).2).2

/-- what the steps after the sources come to, if none raises -/
theorem bundleStaged_ok {a : RunArgs} {staging : Path} {components : List Component}
    {r : Bytes × EncryptionMode × List PyText}
    (hb : bundleStaged h a staging d components = .ok r) :
    ∃ d' archive, overwrite h d (staging, [manifestFile])
        (.manifest (Manifest.build a.sid a.instance_ components (isoformat a.now) none)) = some d' ∧
      archiveOf h staging d' = .ok archive ∧ maybeEncrypt h a.job.encryption archive = .ok r := by
  unfold bundleStaged at hb
  dsimp only at hb
  split at hb
  · cases hb
  · rename_i d' hw
    split at hb
    · cases hb
    · rename_i archive ha
      exact ⟨d', archive, hw, ha, hb⟩

/-- **What a bundle without errors comes from.** -/
theorem makeBundle_quiet {a : RunArgs} {staging : Path} {sources : List SourceRun} {made : Made}
    (hm : makeBundle h a staging sources d = .ok made) (herr : made.errors = []) :
    CleanSources h sources d ∧ made.encrypted = a.job.encryption ∧
      (a.job.encryption ≠ .none → ∃ archive, h.encrypt a.job.encryption archive = .ok made.archive) := by
  unfold makeBundle at hm
  split at hm
  · cases hm
  · rename_i d' components errors hp
    split at hm
    · cases hm
    · split at hm
      · cases hm
      · rename_i written hw archive mode more hb
        obtain rfl := Except.ok.inj hm
        obtain ⟨rfl, rfl⟩ := List.append_eq_nil_iff.mp (List.map_eq_nil_iff.mp herr)
        refine ⟨(produce_clean hp).1, ?_⟩
        obtain ⟨_, archive, -, -, henc⟩ := bundleStaged_ok hb
        obtain ⟨hmode, hbytes⟩ := maybeEncrypt_quiet henc
        exact ⟨hmode, fun hne => ⟨archive, hbytes hne⟩⟩

end
/-! ## delivery -/

/-- where a run stores its snapshot if nothing fails -/
def targets (job : Job) : List Dest :=
  if specDests job.destinations = [] then [.local] else specDests job.destinations

section
variable {env : Env} {x y : Str}

/-- the log of every run grows -/
theorem wp_grows {α : Type} (p : M α) (w : World) :
    p.wp env.step (fun _ _ => True) (fun _ w' => Grew (fun _ => True) w w') w := by
  have honly : p.Only (fun _ => True) := by
    induction p with
    | ret a => trivial
    | op o k ih => exact ⟨trivial, ih⟩
  exact honly.wp (fun o f w₁ _ h => ⟨trivial, h.trans (grew_step o f w₁ trivial)⟩) (Grew.refl _ w)

/-- what uploads of the names `x` and `y` to `dests` do to the data dir, if `S` stored both -/
structure Landing (x y : Str) (dests S : List Dest) (w w' : World) : Prop where
  other : ∀ k, k ≠ x → k ≠ y → w'.get .data k = w.get .data k
  stays : ∀ k, (w.get .data k).isSome → (w'.get .data k).isSome
  stored : .local ∈ S → (w'.get .data x).isSome ∧ (w'.get .data y).isSome
  away : .local ∉ dests → ∀ k, w'.get .data k = w.get .data k

theorem Landing.refl (dests : List Dest) {w w' : World} (h : ∀ k, w'.get .data k = w.get .data k) :
    Landing x y dests [] w w' :=
  ⟨fun k _ _ => h k, fun k hk => by rw [h k]; exact hk, fun h => by simp at h, fun _ => h⟩

/-- one more put of `x` or `y` -/
theorem Landing.wrote {dests S : List Dest} {w w₁ w₂ : World} (h : Landing x y dests S w w₁) {d : Dest}
    (hd : d ∈ dests) {key : Str} (hkey : key = x ∨ key = y) {c : Content} {r : Except Exc Unit}
    (hw : Wrote (d.loc env) (d.pre ++ key) c w₁ r w₂) : Landing x y dests S w w₂ := by
  refine ⟨fun k hx hy => ?_, fun k hk => hw.isSome (h.stays k hk), fun hl => ?_, fun hl k => ?_⟩
  · refine (hw.other _ _ fun he => ?_).trans (h.other k hx hy)
    cases d with
    | «local» =>
      obtain rfl : k = key := (Prod.mk.inj he).2
      exact hkey.elim hx hy
    | s3 c => simp [Dest.loc] at he
  · exact ⟨hw.isSome (h.stored hl).1, hw.isSome (h.stored hl).2⟩
  · refine (hw.other _ _ fun he => ?_).trans (h.away hl k)
    cases d with
    | «local» => exact hl hd
    | s3 c => simp [Dest.loc] at he

theorem Landing.upload {artifact : Artifact} {sidecar : Src} {sid : Str} {dests S : List Dest}
    {w w₁ : World} (h : Landing artifact.name (sid ++ manifestSuffix) dests S w w₁) {d : Dest}
    (hd : d ∈ dests) : (uploadTo d artifact sidecar sid).wp env.step (fun _ _ => True) (fun r w' =>
      Landing artifact.name (sid ++ manifestSuffix) dests (if isOk r then S ++ [d] else S) w w') w₁ := by
  apply wp_uploadTo
  intro c r w₂ _ hwrote _
  have h₂ := h.wrote hd (Or.inl rfl) hwrote
  refine ⟨trivial, ?_, ?_⟩
  · rintro e rfl
    exact h₂
  · rintro rfl c' r' w₃ _ hwrote' _
    have h₃ := h₂.wrote hd (Or.inr rfl) hwrote'
    refine ⟨trivial, ?_⟩
    cases r' with
    | error e => exact h₃
    | ok u =>
      refine ⟨h₃.other, h₃.stays, fun hl => ?_, h₃.away⟩
      rcases List.mem_append.mp hl with hl | hl
      · exact h₃.stored hl
      · obtain rfl := List.mem_singleton.mp hl
        have hx : (w₂.get .data artifact.name).isSome := by
          have := hwrote.done rfl
          rw [show w₂.get .data artifact.name = some c from this]
          rfl
        have hy : (w₃.get .data (sid ++ manifestSuffix)).isSome := by
          have := hwrote'.done rfl
          rw [show w₃.get .data (sid ++ manifestSuffix) = some c' from this]
          rfl
        exact ⟨hwrote'.isSome hx, hy⟩

/-- a delivery without errors reached every target -/
theorem wp_deliver_all {job : Job} {artifact : Artifact} {sidecar : Src} {sid : Str} {w : World} :
    (deliver env job artifact sidecar sid).wp env.step (fun _ _ => True) (fun r w' =>
      r.2 = [] → r.1.destinations = targets job ∧ r.1.stored = targets job ∧ r.1.fallback = none ∧
        Landing artifact.name (sid ++ manifestSuffix) (targets job) (targets job) w w') w := by
  have hup : ∀ dests w₁, (∀ k, w₁.get .data k = w.get .data k) →
      (upload artifact sidecar sid dests).wp env.step (fun _ _ => True) (fun r w' => r.2 = [] →
        r.1 = dests ∧ Landing artifact.name (sid ++ manifestSuffix) dests dests w w') w₁ := by
    intro dests w₁ hsame
    have hstep : (upload artifact sidecar sid dests).wp env.step (fun _ _ => True) (fun r w' =>
        Landing artifact.name (sid ++ manifestSuffix) dests r.1 w w' ∧ r.1.Sublist dests ∧
          r.1.length + r.2.length = dests.length) w₁ :=
      wp_upload (I := fun S w' => Landing artifact.name (sid ++ manifestSuffix) dests S w w')
        (fun _ d _ _ _ hd _ h => h.upload (by rw [hd]; simp)) (Landing.refl dests hsame)
    refine Prog.wp_post hstep fun r w' h hnil => ?_
    obtain ⟨hplaced, hsub, hlen⟩ := h
    rw [hnil] at hlen
    have hall : r.1 = dests := hsub.eq_of_length (by simpa using hlen)
    rw [hall] at hplaced
    exact ⟨hall, hplaced⟩
  refine Prog.wp_seq (wp_buildDestinations (fun _ _ _ => trivial) job.destinations w) fun r w₁ h => ?_
  obtain ⟨hq, hsub, hlen, -⟩ := h
  obtain ⟨built, failures⟩ := r
  let destinations := if built = [] ∧ failures = [] then [.local] else built
  have hdest : failures = [] → destinations = targets job := by
    rintro rfl
    have hb : built = specDests job.destinations := hsub.eq_of_length (by simpa using hlen)
    unfold targets
    rw [← hb]
    show (if built = [] ∧ [] = [] then _ else _) = _
    simp
  refine Prog.wp_seq (hup destinations w₁ (hq.get .data)) fun r w₂ h => ?_
  obtain ⟨stored, uploadErrors⟩ := r
  by_cases hf : stored = [] ∧ ¬ destinations.any (·.isLocal) = true
  · show Prog.wp env.step _ _ (if stored = [] ∧ ¬ destinations.any (·.isLocal) = true then _ else _) w₂
    rw [if_pos hf]
    refine Prog.wp_seq (wp_grows _ w₂) fun r w₃ _ => ?_
    intro herr
    -- there is a target, so an upload to none of them left an error
    exfalso
    obtain ⟨⟨⟨hfail, hnil⟩, -⟩, -⟩ : ((failures = [] ∧ uploadErrors = []) ∧ r.2 = []) ∧ _ := by
      simpa only [List.append_eq_nil_iff] using herr
    have hne : destinations = [] := by rw [← (h hnil).1, hf.1]
    rw [hdest hfail] at hne
    unfold targets at hne
    split at hne
    · cases hne
    · contradiction
  · show Prog.wp env.step _ _ (if stored = [] ∧ ¬ destinations.any (·.isLocal) = true then _ else _) w₂
    rw [if_neg hf]
    intro herr
    obtain ⟨hfail, hnil⟩ := List.append_eq_nil_iff.mp herr
    obtain ⟨hall, hplaced⟩ := h hnil
    have htargets := hdest hfail
    rw [htargets] at hplaced
    exact ⟨htargets, hall.trans htargets, rfl, hplaced⟩

/-- every S3 destination with a bucket was built, or an attempt failed -/
theorem wp_build_noted (specs : List DestinationSpec) (w : World) :
    (buildDestinations env specs).wp env.step (fun _ _ => True) (fun _ w' =>
      ∀ c, .s3 c ∈ specDests specs → ∃ b, (Op.build c, b) ∈ w.since w') w := by
  induction specs generalizing w with
  | nil => exact fun c hc => by simp [specDests] at hc
  | cons spec specs ih =>
    cases spec with
    | «local» =>
      have hs : specDests (.local :: specs) = .local :: specDests specs := rfl
      rw [hs]
      refine Prog.wp_seq (ih w) fun r w' h c hc => h c ?_
      exact (List.mem_cons.mp hc).resolve_left (by simp)
    | s3 c₀ =>
      by_cases hb : c₀.bucket = []
      · have hs : specDests (.s3 c₀ :: specs) = specDests specs := by
          simp [specDests, DestinationSpec.dest?, hb]
        rw [hs]
        unfold buildDestinations
        rw [if_pos hb]
        exact ih w
      · have hs : specDests (.s3 c₀ :: specs) = .s3 c₀ :: specDests specs := by
          simp [specDests, DestinationSpec.dest?, hb]
        rw [hs]
        unfold buildDestinations
        rw [if_neg hb]
        have hbuild : (build c₀).wp env.step (fun _ _ => True) (fun _ w' =>
            Grew (fun _ => True) w w' ∧ ∃ b, (Op.build c₀, b) ∈ w.since w') w := by
          intro f
          have hg : Grew (fun _ => True) w (env.step (.build c₀) f w).2 := grew_step _ f w trivial
          refine ⟨trivial, hg, ?_⟩
          show ∃ b, (Op.build c₀, b) ∈ w.since (w.note (Op.build c₀, _))
          rw [since_note]
          exact ⟨_, List.mem_cons_self⟩
        refine Prog.wp_seq hbuild fun r w₁ h₁ => ?_
        obtain ⟨hg₁, b₀, hb₀⟩ := h₁
        refine Prog.wp_seq (Prog.wp_mono (Prog.wp_and (ih w₁) (wp_grows (buildDestinations env specs) w₁))
          (fun _ _ _ => trivial) fun _ _ h => h) fun r' w₂ h₂ => ?_
        obtain ⟨hrest, hg₂⟩ := h₂
        have hall : ∀ c, .s3 c ∈ Dest.s3 c₀ :: specDests specs → ∃ b, (Op.build c, b) ∈ w.since w₂ := by
          intro c hc
          rcases List.mem_cons.mp hc with he | hc
          · obtain rfl := Dest.s3.inj he
            exact ⟨b₀, hg₁.since_mono hg₂ hb₀⟩
          · obtain ⟨b, hb⟩ := hrest c hc
            exact ⟨b, hg₁.since_trans hg₂ hb⟩
        cases r with
        | ok u => exact hall
        | error e => exact hall

end

/-! ## catch-up -/

/-- the archive that is looked up for `q`, once its manifest is there, is one of `q`, and one is
found if there is one -/
def World.FindsOwn (w : World) (q : Str) : Prop :=
  (w.get .data (q ++ manifestSuffix)).isSome →
    (∀ k, w.artifactOf q = some k → ∃ e, k = archiveName q e) ∧
    ∀ e, (w.get .data (archiveName q e)).isSome → (w.artifactOf q).isSome

/-- archive and manifest of `q` are in the data dir -/
def World.HasSnapshot (w : World) (q : Str) : Prop :=
  (∃ e, (w.get .data (archiveName q e)).isSome) ∧ (w.get .data (q ++ manifestSuffix)).isSome

/-- archive and manifest of `q` were copied to `d` from the data dir, after the first `n` operations -/
def World.CaughtUp (w : World) (n : ℕ) (d : Dest) (q : Str) : Prop :=
  ∃ e, (Op.put d (archiveName q e) (.data (archiveName q e)), true) ∈ w.log.drop n ∧
    (Op.put d (q ++ manifestSuffix) (.data (q ++ manifestSuffix)), true) ∈ w.log.drop n

/-- what is listed first is the least -/
theorem head?_sorted {l : List Str} {x : Str} :
    (sorted l).head? = some x ↔ x ∈ l ∧ ∀ y ∈ l, x ≤ y := by
  have hsorted := sorted_pairwise l
  constructor
  · intro h
    obtain ⟨t, ht⟩ := List.head?_eq_some_iff.mp h
    rw [ht] at hsorted
    refine ⟨mem_sorted.mp (by rw [ht]; exact List.mem_cons_self), fun y hy => ?_⟩
    have hmem := mem_sorted.mpr hy
    rw [ht] at hmem
    rcases List.mem_cons.mp hmem with rfl | hmem
    · exact le_rfl
    · exact (List.pairwise_cons.mp hsorted).1 y hmem
  · rintro ⟨hx, hleast⟩
    cases hs : sorted l with
    | nil =>
      have := mem_sorted.mpr hx
      rw [hs] at this
      simp at this
    | cons z t =>
      have hz : z ∈ l := mem_sorted.mp (by rw [hs]; exact List.mem_cons_self)
      have hxs := mem_sorted.mpr hx
      rw [hs] at hxs hsorted
      have hle : z ≤ x := by
        rcases List.mem_cons.mp hxs with rfl | hmem
        · exact le_rfl
        · exact (List.pairwise_cons.mp hsorted).1 x hmem
      rw [le_antisymm hle (hleast z hz)]
      rfl

theorem artifactOf_eq_some {w : World} {q k : Str} : w.artifactOf q = some k ↔
    (w.get .data k).isSome ∧ free '/' k ∧ looksUp q k = true ∧
      ∀ k', (w.get .data k').isSome → free '/' k' → looksUp q k' = true → k ≤ k' := by
  have hmem : ∀ k', k' ∈ (w.files .data).keys.filter
      (fun k => '/' ∉ k ∧ fnmatch (q ++ tarSuffix ++ ['*']) k) ↔
      (w.get .data k').isSome ∧ free '/' k' ∧ looksUp q k' = true := by
    intro k'
    rw [← mem_sorted]
    exact World.mem_globbed
  unfold World.artifactOf World.globbed
  rw [head?_sorted, hmem]
  constructor
  · rintro ⟨⟨h1, h2, h3⟩, hleast⟩
    exact ⟨h1, h2, h3, fun k' h1 h2 h3 => hleast k' ((hmem k').mpr ⟨h1, h2, h3⟩)⟩
  · rintro ⟨h1, h2, h3, hleast⟩
    refine ⟨⟨h1, h2, h3⟩, fun k' hk' => ?_⟩
    obtain ⟨h1, h2, h3⟩ := (hmem k').mp hk'
    exact hleast k' h1 h2 h3

/-- names other than the first one found may go -/
theorem artifactOf_thinned {w w' : World} {q : Str}
    (hfewer : ∀ k, (w'.get .data k).isSome → (w.get .data k).isSome)
    (hfirst : ∀ k, w.artifactOf q = some k → (w'.get .data k).isSome) :
    w'.artifactOf q = w.artifactOf q := by
  cases h : w.artifactOf q with
  | some k =>
    obtain ⟨-, h2, h3, hleast⟩ := artifactOf_eq_some.mp h
    exact artifactOf_eq_some.mpr ⟨hfirst k h, h2, h3, fun k' h1 => hleast k' (hfewer k' h1)⟩
  | none =>
    cases h' : w'.artifactOf q with
    | none => rfl
    | some k =>
      obtain ⟨h1, h2, h3, -⟩ := artifactOf_eq_some.mp h'
      have hnone := none_of_artifactOf h h2 h3
      have hsome := hfewer k h1
      rw [hnone] at hsome
      simp at hsome

theorem artifactOf_congr {w w' : World} {q : Str}
    (h : ∀ k, (w'.get .data k).isSome ↔ (w.get .data k).isSome) : w'.artifactOf q = w.artifactOf q := by
  refine artifactOf_thinned (fun k => (h k).mp) fun k hk => (h k).mpr ?_
  exact (artifactOf_eq_some.mp hk).1

/-- since `w₁`, names have gone from the data dir: for a snapshot that still has its manifest, not
the archive that was found first, and manifests only of `done` -/
structure Thinned (w₁ : World) (done : List Str) (w : World) : Prop where
  fewer : ∀ k, (w.get .data k).isSome → (w₁.get .data k).isSome
  first : ∀ q, ∀ k, w₁.FindsOwn q → (w.get .data (q ++ manifestSuffix)).isSome →
    w₁.artifactOf q = some k → (w.get .data k).isSome
  there : ∀ q, q ∉ done → (w₁.get .data (q ++ manifestSuffix)).isSome →
    (w.get .data (q ++ manifestSuffix)).isSome

theorem Thinned.refl (w : World) : Thinned w [] w :=
  ⟨fun _ h => h, fun _ _ _ _ h => (artifactOf_eq_some.mp h).1, fun _ _ h => h⟩

theorem Thinned.of_get {w₁ w w' : World} {done : List Str} (h : Thinned w₁ done w)
    (hget : ∀ k, w'.get .data k = w.get .data k) : Thinned w₁ done w' := by
  refine ⟨fun k hk => h.fewer k ?_, fun q k hf hm hk => ?_, fun q hq hm => ?_⟩
  · rw [← hget]
    exact hk
  · rw [hget] at hm ⊢
    exact h.first q k hf hm hk
  · rw [hget]
    exact h.there q hq hm

theorem Thinned.artifactOf {w₁ w : World} {done : List Str} (h : Thinned w₁ done w) {q : Str}
    (hf : w₁.FindsOwn q) (hm : (w.get .data (q ++ manifestSuffix)).isSome) :
    w.artifactOf q = w₁.artifactOf q :=
  artifactOf_thinned h.fewer fun k hk => h.first q k hf hm hk

/-- the turn of `q`: only its marker has gone, or all its names -/
theorem Thinned.turn {w₁ w w' : World} {done : List Str} {q : Str} (h : Thinned w₁ done w)
    (hfewer : ∀ k, (w'.get .data k).isSome → (w.get .data k).isSome)
    (hother : ∀ k, k ≠ q ++ pendingSuffix → w'.get .data k = w.get .data k ∨
      w'.get .data (q ++ manifestSuffix) = none ∧ (k = q ++ manifestSuffix ∨ ∃ e, k = archiveName q e)) :
    Thinned w₁ (q :: done) w' := by
  refine ⟨fun k hk => h.fewer k (hfewer k hk), fun q' k hf hm hk => ?_, fun q' hq' hm => ?_⟩
  · have hm' := hfewer _ hm
    have hthere := h.first q' k hf hm' hk
    -- the archive of `q'` is not a name of another snapshot
    obtain ⟨e, rfl⟩ := (hf (h.fewer _ hm')).1 k hk
    rcases hother _ (archive_not_pending _ _ _) with hsame | ⟨hnone, hman | ⟨e', he'⟩⟩
    · rw [hsame]
      exact hthere
    · exact absurd hman (archive_not_manifest _ _ _)
    · rw [(archiveName_inj he').1, hnone] at hm
      simp at hm
  · have hthere := h.there q' (fun hq => hq' (List.mem_cons_of_mem _ hq)) hm
    rcases hother _ (manifest_not_pending _ _) with hsame | ⟨-, hman | ⟨e, he⟩⟩
    · rw [hsame]
      exact hthere
    · exact absurd (List.append_cancel_right hman ▸ List.mem_cons_self) hq'
    · exact absurd he.symm (archive_not_manifest _ _ _)

section
variable {env : Env} {w₁ : World} {n : ℕ} {offsite : List Dest}

theorem World.CaughtUp.mono {w w' : World} {d : Dest} {q : Str} {es : List (Op × Bool)}
    (h : w.CaughtUp n d q) (hlog : w'.log = w.log ++ es) : w'.CaughtUp n d q := by
  obtain ⟨e, h1, h2⟩ := h
  have hsub : w.log.drop n ⊆ w'.log.drop n := by
    rw [hlog, List.drop_append]
    exact List.subset_append_left _ _
  exact ⟨e, hsub h1, hsub h2⟩

/-- the archive and the manifest of `q`, copied to all of `dests` -/
theorem wp_upload_caughtUp {q : Str} {e : EncryptionMode} {dests : List Dest}
    (hloc : ∀ d ∈ dests, d ≠ .local) {w : World} (hn : n ≤ w.log.length) :
    (upload ⟨archiveName q e, .data (archiveName q e)⟩ (.data (q ++ manifestSuffix)) q dests).wp
      env.step (fun _ _ => True) (fun r w' => (∀ k, w'.get .data k = w.get .data k) ∧
        Grew (fun _ => True) w w' ∧ (∀ d ∈ r.1, w'.CaughtUp n d q) ∧ r.1.Sublist dests ∧
          r.1.length + r.2.length = dests.length) w := by
  let I : List Dest → World → Prop := fun S w' => (∀ k, w'.get .data k = w.get .data k) ∧
    Grew (fun _ => True) w w' ∧ ∀ d ∈ S, w'.CaughtUp n d q
  have hstart : I [] w := ⟨fun _ => rfl, Grew.refl _ w, by simp⟩
  refine Prog.wp_post (wp_upload (I := I) (fun before d after S w₂ hd _ h => ?_) hstart)
    fun r w' h => ⟨h.1.1, h.1.2.1, h.1.2.2, h.2.1, h.2.2⟩
  obtain ⟨hget, hgrew, hall⟩ := h
  have hne : Loc.data ≠ d.loc env := by
    cases d with
    | «local» => exact absurd rfl (hloc _ (by rw [hd]; simp))
    | s3 c => simp [Dest.loc]
  have hdata : ∀ {key c w r w'}, Wrote (d.loc env) (d.pre ++ key) c w r w' →
      ∀ k, w'.get .data k = w.get .data k :=
    fun hwrote k => hwrote.other _ _ fun e => hne (Prod.mk.inj e).1
  have hlen : n ≤ w₂.log.length := by
    obtain ⟨es, hl, -⟩ := hgrew
    rw [hl, List.length_append]
    omega
  apply wp_uploadTo
  intro c r w₃ _ hwrote hlog
  have hget₃ : ∀ k, w₃.get .data k = w.get .data k := fun k => (hdata hwrote k).trans (hget k)
  have hgrew₃ : Grew (fun _ => True) w w₃ := hgrew.trans ⟨_, hlog, fun _ _ => trivial⟩
  have hall₃ : ∀ d ∈ S, w₃.CaughtUp n d q := fun x hx => (hall x hx).mono hlog
  refine ⟨trivial, ?_, ?_⟩
  · rintro e rfl
    exact ⟨hget₃, hgrew₃, hall₃⟩
  · rintro rfl c' r' w₄ _ hwrote' hlog'
    refine ⟨trivial, fun k => (hdata hwrote' k).trans (hget₃ k),
      hgrew₃.trans ⟨_, hlog', fun _ _ => trivial⟩, fun x hx => ?_⟩
    cases r' with
    | error e => exact (hall₃ x hx).mono hlog'
    | ok u =>
      rcases List.mem_append.mp hx with hx | hx
      · exact (hall₃ x hx).mono hlog'
      · rw [List.mem_singleton.mp hx]
        have hdrop : w₄.log.drop n = w₂.log.drop n ++ [(.put d (archiveName q e) (.data (archiveName q e)),
            true), (.put d (q ++ manifestSuffix) (.data (q ++ manifestSuffix)), true)] := by
          rw [hlog', hlog, List.append_assoc, List.drop_append_of_le_length hlen]
          rfl
        refine ⟨e, ?_, ?_⟩
        · rw [hdrop]
          simp
        · rw [hdrop]
          simp

/-- an unlink that returned, and otherwise an answer that says so -/
theorem wp_unlink_orRaise {name : Str} {q : M (Except Exc Unit × List Str)}
    {Q : World → Prop} {w : World}
    (h : ∀ w', Removed .data name w (.ok ()) w' → Grew (fun _ => True) w w' →
      q.wp env.step (fun _ _ => True) (fun r w' => Unharmed r → Q w') w') :
    (orRaise (unlink name) q).wp env.step (fun _ _ => True) (fun r w' => Unharmed r → Q w') w := by
  have hun : (unlink name).wp env.step (fun _ _ => True) (fun r w' => (r = .ok () →
      Removed .data name w (.ok ()) w' ∧ Grew (fun _ => True) w w') ∧
        ∀ e, r = .error e → Unharmed ((.error e, []) : Except Exc Unit × List Str) → Q w') w := by
    apply wp_unlink
    intro r w' hrem _ hlog
    refine ⟨trivial, fun hr => ?_, fun e he hu => absurd hu.1 Bool.false_ne_true⟩
    subst hr
    exact ⟨hrem, _, hlog, fun _ _ => trivial⟩
  exact wp_orRaise hun fun w' hw' => h w' hw'.1 hw'.2

/-- what a catch-up without errors and exceptions has done -/
def Shipped (w₁ : World) (n : ℕ) (offsite : List Dest) (ids : List Str) (w : World) : Prop :=
  ∀ q ∈ ids, w₁.HasSnapshot q → ∀ d ∈ offsite, w.CaughtUp n d q

theorem Shipped.mono {w w' : World} {ids : List Str} (h : Shipped w₁ n offsite ids w)
    (hg : Grew (fun _ => True) w w') : Shipped w₁ n offsite ids w' := by
  obtain ⟨es, hl, -⟩ := hg
  exact fun q hq hs d hd => (h q hq hs d hd).mono hl

theorem wp_shipPending_all {keepsLocal : Bool} {ids : List Str} (hloc : ∀ d ∈ offsite, d ≠ .local)
    (hfind : ∀ q ∈ ids, w₁.FindsOwn q) {done : List Str} {w : World} (ht : Thinned w₁ done w)
    (hn : n ≤ w.log.length) (hdone : Shipped w₁ n offsite done w) :
    (shipPending keepsLocal offsite ids).wp env.step (fun _ _ => True)
      (fun r w' => Unharmed r → Shipped w₁ n offsite (done ++ ids) w') w := by
  induction ids generalizing done w with
  | nil =>
    intro _
    rw [List.append_nil]
    exact hdone
  | cons q ids ih =>
    have hlen : ∀ {w'}, Grew (fun _ => True) w w' → n ≤ w'.log.length := by
      rintro w' ⟨es, hl, -⟩
      rw [hl, List.length_append]
      omega
    -- the rest of the ids, once `q` has had its turn
    have hrest : ∀ w', Thinned w₁ (q :: done) w' → Grew (fun _ => True) w w' →
        (w₁.HasSnapshot q → ∀ d ∈ offsite, w'.CaughtUp n d q) →
        (shipPending keepsLocal offsite ids).wp env.step (fun _ _ => True)
          (fun r w' => Unharmed r → Shipped w₁ n offsite (done ++ q :: ids) w') w' := by
      intro w' ht' hg hq
      have hdone' : Shipped w₁ n offsite (q :: done) w' := by
        intro x hx hs
        rcases List.mem_cons.mp hx with rfl | hx
        · exact hq hs
        · exact hdone.mono hg x hx hs
      refine Prog.wp_post (ih (fun q hq => hfind q (List.mem_cons_of_mem _ hq)) ht' (hlen hg) hdone')
        fun r w'' h hu x hx => h hu x ?_
      rcases List.mem_append.mp hx with hx | hx
      · exact List.mem_append_left _ (List.mem_cons_of_mem _ hx)
      · rcases List.mem_cons.mp hx with rfl | hx
        · exact List.mem_append_left _ List.mem_cons_self
        · exact List.mem_append_right _ hx
    refine Prog.wp_seq (wp_findArtifact (fun _ _ _ => trivial) q w) fun artifact w₂ h => ?_
    obtain ⟨hq₂, hart⟩ := h
    have hthere : (isThere (q ++ manifestSuffix)).wp env.step (fun _ _ => True)
        (fun r w' => Quiet w w' ∧ r = (w.get .data (q ++ manifestSuffix)).isSome) w₂ :=
      wp_isThere (fun _ _ => trivial) fun w' h => ⟨hq₂.trans h, by rw [hq₂.get]⟩
    refine Prog.wp_seq hthere fun there w₃ h => ?_
    obtain ⟨hq₃, hman⟩ := h
    have ht₃ : Thinned w₁ done w₃ := ht.of_get (hq₃.get .data)
    have hg₃ : Grew (fun _ => True) w w₃ := by
      obtain ⟨es, hl, -⟩ := hq₃.log
      exact ⟨es, hl, fun _ _ => trivial⟩
    have hfq : w₁.FindsOwn q := hfind q List.mem_cons_self
    -- only the marker goes
    have hmarker : ∀ w₄ w₅, Thinned w₁ done w₄ → Removed .data (q ++ pendingSuffix) w₄ (.ok ()) w₅ →
        Thinned w₁ (q :: done) w₅ := by
      intro w₄ w₅ ht₄ hrem
      refine ht₄.turn (fun k hk => ?_) fun k hk => Or.inl ?_
      · rw [← hrem.get_of_isSome hk]
        exact hk
      · exact hrem.other _ _ fun he => hk (Prod.mk.inj he).2
    have hgone : (artifact = none ∨ there = false) →
        (orRaise (unlink (q ++ pendingSuffix)) (shipPending keepsLocal offsite ids)).wp env.step
          (fun _ _ => True) (fun r w' => Unharmed r → Shipped w₁ n offsite (done ++ q :: ids) w') w₃ := by
      intro hwhy
      refine wp_unlink_orRaise fun w₄ hrem hg₄ => ?_
      refine hrest w₄ (hmarker w₃ w₄ ht₃ hrem) (hg₃.trans hg₄) fun hs d hd => ?_
      obtain ⟨⟨e, harch⟩, hm⟩ := hs
      by_cases hq : q ∈ done
      · exact hdone.mono (hg₃.trans hg₄) q hq ⟨⟨e, harch⟩, hm⟩ d hd
      · exfalso
        have hm' := ht.there q hq hm
        rcases hwhy with rfl | rfl
        · have hsome := (hfq hm).2 e harch
          rw [← ht.artifactOf hfq hm', ← hart] at hsome
          simp at hsome
        · rw [← hman] at hm'
          simp at hm'
    cases artifact with
    | none => exact hgone (Or.inl rfl)
    | some k =>
      cases there with
      | false => exact hgone (Or.inr rfl)
      | true =>
        have hk : w₁.artifactOf q = some k := by rw [← ht.artifactOf hfq hman.symm, hart]
        obtain ⟨e, rfl⟩ := (hfq (ht.fewer _ hman.symm)).1 k hk
        refine Prog.wp_seq (wp_upload_caughtUp hloc (hlen hg₃)) fun r w₄ h => ?_
        obtain ⟨hget₄, hgrew₄, hall₄, hsub, hlen₄⟩ := h
        obtain ⟨stored, failures⟩ := r
        by_cases hlt : stored.length < offsite.length
        · show Prog.wp env.step _ _ (if stored.length < offsite.length then _ else _) w₄
          rw [if_pos hlt]
          refine Prog.wp_seq (wp_grows _ w₄) fun r w' _ hu => ?_
          -- a destination that did not store has left an error
          exfalso
          have hnil := List.map_eq_nil_iff.mp (List.append_eq_nil_iff.mp hu.2).1
          have hzero : failures.length = 0 := by rw [hnil]; rfl
          have hlen' : stored.length + failures.length = offsite.length := hlen₄
          omega
        · show Prog.wp env.step _ _ (if stored.length < offsite.length then _ else _) w₄
          rw [if_neg hlt]
          have hstored : stored = offsite := hsub.eq_of_length_le (not_lt.mp hlt)
          have hcaught : ∀ d ∈ offsite, w₄.CaughtUp n d q := fun d hd => hall₄ d (by rw [hstored]; exact hd)
          have ht₄ : Thinned w₁ done w₄ := ht₃.of_get hget₄
          have hg₄ : Grew (fun _ => True) w w₄ := hg₃.trans hgrew₄
          have hlog : ∀ {w'}, Grew (fun _ => True) w₄ w' → ∀ d ∈ offsite, w'.CaughtUp n d q := by
            rintro w' ⟨es, hl, -⟩ d hd
            exact (hcaught d hd).mono hl
          refine wp_unlink_orRaise fun w₅ hrem₅ hg₅ => ?_
          by_cases hkl : keepsLocal = true
          · rw [if_pos hkl]
            exact hrest w₅ (hmarker w₄ w₅ ht₄ hrem₅) (hg₄.trans hg₅) fun _ => hlog hg₅
          · rw [if_neg hkl]
            refine wp_unlink_orRaise fun w₆ hrem₆ hg₆ => ?_
            refine wp_unlink_orRaise fun w₇ hrem₇ hg₇ => ?_
            have hg₄₇ := hg₅.trans (hg₆.trans hg₇)
            refine hrest w₇ (ht₄.turn (fun k hk => ?_) fun k hk => ?_) (hg₄.trans hg₄₇) fun _ => hlog hg₄₇
            · have h₆ := hrem₇.get_of_isSome hk ▸ hk
              have h₅ := hrem₆.get_of_isSome h₆ ▸ h₆
              exact hrem₅.get_of_isSome h₅ ▸ h₅
            · have hman₇ : w₇.get .data (q ++ manifestSuffix) = none := hrem₇.done rfl
              by_cases hkm : k = q ++ manifestSuffix
              · exact Or.inr ⟨hman₇, Or.inl hkm⟩
              · by_cases hka : k = archiveName q e
                · exact Or.inr ⟨hman₇, Or.inr ⟨e, hka⟩⟩
                · refine Or.inl ?_
                  have hne : ∀ {x : Str}, k ≠ x → (Loc.data, k) ≠ (Loc.data, x) :=
                    fun hkx he => hkx (Prod.mk.inj he).2
                  rw [hrem₇.other _ _ (hne hkm), hrem₆.other _ _ (hne hka), hrem₅.other _ _ (hne hk)]

end

/-! ## the steps after the delivery -/

/-- the data dir, by its names, as a run leaves it that has stored its snapshot on every target -/
def World.landed (w : World) (a : RunArgs) (mode : EncryptionMode) : World :=
  if .local ∈ targets a.job then
    (w.write .data (fileName (archiveName a.sid mode)) (.raw [])).write .data
      (a.sid ++ manifestSuffix) (.raw [])
  else w

section
variable {env : Env} {a : RunArgs} {made : Made} {w w' : World}

theorem Landing.landed
    (h : Landing (a.artifact made).name (a.sid ++ manifestSuffix) (targets a.job) (targets a.job) w w')
    (k : Str) : (w'.get .data k).isSome ↔ ((w.landed a made.encrypted).get .data k).isSome := by
  unfold World.landed
  by_cases hl : .local ∈ targets a.job
  · rw [if_pos hl]
    by_cases hy : k = a.sid ++ manifestSuffix
    · subst hy
      rw [World.get_write]
      exact iff_of_true (h.stored hl).2 rfl
    · have hny : (Loc.data, k) ≠ (Loc.data, a.sid ++ manifestSuffix) := fun he => hy (Prod.mk.inj he).2
      rw [World.get_write_ne _ _ hny]
      by_cases hx : k = fileName (archiveName a.sid made.encrypted)
      · subst hx
        rw [World.get_write]
        exact iff_of_true (h.stored hl).1 rfl
      · have hnx : (Loc.data, k) ≠ (Loc.data, fileName (archiveName a.sid made.encrypted)) :=
          fun he => hx (Prod.mk.inj he).2
        rw [World.get_write_ne _ _ hnx, h.other k hx hy]
  · rw [if_neg hl, h.away hl]

theorem World.FindsOwn.congr {q : Str} (hf : w.FindsOwn q)
    (h : ∀ k, (w'.get .data k).isSome ↔ (w.get .data k).isSome) : w'.FindsOwn q := by
  intro hm
  obtain ⟨hown, hthere⟩ := hf ((h _).mp hm)
  rw [artifactOf_congr h]
  exact ⟨hown, fun e he => hthere e ((h _).mp he)⟩

theorem fileName_suffix (s : Str) : fileName s <:+ s := by
  unfold fileName
  rw [← List.reverse_prefix, List.reverse_reverse]
  exact List.takeWhile_prefix _

theorem artifact_not_pending (q : Str) : q ++ pendingSuffix ≠ (a.artifact made).name := by
  intro he
  obtain ⟨t, ht⟩ := fileName_suffix (archiveName a.sid made.encrypted)
  have hname : fileName (archiveName a.sid made.encrypted) = q ++ pendingSuffix := he.symm
  rw [hname, ← List.append_assoc] at ht
  exact archive_not_pending _ _ _ ht.symm

/-- a delivery touches no marker -/
theorem Landing.pendingOf {dests S : List Dest}
    (h : Landing (a.artifact made).name (a.sid ++ manifestSuffix) dests S w w') {q j : Str} :
    q ∈ w'.pendingOf j ↔ q ∈ w.pendingOf j := by
  have hsame := h.other (q ++ pendingSuffix) (artifact_not_pending q)
    fun he => manifest_not_pending _ _ he.symm
  rw [mem_pendingOf, mem_pendingOf]
  unfold World.owner
  rw [hsame]

theorem offsiteOf_targets (job : Job) : offsiteOf (targets job) = job.offsite.map Dest.s3 := by
  rw [offsite_eq]
  unfold targets offsiteOf
  split
  · rename_i h
    rw [h]
    rfl
  · rfl

/-- off-site tracking after a delivery to every target -/
theorem wp_trackOffsite_all {delivery : Delivery} {n : ℕ} {w₁ : World}
    (hl : Landing (a.artifact made).name (a.sid ++ manifestSuffix) (targets a.job) (targets a.job) w w₁)
    (hstored : delivery.stored = targets a.job) (hn : n ≤ w₁.log.length)
    (hfind : a.job.offsite ≠ [] → ∀ q ∈ w.pendingOf a.job.name, (w.landed a made.encrypted).FindsOwn q) :
    (trackOffsite a.job a.sid delivery).wp env.step (fun _ _ => True) (fun r w' => Unharmed r →
      Shipped w n (a.job.offsite.map Dest.s3) (w.pendingOf a.job.name) w') w₁ := by
  have hoff : delivery.stored.filter (fun d => !d.isLocal) = a.job.offsite.map Dest.s3 := by
    rw [hstored]
    exact offsiteOf_targets a.job
  unfold trackOffsite
  rw [hoff]
  dsimp only
  by_cases hnil : a.job.offsite.map Dest.s3 = []
  · rw [if_pos hnil]
    refine Prog.wp_post (wp_grows _ w₁) fun r w' _ _ q _ _ d hd => ?_
    rw [hnil] at hd
    simp at hd
  · rw [if_neg hnil]
    have hne : a.job.offsite ≠ [] := fun h => hnil (by rw [h]; rfl)
    refine Prog.wp_seq (wp_pendingIds (fun _ _ _ => trivial) _ w₁) fun ids w₂ h => ?_
    obtain ⟨hq, rfl⟩ := h
    have hget : ∀ k, (w₂.get .data k).isSome ↔ ((w.landed a made.encrypted).get .data k).isSome := by
      intro k
      rw [hq.get]
      exact hl.landed k
    have hlen : n ≤ w₂.log.length := by
      obtain ⟨es, hlog, -⟩ := hq.log
      rw [hlog, List.length_append]
      omega
    have hloc : ∀ d ∈ a.job.offsite.map Dest.s3, d ≠ .local := by
      intro d hd
      obtain ⟨c, -, rfl⟩ := List.mem_map.mp hd
      simp
    refine Prog.wp_post (wp_shipPending_all hloc (fun q hqm => ?_) (Thinned.refl w₂) hlen
      (fun q hq => by simp at hq)) fun r w' h hu q hqm hs => ?_
    · exact (hfind hne q (hl.pendingOf.mp hqm)).congr hget
    · refine h hu q (hl.pendingOf.mpr hqm) ⟨?_, ?_⟩
      · obtain ⟨e, he⟩ := hs.1
        refine ⟨e, ?_⟩
        rw [hq.get]
        exact hl.stays _ he
      · rw [hq.get]
        exact hl.stays _ hs.2

/-- a pass of retention without error has listed the destination and selected -/
theorem wp_applyRetention_done (dest : Dest) (w : World) :
    (applyRetention env a.job.retention a.now a.scope none dest).wp env.step (fun _ _ => True)
      (fun r w' => r = [] → (∃ b, (Op.listKeys dest [], b) ∈ w.since w') ∧
        ∃ snaps out, selectPrunable snaps a.job.retention a.now = .ok out) w := by
  have hpass : (retentionPass env dest a.job.retention a.now a.scope none).wp env.step
      (fun _ _ => True) (fun r w' => r = .ok () → (∃ b, (Op.listKeys dest [], b) ∈ w.since w') ∧
        ∃ snaps out, selectPrunable snaps a.job.retention a.now = .ok out) w := by
    refine Prog.wp_seq (wp_grows (markedFor dest) w) fun marked w₁ hg₁ => ?_
    have hlist : (listKeys dest []).wp env.step (fun _ _ => True) (fun _ w' =>
        Grew (fun _ => True) w₁ w' ∧ ∃ b, (Op.listKeys dest [], b) ∈ w₁.since w') w₁ := by
      intro f
      have hg : Grew (fun _ => True) w₁ (env.step (.listKeys dest []) f w₁).2 := grew_step _ f w₁ trivial
      refine ⟨trivial, hg, ?_⟩
      show ∃ b, (Op.listKeys dest [], b) ∈ w₁.since (w₁.note (Op.listKeys dest [], _))
      rw [since_note]
      exact ⟨_, List.mem_cons_self⟩
    refine Prog.wp_seq hlist fun r w₂ h₂ => ?_
    obtain ⟨hg₂, b, hb⟩ := h₂
    have hnoted : ∀ {w'}, Grew (fun _ => True) w₂ w' → ∃ b, (Op.listKeys dest [], b) ∈ w.since w' :=
      fun hg => ⟨b, hg₁.since_trans (hg₂.trans hg) (hg₂.since_mono hg hb)⟩
    cases r with
    | error e => exact fun h => by cases h
    | ok keys =>
      dsimp only
      split
      · exact fun h => by cases h
      · rename_i out hout
        exact Prog.wp_post (wp_grows _ w₂) fun r w' hg _ => ⟨hnoted hg, _, out, hout⟩
  refine Prog.wp_seq hpass fun r w' h => ?_
  cases r with
  | error e => exact fun h => by cases h
  | ok u => exact fun _ => h rfl

theorem wp_applyRetentions_done (dests : List Dest) (w : World) :
    (applyRetentions env a.job.retention a.now a.scope dests).wp env.step (fun _ _ => True)
      (fun r w' => r = [] → ∀ dest ∈ dests, (∃ b, (Op.listKeys dest [], b) ∈ w.since w') ∧
        ∃ snaps out, selectPrunable snaps a.job.retention a.now = .ok out) w := by
  induction dests generalizing w with
  | nil => exact fun _ dest hd => by simp at hd
  | cons d dests ih =>
    refine Prog.wp_seq (Prog.wp_mono (Prog.wp_and (wp_applyRetention_done d w) (wp_grows _ w))
      (fun _ _ _ => trivial) fun _ _ h => h) fun errors w₁ h => ?_
    obtain ⟨hfirst, hg₁⟩ := h
    refine Prog.wp_seq (Prog.wp_mono (Prog.wp_and (ih w₁) (wp_grows _ w₁))
      (fun _ _ _ => trivial) fun _ _ h => h) fun more w₂ h => ?_
    obtain ⟨hrest, hg₂⟩ := h
    intro hnil dest hd
    obtain ⟨rfl, rfl⟩ := List.append_eq_nil_iff.mp hnil
    rcases List.mem_cons.mp hd with rfl | hd
    · obtain ⟨⟨b, hb⟩, hsel⟩ := hfirst rfl
      exact ⟨⟨b, hg₁.since_mono hg₂ hb⟩, hsel⟩
    · obtain ⟨⟨b, hb⟩, hsel⟩ := hrest rfl dest hd
      exact ⟨⟨b, hg₁.since_trans hg₂ hb⟩, hsel⟩

/-- with `keepLocal = false` the local copy goes, or an error is left -/
theorem wp_maybeDropLocal_done {job : Job} {name sid : Str} {stored : List Dest}
    (hstored : .local ∈ specDests job.destinations → .local ∈ stored) (w : World) :
    (maybeDropLocal job name sid stored).wp env.step (fun _ _ => True) (fun r w' => Unharmed r →
      job.keepLocal = false → .local ∈ job.destinations →
        w'.get .data name = none ∧ w'.get .data (sid ++ manifestSuffix) = none) w := by
  unfold maybeDropLocal
  split
  · rename_i hkeep
    intro _ hk hl
    rcases hkeep with hkeep | hkeep
    · rw [hk] at hkeep
      cases hkeep
    · exact absurd (decide_eq_true hl) hkeep
  · split
    · rename_i hnot
      intro _ _ hl
      refine absurd (any_isLocal.mpr (hstored ?_)) hnot
      exact List.mem_filterMap.mpr ⟨.local, hl, rfl⟩
    · split
      · intro hu
        exact absurd hu.2 (List.cons_ne_nil _ _)
      · refine wp_unlink_orRaise fun w₁ hrem₁ _ => wp_unlink_orRaise fun w₂ hrem₂ _ => ?_
        intro _ _ _
        exact ⟨hrem₂.get_none (hrem₁.done rfl), hrem₂.done rfl⟩

/-- what the steps between the two hooks have done, from `w`, if they left no error -/
structure AllStored (a : RunArgs) (made : Made) (n : ℕ) (w w' : World) : Prop where
  built : ∀ c, .s3 c ∈ specDests a.job.destinations → ∃ b, (Op.build c, b) ∈ w.since w'
  pruned : ∀ dest ∈ targets a.job, (∃ b, (Op.listKeys dest [], b) ∈ w.since w') ∧
    ∃ snaps out, selectPrunable snaps a.job.retention a.now = .ok out
  shipped : Shipped w n (a.job.offsite.map Dest.s3) (w.pendingOf a.job.name) w'
  dropped : a.job.keepLocal = false → .local ∈ a.job.destinations →
    w'.get .data (a.artifact made).name = none ∧ w'.get .data (a.sid ++ manifestSuffix) = none
  grew : Grew (fun _ => True) w w'

theorem AllStored.quiet {n : ℕ} {w₁ : World} (h : AllStored a made n w w₁) (hq : Quiet w₁ w') :
    AllStored a made n w w' := by
  obtain ⟨es, hl, hes⟩ := hq.log
  have hsub : ∀ e ∈ w.since w₁, e ∈ w.since w' := by
    intro e he
    unfold World.since at *
    rw [hl, List.drop_append]
    exact List.mem_append_left _ he
  have hg : Grew (fun _ => True) w₁ w' := ⟨es, hl, fun _ _ => trivial⟩
  refine ⟨fun c hc => ?_, fun dest hd => ?_, h.shipped.mono hg, ?_, h.grew.trans hg⟩
  · obtain ⟨b, hb⟩ := h.built c hc
    exact ⟨b, hsub _ hb⟩
  · obtain ⟨⟨b, hb⟩, hsel⟩ := h.pruned dest hd
    exact ⟨⟨b, hsub _ hb⟩, hsel⟩
  · rw [hq.get, hq.get]
    exact h.dropped

theorem wp_storePhase_all {n : ℕ} {sidecar : Src} (hn : n ≤ w.log.length)
    (hfind : a.job.offsite ≠ [] → ∀ q ∈ w.pendingOf a.job.name, (w.landed a made.encrypted).FindsOwn q) :
    (storePhase env a.job a.scope a.now (a.artifact made) sidecar a.sid).wp env.step (fun _ _ => True)
      (fun r w' => Unharmed r → AllStored a made n w w' ∧
        ∀ delivery, r.1 = .ok delivery → delivery.stored = targets a.job) w := by
  have hdeliver : (deliver env a.job (a.artifact made) sidecar a.sid).wp env.step (fun _ _ => True)
      (fun r w' => Grew (fun _ => True) w w' ∧
        (∀ c, .s3 c ∈ specDests a.job.destinations → ∃ b, (Op.build c, b) ∈ w.since w') ∧
        (r.2 = [] → r.1.destinations = targets a.job ∧ r.1.stored = targets a.job ∧
          r.1.fallback = none ∧ Landing (a.artifact made).name (a.sid ++ manifestSuffix)
            (targets a.job) (targets a.job) w w')) w := by
    have hbuilt : (deliver env a.job (a.artifact made) sidecar a.sid).wp env.step (fun _ _ => True)
        (fun _ w' => ∀ c, .s3 c ∈ specDests a.job.destinations → ∃ b, (Op.build c, b) ∈ w.since w')
        w := by
      refine Prog.wp_seq (Prog.wp_mono (Prog.wp_and (wp_build_noted a.job.destinations w)
        (wp_grows _ w)) (fun _ _ _ => trivial) fun _ _ h => h) fun r w₁ h => ?_
      obtain ⟨hall, hg⟩ := h
      refine Prog.wp_post (wp_grows _ w₁) fun r' w₂ hg' c hc => ?_
      obtain ⟨b, hb⟩ := hall c hc
      exact ⟨b, hg.since_mono hg' hb⟩
    refine Prog.wp_mono (Prog.wp_and (wp_grows _ w) (Prog.wp_and hbuilt wp_deliver_all))
      (fun _ _ _ => trivial) fun r w' h => h
  refine Prog.wp_seq hdeliver fun r w₁ h => ?_
  obtain ⟨hg₁, hbuilt, hdel⟩ := h
  obtain ⟨delivery, delivered⟩ := r
  by_cases hnil : delivered = []
  · obtain ⟨hdests, hstored, hfall, hland⟩ := hdel hnil
    have hlen : n ≤ w₁.log.length := by
      obtain ⟨es, hl, -⟩ := hg₁
      rw [hl, List.length_append]
      omega
    refine Prog.wp_seq (Prog.wp_mono (Prog.wp_and (wp_trackOffsite_all hland hstored hlen hfind)
      (wp_grows _ w₁)) (fun _ _ _ => trivial) fun _ _ h => h) fun r w₂ h => ?_
    obtain ⟨hshipped, hg₂⟩ := h
    obtain ⟨tracked, tracking⟩ := r
    cases tracked with
    | error e => exact fun hu => absurd hu.1 Bool.false_ne_true
    | ok u =>
      refine Prog.wp_seq (Prog.wp_mono (Prog.wp_and (wp_applyRetentions_done _ w₂) (wp_grows _ w₂))
        (fun _ _ _ => trivial) fun _ _ h => h) fun pruning w₃ h => ?_
      obtain ⟨hpruned, hg₃⟩ := h
      refine Prog.wp_seq (wp_grows _ w₃) fun fallback w₄ hg₄ => ?_
      have hlocal : .local ∈ specDests a.job.destinations → .local ∈ delivery.stored := by
        intro h
        rw [hstored]
        unfold targets
        rw [if_neg (List.ne_nil_of_mem h)]
        exact h
      refine Prog.wp_seq (Prog.wp_mono (Prog.wp_and (wp_maybeDropLocal_done hlocal w₄) (wp_grows _ w₄))
        (fun _ _ _ => trivial) fun _ _ h => h) fun r w₅ h => ?_
      obtain ⟨hdropped, hg₅⟩ := h
      obtain ⟨dropped, dropping⟩ := r
      intro hu
      obtain ⟨hok, herrors⟩ := hu
      simp only [List.append_eq_nil_iff] at herrors
      obtain ⟨⟨⟨⟨-, rfl⟩, rfl⟩, rfl⟩, rfl⟩ := herrors
      have hok' : isOk dropped = true := by
        cases dropped with
        | ok u => rfl
        | error e => exact hok
      have hg₂₅ : Grew (fun _ => True) w₂ w₅ := hg₃.trans (hg₄.trans hg₅)
      refine ⟨⟨fun c hc => ?_, fun dest hd => ?_, ?_, hdropped ⟨hok', rfl⟩,
        hg₁.trans (hg₂.trans hg₂₅)⟩, fun d hd => ?_⟩
      · obtain ⟨b, hb⟩ := hbuilt c hc
        exact ⟨b, hg₁.since_mono (hg₂.trans hg₂₅) hb⟩
      · rw [← hdests] at hd
        obtain ⟨⟨b, hb⟩, hsel⟩ := hpruned rfl dest hd
        have hb' := hg₃.since_mono (hg₄.trans hg₅) hb
        exact ⟨⟨b, (hg₁.trans hg₂).since_trans hg₂₅ hb'⟩, hsel⟩
      · exact (hshipped ⟨rfl, rfl⟩).mono hg₂₅
      · cases dropped with
        | error e => cases hok'
        | ok u =>
          rw [← Except.ok.inj hd]
          exact hstored
  · -- an error of the delivery is an error of every answer
    refine Prog.wp_seq (wp_grows _ w₁) fun r w₂ _ => ?_
    have hne : ∀ more, (if delivery.stored = [] then delivered ++ [notStoredText] else delivered) ++ more
        ≠ [] := by
      intro more h
      have h' := (List.append_eq_nil_iff.mp h).1
      split at h'
      · exact hnil (List.append_eq_nil_iff.mp h').1
      · exact hnil h'
    obtain ⟨tracked, tracking⟩ := r
    cases tracked with
    | error e => exact fun hu => absurd hu.1 Bool.false_ne_true
    | ok u =>
      refine Prog.wp_seq (wp_grows _ w₂) fun pruning w₃ _ => Prog.wp_seq (wp_grows _ w₃)
        fun fallback w₄ _ => Prog.wp_seq (wp_grows _ w₄) fun r w₅ _ hu => ?_
      have herrors := hu.2
      simp only [List.append_assoc] at herrors
      exact absurd herrors (hne _)

end

/-! ## the run -/

/-- all that status success is taken to say of a run from `w` to `w'` -/
structure Succeeded (env : Env) (h : Host) (a : RunArgs) (sources : List SourceRun)
    (d : Disk FileData) (made : Made) (w w' : World) : Prop where
  sources : CleanSources h sources d
  mode : made.encrypted = a.job.encryption
  encrypted : a.job.encryption ≠ .none →
    ∃ archive, h.encrypt a.job.encryption archive = .ok made.archive
  /-- no operation raised, but for the writing of the record -/
  fine : ∀ e ∈ w.since w', FineEntry e
  built : ∀ c ∈ a.job.offsite, (Op.build c, true) ∈ w.since w'
  stored : ∀ dest ∈ targets a.job, w'.TookSince w.log.length (a.artifact made)
    (.work (.manifest (a.manifest env made))) a.sid dest
  /-- retention listed the destination and selected, and raised nowhere -/
  pruned : ∀ dest ∈ targets a.job, (Op.listKeys dest [], true) ∈ w.since w' ∧
    ∃ snaps out, selectPrunable snaps a.job.retention a.now = .ok out
  caughtUp : ∀ q ∈ w.pendingOf a.job.name, w.HasSnapshot q → ∀ c ∈ a.job.offsite,
    w'.CaughtUp w.log.length (.s3 c) q
  dropped : a.job.keepLocal = false → .local ∈ a.job.destinations →
    w'.get .data (a.artifact made).name = none ∧ w'.get .data (a.sid ++ manifestSuffix) = none

section
variable {env : Env} {a : RunArgs} {made : Made} {w : World}

/-- the result of a run, and what its steps have done if it shows no error -/
theorem wp_runJob_all
    (hfind : made.errors = [] → a.job.offsite ≠ [] → ∀ q ∈ w.pendingOf a.job.name,
      (w.landed a made.encrypted).FindsOwn q) :
    (runJob env a (.ok made)).wp env.step (fun _ _ => True) (fun r w' => ∀ result, r = .ok result →
      ∃ stored, Took w.log.length (a.artifact made) (.work (.manifest (a.manifest env made))) a.sid
          stored w' ∧
        result.status = jobStatus made.components result.errors (decide (stored ≠ [])) ∧
        (result.errors = [] → made.errors = [] ∧ stored = targets a.job ∧
          ∃ w₁, Quiet w w₁ ∧ AllStored a made w.log.length w₁ w')) w := by
  have hquiet : Op.mkdirs.quiet := trivial
  have hmk : mkdirs.wp env.step (fun _ _ => True) (fun _ w' => Quiet w w') w :=
    wp_report (fun _ _ => trivial) hquiet fun _ _ h => h
  refine Prog.wp_seq hmk fun r w₁ hq₁ => ?_
  cases r with
  | error e => exact fun result h => by cases h
  | ok u =>
    have habort : ∀ r w₁, (abort a r).wp env.step (fun _ _ => True) (fun r _ =>
        ∃ e, r = .error e) w₁ :=
      fun r w₁ => Prog.wp_post (wp_abort (fun _ _ _ => trivial) a r w₁) fun _ _ h => h.2
    refine Prog.wp_seq (wp_ifHooks (fun _ _ _ => trivial) a _ w₁) fun r w₂ hq₂ => ?_
    have hq := hq₁.trans hq₂
    cases r with
    | error e =>
      refine Prog.wp_post (habort _ w₂) fun r w' h result hr => ?_
      obtain ⟨e, rfl⟩ := h
      cases hr
    | ok u =>
      have hlen : w.log.length ≤ w₂.log.length := by
        obtain ⟨es, hl, -⟩ := hq.log
        rw [hl, List.length_append]
        omega
      have hpending : w₂.pendingOf a.job.name = w.pendingOf a.job.name := by
        unfold World.pendingOf
        rw [hq.pending]
      have hfind₂ : made.errors = [] → a.job.offsite ≠ [] →
          ∀ q ∈ w₂.pendingOf a.job.name, (w₂.landed a made.encrypted).FindsOwn q := by
        intro hnone hne q hqm
        rw [hpending] at hqm
        refine (hfind hnone hne q hqm).congr fun k => ?_
        unfold World.landed World.get World.write
        rw [hq.same]
        split <;> simp [hq.same]
      have hstart : Took w.log.length (a.artifact made) (.work (.manifest (a.manifest env made)))
          a.sid [] w := ⟨le_rfl, by simp, by simp⟩
      have hstore : (storePhase env a.job a.scope a.now (a.artifact made)
          (.work (.manifest (a.manifest env made))) a.sid).wp env.step (fun _ _ => True)
          (fun r w' => made.errors = [] → Unharmed r → AllStored a made w.log.length w₂ w' ∧
            ∀ delivery, r.1 = .ok delivery → delivery.stored = targets a.job) w₂ := by
        by_cases hnone : made.errors = []
        · exact Prog.wp_post (wp_storePhase_all hlen (hfind₂ hnone)) fun _ _ h _ => h
        · exact Prog.wp_post (wp_grows _ w₂) fun _ _ _ h => absurd h hnone
      refine Prog.wp_seq (Prog.wp_mono (Prog.wp_and hstore
        (wp_storePhase_ends made (hstart.quiet hq))) (fun _ _ _ => trivial) fun _ _ h => h)
        fun r w₃ h => ?_
      obtain ⟨hall, -, htook⟩ := h
      obtain ⟨r, errors⟩ := r
      cases r with
      | error e =>
        refine Prog.wp_post (habort _ w₃) fun r w' h result hr => ?_
        obtain ⟨e, rfl⟩ := h
        cases hr
      | ok delivery =>
        refine Prog.wp_post (wp_finish (fun _ _ _ => trivial) a made _ delivery _ w₃)
          fun r w' h result hr => ?_
        obtain ⟨hq₃, hresult⟩ := h
        obtain ⟨herrors, hstatus, -⟩ := hresult result hr
        refine ⟨delivery.stored, (htook delivery rfl).quiet hq₃, ?_, fun hnil => ?_⟩
        · rw [herrors]
          exact hstatus
        · rw [herrors] at hnil
          obtain ⟨hmade, rfl⟩ := List.append_eq_nil_iff.mp hnil
          obtain ⟨hstored, hdel⟩ := hall hmade ⟨rfl, rfl⟩
          obtain ⟨es, hl, -⟩ := hq₃.log
          have hg : Grew (fun _ => True) w₃ w' := ⟨es, hl, fun _ _ => trivial⟩
          refine ⟨hmade, hdel delivery rfl, w₂, hq, hstored.quiet hq₃⟩

end

/-- **Status success is sound** over ids that the catch-up finds the archives of, whatever sources,
encryption and calls do: such a run did all that success is taken to say, and its status is error
exactly if a component failed or no destination took the snapshot. -/
theorem success_is_sound (env : Env) (h : Host) (a : RunArgs) (staging : Path)
    (sources : List SourceRun) (d : Disk FileData) (w : World)
    (hfind : a.job.offsite ≠ [] →
      ∀ q ∈ w.pendingOf a.job.name, (w.landed a a.job.encryption).FindsOwn q) :
    (runJob env a (makeBundle h a staging sources d)).wp env.step (fun _ _ => True) (fun r w' =>
      ∀ result, r = .ok result → ∃ made, makeBundle h a staging sources d = .ok made ∧
        (result.status = .success → Succeeded env h a sources d made w w') ∧
        (result.status = .error ↔ made.components.any (·.failed) = true ∨ ∀ dest,
          ¬ w'.TookSince w.log.length (a.artifact made) (.work (.manifest (a.manifest env made)))
            a.sid dest)) w := by
  cases hmade : makeBundle h a staging sources d with
  | error raised =>
    refine Prog.wp_post (wp_runJob_raised (fun _ _ _ => trivial) a raised w) fun r w' hr => ?_
    intro result hres
    obtain ⟨-, e, rfl⟩ := hr
    cases hres
  | ok made =>
    have hfind' : made.errors = [] → a.job.offsite ≠ [] →
        ∀ q ∈ w.pendingOf a.job.name, (w.landed a made.encrypted).FindsOwn q := by
      intro hnone
      rw [(makeBundle_quiet hmade hnone).2.1]
      exact hfind
    refine Prog.wp_mono (Prog.wp_and (wp_runJob_all hfind') (wp_runJob_fine a (.ok made) w))
      (fun _ _ _ => trivial) fun r w' hr => ?_
    obtain ⟨hall, hfine⟩ := hr
    rintro result rfl
    obtain ⟨stored, htook, hstatus, hclean⟩ := hall result rfl
    refine ⟨made, rfl, fun hsuccess => ?_, ?_⟩
    · have hnil : result.errors = [] := by
        rw [hstatus] at hsuccess
        unfold jobStatus at hsuccess
        split at hsuccess
        · cases hsuccess
        · split at hsuccess
          · assumption
          · cases hsuccess
      obtain ⟨hnone, rfl, w₁, hq, hdone⟩ := hclean hnil
      obtain ⟨hsources, hmode, hbytes⟩ := makeBundle_quiet hmade hnone
      have hentries := (hfine ⟨result, rfl, hnil⟩)
      have hg : Grew (fun _ => True) w w₁ := by
        obtain ⟨es, hl, -⟩ := hq.log
        exact ⟨es, hl, fun _ _ => trivial⟩
      have hg' : Grew (fun _ => True) w₁ w' := hdone.grew
      -- an operation that is no record returned
      have hreturned : ∀ {o : Op} {b : Bool}, (∀ x, o ≠ .record x) → (o, b) ∈ w₁.since w' →
          (o, true) ∈ w.since w' := by
        intro o b hno hmem
        have hmem' := hg.since_trans hg' hmem
        rcases hentries.mem hmem' with hb | ⟨x, hx⟩
        · rw [show b = true from hb] at hmem'
          exact hmem'
        · exact absurd hx (hno x)
      refine ⟨hsources, hmode, hbytes, fun e he => hentries.mem he, fun c hc => ?_, htook.both,
        fun dest hd => ?_, fun q hq' hs c hc => ?_, ?_⟩
      · have hspec : Dest.s3 c ∈ specDests a.job.destinations := s3_mem_places.mp (mem_offsite.mpr hc)
        obtain ⟨b, hb⟩ := hdone.built c hspec
        exact hreturned (by simp) hb
      · obtain ⟨⟨b, hb⟩, hsel⟩ := hdone.pruned dest hd
        exact ⟨hreturned (by simp) hb, hsel⟩
      · refine hdone.shipped q ?_ ?_ _ (List.mem_map_of_mem hc)
        · unfold World.pendingOf
          rw [hq.pending]
          exact hq'
        · unfold World.HasSnapshot
          simp only [hq.get]
          exact hs
      · exact hdone.dropped
    · rw [hstatus, jobStatus_error]
      refine or_congr_right ⟨fun hnil dest ht => ?_, fun hnone => ?_⟩
      · have hd := htook.mem_iff.mpr ht
        rw [show stored = [] by simpa using hnil] at hd
        simp at hd
      · have hnil : stored = [] := List.eq_nil_iff_forall_not_mem.mpr fun dest hd =>
          hnone dest (htook.mem_iff.mp hd)
        simp [hnil]

/-! ## concrete runs -/

def stagingDir : Path := ["staging".toList]

def emptyStaging : Disk FileData := ⟨[(stagingDir, .dir)]⟩

theorem success_is_sound_catchUp :
    (runJob plainEnv (runAt offsiteJob none)
      (makeBundle plainHost (runAt offsiteJob none) stagingDir [] emptyStaging)).wp plainEnv.step
      (fun _ _ => True) (fun r w' => ∀ result, r = .ok result → ∃ made,
        makeBundle plainHost (runAt offsiteJob none) stagingDir [] emptyStaging = .ok made ∧
        (result.status = .success → Succeeded plainEnv plainHost (runAt offsiteJob none) [] emptyStaging
          made catchUpWorld w') ∧
        (result.status = .error ↔ made.components.any (·.failed) = true ∨ ∀ dest,
          ¬ w'.TookSince catchUpWorld.log.length ((runAt offsiteJob none).artifact made)
            (.work (.manifest ((runAt offsiteJob none).manifest plainEnv made)))
            (runAt offsiteJob none).sid dest)) catchUpWorld := by
  refine success_is_sound plainEnv plainHost (runAt offsiteJob none) stagingDir [] emptyStaging
    catchUpWorld fun _ q hq => ?_
  have hpending : catchUpWorld.pendingOf offsiteJob.name = [dayBefore] := by decide +kernel
  have hq' : q ∈ catchUpWorld.pendingOf offsiteJob.name := hq
  rw [hpending] at hq'
  obtain rfl := List.mem_singleton.mp hq'
  have hfirst : (catchUpWorld.landed (runAt offsiteJob none) .none).artifactOf dayBefore
      = some (archiveName dayBefore .none) := by decide +kernel
  intro _
  show (∀ k, (catchUpWorld.landed (runAt offsiteJob none) .none).artifactOf dayBefore = some k → _) ∧
    ∀ e, _ → ((catchUpWorld.landed (runAt offsiteJob none) .none).artifactOf dayBefore).isSome
  rw [hfirst]
  refine ⟨fun k hk => ⟨.none, (Option.some.inj hk).symm⟩, fun _ _ => rfl⟩

/-- a pending snapshot of a name that its own pattern does not match -/
def bracketWorld : World :=
  worldOf [("a[b].tar.gz".toList, .raw [1]),
    ("a[b].manifest.json".toList, .manifest (Manifest.build "a[b]".toList [] [] [] none)),
    ("a[b].offsite-pending.json".toList, .marker "main".toList)]

/-- **Where success is not sound**: nothing fails, the snapshot `a[b]` is complete and pending, and
the run that reaches the bucket ends in success without having stored it there. -/
theorem success_without_catchUp :
    let a := runAt offsiteJob none
    let run := (runJob plainEnv a (makeBundle plainHost a stagingDir [] emptyStaging)).exec
      plainEnv.step .calm [] bracketWorld
    (run.1.map (·.status)) = .ok .success ∧ "a[b]".toList ∈ bracketWorld.pendingOf a.job.name ∧
      (bracketWorld.get .data (archiveName "a[b]".toList .none)).isSome ∧
      (bracketWorld.get .data ("a[b]".toList ++ manifestSuffix)).isSome ∧
      (∃ c, offsiteJob.offsite = [c] ∧
        ∀ e ∈ run.2.log, ¬ Op.puts (.s3 c) ("a[b]".toList ++ manifestSuffix) e) ∧
      run.2.get .data ("a[b]".toList ++ pendingSuffix) = none := by
  refine ⟨by decide +kernel, by decide +kernel, by decide +kernel, by decide +kernel,
    ⟨⟨[], "backups".toList, []⟩, by decide +kernel, by decide +kernel⟩, by decide +kernel⟩

end BackupHelper
