import BackupHelper.Verify
import BackupHelper.CompleteOffsite
import BackupHelper.Runner.Asks

/-!
# A lost snapshot is recovered as it was stored

After any sequence of runs, each of which may have been stopped anywhere, the data dir is lost and a
snapshot is fetched from a bucket that lists it.

* `Run.File`               the archive and the manifest of a run, as it wrote them;
* `Unmixed`                wherever the runs store, all files of a run's id are these, or its marker;
* `recovered_as_stored`    **what is fetched are the two files of the run, and they pass the check**.
-/

set_option linter.unusedSectionVars false

namespace BackupHelper
open Text Glob Effects Calendar

/-! ## the files of a run -/

/-- the archive and the manifest of a run -/
def Run.File (env : Env) (r : Run) (key : Str) (c : Content) : Prop :=
  ∃ made, r.made = .ok made ∧
    ((key = archiveName r.args.sid made.encrypted ∧ c = .raw made.archive) ∨
      (key = r.args.sid ++ manifestSuffix ∧ c = .manifest (r.args.manifest env made)))

/-- a destination of one of the runs, or the data dir -/
def Stores (rs : List Run) (d : Dest) : Prop := ∃ r ∈ rs, d ∈ places r.args.job

/-- runs with ids of the engine, each its own; in one bucket no prefix is a proper prefix of another;
before the first run nothing is called like the files of any -/
structure Afresh (env : Env) (rs : List Run) (w : World) : Prop where
  engine : ∀ r ∈ rs, Engine r.args.sid
  distinct : ∀ r ∈ rs, ∀ r' ∈ rs, r.args.sid = r'.args.sid → r = r'
  separate : ∀ d d', Stores rs d → Stores rs d' → d.loc env = d'.loc env → d.pre <+: d'.pre → d.pre = d'.pre
  untouched : Untouched rs w
  fresh : ∀ r ∈ rs, ∀ d, Stores rs d → ∀ key, r.args.sid ++ ['.'] <+: key → d.at env w key = none

/-- all files of a run's id are the run's, but for a marker -/
def Unmixed (env : Env) (rs : List Run) (w : World) : Prop :=
  ∀ r ∈ rs, ∀ d, Stores rs d → ∀ key c, r.args.sid ++ ['.'] <+: key → d.at env w key = some c →
    r.File env key c ∨ key = r.args.sid ++ pendingSuffix

section
variable {env : Env} {rs : List Run} {w₀ w w' : World}

theorem engine_begins_unique {p q key : Str} (hp : Engine p) (hq : Engine q) (h : p ++ ['.'] <+: key)
    (h' : q ++ ['.'] <+: key) : p = q := by
  have hnot : ∀ {u v : Str}, free '.' v → ¬ u ++ ['.'] <+: v := fun hv hpref => hv (hpref.subset (by simp))
  exact begins_unique h h' (hnot (dotless hq.slug)) (hnot (dotless hp.slug))

theorem Afresh.same_pre (h : Afresh env rs w₀) {d d' : Dest} (hd : Stores rs d) (hd' : Stores rs d')
    (hloc : d.loc env = d'.loc env) {k k' : Str} (hk : d.pre ++ k = d'.pre ++ k') : d.pre = d'.pre := by
  rcases List.prefix_or_prefix_of_prefix ⟨k, rfl⟩ ⟨k', hk.symm⟩ with hpre | hpre
  · exact h.separate d d' hd hd' hloc hpre
  · exact (h.separate d' d hd' hd hloc.symm hpre).symm

theorem Afresh.unmixed (h : Afresh env rs w₀) : Unmixed env rs w₀ := by
  intro r hr d hd key c hkey hc
  rw [h.fresh r hr d hd key hkey] at hc
  cases hc

theorem Unmixed.of_get (hf : Unmixed env rs w) (hget : ∀ l k, w'.get l k = w.get l k) :
    Unmixed env rs w' := by
  intro r hr d hd key c hkey hc
  apply hf r hr d hd key c hkey
  rw [← hc]
  exact (hget _ _).symm

/-- one name changes: what has to hold of the content that is there then -/
theorem Unmixed.of_elsewhere (hf : Unmixed env rs w) (h : Afresh env rs w₀) {d : Dest} (hd : Stores rs d)
    {key : Str} (he : Elsewhere (d.loc env) (d.pre ++ key) w w')
    (hhere : ∀ r ∈ rs, r.args.sid ++ ['.'] <+: key → ∀ c, d.at env w' key = some c →
      r.File env key c ∨ key = r.args.sid ++ pendingSuffix) : Unmixed env rs w' := by
  intro r hr d' hd' key' c hkey' hc
  by_cases hsame : (d'.loc env, d'.pre ++ key') = (d.loc env, d.pre ++ key)
  · obtain ⟨hloc, hk⟩ := Prod.mk.inj hsame
    have hpre := h.same_pre hd' hd hloc hk
    rw [hpre] at hk
    obtain rfl := List.append_cancel_left hk
    apply hhere r hr hkey' c
    unfold Dest.at at hc ⊢
    rw [← hloc, ← hpre]
    exact hc
  · apply hf r hr d' hd' key' c hkey'
    rw [← hc]
    exact (he _ _ hsame).symm

theorem Unmixed.of_removed (hf : Unmixed env rs w) (h : Afresh env rs w₀) {d : Dest} (hd : Stores rs d)
    {key : Str} {r : Except Exc Unit} (hrem : Removed (d.loc env) (d.pre ++ key) w r w') :
    Unmixed env rs w' := by
  apply hf.of_elsewhere h hd hrem.other
  intro u hu hkey c hc
  apply hf u hu d hd key c hkey
  rw [← hc]
  exact (hrem.get_of_isSome (by rw [show w'.get (d.loc env) (d.pre ++ key) = some c from hc]; rfl)).symm

/-- a put that is whole, of a file of every run whose id the name begins with -/
theorem Unmixed.of_put (hf : Unmixed env rs w) (h : Afresh env rs w₀) (hwhole : WholePuts env w w')
    {d : Dest} (hd : Stores rs d) {key : Str} {src : Src} {b : Bool}
    (hlog : w'.log = w.log ++ [(.put d key src, b)]) (he : Elsewhere (d.loc env) (d.pre ++ key) w w')
    (hfile : ∀ r ∈ rs, r.args.sid ++ ['.'] <+: key → ∀ c, w.content src = some c →
      r.File env key c ∨ key = r.args.sid ++ pendingSuffix) : Unmixed env rs w' := by
  apply hf.of_elsewhere h hd he
  intro r hr hkey c hc
  rcases hwhole d key src b hlog with hsame | ⟨c', hc', hnew⟩
  · exact hf r hr d hd key c hkey (hsame.symm.trans hc)
  · obtain rfl := Option.some.inj (hnew.symm.trans hc)
    exact hfile r hr hkey c' hc'

/-! ## every sequence of runs -/

/-- an operation that a run asks for -/
theorem Unmixed.step (hf : Unmixed env rs w) (h : Afresh env rs w₀) {u : Run} (hu : u ∈ rs) {made : Made}
    (hmade : u.made = .ok made) {o : Op} {f : Fault}
    (ho : Asks u.args.job (u.args.artifact made) (.work (.manifest (u.args.manifest env made)))
      u.args.sid o) (hwhole : WholePuts env w (env.step o f w).2) : Unmixed env rs (env.step o f w).2 := by
  have hstores : ∀ {d}, d ∈ places u.args.job → Stores rs d := fun hd => ⟨u, hu, hd⟩
  have hlocal : Stores rs .local := hstores List.mem_cons_self
  have hname := artifact_name made (slashless (h.engine u hu).slug)
  -- no other run's id begins the name of an own file
  have hself : ∀ {r}, r ∈ rs → ∀ {key}, r.args.sid ++ ['.'] <+: key → u.args.sid ++ ['.'] <+: key → r = u :=
    fun hr key hkey hown => h.distinct _ hr u hu (engine_begins_unique (h.engine _ hr) (h.engine u hu) hkey hown)
  have helse : ∀ {l k}, (∀ l' k', (l', k') ≠ (l, k) → o.target env ≠ some (l', k')) →
      Elsewhere l k w (env.step o f w).2 := fun htarget l' k' hne =>
    get_effect env o (if env.sure o then .calm else f) w (htarget l' k' hne)
  have hquiet : o.target env = none → Unmixed env rs (env.step o f w).2 := fun hnone =>
    hf.of_get fun l k => get_effect env o (if env.sure o then .calm else f) w (by rw [hnone]; simp)
  cases o with
  | put d key src =>
    obtain ⟨hd, hsrc⟩ := ho
    have hlog : ∀ g, (env.effect (.put d key src) g w).2.log = w.log := fun g =>
      (report_effect env (o := .put d key src) g w trivial).2.2
    refine hf.of_put h hwhole (hstores hd) (congrArg (· ++ _) (hlog _)) (helse fun l' k' hne heq => ?_)
      fun r hr hkey c hc => ?_
    · exact hne (Option.some.inj heq).symm
    · rcases hsrc with rfl | ⟨rfl, rfl⟩ | ⟨rfl, rfl⟩
      · exact hf r hr .local hlocal key c hkey hc
      · obtain rfl := hself hr hkey (by rw [hname]; exact begins_archive _ _)
        exact Or.inl ⟨made, hmade, Or.inl ⟨hname, (Option.some.inj hc).symm⟩⟩
      · obtain rfl := hself hr hkey (begins_manifest _)
        exact Or.inl ⟨made, hmade, Or.inr ⟨rfl, (Option.some.inj hc).symm⟩⟩
  | delete d key =>
    have hrem := removed_remove w (d.loc env) (d.pre ++ key) (if env.sure (.delete d key) then .calm else f)
    exact (hf.of_removed h (hstores ho) hrem).of_get fun l k => rfl
  | unlink name =>
    have hrem := removed_remove w (Dest.local.loc env) (Dest.local.pre ++ name)
      (if env.sure (.unlink name) then .calm else f)
    exact (hf.of_removed h hlocal hrem).of_get fun l k => rfl
  | writeMarker name owner =>
    obtain ⟨rfl, rfl⟩ := ho
    have hother : Elsewhere (Dest.local.loc env) (Dest.local.pre ++ (u.args.sid ++ pendingSuffix)) w _ :=
      helse fun l' k' hne heq => hne (Option.some.inj heq).symm
    apply hf.of_elsewhere h hlocal hother
    intro r hr hkey c _
    rw [hself hr hkey (begins_pending _)]
    exact Or.inr rfl
  | _ => exact hquiet rfl

theorem Reached.unmixed {all : List Run} (hr : Reached env w₀ rs w) (h : Afresh env all w₀) (hall : rs ⊆ all) :
    Unmixed env all w := by
  induction hr with
  | start => exact h.unmixed
  | @run rs w w' r faults _ hwhole hstop ih =>
    obtain ⟨hmem, hrs⟩ := List.cons_subset.mp hall
    have hf := ih hrs
    rcases hstop with rfl | ⟨m, hm, rfl⟩
    · exact hf
    · -- what holds of a single operation holds of every move of the run
      have hmove : ∀ m ∈ (runJob env r.args r.made).moves env.step .calm faults w,
          Unmixed env all m.1 → Unmixed env all m.2 := by
        intro m hm hfm
        have hw := hwhole m hm
        cases hmade : r.made with
        | error raised =>
          rw [hmade] at hm
          have hraised : (runJob env r.args (.error raised)).wp env.step Quiet (fun _ _ => True) w :=
            Prog.wp_post (wp_runJob_raised (fun w w' hq => hq) r.args raised w) fun _ _ _ => trivial
          exact hfm.of_get (((Prog.wp_iff_exec Fault.calm _ _ _).mp hraised faults).1 m hm).get
        | ok made =>
          rw [hmade] at hm
          have hgood : (runJob env r.args (.ok made)).wp env.step
              (fun w w' => WholePuts env w w' → Unmixed env all w → Unmixed env all w') (fun _ _ => True) w :=
            (asks_runJob r.args made).wp
              (fun o f w ho _ => ⟨fun hwhole hf => hf.step h hmem hmade ho hwhole, trivial⟩) trivial
          exact ((Prog.wp_iff_exec Fault.calm _ _ _).mp hgood faults).1 m hm hw hfm
      exact Prog.moves_keep Fault.calm (J := Unmixed env all) hmove hf m hm

end

/-! ## the data dir is lost -/

section
variable {env : Env} {rs : List Run} {w₀ w w₁ : World} {u : Run}

theorem Run.File.unique {key : Str} {c c' : Content} (h : u.File env key c) (h' : u.File env key c') : c = c' := by
  obtain ⟨made, hmade, h⟩ := h
  obtain ⟨made', hmade', h'⟩ := h'
  obtain rfl := Except.ok.inj (hmade.symm.trans hmade')
  rcases h with ⟨rfl, rfl⟩ | ⟨rfl, rfl⟩
  · rcases h' with ⟨-, rfl⟩ | ⟨hk, -⟩
    · rfl
    · exact absurd hk (archive_not_manifest _ _ _)
  · rcases h' with ⟨hk, -⟩ | ⟨-, rfl⟩
    · exact absurd hk.symm (archive_not_manifest _ _ _)
    · rfl

/-- of a run's files the archive is the one that is called so -/
theorem archive_of_file (hu : Engine u.args.sid) {key : Str} {c : Content}
    (h : u.File env key c ∨ key = u.args.sid ++ pendingSuffix) (htar : u.args.sid ++ tarSuffix <+: key) :
    ∃ made, u.made = .ok made ∧ key = archiveName u.args.sid made.encrypted := by
  have hdot : ¬ u.args.sid ++ tarSuffix <+: u.args.sid := fun hpre =>
    dotless hu.slug (hpre.subset (List.mem_append_right _ (by decide)))
  rcases h with ⟨made, hmade, ⟨rfl, -⟩ | ⟨rfl, -⟩⟩ | rfl
  · exact ⟨made, hmade, rfl⟩
  · exact absurd (tar_begins_manifest htar) hdot
  · exact absurd (tar_begins_pending htar) hdot

theorem archive_slashless {sid : Str} (h : Engine sid) (e : EncryptionMode) : free '/' (archiveName sid e) := by
  have he : free '/' (encryptSuffix e) := by cases e <;> decide
  exact free_append.mpr ⟨free_append.mpr ⟨slashless h.slug, by decide⟩, he⟩

/-- what a bucket lists of a run, and what it holds -/
structure KeepsRun (env : Env) (w : World) (u : Run) (made : Made) (c : S3Spec) : Prop where
  archives : ∀ key ∈ archivesOf u.args.sid (w.listing env (.s3 c) u.args.sid),
    key = archiveName u.args.sid made.encrypted
  content : ∀ key ∈ keysOf env w c u.args.sid, ∀ x, (Dest.s3 c).at env w key = some x → u.File env key x

theorem keepsRun_of_files (hu : Engine u.args.sid) {c : S3Spec} (hfile : ∀ key x, u.args.sid ++ ['.'] <+: key →
      (Dest.s3 c).at env w key = some x → u.File env key x ∨ key = u.args.sid ++ pendingSuffix)
    {made : Made} (hmade : u.made = .ok made) : KeepsRun env w u made c := by
  have harchives : ∀ key ∈ archivesOf u.args.sid (w.listing env (.s3 c) u.args.sid),
      key = archiveName u.args.sid made.encrypted := by
    intro key hkey
    obtain ⟨hlisted, htar⟩ := List.mem_filter.mp hkey
    have htar := List.isPrefixOf_iff_prefix.mp htar
    obtain ⟨x, hx⟩ := Option.isSome_iff_exists.mp (World.mem_listing.mp hlisted).2
    obtain ⟨made', hmade', rfl⟩ := archive_of_file hu (hfile key x (begins_tar htar) hx) htar
    rw [Except.ok.inj (hmade.symm.trans hmade')]
  refine ⟨harchives, fun key hkey x hx => ?_⟩
  rcases List.mem_append.mp hkey with hkey | hkey
  · obtain rfl := harchives key hkey
    exact (hfile _ x (begins_archive _ _) hx).resolve_right (archive_not_pending _ _ _)
  · obtain rfl := List.mem_singleton.mp hkey
    exact (hfile _ x (begins_manifest _) hx).resolve_right (manifest_not_pending _ _)

/-- the data dir holds of the run's id its two files -/
def World.HoldsRun (env : Env) (w : World) (u : Run) : Prop :=
  ∀ key c, u.args.sid ++ ['.'] <+: key → (w.get .data key = some c ↔ u.File env key c)

theorem Run.File.begins {key : Str} {c : Content} (h : u.File env key c) : u.args.sid ++ ['.'] <+: key := by
  obtain ⟨made, -, ⟨rfl, -⟩ | ⟨rfl, -⟩⟩ := h
  · exact begins_archive _ _
  · exact begins_manifest _

/-- a bucket that keeps a run gives its two files to a data dir that has lost them -/
theorem KeepsRun.fetched {made : Made} {c : S3Spec} (hkept : KeepsRun env w u made c) (hmade : u.made = .ok made)
    (hboth : ListsBoth env w c u.args.sid) {get : Str → Fault}
    (hcalm : ∀ key ∈ keysOf env w c u.args.sid, (get key).isCalm = true)
    (hlost : ∀ key, u.args.sid ++ ['.'] <+: key → w.get .data key = none) :
    (getAll env c get (keysOf env w c u.args.sid) w).1 = .ok () ∧
      (getAll env c get (keysOf env w c u.args.sid) w).2.HoldsRun env u ∧
      ∀ key, ¬ u.args.sid ++ ['.'] <+: key →
        (getAll env c get (keysOf env w c u.args.sid) w).2.get .data key = w.get .data key := by
  obtain ⟨hok, hother, hfetched⟩ := getAll_calm (keysOf env w c u.args.sid)
    (fun _ hkey => isSome_of_keysOf hboth hkey) hcalm
  have hthere : ∀ key ∈ keysOf env w c u.args.sid, ∃ x, u.File env key x ∧
      (getAll env c get (keysOf env w c u.args.sid) w).2.get .data key = some x := by
    intro key hkey
    obtain ⟨x, hx⟩ := Option.isSome_iff_exists.mp (isSome_of_keysOf hboth hkey)
    exact ⟨x, hkept.content key hkey x hx, (hfetched key hkey).trans hx⟩
  have hkeys : ∀ key x, u.File env key x → key ∈ keysOf env w c u.args.sid := by
    rintro key x ⟨made', hmade', ⟨rfl, -⟩ | ⟨rfl, -⟩⟩
    · obtain rfl := Except.ok.inj (hmade.symm.trans hmade')
      obtain ⟨key₀, hkey₀⟩ := List.exists_mem_of_ne_nil _ hboth.1
      rw [← hkept.archives key₀ hkey₀]
      exact List.mem_append_left _ hkey₀
    · exact List.mem_append_right _ (List.mem_singleton.mpr rfl)
  refine ⟨hok, fun key x hkey => ?_, fun key hkey => ?_⟩
  · by_cases hmem : key ∈ keysOf env w c u.args.sid
    · obtain ⟨y, hy, hgot⟩ := hthere key hmem
      rw [hgot]
      constructor
      · intro he
        rw [← Option.some.inj he]
        exact hy
      · intro hx
        rw [hx.unique hy]
    · rw [hother key hmem, hlost key hkey]
      constructor
      · intro he
        cases he
      · intro hx
        exact absurd (hkeys key x hx) hmem
  · apply hother key
    intro hmem
    obtain ⟨x, hx, -⟩ := hthere key hmem
    exact hkey hx.begins

/-- the two files of a run pass the check -/
theorem World.HoldsRun.verified (hw : w.HoldsRun env u) (hu : Engine u.args.sid) {made : Made}
    (hmade : u.made = .ok made) {dump : Manifest → Str} (hd : Dumps dump) (hsha : ∀ b, env.sha256 b ≠ []) :
    verifySnapshot env dump w u.args.sid = .ok true := by
  have harchive : u.File env (archiveName u.args.sid made.encrypted) (.raw made.archive) :=
    ⟨made, hmade, Or.inl ⟨rfl, rfl⟩⟩
  have hmanifest : u.File env (u.args.sid ++ manifestSuffix) (.manifest (u.args.manifest env made)) :=
    ⟨made, hmade, Or.inr ⟨rfl, rfl⟩⟩
  have ha := (hw _ _ harchive.begins).mpr harchive
  have hfirst : w.firstArtifact u.args.sid = some (archiveName u.args.sid made.encrypted) := by
    apply firstArtifact_eq hu (archive_slashless hu _) (Option.isSome_iff_exists.mpr ⟨_, ha⟩)
      (List.prefix_append _ _)
    intro k hk hs
    obtain ⟨x, hx⟩ := Option.isSome_iff_exists.mp hs
    obtain ⟨made', hmade', rfl⟩ := archive_of_file hu (Or.inl ((hw k x (begins_tar hk)).mp hx)) hk
    obtain rfl := Except.ok.inj (hmade.symm.trans hmade')
    rfl
  exact verifySnapshot_ok hd hfirst (slashless hu.slug) ha ((hw _ _ hmanifest.begins).mpr hmanifest) rfl
    (hsha _)

/-- a bucket that holds the manifest lists the snapshot -/
theorem Complete.listsBoth (hcomplete : Complete env rs w) {c : S3Spec} {sid : Str}
    (hm : ((Dest.s3 c).at env w (sid ++ manifestSuffix)).isSome) : ListsBoth env w c sid := by
  have hman : (w.get (.bucket (env.site c.endpoint c.bucket)) (c.prefix_ ++ sid ++ manifestSuffix)).isSome := by
    rw [List.append_assoc]
    exact hm
  obtain ⟨e, b, q, hb, -⟩ := hcomplete.bucket _ _ hman
  rw [archiveName_pre] at hb
  have hlisted : archiveName sid e ∈ w.listing env (.s3 c) sid := by
    refine World.mem_listing.mpr ⟨(List.prefix_append sid ['.']).trans (begins_archive sid e), ?_⟩
    exact Option.isSome_iff_exists.mpr ⟨_, hb⟩
  constructor
  · refine List.ne_nil_of_mem (List.mem_filter.mpr ⟨hlisted, List.isPrefixOf_iff_prefix.mpr ?_⟩)
    exact List.prefix_append _ _
  · exact World.mem_listing.mpr ⟨List.prefix_append _ _, hm⟩

theorem ListsBoth.of_same {c : S3Spec} {sid : Str} (h : ListsBoth env w c sid)
    (hsame : ∀ site k, w₁.get (.bucket site) k = w.get (.bucket site) k) : ListsBoth env w₁ c sid := by
  have hlisting : ∀ x, x ∈ w₁.listing env (.s3 c) sid ↔ x ∈ w.listing env (.s3 c) sid := by
    intro x
    rw [World.mem_listing, World.mem_listing, show w₁.get (Dest.loc env (.s3 c)) _ = _ from hsame _ _]
    exact Iff.rfl
  obtain ⟨harch, hmem⟩ := h
  obtain ⟨key, hkey⟩ := List.exists_mem_of_ne_nil _ harch
  obtain ⟨hlisted, htar⟩ := List.mem_filter.mp hkey
  exact ⟨List.ne_nil_of_mem (List.mem_filter.mpr ⟨(hlisting _).mpr hlisted, htar⟩), (hlisting _).mpr hmem⟩

/-- of a run that nothing was made of no archive is listed -/
theorem made_of_listed (hu : Engine u.args.sid) {c : S3Spec} (hfile : ∀ key x, u.args.sid ++ ['.'] <+: key →
      (Dest.s3 c).at env w key = some x → u.File env key x ∨ key = u.args.sid ++ pendingSuffix)
    (hboth : ListsBoth env w c u.args.sid) : ∃ made, u.made = .ok made := by
  obtain ⟨key, hkey⟩ := List.exists_mem_of_ne_nil _ hboth.1
  obtain ⟨hlisted, htar⟩ := List.mem_filter.mp hkey
  have htar := List.isPrefixOf_iff_prefix.mp htar
  obtain ⟨x, hx⟩ := Option.isSome_iff_exists.mp (World.mem_listing.mp hlisted).2
  obtain ⟨made, hmade, -⟩ := archive_of_file hu (hfile key x (begins_tar htar) hx) htar
  exact ⟨made, hmade⟩

theorem not_seemsThere {sid : Str} (hsid : Engine sid)
    (hlost : ∀ key, sid ++ ['.'] <+: key → w.get .data key = none) : ¬ SeemsThere w sid := by
  rintro ⟨hany, -⟩
  obtain ⟨e, he, hm⟩ := List.any_eq_true.mp hany
  obtain ⟨k, hk, -, hpre⟩ := entry_of_tar hsid he hm
  rw [hlost k (begins_tar hpre)] at hk
  cases hk

/-- **A lost snapshot is recovered as it was stored.**  Wherever the runs stopped: once the data dir has
lost a snapshot, hydration from buckets of the runs, one of which holds its manifest, brings back its
archive and manifest, nothing else of its id, and the archive passes the check. -/
theorem recovered_as_stored (h : Afresh env rs w₀) (hr : Reached env w₀ rs w) (hu : u ∈ rs)
    (hsame : ∀ site k, w₁.get (.bucket site) k = w.get (.bucket site) k)
    (hlost : ∀ key, u.args.sid ++ ['.'] <+: key → w₁.get .data key = none) {job : Job} {calls : ℕ → Calls}
    (hours : ∀ d ∈ tried job calls, ∀ c, Lists env w₁ u.args.sid d c →
      Stores rs (.s3 c) ∧ ∀ key ∈ keysOf env w₁ c u.args.sid, (d.2.get key).isCalm = true)
    (hgood : ∃ d ∈ tried job calls, ∃ c, d.1.offsite? = some c ∧ d.2.build.isCalm = true ∧
      d.2.list.isCalm = true ∧ ((Dest.s3 c).at env w (u.args.sid ++ manifestSuffix)).isSome)
    {dump : Manifest → Str} (hdump : Dumps dump) (hsha : ∀ b, env.sha256 b ≠ []) :
    (hydrate env job calls u.args.sid w₁).1 = .ok () ∧
    (hydrate env job calls u.args.sid w₁).2.HoldsRun env u ∧
    (∀ key, ¬ u.args.sid ++ ['.'] <+: key →
      (hydrate env job calls u.args.sid w₁).2.get .data key = w₁.get .data key) ∧
    verifySnapshot env dump (hydrate env job calls u.args.sid w₁).2 u.args.sid = .ok true := by
  have hengine := h.engine u hu
  have hunmixed : Unmixed env rs w := hr.unmixed h (List.Subset.refl rs)
  have hcomplete : Complete env rs w := (hr.invariant h.engine h.untouched (List.Subset.refl rs)).2
  -- the first destination that lists the snapshot is one of the runs'
  obtain ⟨d₀, hd₀, c₀, hspec, hbuild, hlist, hman⟩ := hgood
  have hboth := (hcomplete.listsBoth hman).of_same hsame
  obtain ⟨before, d, after, c, hsplit, hnone, hlists⟩ := exists_first hd₀ ⟨hspec, hbuild, hlist, hboth⟩
  have hd : d ∈ tried job calls := by
    rw [hsplit]
    exact List.mem_append_right _ List.mem_cons_self
  obtain ⟨hc, hget⟩ := hours d hd c hlists
  have hrun : hydrate env job calls u.args.sid w₁ = getAll env c d.2.get (keysOf env w₁ c u.args.sid) w₁ := by
    unfold hydrate
    rw [if_neg (not_seemsThere hengine hlost), hsplit, hydrateFrom_first hnone hlists]
  -- what it lists are the archive and the manifest of the run
  have hfile : ∀ key x, u.args.sid ++ ['.'] <+: key → (Dest.s3 c).at env w₁ key = some x →
      u.File env key x ∨ key = u.args.sid ++ pendingSuffix := by
    intro key x hkey hx
    apply hunmixed u hu _ hc key x hkey
    rw [← hx]
    exact (hsame _ _).symm
  obtain ⟨made, hmade⟩ := made_of_listed hengine hfile hlists.holds
  obtain ⟨hok, hholds, hrest⟩ := (keepsRun_of_files hengine hfile hmade).fetched hmade hlists.holds hget hlost
  rw [hrun]
  exact ⟨hok, hholds, hrest, hholds.verified hengine hmade hdump hsha⟩

end

/-! ## a data dir that is lost after an upload -/

/-- a hash that is never empty -/
def hashEnv : Env := { plainEnv with sha256 := fun b => 'h' :: b.map (fun x => Char.ofNat x.toNat) }

/-- the world right after the put of the manifest -/
def uploaded : World :=
  (((runJob hashEnv offsiteRun.args offsiteRun.made).moves hashEnv.step .calm [] (worldOf [])).getD 3
    (worldOf [], worldOf [])).2

def uploadedLost : World where
  files l := match l with
    | .data => ∅
    | .bucket site => uploaded.files (.bucket site)
  alerts := []
  runs := ∅
  log := []

theorem uploaded_reached : Reached hashEnv (worldOf []) [offsiteRun] uploaded := by
  have hlen : 3 < ((runJob hashEnv offsiteRun.args offsiteRun.made).moves hashEnv.step .calm []
      (worldOf [])).length := by decide +kernel
  refine Reached.run offsiteRun [] Reached.start (fun m hm => ?_) (Or.inr ⟨_, List.get_mem _ ⟨3, hlen⟩, ?_⟩)
  · obtain ⟨o, f, hf, he⟩ := Prog.mem_moves Fault.calm hm
    obtain rfl : f = .calm := hf.resolve_right (by simp)
    rw [he]
    exact wholePuts_step m.1 fun e b h => by cases h
  · unfold uploaded
    rw [List.getD_eq_getElem?_getD, List.getElem?_eq_getElem hlen]
    rfl

theorem offsite_afresh : Afresh hashEnv [offsiteRun] (worldOf []) where
  engine r hr := by
    rw [List.mem_singleton.mp hr]
    exact ⟨noon, none, rfl⟩
  distinct r hr r' hr' _ := by rw [List.mem_singleton.mp hr, List.mem_singleton.mp hr']
  separate d d' hd hd' _ _ := by
    have hpre : ∀ x, Stores [offsiteRun] x → x.pre = [] := by
      rintro x ⟨r, hr, hx⟩
      rw [List.mem_singleton.mp hr] at hx
      have hplaces : places offsiteRun.args.job = [.local, .s3 ⟨[], "backups".toList, []⟩] := by decide +kernel
      rw [hplaces] at hx
      rcases List.mem_cons.mp hx with rfl | hx
      · rfl
      · rw [List.mem_singleton.mp hx]
        rfl
    rw [hpre d hd, hpre d' hd']
  untouched := ⟨fun _ _ => rfl, fun _ => rfl, fun _ _ _ _ => rfl⟩
  fresh r _ d _ key _ := by
    show (worldOf []).get _ _ = none
    cases d.loc hashEnv <;> rfl

theorem uploadedLost_bucket (site : Site) (k : Str) :
    uploadedLost.get (.bucket site) k = uploaded.get (.bucket site) k := by
  unfold World.get uploadedLost
  dsimp only

theorem uploadedLost_data (k : Str) : uploadedLost.get .data k = none := by
  unfold World.get uploadedLost
  dsimp only
  rfl

theorem recovered_as_stored_uploaded :
    (hydrate hashEnv offsiteJob (fun _ => calmCalls) offsiteRun.args.sid uploadedLost).1 = .ok () ∧
    (hydrate hashEnv offsiteJob (fun _ => calmCalls) offsiteRun.args.sid uploadedLost).2.HoldsRun hashEnv offsiteRun ∧
    (∀ key, ¬ offsiteRun.args.sid ++ ['.'] <+: key →
      (hydrate hashEnv offsiteJob (fun _ => calmCalls) offsiteRun.args.sid uploadedLost).2.get .data key =
        uploadedLost.get .data key) ∧
    verifySnapshot hashEnv (fun m => Json.render 0 m.toJson)
      (hydrate hashEnv offsiteJob (fun _ => calmCalls) offsiteRun.args.sid uploadedLost).2 offsiteRun.args.sid =
        .ok true := by
  have htried : tried offsiteJob (fun _ => calmCalls) = [(offsiteBucket, calmCalls)] := rfl
  refine recovered_as_stored offsite_afresh uploaded_reached List.mem_cons_self uploadedLost_bucket
    (fun key _ => uploadedLost_data key) (fun d hd c hc => ?_) ?_ dumps_render (fun b h => by cases h)
  · rw [htried] at hd
    rw [List.mem_singleton.mp hd] at hc ⊢
    have hplace : offsiteBucket.offsite? = some ⟨[], "backups".toList, []⟩ := rfl
    obtain rfl := Option.some.inj (hc.offsite.symm.trans hplace)
    exact ⟨⟨offsiteRun, List.mem_cons_self, by decide +kernel⟩, fun _ _ => rfl⟩
  · rw [htried]
    exact ⟨_, List.mem_cons_self, ⟨[], "backups".toList, []⟩, rfl, rfl, rfl, by decide +kernel⟩

end BackupHelper
