import BackupHelper.Sources.Builtin
import BackupHelper.Runner.Names

/-!
# What the manifest promises is in the bundle

All sources of a job write into one staging directory, under names from the configuration.  A component
is hashed when its source is done; later sources and the embedded manifest write after that.

* `Step`, `steps`          a run of the sources, one after the other;
* `Step.Touches`, `Files`  the place of the file that a source opens or removes, and of a good component;
* `Careful`                no step touches the file of an earlier component, or a place outside;
* `Kept`                   every state after it;
* `manifest_promises`      **a run of careful steps keeps what the manifest says**.
-/

namespace BackupHelper
open Text Files Disk Python

/-- one source that is run, and the disk before and after it -/
structure Step where
  source : Builtin
  before : Disk FileData
  after : Disk FileData
  component : PyComponent

/-- the steps of `produce`, as far as they go -/
def steps (h : Host) (staging : Path) : List Builtin → Disk FileData → List Step
  | [], _ => []
  | s :: sources, d =>
    if active (s.toRun h staging) then
      match stage h staging (s.toRun h staging) d with
      | (_, .error _, _) => []
      | (d', .ok cs, _) => cs.map (⟨s, d, d', ·⟩) ++ steps h staging sources d'
    else steps h staging sources d

namespace Step

/-- the source opens or removes the file at `q` -/
def Touches (staging : Path) (st : Step) (q : Path) : Prop :=
  st.source.work.touches = true ∧ st.source.place staging st.before = some q ∧
    st.before.isDir q = false

/-- the file of a component that is recorded without error -/
def Files (staging : Path) (st : Step) (q : Path) : Prop :=
  st.component.error = none ∧ st.source.place staging st.before = some q

end Step

/-- each step, on the state before it -/
structure Careful (h : Host) (staging : Path) (sources : List Builtin) (l : List Step) : Prop where
  keys : ∀ s ∈ sources, active (s.toRun h staging) = true → s.KeysStay
  /-- it touches no place outside the staging directory -/
  inside : ∀ st ∈ l, ∀ q, st.Touches staging q → staging <+: q
  /-- and no file of a component before it -/
  apart : l.Pairwise fun st st' => ∀ q, st.Files staging q → ¬ st'.Touches staging q
  /-- nor does the embedded manifest -/
  manifest : ∀ st ∈ l, ¬ st.Files staging (staging ++ [manifestFile])

/-- a staging directory with nothing in it -/
structure Fresh (staging : Path) (d : Disk FileData) : Prop where
  closed : d.Closed
  isDir : d.isDir staging = true
  plain : up ∉ staging
  empty : ∀ r ≠ [], d.node (staging ++ r) = none

/-- a state of the run: no directory is new or gone, and no link is in the staging directory -/
structure Midway (staging : Path) (d0 d : Disk FileData) : Prop where
  dirs : ∀ q, d.isDir q = d0.isDir q
  closed : d.Closed
  links : ∀ r t, d.node (staging ++ r) ≠ some (.file (.link t))

/-- the component's file is there as it was recorded -/
def Step.Intact (h : Host) (staging : Path) (st : Step) (d : Disk FileData) : Prop :=
  st.component.error = none → ∃ q b, st.Files staging q ∧ st.after.node q = some (.file b) ∧
    d.node q = some (.file b) ∧ st.component.Holds h b

section
variable {h : Host} {staging : Path} {d0 d d' : Disk FileData} {st : Step}

theorem Fresh.midway (hF : Fresh staging d) : Midway staging d d where
  dirs _ := rfl
  closed := hF.closed
  links r t hn := by
    by_cases hr : r = []
    · rw [hr, List.append_nil, isDir_iff.mp hF.isDir] at hn
      cases hn
    · rw [hF.empty r hr] at hn
      cases hn

theorem Midway.onlyAt {p : Option Path} (hM : Midway staging d0 d) (ho : OnlyAt p d d') :
    Midway staging d0 d' where
  dirs q := (ho.dirs q).trans (hM.dirs q)
  closed := ho.closed
  links r t hn := hM.links r t (ho.links _ t hn)

/-- what a step does: only the place it touches is another one -/
structure Step.Sound (h : Host) (staging : Path) (st : Step) : Prop where
  only : ∃ p, OnlyAt p st.before st.after
  frame : ∀ q, ¬ st.Touches staging q → st.after.node q = st.before.node q
  intact : st.Intact h staging st.after
  touches : ∀ q, st.Files staging q → st.Touches staging q

/-- **One step** -/
theorem stage_sound (hfits : h.fits = fits) {s : Builtin} (hM : Midway staging d0 d)
    (hdir : d0.isDir staging = true) (hup : up ∉ staging) (hkeys : s.KeysStay) (htemp : s.NewTemp staging)
    {cs : List PyComponent} {errors : List PyText}
    (hst : stage h staging (s.toRun h staging) d = (d', .ok cs, errors)) :
    ∃ c, cs = [c] ∧ Step.Sound h staging ⟨s, d, d', c⟩ ∧ Midway staging d0 d' := by
  have hdir' : d.isDir staging = true := by rw [hM.dirs, hdir]
  obtain ⟨honly, hself, hgood⟩ := stage_onlyAt hfits hM.closed hdir' hup hkeys htemp hst
  obtain ⟨c, rfl, hstages⟩ := hgood cs rfl
  refine ⟨c, rfl, ⟨⟨_, honly⟩, fun q hq => ?_, fun hnone => ?_, fun q hq => ?_⟩, hM.onlyAt honly⟩
  · by_cases htouch : s.work.touches = true
    · by_cases hplace : s.place staging d = some q
      · -- a directory at its place stays one
        have hq' : d.isDir q = true := by
          by_contra hnot
          exact hq ⟨htouch, hplace, Bool.not_eq_true _ ▸ hnot⟩
        have hafter : d'.isDir q = true := by rw [honly.dirs, hq']
        show d'.node q = d.node q
        rw [isDir_iff.mp hq', isDir_iff.mp hafter]
      · exact honly.same q hplace
    · show d'.node q = d.node q
      rw [hself (by simpa using htouch)]
  · obtain ⟨-, q, b, hplace, -, hnode, -, hholds⟩ := hstages hnone
    exact ⟨q, b, ⟨hnone, hplace⟩, hnode, hnode, hholds⟩
  · obtain ⟨hnone, hplace⟩ := hq
    obtain ⟨htouch, q', b, hplace', hnot, -⟩ := hstages hnone
    obtain rfl := Option.some.inj (hplace.symm.trans hplace')
    exact ⟨htouch, hplace, hnot⟩

/-- the disk after some steps -/
def lastDisk (d : Disk FileData) : List Step → Disk FileData
  | [] => d
  | st :: l => lastDisk st.after l

/-- each step goes on where the one before it ended -/
def Chained (d : Disk FileData) : List Step → Prop
  | [] => True
  | st :: l => st.before = d ∧ Chained st.after l

/-- **The run of the sources** as a chain of steps -/
theorem steps_spec (hfits : h.fits = fits) {sources : List Builtin} (hM : Midway staging d0 d)
    (hdir : d0.isDir staging = true) (hup : up ∉ staging)
    (hkeys : ∀ s ∈ sources, active (s.toRun h staging) = true → s.KeysStay)
    (htemp : ∀ s ∈ sources, s.NewTemp staging) {cs : List PyComponent} {errors : List PyText}
    (hprod : produce h staging (sources.map (·.toRun h staging)) d = (d', .ok cs, errors)) :
    cs = (steps h staging sources d).map (·.component) ∧ Chained d (steps h staging sources d) ∧
      lastDisk d (steps h staging sources d) = d' ∧ Midway staging d0 d' ∧
      ∀ st ∈ steps h staging sources d, st.Sound h staging := by
  induction sources generalizing d cs errors with
  | nil =>
    obtain ⟨rfl, hcs⟩ := Prod.mk.inj hprod
    obtain ⟨hcs, -⟩ := Prod.mk.inj hcs
    rw [← Except.ok.inj hcs]
    exact ⟨rfl, trivial, rfl, hM, by simp [steps]⟩
  | cons s sources ih =>
    rw [List.forall_mem_cons] at hkeys htemp
    rw [List.map_cons] at hprod
    unfold produce at hprod
    unfold steps
    by_cases hact : active (s.toRun h staging) = true
    · rw [if_pos hact] at hprod ⊢
      cases hst : stage h staging (s.toRun h staging) d with
      | mk d1 rec =>
        obtain ⟨r, errors1⟩ := rec
        rw [hst] at hprod
        cases r with
        | error e =>
          obtain ⟨-, he⟩ := Prod.mk.inj hprod
          cases (Prod.mk.inj he).1
        | ok cs1 =>
          obtain ⟨c, rfl, hsound, hM1⟩ := stage_sound hfits hM hdir hup (hkeys.1 hact) htemp.1 hst
          simp only at hprod
          cases hrest : produce h staging (sources.map (·.toRun h staging)) d1 with
          | mk d2 rec2 =>
            obtain ⟨r2, errors2⟩ := rec2
            rw [hrest] at hprod
            obtain ⟨rfl, he⟩ := Prod.mk.inj hprod
            obtain ⟨he, -⟩ := Prod.mk.inj he
            cases r2 with
            | error e => cases he
            | ok cs2 =>
              obtain ⟨rfl, hchain, hlast, hM2, hall⟩ := ih hM1 hkeys.2 htemp.2 hrest
              refine ⟨(Except.ok.inj he).symm, ⟨rfl, hchain⟩, hlast, hM2, ?_⟩
              exact List.forall_mem_cons.mpr ⟨hsound, hall⟩
    · rw [if_neg hact] at hprod ⊢
      exact ih hM hkeys.2 htemp.2 hprod

/-- a place that no step touches -/
theorem lastDisk_frame {l : List Step} (hchain : Chained d l) (hall : ∀ st ∈ l, st.Sound h staging) {q : Path}
    (hq : ∀ st ∈ l, ¬ st.Touches staging q) : (lastDisk d l).node q = d.node q := by
  induction l generalizing d with
  | nil => rfl
  | cons st l ih =>
    obtain ⟨rfl, hchain⟩ := hchain
    rw [List.forall_mem_cons] at hall hq
    rw [show lastDisk st.before (st :: l) = lastDisk st.after l from rfl, ih hchain hall.2 hq.2]
    exact hall.1.frame q hq.1

/-! ## every state of a careful run -/

/-- the files of the components so far are there as recorded, and nothing outside has changed -/
structure Kept (h : Host) (staging : Path) (d0 : Disk FileData) (l : List Step) (d : Disk FileData) :
    Prop where
  intact : ∀ st ∈ l, st.Intact h staging d
  outside : ∀ q, ¬ staging <+: q → d.node q = d0.node q

theorem intact_lastDisk {l : List Step} (hchain : Chained d l) (hall : ∀ st ∈ l, st.Sound h staging)
    (hapart : l.Pairwise fun st st' => ∀ q, st.Files staging q → ¬ st'.Touches staging q) :
    ∀ st ∈ l, st.Intact h staging (lastDisk d l) := by
  induction l generalizing d with
  | nil => exact fun st hst => absurd hst List.not_mem_nil
  | cons st l ih =>
    obtain ⟨-, hchain⟩ := hchain
    rw [List.forall_mem_cons] at hall
    rw [List.pairwise_cons] at hapart
    refine List.forall_mem_cons.mpr ⟨fun hnone => ?_, ih hchain hall.2 hapart.2⟩
    obtain ⟨q, b, hfile, hafter, -, hholds⟩ := hall.1.intact hnone
    refine ⟨q, b, hfile, hafter, ?_, hholds⟩
    show (lastDisk st.after l).node q = _
    rw [lastDisk_frame hchain hall.2 fun st' hst' => hapart.1 st' hst' q hfile]
    exact hafter

/-- **Every state of a careful run** -/
theorem kept_lastDisk {l : List Step} (hchain : Chained d l) (hall : ∀ st ∈ l, st.Sound h staging)
    (hinside : ∀ st ∈ l, ∀ q, st.Touches staging q → staging <+: q)
    (hapart : l.Pairwise fun st st' => ∀ q, st.Files staging q → ¬ st'.Touches staging q) :
    Kept h staging d l (lastDisk d l) :=
  ⟨intact_lastDisk hchain hall hapart,
    fun q hq => lastDisk_frame hchain hall fun st hst ht => hq (hinside st hst q ht)⟩

theorem Chained.left {l l' : List Step} (h : Chained d (l ++ l')) : Chained d l := by
  induction l generalizing d with
  | nil => trivial
  | cons st l ih => exact ⟨h.1, ih h.2⟩

/-- a file that is put where no component has its own -/
theorem Kept.put {l : List Step} {p : Path} {n : Node FileData} (hK : Kept h staging d0 l d)
    (hp : staging <+: p) (hfree : ∀ st ∈ l, ¬ st.Files staging p) : Kept h staging d0 l (d.put p n) where
  intact st hst hnone := by
    obtain ⟨q, b, hfile, hafter, hnode, hholds⟩ := hK.intact st hst hnone
    have hne : q ≠ p := by
      rintro rfl
      exact hfree st hst hfile
    refine ⟨q, b, hfile, hafter, ?_, hholds⟩
    rw [node_put_ne hne]
    exact hnode
  outside q hq := by
    have hne : q ≠ p := by
      rintro rfl
      exact hq hp
    rw [node_put_ne hne]
    exact hK.outside q hq

/-! ## the embedded manifest, and the bundle -/

/-- the manifest is written in the staging directory itself -/
theorem overwrite_manifest (hM : Midway staging d0 d) {b : FileData}
    (ho : overwrite h d (staging, [manifestFile]) b = some d') :
    d.isDir (staging ++ [manifestFile]) = false ∧ d' = d.put (staging ++ [manifestFile]) (.file b) := by
  unfold overwrite at ho
  have hfollow : ∀ q, follow h d (maxLinks + 1) (staging, [manifestFile]) = some q →
      q = staging ++ [manifestFile] := by
    intro q hq
    unfold follow at hq
    split at hq
    · cases hq
    · rename_i q' hw
      obtain ⟨-, -, rfl⟩ := walk_eq_some.mp hw
      rw [reach_plain (by decide)] at hq
      split at hq
      · rename_i t hn
        exact absurd hn (hM.links _ t)
      · exact (Option.some.inj hq).symm
  split at ho
  · cases ho
  · rename_i q hq
    obtain rfl := hfollow q hq
    split at ho
    · cases ho
    · rename_i hnot
      rw [Bool.or_eq_true, not_or] at hnot
      exact ⟨by simpa using hnot.1, (Option.some.inj ho).symm⟩

/-- a component as it is written -/
theorem write_component {pc : PyComponent} {c : Component} (hw : pc.write h = some c) :
    c.size = pc.size ∧ c.sha256 = pc.sha256 ∧ (c.error = none → pc.error = none) := by
  unfold PyComponent.write at hw
  split at hw
  · rename_i name kind error hname hkind herror hmeta
    rw [← Option.some.inj hw]
    refine ⟨rfl, rfl, fun hnone => ?_⟩
    cases he : pc.error with
    | none => rfl
    | some t =>
      rw [he] at herror
      obtain ⟨t', -, ht⟩ := Option.map_eq_some_iff.mp herror
      rw [← ht] at hnone
      cases hnone
  · cases hw

/-- the disk that is bundled -/
def bundleDisk (h : Host) (a : RunArgs) (staging : Path) (sources : List SourceRun)
    (d : Disk FileData) : Option (Disk FileData) :=
  match produce h staging sources d with
  | (d, .ok components, _) =>
    (components.mapM (PyComponent.write h)).bind fun written =>
      overwrite h d (staging, [manifestFile])
        (.manifest (Manifest.build a.sid a.instance_ written (isoformat a.now) none))
  | _ => none

/-- how a run comes to its archive -/
theorem makeBundle_cases {a : RunArgs} {sources : List SourceRun} {made : Made}
    (hmade : makeBundle h a staging sources d = .ok made) :
    ∃ d1 cs errors dM plain more, produce h staging sources d = (d1, .ok cs, errors) ∧
      cs.mapM (PyComponent.write h) = some made.components ∧
      overwrite h d1 (staging, [manifestFile])
        (.manifest (Manifest.build a.sid a.instance_ made.components (isoformat a.now) none)) = some dM ∧
      bundleDisk h a staging sources d = some dM ∧
      h.pack (createBundle dM staging) = .ok plain ∧
      maybeEncrypt h a.job.encryption plain = .ok (made.archive, made.encrypted, more) := by
  unfold makeBundle at hmade
  split at hmade
  · cases hmade
  · rename_i d1 cs errors hprod
    simp only at hmade
    split at hmade
    · cases hmade
    · rename_i written hwrite
      cases hbundle : bundleStaged h a staging d1 written with
      | error e =>
        rw [hbundle] at hmade
        cases hmade
      | ok amm =>
        obtain ⟨archive, mode, more⟩ := amm
        rw [hbundle] at hmade
        obtain rfl := Except.ok.inj hmade
        unfold bundleStaged at hbundle
        simp only at hbundle
        split at hbundle
        · cases hbundle
        · rename_i dM hover
          unfold archiveOf at hbundle
          simp only at hbundle
          split at hbundle
          · cases hbundle
          · rename_i plain hpack
            split at hpack
            · cases hpack
            · refine ⟨d1, cs, errors, dM, plain, more, hprod, hwrite, hover, ?_, hpack, hbundle⟩
              unfold bundleDisk
              rw [hprod]
              simp only
              rw [hwrite]
              exact hover

/-- what the manifest says of the components is true of the members of the bundle -/
def Promised (h : Host) (staging : Path) (members : List (Member FileData)) (st : Step) (c : Component) :
    Prop :=
  st.component.write h = some c ∧ (c.error = none → ∃ r b, st.Files staging (staging ++ r) ∧
    st.after.node (staging ++ r) = some (.file b) ∧ (r, .file b) ∈ members ∧
    c.size = (h.render b).length ∧ c.sha256 = h.sha256 (h.render b))

end

/-- **A run of careful steps keeps what the manifest says.**  Each component of the manifest that has no
error is a member of the bundle, the file that its source left, with the recorded size and hash; in every
state of the run the files of the components so far are there as recorded, and nothing has changed
outside the staging directory. -/
theorem manifest_promises (h : Host) (hfits : h.fits = fits) (a : RunArgs) {staging : Path}
    {sources : List Builtin} {d : Disk FileData} (hF : Fresh staging d)
    (htemp : ∀ s ∈ sources, s.NewTemp staging) {made : Made}
    (hmade : makeBundle h a staging (sources.map (·.toRun h staging)) d = .ok made)
    (hcareful : Careful h staging sources (steps h staging sources d)) :
    (∀ l l', steps h staging sources d = l ++ l' → Kept h staging d l (lastDisk d l)) ∧
    ∃ dM plain more, bundleDisk h a staging (sources.map (·.toRun h staging)) d = some dM ∧
      Kept h staging d (steps h staging sources d) dM ∧
      h.pack (createBundle dM staging) = .ok plain ∧
      maybeEncrypt h a.job.encryption plain = .ok (made.archive, made.encrypted, more) ∧
      List.Forall₂ (Promised h staging (createBundle dM staging)) (steps h staging sources d)
        made.components := by
  obtain ⟨d1, cs, errors, dM, plain, more, hprod, hwrite, hover, hdisk, hpack, hencrypt⟩ :=
    makeBundle_cases hmade
  obtain ⟨rfl, hchain, rfl, hM, hall⟩ :=
    steps_spec hfits hF.midway hF.isDir hF.plain hcareful.keys htemp hprod
  have hlast := kept_lastDisk hchain hall hcareful.inside hcareful.apart
  obtain ⟨-, rfl⟩ := overwrite_manifest hM hover
  have hkept := hlast.put (n := .file (.manifest (Manifest.build a.sid a.instance_ made.components
    (isoformat a.now) none))) (List.prefix_append staging [manifestFile]) hcareful.manifest
  refine ⟨fun l l' hl => ?_, _, plain, more, hdisk, hkept, hpack, hencrypt, ?_⟩
  · have hpair := hcareful.apart
    rw [hl] at hchain hall hpair
    have hleft : ∀ st ∈ l, st ∈ steps h staging sources d := fun st hst => hl ▸ List.mem_append_left _ hst
    exact kept_lastDisk hchain.left (fun st hst => hall st (List.mem_append_left _ hst))
      (fun st hst => hcareful.inside st (hleft st hst)) (List.pairwise_append.mp hpair).1
  · have hwritten := List.forall₂_map_left_iff.mp (mapM_forall₂ hwrite)
    refine ((List.forall₂_and_left _ _).mpr ⟨fun st hst => hst, hwritten⟩).imp fun st c hc => ?_
    obtain ⟨hst, hc⟩ := hc
    obtain ⟨hsize, hsha, herror⟩ := write_component hc
    refine ⟨hc, fun hnone => ?_⟩
    obtain ⟨q, b, hfile, hafter, hnode, hholds⟩ := hkept.intact st hst (herror hnone)
    obtain ⟨r, rfl⟩ := hcareful.inside st hst q ((hall st hst).touches q hfile)
    have hr : r ≠ [] := by
      rintro rfl
      have hne : staging ≠ staging ++ [manifestFile] := by simp
      have hdir := hM.dirs staging
      rw [List.append_nil, node_put_ne hne] at hnode
      rw [hF.isDir, Disk.isDir, hnode] at hdir
      cases hdir
    exact ⟨r, b, hfile, hafter, mem_createBundle.mpr ⟨hr, hnode⟩, hsize.trans hholds.1, hsha.trans hholds.2⟩

/-! ## two filesystem sources -/

/-- a filesystem source whose archive is `b` -/
def filesSource (name : Str) (b : Bytes) : Builtin where
  kind := .filesystem
  name := name
  enabled := .bool true
  bucket := .none
  metadata := []
  work := .writes (.bytes b)
  mirror _ _ _ _ h := by cases h
  noLink _ _ := ⟨by simp, by simp⟩

def emptyStage : Disk FileData := ⟨[(["stage".toList], .dir)]⟩

theorem fresh_emptyStage : Fresh ["stage".toList] emptyStage := by
  have hnode : ∀ q, q ≠ [] → q ≠ ["stage".toList] → emptyStage.node q = none := by
    intro q hnil hne
    show ((⟨[]⟩ : Disk FileData).put ["stage".toList] .dir).node q = none
    rw [node_put_ne hne]
    simp [node, hnil]
  refine ⟨fun q s hn => ?_, rfl, by decide, fun r hr => hnode _ (by simp) (by simpa using hr)⟩
  have he : q ++ [s] = ["stage".toList] := by
    by_contra hne
    exact hn (hnode _ (by simp) hne)
  cases q with
  | nil => exact isDir_nil _
  | cons x q => simp at he

/-- two names, two places -/
theorem manifest_promises_two :
    let sources := [filesSource "files".toList [1], filesSource "uploads".toList [2]]
    ∃ made dM, makeBundle plainHost (runAt {} none) ["stage".toList]
        (sources.map (·.toRun plainHost ["stage".toList])) emptyStage = .ok made ∧
      List.Forall₂ (Promised plainHost ["stage".toList] (createBundle dM ["stage".toList]))
        (steps plainHost ["stage".toList] sources emptyStage) made.components := by
  intro sources
  have hplace : ∀ name b d q, (filesSource name b).place ["stage".toList] d = some q →
      q = reach ((filesSource name b).out ["stage".toList]).1 ((filesSource name b).out ["stage".toList]).2 :=
    fun name b d q hq => (walk_eq_some.mp hq).2.2
  have hcareful : Careful plainHost ["stage".toList] sources
      (steps plainHost ["stage".toList] sources emptyStage) := by
    obtain ⟨d1, d2, c1, c2, hsteps⟩ : ∃ d1 d2 c1 c2, steps plainHost ["stage".toList] sources emptyStage =
        [⟨filesSource "files".toList [1], emptyStage, d1, c1⟩,
          ⟨filesSource "uploads".toList [2], d1, d2, c2⟩] := ⟨_, _, _, _, rfl⟩
    rw [hsteps]
    refine ⟨?_, ?_, ?_, ?_⟩
    · intro s hs _ bucket prefix_ objects td hwork
      rcases List.mem_cons.mp hs with rfl | hs
      · cases hwork
      · obtain rfl := List.mem_singleton.mp hs
        cases hwork
    · intro st hst q hq
      rcases List.mem_cons.mp hst with rfl | hst
      · rw [hplace _ _ _ _ hq.2.1]
        decide
      · obtain rfl := List.mem_singleton.mp hst
        rw [hplace _ _ _ _ hq.2.1]
        decide
    · refine List.pairwise_pair.mpr fun q hq ht => ?_
      have he := (hplace _ _ _ _ hq.2).symm.trans (hplace _ _ _ _ ht.2.1)
      revert he
      decide
    · intro st hst hq
      rcases List.mem_cons.mp hst with rfl | hst
      · have he := hplace _ _ _ _ hq.2
        revert he
        decide
      · obtain rfl := List.mem_singleton.mp hst
        have he := hplace _ _ _ _ hq.2
        revert he
        decide
  have htemp : ∀ s ∈ sources, s.NewTemp ["stage".toList] := by
    intro s hs bucket prefix_ objects td hwork
    rcases List.mem_cons.mp hs with rfl | hs
    · cases hwork
    · obtain rfl := List.mem_singleton.mp hs
      cases hwork
  obtain ⟨-, dM, plain, more, -, -, -, -, hall⟩ :=
    manifest_promises plainHost rfl (runAt {} none) fresh_emptyStage htemp rfl hcareful
  exact ⟨_, dM, rfl, hall⟩

/-- **Where the manifest promises what is not there**: the archive of the second source took the place of
the first one's, and the manifest still has the hash of the first. -/
theorem two_files_sources :
    let sources := [filesSource "files".toList [1], filesSource "files".toList [2]]
    let runs := sources.map (·.toRun plainHost ["stage".toList])
    ∃ made dM c, makeBundle plainHost (runAt {} none) ["stage".toList] runs emptyStage = .ok made ∧
      bundleDisk plainHost (runAt {} none) ["stage".toList] runs emptyStage = some dM ∧
      c ∈ made.components ∧ c.error = none ∧
      ∀ m ∈ createBundle dM ["stage".toList], ∀ b, m.2 = .file b →
        plainHost.sha256 (plainHost.render b) ≠ c.sha256 := by
  refine ⟨_, _, _, rfl, rfl, List.mem_cons_self, rfl, ?_⟩
  have hmembers : ∀ (f : Manifest) (m : Member FileData), m ∈ [(["files.tar.gz".toList], Node.file (.bytes [2])),
      (["manifest.json".toList], Node.file (.manifest f))] → ∀ b, m.2 = .file b →
      plainHost.sha256 (plainHost.render b) ≠ plainHost.sha256 [1] := by
    intro f m hm b hb
    rcases List.mem_cons.mp hm with rfl | hm
    · obtain rfl := Node.file.inj hb
      decide
    · obtain rfl := List.mem_singleton.mp hm
      obtain rfl := Node.file.inj hb
      exact (List.cons_ne_nil _ _).symm
  exact hmembers _

end BackupHelper
