import BackupHelper.Ownership
import BackupHelper.Snapshots.Order
import BackupHelper.Lib.Weave

/-!
# What each of two jobs may touch

Two jobs of one config share the data dir, and maybe key prefixes of a bucket.

* `Side.Zone`      the names that a run of the job may touch: all below a prefix of its own, and below
                   a shared one the files of the ids that the job owns;
* `Side.Apart`     the condition on names and prefixes;
* `Side.Tame`      the condition on the stores: the ids there are such as the engine writes, and a
                   marker is on an id that names the same job as the marker;
* `zone_disjoint`  no name is in both zones.
-/

set_option linter.unusedSectionVars false

namespace BackupHelper
open Text Glob Effects Calendar

/-- one of two jobs that run at the same time -/
structure Side where
  env : Env
  jobs : List Job
  job : Job
  other : Job

namespace Side

def swap (s : Side) : Side := { s with job := s.other, other := s.job }

/-- the other job stores there too -/
def Meets (s : Side) (d : Dest) : Prop :=
  ∃ d' ∈ places s.other, d'.loc s.env = d.loc s.env ∧ d'.pre = d.pre

/-- an id of the job: one that names it, or a plain one at a place of the job -/
def OwnAt (s : Side) (place q : Str) : Prop :=
  Engine q ∧ (scopeFor s.jobs s.job).owns q place none = true

/-- an id that names the job -/
def Scoped (s : Side) (q : Str) : Prop :=
  Engine q ∧ (parseSnapshotId q).2 = some (jobSlug s.job.name)

def Zone (s : Side) (l : Loc) (k : Str) : Prop :=
  ∃ d ∈ places s.job, d.loc s.env = l ∧ d.pre <+: k ∧
    (s.Meets d → ∃ q, s.OwnAt (place d) q ∧ d.pre ++ (q ++ ['.']) <+: k)

/-- names and slugs differ, and where the two store in one bucket they know it by the same name and
no prefix is a proper prefix of another -/
structure Apart (s : Side) : Prop where
  here : s.job ∈ s.jobs
  there : s.other ∈ s.jobs
  slugs : jobSlug s.job.name ≠ jobSlug s.other.name
  buckets : ∀ c ∈ s.job.offsite, ∀ c' ∈ s.other.offsite,
    s.env.site c.endpoint c.bucket = s.env.site c'.endpoint c'.bucket →
      c.endpoint = c'.endpoint ∧ c.bucket = c'.bucket ∧
        (c.prefix_ <+: c'.prefix_ ∨ c'.prefix_ <+: c.prefix_ → c.prefix_ = c'.prefix_)

/-- where both store, ids are job-scoped or plain, and a marker is on a job-scoped id and names the job
that the id names -/
structure Tame (s : Side) (w : World) : Prop where
  ids : ∀ d ∈ places s.job, s.Meets d → ∀ p, free '/' p →
    (w.get (d.loc s.env) (d.pre ++ (p ++ manifestSuffix))).isSome → Engine p
  marks : ∀ q name, free '/' q → w.owner (q ++ pendingSuffix) = some name →
    Engine q ∧ ∃ slug, (parseSnapshotId q).2 = some slug ∧
      (name = s.job.name → slug = jobSlug s.job.name) ∧
      (name = s.other.name → slug = jobSlug s.other.name)

/-- the stores look the same to the job -/
def Same (s : Side) (w w' : World) : Prop := ∀ l k, s.Zone l k → w.get l k = w'.get l k

/-- what the job may do to the stores -/
def Moves (s : Side) (w w' : World) : Prop :=
  s.Tame w → s.Tame w' ∧ ∀ l k, ¬ s.Zone l k → w'.get l k = w.get l k

end Side

section
variable {s : Side}

theorem same_equivalence (s : Side) : Equivalence s.Same where
  refl _ _ _ _ := rfl
  symm h l k hz := (h l k hz).symm
  trans h h' l k hz := (h l k hz).trans (h' l k hz)

theorem Side.Apart.swap (h : s.Apart) : s.swap.Apart where
  here := h.there
  there := h.here
  slugs := h.slugs.symm
  buckets c hc c' hc' hsite := by
    obtain ⟨he, hb, hp⟩ := h.buckets c' hc' c hc hsite.symm
    exact ⟨he.symm, hb.symm, fun hor => (hp hor.symm).symm⟩

/-- where both jobs store below comparable prefixes, they store at one place -/
theorem Side.Apart.meet (h : s.Apart) {d d' : Dest} (hd : d ∈ places s.job) (hd' : d' ∈ places s.other)
    (hloc : d.loc s.env = d'.loc s.env) (hpre : d.pre <+: d'.pre ∨ d'.pre <+: d.pre) :
    d.pre = d'.pre ∧ place d = place d' := by
  cases d with
  | «local» =>
    cases d' with
    | «local» => exact ⟨rfl, rfl⟩
    | s3 c' => simp [Dest.loc] at hloc
  | s3 c =>
    cases d' with
    | «local» => simp [Dest.loc] at hloc
    | s3 c' =>
      have hsite : s.env.site c.endpoint c.bucket = s.env.site c'.endpoint c'.bucket := by
        simpa [Dest.loc] using hloc
      obtain ⟨he, hb, hp⟩ := h.buckets c (mem_offsite.mp hd) c' (mem_offsite.mp hd') hsite
      have hp' := hp hpre
      refine ⟨hp', ?_⟩
      show s3Place c = s3Place c'
      unfold s3Place
      rw [he, hb, hp']

theorem Side.Apart.several (h : s.Apart) : 2 ≤ s.jobs.length := by
  have hne : s.job.name ≠ s.other.name := fun he => h.slugs (by rw [he])
  match hj : s.jobs with
  | [] =>
    have hmem := h.here
    rw [hj] at hmem
    simp at hmem
  | [j] =>
    have hmem := h.here
    have hmem' := h.there
    rw [hj] at hmem hmem'
    exact absurd (by rw [List.mem_singleton.mp hmem, List.mem_singleton.mp hmem']) hne
  | _ :: _ :: _ => simp

theorem Side.Scoped.ownAt (h : s.Apart) {q : Str} (hq : s.Scoped q) (place : Str) :
    s.OwnAt place q := by
  refine ⟨hq.1, ?_⟩
  rw [owns_scopeFor h.several, hq.2]

theorem Side.Apart.scoped_new (h : s.Apart) (t : Datetime) : s.Scoped (newIdOf s.jobs s.job t) :=
  ⟨⟨t, _, rfl⟩, parse_newIdOf_self h.several s.job t⟩

theorem Engine.dotfree {q : Str} (h : Engine q) : free '.' q := dotless h.slug

/-- no id belongs to both jobs -/
theorem Side.OwnAt.not_both (h : s.Apart) {place q : Str} (hq : s.OwnAt place q)
    (hq' : s.swap.OwnAt place q) : False := by
  obtain ⟨-, hown⟩ := hq
  obtain ⟨-, hown'⟩ := hq'
  rw [owns_scopeFor h.several] at hown
  rw [show s.swap.jobs = s.jobs from rfl, owns_scopeFor h.several] at hown'
  cases hs : (parseSnapshotId q).2 with
  | some slug =>
    rw [hs] at hown hown'
    exact h.slugs (hown.trans hown'.symm)
  | none =>
    rw [hs] at hown hown'
    exact h.slugs (by rw [Option.some.inj (hown.symm.trans hown')]; rfl)

/-- **No name is in both zones.** -/
theorem zone_disjoint (h : s.Apart) {l : Loc} {k : Str} (hz : s.Zone l k) : ¬ s.swap.Zone l k := by
  rintro ⟨d', hd', hloc', hpre', hown'⟩
  obtain ⟨d, hd, hloc, hpre, hown⟩ := hz
  have hlocs : d.loc s.env = d'.loc s.env := hloc.trans hloc'.symm
  obtain ⟨hp, hplace⟩ := h.meet hd hd' hlocs (List.prefix_or_prefix_of_prefix hpre hpre')
  obtain ⟨q, hq, hk⟩ := hown ⟨d', hd', hlocs.symm, hp.symm⟩
  obtain ⟨q', hq', hk'⟩ := hown' ⟨d, hd, hlocs, hp⟩
  obtain ⟨x, rfl⟩ := hpre
  rw [List.prefix_append_right_inj] at hk
  rw [← hp, List.prefix_append_right_inj] at hk'
  have hnot : ∀ {u v : Str}, free '.' v → ¬ u ++ ['.'] <+: v :=
    fun hv hpref => hv (hpref.subset (by simp))
  obtain rfl := begins_unique hk hk' (hnot hq'.1.dotfree) (hnot hq.1.dotfree)
  rw [← hplace] at hq'
  exact hq.not_both h hq'

theorem zone_of_scoped (h : s.Apart) {q : Str} (hq : s.Scoped q) {d : Dest} (hd : d ∈ places s.job)
    {x : Str} (hx : q ++ ['.'] <+: x) : s.Zone (d.loc s.env) (d.pre ++ x) := by
  refine ⟨d, hd, rfl, List.prefix_append _ _, fun _ => ⟨q, hq.ownAt h _, ?_⟩⟩
  exact (List.prefix_append_right_inj _).mpr hx

theorem zone_data (h : s.Apart) {q : Str} (hq : s.Scoped q) {x : Str} (hx : q ++ ['.'] <+: x) :
    s.Zone .data x :=
  zone_of_scoped h hq (show Dest.local ∈ places s.job from List.mem_cons_self) hx

theorem meets_local (s : Side) : s.Meets .local := ⟨.local, List.mem_cons_self, rfl, rfl⟩

/-! ## the stores stay tame -/

theorem Side.Tame.of_files {w w' : World} (h : s.Tame w) (hfiles : w'.files = w.files) : s.Tame w' := by
  have hget : ∀ l k, w'.get l k = w.get l k := fun l k => by rw [World.get, hfiles, World.get]
  refine ⟨fun d hd hm p hp hs => h.ids d hd hm p hp ?_, fun q name hq ho => h.marks q name hq ?_⟩
  · rwa [hget] at hs
  · rw [World.owner_eq_some] at ho ⊢
    rwa [hget] at ho

theorem Side.Tame.of_removed {w w' : World} {l : Loc} {k : Str} {r : Except Exc Unit} (h : s.Tame w)
    (hrem : Removed l k w r w') : s.Tame w' := by
  refine ⟨fun d hd hm p hp hs => h.ids d hd hm p hp ?_, fun q name hq ho => h.marks q name hq ?_⟩
  · rwa [← hrem.get_of_isSome hs]
  · rw [World.owner_eq_some] at ho ⊢
    rwa [← hrem.get_of_isSome (by rw [ho]; rfl)]

/-- the job puts a file that, where it is called like a manifest, is called by an id of the engine -/
theorem Side.Tame.of_put (h : s.Apart) {w w' : World} {d : Dest} (hd : d ∈ places s.job) {x : Str}
    {c : Content} {r : Except Exc Unit} (ht : s.Tame w)
    (hw : Wrote (d.loc s.env) (d.pre ++ x) c w r w')
    (hman : ∀ p, free '/' p → x = p ++ manifestSuffix → Engine p)
    (hpend : d = .local → ∀ q, x ≠ q ++ pendingSuffix) : s.Tame w' := by
  refine ⟨fun d₂ hd₂ hm p hp hs => ?_, fun q name hq ho => ?_⟩
  · by_cases he : (d₂.loc s.env, d₂.pre ++ (p ++ manifestSuffix)) = (d.loc s.env, d.pre ++ x)
    · obtain ⟨hloc, hk⟩ := Prod.mk.inj he
      obtain ⟨d₃, hd₃, hloc₃, hpre₃⟩ := hm
      have hcomp : d.pre <+: d₃.pre ∨ d₃.pre <+: d.pre := by
        rw [hpre₃]
        exact List.prefix_or_prefix_of_prefix ⟨x, hk.symm⟩ (List.prefix_append _ _)
      obtain ⟨hpre, -⟩ := h.meet hd hd₃ (hloc.symm.trans hloc₃.symm) hcomp
      rw [hpre, hpre₃] at hk
      exact hman p hp (List.append_cancel_left hk).symm
    · rw [hw.other _ _ he] at hs
      exact ht.ids d₂ hd₂ hm p hp hs
  · rw [World.owner_eq_some] at ho
    refine ht.marks q name hq (World.owner_eq_some.mpr ?_)
    rw [← hw.other _ _ fun he => ?_]
    · exact ho
    · obtain ⟨hl, hk⟩ := Prod.mk.inj he
      cases d with
      | «local» => exact hpend rfl q hk.symm
      | s3 c => simp [Dest.loc] at hl

/-- the job marks an id that names it -/
theorem Side.Tame.of_mark (h : s.Apart) {w w' : World} {sid : Str} (hsid : s.Scoped sid)
    {r : Except Exc Unit} (ht : s.Tame w)
    (hw : Wrote .data (sid ++ pendingSuffix) (.marker s.job.name) w r w') : s.Tame w' := by
  refine ⟨fun d hd hm p hp hs => ht.ids d hd hm p hp ?_, fun q name hq ho => ?_⟩
  · rwa [hw.other _ _ fun he => ?_] at hs
    obtain ⟨hl, hk⟩ := Prod.mk.inj he
    cases d with
    | «local» => exact manifest_not_pending _ _ hk
    | s3 c => simp [Dest.loc] at hl
  · have hold : w.get .data (q ++ pendingSuffix) = some (.marker name) → Engine q ∧
        ∃ slug, (parseSnapshotId q).2 = some slug ∧ (name = s.job.name → slug = jobSlug s.job.name) ∧
          (name = s.other.name → slug = jobSlug s.other.name) :=
      fun hg => ht.marks q name hq (World.owner_eq_some.mpr hg)
    rw [World.owner_eq_some] at ho
    by_cases he : q ++ pendingSuffix = sid ++ pendingSuffix
    · rw [he] at ho hold
      rcases hw.here with hh | hh | ⟨b, hh⟩
      · exact hold (hh.symm.trans ho)
      · obtain rfl := List.append_cancel_right he
        obtain rfl := Content.marker.inj (Option.some.inj (hh.symm.trans ho))
        exact ⟨hsid.1, _, hsid.2, fun _ => rfl, fun hn => absurd (congrArg jobSlug hn) h.slugs⟩
      · rw [hh] at ho
        simp at ho
    · refine hold ?_
      rw [← hw.other _ _ fun e => he (Prod.mk.inj e).2]
      exact ho

/-- both jobs ask the same of the stores -/
theorem Side.Tame.swap {w : World} (h : s.Tame w) : s.swap.Tame w := by
  refine ⟨fun d hd hm p hp hs => ?_, fun q name hq ho => ?_⟩
  · obtain ⟨d', hd', hloc, hpre⟩ := hm
    refine h.ids d' hd' ⟨d, hd, hloc.symm, hpre.symm⟩ p hp ?_
    rw [hpre]
    rwa [← hloc] at hs
  · obtain ⟨he, slug, hslug, h1, h2⟩ := h.marks q name hq ho
    exact ⟨he, slug, hslug, h2, h1⟩

/-- a marker that names the job is on an id that names it -/
theorem Side.Tame.scoped {w : World} (h : s.Tame w) {q : Str} (hq : free '/' q)
    (ho : w.owner (q ++ pendingSuffix) = some s.job.name) : s.Scoped q := by
  obtain ⟨he, slug, hslug, hown, -⟩ := h.marks q _ hq ho
  exact ⟨he, hslug.trans (by rw [hown rfl])⟩

/-- what one job does the other does not see -/
theorem Side.Moves.unseen (h : s.Apart) {w w' : World} (hm : s.Moves w w') :
    Prog.Unseen s.swap.Tame s.swap.Same w w' := by
  intro ht
  obtain ⟨ht', hkeep⟩ := hm ht.swap
  refine ⟨ht'.swap, fun l k hz => (hkeep l k fun hz' => ?_).symm⟩
  exact zone_disjoint h hz' hz

end
end BackupHelper
