import BackupHelper.Runner
import BackupHelper.Destinations.Rules
import BackupHelper.Retention.Select

/-!
# What each step of a run does to the stores

One rule for each step of the runner, in terms of what a caller has to keep.

* `wp_upload`           an invariant over the destinations that have stored so far;
* `wp_pendingIds`, `wp_findArtifact`   what is read in the data dir;
* `wp_applyRetention`   an invariant that the deletions of the selected ids keep, and what a pass
                        that completes has deleted.
-/

set_option linter.unusedSectionVars false

namespace BackupHelper
open Text Glob Effects Calendar

section
variable {env : Env} {G : World → World → Prop}

/-! ## upload -/

/-- the put of the sidecar follows a put of the archive that returned -/
theorem wp_uploadTo {d : Dest} {artifact : Artifact} {sidecar : Src} {sid : Str}
    {Q : Except Exc Unit → World → Prop} {w : World}
    (h : ∀ c r w₁, Read artifact.src c w r w₁ →
      Wrote (d.loc env) (d.pre ++ artifact.name) c w r w₁ →
      w₁.log = w.log ++ [(.put d artifact.name artifact.src, isOk r)] →
      G w w₁ ∧ (∀ e, r = .error e → Q r w₁) ∧ (r = .ok () → ∀ c' r' w₂, Read sidecar c' w₁ r' w₂ →
        Wrote (d.loc env) (d.pre ++ (sid ++ manifestSuffix)) c' w₁ r' w₂ →
        w₂.log = w₁.log ++ [(.put d (sid ++ manifestSuffix) sidecar, isOk r')] →
        G w₁ w₂ ∧ Q r' w₂)) :
    (uploadTo d artifact sidecar sid).wp env.step G Q w := by
  have hfirst : (put d artifact.name artifact.src).wp env.step G (fun r w₁ =>
      (∀ e, r = .error e → Q r w₁) ∧ (r = .ok () → ∀ c' r' w₂, Read sidecar c' w₁ r' w₂ →
        Wrote (d.loc env) (d.pre ++ (sid ++ manifestSuffix)) c' w₁ r' w₂ →
        w₂.log = w₁.log ++ [(.put d (sid ++ manifestSuffix) sidecar, isOk r')] →
        G w₁ w₂ ∧ Q r' w₂)) w := by
    apply wp_put
    intro c r w₁ hread hwrote hlog
    exact h c r w₁ hread hwrote hlog
  refine Prog.wp_seq hfirst fun r w₁ hr => ?_
  obtain ⟨herr, hok⟩ := hr
  cases r with
  | error e => exact herr e rfl
  | ok u =>
    apply wp_put
    intro c' r' w₂ hread hwrote hlog
    exact hok rfl c' r' w₂ hread hwrote hlog

/-- `I S w`: what holds at `w` when the destinations `S` have stored -/
theorem wp_upload {artifact : Artifact} {sidecar : Src} {sid : Str} {I : List Dest → World → Prop}
    {dests : List Dest}
    (hstep : ∀ before d after S w, dests = before ++ d :: after → S.Sublist before → I S w →
      (uploadTo d artifact sidecar sid).wp env.step G
        (fun r w' => I (if isOk r then S ++ [d] else S) w') w)
    {w : World} (hw : I [] w) :
    (upload artifact sidecar sid dests).wp env.step G
      (fun r w' => I r.1 w' ∧ r.1.Sublist dests ∧ r.1.length + r.2.length = dests.length) w := by
  have main : ∀ before rest S w, dests = before ++ rest → S.Sublist before → I S w →
      (upload artifact sidecar sid rest).wp env.step G
        (fun r w' => I (S ++ r.1) w' ∧ r.1.Sublist rest ∧ r.1.length + r.2.length = rest.length)
        w := by
    intro before rest
    induction rest generalizing before with
    | nil =>
      intro S w _ _ hI
      exact ⟨by simpa using hI, List.Sublist.refl _, rfl⟩
    | cons d rest ih =>
      intro S w hd hS hI
      refine Prog.wp_seq (hstep before d rest S w hd hS hI) fun r w₁ hI₁ => ?_
      have hd' : dests = (before ++ [d]) ++ rest := by rw [hd]; simp
      cases r with
      | ok u =>
        refine Prog.wp_seq (ih (before ++ [d]) (S ++ [d]) w₁ hd'
          (hS.append (List.Sublist.refl [d])) hI₁) fun r w₂ hr => ?_
        obtain ⟨h1, h2, h3⟩ := hr
        refine ⟨by simpa using h1, h2.cons_cons d, ?_⟩
        simp only [List.length_cons]
        omega
      | error e =>
        refine Prog.wp_seq (ih (before ++ [d]) S w₁ hd'
          (hS.trans (List.sublist_append_left before [d])) hI₁) fun r w₂ hr => ?_
        obtain ⟨h1, h2, h3⟩ := hr
        refine ⟨h1, h2.cons d, ?_⟩
        simp only [List.length_cons]
        omega
  exact main [] dests [] w rfl (List.Sublist.refl _) hw

def DestinationSpec.dest? : DestinationSpec → Option Dest
  | .local => some .local
  | .s3 c => if c.bucket = [] then none else some (.s3 c)

/-- the configured destinations, in the order of their specs -/
def specDests (specs : List DestinationSpec) : List Dest := specs.filterMap DestinationSpec.dest?

theorem wp_buildDestinations (hG : ∀ w w', Quiet w w' → G w w') (specs : List DestinationSpec)
    (w : World) : (buildDestinations env specs).wp env.step G
      (fun r w' => Quiet w w' ∧ r.1.Sublist (specDests specs) ∧
        r.1.length + r.2.length = (specDests specs).length ∧
        (.local ∈ specDests specs → .local ∈ r.1)) w := by
  induction specs generalizing w with
  | nil => exact ⟨Quiet.refl w, List.Sublist.refl _, rfl, id⟩
  | cons spec specs ih =>
    cases spec with
    | «local» =>
      refine Prog.wp_seq (ih w) fun r w₁ hr => ?_
      obtain ⟨h1, h2, h3, h4⟩ := hr
      refine ⟨h1, h2.cons_cons Dest.local, ?_, fun _ => List.mem_cons_self⟩
      show (Dest.local :: r.1).length + r.2.length = (Dest.local :: specDests specs).length
      simp only [List.length_cons]
      omega
    | s3 c =>
      by_cases hb : c.bucket = []
      · have hs : specDests (.s3 c :: specs) = specDests specs := by simp [specDests, DestinationSpec.dest?, hb]
        rw [hs]
        unfold buildDestinations
        rw [if_pos hb]
        exact ih w
      · have hs : specDests (.s3 c :: specs) = .s3 c :: specDests specs := by
          simp [specDests, DestinationSpec.dest?, hb]
        rw [hs]
        unfold buildDestinations
        rw [if_neg hb]
        have hbuild : (build c).wp env.step G (fun _ w' => Quiet w w') w :=
          wp_report (hG w) trivial fun _ _ h => h
        refine Prog.wp_seq hbuild fun r w₁ h₁ => ?_
        refine Prog.wp_seq (ih w₁) fun r' w₂ hr => ?_
        obtain ⟨h1, h2, h3, h4⟩ := hr
        have hmem : Dest.local ∈ Dest.s3 c :: specDests specs → Dest.local ∈ r'.1 := by
          intro h
          rcases List.mem_cons.mp h with h | h
          · cases h
          · exact h4 h
        cases r with
        | ok u =>
          refine ⟨h₁.trans h1, h2.cons_cons _, ?_, fun h => List.mem_cons_of_mem _ (hmem h)⟩
          show (Dest.s3 c :: r'.1).length + r'.2.length = _
          simp only [List.length_cons]
          omega
        | error e =>
          refine ⟨h₁.trans h1, h2.cons _, ?_, hmem⟩
          show r'.1.length + (_ :: r'.2).length = _
          simp only [List.length_cons]
          omega

/-- the lists of destinations that a run may upload to -/
def Target (job : Job) (dests : List Dest) : Prop :=
  dests.Sublist (specDests job.destinations) ∨ dests = [.local]

/-- how the destinations of a delivery relate to the job's -/
structure Delivered (job : Job) (d : Delivery) : Prop where
  target : Target job d.destinations
  stored : ∀ x ∈ d.stored, x ∈ d.destinations ∨ x = .local
  /-- the data dir stands in for off-site destinations only -/
  fallback : d.fallback = none ∨
    (d.fallback = some .local ∧ .local ∉ d.destinations ∧ job.offsite ≠ [])

theorem offsite_eq (job : Job) :
    job.offsite.map Dest.s3 = (specDests job.destinations).filter (fun d => !d.isLocal) := by
  unfold Job.offsite specDests
  induction job.destinations with
  | nil => rfl
  | cons s specs ih =>
    cases s with
    | «local» =>
      have h1 : DestinationSpec.offsite? .local = none := rfl
      have h2 : DestinationSpec.dest? .local = some .local := rfl
      rw [List.filterMap_cons_none h1, List.filterMap_cons_some h2, ih]
      rfl
    | s3 c =>
      by_cases hb : c.bucket = []
      · have h1 : DestinationSpec.offsite? (.s3 c) = none := if_pos hb
        have h2 : DestinationSpec.dest? (.s3 c) = none := if_pos hb
        rw [List.filterMap_cons_none h1, List.filterMap_cons_none h2, ih]
      · have h1 : DestinationSpec.offsite? (.s3 c) = some c := if_neg hb
        have h2 : DestinationSpec.dest? (.s3 c) = some (.s3 c) := if_neg hb
        rw [List.filterMap_cons_some h1, List.filterMap_cons_some h2, List.map_cons, ih]
        rfl

theorem any_isLocal {dests : List Dest} : dests.any (·.isLocal) = true ↔ .local ∈ dests := by
  rw [List.any_eq_true]
  constructor
  · rintro ⟨d, hd, hl⟩
    cases d with
    | «local» => exact hd
    | s3 c => simp [Dest.isLocal] at hl
  · intro h
    exact ⟨.local, h, rfl⟩

/-- `I S w`: what holds at `w` when the destinations `S` have stored -/
theorem wp_deliver {job : Job} {artifact : Artifact} {sidecar : Src} {sid : Str}
    {I : List Dest → World → Prop} (hG : ∀ w w', Quiet w w' → G w w')
    (hI : ∀ w w', Quiet w w' → I [] w → I [] w')
    (hstep : ∀ dests, Target job dests → ∀ before d after S w, dests = before ++ d :: after →
      S.Sublist before → I S w → (uploadTo d artifact sidecar sid).wp env.step G
        (fun r w' => I (if isOk r then S ++ [d] else S) w') w)
    {w : World} (hw : I [] w) :
    (deliver env job artifact sidecar sid).wp env.step G
      (fun r w' => I r.1.stored w' ∧ Delivered job r.1) w := by
  refine Prog.wp_seq (wp_buildDestinations hG job.destinations w) fun r w₁ h => ?_
  obtain ⟨hq, hsub, hlen, hloc⟩ := h
  obtain ⟨built, failures⟩ := r
  let destinations := if built = [] ∧ failures = [] then [.local] else built
  have ht : Target job destinations := by
    by_cases hb : built = [] ∧ failures = []
    · exact Or.inr (if_pos hb)
    · exact Or.inl (by rw [show destinations = built from if_neg hb]; exact hsub)
  refine Prog.wp_seq (wp_upload (hstep destinations ht) (hI _ _ hq hw)) fun r w₂ h => ?_
  obtain ⟨stored, uploadErrors⟩ := r
  obtain ⟨hI₂, hst, -⟩ := h
  by_cases hf : stored = [] ∧ ¬ destinations.any (·.isLocal) = true
  · have hlocal : .local ∉ destinations := fun h => hf.2 (any_isLocal.mpr h)
    have hne : ¬ (built = [] ∧ failures = []) := fun hb => by
      rw [show destinations = [.local] from if_pos hb] at hlocal
      simp at hlocal
    have hdest : destinations = built := if_neg hne
    have hoff : job.offsite ≠ [] := by
      intro hnil
      have hfil := offsite_eq job
      rw [hnil, List.map_nil] at hfil
      have hall : ∀ d ∈ specDests job.destinations, d = .local := by
        intro d hd
        cases d with
        | «local» => rfl
        | s3 c =>
          have hmem : Dest.s3 c ∈ (specDests job.destinations).filter (fun d => !d.isLocal) :=
            List.mem_filter.mpr ⟨hd, rfl⟩
          rw [← hfil] at hmem
          simp at hmem
      cases hsd : specDests job.destinations with
      | nil =>
        rw [hsd] at hlen
        simp only [List.length_nil, Nat.add_eq_zero_iff, List.length_eq_zero_iff] at hlen
        exact hne hlen
      | cons d ds =>
        have hd : d ∈ specDests job.destinations := by rw [hsd]; exact List.mem_cons_self
        rw [hall d hd] at hd
        exact hlocal (hdest ▸ hloc hd)
    show Prog.wp env.step G _ (if stored = [] ∧ ¬ destinations.any (·.isLocal) = true then _ else _) w₂
    rw [if_pos hf]
    rw [hf.1] at hI₂
    refine Prog.wp_seq (wp_upload (hstep [.local] (Or.inr rfl)) hI₂) fun r w₃ h => ?_
    obtain ⟨hI₃, hst₃, -⟩ := h
    refine ⟨hI₃, ht, fun x hx => ?_, Or.inr ⟨rfl, hlocal, hoff⟩⟩
    exact Or.inr (List.mem_singleton.mp (hst₃.subset hx))
  · show Prog.wp env.step G _ (if stored = [] ∧ ¬ destinations.any (·.isLocal) = true then _ else _) w₂
    rw [if_neg hf]
    exact ⟨hI₂, ht, fun x hx => Or.inl (hst.subset hx), Or.inl rfl⟩

/-! ## pending markers and artifacts in the data dir -/

/-- snapshot id and the job its pending marker names -/
def World.pending (w : World) : List (Str × Str) :=
  (w.globbed ('*' :: pendingSuffix)).filterMap (fun marker =>
    (w.owner marker).map (fun job => (marker.take (marker.length - pendingSuffix.length), job)))

def World.pendingOf (w : World) (jobName : Str) : List Str :=
  (w.pending.filter (fun o => o.2 = jobName)).map (·.1)

theorem plain_pendingSuffix : plain pendingSuffix := by decide

theorem mem_pending {w : World} {q j : Str} :
    (q, j) ∈ w.pending ↔ free '/' q ∧ w.owner (q ++ pendingSuffix) = some j := by
  have hs : free '/' pendingSuffix := by decide
  unfold World.pending
  rw [List.mem_filterMap]
  constructor
  · rintro ⟨marker, hm, ho⟩
    obtain ⟨-, hfree, hmatch⟩ := World.mem_globbed.mp hm
    obtain ⟨t, rfl⟩ := (fnmatch_ends plain_pendingSuffix marker).mp hmatch
    obtain ⟨job, hj, he⟩ := Option.map_eq_some_iff.mp ho
    have ht : (t ++ pendingSuffix).take ((t ++ pendingSuffix).length - pendingSuffix.length) = t := by
      simp
    rw [ht] at he
    obtain ⟨rfl, rfl⟩ := Prod.mk.inj he
    exact ⟨(free_append.mp hfree).1, hj⟩
  · rintro ⟨hfree, ho⟩
    refine ⟨q ++ pendingSuffix, World.mem_globbed.mpr ⟨?_, free_append.mpr ⟨hfree, hs⟩, ?_⟩, ?_⟩
    · rw [World.owner_eq_some] at ho
      rw [ho]
      rfl
    · exact (fnmatch_ends plain_pendingSuffix _).mpr (List.suffix_append q _)
    · rw [ho]
      simp

theorem mem_pendingOf {w : World} {q j : Str} :
    q ∈ w.pendingOf j ↔ free '/' q ∧ w.owner (q ++ pendingSuffix) = some j := by
  unfold World.pendingOf
  rw [← mem_pending]
  constructor
  · intro h
    obtain ⟨⟨q', j'⟩, hm, rfl⟩ := List.mem_map.mp h
    obtain ⟨hmem, hj⟩ := List.mem_filter.mp hm
    rw [← of_decide_eq_true hj]
    exact hmem
  · intro h
    exact List.mem_map.mpr ⟨(q, j), List.mem_filter.mpr ⟨h, by simp⟩, rfl⟩

theorem lookup_pending (w : World) {q : Str} (h : free '/' q) :
    w.pending.lookup q = w.owner (q ++ pendingSuffix) := by
  have hfun : ∀ l : List (Str × Str), (∀ p ∈ l, w.owner (p.1 ++ pendingSuffix) = some p.2) →
      ∀ o, l.lookup q = some o → w.owner (q ++ pendingSuffix) = some o := by
    intro l
    induction l with
    | nil => intro _ o ho; simp at ho
    | cons p l ih =>
      intro hl o ho
      obtain ⟨p1, p2⟩ := p
      by_cases hq : q = p1
      · subst hq
        rw [List.lookup_cons_self] at ho
        have hp := hl (q, p2) List.mem_cons_self
        rw [hp, ho]
      · rw [List.lookup_cons, beq_false_of_ne hq] at ho
        exact ih (fun p hp => hl p (List.mem_cons_of_mem _ hp)) o ho
  have hall : ∀ p ∈ w.pending, w.owner (p.1 ++ pendingSuffix) = some p.2 :=
    fun p hp => (mem_pending.mp hp).2
  cases ho : w.owner (q ++ pendingSuffix) with
  | some j =>
    have hmem : (q, j) ∈ w.pending := mem_pending.mpr ⟨h, ho⟩
    cases hl : w.pending.lookup q with
    | none =>
      rw [List.lookup_eq_none_iff] at hl
      have := hl (q, j) hmem
      simp at this
    | some o =>
      have := hfun _ hall o hl
      rw [ho] at this
      exact this.symm
  | none =>
    cases hl : w.pending.lookup q with
    | none => rfl
    | some o =>
      have := hfun _ hall o hl
      rw [ho] at this
      exact this.symm

variable (hG : ∀ w w', Quiet w w' → G w w')
include hG

theorem wp_readOwners (markers : List Str) {w w₀ : World} (hw : Quiet w₀ w) :
    (readOwners markers).wp env.step G (fun r w' => Quiet w₀ w' ∧
      r = markers.filterMap (fun marker => (w₀.owner marker).map
        (fun job => (marker.take (marker.length - pendingSuffix.length), job)))) w := by
  induction markers generalizing w with
  | nil => exact ⟨hw, rfl⟩
  | cons marker markers ih =>
    have hread : (readMarker marker).wp env.step G
        (fun r w' => Quiet w₀ w' ∧ r = w₀.owner marker) w := by
      intro f
      have hq : Quiet w (w.note (.readMarker marker, true)) := Quiet.note _ trivial
      refine ⟨hG _ _ hq, hw.trans hq, ?_⟩
      show w.owner marker = _
      unfold World.owner
      rw [hw.get]
    refine Prog.wp_seq hread fun owner w₁ h => ?_
    obtain ⟨h₁, rfl⟩ := h
    refine Prog.wp_seq (ih h₁) fun owners w₂ h => ?_
    obtain ⟨h₂, rfl⟩ := h
    cases ho : w₀.owner marker with
    | some job => exact ⟨h₂, by simp [ho]⟩
    | none => exact ⟨h₂, by simp [ho]⟩

theorem wp_pendingOwners (w : World) :
    pendingOwners.wp env.step G (fun r w' => Quiet w w' ∧ r = w.pending) w := by
  have hglob : (glob ('*' :: pendingSuffix)).wp env.step G
      (fun r w' => Quiet w w' ∧ r = w.globbed ('*' :: pendingSuffix)) w :=
    wp_glob (hG w) fun w' h => ⟨h, rfl⟩
  refine Prog.wp_seq hglob fun markers w₁ h => ?_
  obtain ⟨h₁, rfl⟩ := h
  exact wp_readOwners hG _ h₁

theorem wp_pendingIds (jobName : Str) (w : World) :
    (pendingIds jobName).wp env.step G (fun r w' => Quiet w w' ∧ r = w.pendingOf jobName) w := by
  refine Prog.wp_seq (wp_pendingOwners hG w) fun owners w₁ h => ?_
  obtain ⟨h₁, rfl⟩ := h
  exact ⟨h₁, rfl⟩

omit hG

/-- the artifact that `findArtifact` finds -/
def World.artifactOf (w : World) (sid : Str) : Option Str :=
  (w.globbed (sid ++ tarSuffix ++ ['*'])).head?

theorem wp_findArtifact (hG : ∀ w w', Quiet w w' → G w w') (sid : Str) (w : World) :
    (findArtifact sid).wp env.step G (fun r w' => Quiet w w' ∧ r = w.artifactOf sid) w := by
  have hglob : (glob (sid ++ tarSuffix ++ ['*'])).wp env.step G
      (fun r w' => Quiet w w' ∧ r = w.globbed (sid ++ tarSuffix ++ ['*'])) w :=
    wp_glob (hG w) fun w' h => ⟨h, rfl⟩
  refine Prog.wp_seq hglob fun found w₁ h => ?_
  obtain ⟨h₁, rfl⟩ := h
  exact ⟨h₁, rfl⟩

theorem plain_tar {sid : Str} (h : plain sid) : plain (sid ++ tarSuffix) :=
  plain_append h (by decide)

theorem artifactOf_some {w : World} {sid a : Str} (hp : plain sid) (h : w.artifactOf sid = some a) :
    sid ++ tarSuffix <+: a ∧ free '/' a ∧ (w.get .data a).isSome := by
  have hmem : a ∈ w.globbed (sid ++ tarSuffix ++ ['*']) := List.mem_of_mem_head? h
  obtain ⟨h1, h2, h3⟩ := World.mem_globbed.mp hmem
  exact ⟨(fnmatch_begins (plain_tar hp) a).mp h3, h2, h1⟩

/-! ## retention -/

/-- the keys of `dest` among the names of its place -/
def Dest.at (dest : Dest) (env : Env) (w : World) (key : Str) : Option Content :=
  w.get (dest.loc env) (dest.pre ++ key)

theorem Removed.at_mono {dest : Dest} {key : Str} {w w' : World} {r : Except Exc Unit}
    (h : Removed (dest.loc env) (dest.pre ++ key) w r w') {k : Str} (hk : dest.at env w k = none) :
    dest.at env w' k = none := by
  by_cases he : k = key
  · subst he
    rcases h.here with h | h
    · exact h.trans hk
    · exact h
  · refine (h.other _ _ fun e => he ?_).trans hk
    exact List.append_cancel_left (Prod.mk.inj e).2

/-- deleting sorted keys in order: when a key is deleted, all smaller ones are gone -/
theorem wp_deleteKeys {dest : Dest} {ks : List Str} (hs : ks.Pairwise (· ≤ ·)) {I : World → Prop}
    (hdel : ∀ key ∈ ks, ∀ w r w', I w → (∀ k ∈ ks, k < key → dest.at env w k = none) →
      Removed (dest.loc env) (dest.pre ++ key) w r w' →
      w'.log = w.log ++ [(.delete dest key, isOk r)] → G w w' ∧ I w')
    {w : World} (hw : I w) :
    (deleteKeys dest ks).wp env.step G
      (fun r w' => I w' ∧ (r = .ok () → ∀ k ∈ ks, dest.at env w' k = none)) w := by
  have main : ∀ gone rest w, ks = gone ++ rest → (∀ k ∈ gone, dest.at env w k = none) → I w →
      (deleteKeys dest rest).wp env.step G
        (fun r w' => I w' ∧ (r = .ok () → ∀ k ∈ ks, dest.at env w' k = none)) w := by
    intro gone rest
    induction rest generalizing gone with
    | nil =>
      intro w hk hgone hI
      rw [List.append_nil] at hk
      subst hk
      exact ⟨hI, fun _ => hgone⟩
    | cons key rest ih =>
      intro w hk hgone hI
      have hsmall : ∀ k ∈ ks, k < key → dest.at env w k = none := by
        intro k hmem hlt
        rw [hk] at hmem
        rcases List.mem_append.mp hmem with h | h
        · exact hgone k h
        · rw [hk] at hs
          have hrest := (List.pairwise_append.mp hs).2.1
          rcases List.mem_cons.mp h with rfl | h
          · exact absurd hlt (lt_irrefl _)
          · have hle := (List.pairwise_cons.mp hrest).1 k h
            exact absurd hlt (not_lt_of_ge hle)
      have hmem : key ∈ ks := by rw [hk]; simp
      have hone : (delete dest key).wp env.step G (fun r w' => I w' ∧
          (∀ k ∈ gone, dest.at env w' k = none) ∧ (r = .ok () → dest.at env w' key = none)) w := by
        apply wp_delete
        intro r w' hrem hlog
        obtain ⟨hg, hI'⟩ := hdel key hmem w r w' hI hsmall hrem hlog
        exact ⟨hg, hI', fun k hk => hrem.at_mono (hgone k hk), fun hr => hrem.done hr⟩
      refine Prog.wp_seq hone fun r w₁ h => ?_
      obtain ⟨hI₁, hgone₁, hkey⟩ := h
      cases r with
      | error e => exact ⟨hI₁, fun h => by simp at h⟩
      | ok u =>
        refine ih (gone ++ [key]) w₁ (by rw [hk]; simp) ?_ hI₁
        intro k hk
        rcases List.mem_append.mp hk with h | h
        · exact hgone₁ k h
        · rw [List.mem_singleton.mp h]
          exact hkey rfl
  exact main [] ks w rfl (by simp) hw

theorem wp_pruneIds {dest : Dest} {ids : List Str} {I : World → Prop}
    (hG : ∀ w w', Quiet w w' → G w w') (hI : ∀ w w', Quiet w w' → I w → I w')
    (hdel : ∀ p ∈ ids, ∀ key, p ++ ['.'] <+: key → ∀ w r w', I w →
      (∀ k, p ++ ['.'] <+: k → k < key → dest.at env w k = none) →
      Removed (dest.loc env) (dest.pre ++ key) w r w' →
      w'.log = w.log ++ [(.delete dest key, isOk r)] → G w w' ∧ I w')
    {w : World} (hw : I w) :
    (pruneIds dest ids).wp env.step G (fun r w' => I w' ∧
      (r = .ok () → ∀ p ∈ ids, ∀ k, p ++ ['.'] <+: k → dest.at env w' k = none)) w := by
  have main : ∀ gone rest w, ids = gone ++ rest →
      (∀ p ∈ gone, ∀ k, p ++ ['.'] <+: k → dest.at env w k = none) → I w →
      (pruneIds dest rest).wp env.step G (fun r w' => I w' ∧
        (r = .ok () → ∀ p ∈ ids, ∀ k, p ++ ['.'] <+: k → dest.at env w' k = none)) w := by
    intro gone rest
    induction rest generalizing gone with
    | nil =>
      intro w hk hgone hI
      rw [List.append_nil] at hk
      subst hk
      exact ⟨hI, fun _ => hgone⟩
    | cons p rest ih =>
      intro w hk hgone hIw
      have hmem : p ∈ ids := by rw [hk]; simp
      have hlist : (listKeys dest (p ++ ['.'])).wp env.step G
          (fun r w' => Quiet w w' ∧ ∀ keys, r = .ok keys → keys = w.listing env dest (p ++ ['.'])) w :=
        wp_listKeys (hG w) (fun e w' h => ⟨h, fun keys hk => by simp at hk⟩)
          (fun w' h => ⟨h, fun keys hk => (Except.ok.inj hk).symm⟩)
      refine Prog.wp_seq hlist fun r w₁ h => ?_
      obtain ⟨hq, hkeys⟩ := h
      cases r with
      | error e => exact ⟨hI _ _ hq hIw, fun h => by simp at h⟩
      | ok keys =>
        obtain rfl := hkeys keys rfl
        -- what is not listed is not there, and deletions bring nothing back
        let J : World → Prop := fun w' => I w' ∧
          (∀ q ∈ gone, ∀ k, q ++ ['.'] <+: k → dest.at env w' k = none) ∧
          ∀ k, p ++ ['.'] <+: k → k ∉ w.listing env dest (p ++ ['.']) → dest.at env w' k = none
        have hJ : J w₁ := by
          refine ⟨hI _ _ hq hIw, fun q hq' k hk => (hq.get _ _).trans (hgone q hq' k hk), ?_⟩
          intro k hk hnot
          have hnone : dest.at env w k = none := by
            by_contra hne
            exact hnot (World.mem_listing.mpr ⟨hk, Option.ne_none_iff_isSome.mp hne⟩)
          exact (hq.get _ _).trans hnone
        have hsorted : (w.listing env dest (p ++ ['.'])).Pairwise (· ≤ ·) := sorted_pairwise _
        have hdels := wp_deleteKeys (I := J) hsorted (fun key hkey w₂ r w₃ hJ₂ hsmall hrem hlog => by
            obtain ⟨hI₂, hgone₂, hrest₂⟩ := hJ₂
            have hpk : p ++ ['.'] <+: key := (World.mem_listing.mp hkey).1
            have hsmall' : ∀ k, p ++ ['.'] <+: k → k < key → dest.at env w₂ k = none := by
              intro k hk hlt
              by_cases hl : k ∈ w.listing env dest (p ++ ['.'])
              · exact hsmall k hl hlt
              · exact hrest₂ k hk hl
            obtain ⟨hg, hI₃⟩ := hdel p hmem key hpk w₂ r w₃ hI₂ hsmall' hrem hlog
            exact ⟨hg, hI₃, fun q hq' k hk => hrem.at_mono (hgone₂ q hq' k hk),
              fun k hk hl => hrem.at_mono (hrest₂ k hk hl)⟩) hJ
        refine Prog.wp_seq hdels fun r w₂ h => ?_
        obtain ⟨⟨hI₂, hgone₂, hrest₂⟩, hdone⟩ := h
        cases r with
        | error e => exact ⟨hI₂, fun h => by simp at h⟩
        | ok u =>
          refine ih (gone ++ [p]) w₂ (by rw [hk]; simp) ?_ hI₂
          intro q hq' k hk
          rcases List.mem_append.mp hq' with h | h
          · exact hgone₂ q h k hk
          · rw [List.mem_singleton.mp h] at hk
            by_cases hl : k ∈ w.listing env dest (p ++ ['.'])
            · exact hdone rfl k hl
            · exact hrest₂ k hk hl
  exact main [] ids w rfl (by simp) hw

/-- the markers that a pass over `dest` reads -/
def World.markedAt (w : World) (dest : Dest) : List (Str × Str) :=
  if place dest = localPlace then w.pending else []

/-- the ids that a pass over `dest` sees -/
def World.ids (w : World) (env : Env) (dest : Dest) : List Str :=
  snapshotIds (w.listing env dest [])

/-- the job's own among them, or those in `only` -/
def World.mine (w : World) (env : Env) (dest : Dest) (scope : SnapshotScope)
    (only : Option (List Str)) : List Str :=
  scope.mine only (place dest) (w.markedAt dest) (w.ids env dest)

/-- what a pass over `dest` selects -/
def World.prunable (w : World) (env : Env) (dest : Dest) (cfg : RetentionConfig) (now : Datetime)
    (scope : SnapshotScope) (only : Option (List Str)) : Except Exc (List Str) :=
  selectPrunable (snapshotsAt now (w.mine env dest scope only)) cfg now

/-- when the ids of a run at `now` were taken -/
def takenAt (now : Datetime) (sid : Str) : Datetime := parseSnapshotTimestamp sid now

theorem mem_ids {w : World} {dest : Dest} {s : Str} :
    s ∈ w.ids env dest ↔ free '/' s ∧ (dest.at env w (s ++ manifestSuffix)).isSome := by
  have hm : free '/' manifestSuffix := by decide
  unfold World.ids snapshotIds Dest.at
  rw [mem_sorted, List.mem_dedup, List.mem_filterMap]
  constructor
  · rintro ⟨k, hk, hs⟩
    split at hs
    · simp at hs
    · rename_i hfree
      obtain rfl := stem_eq_some.mp hs
      exact ⟨(free_append.mp hfree).1, (World.mem_listing.mp hk).2⟩
  · rintro ⟨hfree, hs⟩
    refine ⟨s ++ manifestSuffix, World.mem_listing.mpr ⟨List.nil_prefix, hs⟩, ?_⟩
    have hnot : '/' ∉ s ++ manifestSuffix := free_append.mpr ⟨hfree, hm⟩
    rw [if_neg hnot]
    exact stem_append _ _

theorem ids_nodup (w : World) (dest : Dest) : (w.ids env dest).Nodup :=
  (List.perm_insertionSort _ _).nodup_iff.mpr (List.nodup_dedup _)

theorem mine_nodup (w : World) (dest : Dest) (scope : SnapshotScope) (only : Option (List Str)) :
    (w.mine env dest scope only).Nodup := (ids_nodup w dest).filter _

/-- **What a pass selects**: the ids it looks at that the policy does not keep. -/
theorem mem_prunable {w : World} {dest : Dest} {cfg : RetentionConfig} {now : Datetime}
    {scope : SnapshotScope} {only : Option (List Str)} {out : List Str}
    (h : w.prunable env dest cfg now scope only = .ok out) (p : Str) :
    p ∈ out ↔ p ∈ w.mine env dest scope only ∧
      ¬ Keep.Kept (policyOf (takenAt now) cfg) (Old (takenAt now) cfg now)
        (Keep.ofList (w.mine env dest scope only)) p :=
  mem_selectPrunable (takenAt now) (mine_nodup w dest scope only) h p

theorem prunable_subset {w : World} {dest : Dest} {cfg : RetentionConfig} {now : Datetime}
    {scope : SnapshotScope} {only : Option (List Str)} {out : List Str}
    (h : w.prunable env dest cfg now scope only = .ok out) {p : Str} (hp : p ∈ out) :
    p ∈ w.ids env dest :=
  (List.mem_filter.mp ((mem_prunable h p).mp hp).1).1

theorem place_s3 (c : S3Spec) : place (.s3 c) ≠ localPlace := by
  intro h
  have : (place (.s3 c)).head? = localPlace.head? := by rw [h]
  simp [place, s3Place, localPlace] at this

theorem lookup_markedAt {w : World} {dest : Dest} {s : Str} (h : free '/' s) :
    (w.markedAt dest).lookup s = if dest = .local then w.owner (s ++ pendingSuffix) else none := by
  unfold World.markedAt
  cases dest with
  | «local» =>
    rw [if_pos rfl, if_pos (show place .local = localPlace from rfl)]
    exact lookup_pending w h
  | s3 c =>
    rw [if_neg (place_s3 c), if_neg (show Dest.s3 c ≠ .local by simp)]
    rfl

theorem mem_mine {w : World} {dest : Dest} {scope : SnapshotScope} {s : Str} :
    s ∈ w.mine env dest scope none ↔ (free '/' s ∧ (dest.at env w (s ++ manifestSuffix)).isSome) ∧
      scope.owns s (place dest) ((w.markedAt dest).lookup s) = true := by
  unfold World.mine SnapshotScope.mine
  rw [List.mem_filter, mem_ids]

theorem Quiet.pending {w w' : World} (h : Quiet w w') : w'.pending = w.pending := by
  unfold World.pending World.globbed World.owner
  simp only [h.get, h.same]

/-- what a pass does with what it selects -/
def pruneSelected (env : Env) (dest : Dest) : Except Exc (List Str) → M (Except Exc Unit)
  | .error e => pure (.error e)
  | .ok prunable => pruneIds dest (env.iter prunable)

/-- the reading before the deletions of a pass -/
theorem wp_retentionPass_of {dest : Dest} {cfg : RetentionConfig} {now : Datetime}
    {scope : SnapshotScope} {only : Option (List Str)} {Q : Except Exc Unit → World → Prop}
    (hG : ∀ w w', Quiet w w' → G w w') {w : World}
    (herror : ∀ e w', Quiet w w' → Q (.error e) w')
    (hprune : ∀ out w', w.prunable env dest cfg now scope only = .ok out → Quiet w w' →
      (pruneIds dest (env.iter out)).wp env.step G Q w') :
    (retentionPass env dest cfg now scope only).wp env.step G Q w := by
  have hmarked : (markedFor dest).wp env.step G
      (fun r w' => Quiet w w' ∧ r = w.markedAt dest) w := by
    unfold World.markedAt markedFor
    by_cases hp : place dest = localPlace
    · rw [if_pos hp, if_pos hp]
      exact wp_pendingOwners hG w
    · rw [if_neg hp, if_neg hp]
      exact ⟨Quiet.refl w, rfl⟩
  refine Prog.wp_seq hmarked fun marked w₁ h => ?_
  obtain ⟨hq, rfl⟩ := h
  have hlist : (listKeys dest []).wp env.step G (fun r w' => Quiet w w' ∧
      ∀ keys, r = .ok keys → keys = w.listing env dest []) w₁ := by
    refine wp_listKeys (hG w₁) (fun e w' h => ⟨hq.trans h, fun keys hk => by simp at hk⟩)
      (fun w' h => ⟨hq.trans h, fun keys hk => ?_⟩)
    rw [← Except.ok.inj hk]
    unfold World.listing
    rw [hq.same]
  refine Prog.wp_seq hlist fun r w₂ h => ?_
  obtain ⟨hq₂, hkeys⟩ := h
  cases r with
  | error e => exact herror e w₂ hq₂
  | ok keys =>
    obtain rfl := hkeys keys rfl
    show Prog.wp env.step G _ (pruneSelected env dest (w.prunable env dest cfg now scope only)) w₂
    cases hp : w.prunable env dest cfg now scope only with
    | error e => exact herror e w₂ hq₂
    | ok out => exact hprune out w₂ hp hq₂

theorem wp_retentionPass {dest : Dest} {cfg : RetentionConfig} {now : Datetime}
    {scope : SnapshotScope} {only : Option (List Str)} {I : World → Prop}
    (hG : ∀ w w', Quiet w w' → G w w') (hI : ∀ w w', Quiet w w' → I w → I w') {w : World}
    (hdel : ∀ out, w.prunable env dest cfg now scope only = .ok out → ∀ p ∈ out,
      ∀ key, p ++ ['.'] <+: key → ∀ w₁ r w₂, I w₁ →
      (∀ k, p ++ ['.'] <+: k → k < key → dest.at env w₁ k = none) →
      Removed (dest.loc env) (dest.pre ++ key) w₁ r w₂ →
      w₂.log = w₁.log ++ [(.delete dest key, isOk r)] → G w₁ w₂ ∧ I w₂)
    (hw : I w) :
    (retentionPass env dest cfg now scope only).wp env.step G (fun r w' => I w' ∧
      (r = .ok () → ∃ out, w.prunable env dest cfg now scope only = .ok out ∧
        ∀ p ∈ out, ∀ k, p ++ ['.'] <+: k → dest.at env w' k = none)) w := by
  refine wp_retentionPass_of hG (fun e w' hq => ⟨hI _ _ hq hw, fun h => by simp at h⟩)
    fun out w' hout hq => ?_
  have hperm := env.iter_perm out
  refine Prog.wp_post (wp_pruneIds hG hI (fun p hmem => hdel out hout p (hperm.mem_iff.mp hmem))
    (hI _ _ hq hw)) fun r w' h => ⟨h.1, fun hr => ⟨out, hout, fun p hmem => ?_⟩⟩
  exact h.2 hr p (hperm.mem_iff.mpr hmem)

/-- **One pass of retention**: it deletes only names `<p>.…` of ids `p` that it selects, smaller
names first, and a pass without an error has deleted all of them. -/
theorem wp_applyRetention {dest : Dest} {cfg : RetentionConfig} {now : Datetime}
    {scope : SnapshotScope} {only : Option (List Str)} {I : World → Prop}
    (hG : ∀ w w', Quiet w w' → G w w') (hI : ∀ w w', Quiet w w' → I w → I w') {w : World}
    (hdel : ∀ out, w.prunable env dest cfg now scope only = .ok out → ∀ p ∈ out,
      ∀ key, p ++ ['.'] <+: key → ∀ w₁ r w₂, I w₁ →
      (∀ k, p ++ ['.'] <+: k → k < key → dest.at env w₁ k = none) →
      Removed (dest.loc env) (dest.pre ++ key) w₁ r w₂ →
      w₂.log = w₁.log ++ [(.delete dest key, isOk r)] → G w₁ w₂ ∧ I w₂)
    (hw : I w) :
    (applyRetention env cfg now scope only dest).wp env.step G (fun errors w' => I w' ∧
      (errors = [] → ∃ out, w.prunable env dest cfg now scope only = .ok out ∧
        ∀ p ∈ out, ∀ k, p ++ ['.'] <+: k → dest.at env w' k = none)) w := by
  refine Prog.wp_seq (wp_retentionPass hG hI hdel hw) fun r w' h => ?_
  cases r with
  | ok u => exact ⟨h.1, fun _ => h.2 rfl⟩
  | error e => exact ⟨h.1, fun h => by simp at h⟩

end
end BackupHelper
