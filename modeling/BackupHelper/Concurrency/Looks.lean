import BackupHelper.Concurrency.Runs

/-!
# What a job reads while another one runs

Between two looks at the data dir the other job may add its files and take them away.  What a run does
with its looks depends on the files of its zone alone.

* `Side.ownMarkers`    the markers that name the job;
* `sim_pendingIds`     the pending ids of the job are the same as when it runs alone;
* `sim_markedFor`      the markers of ids that name no job: there are none;
* `fixed_findArtifact` the archive of a pending id;
* `sim_listKeys`       the ids that the job owns, and all keys below one of them.
-/

set_option linter.unusedSectionVars false

namespace BackupHelper
open Text Glob Effects Calendar

section
variable {s : Side} {plan : Prog.Plan Op Fault}

/-! ## markers -/

/-- the marker can be read, after the operations `h` -/
def Side.readable (s : Side) (plan : Prog.Plan Op Fault) (h : List Op) (name : Str) : Bool :=
  match if s.env.sure (.readMarker name) then Fault.calm else plan h (.readMarker name) with
  | .calm => true
  | .raise _ _ => false

/-- the markers that name the job and can be read -/
def Side.ownMarkers (s : Side) (plan : Prog.Plan Op Fault) (h : List Op) (w : World)
    (markers : List Str) : List Str :=
  markers.filter fun m => w.owner m = some s.job.name && s.readable plan h m

def pendingEntry (name m : Str) : Str × Str := (m.take (m.length - pendingSuffix.length), name)

theorem stepRead_marker (w : World) (h : List Op) (name : Str) :
    s.env.stepRead (.readMarker name) (plan h (.readMarker name)) w =
      ((if s.readable plan h name then w.owner name else none),
        w.note (.readMarker name, s.readable plan h name)) := by
  cases hsure : s.env.sure (.readMarker name) with
  | true =>
    simp only [Env.stepRead, Side.readable, hsure, if_true]
    rfl
  | false =>
    cases hplan : plan h (.readMarker name) with
    | calm =>
      simp only [Env.stepRead, Side.readable, hsure, hplan, Bool.false_eq_true, if_false, if_true]
      rfl
    | raise e r =>
      simp only [Env.stepRead, Side.readable, hsure, hplan, Bool.false_eq_true, if_false]
      rfl

theorem owner_congr {w w' : World} (h : s.Apart) (ht : s.Tame w) (ht' : s.Tame w') (hs : s.Same w w')
    {q : Str} (hq : free '/' q) : w.owner (q ++ pendingSuffix) = some s.job.name ↔
      w'.owner (q ++ pendingSuffix) = some s.job.name := by
  have hone : ∀ {w w' : World}, s.Tame w → s.Same w w' →
      w.owner (q ++ pendingSuffix) = some s.job.name →
        w'.owner (q ++ pendingSuffix) = some s.job.name := by
    intro w w' ht hs ho
    have hz := zone_data h (ht.scoped hq ho) (begins_pending q)
    rw [World.owner_eq_some] at ho ⊢
    rw [← hs _ _ hz]
    exact ho
  exact ⟨hone ht hs, hone ht' ((same_equivalence s).symm hs)⟩

/-- the name of a marker -/
def IsMarker (m : Str) : Prop := ∃ q, free '/' q ∧ m = q ++ pendingSuffix

theorem isMarker_of_globbed {w : World} {m : Str} (hm : m ∈ w.globbed ('*' :: pendingSuffix)) :
    IsMarker m := by
  obtain ⟨-, hfree, hmatch⟩ := World.mem_globbed.mp hm
  obtain ⟨q, rfl⟩ := (fnmatch_ends plain_pendingSuffix m).mp hmatch
  exact ⟨q, (free_append.mp hfree).1, rfl⟩

theorem ownMarkers_congr {w w' : World} (h : s.Apart) (ht : s.Tame w) (ht' : s.Tame w')
    (hs : s.Same w w') (hist : List Op) {markers : List Str} (hm : ∀ m ∈ markers, IsMarker m) :
    s.ownMarkers plan hist w markers = s.ownMarkers plan hist w' markers := by
  refine List.filter_congr fun m hmem => ?_
  obtain ⟨q, hq, rfl⟩ := hm m hmem
  rw [decide_eq_decide.mpr (owner_congr h ht ht' hs hq)]

/-- the job's markers in the data dir -/
theorem ownMarkers_globbed {w w' : World} (h : s.Apart) (ht : s.Tame w) (ht' : s.Tame w')
    (hs : s.Same w w') (hist : List Op) :
    s.ownMarkers plan hist w (w.globbed ('*' :: pendingSuffix)) =
      s.ownMarkers plan hist w' (w'.globbed ('*' :: pendingSuffix)) := by
  have hone : ∀ {w w' : World}, s.Tame w → s.Tame w' → s.Same w w' → ∀ m,
      m ∈ w.globbed ('*' :: pendingSuffix) → w.owner m = some s.job.name →
        m ∈ w'.globbed ('*' :: pendingSuffix) ∧ w'.owner m = some s.job.name := by
    intro w w' ht ht' hs m hm ho
    obtain ⟨q, hq, rfl⟩ := isMarker_of_globbed hm
    have ho' := (owner_congr h ht ht' hs hq).mp ho
    obtain ⟨-, hfree, hmatch⟩ := World.mem_globbed.mp hm
    refine ⟨World.mem_globbed.mpr ⟨?_, hfree, hmatch⟩, ho'⟩
    rw [World.owner_eq_some.mp ho']
    rfl
  have hnodup : ∀ w : World, ((w.files .data).keys.filter
      (fun k => '/' ∉ k ∧ fnmatch ('*' :: pendingSuffix) k)).Nodup :=
    fun w => (w.files .data).keys_nodup.filter _
  have hmem : ∀ w : World, ∀ m, m ∈ (w.files .data).keys.filter
      (fun k => '/' ∉ k ∧ fnmatch ('*' :: pendingSuffix) k) ↔ m ∈ w.globbed ('*' :: pendingSuffix) :=
    fun w m => mem_sorted.symm
  refine filter_sorted_ext (hnodup w) (hnodup w') fun m => ?_
  rw [hmem w, hmem w', Bool.and_eq_true, Bool.and_eq_true, decide_eq_true_eq, decide_eq_true_eq]
  constructor
  · rintro ⟨hm, ho, hread⟩
    obtain ⟨hm', ho'⟩ := hone ht ht' hs m hm ho
    exact ⟨hm', ho', hread⟩
  · rintro ⟨hm, ho, hread⟩
    obtain ⟨hm', ho'⟩ := hone ht' ht ((same_equivalence s).symm hs) m hm ho
    exact ⟨hm', ho', hread⟩

/-- what is read of the markers: all are on ids that name a job, and these are on those of the job -/
def Side.Owners (s : Side) (plan : Prog.Plan Op Fault) (markers : List Str) (h : List Op) (w : World)
    (owners : List (Str × Str)) : Prop :=
  (∀ e ∈ owners, (parseSnapshotId e.1).2 ≠ none) ∧
    owners.filter (fun e => e.2 = s.job.name) =
      (s.ownMarkers plan h w markers).map (pendingEntry s.job.name)

/-- nothing that shows -/
abbrev Side.Unseen (s : Side) : World → World → Prop := Prog.Unseen s.Tame s.Same

theorem unseen_refl (w : World) : s.Unseen w w := fun ht => ⟨ht, (same_equivalence s).refl w⟩

theorem moves_note (w : World) (e : Op × Bool) : s.Moves w (w.note e) :=
  fun ht => ⟨ht.of_files rfl, fun _ _ _ => rfl⟩

theorem amid_readOwners (h : s.Apart) {markers : List Str} (hm : ∀ m ∈ markers, IsMarker m)
    (hist : List Op) {w : World} (ht : s.Tame w) :
    (readOwners markers).amid s.env.stepRead Op.counts plan s.Unseen s.Moves
      (fun a h₁ w₁ => s.Owners plan markers hist w a ∧ h₁ = hist ∧ s.Tame w₁ ∧ s.Same w w₁) hist w := by
  induction markers generalizing w with
  | nil =>
    intro w₁ hr
    obtain ⟨ht₁, hs₁⟩ := hr ht
    exact ⟨⟨fun e he => absurd he List.not_mem_nil, rfl⟩, rfl, ht₁, hs₁⟩
  | cons m markers ih =>
    have hms : ∀ m ∈ markers, IsMarker m := fun m' hm' => hm m' (List.mem_cons_of_mem m hm')
    intro w₁ hr
    obtain ⟨ht₁, hs₁⟩ := hr ht
    rw [stepRead_marker]
    refine ⟨moves_note w₁ _, ?_⟩
    have ht₂ : s.Tame (w₁.note (.readMarker m, s.readable plan hist m)) := ht₁.of_files rfl
    refine Prog.amid_bind (p := readOwners markers) unseen_refl (Prog.amid_mono (ih hms ht₂) fun owners h₁ w₂ hw₂ => ?_)
    obtain ⟨⟨hslugs, hown⟩, rfl, ht₃, hs₃⟩ := hw₂
    have hs₂ : s.Same w w₂ := (same_equivalence s).trans hs₁ hs₃
    -- the markers that are left look the same at `w`
    have hrest : s.ownMarkers plan h₁ (w₁.note (.readMarker m, s.readable plan h₁ m)) markers =
        s.ownMarkers plan h₁ w markers :=
      ownMarkers_congr h ht₂ ht ((same_equivalence s).symm hs₁) h₁ hms
    rw [hrest] at hown
    obtain ⟨q, hq, rfl⟩ := hm _ List.mem_cons_self
    have howner := owner_congr h ht ht₁ hs₁ hq
    cases hread : s.readable plan h₁ (q ++ pendingSuffix) with
    | false =>
      intro w₃ hr₃
      obtain ⟨ht₄, hs₄⟩ := hr₃ ht₃
      refine ⟨⟨hslugs, ?_⟩, rfl, ht₄, (same_equivalence s).trans hs₂ hs₄⟩
      show owners.filter _ = _
      rw [hown]
      unfold Side.ownMarkers
      rw [List.filter_cons_of_neg (by rw [hread]; simp)]
    | true =>
      cases ho : w₁.owner (q ++ pendingSuffix) with
      | none =>
        intro w₃ hr₃
        obtain ⟨ht₄, hs₄⟩ := hr₃ ht₃
        have hnot : w.owner (q ++ pendingSuffix) ≠ some s.job.name := fun he => by
          rw [howner.mp he] at ho
          cases ho
        refine ⟨⟨hslugs, ?_⟩, rfl, ht₄, (same_equivalence s).trans hs₂ hs₄⟩
        show owners.filter _ = _
        rw [hown]
        unfold Side.ownMarkers
        rw [List.filter_cons_of_neg (by simp [hnot])]
      | some name =>
        intro w₃ hr₃
        obtain ⟨ht₄, hs₄⟩ := hr₃ ht₃
        obtain ⟨-, slug, hslug, -⟩ := ht₁.marks q name hq ho
        have hid : pendingEntry name (q ++ pendingSuffix) = (q, name) := by simp [pendingEntry]
        refine ⟨⟨fun e he => ?_, ?_⟩, rfl, ht₄, (same_equivalence s).trans hs₂ hs₄⟩
        · rcases List.mem_cons.mp (show e ∈ pendingEntry name (q ++ pendingSuffix) :: owners from he) with
            rfl | he
          · rw [hid, hslug]
            exact Option.some_ne_none slug
          · exact hslugs e he
        · show (pendingEntry name (q ++ pendingSuffix) :: owners).filter _ = _
          unfold Side.ownMarkers at hown ⊢
          by_cases hname : name = s.job.name
          · have hmine : w.owner (q ++ pendingSuffix) = some s.job.name := howner.mpr (by rw [ho, hname])
            rw [List.filter_cons_of_pos (by rw [hid]; simp [hname]), hown,
              List.filter_cons_of_pos (by simp [hmine, hread]), List.map_cons, hname]
          · have hnot : w.owner (q ++ pendingSuffix) ≠ some s.job.name := fun he => by
              rw [howner.mp he] at ho
              exact hname (Option.some.inj ho).symm
            rw [List.filter_cons_of_neg (by rw [hid]; simp [hname]), hown,
              List.filter_cons_of_neg (by simp [hnot])]

/-- the owners read by both runs: those of the job are the same, and no other is on a plain id -/
def OwnersAlike (s : Side) (a b : List (Str × Str)) : Prop :=
  a.filter (fun e => e.2 = s.job.name) = b.filter (fun e => e.2 = s.job.name) ∧
    (∀ e ∈ a.filter (fun e => e.2 = s.job.name), s.Scoped e.1) ∧
    (∀ e ∈ a, (parseSnapshotId e.1).2 ≠ none) ∧ ∀ e ∈ b, (parseSnapshotId e.1).2 ≠ none

theorem scoped_of_owners {markers : List Str} (hm : ∀ m ∈ markers, IsMarker m) {hist : List Op}
    {w : World} (ht : s.Tame w) {a : List (Str × Str)} (ha : s.Owners plan markers hist w a) :
    ∀ e ∈ a.filter (fun e => e.2 = s.job.name), s.Scoped e.1 := by
  intro e he
  rw [ha.2] at he
  obtain ⟨m, hmem, rfl⟩ := List.mem_map.mp he
  obtain ⟨hmark, hown⟩ := List.mem_filter.mp hmem
  obtain ⟨q, hq, rfl⟩ := hm m hmark
  rw [Bool.and_eq_true, decide_eq_true_eq] at hown
  have hid : pendingEntry s.job.name (q ++ pendingSuffix) = (q, s.job.name) := by simp [pendingEntry]
  rw [hid]
  exact ht.scoped hq hown.1

theorem sim_pendingOwners (h : s.Apart) : s.Sim plan (OwnersAlike s) pendingOwners pendingOwners := by
  refine Prog.Sim.of_looks (U := fun hist w a => s.Owners plan (w.globbed ('*' :: pendingSuffix)) hist w a)
    (same_equivalence s) (fun w hist ht => ?_) fun hist w w' a b ht ht' hs ha hb => ?_
  · intro w₁ hr
    obtain ⟨ht₁, hs₁⟩ := hr ht
    refine ⟨moves_note w₁ _, ?_⟩
    have ht₂ : s.Tame (w₁.note (.glob ('*' :: pendingSuffix), true)) := ht₁.of_files rfl
    refine Prog.amid_mono (amid_readOwners h (fun m hm => isMarker_of_globbed hm) hist ht₂)
      fun a h₁ w₂ hw₂ => ?_
    obtain ⟨⟨hslugs, hown⟩, rfl, ht₃, hs₃⟩ := hw₂
    refine ⟨⟨hslugs, ?_⟩, rfl, ht₃, (same_equivalence s).trans hs₁ hs₃⟩
    rw [hown, ownMarkers_globbed h ht ht₂ hs₁]
    rfl
  · refine ⟨?_, scoped_of_owners (fun m hm => isMarker_of_globbed hm) ht ha, ha.1, hb.1⟩
    rw [ha.2, hb.2, ownMarkers_globbed h ht ht' hs]

/-- the pending ids of the job -/
theorem fixed_pendingIds (h : s.Apart) :
    s.Fixed plan (fun ids => ∀ q ∈ ids, s.Scoped q) (pendingIds s.job.name) := by
  refine Prog.Sim.bind (same_equivalence s) (sim_pendingOwners h) fun a b hab => ?_
  obtain ⟨hsame, hscoped, -, -⟩ := hab
  refine Prog.Sim.ret (same_equivalence s) ⟨by rw [hsame], fun q hq => ?_⟩
  obtain ⟨e, he, rfl⟩ := List.mem_map.mp hq
  exact hscoped e he

/-- no marker is on an id that names no job -/
def Slugged (marked : List (Str × Str)) : Prop := ∀ e ∈ marked, (parseSnapshotId e.1).2 ≠ none

/-- the markers that are read for a destination do not tell of plain ids -/
theorem sim_markedFor (h : s.Apart) (d : Dest) :
    s.Sim plan (fun a b => Slugged a ∧ Slugged b) (markedFor d) (markedFor d) := by
  unfold markedFor
  by_cases hplace : place d = localPlace
  · rw [if_pos hplace]
    exact Prog.Sim.mono (sim_pendingOwners h) fun a b hab => hab.2.2
  · rw [if_neg hplace]
    exact Prog.Sim.ret (same_equivalence s)
      ⟨fun e he => absurd he List.not_mem_nil, fun e he => absurd he List.not_mem_nil⟩

/-- so whether the job owns an id does not depend on them -/
theorem owns_slugged (h : s.Apart) {marked : List (Str × Str)} (hm : Slugged marked) (p place : Str) :
    (scopeFor s.jobs s.job).owns p place (marked.lookup p) =
      (scopeFor s.jobs s.job).owns p place none := by
  rw [Bool.eq_iff_iff, owns_scopeFor h.several, owns_scopeFor h.several]
  cases hs : (parseSnapshotId p).2 with
  | some slug => rfl
  | none =>
    have hnone : marked.lookup p = none := by
      rw [List.lookup_eq_none_iff]
      intro e he
      have hne : p ≠ e.1 := fun hp => hm e he (hp ▸ hs)
      exact bne_iff_ne.mpr hne
    rw [hnone]

/-! ## artifacts -/

theorem plain_engine {q : Str} (h : Engine q) : plain (q ++ tarSuffix) :=
  plain_tar ⟨free_of_all_slug h.slug (by decide), free_of_all_slug h.slug (by decide),
    free_of_all_slug h.slug (by decide)⟩

/-- the files that the artifact of an own id may be -/
theorem globbed_artifacts {w w' : World} (h : s.Apart) (hs : s.Same w w') {q : Str} (hq : s.Scoped q) :
    w.globbed (q ++ tarSuffix ++ ['*']) = w'.globbed (q ++ tarSuffix ++ ['*']) := by
  have hplain : plain (q ++ tarSuffix) := plain_engine hq.1
  have hkeys : ∀ m, fnmatch (q ++ tarSuffix ++ ['*']) m = true → w.get .data m = w'.get .data m :=
    fun m hm => hs _ _ (zone_data h hq (begins_tar ((fnmatch_begins hplain m).mp hm)))
  refine sorted_ext ((w.files .data).keys_nodup.filter _) ((w'.files .data).keys_nodup.filter _)
    fun m => ?_
  rw [← mem_sorted, ← mem_sorted (l := (w'.files .data).keys.filter _)]
  show m ∈ w.globbed _ ↔ m ∈ w'.globbed _
  rw [World.mem_globbed, World.mem_globbed]
  constructor
  · rintro ⟨hsome, hfree, hm⟩
    exact ⟨hkeys m hm ▸ hsome, hfree, hm⟩
  · rintro ⟨hsome, hfree, hm⟩
    exact ⟨(hkeys m hm).symm ▸ hsome, hfree, hm⟩

/-- where it is called like a manifest, it is called by an id of the engine -/
def Vouched (m : Str) : Prop := ∀ p, free '/' p → m = p ++ manifestSuffix → Engine p

theorem fixed_findArtifact (h : s.Apart) {q : Str} (hq : s.Scoped q) :
    s.Fixed plan (fun r => ∀ m ∈ r, q ++ tarSuffix <+: m ∧ Vouched m) (findArtifact q) := by
  refine fixed_bind (P := fun found => ∀ m ∈ found, q ++ tarSuffix <+: m ∧ Vouched m) ?_ fun found hfound =>
    fixed_pure fun m hm => hfound m (List.mem_of_mem_head? hm)
  refine fixed_op (o := .glob (q ++ tarSuffix ++ ['*'])) fun f w w' ht ht' hs => ?_
  refine ⟨⟨(globbed_artifacts h hs hq).symm, fun m hm => ?_⟩, ht.of_files rfl, ht'.of_files rfl,
    fun l k hz => hs l k hz, moves_note w _⟩
  obtain ⟨hsome, -, hmatch⟩ := World.mem_globbed.mp hm
  refine ⟨(fnmatch_begins (plain_engine hq.1) m).mp hmatch, ?_⟩
  rintro p hp rfl
  exact ht.ids .local List.mem_cons_self (meets_local s) p hp hsome

/-! ## listings -/

/-- the ids of a listing that the job owns -/
def Side.ownIds (s : Side) (d : Dest) (keys : List Str) : List Str :=
  (snapshotIds keys).filter fun p => (scopeFor s.jobs s.job).owns p (place d) none

/-- all files of the id are in the zone -/
def Side.Safe (s : Side) (d : Dest) (p : Str) : Prop :=
  ∀ key, p ++ ['.'] <+: key → s.Zone (d.loc s.env) (d.pre ++ key)

theorem Side.Scoped.safe (h : s.Apart) {q : Str} (hq : s.Scoped q) {d : Dest} (hd : d ∈ places s.job) :
    s.Safe d q := fun _ hkey => zone_of_scoped h hq hd hkey

/-- an id that is there and that the job owns -/
theorem safe_of_owned {w : World} (ht : s.Tame w) {d : Dest} (hd : d ∈ places s.job) {p : Str}
    (hp : p ∈ w.ids s.env d) (hown : (scopeFor s.jobs s.job).owns p (place d) none = true) :
    s.Safe d p := by
  intro key hkey
  refine ⟨d, hd, rfl, List.prefix_append _ _, fun hmeets => ⟨p, ⟨?_, hown⟩, ?_⟩⟩
  · obtain ⟨hfree, hsome⟩ := mem_ids.mp hp
    exact ht.ids d hd hmeets p hfree hsome
  · exact (List.prefix_append_right_inj _).mpr hkey

/-- both runs see the job's own ids -/
theorem ownIds_congr {w w' : World} (ht : s.Tame w) (ht' : s.Tame w') (hs : s.Same w w') {d : Dest}
    (hd : d ∈ places s.job) :
    s.ownIds d (w.listing s.env d []) = s.ownIds d (w'.listing s.env d []) := by
  have hone : ∀ {w w' : World}, s.Tame w → s.Same w w' → ∀ p, p ∈ w.ids s.env d →
      (scopeFor s.jobs s.job).owns p (place d) none = true → p ∈ w'.ids s.env d := by
    intro w w' ht hs p hp hown
    obtain ⟨hfree, hsome⟩ := mem_ids.mp hp
    refine mem_ids.mpr ⟨hfree, ?_⟩
    show (w'.get (d.loc s.env) (d.pre ++ (p ++ manifestSuffix))).isSome
    rw [← hs _ _ (safe_of_owned ht hd hp hown _ (begins_manifest p))]
    exact hsome
  have hmem : ∀ w : World, ∀ p, p ∈ ((w.listing s.env d []).filterMap
      (fun k => if '/' ∈ k then none else stem manifestSuffix k)).dedup ↔ p ∈ w.ids s.env d :=
    fun w p => mem_sorted.symm
  refine filter_sorted_ext (List.nodup_dedup _) (List.nodup_dedup _) fun p => ?_
  rw [hmem w, hmem w']
  constructor
  · rintro ⟨hp, hown⟩
    exact ⟨hone ht hs p hp hown, hown⟩
  · rintro ⟨hp, hown⟩
    exact ⟨hone ht' ((same_equivalence s).symm hs) p hp hown, hown⟩

/-- what a listing of a whole destination is used for -/
def ListedAlike (s : Side) (d : Dest) (r r' : Except Exc (List Str)) : Prop :=
  (∃ e, r = .error e ∧ r' = .error e) ∨
    ∃ keys keys', r = .ok keys ∧ r' = .ok keys' ∧ s.ownIds d keys = s.ownIds d keys' ∧
      ∀ p ∈ s.ownIds d keys, s.Safe d p

theorem sim_listKeys {d : Dest} (hd : d ∈ places s.job) :
    s.Sim plan (ListedAlike s d) (listKeys d []) (listKeys d []) := by
  refine Prog.Sim.perform (o := Op.listKeys d []) (same_equivalence s) fun f w w' ht ht' hs => ?_
  refine ⟨?_, ht.of_files rfl, ht'.of_files rfl, fun l k hz => hs l k hz, moves_note w _⟩
  show ListedAlike s d ((if s.env.sure (Op.listKeys d []) then Fault.calm else f).answer.map _)
    ((if s.env.sure (Op.listKeys d []) then Fault.calm else f).answer.map _)
  cases (if s.env.sure (Op.listKeys d []) then Fault.calm else f) with
  | raise e r => exact Or.inl ⟨e, rfl, rfl⟩
  | calm =>
    refine Or.inr ⟨_, _, rfl, rfl, ownIds_congr ht ht' hs hd, fun p hp => ?_⟩
    obtain ⟨hmem, hown⟩ := List.mem_filter.mp hp
    exact safe_of_owned ht hd hmem hown

theorem listing_nodup (w : World) (env : Env) (d : Dest) (pfx : Str) :
    (((w.files (d.loc env)).keys.filter (fun k => (d.pre ++ pfx).isPrefixOf k)).map (cut d.pre)).Nodup := by
  refine List.Nodup.map_on (fun a ha b hb hab => ?_) ((w.files (d.loc env)).keys_nodup.filter _)
  have hsplit : ∀ {k}, k ∈ (w.files (d.loc env)).keys.filter (fun k => (d.pre ++ pfx).isPrefixOf k) →
      k = d.pre ++ cut d.pre k := by
    intro k hk
    obtain ⟨t, rfl⟩ := List.isPrefixOf_iff_prefix.mp (List.mem_filter.mp hk).2
    rw [List.append_assoc, cut_append]
  rw [hsplit ha, hsplit hb, hab]

/-- all files of an own id -/
theorem fixed_listBelow {d : Dest} {p : Str} (hp : s.Safe d p) :
    s.Fixed plan (fun r => ∀ keys, r = .ok keys → ∀ key ∈ keys, p ++ ['.'] <+: key)
      (listKeys d (p ++ ['.'])) := by
  refine fixed_op (o := .listKeys d (p ++ ['.'])) fun f w w' ht ht' hs => ?_
  have hsame : w'.listing s.env d (p ++ ['.']) = w.listing s.env d (p ++ ['.']) := by
    refine sorted_ext (listing_nodup w' _ _ _) (listing_nodup w _ _ _) fun key => ?_
    rw [← mem_sorted, ← mem_sorted (l := List.map _ (List.filter _ (w.files _).keys))]
    show key ∈ w'.listing s.env d (p ++ ['.']) ↔ key ∈ w.listing s.env d (p ++ ['.'])
    rw [World.mem_listing, World.mem_listing]
    constructor
    · rintro ⟨hpre, hsome⟩
      exact ⟨hpre, (hs _ _ (hp key hpre)).symm ▸ hsome⟩
    · rintro ⟨hpre, hsome⟩
      exact ⟨hpre, hs _ _ (hp key hpre) ▸ hsome⟩
  refine ⟨⟨?_, ?_⟩, ht.of_files rfl, ht'.of_files rfl, fun l k hz => hs l k hz, moves_note w _⟩
  · show Except.map _ _ = Except.map _ _
    rw [hsame]
  · intro keys hkeys key hkey
    have hlisted : (if s.env.sure (Op.listKeys d (p ++ ['.'])) then Fault.calm else f).answer.map
        (fun _ => w.listing s.env d (p ++ ['.'])) = .ok keys := hkeys
    cases hf : (if s.env.sure (Op.listKeys d (p ++ ['.'])) then Fault.calm else f) with
    | raise e r =>
      rw [hf] at hlisted
      cases hlisted
    | calm =>
      rw [hf] at hlisted
      obtain rfl := Except.ok.inj hlisted
      exact (World.mem_listing.mp hkey).1

end
end BackupHelper
