import BackupHelper.AgeLimit
import BackupHelper.PruneCompletion
import BackupHelper.Snapshots.Unambiguous

/-!
# The `prune` command and the local retention of the runs

Two paths to one set of deletions: `prune` reads ids and markers once, for all jobs; a run lists the
data dir again for its own job, after the passes of other jobs.

* `retentions`            the passes of the jobs over the data dir, in some order;
* `Cleared D w w'`        from `w` to `w'` exactly the files of the ids in `D` go;
* `Agrees`                both delete the same files, and a dry run names them;
* `prune_is_retention`    **they agree** exactly if no job that has something to prune is listed
                          after one whose age limit reaches back before the calendar.
-/

namespace BackupHelper
open Text Glob Effects Calendar

/-- the state after a run in which no call fails -/
def World.after (w : World) (env : Env) {α : Type} (p : M α) : World := (p.exec env.step .calm [] w).2

/-- `_apply_retention` on the data dir for the jobs in turn -/
def retentions (env : Env) (jobs : List Job) (now : Datetime) : List Job → M (List Str)
  | [] => pure []
  | job :: rest => do
    let errors ← applyRetention env job.retention now (scopeFor jobs job) none .local
    let more ← retentions env jobs now rest
    pure (errors ++ more)

/-- the pass of `job` at `w` selects `p` -/
def Selects (env : Env) (jobs : List Job) (now : Datetime) (w : World) (job : Job) (p : Str) : Prop :=
  Selected env job (scopeFor jobs job) (.own .local) now w p

/-- `prune` and the passes, in any order of the jobs, take the same files away, and a dry run takes
none and names the ids whose files go -/
def Agrees (env : Env) (jobs : List Job) (now : Datetime) (w : World) : Prop :=
  ∀ order, order.Perm jobs →
    (∀ l k, (w.after env (prune env jobs ⟨none, false, none, now⟩)).get l k =
      (w.after env (retentions env jobs now order)).get l k) ∧
    (∀ l k, (w.after env (prune env jobs ⟨none, true, none, now⟩)).get l k = w.get l k) ∧
    ∀ s, pruneLine true s ∈ ((prune env jobs ⟨none, true, none, now⟩).exec env.step .calm [] w).1.2 ↔
      (w.get .data (s ++ manifestSuffix)).isSome ∧
        (w.after env (retentions env jobs now order)).get .data (s ++ manifestSuffix) = none

/-- `now - timedelta(days=ageDays)` is a date -/
def InCalendar (now : Datetime) (job : Job) : Prop := job.retention.ageDays < now.day

instance (now : Datetime) (job : Job) : Decidable (InCalendar now job) :=
  inferInstanceAs (Decidable (_ < _))

/-- the snapshots of `job` in the data dir -/
def World.snapshotsOf (w : World) (env : Env) (jobs : List Job) (now : Datetime) (job : Job) :
    List Snapshot :=
  snapshotsAt now (w.mine env .local (scopeFor jobs job) none)

/-- of the jobs listed after one whose age limit is not reached, each has such a limit too or no
snapshot in the data dir that its policy gives up -/
def Unhindered (env : Env) (jobs : List Job) (now : Datetime) (w : World) : Prop :=
  ∀ before first after, jobs = before ++ first :: after → ¬ InCalendar now first →
    ∀ job ∈ after, InCalendar now job →
      ∀ s ∈ w.snapshotsOf env jobs now job, ¬ Expired job.retention now (w.snapshotsOf env jobs now job) s

/-- every name in the data dir is that of a file right in it, and ids are those of the engine -/
structure FlatDir (w : World) : Prop where
  flat : ∀ k, (w.get .data k).isSome → free '/' k
  engine : ∀ s, (w.get .data (s ++ manifestSuffix)).isSome → Engine s

section
variable {env : Env} {w w' w'' : World}

/-! ## what goes -/

/-- exactly the files of the ids in `D` go -/
structure Cleared (D : Str → Prop) (w w' : World) : Prop where
  gone : ∀ p, D p → ∀ k, p ++ ['.'] <+: k → w'.get .data k = none
  same : ∀ l k, (l = .data → ∀ p, D p → ¬ p ++ ['.'] <+: k) → w'.get l k = w.get l k

theorem Cleared.of_same {D : Str → Prop} (hD : ∀ p, ¬ D p) (h : ∀ l k, w'.get l k = w.get l k) :
    Cleared D w w' :=
  ⟨fun p hp => absurd hp (hD p), fun l k _ => h l k⟩

theorem Cleared.congr {D D' : Str → Prop} (h : Cleared D w w') (hD : ∀ p, D' p ↔ D p) :
    Cleared D' w w' :=
  ⟨fun p hp => h.gone p ((hD p).mp hp),
    fun l k hk => h.same l k fun hl p hp => hk hl p ((hD p).mpr hp)⟩

theorem Cleared.before {D : Str → Prop} (h : Cleared D w' w'') (hw : ∀ l k, w'.get l k = w.get l k) :
    Cleared D w w'' :=
  ⟨h.gone, fun l k hk => (h.same l k hk).trans (hw l k)⟩

/-- a file goes or stays -/
theorem Cleared.shrink {D : Str → Prop} (h : Cleared D w w') (l : Loc) (k : Str) :
    w'.get l k = w.get l k ∨ (w'.get l k = none ∧ l = .data ∧ ∃ p, D p ∧ p ++ ['.'] <+: k) := by
  by_cases hk : l = .data ∧ ∃ p, D p ∧ p ++ ['.'] <+: k
  · obtain ⟨rfl, p, hp, hbegin⟩ := hk
    exact Or.inr ⟨h.gone p hp k hbegin, rfl, p, hp, hbegin⟩
  · exact Or.inl (h.same l k fun hl p hp hbegin => hk ⟨hl, p, hp, hbegin⟩)

theorem Cleared.trans {D D' : Str → Prop} (h : Cleared D w w') (h' : Cleared D' w' w'') :
    Cleared (fun p => D p ∨ D' p) w w'' := by
  refine ⟨fun p hp k hk => ?_, fun l k hk => ?_⟩
  · rcases hp with hp | hp
    · rcases h'.shrink .data k with he | he
      · rw [he]
        exact h.gone p hp k hk
      · exact he.1
    · exact h'.gone p hp k hk
  · rw [h'.same l k fun hl p hp => hk hl p (Or.inr hp)]
    exact h.same l k fun hl p hp => hk hl p (Or.inl hp)

theorem Cleared.unique {D : Str → Prop} (h : Cleared D w w') (h' : Cleared D w w'') (l : Loc) (k : Str) :
    w'.get l k = w''.get l k := by
  rcases h.shrink l k with he | ⟨he, rfl, p, hp, hbegin⟩
  · rcases h'.shrink l k with he' | ⟨he', rfl, p, hp, hbegin⟩
    · rw [he, he']
    · rw [he', h.gone p hp k hbegin]
  · rw [he, h'.gone p hp k hbegin]

theorem Cleared.isSome {D : Str → Prop} (h : Cleared D w w') {k : Str} (hk : (w'.get .data k).isSome) :
    (w.get .data k).isSome := by
  rcases h.shrink .data k with he | he
  · rwa [he] at hk
  · rw [he.1] at hk
    cases hk

theorem FlatDir.cleared {D : Str → Prop} (hw : FlatDir w) (h : Cleared D w w') : FlatDir w' :=
  ⟨fun k hk => hw.flat k (h.isSome hk), fun s hs => hw.engine s (h.isSome hs)⟩

/-! ## runs in which no call fails -/

/-- exactly the named files of the data dir go -/
def Erased (names : List Str) (w w' : World) : Prop :=
  ∀ l k, w'.get l k = if l = .data ∧ k ∈ names then none else w.get l k

theorem step_calm (o : Op) (w : World) : env.step o .calm w =
    ((env.effect o .calm w).1, (env.effect o .calm w).2.note (o, o.returned (env.effect o .calm w).1)) := by
  unfold Env.step
  rw [ite_self]

theorem Erased.cons {name : Str} {names : List Str} (e : Op × Bool)
    (h : Erased names ((w.erase .data name).note e) w') : Erased (name :: names) w w' := by
  intro l k
  rw [h l k, World.get_note]
  by_cases hk : l = .data ∧ k = name
  · obtain ⟨rfl, rfl⟩ := hk
    rw [World.get_erase, ite_self, if_pos ⟨rfl, List.mem_cons_self⟩]
  · have hne : (l, k) ≠ (Loc.data, name) := fun he => hk ⟨(Prod.mk.inj he).1, (Prod.mk.inj he).2⟩
    have hiff : (l = .data ∧ k ∈ name :: names) ↔ (l = .data ∧ k ∈ names) := by
      refine and_congr_right fun hl => ?_
      rw [List.mem_cons, or_iff_right fun he => hk ⟨hl, he⟩]
    rw [World.get_erase_ne _ hne]
    simp only [hiff]

variable (env) in
theorem erased_deleteKeys (names : List Str) (w : World) :
    ∃ w', (deleteKeys .local names).exec env.step .calm [] w = (.ok (), w') ∧ Erased names w w' := by
  induction names generalizing w with
  | nil => exact ⟨w, rfl, fun l k => by simp⟩
  | cons name names ih =>
    obtain ⟨w', hrun, herased⟩ := ih ((w.erase .data name).note (.delete .local name, true))
    refine ⟨w', ?_, herased.cons⟩
    have hone : (delete .local name).exec env.step .calm [] w =
        (.ok (), (w.erase .data name).note (.delete .local name, true)) := step_calm _ _
    unfold deleteKeys
    rw [Prog.exec_bind, hone]
    exact hrun

variable (env) in
theorem erased_unlinkAll (names : List Str) (w : World) :
    ∃ w', (unlinkAll names).exec env.step .calm [] w = (.ok (), w') ∧ Erased names w w' := by
  induction names generalizing w with
  | nil => exact ⟨w, rfl, fun l k => by simp⟩
  | cons name names ih =>
    obtain ⟨w', hrun, herased⟩ := ih ((w.erase .data name).note (.unlink name, true))
    refine ⟨w', ?_, herased.cons⟩
    have hone : (unlink name).exec env.step .calm [] w =
        (.ok (), (w.erase .data name).note (.unlink name, true)) := step_calm _ _
    unfold unlinkAll
    rw [Prog.exec_bind, hone]
    exact hrun

/-- the names are those of the files of one id -/
theorem Erased.cleared {names : List Str} (h : Erased names w w') {sid : Str}
    (hbegin : ∀ k ∈ names, sid ++ ['.'] <+: k)
    (hall : ∀ k, sid ++ ['.'] <+: k → (w.get .data k).isSome → k ∈ names) :
    Cleared (fun p => p = sid) w w' := by
  refine ⟨fun p hp k hk => ?_, fun l k hk => ?_⟩
  · rw [h, hp] at *
    by_cases hmem : k ∈ names
    · rw [if_pos ⟨rfl, hmem⟩]
    · rw [if_neg fun hc => hmem hc.2]
      exact Option.not_isSome_iff_eq_none.mp fun hs => hmem (hall k hk hs)
  · rw [h, if_neg]
    exact fun hc => hk hc.1 sid rfl (hbegin k hc.2)

variable (env) in
theorem cleared_pruneIds (ids : List Str) (w : World) :
    ∃ w', (pruneIds .local ids).exec env.step .calm [] w = (.ok (), w') ∧
      Cleared (fun p => p ∈ ids) w w' := by
  induction ids generalizing w with
  | nil => exact ⟨w, rfl, Cleared.of_same (fun _ => List.not_mem_nil) fun _ _ => rfl⟩
  | cons sid ids ih =>
    have hlist : (listKeys .local (sid ++ ['.'])).exec env.step .calm [] w =
        (.ok (w.listing env .local (sid ++ ['.'])),
          w.note (.listKeys .local (sid ++ ['.']), true)) := step_calm _ _
    obtain ⟨w₁, hdel, herased⟩ := erased_deleteKeys env (w.listing env .local (sid ++ ['.']))
      (w.note (.listKeys .local (sid ++ ['.']), true))
    obtain ⟨w', hrest, hcleared⟩ := ih w₁
    have hone : Cleared (fun p => p = sid) w w₁ := by
      refine (herased.cleared (fun k hk => (World.mem_listing.mp hk).1) fun k hk hs => ?_).before
        fun l k => rfl
      exact World.mem_listing.mpr ⟨hk, hs⟩
    refine ⟨w', ?_, (hone.trans hcleared).congr fun p => List.mem_cons⟩
    unfold pruneIds
    rw [Prog.exec_bind, hlist]
    simp only []
    rw [Prog.exec_bind, hdel]
    exact hrest

variable (env) in
theorem cleared_unlinkSnapshot (hw : FlatDir w) {sid : Str} (hsid : Engine sid) :
    ∃ w', (unlinkSnapshot env sid).exec env.step .calm [] w = (.ok (), w') ∧
      Cleared (fun p => p = sid) w w' := by
  have hglob : (glob (sid ++ ".*".toList)).exec env.step .calm [] w =
      (w.globbed (sid ++ ".*".toList), w.note (.glob (sid ++ ".*".toList), true)) := step_calm _ _
  obtain ⟨w', hrun, herased⟩ := erased_unlinkAll env
    (env.iter (w.globbed (sid ++ ".*".toList))) (w.note (.glob (sid ++ ".*".toList), true))
  refine ⟨w', ?_, ?_⟩
  · unfold unlinkSnapshot
    rw [Prog.exec_bind, hglob]
    exact hrun
  · have hpat : sid ++ ".*".toList = (sid ++ ['.']) ++ ['*'] := by simp
    have hmem : ∀ k, k ∈ env.iter (w.globbed (sid ++ ".*".toList)) ↔
        (w.get .data k).isSome ∧ free '/' k ∧ sid ++ ['.'] <+: k := by
      intro k
      rw [(env.iter_perm _).mem_iff, World.mem_globbed, hpat, fnmatch_begins hsid.plain]
    refine (herased.cleared (fun k hk => ((hmem k).mp hk).2.2) fun k hk hs => ?_).before fun l k => rfl
    exact (hmem k).mpr ⟨hs, hw.flat k hs, hk⟩

variable (env) in
/-- the markers, as they are read when no call fails -/
theorem exec_pendingOwners (w : World) : ∃ w', pendingOwners.exec env.step .calm [] w = (w.pending, w') ∧
    w'.files = w.files := by
  obtain ⟨-, hq, hr⟩ := (Prog.wp_iff_exec .calm _ _ _).mp
    (show pendingOwners.wp env.step (fun _ _ => True) (fun r w' => Quiet w w' ∧ r = w.pending) w from
      wp_pendingOwners (fun _ _ _ => trivial) w) []
  exact ⟨_, Prod.ext hr rfl, hq.same⟩

/-- **A pass over the data dir** takes away exactly the files of the ids that it selects. -/
theorem cleared_applyRetention (cfg : RetentionConfig) (now : Datetime) (scope : SnapshotScope)
    (w : World) : Cleared
      (fun p => ∃ out, w.prunable env .local cfg now scope none = .ok out ∧ p ∈ out) w
      (w.after env (applyRetention env cfg now scope none .local)) := by
  obtain ⟨w₁, hmarked, hfiles⟩ := exec_pendingOwners env w
  have hlist : (listKeys .local []).exec env.step .calm [] w₁ =
      (.ok (w₁.listing env .local []), w₁.note (.listKeys .local [], true)) := step_calm _ _
  have hlisting : w₁.listing env .local [] = w.listing env .local [] := by
    unfold World.listing
    rw [hfiles]
  have hsame : ∀ l k, (w₁.note (.listKeys .local [], true)).get l k = w.get l k := fun l k => by
    rw [World.get_note, World.get, hfiles, World.get]
  have hpass : (retentionPass env .local cfg now scope none).exec env.step .calm [] w =
      (pruneSelected env .local (w.prunable env .local cfg now scope none)).exec env.step .calm []
        (w₁.note (.listKeys .local [], true)) := by
    have hlocal : markedFor .local = pendingOwners := if_pos rfl
    unfold retentionPass
    rw [hlocal, Prog.exec_bind, hmarked]
    simp only []
    rw [Prog.exec_bind, hlist, hlisting]
    rfl
  unfold World.after applyRetention
  rw [Prog.exec_bind, hpass]
  cases hout : w.prunable env .local cfg now scope none with
  | error e =>
    refine Cleared.of_same (fun p hp => ?_) hsame
    obtain ⟨out, ho, -⟩ := hp
    cases ho
  | ok out =>
    obtain ⟨w', hrun, hcleared⟩ := cleared_pruneIds env (env.iter out)
      (w₁.note (.listKeys .local [], true))
    unfold pruneSelected
    rw [hrun]
    refine (hcleared.before hsame).congr fun p => ?_
    rw [(env.iter_perm out).mem_iff]
    constructor
    · rintro ⟨out', ho, hp⟩
      rwa [Except.ok.inj ho]
    · exact fun hp => ⟨out, rfl, hp⟩

/-! ## the passes of the jobs in turn -/

section
variable {jobs : List Job} {now : Datetime}

theorem Distinct.owner (hdist : Distinct jobs) {a b : Job} {sid : Str} {m : Option Str}
    (ha : Owns jobs sid localPlace m a) (hb : Owns jobs sid localPlace m b) : b = a := by
  by_cases hlen : 2 ≤ jobs.length
  · exact ha.unique hdist hlen hb
  · match jobs, ha.1, hb.1, hlen with
    | [], ha, _, _ => cases ha
    | [j], ha, hb, _ => rw [List.mem_singleton.mp ha, List.mem_singleton.mp hb]
    | _ :: _ :: _, _, _, hlen => exact absurd (by simp) hlen

theorem Selects.mine {job : Job} {p : Str} (h : Selects env jobs now w job p) :
    p ∈ w.mine env .local (scopeFor jobs job) none := by
  obtain ⟨out, hout, hp⟩ := h
  exact mem_prunable_mine hout hp

theorem Selects.there {job : Job} {p : Str} (h : Selects env jobs now w job p) :
    (w.get .data (p ++ manifestSuffix)).isSome :=
  (mem_mine.mp h.mine).1.2

/-- jobs select different ids -/
theorem Selects.unique (hdist : Distinct jobs) {a b : Job} (ha : a ∈ jobs) (hb : b ∈ jobs) {p : Str}
    (h : Selects env jobs now w a p) (h' : p ∈ w.mine env .local (scopeFor jobs b) none) : b = a :=
  hdist.owner ((mem_mine_iff ha).mp h.mine).2 ((mem_mine_iff hb).mp h').2

/-- a name begins like the files of one id only -/
theorem FlatDir.begins_unique (hw : FlatDir w) {p s : Str} (hp : (w.get .data (p ++ manifestSuffix)).isSome)
    (hs : Engine s) {k : Str} (hk : p ++ ['.'] <+: k) (hk' : s ++ ['.'] <+: k) : p = s :=
  begins_eq (hw.engine p hp).dot hs.dot hk hk'

/-- after other jobs' passes a job sees the snapshots that it saw before -/
theorem Cleared.mine {done : List Job} (hw : FlatDir w) (hdist : Distinct jobs) {job : Job}
    (hjob : job ∈ jobs) (hdone : ∀ j ∈ done, j ∈ jobs ∧ j ≠ job)
    (h : Cleared (fun p => ∃ j ∈ done, Selects env jobs now w j p) w w') :
    w'.mine env .local (scopeFor jobs job) none = w.mine env .local (scopeFor jobs job) none := by
  have hfile : ∀ {s k}, s ∈ w.mine env .local (scopeFor jobs job) none → s ++ ['.'] <+: k →
      w'.get .data k = w.get .data k := by
    intro s k hs hk
    rcases h.shrink .data k with he | ⟨-, -, p, ⟨j, hj, hp⟩, hbegin⟩
    · exact he
    · obtain rfl := hw.begins_unique hp.there (hw.engine s (mem_mine.mp hs).1.2) hbegin hk
      exact absurd (hp.unique hdist (hdone j hj).1 hjob hs).symm (hdone j hj).2
  have hmarker : ∀ {s}, (w'.get .data (s ++ manifestSuffix)).isSome →
      w'.get .data (s ++ pendingSuffix) = w.get .data (s ++ pendingSuffix) := by
    intro s hs
    rcases h.shrink .data (s ++ pendingSuffix) with he | ⟨-, -, p, ⟨j, hj, hp⟩, hbegin⟩
    · exact he
    · obtain rfl := hw.begins_unique hp.there (hw.engine s (h.isSome hs)) hbegin (begins_pending s)
      rw [h.gone p ⟨j, hj, hp⟩ _ (begins_manifest p)] at hs
      cases hs
  have hlookup : ∀ {s}, free '/' s → (w'.get .data (s ++ manifestSuffix)).isSome →
      (w'.markedAt .local).lookup s = (w.markedAt .local).lookup s := by
    intro s hfree hs
    rw [lookup_markedAt hfree, lookup_markedAt hfree, if_pos rfl, if_pos rfl]
    unfold World.owner
    rw [hmarker hs]
  have hmem : ∀ s, s ∈ w'.mine env .local (scopeFor jobs job) none ↔
      s ∈ w.mine env .local (scopeFor jobs job) none := by
    intro s
    constructor
    · intro hs
      obtain ⟨⟨hfree, hthere⟩, howns⟩ := mem_mine.mp hs
      rw [hlookup hfree hthere] at howns
      exact mem_mine.mpr ⟨⟨hfree, h.isSome hthere⟩, howns⟩
    · intro hs
      obtain ⟨⟨hfree, hthere⟩, howns⟩ := mem_mine.mp hs
      have hthere' : (w'.get .data (s ++ manifestSuffix)).isSome := by
        rw [hfile hs (begins_manifest s)]
        exact hthere
      rw [← hlookup hfree hthere'] at howns
      exact mem_mine.mpr ⟨⟨hfree, hthere'⟩, howns⟩
  unfold World.mine SnapshotScope.mine World.ids snapshotIds at hmem ⊢
  refine filter_sorted_ext (List.nodup_dedup _) (List.nodup_dedup _) fun s => ?_
  have hs := hmem s
  rw [List.mem_filter, List.mem_filter, mem_sorted, mem_sorted] at hs
  exact hs

theorem Cleared.selects {done : List Job} (hw : FlatDir w) (hdist : Distinct jobs) {job : Job}
    (hjob : job ∈ jobs) (hdone : ∀ j ∈ done, j ∈ jobs ∧ j ≠ job)
    (h : Cleared (fun p => ∃ j ∈ done, Selects env jobs now w j p) w w') (p : Str) :
    Selects env jobs now w' job p ↔ Selects env jobs now w job p := by
  have hmine := h.mine hw hdist hjob hdone
  unfold Selects Selected World.prunable
  show (∃ out, selectPrunable (snapshotsAt now (w'.mine env .local (scopeFor jobs job) none))
    job.retention now = .ok out ∧ p ∈ out) ↔ _
  rw [hmine]
  exact Iff.rfl

/-- **The passes in turn** take away exactly the files of the ids that each job would select alone. -/
theorem cleared_retentions (hw : FlatDir w) (hdist : Distinct jobs) (done order : List Job)
    (hjobs : ∀ j ∈ done ++ order, j ∈ jobs) (hnodup : (done ++ order).Nodup)
    (h : Cleared (fun p => ∃ j ∈ done, Selects env jobs now w j p) w w') :
    Cleared (fun p => ∃ j ∈ done ++ order, Selects env jobs now w j p) w
      (w'.after env (retentions env jobs now order)) := by
  induction order generalizing done w' with
  | nil =>
    rw [List.append_nil]
    exact h
  | cons job order ih =>
    have hjob : job ∈ jobs := hjobs job (List.mem_append_right done List.mem_cons_self)
    have hne : ∀ j ∈ done, j ∈ jobs ∧ j ≠ job := fun j hj =>
      ⟨hjobs j (List.mem_append_left _ hj), fun he =>
        (List.nodup_append.mp hnodup).2.2 j hj job List.mem_cons_self he⟩
    have hrun : w'.after env (retentions env jobs now (job :: order)) =
        (w'.after env (applyRetention env job.retention now (scopeFor jobs job) none .local)).after env
          (retentions env jobs now order) := by
      unfold World.after
      rw [retentions, Prog.exec_bind, Prog.exec_bind]
      rfl
    have hone : Cleared (Selects env jobs now w job) w'
        (w'.after env (applyRetention env job.retention now (scopeFor jobs job) none .local)) :=
      (cleared_applyRetention job.retention now (scopeFor jobs job) w').congr fun p =>
        (h.selects hw hdist hjob hne p).symm
    have hboth : Cleared (fun p => ∃ j ∈ done ++ [job], Selects env jobs now w j p) w
        (w'.after env (applyRetention env job.retention now (scopeFor jobs job) none .local)) := by
      refine (h.trans hone).congr fun p => ?_
      simp only [List.mem_append, List.mem_singleton, or_and_right, exists_or, exists_eq_left]
    rw [hrun, List.append_cons]
    rw [List.append_cons] at hjobs hnodup
    exact ih (done ++ [job]) hjobs hnodup hboth

/-! ## the command -/

variable (env) in
theorem cleared_pruneSnapshots (dryRun : Bool) (sids : List Str) (hsids : ∀ s ∈ sids, Engine s)
    (hw : FlatDir w) : ∃ w', (pruneSnapshots env dryRun sids).exec env.step .calm [] w =
      ((.ok (), sids.map (pruneLine dryRun)), w') ∧ Cleared (fun p => dryRun = false ∧ p ∈ sids) w w' := by
  induction sids generalizing w with
  | nil => exact ⟨w, rfl, Cleared.of_same (fun p hp => List.not_mem_nil hp.2) fun _ _ => rfl⟩
  | cons sid sids ih =>
    have hone : ∃ w', (if dryRun then pure (.ok ()) else unlinkSnapshot env sid : M _).exec env.step .calm
        [] w = (.ok (), w') ∧ Cleared (fun p => dryRun = false ∧ p = sid) w w' := by
      cases dryRun with
      | true => exact ⟨w, rfl, Cleared.of_same (fun p hp => by cases hp.1) fun _ _ => rfl⟩
      | false =>
        obtain ⟨w', hrun, h⟩ := cleared_unlinkSnapshot env hw (hsids sid List.mem_cons_self)
        exact ⟨w', hrun, h.congr fun p => and_iff_right rfl⟩
    obtain ⟨w₁, hrun₁, h₁⟩ := hone
    obtain ⟨w', hrun, h⟩ := ih (fun s hs => hsids s (List.mem_cons_of_mem _ hs)) (hw.cleared h₁)
    refine ⟨w', ?_, (h₁.trans h).congr fun p => ?_⟩
    · unfold pruneSnapshots
      rw [Prog.exec_bind, hrun₁]
      simp only []
      rw [Prog.exec_bind, hrun]
      rfl
    · rw [List.mem_cons, and_or_left]

variable (env) in
/-- what the command reads is what a pass reads -/
theorem exec_prunePlan (w : World) : ∃ w', prunePlan.exec env.step .calm [] w =
    (⟨w.ids env .local, w.pending⟩, w') ∧ w'.files = w.files := by
  have hglob : (glob ('*' :: manifestSuffix)).exec env.step .calm [] w =
      (w.globbed ('*' :: manifestSuffix), w.note (.glob ('*' :: manifestSuffix), true)) := step_calm _ _
  obtain ⟨w', hmarked, hfiles⟩ := exec_pendingOwners env
    (w.note (.glob ('*' :: manifestSuffix), true))
  have hends : ∀ m ∈ w.globbed ('*' :: manifestSuffix), ∃ t, t ++ manifestSuffix = m ∧
      m.take (m.length - manifestSuffix.length) = t := by
    intro m hm
    obtain ⟨t, rfl⟩ := (fnmatch_ends (show plain manifestSuffix by decide) m).mp (World.mem_globbed.mp hm).2.2
    exact ⟨t, rfl, by simp⟩
  have hsids : sorted ((w.globbed ('*' :: manifestSuffix)).map
      (fun m => m.take (m.length - manifestSuffix.length))) = w.ids env .local := by
    have hnodup : (w.globbed ('*' :: manifestSuffix)).Nodup :=
      sorted_nodup ((AList.keys_nodup _).filter _)
    refine sorted_ext (hnodup.map_on fun m hm m' hm' he => ?_) (List.nodup_dedup _) fun s => ?_
    · obtain ⟨t, rfl, ht⟩ := hends m hm
      obtain ⟨t', rfl, ht'⟩ := hends m' hm'
      rw [← ht, ← ht', he]
    · have hids : s ∈ w.ids env .local ↔ free '/' s ∧ (w.get .data (s ++ manifestSuffix)).isSome := mem_ids
      unfold World.ids snapshotIds at hids
      rw [mem_sorted] at hids
      rw [hids, List.mem_map]
      constructor
      · rintro ⟨m, hm, rfl⟩
        obtain ⟨t, rfl, ht⟩ := hends m hm
        obtain ⟨hthere, hfree, -⟩ := World.mem_globbed.mp hm
        rw [ht]
        exact ⟨(free_append.mp hfree).1, hthere⟩
      · rintro ⟨hfree, hthere⟩
        have hmatch : fnmatch ('*' :: manifestSuffix) (s ++ manifestSuffix) = true :=
          (fnmatch_ends (by decide) _).mpr (List.suffix_append s _)
        refine ⟨s ++ manifestSuffix, World.mem_globbed.mpr ⟨hthere, ?_, hmatch⟩, by simp⟩
        exact free_append.mpr ⟨hfree, by decide⟩
  refine ⟨w', ?_, hfiles⟩
  unfold prunePlan
  rw [Prog.exec_bind, hglob]
  simp only []
  rw [Prog.exec_bind, hmarked, hsids]
  rfl

/-- what the command reads at `w` -/
def World.plan (w : World) (env : Env) : PrunePlan := ⟨w.ids env .local, w.pending⟩

theorem plan_prunable (w : World) (dryRun : Bool) (job : Job) :
    (w.plan env).prunable jobs ⟨none, dryRun, none, now⟩ job =
      w.prunable env .local job.retention now (scopeFor jobs job) none := by
  have hmarked : w.markedAt .local = w.pending := if_pos rfl
  unfold World.prunable World.mine
  rw [hmarked]
  rfl

theorem pruneLine_inj (dryRun : Bool) {s t : Str} : pruneLine dryRun s = pruneLine dryRun t ↔ s = t :=
  ⟨fun h => List.append_cancel_left h, fun h => by rw [h]⟩

/-- the targets that the loop comes to before one raises -/
def reachedFirst (now : Datetime) (targets : List Job) : List Job :=
  targets.takeWhile (fun j => decide (InCalendar now j))

variable (env jobs now) in
/-- **The loop of the command** -/
theorem exec_pruneTargets {w₀ : World} (hw₀ : FlatDir w₀) (dryRun : Bool) (targets : List Job)
    (hw : FlatDir w) : ∃ r lines w',
      (pruneTargets env jobs ⟨none, dryRun, none, now⟩ (w₀.plan env) targets).exec env.step .calm [] w =
        ((r, lines), w') ∧
      (∀ s, pruneLine dryRun s ∈ lines ↔
        ∃ j ∈ reachedFirst now targets, Selects env jobs now w₀ j s) ∧
      Cleared (fun p => dryRun = false ∧
        ∃ j ∈ reachedFirst now targets, Selects env jobs now w₀ j p) w w' := by
  induction targets generalizing w with
  | nil =>
    refine ⟨.ok (), [], w, rfl, fun s => by simp [reachedFirst], Cleared.of_same (fun p hp => ?_)
      fun _ _ => rfl⟩
    obtain ⟨-, j, hj, -⟩ := hp
    exact List.not_mem_nil hj
  | cons job targets ih =>
    by_cases hreached : InCalendar now job
    · obtain ⟨out, hout⟩ := (selectPrunable_isOk (snapshotsAt now
        (w₀.mine env .local (scopeFor jobs job) none)) job.retention now).mpr hreached
      have hsel : ∀ p, p ∈ sorted out ↔ Selects env jobs now w₀ job p := by
        intro p
        rw [mem_sorted]
        constructor
        · exact fun hp => ⟨out, hout, hp⟩
        · rintro ⟨out', hout', hp⟩
          rwa [Except.ok.inj (hout.symm.trans hout')]
      have hengine : ∀ s ∈ sorted out, Engine s := fun s hs =>
        hw₀.engine s ((hsel s).mp hs).there
      obtain ⟨w₁, hrun₁, h₁⟩ := cleared_pruneSnapshots env dryRun (sorted out) hengine hw
      obtain ⟨r, lines, w', hrun, hlines, h⟩ := ih (hw.cleared h₁)
      have htake : reachedFirst now (job :: targets) = job :: reachedFirst now targets :=
        List.takeWhile_cons_of_pos (by simpa using hreached)
      refine ⟨r, (sorted out).map (pruneLine dryRun) ++ lines, w', ?_, fun s => ?_,
        (h₁.trans h).congr fun p => ?_⟩
      · have htarget : pruneTarget env jobs ⟨none, dryRun, none, now⟩ (w₀.plan env) job =
            pruneSnapshots env dryRun (sorted out) := by
          unfold pruneTarget
          rw [plan_prunable, show w₀.prunable env .local job.retention now (scopeFor jobs job) none =
            .ok out from hout]
        rw [pruneTargets, htarget, Prog.exec_bind, hrun₁]
        simp only []
        rw [Prog.exec_bind, hrun]
        rfl
      · have hmap : pruneLine dryRun s ∈ (sorted out).map (pruneLine dryRun) ↔
            Selects env jobs now w₀ job s := by
          rw [← hsel, List.mem_map]
          simp only [pruneLine_inj, exists_eq_right]
        rw [List.mem_append, hmap, hlines, htake, List.exists_mem_cons_iff]
      · rw [htake, List.exists_mem_cons_iff, hsel, and_or_left]
    · have hnone : ∀ out, w₀.prunable env .local job.retention now (scopeFor jobs job) none ≠ .ok out :=
        fun out hout => hreached ((selectPrunable_isOk _ _ _).mp ⟨out, hout⟩)
      have htake : reachedFirst now (job :: targets) = [] :=
        List.takeWhile_cons_of_neg (by simpa using hreached)
      cases hout : w₀.prunable env .local job.retention now (scopeFor jobs job) none with
      | ok out => exact absurd hout (hnone out)
      | error e =>
        refine ⟨.error e, [], w, ?_, fun s => by simp [htake], Cleared.of_same (fun p hp => ?_)
          fun _ _ => rfl⟩
        · have htarget : pruneTarget env jobs ⟨none, dryRun, none, now⟩ (w₀.plan env) job =
              pure (.error e, []) := by
            unfold pruneTarget
            rw [plan_prunable, hout]
          rw [pruneTargets, htarget, Prog.exec_bind]
          rfl
        · rw [htake] at hp
          obtain ⟨-, j, hj, -⟩ := hp
          exact List.not_mem_nil hj

variable (env jobs now) in
/-- **The command** -/
theorem exec_prune (hw : FlatDir w) (dryRun : Bool) :
    (∀ s, pruneLine dryRun s ∈
        ((prune env jobs ⟨none, dryRun, none, now⟩).exec env.step .calm [] w).1.2 ↔
      ∃ j ∈ reachedFirst now jobs, Selects env jobs now w j s) ∧
    Cleared (fun p => dryRun = false ∧ ∃ j ∈ reachedFirst now jobs, Selects env jobs now w j p) w
      (w.after env (prune env jobs ⟨none, dryRun, none, now⟩)) := by
  cases hjobs : jobs with
  | nil =>
    refine ⟨fun s => ?_, Cleared.of_same (fun p hp => ?_) fun _ _ => rfl⟩
    · have hline : pruneLine dryRun s ≠ "no jobs configured".toList := by
        intro he
        have hhead := congrArg List.head? he
        cases dryRun <;> simp [pruneLine] at hhead
      show pruneLine dryRun s ∈ ["no jobs configured".toList] ↔ _
      rw [List.mem_singleton]
      exact iff_of_false hline fun ⟨j, hj, _⟩ => List.not_mem_nil hj
    · obtain ⟨-, j, hj, -⟩ := hp
      exact List.not_mem_nil hj
  | cons first rest =>
    rw [← hjobs]
    have htargets : (PruneArgs.mk none dryRun none now).targets jobs = jobs := by
      unfold PruneArgs.targets
      rw [List.filter_eq_self]
      exact fun j _ => by simp
    have hempty : jobs.isEmpty = false := by
      rw [hjobs]
      rfl
    obtain ⟨w₁, hplan, hfiles⟩ := exec_prunePlan env w
    have hsame : ∀ l k, w₁.get l k = w.get l k := fun l k => by rw [World.get, hfiles, World.get]
    have hw₁ : FlatDir w₁ :=
      ⟨fun k hk => hw.flat k (by rwa [hsame] at hk), fun s hs => hw.engine s (by rwa [hsame] at hs)⟩
    obtain ⟨r, lines, w', hrun, hlines, h⟩ := exec_pruneTargets env jobs now
      hw dryRun jobs hw₁
    have hprune : (prune env jobs ⟨none, dryRun, none, now⟩).exec env.step .calm [] w = ((r, lines), w') := by
      unfold prune
      simp only [htargets, hempty, Bool.false_eq_true, if_false]
      rw [Prog.exec_bind, hplan]
      exact hrun
    unfold World.after
    rw [hprune]
    exact ⟨hlines, h.before hsame⟩

/-! ## both paths -/

theorem mem_reachedFirst {targets : List Job} {job : Job} (h : job ∈ reachedFirst now targets) :
    job ∈ targets ∧ InCalendar now job := by
  refine ⟨(List.takeWhile_sublist _).subset h, ?_⟩
  simpa using List.mem_takeWhile_imp h

/-- the policy gives the snapshot up -/
theorem selects_iff {job : Job} {p : Str} (hreached : InCalendar now job) : Selects env jobs now w job p ↔
    ∃ s ∈ w.snapshotsOf env jobs now job, s.id = p ∧
      Expired job.retention now (w.snapshotsOf env jobs now job) s := by
  have hdistinct : ((w.snapshotsOf env jobs now job).map (·.id)).Nodup := by
    unfold World.snapshotsOf snapshotsAt
    rw [List.map_map]
    exact (mine_nodup w .local _ none).map_on fun a _ b _ he => he
  obtain ⟨out, hout⟩ := (selectPrunable_isOk (w.snapshotsOf env jobs now job) job.retention now).mpr
    hreached
  rw [← mem_selectPrunable_expired hdistinct hout]
  constructor
  · rintro ⟨out', hout', hp⟩
    rwa [← Except.ok.inj (hout'.symm.trans hout)]
  · exact fun hp => ⟨out, hout, hp⟩

theorem Selects.reached {job : Job} {p : Str} (h : Selects env jobs now w job p) : InCalendar now job := by
  obtain ⟨out, hout, -⟩ := h
  exact (selectPrunable_isOk _ _ _).mp ⟨out, hout⟩

/-- all that any job selects is selected by one that the command comes to -/
theorem unhindered_iff (hdist : Distinct jobs) : Unhindered env jobs now w ↔
    ∀ job ∈ jobs, ∀ p, Selects env jobs now w job p →
      ∃ j ∈ reachedFirst now jobs, Selects env jobs now w j p := by
  constructor
  · intro h job hjob p hp
    by_contra hn
    push Not at hn
    have hsplit : reachedFirst now jobs ++ jobs.dropWhile (fun j => decide (InCalendar now j)) = jobs :=
      List.takeWhile_append_dropWhile
    cases hdrop : jobs.dropWhile (fun j => decide (InCalendar now j)) with
    | nil =>
      rw [hdrop, List.append_nil] at hsplit
      rw [← hsplit] at hjob
      exact hn job hjob hp
    | cons first after =>
      have hfirst : ¬ InCalendar now first := by
        have hhead := List.head?_dropWhile_not (fun j => decide (InCalendar now j)) jobs
        rw [hdrop] at hhead
        simpa using hhead
      rw [hdrop] at hsplit
      have hafter : job ∈ after := by
        rw [← hsplit, List.mem_append, List.mem_cons] at hjob
        rcases hjob with hmem | rfl | hmem
        · exact absurd hp (hn job hmem)
        · exact absurd hp.reached hfirst
        · exact hmem
      obtain ⟨s, hs, -, hexpired⟩ := (selects_iff hp.reached).mp hp
      exact h _ first after hsplit.symm hfirst job hafter hp.reached s hs hexpired
  · intro h before first after hsplit hfirst job hafter hreached s hs hexpired
    have hjob : job ∈ jobs := by
      rw [hsplit]
      exact List.mem_append_right _ (List.mem_cons_of_mem _ hafter)
    have hsel : Selects env jobs now w job s.id := (selects_iff hreached).mpr ⟨s, hs, rfl, hexpired⟩
    obtain ⟨j, hj, hp⟩ := h job hjob s.id hsel
    obtain rfl := hsel.unique hdist hjob (mem_reachedFirst hj).1 hp.mine
    have hbefore : j ∈ before := by
      have htake : reachedFirst now jobs <+: before := by
        rw [hsplit]
        unfold reachedFirst
        rw [List.takeWhile_append]
        split
        · rw [List.takeWhile_cons_of_neg (by simpa using hfirst), List.append_nil]
        · exact List.takeWhile_prefix _
      exact htake.subset hj
    have hnodup : jobs.Nodup := List.Nodup.of_map _ hdist
    rw [hsplit] at hnodup
    exact (List.nodup_append.mp hnodup).2.2 j hbefore j (List.mem_cons_of_mem _ hafter) rfl

end

end

/-- **The command and the passes agree** exactly if, of the jobs listed after one whose age limit
reaches back before the calendar, none has a snapshot that its policy gives up. -/
theorem prune_is_retention (env : Env) (jobs : List Job) (now : Datetime) (w : World)
    (hdist : Distinct jobs) (hw : FlatDir w) :
    Agrees env jobs now w ↔ Unhindered env jobs now w := by
  have hall : ∀ order, order.Perm jobs → Cleared (fun p => ∃ j ∈ jobs, Selects env jobs now w j p) w
      (w.after env (retentions env jobs now order)) := by
    intro order hperm
    have hnodup : order.Nodup := hperm.nodup_iff.mpr (List.Nodup.of_map _ hdist)
    refine (cleared_retentions hw hdist [] order (fun j hj => hperm.mem_iff.mp hj) hnodup
      (Cleared.of_same (fun p hp => ?_) fun _ _ => rfl)).congr fun p => ?_
    · obtain ⟨j, hj, -⟩ := hp
      exact List.not_mem_nil hj
    · simp only [List.nil_append, hperm.mem_iff]
  have hgone : ∀ {w' D s}, Cleared D w w' → (w.get .data (s ++ manifestSuffix)).isSome →
      (∀ p, D p → (w.get .data (p ++ manifestSuffix)).isSome) →
      (w'.get .data (s ++ manifestSuffix) = none ↔ D s) := by
    intro w' D s h hs hD
    constructor
    · intro hnone
      rcases h.shrink .data (s ++ manifestSuffix) with he | ⟨-, -, p, hp, hbegin⟩
      · rw [← he, hnone] at hs
        cases hs
      · rwa [← hw.begins_unique (hD p hp) (hw.engine s hs) hbegin (begins_manifest s)]
    · exact fun hp => h.gone s hp _ (begins_manifest s)
  have hthere : ∀ {js : List Job} {p}, (∃ j ∈ js, Selects env jobs now w j p) →
      (w.get .data (p ++ manifestSuffix)).isSome := by
    rintro js p ⟨j, -, hp⟩
    exact hp.there
  obtain ⟨-, hpruned⟩ := exec_prune env jobs now hw false
  obtain ⟨hlines, hdry⟩ := exec_prune env jobs now hw true
  rw [unhindered_iff hdist]
  constructor
  · intro h job hjob p hp
    have hsame := (h jobs (List.Perm.refl _)).1 .data (p ++ manifestSuffix)
    rw [(hgone (hall jobs (List.Perm.refl _)) hp.there fun _ => hthere).mpr ⟨job, hjob, hp⟩,
      hgone hpruned hp.there fun q hq => hthere hq.2] at hsame
    exact hsame.2
  · intro h order hperm
    have hiff : ∀ p, (∃ j ∈ reachedFirst now jobs, Selects env jobs now w j p) ↔
        ∃ j ∈ jobs, Selects env jobs now w j p := by
      intro p
      constructor
      · rintro ⟨j, hj, hp⟩
        exact ⟨j, (mem_reachedFirst hj).1, hp⟩
      · rintro ⟨j, hj, hp⟩
        exact h j hj p hp
    refine ⟨fun l k => ?_, fun l k => ?_, fun s => ?_⟩
    · refine (hpruned.congr fun p => ?_).unique (hall order hperm) l k
      rw [and_iff_right rfl, hiff]
    · exact hdry.same l k fun _ p hp => absurd hp.1 (by decide)
    · rw [hlines, hiff]
      constructor
      · exact fun hs => ⟨hthere hs, (hgone (hall order hperm) (hthere hs) fun _ => hthere).mpr hs⟩
      · rintro ⟨hs, hnone⟩
        exact (hgone (hall order hperm) hs fun _ => hthere).mp hnone

/-! ## two jobs, of which one keeps the newest snapshot, and one all of the last million days -/

def tidyMain : Job := { name := "main".toList, retention := newestOnly }

def hoarder : Job := { name := "old".toList, retention := millionDays }

def mainSnapshots : World :=
  worldOf [onlyManifest (dayBefore ++ "_main".toList), onlyManifest (today ++ "_main".toList)]

theorem flat_mainSnapshots : FlatDir mainSnapshots := by
  have hkeys : (mainSnapshots.files .data).keys = [dayBefore ++ "_main".toList ++ manifestSuffix,
      today ++ "_main".toList ++ manifestSuffix] := by decide +kernel
  have hkey : ∀ k, (mainSnapshots.get .data k).isSome →
      k = dayBefore ++ "_main".toList ++ manifestSuffix ∨ k = today ++ "_main".toList ++ manifestSuffix := by
    intro k hk
    have hmem : k ∈ (mainSnapshots.files .data).keys := AList.lookup_isSome.mp hk
    rwa [hkeys, List.mem_cons, List.mem_singleton] at hmem
  refine ⟨fun k hk => ?_, fun s hs => ?_⟩
  · rcases hkey k hk with rfl | rfl <;> decide +kernel
  · rcases hkey _ hs with he | he
    · rw [List.append_cancel_right he]
      exact ⟨⟨738999, 12 * 3600 * 1000000, by decide, by decide, by decide⟩, some "main".toList,
        by decide +kernel⟩
    · rw [List.append_cancel_right he]
      exact ⟨noon, some "main".toList, by decide +kernel⟩

theorem prune_is_retention_main : Agrees plainEnv [tidyMain, hoarder] noon mainSnapshots := by
  refine (prune_is_retention plainEnv [tidyMain, hoarder] noon mainSnapshots (by decide +kernel)
    flat_mainSnapshots).mpr fun before first after hsplit hfirst job hjob => ?_
  have hmain : InCalendar noon tidyMain := by decide
  match before, hsplit with
  | [], hsplit =>
    rw [(List.cons.inj hsplit).1] at hmain
    exact absurd hmain hfirst
  | [_], hsplit =>
    rw [← (List.cons.inj (List.cons.inj hsplit).2).2] at hjob
    cases hjob
  | _ :: _ :: before, hsplit =>
    have hlen := congrArg List.length hsplit
    simp only [List.length_cons, List.length_append, List.length_nil] at hlen
    omega

/-- **Where the command stops early**: the job that raises is listed first. -/
theorem prune_stops_early : Distinct [hoarder, tidyMain] ∧ FlatDir mainSnapshots ∧
    ¬ Agrees plainEnv [hoarder, tidyMain] noon mainSnapshots := by
  refine ⟨by decide +kernel, flat_mainSnapshots, fun h => ?_⟩
  have hsame := (h [hoarder, tidyMain] (List.Perm.refl _)).1 .data
    (dayBefore ++ "_main".toList ++ manifestSuffix)
  have hleft : ((mainSnapshots.after plainEnv (prune plainEnv [hoarder, tidyMain]
      ⟨none, false, none, noon⟩)).get .data (dayBefore ++ "_main".toList ++ manifestSuffix)).isSome = true := by
    decide +kernel
  have hgone : (mainSnapshots.after plainEnv (retentions plainEnv [hoarder, tidyMain] noon
      [hoarder, tidyMain])).get .data (dayBefore ++ "_main".toList ++ manifestSuffix) = none := by
    decide +kernel
  rw [hsame, hgone] at hleft
  cases hleft

end BackupHelper
