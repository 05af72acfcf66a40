import BackupHelper.RetentionPasses
import BackupHelper.Snapshots.Order

/-!
# Interrupted prunes and the passes after them

A pass finds a snapshot by its manifest and deletes the manifest first.  A pass that stops later on,
between the manifest and the last file of a snapshot, leaves files that no pass finds again; one that
stops anywhere else is completed by the next, as long as no snapshot leaves in between for which the
policy then keeps the one that was selected.

* `Absent`, `Whole`   without any file, and with its manifest or without any file;
* `Passes`            passes of a job and what happens between them, with the ids selected so far;
* `Tracks`            **the invariant**: what was selected is gone, or is selected again;
* `prune_completed`, `prune_abandoned`   the two cases.
-/

set_option linter.unusedSectionVars false

namespace BackupHelper
open Text Glob Effects Calendar Keep

section
variable {env : Env} {dest : Dest}

/-! ## where a pass stops -/

/-- no file of `p` is there -/
def Absent (env : Env) (dest : Dest) (w : World) (p : Str) : Prop :=
  ∀ k, p ++ ['.'] <+: k → dest.at env w k = none

/-- the manifest of `p` is there, or no file of `p` is -/
def Whole (env : Env) (dest : Dest) (w : World) (p : Str) : Prop :=
  (dest.at env w (p ++ manifestSuffix)).isSome ∨ Absent env dest w p

/-- the files of `p` are as they were -/
def Unmoved (env : Env) (dest : Dest) (w w' : World) (p : Str) : Prop :=
  ∀ k, p ++ ['.'] <+: k → dest.at env w' k = dest.at env w k

/-- the last operation was a deletion of a file of `p`, and it raised -/
def StoppedAt (dest : Dest) (p : Str) (w : World) : Prop :=
  ∃ key, p ++ ['.'] <+: key ∧ w.log.getLast? = some (.delete dest key, false)

theorem Absent.of_same {w w' : World} {p : Str} (h : Absent env dest w p)
    (hsame : Unmoved env dest w w' p) : Absent env dest w' p := by
  intro k hk
  rw [hsame k hk]
  exact h k hk

theorem Whole.of_same {w w' : World} {p : Str} (h : Whole env dest w p)
    (hsame : Unmoved env dest w w' p) : Whole env dest w' p := by
  refine h.imp (fun hs => ?_) fun hs => hs.of_same hsame
  rwa [hsame _ (begins_manifest p)]

theorem Whole.quiet {w w' : World} {p : Str} (h : Whole env dest w p) (hq : Quiet w w') :
    Whole env dest w' p :=
  h.of_same fun _ _ => hq.get _ _

/-- names of two different dotless ids are different -/
theorem begins_eq {p q key : Str} (hp : free '.' p) (hq : free '.' q) (hpk : p ++ ['.'] <+: key)
    (hqk : q ++ ['.'] <+: key) : p = q :=
  begins_unique hpk hqk (fun h => hq (h.subset (by simp))) fun h => hp (h.subset (by simp))

theorem wp_deleteKeys_stop (keys : List Str) (w : World) :
    (deleteKeys dest keys).wp env.step (fun _ _ => True) (fun r w' => r = .ok () ∨
      ∃ key ∈ keys, w'.log.getLast? = some (.delete dest key, false)) w := by
  induction keys generalizing w with
  | nil => exact Or.inl rfl
  | cons key keys ih =>
    have hone : (delete dest key).wp env.step (fun _ _ => True) (fun r w' =>
        ∀ e, r = .error e → w'.log.getLast? = some (.delete dest key, false)) w := by
      apply wp_delete
      intro r w' _ hlog
      refine ⟨trivial, ?_⟩
      rintro e rfl
      rw [hlog]
      exact List.getLast?_concat
    refine Prog.wp_seq hone fun r w₁ h => ?_
    cases r with
    | error e => exact Or.inr ⟨key, List.mem_cons_self, h e rfl⟩
    | ok u =>
      refine Prog.wp_post (ih w₁) fun r w' h => h.imp_right fun ⟨k, hk, hl⟩ => ?_
      exact ⟨k, List.mem_cons_of_mem _ hk, hl⟩

/-- an id after the other: what was settled stays so, but for the id at which a deletion raised -/
theorem wp_pruneIds_settled {D : Str → Prop} (hdot : ∀ p, D p → free '.' p) {ids : List Str}
    (hids : ∀ p ∈ ids, D p) {w : World} (hw : ∀ p, D p → Whole env dest w p) :
    (pruneIds dest ids).wp env.step (fun _ _ => True)
      (fun _ w' => ∀ p, D p → Whole env dest w' p ∨ StoppedAt dest p w') w := by
  induction ids generalizing w with
  | nil => exact fun p hp => Or.inl (hw p hp)
  | cons p ids ih =>
    have hp : D p := hids p List.mem_cons_self
    have hlist : (listKeys dest (p ++ ['.'])).wp env.step (fun _ _ => True)
        (fun r w' => Quiet w w' ∧ ∀ keys, r = .ok keys → keys = w.listing env dest (p ++ ['.'])) w :=
      wp_listKeys (fun _ _ => trivial) (fun e w' h => ⟨h, fun keys hk => by simp at hk⟩)
        (fun w' h => ⟨h, fun keys hk => (Except.ok.inj hk).symm⟩)
    refine Prog.wp_seq hlist fun r w₁ h => ?_
    obtain ⟨hq, hkeys⟩ := h
    cases r with
    | error e => exact fun q hq' => Or.inl ((hw q hq').quiet hq)
    | ok keys =>
      obtain rfl := hkeys keys rfl
      -- the other ids keep their files, and what was not listed is not there
      let I : World → Prop := fun w' => (∀ q, D q → q ≠ p → Whole env dest w' q) ∧
        ∀ k, p ++ ['.'] <+: k → k ∉ w.listing env dest (p ++ ['.']) → dest.at env w' k = none
      have hI : I w₁ := by
        refine ⟨fun q hq' _ => (hw q hq').quiet hq, fun k hk hnot => (hq.get _ _).trans ?_⟩
        by_contra hne
        exact hnot (World.mem_listing.mpr ⟨hk, Option.ne_none_iff_isSome.mp hne⟩)
      have hsorted : (w.listing env dest (p ++ ['.'])).Pairwise (· ≤ ·) := sorted_pairwise _
      have hdel := wp_deleteKeys (G := fun _ _ => True) (I := I) hsorted
        (fun key hkey w₂ r w₃ hI₂ _ hrem _ => by
          have hpk : p ++ ['.'] <+: key := (World.mem_listing.mp hkey).1
          refine ⟨trivial, fun q hq' hne => (hI₂.1 q hq' hne).of_same fun k hk => ?_,
            fun k hk hl => hrem.at_mono (hI₂.2 k hk hl)⟩
          refine hrem.other _ _ fun he => hne ?_
          rw [List.append_cancel_left (Prod.mk.inj he).2] at hk
          exact begins_eq (hdot q hq') (hdot p hp) hk hpk) hI
      refine Prog.wp_seq (Prog.wp_mono (Prog.wp_and hdel (wp_deleteKeys_stop _ w₁))
        (fun _ _ _ => trivial) fun _ _ h => h) fun r w₂ h => ?_
      obtain ⟨⟨⟨hother, hrest⟩, hdone⟩, hstop⟩ := h
      cases r with
      | error e =>
        obtain ⟨key, hkey, hlast⟩ := hstop.resolve_left (by simp)
        intro q hq'
        by_cases hne : q = p
        · subst hne
          exact Or.inr ⟨key, (World.mem_listing.mp hkey).1, hlast⟩
        · exact Or.inl (hother q hq' hne)
      | ok u =>
        refine ih (fun q hq' => hids q (List.mem_cons_of_mem _ hq')) fun q hq' => ?_
        by_cases hne : q = p
        · subst hne
          refine Or.inr fun k hk => ?_
          by_cases hl : k ∈ w.listing env dest (q ++ ['.'])
          · exact hdone rfl k hl
          · exact hrest k hk hl
        · exact hother q hq' hne

/-! ## one pass -/

/-- the pass of a run over a spot -/
def Spot.pass (env : Env) (job : Job) (now : Datetime) (scope : SnapshotScope) :
    Spot → M (List Str)
  | .own dest => applyRetention env job.retention now scope none dest
  | .fallback => fallbackRetention env job now scope (some .local)

variable {job : Job} {now : Datetime} {scope : SnapshotScope}

/-- `p` is among the ids that the pass at `now` from `w` selects -/
def Selected (env : Env) (job : Job) (scope : SnapshotScope) (spot : Spot) (now : Datetime) (w : World)
    (p : Str) : Prop :=
  ∃ out, w.prunable env spot.dest job.retention now scope (spot.only job.name w) = .ok out ∧ p ∈ out

theorem Passed.of_quiet {cfg : RetentionConfig} {only : Option (List Str)} {w₀ w w' : World}
    {errors : List Str} (h : Passed env dest cfg now scope only w errors w') (hq : Quiet w₀ w) :
    Passed env dest cfg now scope only w₀ errors w' := by
  have hat : ∀ k, dest.at env w k = dest.at env w₀ k := fun k => hq.get _ _
  have hmarked : w.markedAt dest = w₀.markedAt dest := by
    unfold World.markedAt
    rw [hq.pending]
  have hmine : w.mine env dest scope only = w₀.mine env dest scope only := by
    unfold World.mine World.ids World.listing
    rw [hmarked, hq.same]
  have hpr : w.prunable env dest cfg now scope only = w₀.prunable env dest cfg now scope only := by
    unfold World.prunable
    rw [hmine]
  obtain ⟨h1, h2, h3, h4⟩ := h
  refine ⟨fun k => ?_, fun k hk => ?_, fun he => ?_, fun hdot s hs hsome => ?_⟩
  · rw [← hat]
    exact h1 k
  · rw [← hat]
    exact h2 k (by rwa [hpr])
  · rw [← hpr]
    exact h3 he
  · rw [← hmarked]
    exact h4 (by rwa [hmine]) s hs hsome

theorem wp_applyRetention_settled {cfg : RetentionConfig} {only : Option (List Str)}
    {D : Str → Prop} (hdot : ∀ p, D p → free '.' p) {w : World}
    (hsel : ∀ out, w.prunable env dest cfg now scope only = .ok out → ∀ p ∈ out, D p)
    (hw : ∀ p, D p → Whole env dest w p) :
    (applyRetention env cfg now scope only dest).wp env.step (fun _ _ => True)
      (fun _ w' => ∀ p, D p → Whole env dest w' p ∨ StoppedAt dest p w') w := by
  have hpass : (retentionPass env dest cfg now scope only).wp env.step (fun _ _ => True)
      (fun _ w' => ∀ p, D p → Whole env dest w' p ∨ StoppedAt dest p w') w := by
    refine wp_retentionPass_of (fun _ _ _ => trivial)
      (fun e w' hq p hp => Or.inl ((hw p hp).quiet hq)) fun out w' hout hq => ?_
    refine wp_pruneIds_settled hdot (fun p hp => ?_) fun p hp => (hw p hp).quiet hq
    exact hsel out hout p ((env.iter_perm out).mem_iff.mp hp)
  refine Prog.wp_seq hpass fun r w' h => ?_
  cases r with
  | ok u => exact h
  | error e => exact h

/-- **One pass over a spot**, whatever calls fail. -/
theorem Spot.wp_pass (spot : Spot) {D : Str → Prop} (hdot : ∀ p, D p → free '.' p) {w : World}
    (hsel : ∀ p, Selected env job scope spot now w p → D p)
    (hw : ∀ p, D p → Whole env spot.dest w p) :
    (spot.pass env job now scope).wp env.step (fun _ _ => True) (fun errors w' =>
      Passed env spot.dest job.retention now scope (spot.only job.name w) w errors w' ∧
        ∀ p, D p → Whole env spot.dest w' p ∨ StoppedAt spot.dest p w') w := by
  have hboth : ∀ w₁, Quiet w w₁ → (applyRetention env job.retention now scope (spot.only job.name w)
      spot.dest).wp env.step (fun _ _ => True) (fun errors w' =>
        Passed env spot.dest job.retention now scope (spot.only job.name w) w errors w' ∧
          ∀ p, D p → Whole env spot.dest w' p ∨ StoppedAt spot.dest p w') w₁ := by
    intro w₁ hq
    have hpr : ∀ only, w₁.prunable env spot.dest job.retention now scope only =
        w.prunable env spot.dest job.retention now scope only := by
      intro only
      unfold World.prunable World.mine World.markedAt World.ids World.listing
      rw [hq.pending, hq.same]
    refine Prog.wp_mono (Prog.wp_and (BackupHelper.wp_pass env spot.dest job.retention now scope
      (spot.only job.name w) w₁) (wp_applyRetention_settled hdot (fun out hout p hp => ?_)
        fun p hp => (hw p hp).quiet hq)) (fun _ _ _ => trivial)
      fun errors w' h => ⟨h.1.of_quiet hq, h.2⟩
    exact hsel p ⟨out, by rw [← hpr]; exact hout, hp⟩
  cases spot with
  | own dest => exact hboth w (Quiet.refl w)
  | fallback =>
    refine Prog.wp_seq (wp_pendingIds (fun _ _ _ => trivial) job.name w) fun ids w₁ hids => ?_
    obtain ⟨hq, rfl⟩ := hids
    exact hboth w₁ hq

/-! ## passes, and what happens between them -/

variable (env job scope) in
/-- passes of `job` over a spot: the snapshots that were ever there, the ids that a pass selected and
that did not arrive again since, the time of the last pass, and the state. -/
inductive Passes (spot : Spot) : Finset Str → (Str → Prop) → Datetime → World → Prop
  | start (now : Datetime) (w : World) :
      Passes spot (ofList (w.at_ env scope job.name spot)) (fun _ => False) now w
  /-- snapshots arrive and go.  The files of a selected one stay as they are or all go; and while one
  of these is left, a snapshot that goes is one that a pass would have selected. -/
  | between {H D now w} (w' : World) (D' : Str → Prop) (h : Passes spot H D now w)
      (hfiles : ∀ p, D' p → D p ∧ (Unmoved env spot.dest w w' p ∨ Absent env spot.dest w' p))
      (hleave : (∀ p, D' p → Absent env spot.dest w' p) ∨
        ∀ s ∈ w.at_ env scope job.name spot, ¬ Selected env job scope spot now w s →
          s ∈ w'.at_ env scope job.name spot) :
      Passes spot (H ∪ ofList (w'.at_ env scope job.name spot)) D' now w'
  /-- a pass may fail at any call but a deletion that takes the manifest of a snapshot and leaves
  other files of it -/
  | pass {H D now w} (now' : Datetime) (faults : List Fault) (h : Passes spot H D now w)
      (hnow : now.Upto now')
      (hstop : ∀ p, free '.' p →
        StoppedAt spot.dest p ((spot.pass env job now' scope).exec env.step .calm faults w).2 →
        Whole env spot.dest ((spot.pass env job now' scope).exec env.step .calm faults w).2 p) :
      Passes spot H (fun p => D p ∨ Selected env job scope spot now' w p) now'
        ((spot.pass env job now' scope).exec env.step .calm faults w).2

/-- when an engine id was taken -/
def startOf (sid : Str) : Datetime := takenAt noon sid

theorem Engine.startOf {s : Str} (h : Engine s) : (parseSnapshotId s).1 = some (startOf s) := by
  obtain ⟨t, ht, -⟩ := h.named
  unfold BackupHelper.startOf takenAt parseSnapshotTimestamp
  rw [ht]
  rfl

theorem Engine.dotless {s : Str} (h : Engine s) : free '.' s := parseSnapshotId_free h.startOf

section
variable {spot : Spot} {H : Finset Str} {D : Str → Prop} {w : World}

theorem downward_engine (hengine : ∀ s ∈ H, Engine s) (cfg : RetentionConfig) (now : Datetime) :
    Downward (Old startOf cfg now) H := by
  rintro x hx y hy hxy ⟨h0, cutoff, hc, hb⟩
  have hx' := hengine x hx
  have hy' := hengine y hy
  exact ⟨h0, cutoff, hc, (engine_upto hx' hy' hxy hx'.startOf hy'.startOf).before hb⟩

/-- the selection of a pass, by the times of the ids -/
theorem selected_iff (hengine : ∀ s ∈ w.at_ env scope job.name spot, Engine s) {out : List Str}
    (hout : w.prunable env spot.dest job.retention now scope (spot.only job.name w) = .ok out)
    (p : Str) : p ∈ out ↔ p ∈ w.at_ env scope job.name spot ∧
      ¬ Kept (policyOf startOf job.retention) (Old startOf job.retention now)
        (ofList (w.at_ env scope job.name spot)) p := by
  have hsnaps : snapshotsAt now (w.at_ env scope job.name spot) =
      (w.at_ env scope job.name spot).map (snapAt startOf) := by
    refine List.map_congr_left fun s hs => ?_
    unfold snapAt parseSnapshotTimestamp
    rw [(hengine s hs).startOf]
    rfl
  have hout' : selectPrunable (snapshotsAt now (w.at_ env scope job.name spot)) job.retention now =
      .ok out := hout
  rw [hsnaps] at hout'
  exact mem_selectPrunable startOf (mine_nodup _ _ _ _) hout' p

/-- whether a pass looks at a snapshot is a matter of its files -/
theorem Unmoved.mem_at {w w' : World} {p : Str} (h : Unmoved env spot.dest w w' p) :
    p ∈ w'.at_ env scope job.name spot ↔ p ∈ w.at_ env scope job.name spot := by
  rw [BackupHelper.mem_at, BackupHelper.mem_at, h _ (begins_manifest p)]
  refine and_congr_right fun hp => ?_
  rw [lookup_markedAt hp.1, lookup_markedAt hp.1]
  cases hdest : spot.dest with
  | s3 c => rfl
  | «local» =>
    have hmark := h _ (begins_pending p)
    rw [hdest] at hmark
    have howner : w'.owner (p ++ pendingSuffix) = w.owner (p ++ pendingSuffix) := by
      unfold World.owner
      rw [show w'.get .data (p ++ pendingSuffix) = w.get .data (p ++ pendingSuffix) from hmark]
    rw [howner]

variable (env job scope) in
/-- an id that was selected and is there: it stays selected until it is gone -/
structure Outstanding (spot : Spot) (H : Finset Str) (now : Datetime) (w : World) (p : Str) : Prop where
  mem : p ∈ H
  left : ¬ Kept (policyOf startOf job.retention) (Old startOf job.retention now) H p
  here : p ∈ w.at_ env scope job.name spot

variable (env job scope) in
/-- what is there is the history `H` pruned, and what was selected is gone or outstanding -/
structure Tracks (spot : Spot) (H : Finset Str) (D : Str → Prop) (now : Datetime) (w : World) :
    Prop where
  pruned : Pruned (policyOf startOf job.retention) (Old startOf job.retention now) H
    (ofList (w.at_ env scope job.name spot))
  dotless : ∀ p, D p → free '.' p
  outstanding : ∀ p, D p →
    Absent env spot.dest w p ∨ Outstanding env job scope spot H now w p

theorem Outstanding.whole {p : Str} (h : Outstanding env job scope spot H now w p) :
    Whole env spot.dest w p :=
  Or.inl (BackupHelper.mem_at.mp h.here).1.2

section
variable (h : Tracks env job scope spot H D now w) (hengine : ∀ s ∈ H, Engine s)
include h hengine

theorem Tracks.engine : ∀ s ∈ w.at_ env scope job.name spot, Engine s :=
  fun s hs => hengine s (h.pruned.sub (mem_ofList.mpr hs))

/-- what a pass keeps of the snapshots there, it keeps of the history -/
theorem Tracks.kept_iff {now' : Datetime} (hnow : now.Upto now') (p : Str) :
    Kept (policyOf startOf job.retention) (Old startOf job.retention now')
        (ofList (w.at_ env scope job.name spot)) p ↔
      Kept (policyOf startOf job.retention) (Old startOf job.retention now') H p := by
  refine Kept.between (downward_engine hengine _ _) h.pruned.sub (fun x hx => ?_) p
  exact h.pruned.kept x (hx.anti subset_rfl hx.1 fun y hy => hy.mono startOf hnow)

/-- what the policy keeps of the history is not selected -/
theorem Tracks.not_selected {p : Str}
    (hk : Kept (policyOf startOf job.retention) (Old startOf job.retention now) H p) :
    ¬ Selected env job scope spot now w p := by
  intro hp
  obtain ⟨out, hout, hp⟩ := hp
  have hnot := ((selected_iff (h.engine hengine) hout p).mp hp).2
  rw [h.kept_iff hengine (Datetime.Upto.refl now)] at hnot
  exact hnot hk

theorem Tracks.selected {now' : Datetime} (hnow : now.Upto now') {p : Str}
    (hp : Selected env job scope spot now' w p) : Outstanding env job scope spot H now' w p := by
  obtain ⟨out, hout, hp⟩ := hp
  obtain ⟨hmem, hnot⟩ := (selected_iff (h.engine hengine) hout p).mp hp
  rw [h.kept_iff hengine hnow] at hnot
  exact ⟨h.pruned.sub (mem_ofList.mpr hmem), hnot, hmem⟩

/-- what was selected by now is gone or outstanding at any later time -/
theorem Tracks.later {now' : Datetime} (hnow : now.Upto now') {p : Str}
    (hp : D p ∨ Selected env job scope spot now' w p) :
    Absent env spot.dest w p ∨ Outstanding env job scope spot H now' w p := by
  rcases hp with hp | hp
  · refine (h.outstanding p hp).imp_right fun hout => ⟨hout.mem, fun hk => hout.left ?_, hout.here⟩
    exact hk.anti subset_rfl hout.mem fun y hy => hy.mono startOf hnow
  · exact Or.inr (h.selected hengine hnow hp)

theorem Tracks.dotless_later {now' : Datetime} (hnow : now.Upto now') {p : Str}
    (hp : D p ∨ Selected env job scope spot now' w p) : free '.' p :=
  hp.elim (h.dotless p) fun hp => (hengine p (h.selected hengine hnow hp).mem).dotless

theorem Tracks.whole_later {now' : Datetime} (hnow : now.Upto now') {p : Str}
    (hp : D p ∨ Selected env job scope spot now' w p) : Whole env spot.dest w p :=
  (h.later hengine hnow hp).elim Or.inr Outstanding.whole

/-- **The invariant over one pass** -/
theorem Tracks.pass {now' : Datetime} (hnow : now.Upto now') {errors : List Str} {w' : World}
    (hpass : Passed env spot.dest job.retention now' scope (spot.only job.name w) w errors w')
    (hwhole : ∀ p, D p ∨ Selected env job scope spot now' w p → Whole env spot.dest w' p) :
    Tracks env job scope spot H (fun p => D p ∨ Selected env job scope spot now' w p) now' w' := by
  have heng := h.engine hengine
  have hdot : ∀ s ∈ w.at_ env scope job.name spot, free '.' s := fun s hs => (heng s hs).dotless
  refine ⟨?_, fun p hp => h.dotless_later hengine hnow hp, fun p hp => ?_⟩
  · refine h.pruned.step (fun s hs => hs.mono startOf hnow) (downward_engine hengine _ _)
      (fun s hs => mem_ofList.mpr (hpass.sub job.name spot hdot (mem_ofList.mp hs))) fun s hs hk => ?_
    refine mem_ofList.mpr (hpass.kept job.name spot hdot (mem_ofList.mp hs) fun out hout hp => ?_)
    exact ((selected_iff heng hout s).mp hp).2 hk
  · rcases h.later hengine hnow hp with hgone | hout
    · exact Or.inl fun k hk => (hpass.shrink k).elim (fun he => he.trans (hgone k hk)) id
    · refine (hwhole p hp).symm.imp_right fun hsome => ⟨hout.mem, hout.left, ?_⟩
      exact (hpass.mem_iff job.name spot hdot).mpr ⟨hout.here, hsome⟩

/-- **The invariant over what happens between passes**, while a selected snapshot is left -/
theorem Tracks.between {w' : World} {D' : Str → Prop}
    (hfiles : ∀ p, D' p → D p ∧ (Unmoved env spot.dest w w' p ∨ Absent env spot.dest w' p))
    (hleave : ∀ s ∈ w.at_ env scope job.name spot, ¬ Selected env job scope spot now w s →
      s ∈ w'.at_ env scope job.name spot) :
    Tracks env job scope spot (H ∪ ofList (w'.at_ env scope job.name spot)) D' now w' := by
  refine ⟨⟨Finset.subset_union_right, fun x hx => ?_⟩, fun p hp => h.dotless p (hfiles p hp).1,
    fun p hp => ?_⟩
  · rcases Finset.mem_union.mp hx.1 with hxH | hxw
    · have hk := hx.anti Finset.subset_union_left hxH fun _ => id
      exact mem_ofList.mpr (hleave x (mem_ofList.mp (h.pruned.kept x hk)) (h.not_selected hengine hk))
    · exact hxw
  · obtain ⟨hD, hsame | hgone⟩ := hfiles p hp
    · refine (h.outstanding p hD).imp (fun hgone => hgone.of_same hsame) fun hout => ?_
      refine ⟨Finset.mem_union_left _ hout.mem, fun hk => hout.left ?_, hsame.mem_at.mpr hout.here⟩
      exact hk.anti Finset.subset_union_left hout.mem fun _ => id
    · exact Or.inl hgone

end

/-- **The invariant over a sequence of passes**, for a history of snapshots that were there -/
theorem Passes.tracks (h : Passes env job scope spot H D now w) (hengine : ∀ s ∈ H, Engine s) :
    ∃ H' ⊆ H, Tracks env job scope spot H' D now w := by
  induction h with
  | start now w => exact ⟨_, subset_rfl, ⟨subset_rfl, fun x hx => hx.1⟩, fun p hp => hp.elim,
      fun p hp => hp.elim⟩
  | @between H D now w w' D' h hfiles hleave ih =>
    obtain ⟨H', hH', ht⟩ := ih fun s hs => hengine s (Finset.mem_union_left _ hs)
    have heng : ∀ s ∈ H', Engine s := fun s hs => hengine s (Finset.mem_union_left _ (hH' hs))
    rcases hleave with hgone | hleave
    · -- nothing is outstanding, and a new history begins
      exact ⟨_, Finset.subset_union_right, ⟨subset_rfl, fun x hx => hx.1⟩,
        fun p hp => ht.dotless p (hfiles p hp).1, fun p hp => Or.inl (hgone p hp)⟩
    · exact ⟨_, Finset.union_subset_union_left hH', ht.between heng hfiles hleave⟩
  | @pass H D now w now' faults h hnow hstop ih =>
    obtain ⟨H', hH', ht⟩ := ih hengine
    have heng : ∀ s ∈ H', Engine s := fun s hs => hengine s (hH' hs)
    have hdot : ∀ p, D p ∨ Selected env job scope spot now' w p → free '.' p := fun p hp =>
      ht.dotless_later heng hnow hp
    obtain ⟨hpass, hend⟩ := ((Prog.wp_iff_exec .calm _ _ _).mp (spot.wp_pass hdot
      (fun p hp => Or.inr hp) fun p hp => ht.whole_later heng hnow hp) faults).2
    refine ⟨H', hH', ht.pass heng hnow hpass fun p hp => ?_⟩
    exact (hend p hp).elim id fun hs => hstop p (hdot p hp) hs

end

/-- **A prune that stopped is completed by the next pass**, unless it stopped between the manifest
and the last file of a snapshot, or a snapshot left for which the policy then keeps a selected one:
after a pass without error no file is left of any id that it or an earlier pass selected, and that
did not arrive again since. -/
theorem prune_completed {spot : Spot} {H : Finset Str} {D : Str → Prop} {w : World}
    (h : Passes env job scope spot H D now w) (hengine : ∀ s ∈ H, Engine s) {last : Datetime}
    (hlast : now.Upto last) :
    (spot.pass env job last scope).wp env.step (fun _ _ => True) (fun errors w' => errors = [] →
      ∀ p, D p ∨ Selected env job scope spot last w p →
        ∀ k, p ++ ['.'] <+: k → spot.dest.at env w' k = none) w := by
  obtain ⟨H', hH', ht⟩ := h.tracks hengine
  have heng : ∀ s ∈ H', Engine s := fun s hs => hengine s (hH' hs)
  refine Prog.wp_post (spot.wp_pass (D := fun p => D p ∨ Selected env job scope spot last w p)
    (fun p hp => ht.dotless_later heng hlast hp) (fun p hp => Or.inr hp)
    fun p hp => ht.whole_later heng hlast hp) fun errors w' hw he p hp k hk => ?_
  obtain ⟨out, hout, hgone⟩ := hw.1.complete he
  rcases ht.later heng hlast hp with hno | hstill
  · exact (hw.1.shrink k).elim (fun he => he.trans (hno k hk)) id
  · -- the pass sees its manifest and selects it again
    refine hgone p ((selected_iff (ht.engine heng) hout p).mpr ⟨hstill.here, ?_⟩) k hk
    rw [ht.kept_iff heng hlast]
    exact hstill.left

/-! ## two snapshots, of which the policy keeps the newer one -/

def tidyJob : Job := { retention := newestOnly }

def twoSnapshots : World :=
  worldOf [onlyManifest dayBefore, (dayBefore ++ tarSuffix, .raw [4, 5]), onlyManifest today,
    (today ++ tarSuffix, .raw [6, 7])]

/-- the state after a pass under the faults `fs` -/
def prunedOnce (fs : List Fault) : List Str × World :=
  ((Spot.own .local).pass plainEnv tidyJob noon { job := tidyJob.name }).exec plainEnv.step .calm fs
    twoSnapshots

/-- a call that fails without effect -/
def failed : Fault := .raise ⟨"OSError".toList, "Input/output error".toList⟩ .untouched

/-- the deletion of the manifest fails -/
def earlyStop : List Fault := [.calm, .calm, .calm, failed]

/-- the deletion after that of the manifest fails -/
def lateStop : List Fault := [.calm, .calm, .calm, .calm, failed]

/-- the file whose deletion the state was left at -/
def stopKey (w : World) : Option Str :=
  match w.log.getLast? with
  | some (.delete _ key, false) => some key
  | _ => none

theorem passes_earlyStop :
    Passes plainEnv tidyJob { job := tidyJob.name } (.own .local)
      (ofList (twoSnapshots.at_ plainEnv { job := tidyJob.name } tidyJob.name (.own .local)))
      (fun p => False ∨ Selected plainEnv tidyJob { job := tidyJob.name } (.own .local) noon
        twoSnapshots p) noon (prunedOnce earlyStop).2 := by
  refine (Passes.start noon twoSnapshots).pass noon earlyStop (Datetime.Upto.refl noon) ?_
  rintro p hp ⟨key, hkey, hlast⟩
  have hstop : stopKey (prunedOnce earlyStop).2 = some (dayBefore ++ manifestSuffix) := by decide +kernel
  unfold stopKey at hstop
  rw [show (prunedOnce earlyStop).2.log.getLast? = _ from hlast] at hstop
  have hname : key = dayBefore ++ manifestSuffix := Option.some.inj hstop
  rw [hname] at hkey
  obtain rfl := begins_eq hp (by decide) hkey (begins_manifest dayBefore)
  have hthere : ((Spot.own .local).dest.at plainEnv (prunedOnce earlyStop).2
      (dayBefore ++ manifestSuffix)).isSome = true := by decide +kernel
  exact Or.inl hthere

theorem prune_completed_earlyStop :
    ((Spot.own .local).pass plainEnv tidyJob noon { job := tidyJob.name }).wp plainEnv.step
      (fun _ _ => True) (fun errors w' => errors = [] → ∀ p,
        (False ∨ Selected plainEnv tidyJob { job := tidyJob.name } (.own .local) noon twoSnapshots p) ∨
          Selected plainEnv tidyJob { job := tidyJob.name } (.own .local) noon
            (prunedOnce earlyStop).2 p →
        ∀ k, p ++ ['.'] <+: k → (Spot.own .local).dest.at plainEnv w' k = none)
      (prunedOnce earlyStop).2 := by
  refine prune_completed passes_earlyStop (fun s hs => ?_) (Datetime.Upto.refl noon)
  have hids : twoSnapshots.at_ plainEnv { job := tidyJob.name } tidyJob.name (.own .local) =
      [dayBefore, today] := by decide +kernel
  rw [mem_ofList, hids] at hs
  rcases List.mem_cons.mp hs with rfl | hs
  · exact ⟨⟨738999, 12 * 3600 * 1000000, by decide, by decide, by decide⟩, none, by decide +kernel⟩
  · rw [List.mem_singleton.mp hs]
    exact ⟨noon, none, by decide +kernel⟩

def nearStore : S3Spec := ⟨"https://near".toList, "backups".toList, []⟩

def droppingJob : Job :=
  { destinations := [.local, .s3 nearStore], keepLocal := false, retention := newestOnly }

/-- the pass after `w` that no call fails -/
def nextPass (w : World) : List Str × World :=
  ((Spot.own .local).pass plainEnv tidyJob noon { job := tidyJob.name }).exec plainEnv.step .calm [] w

/-- after the early stop, the local copy of the newer one is dropped: another destination stored it -/
def droppedNewer : World :=
  ((maybeDropLocal droppingJob (today ++ tarSuffix) today [.local, .s3 nearStore]).exec
    plainEnv.step .calm [] (prunedOnce earlyStop).2).2

/-- **Where a prune is abandoned**: the manifest is gone when the pass stops, or the newer snapshot
leaves after it; the next pass ends without error and leaves the archive. -/
theorem prune_abandoned :
    twoSnapshots.prunable plainEnv .local newestOnly noon { job := tidyJob.name } none = .ok [dayBefore] ∧
      ((nextPass (prunedOnce lateStop).2).1 = [] ∧
        (nextPass (prunedOnce lateStop).2).2.get .data (dayBefore ++ tarSuffix) = some (.raw [4, 5])) ∧
      (nextPass droppedNewer).1 = [] ∧
        (nextPass droppedNewer).2.get .data (dayBefore ++ tarSuffix) = some (.raw [4, 5]) := by
  decide +kernel

end
end BackupHelper
