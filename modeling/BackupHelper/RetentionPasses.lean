import BackupHelper.Runner.Names

/-!
# Passes of retention over one destination

A pass deletes only files of snapshots that it selects, and one that completes deletes all of them
(`Passed`).  Applied run by run, with passes skipped, failed or stopped half-way, retention leaves
what one pass over the full history leaves.

* `History`                 snapshots that arrive, and passes under any faults;
* `retention_run_by_run`    the final pass, and what no earlier pass removed.

The invariant is `Keep.Pruned`: what is there lies between the kept part of the history and the
history, and `Keep.Kept.between` says that such a set has the same kept part.
-/

set_option linter.unusedSectionVars false

namespace BackupHelper
open Text Glob Effects Calendar Keep

/-- whose snapshots a pass prunes: the job's own on a destination, or in the data dir, where it only
stood in, those that a pending marker of the job names -/
inductive Spot where
  | own (dest : Dest)
  | fallback

def Spot.dest : Spot → Dest
  | .own dest => dest
  | .fallback => .local

def Spot.only (spot : Spot) (jobName : Str) (w : World) : Option (List Str) :=
  match spot with
  | .own _ => none
  | .fallback => some (w.pendingOf jobName)

/-- the snapshots that a pass looks at -/
def World.at_ (w : World) (env : Env) (scope : SnapshotScope) (jobName : Str) (spot : Spot) :
    List Str :=
  w.mine env spot.dest scope (spot.only jobName w)

/-- whether a pass looks at the snapshot `s`, whose marker names `m` -/
def Spot.takes (spot : Spot) (scope : SnapshotScope) (jobName s : Str) (m : Option Str) : Bool :=
  match spot with
  | .own dest => scope.owns s (place dest) m
  | .fallback => m = some jobName

section
variable {env : Env} {dest : Dest} {cfg : RetentionConfig} {now : Datetime} {scope : SnapshotScope}

/-! ## one pass -/

theorem mem_at {w : World} {jobName s : Str} {spot : Spot} :
    s ∈ w.at_ env scope jobName spot ↔
      (free '/' s ∧ (spot.dest.at env w (s ++ manifestSuffix)).isSome) ∧
        spot.takes scope jobName s ((w.markedAt spot.dest).lookup s) = true := by
  cases spot with
  | own dest => exact mem_mine
  | fallback =>
    show s ∈ (w.ids env .local).filter (fun s => decide (s ∈ w.pendingOf jobName)) ↔ _
    rw [List.mem_filter, mem_ids, decide_eq_true_eq]
    refine and_congr_right fun hs => ?_
    rw [lookup_markedAt hs.1, mem_pendingOf]
    show _ ↔ decide (_ = _) = true
    rw [decide_eq_true_eq]
    exact ⟨fun h => h.2, fun h => ⟨hs.1, h⟩⟩

/-- what a pass from `w` to `w'` does to the files of the destination -/
structure Passed (env : Env) (dest : Dest) (cfg : RetentionConfig) (now : Datetime)
    (scope : SnapshotScope) (only : Option (List Str)) (w : World) (errors : List Str) (w' : World) :
    Prop where
  shrink : ∀ k, dest.at env w' k = dest.at env w k ∨ dest.at env w' k = none
  same : ∀ k, (∀ out, w.prunable env dest cfg now scope only = .ok out →
    ∀ p ∈ out, ¬ p ++ ['.'] <+: k) → dest.at env w' k = dest.at env w k
  complete : errors = [] → ∃ out, w.prunable env dest cfg now scope only = .ok out ∧
    ∀ p ∈ out, ∀ k, p ++ ['.'] <+: k → dest.at env w' k = none
  /-- a marker goes after its manifest -/
  marked : (∀ s ∈ w.mine env dest scope only, free '.' s) → ∀ s, free '/' s →
    (dest.at env w' (s ++ manifestSuffix)).isSome →
    (w'.markedAt dest).lookup s = (w.markedAt dest).lookup s

theorem mem_prunable_mine {only : Option (List Str)} {w : World} {out : List Str}
    (h : w.prunable env dest cfg now scope only = .ok out) {p : Str} (hp : p ∈ out) :
    p ∈ w.mine env dest scope only :=
  ((mem_prunable h p).mp hp).1

/-- **One pass**, whatever calls fail. -/
theorem wp_pass (env : Env) (dest : Dest) (cfg : RetentionConfig) (now : Datetime)
    (scope : SnapshotScope) (only : Option (List Str)) (w : World) :
    (applyRetention env cfg now scope only dest).wp env.step (fun _ _ => True)
      (Passed env dest cfg now scope only w) w := by
  let I : World → Prop := fun w' =>
    (∀ k, dest.at env w' k = dest.at env w k ∨ dest.at env w' k = none) ∧
    (∀ k, (∀ out, w.prunable env dest cfg now scope only = .ok out →
      ∀ p ∈ out, ¬ p ++ ['.'] <+: k) → dest.at env w' k = dest.at env w k) ∧
    ((∀ s ∈ w.mine env dest scope only, free '.' s) → ∀ s, free '/' s →
      (dest.at env w' (s ++ manifestSuffix)).isSome →
      (w'.markedAt dest).lookup s = (w.markedAt dest).lookup s)
  have hI : ∀ w₁ w₂, Quiet w₁ w₂ → I w₁ → I w₂ := by
    rintro w₁ w₂ hq ⟨h1, h2, h3⟩
    have hat : ∀ k, dest.at env w₂ k = dest.at env w₁ k := fun k => hq.get _ _
    refine ⟨fun k => ?_, fun k hk => ?_, fun hdot s hs hsome => ?_⟩
    · rw [hat]
      exact h1 k
    · rw [hat]
      exact h2 k hk
    · rw [hat] at hsome
      rw [← h3 hdot s hs hsome]
      unfold World.markedAt
      rw [hq.pending]
  have hw : I w := ⟨fun k => Or.inl rfl, fun k _ => rfl, fun _ s _ _ => rfl⟩
  refine Prog.wp_post (wp_applyRetention (fun _ _ _ => trivial) hI ?_ hw) fun errors w' h => ?_
  · rintro out hout p hp key hkey w₁ r w₂ ⟨h1, h2, h3⟩ hsmall hrem -
    have hother : ∀ {k}, k ≠ key → dest.at env w₂ k = dest.at env w₁ k := fun hk =>
      hrem.other _ _ fun e => hk (List.append_cancel_left (Prod.mk.inj e).2)
    refine ⟨trivial, fun k => ?_, fun k hk => ?_, fun hdot s hs hsome => ?_⟩
    · by_cases he : k = key
      · rw [he]
        rcases hrem.here with hh | hh
        · rw [show dest.at env w₂ key = dest.at env w₁ key from hh]
          exact h1 key
        · exact Or.inr hh
      · rw [hother he]
        exact h1 k
    · rw [← h2 k hk]
      exact hother fun he => hk out hout p hp (he ▸ hkey)
    · have hpdot : free '.' p := hdot p (mem_prunable_mine hout hp)
      have hsome₁ : (dest.at env w₁ (s ++ manifestSuffix)).isSome := by
        by_contra hn
        rw [hrem.at_mono (Option.not_isSome_iff_eq_none.mp hn)] at hsome
        simp at hsome
      rw [← h3 hdot s hs hsome₁, lookup_markedAt hs, lookup_markedAt hs]
      cases dest with
      | s3 c => simp
      | «local» =>
        rw [if_pos rfl, if_pos rfl]
        have hne : s ++ pendingSuffix ≠ key := by
          rintro rfl
          rcases dot_begins_pending hkey with hman | rfl
          · -- the manifest was deleted before
            rw [hsmall _ hman (manifest_lt_pending s)] at hsome₁
            simp at hsome₁
          · exact hpdot (List.mem_append_right s (by decide))
        unfold World.owner
        rw [hrem.other .data (s ++ pendingSuffix) fun e => hne (Prod.mk.inj e).2]
  · obtain ⟨⟨h1, h2, h3⟩, hdone⟩ := h
    exact ⟨h1, h2, hdone, h3⟩

section
variable {w w' : World} {errors : List Str} (jobName : Str) (spot : Spot)
  (h : Passed env spot.dest cfg now scope (spot.only jobName w) w errors w')
  (hdot : ∀ s ∈ w.at_ env scope jobName spot, free '.' s)
include h hdot

/-- a pass leaves the snapshots whose manifests it leaves -/
theorem Passed.mem_iff {s : Str} : s ∈ w'.at_ env scope jobName spot ↔
    s ∈ w.at_ env scope jobName spot ∧ (spot.dest.at env w' (s ++ manifestSuffix)).isSome := by
  rw [mem_at, mem_at]
  constructor
  · rintro ⟨⟨hfree, hsome⟩, htakes⟩
    rw [h.marked hdot s hfree hsome] at htakes
    refine ⟨⟨⟨hfree, ?_⟩, htakes⟩, hsome⟩
    rcases h.shrink (s ++ manifestSuffix) with he | he
    · rwa [he] at hsome
    · rw [he] at hsome
      simp at hsome
  · rintro ⟨⟨⟨hfree, -⟩, htakes⟩, hsome⟩
    refine ⟨⟨hfree, hsome⟩, ?_⟩
    rwa [h.marked hdot s hfree hsome]

theorem Passed.sub {s : Str} (hs : s ∈ w'.at_ env scope jobName spot) :
    s ∈ w.at_ env scope jobName spot :=
  ((h.mem_iff jobName spot hdot).mp hs).1

theorem Passed.kept {s : Str} (hs : s ∈ w.at_ env scope jobName spot)
    (hn : ∀ out, w.prunable env spot.dest cfg now scope (spot.only jobName w) = .ok out → s ∉ out) :
    s ∈ w'.at_ env scope jobName spot := by
  have hsame : spot.dest.at env w' (s ++ manifestSuffix) = spot.dest.at env w (s ++ manifestSuffix) := by
    refine h.same _ fun out hout p hp hbegin => ?_
    have hpdot : free '.' p := hdot p (mem_prunable_mine hout hp)
    rw [manifestSuffix_eq] at hbegin
    rcases prefix_cases (hdot s hs) hbegin with rfl | hbegin
    · exact hn out hout hp
    · exact hpdot (hbegin.subset (by simp))
  refine (h.mem_iff jobName spot hdot).mpr ⟨hs, ?_⟩
  rw [hsame]
  exact (mem_at.mp hs).1.2

end

theorem Passed.gone {w w' : World} (h : Passed env dest cfg now scope none w [] w')
    (hdot : ∀ s ∈ w.mine env dest scope none, free '.' s) :
    ∃ out, w.prunable env dest cfg now scope none = .ok out ∧
      ∀ s, s ∈ w'.mine env dest scope none ↔ s ∈ w.mine env dest scope none ∧ s ∉ out := by
  obtain ⟨out, hout, hgone⟩ := h.complete rfl
  refine ⟨out, hout, fun s => ⟨fun hs => ⟨h.sub [] (.own dest) hdot hs, fun hp => ?_⟩, fun ⟨hs, hn⟩ => ?_⟩⟩
  · have hsome := (mem_mine.mp hs).1.2
    rw [hgone s hp _ (begins_manifest s)] at hsome
    simp at hsome
  · refine h.kept [] (.own dest) hdot hs fun out' hout' => ?_
    rwa [← Except.ok.inj (hout.symm.trans hout')]

/-! ## passes run by run -/

variable (env dest cfg scope) in
/-- the job's snapshots that have arrived on the destination, a time up to which passes were made,
and the state: a pass may stop anywhere, and between passes anything may happen that neither
removes snapshots of the job nor brings any but the one noted -/
inductive History : List Str → Datetime → World → Prop
  | start {now w} (h : ∀ s, s ∉ w.mine env dest scope none) : History [] now w
  | store {H now w w'} (sid : Str) (h : History H now w) (hnew : sid ∉ H)
      (hw : ∀ s, s ∈ w'.mine env dest scope none ↔ s = sid ∨ s ∈ w.mine env dest scope none) :
      History (sid :: H) now w'
  | other {H now w w'} (h : History H now w)
      (hw : ∀ s, s ∈ w'.mine env dest scope none ↔ s ∈ w.mine env dest scope none) :
      History H now w'
  | pass {H now w} (now' : Datetime) (faults : List Fault) (h : History H now w)
      (hnow : now.Upto now') :
      History H now' ((applyRetention env cfg now' scope none dest).exec env.step .calm faults w).2

/-- every id names its time, and greater ids name later times -/
structure Timed (time : Str → Datetime) (H : List Str) : Prop where
  named : ∀ s ∈ H, (parseSnapshotId s).1 = some (time s)
  increasing : ∀ s ∈ H, ∀ t ∈ H, s < t → (time s).Before (time t)

/-- an upload, whatever calls fail, goes on with the history; one that returns has stored -/
theorem History.upload {H : List Str} {w : World} (h : History env dest cfg scope H now w) {sid : Str}
    (hnew : sid ∉ H) (hfree : free '/' sid)
    (howns : ∀ m, scope.owns sid (place dest) m = true) {e : EncryptionMode} {src sidecar : Src} :
    (uploadTo dest ⟨archiveName sid e, src⟩ sidecar sid).wp env.step (fun _ _ => True)
      (fun r w' => History env dest cfg scope (sid :: H) now w' ∨
        ((∃ e, r = .error e) ∧ History env dest cfg scope H now w')) w := by
  have hmine : ∀ {x c r w w'}, Wrote (dest.loc env) (dest.pre ++ x) c w r w' →
      (∀ s, s ++ pendingSuffix ≠ x) → ∀ s, s ++ manifestSuffix ≠ x →
      (s ∈ w'.mine env dest scope none ↔ s ∈ w.mine env dest scope none) := by
    intro x c r w w' hw hx s hs
    have hat : dest.at env w' (s ++ manifestSuffix) = dest.at env w (s ++ manifestSuffix) :=
      hw.other _ _ fun he => hs (List.append_cancel_left (Prod.mk.inj he).2)
    rw [mem_mine, mem_mine, hat]
    refine and_congr_right fun hf => ?_
    rw [lookup_markedAt hf.1, lookup_markedAt hf.1]
    cases dest with
    | s3 c => simp
    | «local» =>
      unfold World.owner
      rw [hw.other .data (s ++ pendingSuffix) fun he => hx s (Prod.mk.inj he).2]
  apply wp_uploadTo
  intro c r w₁ _ hwrote _
  have h₁ : History env dest cfg scope H now w₁ := h.other fun s =>
    hmine hwrote (fun q => (archive_not_pending _ _ _).symm) s (archive_not_manifest _ _ _).symm
  refine ⟨trivial, fun e he => Or.inr ⟨⟨e, he⟩, h₁⟩, ?_⟩
  rintro - c' r' w₂ - hwrote' -
  refine ⟨trivial, ?_⟩
  have hrest : ∀ s, s ≠ sid →
      (s ∈ w₂.mine env dest scope none ↔ s ∈ w₁.mine env dest scope none) := fun s hs =>
    hmine hwrote' (fun q => (manifest_not_pending _ _).symm) s fun he =>
      hs (List.append_cancel_right he)
  have hsid : ∀ w : World, sid ∈ w.mine env dest scope none ↔
      (dest.at env w (sid ++ manifestSuffix)).isSome := by
    intro w
    rw [mem_mine]
    exact ⟨fun hs => hs.1.2, fun hs => ⟨⟨hfree, hs⟩, howns _⟩⟩
  by_cases hthere : sid ∈ w₂.mine env dest scope none
  · refine Or.inl (h₁.store sid hnew fun s => ?_)
    by_cases hs : s = sid
    · subst hs
      exact ⟨fun _ => Or.inl rfl, fun _ => hthere⟩
    · rw [hrest s hs]
      exact ⟨Or.inr, fun ho => ho.resolve_left hs⟩
  · have hgone : dest.at env w₂ (sid ++ manifestSuffix) = none := by
      rw [hsid] at hthere
      exact Option.not_isSome_iff_eq_none.mp hthere
    refine Or.inr ⟨?_, h₁.other fun s => ?_⟩
    · cases r' with
      | error e => exact ⟨e, rfl⟩
      | ok u =>
        rw [show dest.at env w₂ (sid ++ manifestSuffix) = some c' from hwrote'.done rfl] at hgone
        simp at hgone
    · by_cases hs : s = sid
      · subst hs
        rw [hsid, hsid, hgone]
        rcases hwrote'.here with he | he | ⟨b, he⟩
        · rw [show dest.at env w₁ (s ++ manifestSuffix) = none from he.symm.trans hgone]
        · exact absurd (he.symm.trans hgone) (by simp)
        · exact absurd (he.symm.trans hgone) (by simp)
      · exact hrest s hs

variable {time : Str → Datetime}

theorem Timed.subset {H L : List Str} (h : Timed time L) (hsub : ∀ s ∈ H, s ∈ L) : Timed time H :=
  ⟨fun s hs => h.named s (hsub s hs), fun s hs t ht => h.increasing s (hsub s hs) t (hsub t ht)⟩

theorem Timed.downward {H : List Str} (h : Timed time H) (cfg : RetentionConfig) (now : Datetime) :
    Downward (Old time cfg now) (ofList H) := by
  rintro x hx y hy hxy ⟨h0, cutoff, hc, hb⟩
  rcases eq_or_lt_of_le hxy with rfl | hlt
  · exact ⟨h0, cutoff, hc, hb⟩
  · have hxy' := h.increasing x (mem_ofList.mp hx) y (mem_ofList.mp hy) hlt
    exact ⟨h0, cutoff, hc, hxy'.of_upto hb.upto⟩

/-- the selection by the times that the ids name -/
theorem Timed.mem_prunable {H out : List Str} (h : Timed time H) (hn : H.Nodup)
    (hout : selectPrunable (snapshotsAt now H) cfg now = .ok out) (s : Str) :
    s ∈ out ↔ s ∈ H ∧ ¬ Kept (policyOf time cfg) (Old time cfg now) (ofList H) s := by
  have hsnaps : snapshotsAt now H = H.map (snapAt time) := by
    refine List.map_congr_left fun s hs => ?_
    unfold snapAt parseSnapshotTimestamp
    rw [h.named s hs]
    rfl
  rw [hsnaps] at hout
  exact mem_selectPrunable time hn hout s

theorem Timed.dotless {H : List Str} (h : Timed time H) {s : Str} (hs : s ∈ H) : free '.' s :=
  parseSnapshotId_free (h.named s hs)

theorem History.nodup {H : List Str} {w : World} (h : History env dest cfg scope H now w) :
    H.Nodup := by
  induction h with
  | start h => exact List.nodup_nil
  | store sid h hnew hw ih => exact List.nodup_cons.mpr ⟨hnew, ih⟩
  | other h hw ih => exact ih
  | pass now' faults h hnow ih => exact ih

/-- what a pass makes of the snapshots there, by the times that their ids name -/
theorem Passed.step {w w' : World} {errors : List Str}
    (h : Passed env dest cfg now scope none w errors w')
    (ht : Timed time (w.mine env dest scope none)) :
    (∀ s ∈ w'.mine env dest scope none, s ∈ w.mine env dest scope none) ∧
      ∀ s ∈ w.mine env dest scope none,
        Kept (policyOf time cfg) (Old time cfg now) (ofList (w.mine env dest scope none)) s →
          s ∈ w'.mine env dest scope none := by
  have hdot : ∀ s ∈ w.mine env dest scope none, free '.' s := fun s hs => ht.dotless hs
  refine ⟨fun s hs => h.sub [] (.own dest) hdot hs,
    fun s hs hk => h.kept [] (.own dest) hdot hs fun out hout hp => ?_⟩
  exact ((ht.mem_prunable (mine_nodup _ _ _ _) hout s).mp hp).2 hk

/-- **The invariant of a history**: what is there is the history, pruned. -/
theorem History.pruned {H : List Str} {w : World} (h : History env dest cfg scope H now w)
    (ht : Timed time H) : Pruned (policyOf time cfg) (Old time cfg now) (ofList H)
      (ofList (w.mine env dest scope none)) := by
  induction h with
  | start h =>
    refine ⟨fun s hs => absurd (mem_ofList.mp hs) (h s), fun s hs => ?_⟩
    exact absurd (mem_ofList.mp hs.1) List.not_mem_nil
  | @store H now w w' sid h hnew hw ih =>
    have hset : ofList (w'.mine env dest scope none)
        = ofList (sid :: w.mine env dest scope none) := by
      ext s
      rw [mem_ofList, hw, mem_ofList, List.mem_cons]
    rw [hset, ofList_cons, ofList_cons]
    exact (ih (ht.subset fun s hs => List.mem_cons_of_mem _ hs)).grow sid
  | @other H now w w' h hw ih =>
    have hset : ofList (w'.mine env dest scope none) = ofList (w.mine env dest scope none) := by
      ext s
      rw [mem_ofList, mem_ofList, hw]
    rw [hset]
    exact ih ht
  | @pass H now w now' faults h hnow ih =>
    have hA := ih ht
    have htA : Timed time (w.mine env dest scope none) :=
      ht.subset fun s hs => mem_ofList.mp (hA.sub (mem_ofList.mpr hs))
    have hpass := ((Prog.wp_iff_exec .calm _ _ _).mp
      (wp_pass env dest cfg now' scope none w) faults).2
    obtain ⟨hsub, hkept⟩ := hpass.step htA
    refine hA.step (fun s hs => hs.mono time hnow) (ht.downward cfg now') (fun s hs => ?_)
      fun s hs hk => ?_
    · exact mem_ofList.mpr (hsub s (mem_ofList.mp hs))
    · exact mem_ofList.mpr (hkept s (mem_ofList.mp hs) hk)

/-- **Retention run by run equals retention once.**  A pass that completes leaves exactly what the
policy keeps of the full history, a further pass at that time deletes nothing, and no earlier pass
removed a snapshot that the policy keeps then, or at any later time of any longer history. -/
theorem retention_run_by_run {H : List Str} {w : World} (h : History env dest cfg scope H now w)
    (ht : Timed time H) {last : Datetime} (hlast : now.Upto last) :
    (applyRetention env cfg last scope none dest).wp env.step (fun _ _ => True) (fun errors w₁ =>
      errors = [] → ∃ out, selectPrunable (snapshotsAt last H) cfg last = .ok out ∧
        (∀ s, s ∈ w₁.mine env dest scope none ↔ s ∈ H ∧ s ∉ out) ∧
        (applyRetention env cfg last scope none dest).wp env.step
          (fun w₂ w₃ => w₃.files = w₂.files) (fun _ _ => True) w₁) w ∧
    ∀ L later out, L.Nodup → (∀ s ∈ H, s ∈ L) → Timed time L → now.Upto later →
      selectPrunable (snapshotsAt later L) cfg later = .ok out → ∀ s ∈ H, s ∉ out →
        s ∈ w.mine env dest scope none := by
  have hA := h.pruned ht
  have htA : Timed time (w.mine env dest scope none) :=
    ht.subset fun s hs => mem_ofList.mp (hA.sub (mem_ofList.mpr hs))
  refine ⟨?_, fun L later out hL hHL htL hlater hout s hs hn => ?_⟩
  · refine Prog.wp_post (wp_pass env dest cfg last scope none w) fun errors w₁ hpass he => ?_
    subst he
    obtain ⟨out₁, hout₁, hgone⟩ := hpass.gone fun s hs => htA.dotless hs
    obtain ⟨out, hout⟩ := (selectPrunable_ok_iff (snapshotsAt last H) cfg last).mpr
      ((selectPrunable_ok_iff _ cfg last).mp ⟨out₁, hout₁⟩)
    have hleft : ∀ s, s ∈ ofList (w₁.mine env dest scope none) ↔
        Kept (policyOf time cfg) (Old time cfg last) (ofList (w.mine env dest scope none)) s := by
      intro s
      rw [mem_ofList, hgone, htA.mem_prunable (mine_nodup _ _ _ _) hout₁]
      refine ⟨fun ⟨hs, hn⟩ => by_contra fun hk => hn ⟨hs, hk⟩, fun hk => ?_⟩
      exact ⟨mem_ofList.mp hk.1, fun hn => hn.2 hk⟩
    have hfinal := hA.complete (fun s hs => hs.mono time hlast) (ht.downward cfg last) hleft
    have hmem : ∀ s, s ∈ w₁.mine env dest scope none ↔ s ∈ H ∧ s ∉ out := by
      intro s
      rw [← mem_ofList, hfinal, ht.mem_prunable h.nodup hout]
      refine ⟨fun hk => ⟨mem_ofList.mp hk.1, fun hn => hn.2 hk⟩, fun ⟨hs, hn⟩ => ?_⟩
      exact by_contra fun hk => hn ⟨hs, hk⟩
    refine ⟨out, hout, hmem, ?_⟩
    -- the kept part of the kept part is itself
    have ht₁ : Timed time (w₁.mine env dest scope none) := ht.subset fun s hs => ((hmem s).mp hs).1
    have hA₁ : Pruned (policyOf time cfg) (Old time cfg last) (ofList H)
        (ofList (w₁.mine env dest scope none)) :=
      ⟨fun s hs => ((hfinal s).mp hs).1, fun s hk => (hfinal s).mpr hk⟩
    refine Prog.wp_post (wp_applyRetention (I := fun _ => True) (fun w₂ w₃ hq => hq.same)
      (fun _ _ _ _ => trivial) (fun out₂ hout₂ p hp => ?_) trivial) fun _ _ _ => trivial
    obtain ⟨hp₁, hnot⟩ := (ht₁.mem_prunable (mine_nodup _ _ _ _) hout₂ p).mp hp
    have hk := (hfinal p).mp (mem_ofList.mpr hp₁)
    exact absurd ((Kept.between (ht.downward cfg last) hA₁.sub hA₁.kept p).mpr hk) hnot
  · have hk : Kept (policyOf time cfg) (Old time cfg later) (ofList L) s := by
      by_contra hk
      exact hn ((htL.mem_prunable hL hout s).mpr ⟨hHL s hs, hk⟩)
    refine mem_ofList.mp (hA.kept s (hk.anti (fun x hx => ?_) (mem_ofList.mpr hs) fun x hx => ?_))
    · exact mem_ofList.mpr (hHL x (mem_ofList.mp hx))
    · exact hx.mono time hlater

/-! ## a concrete history -/

def newestOnly : RetentionConfig := { count := 1 }

def today : Str := "2024-04-24_12-00-00".toList

/-- after a pass that cannot list the destination -/
def skippedPass : World :=
  ((applyRetention plainEnv newestOnly noon { job := [] } none .local).exec plainEnv.step .calm
    [.calm, .raise ⟨"OSError".toList, []⟩ .untouched] (worldOf [onlyManifest dayBefore])).2

def twoDays : World := worldOf [onlyManifest dayBefore, onlyManifest today]

theorem history_twoDays :
    History plainEnv .local newestOnly { job := [] } [today, dayBefore] noon twoDays := by
  have hstart : ∀ s, s ∉ (worldOf []).mine plainEnv .local { job := [] } none := by
    have hnil : (worldOf []).mine plainEnv .local { job := [] } none = [] := by decide +kernel
    simp [hnil]
  have hone : (worldOf [onlyManifest dayBefore]).mine plainEnv .local { job := [] } none
      = [dayBefore] := by decide +kernel
  have hskip : skippedPass.mine plainEnv .local { job := [] } none = [dayBefore] := by decide +kernel
  have htwo : twoDays.mine plainEnv .local { job := [] } none = [dayBefore, today] := by
    decide +kernel
  have hfirst : History plainEnv .local newestOnly { job := [] } [dayBefore] noon
      (worldOf [onlyManifest dayBefore]) :=
    (History.start hstart).store dayBefore (by simp) fun s => by
      simp [hone, hstart]
  have hsecond : History plainEnv .local newestOnly { job := [] } [dayBefore] noon skippedPass :=
    hfirst.pass noon _ (Datetime.Upto.refl _)
  exact hsecond.store today (by decide) fun s => by
    rw [htwo, hskip]
    simp [or_comm]

theorem retention_run_by_run_twoDays :
    (applyRetention plainEnv newestOnly noon { job := [] } none .local).wp plainEnv.step
      (fun _ _ => True) (fun errors w₁ => errors = [] → ∃ out,
        selectPrunable (snapshotsAt noon [today, dayBefore]) newestOnly noon = .ok out ∧
        (∀ s, s ∈ w₁.mine plainEnv .local { job := [] } none ↔ s ∈ [today, dayBefore] ∧ s ∉ out) ∧
        (applyRetention plainEnv newestOnly noon { job := [] } none .local).wp plainEnv.step
          (fun w₂ w₃ => w₃.files = w₂.files) (fun _ _ => True) w₁) twoDays ∧
    ∀ L later out, L.Nodup → (∀ s ∈ [today, dayBefore], s ∈ L) → Timed (takenAt noon) L →
      noon.Upto later → selectPrunable (snapshotsAt later L) newestOnly later = .ok out →
        ∀ s ∈ [today, dayBefore], s ∉ out → s ∈ twoDays.mine plainEnv .local { job := [] } none :=
  retention_run_by_run history_twoDays
    { named := by decide +kernel
      increasing := by decide +kernel }
    (Datetime.Upto.refl _)

end
end BackupHelper
