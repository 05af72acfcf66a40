import BackupHelper.Runner.Names

/-!
# No last copy is lost

A run whose snapshot is newer than every id the job may own leaves archive and manifest of the
snapshot in at least one place, and unlinks a local file only after an off-site destination has
stored archive and manifest of that file's snapshot.

* `Apart`, `Newest`        the places do not overlap, no id of the job is newer than the run's;
* `Holds`                  a destination holds the archive and the manifest of this run;
* `no_last_copy_lost`      the run.

The invariant: every destination that has stored the snapshot goes on holding it.  Uploads of older
snapshots and the deletions of retention touch only names `<p>.…` with `p` smaller than the run's
id, and no such name is one of the run's (`own_ne_older`).
-/

set_option linter.unusedSectionVars false

namespace BackupHelper
open Text Glob Effects Calendar Keep

/-! ## the hypotheses on a run -/

/-- different places, and no prefix that properly begins another one in the same bucket -/
structure Apart (env : Env) (dests : List Dest) : Prop where
  distinct : dests.Pairwise (fun d d' => (d.loc env, d.pre) ≠ (d'.loc env, d'.pre))
  incomparable : ∀ d ∈ dests, ∀ d' ∈ dests, d.loc env = d'.loc env → d.pre <+: d'.pre →
    d.pre = d'.pre

/-- the ids that a run may prune or catch up: those whose pending marker names the job, those that the
job owns at one of its places, and, as a file `<p>.…` goes for one of the snapshot `p`, those with a dot
in the data dir that the job would own, without a marker, at one of its places -/
def rivals (env : Env) (a : RunArgs) (w : World) : List Str :=
  w.pendingOf a.job.name ++ (places a.job).flatMap (fun d => w.mine env d a.scope none) ++
    (w.ids env .local).filter (fun q => ¬ free '.' q ∧
      ∃ d ∈ places a.job, a.scope.owns q (place d) none = true)

/-- an id that the caller chose: a file name without a dot, of a time within the age limit -/
structure Chosen (a : RunArgs) (s : Str) : Prop where
  dotless : free '.' s
  slashless : free '/' s
  recent : ¬ Old (takenAt a.now) a.job.retention a.now s

theorem engine_not_old (scope : SnapshotScope) (now : Datetime) (cfg : RetentionConfig) :
    ¬ Old (takenAt now) cfg now (scope.newId now) := by
  rintro ⟨h0, cutoff, hc, hb⟩
  have ht : takenAt now (scope.newId now) = toSecond now := by
    unfold takenAt parseSnapshotTimestamp SnapshotScope.newId
    rw [parse_newSnapshotId]
    rfl
  have hspec := Datetime.subDays_spec hc
  rw [ht] at hb
  unfold Datetime.Before toSecond at hb
  simp only at hb
  omega

theorem sid_chosen {a : RunArgs} (h : ∀ s, a.snapshotId = some s → s ≠ [] → Chosen a s) :
    Chosen a a.sid := by
  have hnew : Chosen a (a.scope.newId a.now) := by
    refine ⟨newSnapshotId_free _ _, ?_, engine_not_old _ _ _⟩
    exact free_of_all_slug (newSnapshotId_all _ _) (by decide)
  unfold RunArgs.sid
  cases hs : a.snapshotId with
  | none => exact hnew
  | some s =>
    cases s with
    | nil => exact hnew
    | cons c s => exact h _ hs (by simp)

/-- the destination holds the archive and the manifest of this run -/
structure Holds (env : Env) (a : RunArgs) (made : Made) (d : Dest) (w : World) : Prop where
  archive : d.at env w (archiveName a.sid made.encrypted) = some (.raw made.archive)
  manifest : d.at env w (a.sid ++ manifestSuffix) = some (.manifest (a.manifest env made))

section
variable {env : Env} {a : RunArgs} {made : Made} (hapart : Apart env (specDests a.job.destinations))
include hapart

/-- two places of the job whose names meet are one -/
theorem room_eq {d d' : Dest} (hd : d ∈ places a.job) (hd' : d' ∈ places a.job) {x y : Str}
    (h : (d.loc env, d.pre ++ x) = (d'.loc env, d'.pre ++ y)) : d.pre = d'.pre ∧ x = y := by
  obtain ⟨hloc, hname⟩ := Prod.mk.inj h
  have hpre : d.pre = d'.pre := by
    rcases List.mem_cons.mp hd with rfl | hs
    · rcases List.mem_cons.mp hd' with rfl | hs'
      · rfl
      · cases d' with
        | «local» => rfl
        | s3 c => simp [Dest.loc] at hloc
    · rcases List.mem_cons.mp hd' with rfl | hs'
      · cases d with
        | «local» => rfl
        | s3 c => simp [Dest.loc] at hloc
      · rcases List.prefix_or_prefix_of_prefix ⟨x, hname⟩ ⟨y, rfl⟩ with hp | hp
        · exact hapart.incomparable d hs d' hs' hloc hp
        · exact (hapart.incomparable d' hs' d hs hloc.symm hp).symm
  refine ⟨hpre, ?_⟩
  rw [hpre] at hname
  exact List.append_cancel_left hname

theorem local_eq {d : Dest} (hd : d ∈ places a.job) {x y : Str}
    (h : (d.loc env, d.pre ++ x) = (Loc.data, y)) : x = y :=
  have hlocal : Dest.local ∈ places a.job := List.mem_cons_self
  (room_eq hapart hd hlocal h).2

/-- **No name of an older snapshot is one of the run's.** -/
theorem own_ne_older (hdot : free '.' a.sid) {d d' : Dest} (hd : d ∈ places a.job)
    (hd' : d' ∈ places a.job) {x y p : Str} (hx : Own a made x) (hp : p < a.sid)
    (hy : p ++ ['.'] <+: y) : (d.loc env, d.pre ++ x) ≠ (d'.loc env, d'.pre ++ y) := by
  intro h
  obtain ⟨-, rfl⟩ := room_eq hapart hd hd' h
  obtain ⟨z, rfl⟩ := hx.begins
  rw [List.append_assoc] at hy
  exact not_prefix_of_lt hdot hp hy

omit hapart in
theorem Holds.of_elsewhere {d : Dest} {w w' : World} {l : Loc} {k : Str} (h : Holds env a made d w)
    (he : Elsewhere l k w w') (hne : ∀ x, Own a made x → (d.loc env, d.pre ++ x) ≠ (l, k)) :
    Holds env a made d w' :=
  ⟨(he _ _ (hne _ (Or.inl rfl))).trans h.archive, (he _ _ (hne _ (Or.inr rfl))).trans h.manifest⟩

omit hapart in
theorem Holds.of_files {d : Dest} {w w' : World} (h : Holds env a made d w)
    (hs : w'.files = w.files) : Holds env a made d w' := by
  have hget : ∀ l k, w'.get l k = w.get l k := fun l k => by rw [World.get, hs, World.get]
  exact ⟨(hget _ _).trans h.archive, (hget _ _).trans h.manifest⟩

end

/-! ## no id is newer -/

/-- the owner that a pending marker of `q` names to a pass over `d` -/
def World.ownerAt (w : World) (d : Dest) (q : Str) : Option Str :=
  if d = .local then w.owner (q ++ pendingSuffix) else none

/-- no id that the run may prune or catch up is greater than the run's, which itself is marked as
pending only if `own` -/
structure Newest (env : Env) (a : RunArgs) (own : Prop) (w : World) : Prop where
  mine : ∀ d ∈ places a.job, ∀ q, free '/' q → free '.' q → (d.at env w (q ++ manifestSuffix)).isSome →
    a.scope.owns q (place d) (w.ownerAt d q) = true → q ≤ a.sid
  dotted : ∀ d ∈ places a.job, ∀ q, free '/' q → ¬ free '.' q →
    (d.at env w (q ++ manifestSuffix)).isSome ∨ (Dest.local.at env w (q ++ manifestSuffix)).isSome →
    a.scope.owns q (place d) none = true → q ≤ a.sid
  marked : ∀ q, free '/' q → w.owner (q ++ pendingSuffix) = some a.job.name →
    (q = a.sid ∧ own) ∨ (plain q ∧ q < a.sid)

/-- a dotless id of which a file goes for one of the snapshot `p` -/
theorem le_of_begins {c : Char} {p q x : Str} (hq : free c q) (h : p ++ [c] <+: q ++ c :: x) : q ≤ p := by
  rcases prefix_cases hq h with rfl | hbegins
  · exact le_rfl
  · exact (lt_of_begins hbegins).le

section
variable {env : Env} {a : RunArgs} {made : Made} {own : Prop}

theorem Newest.start {w : World} (hnew : ∀ q ∈ rivals env a w, q < a.sid)
    (hplain : ∀ q ∈ w.pendingOf a.job.name, plain q) : Newest env a False w := by
  have hlocal : Dest.local ∈ places a.job := List.mem_cons_self
  have hmine : ∀ d ∈ places a.job, ∀ q, free '/' q → (d.at env w (q ++ manifestSuffix)).isSome →
      a.scope.owns q (place d) (w.ownerAt d q) = true → q ≤ a.sid := by
    intro d hd q hq hsome ho
    apply (hnew q _).le
    apply List.mem_append_left
    apply List.mem_append_right
    exact List.mem_flatMap.mpr ⟨d, hd, mem_mine.mpr ⟨⟨hq, hsome⟩, by rwa [lookup_markedAt hq]⟩⟩
  have hdata : ∀ d ∈ places a.job, ∀ q, free '/' q → ¬ free '.' q →
      (Dest.local.at env w (q ++ manifestSuffix)).isSome → a.scope.owns q (place d) none = true → q ≤ a.sid := by
    intro d hd q hq hdot hsome ho
    apply (hnew q _).le
    apply List.mem_append_right
    exact List.mem_filter.mpr ⟨mem_ids.mpr ⟨hq, hsome⟩, decide_eq_true ⟨hdot, d, hd, ho⟩⟩
  refine ⟨fun d hd q hq _ => hmine d hd q hq, fun d hd q hq hdot hsome ho => ?_, fun q hq h => Or.inr ?_⟩
  · rcases hsome with hsome | hsome
    · cases d with
      | «local» => exact hdata _ hd q hq hdot hsome ho
      | s3 c => exact hmine _ hd q hq hsome ho
    · exact hdata d hd q hq hdot hsome ho
  · have hmem := mem_pendingOf.mpr ⟨hq, h⟩
    exact ⟨hplain q hmem, hnew q (List.mem_append_left _ (List.mem_append_left _ hmem))⟩

theorem Newest.mono {own' : Prop} {w : World} (h : Newest env a own w) (ho : own → own') :
    Newest env a own' w :=
  ⟨h.mine, h.dotted, fun q hq hm => (h.marked q hq hm).imp_left fun hs => ⟨hs.1, ho hs.2⟩⟩

theorem Newest.of_files {w w' : World} (h : Newest env a own w) (hs : w'.files = w.files) :
    Newest env a own w' := by
  have hget : ∀ l k, w'.get l k = w.get l k := fun l k => by rw [World.get, hs, World.get]
  have hat : ∀ (d : Dest) k, d.at env w' k = d.at env w k := fun d k => hget _ _
  have howner : ∀ k, w'.owner k = w.owner k := fun k => by rw [World.owner, hget, World.owner]
  refine ⟨fun d hd q hq hdot hsome ho => h.mine d hd q hq hdot ?_ ?_, fun d hd q hq hdot hsome =>
    h.dotted d hd q hq hdot ?_, fun q hq ho => h.marked q hq ?_⟩
  · rwa [hat] at hsome
  · unfold World.ownerAt at ho ⊢
    rwa [howner] at ho
  · rwa [hat, hat] at hsome
  · rwa [howner] at ho

/-- one file is written or removed: a manifest comes only of an id that may come, a marker of a dotless
id changes only if the id is not newer -/
theorem Newest.of_elsewhere {w w' : World} {l : Loc} {k : Str} (h : Newest env a own w)
    (he : Elsewhere l k w w')
    (hfile : ∀ d ∈ places a.job, ∀ q, (d.loc env, d.pre ++ (q ++ manifestSuffix)) = (l, k) →
      (d.at env w' (q ++ manifestSuffix)).isSome → q ≤ a.sid ∨ (d.at env w (q ++ manifestSuffix)).isSome ∨
        ¬ free '.' q ∧ (Dest.local.at env w (q ++ manifestSuffix)).isSome)
    (hmarker : ∀ q, free '.' q → (Loc.data, q ++ pendingSuffix) = (l, k) → q ≤ a.sid)
    (hmarked : ∀ q, (Loc.data, q ++ pendingSuffix) = (l, k) → w'.owner (q ++ pendingSuffix) = some a.job.name →
      w.owner (q ++ pendingSuffix) = some a.job.name ∨ q = a.sid ∧ own) : Newest env a own w' := by
  have howner : ∀ q, (Loc.data, q ++ pendingSuffix) ≠ (l, k) →
      w'.owner (q ++ pendingSuffix) = w.owner (q ++ pendingSuffix) := by
    intro q hne
    rw [World.owner, he _ _ hne, World.owner]
  have hback : ∀ d ∈ places a.job, ∀ q, (d.at env w' (q ++ manifestSuffix)).isSome →
      q ≤ a.sid ∨ (d.at env w (q ++ manifestSuffix)).isSome ∨
        ¬ free '.' q ∧ (Dest.local.at env w (q ++ manifestSuffix)).isSome := by
    intro d hd q hsome
    by_cases hk : (d.loc env, d.pre ++ (q ++ manifestSuffix)) = (l, k)
    · exact hfile d hd q hk hsome
    · unfold Dest.at at hsome ⊢
      rw [he _ _ hk] at hsome
      exact Or.inr (Or.inl hsome)
  have hlocal : Dest.local ∈ places a.job := List.mem_cons_self
  refine ⟨fun d hd q hq hdot hsome ho => ?_, fun d hd q hq hdot hsome ho => ?_, fun q hq ho => ?_⟩
  · by_cases hk : (Loc.data, q ++ pendingSuffix) = (l, k)
    · exact hmarker q hdot hk
    · rcases hback d hd q hsome with hle | hsome | hdotted
      · exact hle
      · apply h.mine d hd q hq hdot hsome
        unfold World.ownerAt at ho ⊢
        rwa [howner q hk] at ho
      · exact absurd hdot hdotted.1
  · have hall : q ≤ a.sid ∨ (d.at env w (q ++ manifestSuffix)).isSome ∨
        (Dest.local.at env w (q ++ manifestSuffix)).isSome := by
      rcases hsome with hsome | hsome
      · exact (hback d hd q hsome).imp_right fun hs => hs.imp_right (·.2)
      · exact (hback _ hlocal q hsome).imp_right fun hs => Or.inr (hs.elim id (·.2))
    rcases hall with hle | hsome
    · exact hle
    · exact h.dotted d hd q hq hdot hsome ho
  · by_cases hk : (Loc.data, q ++ pendingSuffix) = (l, k)
    · rcases hmarked q hk ho with ho | hself
      · exact h.marked q hq ho
      · exact Or.inl hself
    · rw [howner q hk] at ho
      exact h.marked q hq ho

/-- a file of an older snapshot is removed -/
theorem Newest.of_removed {w w' : World} {l : Loc} {k : Str} {r : Except Exc Unit}
    (h : Newest env a own w) (hrem : Removed l k w r w')
    (hmarker : ∀ q, free '.' q → (Loc.data, q ++ pendingSuffix) = (l, k) → q ≤ a.sid) :
    Newest env a own w' := by
  refine h.of_elsewhere hrem.other (fun d hd q hk hsome => Or.inr (Or.inl ?_)) hmarker fun q hk ho => Or.inl ?_
  · unfold Dest.at at hsome ⊢
    obtain ⟨hl, hkey⟩ := Prod.mk.inj hk
    rw [hl, hkey] at hsome ⊢
    rcases hrem.here with hsame | hnone
    · rwa [hsame] at hsome
    · rw [hnone] at hsome
      cases hsome
  · rw [World.owner_eq_some] at ho ⊢
    obtain ⟨hl, hkey⟩ := Prod.mk.inj hk
    rw [hl, hkey] at ho ⊢
    rcases hrem.here with hsame | hnone
    · rwa [hsame] at ho
    · rw [hnone] at ho
      cases ho

theorem Newest.of_wrote {w w' : World} {l : Loc} {k : Str} {c : Content} {r : Except Exc Unit}
    (h : Newest env a own w) (hw : Wrote l k c w r w')
    (hfile : ∀ d ∈ places a.job, ∀ q, (d.loc env, d.pre ++ (q ++ manifestSuffix)) = (l, k) →
      q ≤ a.sid ∨ ¬ free '.' q ∧ (Dest.local.at env w (q ++ manifestSuffix)).isSome)
    (hmark : ∀ q, (Loc.data, q ++ pendingSuffix) = (l, k) → q = a.sid ∧ own) : Newest env a own w' := by
  refine h.of_elsewhere hw.other (fun d hd q hk _ => (hfile d hd q hk).imp_right Or.inr)
    (fun q _ hk => ?_) fun q hk _ => Or.inr (hmark q hk)
  rw [(hmark q hk).1]

/-- an id owned because of its marker: the marker names the job, or ownership needs no marker -/
theorem owns_cases {scope : SnapshotScope} {q p : Str} {m : Option Str}
    (h : scope.owns q p m = true) : scope.owns q p none = true ∨ m = some scope.job := by
  unfold SnapshotScope.owns at h ⊢
  cases hs : (parseSnapshotId q).2 with
  | some slug =>
    rw [hs] at h
    exact Or.inl h
  | none =>
    rw [hs] at h
    cases hp : scope.plainAt with
    | none => exact Or.inl rfl
    | some ps =>
      rw [hp] at h
      cases m with
      | none => exact Or.inl h
      | some j => exact Or.inr (by rw [of_decide_eq_true h])

/-- **Retention selects only ids smaller than the run's.** -/
theorem Newest.prunable_lt {w : World} (h : Newest env a own w) (hjob : a.scope.job = a.job.name)
    (hold : ¬ Old (takenAt a.now) a.job.retention a.now a.sid) {dest : Dest}
    (hd : dest ∈ places a.job) {only : Option (List Str)}
    (honly : only = none ∨ (dest = .local ∧ only = some (w.pendingOf a.job.name))) {out : List Str}
    (hout : w.prunable env dest a.job.retention a.now a.scope only = .ok out) {p : Str}
    (hp : p ∈ out) : p < a.sid := by
  have hmine : ∀ q ∈ w.mine env dest a.scope only, q ≤ a.sid := by
    intro q hq
    obtain ⟨hids, hsel⟩ := List.mem_filter.mp hq
    obtain ⟨hfree, hsome⟩ := mem_ids.mp hids
    have hmarked : w.owner (q ++ pendingSuffix) = some a.job.name → q ≤ a.sid := fun ho =>
      (h.marked q hfree ho).elim (fun hs => hs.1.le) fun hlt => hlt.2.le
    rcases honly with rfl | ⟨-, rfl⟩
    · have howns : a.scope.owns q (place dest) (w.ownerAt dest q) = true := by
        unfold World.ownerAt
        rwa [← lookup_markedAt hfree]
      by_cases hdot : free '.' q
      · exact h.mine dest hd q hfree hdot hsome howns
      · rcases owns_cases howns with ho | ho
        · exact h.dotted dest hd q hfree hdot (Or.inl hsome) ho
        · apply hmarked
          unfold World.ownerAt at ho
          split at ho
          · rwa [hjob] at ho
          · cases ho
    · exact hmarked (mem_pendingOf.mp (of_decide_eq_true hsel)).2
  have hsel := (mem_prunable hout p).mp hp
  refine lt_of_le_of_ne (hmine p hsel.1) ?_
  rintro rfl
  refine hsel.2 ⟨mem_ofList.mpr hsel.1, Or.inl ?_⟩
  rintro (⟨h0, hcount⟩ | ho)
  · rw [above_eq_zero fun y hy => hmine y (mem_ofList.mp hy)] at hcount
    omega
  · exact hold ho

end

/-! ## the run -/

/-- a local file is unlinked only as a pending marker, or when an off-site destination of the job
has stored archive and manifest of its snapshot -/
def UnlinkGuard (job : Job) (n : ℕ) (w w' : World) : Prop :=
  ∀ name b, w'.log = w.log ++ [(.unlink name, b)] → (∃ q, name = q ++ pendingSuffix) ∨
    ∃ c q archive, .s3 c ∈ specDests job.destinations ∧ w.ShippedSince n (.s3 c) archive q ∧
      (name = archive ∨ name = q ++ manifestSuffix)

theorem UnlinkGuard.of_log {job : Job} {n : ℕ} {w w' : World} {es : List (Op × Bool)}
    (hlog : w'.log = w.log ++ es) (h : ∀ name b, (.unlink name, b) ∉ es) :
    UnlinkGuard job n w w' := by
  intro name b he
  have hes : es = [(.unlink name, b)] := List.append_cancel_left (hlog.symm.trans he)
  exact absurd (by rw [hes]; exact List.mem_cons_self) (h name b)

theorem UnlinkGuard.of_quiet {job : Job} {n : ℕ} {w w' : World} (h : Quiet w w') :
    UnlinkGuard job n w w' := by
  obtain ⟨-, es, hlog, hes⟩ := h
  exact UnlinkGuard.of_log hlog fun name b hm => hes _ hm

theorem UnlinkGuard.of_unlinked {job : Job} {n : ℕ} {w w' : World} {name : Str} {b : Bool}
    (hlog : w'.log = w.log ++ [(.unlink name, b)])
    (h : (∃ q, name = q ++ pendingSuffix) ∨ ∃ c q archive, .s3 c ∈ specDests job.destinations ∧
      w.ShippedSince n (.s3 c) archive q ∧ (name = archive ∨ name = q ++ manifestSuffix)) :
    UnlinkGuard job n w w' := by
  intro name' b' hlog'
  have hsame := List.append_cancel_left (hlog.symm.trans hlog')
  simp only [List.cons.injEq, Prod.mk.injEq, Op.unlink.injEq] at hsame
  rwa [← hsame.1.1]

/-- a file of a snapshot that an off-site destination has stored -/
theorem UnlinkGuard.of_shipped {job : Job} {n : ℕ} {w w' : World} {name archive q : Str} {b : Bool} {d : Dest}
    (hlog : w'.log = w.log ++ [(.unlink name, b)]) (hd : d ∈ places job) (hl : d ≠ .local)
    (hship : w.ShippedSince n d archive q) (hname : name = archive ∨ name = q ++ manifestSuffix) :
    UnlinkGuard job n w w' := by
  cases d with
  | «local» => exact absurd rfl hl
  | s3 c => exact .of_unlinked hlog (Or.inr ⟨c, q, archive, s3_mem_places.mp hd, hship, hname⟩)

/-- the destinations `S` hold the snapshot -/
structure Stored (env : Env) (a : RunArgs) (made : Made) (n : ℕ) (own : Prop) (S : List Dest)
    (w : World) : Prop where
  holds : ∀ d ∈ S, Holds env a made d w
  shipped : ∀ d ∈ S, d ∈ places a.job ∧
    w.ShippedSince n d (archiveName a.sid made.encrypted) a.sid
  newest : Newest env a own w
  since : n ≤ w.log.length

/-- some place holds the snapshot, and not only the data dir if an off-site destination stored it -/
structure Ended (env : Env) (a : RunArgs) (made : Made) (n : ℕ) (S : List Dest) (w : World) :
    Prop where
  copy : S ≠ [] → ∃ d ∈ places a.job, Holds env a made d w ∧ (offsiteOf S ≠ [] → d ≠ .local)
  shipped : ∀ d ∈ S, d ∈ places a.job ∧
    w.ShippedSince n d (archiveName a.sid made.encrypted) a.sid

theorem Stored.ended {env : Env} {a : RunArgs} {made : Made} {n : ℕ} {own : Prop} {S : List Dest}
    {w : World} (h : Stored env a made n own S w) : Ended env a made n S w := by
  refine ⟨fun hne => ?_, h.shipped⟩
  by_cases hoff : offsiteOf S = []
  · obtain ⟨d, hd⟩ := List.exists_mem_of_ne_nil S hne
    exact ⟨d, (h.shipped d hd).1, h.holds d hd, fun hc => absurd hoff hc⟩
  · obtain ⟨d, hd⟩ := List.exists_mem_of_ne_nil _ hoff
    obtain ⟨hd, hl⟩ := mem_offsiteOf.mp hd
    exact ⟨d, (h.shipped d hd).1, h.holds d hd, fun _ => hl⟩

theorem Stored.of_quiet {env : Env} {a : RunArgs} {made : Made} {n : ℕ} {own : Prop}
    {S : List Dest} {w w' : World} (h : Stored env a made n own S w) (hq : Quiet w w') :
    Stored env a made n own S w' := by
  obtain ⟨hs, es, hlog, -⟩ := hq
  refine ⟨fun d hd => (h.holds d hd).of_files hs, fun d hd => ?_, h.newest.of_files hs, ?_⟩
  · exact ⟨(h.shipped d hd).1, (h.shipped d hd).2.mono hlog⟩
  · rw [hlog, List.length_append]
    exact Nat.le_add_right_of_le h.since

section
variable {env : Env} {a : RunArgs} {made : Made} {n : ℕ} {own : Prop}
  (hapart : Apart env (specDests a.job.destinations)) (hid : Chosen a a.sid)
include hapart hid

/-- an operation on a name `<p>.…` of an older snapshot -/
theorem Stored.of_older {S : List Dest} {w w' : World} (h : Stored env a made n own S w) {d : Dest}
    (hd : d ∈ places a.job) {p y : Str} (hp : p < a.sid) (hy : p ++ ['.'] <+: y)
    (he : Elsewhere (d.loc env) (d.pre ++ y) w w') (hnew : Newest env a own w') {e : Op × Bool}
    (hlog : w'.log = w.log ++ [e]) : Stored env a made n own S w' := by
  refine ⟨fun x hx => ?_, fun x hx => ?_, hnew, ?_⟩
  · exact (h.holds x hx).of_elsewhere he fun z hz =>
      own_ne_older hapart hid.dotless (h.shipped x hx).1 hd hz hp hy
  · exact ⟨(h.shipped x hx).1, (h.shipped x hx).2.mono hlog⟩
  · rw [hlog, List.length_append]
    exact Nat.le_add_right_of_le h.since

/-- the upload to one more destination -/
theorem Stored.upload {dests before after S : List Dest} {d : Dest} {w : World}
    (ht : Target a.job dests) (hd : dests = before ++ d :: after) (hS : S.Sublist before)
    (h : Stored env a made n own S w) :
    (uploadTo d (a.artifact made) (.work (.manifest (a.manifest env made))) a.sid).wp env.step
      (UnlinkGuard a.job n) (fun r w' => Stored env a made n own (if isOk r then S ++ [d] else S) w') w := by
  have hmem : d ∈ places a.job := ht.subset (by rw [hd]; simp)
  have hname := artifact_name made hid.slashless
  -- the destinations before `d` are other places
  have hother : ∀ x ∈ S, ∀ z y, (x.loc env, x.pre ++ z) ≠ (d.loc env, d.pre ++ y) := by
    intro x hx z y he
    have hxb := hS.subset hx
    rcases ht with hsub | hone
    · have hpair := (hapart.distinct.sublist hsub)
      rw [hd] at hpair
      have hne := (List.pairwise_append.mp hpair).2.2 x hxb d List.mem_cons_self
      have hxp : x ∈ places a.job := (h.shipped x hx).1
      exact hne (by rw [(Prod.mk.inj he).1, (room_eq hapart hxp hmem he).1])
    · rw [hone] at hd
      cases before with
      | nil => simp at hxb
      | cons b before => simp at hd
  have hkeep : ∀ {y c r w w'}, Wrote (d.loc env) (d.pre ++ y) c w r w' →
      (∀ x ∈ S, Holds env a made x w) → ∀ x ∈ S, Holds env a made x w' :=
    fun hw hs x hx => (hs x hx).of_elsewhere hw.other fun z _ => hother x hx z _
  have hnewest : ∀ {y c src r w w'}, Own a made y → Read (.work src) c w r w' →
      Wrote (d.loc env) (d.pre ++ y) c w r w' → Newest env a own w → Newest env a own w' := by
    intro y c src r w w' hy hread hw hn
    rcases hread with hc | ⟨-, hfiles⟩
    · refine hn.of_wrote hw (fun d' hd' q he => Or.inl ?_) fun q he => ?_
      · obtain ⟨-, rfl⟩ := room_eq hapart hd' hmem he
        rcases hy with hy | hy
        · exact absurd hy.symm (archive_not_manifest _ _ _)
        · exact (List.append_cancel_right hy).le
      · obtain rfl := local_eq hapart hmem he.symm
        rcases hy with hy | hy
        · exact absurd hy.symm (archive_not_pending _ _ _)
        · exact absurd hy.symm (manifest_not_pending _ _)
    · exact hn.of_files hfiles
  apply wp_uploadTo
  intro c r w₁ hread hwrote hlog
  rw [hname] at hwrote hlog
  have hnew₁ := hnewest (Or.inl rfl) hread hwrote h.newest
  have hholds₁ := hkeep hwrote h.holds
  have hsince₁ : n ≤ w₁.log.length := by
    rw [hlog, List.length_append]
    exact Nat.le_add_right_of_le h.since
  refine ⟨UnlinkGuard.of_log hlog (by simp), ?_, ?_⟩
  · rintro e rfl
    exact ⟨hholds₁, fun x hx => ⟨(h.shipped x hx).1, (h.shipped x hx).2.mono hlog⟩, hnew₁, hsince₁⟩
  · rintro rfl c' r' w₂ hread' hwrote' hlog'
    have hnew₂ := hnewest (Or.inr rfl) hread' hwrote' hnew₁
    have hholds₂ := hkeep hwrote' hholds₁
    have hsince₂ : n ≤ w₂.log.length := by
      rw [hlog', List.length_append]
      exact Nat.le_add_right_of_le hsince₁
    have hship : ∀ x ∈ S, x ∈ places a.job ∧
        w₂.ShippedSince n x (archiveName a.sid made.encrypted) a.sid :=
      fun x hx => ⟨(h.shipped x hx).1, ((h.shipped x hx).2.mono hlog).mono hlog'⟩
    refine ⟨UnlinkGuard.of_log hlog' (by simp), ?_⟩
    cases r' with
    | error e => exact ⟨hholds₂, hship, hnew₂, hsince₂⟩
    | ok u =>
      have hc : c = .raw made.archive := by
        rcases hread with hc | ⟨⟨e, he⟩, -⟩
        · exact (Option.some.inj hc).symm
        · simp at he
      have hc' : c' = .manifest (a.manifest env made) := by
        rcases hread' with hc' | ⟨⟨e, he⟩, -⟩
        · exact (Option.some.inj hc').symm
        · simp at he
      have hd₂ : Holds env a made d w₂ := by
        refine ⟨?_, ?_⟩
        · refine (hwrote'.other _ _ fun he => ?_).trans ((hwrote.done rfl).trans (by rw [hc]))
          exact archive_not_manifest _ _ _ (List.append_cancel_left (Prod.mk.inj he).2)
        · exact (hwrote'.done rfl).trans (by rw [hc'])
      refine ⟨?_, ?_, hnew₂, hsince₂⟩
      · intro x hx
        rcases List.mem_append.mp hx with hx | hx
        · exact hholds₂ x hx
        · rw [List.mem_singleton.mp hx]
          exact hd₂
      · intro x hx
        rcases List.mem_append.mp hx with hx | hx
        · exact hship x hx
        · rw [List.mem_singleton.mp hx]
          exact ⟨hmem, (World.PutSince.last h.since hlog).mono hlog',
            World.PutSince.last hsince₁ hlog'⟩

end

/-- **The conditions of an invariant of a run hold of `Stored` and `Ended`.** -/
theorem keeps_stored {env : Env} {a : RunArgs} {made : Made} {n : ℕ}
    (hapart : Apart env (specDests a.job.destinations)) (hid : Chosen a a.sid)
    (hjob : a.scope.job = a.job.name) :
    Keeps env (UnlinkGuard a.job n) a.job a.scope a.now (a.artifact made)
      (.work (.manifest (a.manifest env made))) a.sid n (Stored env a made n False)
      (fun S => Stored env a made n (offsiteOf S = []) S) (Ended env a made n) := by
  have hname := artifact_name made hid.slashless
  have hlocal : Dest.local ∈ places a.job := List.mem_cons_self
  -- where an off-site destination stored the snapshot, pending ids are older ones
  have holder : ∀ {S ws q}, Stored env a made n (offsiteOf S = []) S ws → offsiteOf S ≠ [] →
      q ∈ ws.pendingOf a.job.name → plain q ∧ q < a.sid := by
    intro S ws q h hoff hq
    obtain ⟨hfree, ho⟩ := mem_pendingOf.mp hq
    exact (h.newest.marked q hfree ho).resolve_left fun hs => hoff hs.2
  refine
    { calm := fun w w' => UnlinkGuard.of_quiet
      quietD := fun S w w' hq h => h.of_quiet hq
      quietI := fun S w w' hq h => h.of_quiet hq
      quietE := ?quietE
      since := fun S w h => h.since
      upload := fun dests ht before d after S w hd hS h => Stored.upload hapart hid ht hd hS h
      enter := fun S w h _ => ⟨h.holds, h.shipped, h.newest.mono False.elim, h.since⟩
      mark := ?mark
      ship := ?ship
      unlink := ?unlink
      prune := ?prune
      finish := fun S w h => h.ended
      drop := ?drop
      start := fun w h => h.ended }
  case quietE =>
    rintro S w w' ⟨hs, es, hlog, -⟩ h
    refine ⟨fun hne => ?_, fun d hd => ⟨(h.shipped d hd).1, (h.shipped d hd).2.mono hlog⟩⟩
    obtain ⟨d, hd, hh, hl⟩ := h.copy hne
    exact ⟨d, hd, hh.of_files hs, hl⟩
  case mark =>
    intro S w r w' h _ hoff _ hwrote _ hlog
    have hne : ∀ d ∈ places a.job, ∀ x, Own a made x →
        (d.loc env, d.pre ++ x) ≠ (Loc.data, a.sid ++ pendingSuffix) := by
      intro d hd x hx he
      have heq : x = a.sid ++ pendingSuffix := local_eq hapart hd he
      rcases hx with rfl | rfl
      · exact archive_not_pending _ _ _ heq
      · exact manifest_not_pending _ _ heq
    have hst : Stored env a made n (offsiteOf S = []) S w' := by
      refine ⟨fun d hd => (h.holds d hd).of_elsewhere hwrote.other (hne d (h.shipped d hd).1),
        fun d hd => ⟨(h.shipped d hd).1, (h.shipped d hd).2.mono hlog⟩, ?_, ?_⟩
      · refine (h.newest.mono False.elim).of_wrote hwrote (fun d hd q he => ?_) fun q he => ⟨?_, hoff⟩
        · exact absurd (local_eq hapart hd he) (manifest_not_pending _ _)
        · exact List.append_cancel_right (Prod.mk.inj he).2
      · rw [hlog, List.length_append]
        exact Nat.le_add_right_of_le h.since
    exact ⟨UnlinkGuard.of_log hlog (by simp), fun _ => hst, hst.ended⟩
  case ship =>
    intro S ws hs q hq w₀ b h₀ hb d hd key src c w r w' hship h hdata hwrote hlog
    have hkey := hship.name
    obtain ⟨hdS, hdl⟩ := mem_offsiteOf.mp hd
    have hoff : offsiteOf S ≠ [] := List.ne_nil_of_mem hd
    obtain ⟨hplain, hlt⟩ := holder hs hoff hq
    have hdp := (h.shipped d hdS).1
    obtain ⟨htar, hbfree, hbsome⟩ := artifactOf_some hplain hb
    have hkeydot : q ++ ['.'] <+: key := by
      rcases hkey with rfl | rfl
      · exact begins_tar htar
      · exact begins_manifest q
    have hdne : d.loc env ≠ Loc.data := by
      cases d with
      | «local» => exact absurd rfl hdl
      | s3 c => simp [Dest.loc]
    have hnew : Newest env a (offsiteOf S = []) w' := by
      refine h.newest.of_wrote hwrote (fun d' hd' q' he => ?_) fun q' he => ?_
      · obtain ⟨-, he⟩ := room_eq hapart hd' hdp he
        rcases hkey with rfl | rfl
        · -- the artifact found is itself called like a manifest, which lies in the data dir
          by_cases hdot : free '.' q'
          · rw [← he] at hkeydot
            exact Or.inl ((le_of_begins hdot hkeydot).trans hlt.le)
          · refine Or.inr ⟨hdot, ?_⟩
            show (w.get .data (q' ++ manifestSuffix)).isSome
            rw [hdata, he]
            exact hbsome
        · rw [List.append_cancel_right he]
          exact Or.inl hlt.le
      · exact absurd (Prod.mk.inj he).1.symm hdne
    exact ⟨UnlinkGuard.of_log hlog (by simp),
      h.of_older hapart hid hdp hlt hkeydot hwrote.other hnew hlog⟩
  case unlink =>
    intro S ws hs hoff q hq w₀ h₀ name w r w' h hreason hrem _ hlog
    obtain ⟨hplain, hlt⟩ := holder hs hoff hq
    obtain ⟨d, hd⟩ := List.exists_mem_of_ne_nil _ hoff
    obtain ⟨hdS, hdl⟩ := mem_offsiteOf.mp hd
    have hnamedot : q ++ ['.'] <+: name := by
      rcases hreason with ⟨rfl, -⟩ | ⟨b, hb, -, rfl | ⟨-, rfl | rfl⟩⟩
      · exact begins_pending q
      · exact begins_pending q
      · exact begins_tar (artifactOf_some hplain hb).1
      · exact begins_manifest q
    have hnew := h.newest.of_removed hrem fun x hdot he => by
      rw [← (Prod.mk.inj he).2] at hnamedot
      exact (le_of_begins hdot hnamedot).trans hlt.le
    refine ⟨?_, h.of_older hapart hid hlocal hlt hnamedot hrem.other hnew hlog⟩
    rcases hreason with ⟨rfl, -⟩ | ⟨b, -, hship, rfl | ⟨-, hname'⟩⟩
    · exact .of_unlinked hlog (Or.inl ⟨q, rfl⟩)
    · exact .of_unlinked hlog (Or.inl ⟨q, rfl⟩)
    · exact .of_shipped hlog (h.shipped d hdS).1 hdl (hship d hd) hname'
  case prune =>
    intro S w h dest hd only honly out hout p hp key hkey w₁ r w₂ h₁ _ hrem hlog
    have hlt := h.newest.prunable_lt hjob hid.recent hd honly hout hp
    have hnew := h₁.newest.of_removed hrem fun x hdot he => by
      rw [local_eq hapart hd he.symm] at hkey
      exact (le_of_begins hdot hkey).trans hlt.le
    exact ⟨UnlinkGuard.of_log hlog (by simp),
      h₁.of_older hapart hid hd hlt hkey hrem.other hnew hlog⟩
  case drop =>
    intro S hl hoff name hname' w r w' h hrem hlog
    obtain ⟨d, hd⟩ := List.exists_mem_of_ne_nil _ hoff
    obtain ⟨hdS, hdl⟩ := mem_offsiteOf.mp hd
    refine ⟨?_, fun hne => ?_, fun x hx => ⟨(h.shipped x hx).1, (h.shipped x hx).2.mono hlog⟩⟩
    · rw [hname] at hname'
      exact .of_shipped hlog (h.shipped d hdS).1 hdl (h.shipped d hdS).2 hname'
    · obtain ⟨x, hx, hh, hxl⟩ := h.copy hne
      refine ⟨x, hx, hh.of_elsewhere hrem.other fun z _ he => ?_, hxl⟩
      cases x with
      | «local» => exact hxl hoff rfl
      | s3 c => simp [Dest.loc] at he

/-- archive and manifest of the snapshot, the manifest with the components of the run and the hash
of the archive -/
def Dest.hasCopy (env : Env) (w : World) (sid : Str) (e : EncryptionMode)
    (components : List Component) (d : Dest) : Bool :=
  match d.at env w (archiveName sid e), d.at env w (sid ++ manifestSuffix) with
  | some (.raw archive), some (.manifest m) =>
    m.snapshotId = sid ∧ m.components = components ∧ m.archiveSha256 = some (env.sha256 archive)
  | _, _ => false

/-- some place of the job has a copy -/
def SomeCopy (env : Env) (a : RunArgs) (components : List Component) (w : World) : Prop :=
  ∃ d ∈ places a.job, ∃ e ∈ [EncryptionMode.none, .age, .gpg],
    d.hasCopy env w a.sid e components = true

instance (env : Env) (a : RunArgs) (components : List Component) (w : World) :
    Decidable (SomeCopy env a components w) :=
  inferInstanceAs (Decidable (∃ d ∈ places a.job, ∃ e ∈ [EncryptionMode.none, .age, .gpg], _))

/-- **No last copy is lost.**  Whatever calls fail: if the run returns and not because nothing stored
the snapshot, some place has a copy of this run's snapshot; and on the way every unlinked local file
was a pending marker, or of a snapshot whose archive and manifest an off-site destination of the job
had stored in this run. -/
theorem no_last_copy_lost (env : Env) (a : RunArgs) (made : Except Raised Made) (w : World)
    (hjob : a.scope.job = a.job.name)
    (hapart : Apart env (specDests a.job.destinations))
    (hid : ∀ s, a.snapshotId = some s → s ≠ [] → Chosen a s)
    (hnew : ∀ q ∈ rivals env a w, q < a.sid)
    (hplain : ∀ q ∈ w.pendingOf a.job.name, plain q) :
    (runJob env a made).wp env.step (UnlinkGuard a.job w.log.length) (fun r w' =>
      ∀ result, r = .ok result → (result.status ≠ .error ∨ notStoredText ∉ result.errors) →
        SomeCopy env a result.components w') w := by
  cases made with
  | error raised =>
    refine Prog.wp_post (wp_runJob_raised (fun w w' => UnlinkGuard.of_quiet) a raised w)
      fun r w' hr result hres => ?_
    obtain ⟨-, e, he⟩ := hr
    rw [he] at hres
    simp at hres
  | ok made =>
    have hstart : Stored env a made w.log.length False [] w :=
      ⟨by simp, by simp, Newest.start hnew hplain, le_rfl⟩
    refine Prog.wp_post ((keeps_stored hapart (sid_chosen hid) hjob).runJob hstart)
      fun r w' hr result hres hstatus => ?_
    obtain ⟨delivery, errors, hE, -, herr, hnot, hst, hcomp⟩ := hr.1 result hres
    have hne : delivery.stored ≠ [] := by
      intro hnil
      rcases hstatus with h | h
      · apply h
        rw [hst, hnil]
        simp [jobStatus]
      · apply h
        rw [herr]
        exact List.mem_append_right _ (hnot hnil)
    obtain ⟨d, hd, hh, -⟩ := hE.copy hne
    refine ⟨d, hd, made.encrypted, by cases made.encrypted <;> simp, ?_⟩
    unfold Dest.hasCopy
    rw [hh.archive, hh.manifest, hcomp]
    simp [RunArgs.manifest, Manifest.build]

/-! ## concrete runs -/

/-- a run that catches up a snapshot of the day before -/
def catchUpRun : RunArgs :=
  runAt { destinations := [.local, offsiteBucket], keepLocal := false } none

theorem no_last_copy_lost_catchUp :
    (runJob plainEnv catchUpRun (.ok bundle)).wp plainEnv.step
      (UnlinkGuard catchUpRun.job catchUpWorld.log.length) (fun r w' =>
        ∀ result, r = .ok result → (result.status ≠ .error ∨ notStoredText ∉ result.errors) →
          SomeCopy plainEnv catchUpRun result.components w') catchUpWorld :=
  no_last_copy_lost plainEnv catchUpRun (.ok bundle) catchUpWorld rfl
    ⟨by decide, by decide⟩ (fun s hs => by simp [catchUpRun, runAt] at hs) (by decide +kernel)
    (by decide +kernel)

/-- **Where the last copy is lost**: two local destinations of which the second fails half-way; a
chosen id that begins with another id and a dot; a chosen id past the age limit; a pending marker
whose id is a pattern, with an upload that fails half-way. -/
theorem last_copy_lost :
    let lost := fun (a : RunArgs) (w : World) (faults : List Fault) =>
      let r := (runJob plainEnv a (.ok bundle)).exec plainEnv.step .calm faults w
      (∀ d ∈ places a.job, ∀ q ∈ w.mine plainEnv d a.scope none, q < a.sid) ∧
        (∃ status ∈ [Status.success, .warning], r.1.toOption.map (·.status) = some status) ∧
        ¬ SomeCopy plainEnv a [] r.2
    lost (runAt { destinations := [.local, .local] } none) (worldOf [])
        [.calm, .calm, .calm, torn] ∧
      lost (runAt { retention := { count := 1 } } (some "a.b".toList))
        (worldOf [onlyManifest "a".toList]) [] ∧
      lost (runAt { retention := { count := 0, ageDays := 1, smartLast := false } }
        (some "2000-01-01_00-00-00".toList)) (worldOf []) [] ∧
      lost (runAt { destinations := [.local, offsiteBucket], keepLocal := false } none)
        (worldOf [("*".toList ++ pendingSuffix, .marker "main".toList), onlyManifest "*".toList])
        [.calm, .calm, .calm, .calm, .calm, .calm, .calm, .calm, .calm, .calm, torn] := by
  decide +kernel

end BackupHelper
