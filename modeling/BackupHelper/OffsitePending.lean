import BackupHelper.Runner.Names

/-!
# No snapshot is forgotten off-site

Over any sequence of runs of a job, a snapshot that lies complete in the data dir and that no
off-site destination has stored keeps its pending marker; and a run removes a marker only when it has
uploaded the snapshot wherever its own was stored, or when the snapshot is no longer complete.

* `Snap.Awaited`            stored in the data dir, still there, never stored off-site;
* `Clear`                   the condition on the ids: `<id>.tar.gz*`, the pattern an archive is looked
                            up with, matches the archive of that id only;
* `no_snapshot_forgotten`   the runs.

A run treats three kinds of snapshots (`Others`): those of earlier runs stay `Tracked`, the ids of
later runs stay `Unused`, and its own becomes `Tracked`.  Retention deletes `<id>.manifest.json`
before `<id>.offsite-pending.json`, so a marker never goes before the manifest.
-/

set_option linter.unusedSectionVars false

namespace BackupHelper
open Text Glob Effects Calendar

/-! ## runs in sequence -/

/-- a run, with what its sources come to -/
structure Run where
  args : RunArgs
  made : Except Raised Made

/-- a run that raises does not keep the next one from starting -/
def runAll (env : Env) : List Run → M Unit
  | [] => pure ()
  | r :: rs => do
    let _ ← runJob env r.args r.made
    runAll env rs

/-- a snapshot, by its id and how its archive is encrypted -/
structure Snap where
  sid : Str
  encrypted : EncryptionMode
deriving DecidableEq

def Snap.arch (s : Snap) : Str := archiveName s.sid s.encrypted

def Run.snap (r : Run) : Snap :=
  match r.made with
  | .ok made => ⟨r.args.sid, made.encrypted⟩
  | .error _ => ⟨r.args.sid, .none⟩

theorem Run.snap_sid (r : Run) : r.snap.sid = r.args.sid := by
  unfold Run.snap
  cases r.made <;> rfl

/-! ## what is claimed -/

/-- put into the data dir after the first `n` operations, still there, never stored off-site -/
def Snap.Awaited (s : Snap) (n : ℕ) (job : Job) (w : World) : Prop :=
  w.ShippedSince n .local s.arch s.sid ∧ (w.get .data s.arch).isSome ∧
    (w.get .data (s.sid ++ manifestSuffix)).isSome ∧
    ∀ c ∈ job.offsite, ¬ w.ShippedSince n (.s3 c) s.arch s.sid

/-- the snapshot was delivered to `d` by the run itself -/
def World.DeliveredSince (w : World) (k : ℕ) (d : Dest) (s : Snap) : Prop :=
  (∃ x, (Op.put d s.arch (.work x), true) ∈ w.log.drop k) ∧
    ∃ x, (Op.put d (s.sid ++ manifestSuffix) (.work x), true) ∈ w.log.drop k

/-- `s` was uploaded to every off-site destination that has stored the run's own snapshot `cur`, or
is no longer complete -/
def MayForget (k : ℕ) (job : Job) (cur s : Snap) (w : World) : Prop :=
  (∀ c ∈ job.offsite, w.DeliveredSince k (.s3 c) cur → w.ShippedSince k (.s3 c) s.arch s.sid) ∨
    w.get .data s.arch = none ∨ w.get .data (s.sid ++ manifestSuffix) = none

/-- a marker goes only when its snapshot may be forgotten -/
def MarkerGuard (k : ℕ) (job : Job) (cur : Snap) (snaps : List Snap) (w w' : World) : Prop :=
  ∀ s ∈ snaps, (w.get .data (s.sid ++ pendingSuffix)).isSome →
    w'.get .data (s.sid ++ pendingSuffix) = none → MayForget k job cur s w

/-- the name matches the pattern that the archive of `s` is looked up with -/
def looksUp (s k : Str) : Bool := fnmatch (s ++ tarSuffix ++ ['*']) k

/-- a file of this name is taken for one of snapshot `s` by catch-up or retention -/
def Concerns (s k : Str) : Prop :=
  looksUp s k = true ∨ k = s ++ manifestSuffix ∨ k = s ++ pendingSuffix ∨
    k = markerId s ++ manifestSuffix

instance (s k : Str) : Decidable (Concerns s k) := inferInstanceAs (Decidable (_ ∨ _ ∨ _ ∨ _))

/-- the files of one of `ids` are not taken for files of another one or of one of `known` -/
structure Unmistakable (known ids : List Str) : Prop where
  slashless : ∀ s ∈ ids, free '/' s
  finds : ∀ s ∈ ids, ∀ e, looksUp s (archiveName s e) = true
  apart : ∀ q ∈ known ++ ids, ∀ s ∈ ids, s ≠ markerId q ∧
    looksUp q (s ++ manifestSuffix) = false ∧ looksUp q (s ++ pendingSuffix) = false ∧
    ∀ e, q ≠ s → looksUp q (archiveName s e) = false

/-- the condition on the ids of the runs, and of the markers that are there before them -/
structure Clear (w : World) (job : Job) (ids : List Str) : Prop
    extends Unmistakable (w.pendingOf job.name) ids where
  nodup : ids.Nodup
  fresh : ∀ s ∈ ids, ∀ k ∈ (w.files .data).keys, ¬ Concerns s k

/-! ## one snapshot -/

/-- nothing of the snapshot is in the data dir, and its manifest was not put there -/
structure Unused (n : ℕ) (s : Str) (w : World) : Prop where
  files : ∀ k, Concerns s k → w.get .data k = none
  put : ¬ w.PutSince n .local (s ++ manifestSuffix)

/-- no other file is taken for one of the snapshot -/
structure OwnFiles (s : Snap) (w : World) : Prop where
  finds : looksUp s.sid s.arch = true
  archive : ∀ k, looksUp s.sid k = true → (w.get .data k).isSome → k = s.arch
  marker : w.get .data (markerId s.sid ++ manifestSuffix) = none

structure Tracked (n : ℕ) (job : Job) (s : Snap) (w : World) : Prop where
  files : OwnFiles s w
  pending : s.Awaited n job w → w.owner (s.sid ++ pendingSuffix) = some job.name

/-- a name of snapshot `q` itself -/
def OwnName (q : Snap) (k : Str) : Prop :=
  k = q.arch ∨ k = q.sid ++ manifestSuffix ∨ k = q.sid ++ pendingSuffix

theorem Unmistakable.not_concerns {known ids : List Str} (hu : Unmistakable known ids) {q : Snap}
    {s k : Str} (hq : q.sid ∈ ids) (hs : s ∈ ids) (hne : q.sid ≠ s) (hk : OwnName q k) :
    ¬ Concerns s k := by
  obtain ⟨hid, hman, hpend, harch⟩ := hu.apart s (List.mem_append_right _ hs) _ hq
  rcases hk with rfl | rfl | rfl
  · rintro (h | h | h | h)
    · exact Bool.false_ne_true ((harch _ hne.symm).symm.trans h)
    · exact archive_not_manifest _ _ _ h
    · exact archive_not_pending _ _ _ h
    · exact archive_not_manifest _ _ _ h
  · rintro (h | h | h | h)
    · exact Bool.false_ne_true (hman.symm.trans h)
    · exact hne (List.append_cancel_right h)
    · exact manifest_not_pending _ _ h
    · exact hid (List.append_cancel_right h)
  · rintro (h | h | h | h)
    · exact Bool.false_ne_true (hpend.symm.trans h)
    · exact manifest_not_pending _ _ h.symm
    · exact hne (List.append_cancel_right h)
    · exact manifest_not_pending _ _ h.symm

/-- ids without dots and pattern characters, as the engine generates them -/
theorem Unmistakable.of_plain {known ids : List Str} (hslash : ∀ s ∈ ids, free '/' s)
    (hplain : ∀ q ∈ known ++ ids, plain q) (hdot : ∀ s ∈ ids, free '.' s) :
    Unmistakable known ids := by
  have hlook : ∀ q ∈ known ++ ids, ∀ k, looksUp q k = true ↔ q ++ tarSuffix <+: k :=
    fun q hq k => fnmatch_begins (plain_tar (hplain q hq)) k
  have hnot : ∀ q, ∀ s ∈ ids, ¬ q ++ tarSuffix <+: s := by
    intro q s hs h
    exact hdot s hs (h.subset (List.mem_append_right q (by decide)))
  refine ⟨hslash, fun s hs e => ?_, fun q hq s hs => ⟨?_, ?_, ?_, fun e hne => ?_⟩⟩
  · exact (hlook s (List.mem_append_right _ hs) _).mpr (List.prefix_append _ _)
  · rintro rfl
    exact hdot _ hs (List.mem_append_right q (by decide))
  · rw [Bool.eq_false_iff, ne_eq, hlook q hq]
    exact fun h => hnot q s hs (tar_begins_manifest h)
  · rw [Bool.eq_false_iff, ne_eq, hlook q hq]
    exact fun h => hnot q s hs (tar_begins_pending h)
  · rw [Bool.eq_false_iff, ne_eq, hlook q hq]
    exact fun h => (tar_begins_archive h).elim hne (hnot q s hs)

section
variable {n : ℕ} {job : Job} {s : Snap} {w w' : World}

theorem looksUp_of_artifactOf {q b : Str} (h : w.artifactOf q = some b) :
    looksUp q b = true ∧ (w.get .data b).isSome := by
  have hmem : b ∈ w.globbed (q ++ tarSuffix ++ ['*']) := List.mem_of_mem_head? h
  obtain ⟨h1, -, h3⟩ := World.mem_globbed.mp hmem
  exact ⟨h3, h1⟩

theorem none_of_artifactOf {q b : Str} (h : w.artifactOf q = none) (hfree : free '/' b)
    (hb : looksUp q b = true) : w.get .data b = none := by
  by_contra hne
  have hmem : b ∈ w.globbed (q ++ tarSuffix ++ ['*']) :=
    World.mem_globbed.mpr ⟨Option.ne_none_iff_isSome.mp hne, hfree, hb⟩
  rw [List.head?_eq_none_iff.mp h] at hmem
  simp at hmem

theorem Unused.of_same {t : Str} (h : Unused n t w)
    (hdata : ∀ k, Concerns t k → w'.get .data k = w.get .data k)
    (hput : w'.PutSince n .local (t ++ manifestSuffix) → w.PutSince n .local (t ++ manifestSuffix)) :
    Unused n t w' :=
  ⟨fun k hk => (hdata k hk).trans (h.files k hk), fun hp => h.put (hput hp)⟩

theorem OwnFiles.of_same (h : OwnFiles s w)
    (hdata : ∀ k, Concerns s.sid k → w'.get .data k = w.get .data k) : OwnFiles s w' := by
  refine ⟨h.finds, fun k hk hs => ?_, (hdata _ (Or.inr (Or.inr (Or.inr rfl)))).trans h.marker⟩
  rw [hdata k (Or.inl hk)] at hs
  exact h.archive k hk hs

theorem Tracked.of_same (h : Tracked n job s w)
    (hdata : ∀ k, Concerns s.sid k → w'.get .data k = w.get .data k)
    (hput : ∀ k, Concerns s.sid k → w'.PutSince n .local k → w.PutSince n .local k)
    {es : List (Op × Bool)} (hlog : w'.log = w.log ++ es) : Tracked n job s w' := by
  have harch : Concerns s.sid s.arch := Or.inl h.files.finds
  have hman : Concerns s.sid (s.sid ++ manifestSuffix) := Or.inr (Or.inl rfl)
  refine ⟨h.files.of_same hdata, fun ⟨⟨h1, h2⟩, h3, h4, h5⟩ => ?_⟩
  rw [hdata _ harch] at h3
  rw [hdata _ hman] at h4
  have ho := h.pending ⟨⟨hput _ harch h1, hput _ hman h2⟩, h3, h4,
    fun c hc hs => h5 c hc (hs.mono hlog)⟩
  rw [World.owner_eq_some] at ho ⊢
  rwa [hdata _ (Or.inr (Or.inr (Or.inl rfl)))]

theorem OwnFiles.of_removed {key : Str} {r : Except Exc Unit} (h : OwnFiles s w)
    (hrem : Removed .data key w r w') : OwnFiles s w' := by
  refine ⟨h.finds, fun k hk hs => ?_, hrem.get_none h.marker⟩
  rw [hrem.get_of_isSome hs] at hs
  exact h.archive k hk hs

/-- why the marker of `s` may go: `s` was stored off-site or is no longer complete -/
def Settled (n : ℕ) (job : Job) (s : Snap) (w : World) : Prop :=
  w.get .data s.arch = none ∨ w.get .data (s.sid ++ manifestSuffix) = none ∨
    ∃ c ∈ job.offsite, w.ShippedSince n (.s3 c) s.arch s.sid

theorem Tracked.of_removed {key : Str} {r : Except Exc Unit} (h : Tracked n job s w)
    (hrem : Removed .data key w r w') {es : List (Op × Bool)} (hlog : w'.log = w.log ++ es)
    (hes : ∀ k, w'.PutSince n .local k → w.PutSince n .local k)
    (hmark : key = s.sid ++ pendingSuffix → Settled n job s w) : Tracked n job s w' := by
  refine ⟨h.files.of_removed hrem, fun ⟨⟨h1, h2⟩, h3, h4, h5⟩ => ?_⟩
  rw [hrem.get_of_isSome h3] at h3
  rw [hrem.get_of_isSome h4] at h4
  have hoff : ∀ c ∈ job.offsite, ¬ w.ShippedSince n (.s3 c) s.arch s.sid :=
    fun c hc hs => h5 c hc (hs.mono hlog)
  have hnot : key ≠ s.sid ++ pendingSuffix := by
    intro he
    rcases hmark he with hn | hn | ⟨c, hc, hs⟩
    · rw [hn] at h3
      simp at h3
    · rw [hn] at h4
      simp at h4
    · exact hoff c hc hs
  have ho := h.pending ⟨⟨hes _ h1, hes _ h2⟩, h3, h4, hoff⟩
  rw [World.owner_eq_some] at ho ⊢
  rwa [hrem.other _ _ fun e => hnot (Prod.mk.inj e).2.symm]

end

/-! ## all snapshots -/

/-- `done` are the snapshots of earlier runs, `cur` is the run's own, `todo` are the ids of later
runs and `known` the ids of markers that were there at first -/
structure Others (n : ℕ) (job : Job) (known : List Str) (done : List Snap) (cur : Snap)
    (todo : List Str) (w : World) : Prop where
  tracked : ∀ s ∈ done, Tracked n job s w
  own : OwnFiles cur w
  unused : ∀ t ∈ todo, Unused n t w
  marks : ∀ q ∈ w.pendingOf job.name, q ∈ known ∨ ∃ s ∈ cur :: done, s.sid = q

section
variable {env : Env} {n : ℕ} {job : Job} {known : List Str} {done : List Snap} {cur : Snap}
  {todo : List Str} {w w' : World}

theorem putSince_of_append {d : Dest} {k : Str} {es : List (Op × Bool)}
    (hlog : w'.log = w.log ++ es) (hes : ∀ src, (Op.put d k src, true) ∉ es)
    (h : w'.PutSince n d k) : w.PutSince n d k := by
  rcases h.of_append hlog with h | ⟨src, hs⟩
  · exact h
  · exact absurd hs (hes src)

theorem Others.of_same (h : Others n job known done cur todo w)
    (hdata : ∀ k, w'.get .data k = w.get .data k) {es : List (Op × Bool)}
    (hlog : w'.log = w.log ++ es) (hes : ∀ k src, (Op.put .local k src, true) ∉ es) :
    Others n job known done cur todo w' ∧ (Tracked n job cur w → Tracked n job cur w') := by
  have hput : ∀ k, w'.PutSince n .local k → w.PutSince n .local k :=
    fun k => putSince_of_append hlog (hes k)
  refine ⟨⟨fun s hs => ?_, ?_, fun t ht => ?_, fun q hq => h.marks q ?_⟩, fun hc => ?_⟩
  · exact (h.tracked s hs).of_same (fun k _ => hdata k) (fun k _ => hput k) hlog
  · exact h.own.of_same fun k _ => hdata k
  · exact (h.unused t ht).of_same (fun k _ => hdata k) (hput _)
  · rw [mem_pendingOf, World.owner_eq_some] at hq ⊢
    rwa [hdata] at hq
  · exact hc.of_same (fun k _ => hdata k) (fun k _ => hput k) hlog

theorem Others.of_removed (h : Others n job known done cur todo w) {key : Str}
    {r : Except Exc Unit} (hrem : Removed .data key w r w') {e : Op × Bool}
    (hlog : w'.log = w.log ++ [e]) (he : ∀ d k src, e ≠ (Op.put d k src, true))
    (hmark : ∀ s ∈ cur :: done, key = s.sid ++ pendingSuffix → Settled n job s w) :
    Others n job known done cur todo w' ∧ (Tracked n job cur w → Tracked n job cur w') := by
  have hput : ∀ k, w'.PutSince n .local k → w.PutSince n .local k := fun k =>
    putSince_of_append hlog fun src hm => he _ _ _ (List.mem_singleton.mp hm).symm
  refine ⟨⟨fun s hs => ?_, h.own.of_removed hrem, fun t ht => ?_, fun q hq => h.marks q ?_⟩,
    fun hc => ?_⟩
  · exact (h.tracked s hs).of_removed hrem hlog hput (hmark s (List.mem_cons_of_mem _ hs))
  · exact ⟨fun k hk => hrem.get_none ((h.unused t ht).files k hk), fun hp => (h.unused t ht).put (hput _ hp)⟩
  · rw [mem_pendingOf, World.owner_eq_some] at hq ⊢
    refine ⟨hq.1, ?_⟩
    rw [← hrem.get_of_isSome (by rw [hq.2]; rfl)]
    exact hq.2
  · exact hc.of_removed hrem hlog hput (hmark cur List.mem_cons_self)

/-- the run writes a file of its own snapshot -/
theorem Others.of_own (h : Others n job known done cur todo w) {key : Str} {c : Content}
    {r : Except Exc Unit} (hw : Wrote .data key c w r w') (hkey : OwnName cur key)
    {e : Op × Bool} (hlog : w'.log = w.log ++ [e])
    (he : ∀ d k src, e = (Op.put d k src, true) → k = key)
    (hself : looksUp cur.sid (cur.sid ++ manifestSuffix) = false ∧
      looksUp cur.sid (cur.sid ++ pendingSuffix) = false)
    (hfar : ∀ s, (s ∈ todo ∨ ∃ x ∈ done, x.sid = s) → ∀ k, OwnName cur k → ¬ Concerns s k) :
    Others n job known done cur todo w' := by
  have hdata : ∀ s, (s ∈ todo ∨ ∃ x ∈ done, x.sid = s) → ∀ k, Concerns s k →
      w'.get .data k = w.get .data k := by
    intro s hs k hk
    refine hw.other _ _ fun he => ?_
    rw [(Prod.mk.inj he).2] at hk
    exact hfar s hs key hkey hk
  have hput : ∀ s, (s ∈ todo ∨ ∃ x ∈ done, x.sid = s) → ∀ k, Concerns s k →
      w'.PutSince n .local k → w.PutSince n .local k := by
    intro s hs k hk
    refine putSince_of_append hlog fun src hm => ?_
    rw [he _ _ _ (List.mem_singleton.mp hm).symm] at hk
    exact hfar s hs key hkey hk
  refine ⟨fun s hs => ?_, ?_, fun t ht => ?_, fun q hq => ?_⟩
  · have hx : s.sid ∈ todo ∨ ∃ x ∈ done, x.sid = s.sid := Or.inr ⟨s, hs, rfl⟩
    exact (h.tracked s hs).of_same (hdata _ hx) (hput _ hx) hlog
  · refine ⟨h.own.finds, fun k hk hs => ?_, ?_⟩
    · by_cases hkk : k = key
      · subst hkk
        rcases hkey with rfl | rfl | rfl
        · rfl
        · exact absurd (hself.1.symm.trans hk) Bool.false_ne_true
        · exact absurd (hself.2.symm.trans hk) Bool.false_ne_true
      · rw [hw.other _ _ fun e => hkk (Prod.mk.inj e).2] at hs
        exact h.own.archive k hk hs
    · refine (hw.other _ _ fun e => ?_).trans h.own.marker
      have hm := (Prod.mk.inj e).2
      rcases hkey with rfl | rfl | rfl
      · exact archive_not_manifest _ _ _ hm.symm
      · exact markerId_ne _ (List.append_cancel_right hm)
      · exact manifest_not_pending _ _ hm
  · exact (h.unused t ht).of_same (hdata t (Or.inl ht)) (hput t (Or.inl ht) _ (Or.inr (Or.inl rfl)))
  · rw [mem_pendingOf, World.owner_eq_some] at hq
    by_cases hqk : q ++ pendingSuffix = key
    · refine Or.inr ⟨cur, List.mem_cons_self, ?_⟩
      rcases hkey with hk | hk | hk
      · exact absurd (hqk.trans hk).symm (archive_not_pending _ _ _)
      · exact absurd (hqk.trans hk).symm (manifest_not_pending _ _)
      · exact (List.append_cancel_right (hqk.trans hk)).symm
    · refine h.marks q (mem_pendingOf.mpr ⟨hq.1, World.owner_eq_some.mpr ?_⟩)
      rw [← hw.other _ _ fun e => hqk (Prod.mk.inj e).2]
      exact hq.2

end

/-! ## the run -/

/-- the destinations `S` have stored the snapshot of the run, which began after `k` operations -/
structure Sent (k : ℕ) (job : Job) (cur : Snap) (S : List Dest) (w : World) : Prop where
  since : k ≤ w.log.length
  stored : ∀ d ∈ S, d ∈ places job ∧ w.ShippedSince k d cur.arch cur.sid
  delivered : ∀ d x, (Op.put d (cur.sid ++ manifestSuffix) (.work x), true) ∈ w.log.drop k → d ∈ S

section
variable {k : ℕ} {job : Job} {cur : Snap} {S : List Dest} {snaps : List Snap} {w w' : World}

theorem Sent.grow (h : Sent k job cur S w) {es : List (Op × Bool)} (hlog : w'.log = w.log ++ es)
    {T : List Dest} (hT : ∀ d ∈ T, d ∈ places job ∧ w'.ShippedSince k d cur.arch cur.sid)
    (hes : ∀ d x, (Op.put d (cur.sid ++ manifestSuffix) (.work x), true) ∈ es → d ∈ S ++ T) :
    Sent k job cur (S ++ T) w' := by
  refine ⟨?_, fun d hd => ?_, fun d x hm => ?_⟩
  · rw [hlog, List.length_append]
    exact Nat.le_add_right_of_le h.since
  · rcases List.mem_append.mp hd with hd | hd
    · exact ⟨(h.stored d hd).1, (h.stored d hd).2.mono hlog⟩
    · exact hT d hd
  · rw [hlog, List.drop_append_of_le_length h.since] at hm
    rcases List.mem_append.mp hm with hm | hm
    · exact List.mem_append_left _ (h.delivered d x hm)
    · exact hes d x hm

theorem Sent.of_log (h : Sent k job cur S w) {es : List (Op × Bool)} (hlog : w'.log = w.log ++ es)
    (hes : ∀ d x, (Op.put d (cur.sid ++ manifestSuffix) (.work x), true) ∈ es → d ∈ S) :
    Sent k job cur S w' := by
  rw [← List.append_nil S] at hes ⊢
  exact h.grow hlog (by simp) hes

/-- an off-site destination that has stored the run's snapshot -/
theorem Sent.offsite (h : Sent k job cur S w) {d : Dest} (hd : d ∈ offsiteOf S) :
    ∃ c ∈ job.offsite, d = .s3 c := by
  obtain ⟨hdS, hl⟩ := mem_offsiteOf.mp hd
  cases d with
  | «local» => exact absurd rfl hl
  | s3 c => exact ⟨c, mem_offsite.mp (h.stored _ hdS).1, rfl⟩

theorem MarkerGuard.of_kept
    (h : ∀ s ∈ snaps, w'.get .data (s.sid ++ pendingSuffix) = w.get .data (s.sid ++ pendingSuffix)) :
    MarkerGuard k job cur snaps w w' := by
  intro s hs hsome hnone
  rw [h s hs] at hnone
  rw [hnone] at hsome
  simp at hsome

theorem MarkerGuard.of_removed {key : Str} {r : Except Exc Unit} (hrem : Removed .data key w r w')
    (h : ∀ s ∈ snaps, key = s.sid ++ pendingSuffix → MayForget k job cur s w) :
    MarkerGuard k job cur snaps w w' := by
  intro s hs hsome hnone
  by_cases he : key = s.sid ++ pendingSuffix
  · exact h s hs he
  · rw [hrem.other _ _ fun e => he (Prod.mk.inj e).2.symm] at hnone
    rw [hnone] at hsome
    simp at hsome

/-- `s` was uploaded wherever the run's own snapshot was stored off-site, or is no longer complete -/
def Excused (k : ℕ) (S : List Dest) (s : Snap) (w : World) : Prop :=
  (offsiteOf S ≠ [] ∧ ∀ d ∈ offsiteOf S, w.ShippedSince k d s.arch s.sid) ∨
    w.get .data s.arch = none ∨ w.get .data (s.sid ++ manifestSuffix) = none

theorem Excused.mayForget {s : Snap} (h : Excused k S s w) (hS : Sent k job cur S w) :
    MayForget k job cur s w := by
  refine h.imp_left fun ⟨_, hship⟩ c _ ⟨_, x, hx⟩ => hship _ ?_
  exact mem_offsiteOf.mpr ⟨hS.delivered _ x hx, by simp⟩

theorem Excused.settled {n : ℕ} (hnk : n ≤ k) {s : Snap} (h : Excused k S s w)
    (hS : Sent k job cur S w) : Settled n job s w := by
  rcases h with ⟨hoff, hship⟩ | h | h
  · obtain ⟨d, hd⟩ := List.exists_mem_of_ne_nil _ hoff
    obtain ⟨c, hc, rfl⟩ := hS.offsite hd
    exact Or.inr (Or.inr ⟨c, hc, (hship _ hd).1.anti hnk, (hship _ hd).2.anti hnk⟩)
  · exact Or.inl h
  · exact Or.inr (Or.inl h)

end

/-- the snapshots of a run: its own is none of the earlier and the later ones -/
structure Turn (known ids : List Str) (done : List Snap) (cur : Snap) (todo : List Str) : Prop
    extends Unmistakable known ids where
  now : cur.sid ∈ ids
  past : ∀ s ∈ done, s.sid ∈ ids ∧ s.sid ≠ cur.sid
  future : ∀ t ∈ todo, t ∈ ids ∧ t ≠ cur.sid

section
variable {env : Env} {n k : ℕ} {known ids : List Str} {done : List Snap} {todo : List Str}
  {a : RunArgs} {made : Made} {S : List Dest} {w w' : World}

/-- the snapshot of a run that gets as far as delivery -/
abbrev RunArgs.snap (a : RunArgs) (made : Made) : Snap := ⟨a.sid, made.encrypted⟩

/-- while the run delivers -/
structure Delivering (n k : ℕ) (job : Job) (known : List Str) (done : List Snap) (cur : Snap)
    (todo : List Str) (S : List Dest) (w : World) : Prop where
  others : Others n job known done cur todo w
  sent : Sent k job cur S w
  putOnce : w.PutSince n .local (cur.sid ++ manifestSuffix) → .local ∈ S

/-- once the run has marked its snapshot where that is needed -/
structure Marked (n k : ℕ) (job : Job) (known : List Str) (done : List Snap) (cur : Snap)
    (todo : List Str) (S : List Dest) (w : World) : Prop where
  others : Others n job known done cur todo w
  sent : Sent k job cur S w
  tracked : Tracked n job cur w

variable (ht : Turn known ids done (a.snap made) todo)
include ht

theorem Turn.far {s : Str} (hs : s ∈ todo ∨ ∃ x ∈ done, x.sid = s) {x : Str}
    (hx : OwnName (a.snap made) x) : ¬ Concerns s x := by
  have hmem : s ∈ ids ∧ s ≠ a.sid := by
    rcases hs with hs | ⟨x, hx, rfl⟩
    · exact ht.future s hs
    · exact ht.past x hx
  exact ht.not_concerns ht.now hmem.1 hmem.2.symm hx

theorem Turn.self : looksUp a.sid (a.sid ++ manifestSuffix) = false ∧
    looksUp a.sid (a.sid ++ pendingSuffix) = false :=
  have h := (ht.apart a.sid (List.mem_append_right _ ht.now) _ ht.now).2
  ⟨h.1, h.2.1⟩

/-- the run puts one of its two files to a destination -/
theorem Others.of_put (h : Others n a.job known done (a.snap made) todo w) {d : Dest} {x : Str}
    (hx : Own a made x) {c : Content} {r : Except Exc Unit} {src : Src} {b : Bool}
    (hw : Wrote (d.loc env) (d.pre ++ x) c w r w') (hlog : w'.log = w.log ++ [(.put d x src, b)]) :
    Others n a.job known done (a.snap made) todo w' ∧
      ∀ s, w'.get .data (s ++ pendingSuffix) = w.get .data (s ++ pendingSuffix) := by
  cases d with
  | «local» =>
    have hown : OwnName (a.snap made) x := hx.imp id Or.inl
    refine ⟨h.of_own hw hown hlog (fun d k src he => ?_) ht.self fun s hs x => ht.far hs, fun s => ?_⟩
    · simp only [Prod.mk.injEq, Op.put.injEq] at he
      exact he.1.2.1.symm
    · refine hw.other _ _ fun he => ?_
      have he : s ++ pendingSuffix = x := (Prod.mk.inj he).2
      rcases hx with rfl | rfl
      · exact archive_not_pending _ _ _ he.symm
      · exact manifest_not_pending _ _ he.symm
  | s3 c =>
    have hdata : ∀ k, w'.get .data k = w.get .data k :=
      fun k => hw.other _ _ fun he => by simp [Dest.loc] at he
    exact ⟨(h.of_same hdata hlog (by simp)).1, fun s => hdata _⟩

/-- the upload to one more destination -/
theorem Delivering.upload {d : Dest} (hd : d ∈ places a.job) (hfree : free '/' a.sid)
    (h : Delivering n k a.job known done (a.snap made) todo S w) :
    (uploadTo d (a.artifact made) (.work (.manifest (a.manifest env made))) a.sid).wp env.step
      (MarkerGuard k a.job (a.snap made) (done ++ [a.snap made]))
      (fun r w' => Delivering n k a.job known done (a.snap made) todo
        (if isOk r then S ++ [d] else S) w') w := by
  have hname := artifact_name made hfree
  have hne : (a.snap made).arch ≠ a.sid ++ manifestSuffix := archive_not_manifest _ _ _
  apply wp_uploadTo
  intro c r w₁ _ hwrote hlog
  rw [hname] at hwrote hlog
  obtain ⟨hothers₁, hkept₁⟩ := h.others.of_put ht (Or.inl rfl) hwrote hlog
  have hsent₁ : Sent k a.job (a.snap made) S w₁ := h.sent.of_log hlog fun d' x hm => by
    simp only [List.mem_singleton, Prod.mk.injEq, Op.put.injEq] at hm
    exact absurd hm.1.2.1.symm hne
  have honce₁ : w₁.PutSince n .local (a.sid ++ manifestSuffix) → Dest.local ∈ S := fun hp =>
    h.putOnce (putSince_of_append hlog (fun src hm => by
      simp only [List.mem_singleton, Prod.mk.injEq, Op.put.injEq] at hm
      exact absurd hm.1.2.1.symm hne) hp)
  refine ⟨MarkerGuard.of_kept fun s _ => hkept₁ _, ?_, ?_⟩
  · rintro e rfl
    exact ⟨hothers₁, hsent₁, honce₁⟩
  · rintro rfl c' r' w₂ _ hwrote' hlog'
    obtain ⟨hothers₂, hkept₂⟩ := hothers₁.of_put ht (Or.inr rfl) hwrote' hlog'
    refine ⟨MarkerGuard.of_kept fun s _ => hkept₂ _, hothers₂, ?_, fun hp => ?_⟩
    · cases r' with
      | error e => exact hsent₁.of_log hlog' (by simp [isOk])
      | ok u =>
        have hput : w₂.ShippedSince k d (a.snap made).arch a.sid :=
          ⟨(World.PutSince.last h.sent.since hlog).mono hlog', World.PutSince.last hsent₁.since hlog'⟩
        refine hsent₁.grow hlog' (fun d' hd' => ?_) fun d' x hm => ?_
        · rw [List.mem_singleton.mp hd']
          exact ⟨hd, hput⟩
        · simp only [List.mem_singleton, Prod.mk.injEq, Op.put.injEq] at hm
          rw [hm.1.1]
          exact List.mem_append_right _ (List.mem_singleton.mpr rfl)
    · rcases hp.of_append hlog' with hp | ⟨src, hm⟩
      · cases r' with
        | error e => exact honce₁ hp
        | ok u => exact List.mem_append_left _ (honce₁ hp)
      · simp only [List.mem_singleton, Prod.mk.injEq, Op.put.injEq] at hm
        cases r' with
        | error e => simp [isOk] at hm
        | ok u =>
          rw [hm.1.1]
          exact List.mem_append_right _ (List.mem_singleton.mpr rfl)

/-- why catch-up unlinks the marker of a snapshot -/
theorem UnlinkReason.excused {keepsLocal : Bool} {q name : Str} {w₀ : World} {s : Snap}
    (hq : q ∈ known ++ ids) (hs : s.sid ∈ ids) (hown : OwnFiles s w₀) (hoff : offsiteOf S ≠ [])
    (h : UnlinkReason k keepsLocal (offsiteOf S) q name w₀ w) (hname : name = s.sid ++ pendingSuffix) :
    Excused k S s w := by
  rcases h with ⟨rfl, hgone⟩ | ⟨b, hb, hship, hcase⟩
  · obtain rfl := List.append_cancel_right hname
    refine Or.inr (hgone.imp_left fun hn => ?_)
    have hfree : free '/' s.arch := by
      have he : free '/' (encryptSuffix s.encrypted) := by cases s.encrypted <;> decide
      exact free_append.mpr ⟨free_append.mpr ⟨ht.slashless _ hs, by decide⟩, he⟩
    exact none_of_artifactOf hn hfree hown.finds
  · obtain ⟨hlook, hthere⟩ := looksUp_of_artifactOf hb
    rcases hcase with rfl | ⟨-, rfl | rfl⟩
    · obtain rfl := List.append_cancel_right hname
      refine Or.inl ⟨hoff, ?_⟩
      rwa [hown.archive b hlook hthere] at hship
    · rw [hname, (ht.apart q hq _ hs).2.2.1] at hlook
      exact absurd hlook Bool.false_ne_true
    · exact absurd hname (manifest_not_pending _ _)

/-- **The conditions of an invariant of a run hold of `Delivering` and `Marked`.** -/
theorem keeps_marked (hnk : n ≤ k) (hoffsite : a.job.offsite ≠ [])
    (hsure : ∀ name j, env.sure (.writeMarker name j) = true) :
    Keeps env (MarkerGuard k a.job (a.snap made) (done ++ [a.snap made])) a.job a.scope a.now
      (a.artifact made) (.work (.manifest (a.manifest env made))) a.sid k
      (Delivering n k a.job known done (a.snap made) todo)
      (Marked n k a.job known done (a.snap made) todo)
      (Marked n k a.job known done (a.snap made) todo) := by
  have hfree : free '/' a.sid := ht.slashless _ ht.now
  have hname := artifact_name made hfree
  have hids : ∀ s ∈ a.snap made :: done, s.sid ∈ ids := by
    intro s hs
    rcases List.mem_cons.mp hs with rfl | hs
    · exact ht.now
    · exact (ht.past s hs).1
  have hsnaps : ∀ {s}, s ∈ done ++ [a.snap made] → s ∈ a.snap made :: done := by
    intro s hs
    simpa [or_comm] using hs
  have hown : ∀ {S w}, Marked n k a.job known done (a.snap made) todo S w →
      ∀ s ∈ a.snap made :: done, OwnFiles s w := by
    intro S w h s hs
    rcases List.mem_cons.mp hs with rfl | hs
    · exact h.tracked.files
    · exact (h.others.tracked s hs).files
  -- operations that leave the data dir alone
  have hsame : ∀ {S w w' es}, Marked n k a.job known done (a.snap made) todo S w →
      (∀ x, w'.get .data x = w.get .data x) → w'.log = w.log ++ es →
      (∀ d x src, (Op.put d x src, true) ∈ es → d ∈ S ∧ d ≠ .local) →
      MarkerGuard k a.job (a.snap made) (done ++ [a.snap made]) w w' ∧
        Marked n k a.job known done (a.snap made) todo S w' := by
    intro S w w' es h hdata hlog hes
    obtain ⟨hothers, htracked⟩ := h.others.of_same hdata hlog fun x src hm => (hes _ x src hm).2 rfl
    exact ⟨MarkerGuard.of_kept fun s _ => hdata _, hothers,
      h.sent.of_log hlog fun d x hm => (hes d _ _ hm).1, htracked h.tracked⟩
  have hremoved : ∀ {S w w' key r e}, Marked n k a.job known done (a.snap made) todo S w →
      Removed .data key w r w' → w'.log = w.log ++ [e] → (∀ d x src, e ≠ (Op.put d x src, true)) →
      (∀ s ∈ a.snap made :: done, key = s.sid ++ pendingSuffix → Excused k S s w) →
      MarkerGuard k a.job (a.snap made) (done ++ [a.snap made]) w w' ∧
        Marked n k a.job known done (a.snap made) todo S w' := by
    intro S w w' key r e h hrem hlog he hwhy
    obtain ⟨hothers, htracked⟩ := h.others.of_removed hrem hlog he
      fun s hs hk => (hwhy s hs hk).settled hnk h.sent
    refine ⟨?_, hothers, ?_, htracked h.tracked⟩
    · exact MarkerGuard.of_removed hrem fun s hs hk => (hwhy s (hsnaps hs) hk).mayForget h.sent
    · exact h.sent.of_log hlog fun d x hm => absurd (List.mem_singleton.mp hm).symm (he _ _ _)
  have hquiet : ∀ {w w'}, Quiet w w' → ∃ es, w'.log = w.log ++ es ∧
      ∀ d x src, (Op.put d x src, true) ∈ es → False := by
    rintro w w' ⟨-, es, hlog, hes⟩
    exact ⟨es, hlog, fun d x src hm => hes _ hm⟩
  have hquietI : ∀ S w w', Quiet w w' → Marked n k a.job known done (a.snap made) todo S w →
      Marked n k a.job known done (a.snap made) todo S w' := by
    intro S w w' hq h
    obtain ⟨es, hlog, hes⟩ := hquiet hq
    exact (hsame h (hq.get .data) hlog fun d x src hm => (hes d x src hm).elim).2
  refine
    { calm := fun w w' hq => MarkerGuard.of_kept fun s _ => hq.get _ _
      quietD := ?quietD
      quietI := hquietI
      quietE := hquietI
      since := fun S w h => h.sent.since
      upload := ?upload
      enter := ?enter
      mark := ?mark
      ship := ?ship
      unlink := ?unlink
      prune := ?prune
      finish := fun S w h => h
      drop := ?drop
      start := ?start }
  case quietD =>
    intro S w w' hq h
    obtain ⟨es, hlog, hes⟩ := hquiet hq
    refine ⟨(h.others.of_same (hq.get .data) hlog fun x src hm => hes _ _ _ hm).1,
      h.sent.of_log hlog fun d x hm => (hes _ _ _ hm).elim, fun hp => h.putOnce ?_⟩
    exact putSince_of_append hlog (fun src hm => hes _ _ _ hm) hp
  case upload =>
    intro dests htarget before d after S w hd _ h
    exact h.upload ht (htarget.subset (by rw [hd]; simp)) hfree
  case enter =>
    intro S w h hcase
    refine ⟨h.others, h.sent, h.others.own, fun hunsent => ?_⟩
    obtain ⟨⟨-, hput⟩, -, -, hnever⟩ := hunsent
    exfalso
    rcases hcase with hoff | hnil | hnil
    · obtain ⟨d, hd⟩ := List.exists_mem_of_ne_nil _ hoff
      obtain ⟨c, hc, rfl⟩ := h.sent.offsite hd
      have hs := (h.sent.stored _ (mem_offsiteOf.mp hd).1).2
      exact hnever c hc ⟨hs.1.anti hnk, hs.2.anti hnk⟩
    · exact hoffsite hnil
    · have hl := h.putOnce hput
      rw [hnil] at hl
      simp at hl
  case mark =>
    intro S w r w' h _ _ _ hwrote hr hlog
    obtain rfl := hr (hsure _ _)
    have hown' : OwnName (a.snap made) (a.sid ++ pendingSuffix) := Or.inr (Or.inr rfl)
    have hothers := h.others.of_own hwrote hown' hlog
      (fun d x src he => by simp only [Prod.mk.injEq, reduceCtorEq, false_and] at he)
      ht.self fun s hs x => ht.far hs
    have hM : Marked n k a.job known done (a.snap made) todo S w' :=
      ⟨hothers, h.sent.of_log hlog (by simp), hothers.own,
        fun _ => World.owner_eq_some.mpr (hwrote.done rfl)⟩
    refine ⟨fun s hs hsome hnone => ?_, fun _ => hM, hM⟩
    by_cases he : s.sid ++ pendingSuffix = a.sid ++ pendingSuffix
    · rw [he, hwrote.done rfl] at hnone
      simp at hnone
    · rw [hwrote.other _ _ fun e => he (Prod.mk.inj e).2] at hnone
      rw [hnone] at hsome
      simp at hsome
  case ship =>
    intro S ws _ q _ w₀ b _ _ d hd key src c w r w' _ h _ hwrote hlog
    obtain ⟨hdS, hl⟩ := mem_offsiteOf.mp hd
    refine hsame h (fun x => hwrote.other _ _ fun he => ?_) hlog fun d' x src' hm => ?_
    · cases d with
      | «local» => exact hl rfl
      | s3 c => simp [Dest.loc] at he
    · simp only [List.mem_singleton, Prod.mk.injEq, Op.put.injEq] at hm
      rw [hm.1.1]
      exact ⟨hdS, hl⟩
  case unlink =>
    intro S ws hs hoff q hq w₀ h₀ name w r w' h hreason hrem _ hlog
    have hqids : q ∈ known ++ ids := by
      rcases hs.others.marks q hq with hk | ⟨s, hs, rfl⟩
      · exact List.mem_append_left _ hk
      · exact List.mem_append_right _ (hids s hs)
    exact hremoved h hrem hlog (by simp) fun s hs hk =>
      hreason.excused ht hqids (hids s hs) (hown h₀ s hs) hoff hk
  case prune =>
    intro S w h dest hd only _ out hout p hp key hkey w₁ r w₂ h₁ hsmall hrem hlog
    cases dest with
    | s3 c =>
      exact hsame h₁ (fun x => hrem.other _ _ fun he => by simp [Dest.loc] at he) hlog (by simp)
    | «local» =>
      refine hremoved h₁ hrem hlog (by simp) fun s hs hk => Or.inr (Or.inr ?_)
      have hk' : key = s.sid ++ pendingSuffix := hk
      rw [hk'] at hkey hsmall
      rcases dot_begins_pending hkey with hman | rfl
      · -- the manifest was deleted before
        exact hsmall _ hman (manifest_lt_pending _)
      · have hthere := (mem_ids.mp (prunable_subset hout hp)).2
        have hnone : w.get .data (markerId s.sid ++ manifestSuffix) = none := (hown h s hs).marker
        have : (w.get .data (markerId s.sid ++ manifestSuffix)).isSome := hthere
        rw [hnone] at this
        simp at this
  case drop =>
    intro S _ _ name hname' w r w' h hrem hlog
    rw [hname] at hname'
    refine hremoved h hrem hlog (by simp) fun s _ hk => ?_
    rcases hname' with rfl | rfl
    · exact absurd hk (archive_not_pending _ _ _)
    · exact absurd hk (manifest_not_pending _ _)
  case start =>
    intro w h
    refine ⟨h.others, h.sent, h.others.own, fun hunsent => ?_⟩
    obtain ⟨⟨-, hput⟩, -⟩ := hunsent
    exact absurd (h.putOnce hput) (by simp)

end

/-! ## runs -/

/-- between two runs -/
structure Between (n : ℕ) (job : Job) (known : List Str) (done : List Snap) (todo : List Str)
    (w : World) : Prop where
  since : n ≤ w.log.length
  tracked : ∀ s ∈ done, Tracked n job s w
  unused : ∀ t ∈ todo, Unused n t w
  marks : ∀ q ∈ w.pendingOf job.name, q ∈ known ∨ ∃ s ∈ done, s.sid = q

section
variable {env : Env} {n : ℕ} {job : Job} {known ids : List Str} {done : List Snap} {todo : List Str}
  {w : World}

theorem Between.others {s : Snap} (hfind : looksUp s.sid s.arch = true)
    (h : Between n job known done (s.sid :: todo) w) :
    Others n job known done s todo w ∧ Tracked n job s w := by
  have hs := h.unused s.sid List.mem_cons_self
  have hown : OwnFiles s w := by
    refine ⟨hfind, fun x hx hsome => ?_, hs.files _ (Or.inr (Or.inr (Or.inr rfl)))⟩
    rw [hs.files x (Or.inl hx)] at hsome
    simp at hsome
  refine ⟨⟨h.tracked, hown, fun t ht => h.unused t (List.mem_cons_of_mem _ ht), fun q hq => ?_⟩,
    hown, fun haw => absurd haw.1.2 hs.put⟩
  exact (h.marks q hq).imp_right fun ⟨x, hx, he⟩ => ⟨x, List.mem_cons_of_mem _ hx, he⟩

theorem Others.between {s : Snap} (h : Others n job known done s todo w) (hs : Tracked n job s w)
    (hn : n ≤ w.log.length) : Between n job known (done ++ [s]) todo w := by
  refine ⟨hn, fun x hx => ?_, h.unused, fun q hq => ?_⟩
  · rcases List.mem_append.mp hx with hx | hx
    · exact h.tracked x hx
    · rw [List.mem_singleton.mp hx]
      exact hs
  · refine (h.marks q hq).imp_right fun ⟨x, hx, he⟩ => ⟨x, ?_, he⟩
    rcases List.mem_cons.mp hx with rfl | hx
    · exact List.mem_append_right _ (List.mem_singleton.mpr rfl)
    · exact List.mem_append_left _ hx

/-- one run -/
theorem Between.run {r : Run} (hjob : r.args.job = job) (hoffsite : job.offsite ≠ [])
    (hsure : ∀ name j, env.sure (.writeMarker name j) = true)
    (ht : Turn known ids done r.snap todo) (h : Between n job known done (r.snap.sid :: todo) w) :
    (runJob env r.args r.made).wp env.step
      (MarkerGuard w.log.length job r.snap (done ++ [r.snap]))
      (fun _ w' => Between n job known (done ++ [r.snap]) todo w') w := by
  obtain ⟨a, made⟩ := r
  have hjob' : a.job = job := hjob
  subst hjob'
  obtain ⟨hothers, htracked⟩ := h.others (ht.finds _ ht.now _)
  cases made with
  | error raised =>
    refine Prog.wp_post (wp_runJob_raised (fun w w' hq => MarkerGuard.of_kept fun s _ => hq.get _ _)
      a raised w) fun r w' hr => ?_
    obtain ⟨hq, -⟩ := hr
    obtain ⟨es, hlog, hes⟩ := hq.log
    obtain ⟨hothers', htracked'⟩ := hothers.of_same (hq.get .data) hlog fun k src hm => hes _ hm
    refine hothers'.between (htracked' htracked) ?_
    rw [hlog, List.length_append]
    exact Nat.le_add_right_of_le h.since
  | ok made =>
    have hstart : Delivering n w.log.length a.job known done (a.snap made) todo [] w :=
      ⟨hothers, ⟨le_rfl, by simp, by simp⟩,
        fun hp => absurd hp (h.unused _ List.mem_cons_self).put⟩
    refine Prog.wp_post ((keeps_marked ht h.since hoffsite hsure).runJob hstart) fun r w' hr => ?_
    obtain ⟨-, S, hM⟩ := hr
    exact hM.others.between hM.tracked (le_trans h.since hM.sent.since)

theorem Turn.of_nodup {cur : Snap} (hu : Unmistakable known ids)
    (hids : ids = (done ++ [cur]).map Snap.sid ++ todo) (hn : ids.Nodup) :
    Turn known ids done cur todo := by
  subst hids
  obtain ⟨hleft, -, hdisj⟩ := List.nodup_append.mp hn
  rw [List.map_append] at hleft hdisj
  have hpast := (List.nodup_append.mp hleft).2.2
  have hcur : cur.sid ∈ [cur].map Snap.sid := List.mem_cons_self
  refine ⟨hu, ?_, fun s hs => ⟨?_, ?_⟩, fun t ht => ⟨List.mem_append_right _ ht, ?_⟩⟩
  · simp
  · exact List.mem_append_left _ (List.mem_map_of_mem (List.mem_append_left _ hs))
  · exact hpast s.sid (List.mem_map_of_mem hs) cur.sid hcur
  · exact (hdisj cur.sid (List.mem_append_right _ hcur) t ht).symm

/-- the runs of `rs`, whose ids are the next ones -/
theorem Between.runAll (hoffsite : job.offsite ≠ [])
    (hsure : ∀ name j, env.sure (.writeMarker name j) = true) (hu : Unmistakable known ids)
    {rs : List Run} (hjob : ∀ r ∈ rs, r.args.job = job)
    (hids : ids = (done ++ rs.map Run.snap).map Snap.sid ++ todo) (hn : ids.Nodup)
    (h : Between n job known done ((rs.map Run.snap).map Snap.sid ++ todo) w) :
    (runAll env rs).wp env.step (fun _ _ => True)
      (fun _ w' => Between n job known (done ++ rs.map Run.snap) todo w') w := by
  induction rs generalizing done w with
  | nil =>
    show Between n job known (done ++ []) todo w
    rw [List.append_nil]
    exact h
  | cons r rs ih =>
    have hturn : Turn known ids done r.snap ((rs.map Run.snap).map Snap.sid ++ todo) :=
      Turn.of_nodup hu (by simpa using hids) hn
    refine Prog.wp_seq (Prog.wp_mono (h.run (hjob r List.mem_cons_self) hoffsite hsure hturn)
      (fun _ _ _ => trivial) fun _ _ h => h) fun _ w' h' => ?_
    have hrest := ih (fun x hx => hjob x (List.mem_cons_of_mem _ hx)) (by simpa using hids) h'
    simpa using hrest

end

/-- **No snapshot is forgotten off-site**, whatever calls but the writing of markers fail: in the
state after the last run, every awaited snapshot has a marker that names the job, and that run
removed only markers of snapshots that it may forget. -/
theorem no_snapshot_forgotten (env : Env) (job : Job) (rs : List Run) (r : Run) (w : World)
    (hjob : ∀ x ∈ rs ++ [r], x.args.job = job) (hoffsite : job.offsite ≠ [])
    (hsure : ∀ name j, env.sure (.writeMarker name j) = true)
    (hclear : Clear w job ((rs ++ [r]).map (·.args.sid))) :
    (runAll env rs).wp env.step (fun _ _ => True) (fun _ w₁ =>
      (runJob env r.args r.made).wp env.step
        (MarkerGuard w₁.log.length job r.snap ((rs ++ [r]).map Run.snap)) (fun _ w₂ =>
          ∀ s ∈ (rs ++ [r]).map Run.snap, s.Awaited w.log.length job w₂ →
            w₂.owner (s.sid ++ pendingSuffix) = some job.name) w₁) w := by
  have hids : (rs ++ [r]).map (·.args.sid) = ((rs ++ [r]).map Run.snap).map Snap.sid := by
    rw [List.map_map]
    exact List.map_congr_left fun x _ => (Run.snap_sid x).symm
  have hu := hclear.toUnmistakable
  have hn := hclear.nodup
  have hstart : Between w.log.length job (w.pendingOf job.name) []
      ((rs.map Run.snap).map Snap.sid ++ [r.snap.sid]) w := by
    refine ⟨le_rfl, by simp, fun t ht => ⟨fun k hk => ?_, fun ⟨src, hm⟩ => ?_⟩, fun q hq => Or.inl hq⟩
    · by_contra hne
      have htids : t ∈ (rs ++ [r]).map (·.args.sid) := by
        rw [hids]
        simpa using ht
      have hkey : k ∈ (w.files .data).keys :=
        AList.lookup_isSome.mp (Option.ne_none_iff_isSome.mp hne)
      exact hclear.fresh t htids k hkey hk
    · simp at hm
  refine Prog.wp_post (Between.runAll hoffsite hsure hu (fun x hx => hjob x (by simp [hx]))
    (by rw [hids]; simp) hn hstart) fun _ w₁ h₁ => ?_
  have hturn : Turn (w.pendingOf job.name) ((rs ++ [r]).map (·.args.sid)) (rs.map Run.snap) r.snap [] :=
    Turn.of_nodup hu (by rw [hids]; simp) hn
  have hrun := Between.run (hjob r (by simp)) hoffsite hsure hturn h₁
  have hsnaps : (rs ++ [r]).map Run.snap = [] ++ rs.map Run.snap ++ [r.snap] := by simp
  rw [hsnaps]
  exact Prog.wp_post hrun fun _ w₂ h₂ s hs => (h₂.tracked s hs).pending

/-! ## concrete runs -/

/-- whether an operation of the log put `key` to `d` -/
def Op.puts (d : Dest) (key : Str) : Op × Bool → Prop
  | (.put d' key' _, true) => d' = d ∧ key' = key
  | _ => False

instance (d : Dest) (key : Str) : DecidablePred (Op.puts d key)
  | (.put d' key' _, true) => inferInstanceAs (Decidable (d' = d ∧ key' = key))
  | (.put _ _ _, false) => isFalse id
  | (.mkdirs, _) | (.hook _, _) | (.build _, _) | (.listKeys _ _, _) | (.delete _ _, _) | (.glob _, _)
  | (.isThere _, _) | (.readMarker _, _) | (.writeMarker _ _, _) | (.unlink _, _) | (.record _, _)
  | (.notify _, _) => isFalse id

theorem World.putSince_iff {w : World} {n : ℕ} {d : Dest} {key : Str} :
    (∃ e ∈ w.log.drop n, Op.puts d key e) ↔ w.PutSince n d key := by
  constructor
  · rintro ⟨⟨o, b⟩, hm, hp⟩
    unfold Op.puts at hp
    split at hp
    · rename_i d' key' src heq
      obtain ⟨rfl, rfl⟩ := hp
      exact ⟨src, heq ▸ hm⟩
    · exact hp.elim
  · rintro ⟨src, hm⟩
    exact ⟨_, hm, rfl, rfl⟩

instance (w : World) (n : ℕ) (d : Dest) (key : Str) : Decidable (w.PutSince n d key) :=
  decidable_of_iff _ World.putSince_iff

instance (w : World) (n : ℕ) (d : Dest) (archive sid : Str) :
    Decidable (w.ShippedSince n d archive sid) := inferInstanceAs (Decidable (_ ∧ _))

instance (s : Snap) (n : ℕ) (job : Job) (w : World) : Decidable (s.Awaited n job w) :=
  inferInstanceAs (Decidable (_ ∧ _ ∧ _ ∧ _))

/-- markers can be written -/
def markerEnv : Env :=
  { plainEnv with
    sure := fun o => match o with
      | .writeMarker _ _ => true
      | _ => false }

def offsiteJob : Job := { destinations := [offsiteBucket] }

/-- the second of the day after the run `runAt offsiteJob none` -/
def laterRun : RunArgs :=
  { runAt offsiteJob none with now := ⟨739001, 12 * 3600 * 1000000, by decide, by decide, noon.micro_lt⟩ }

theorem no_snapshot_forgotten_twoRuns :
    (runAll markerEnv [⟨runAt offsiteJob none, .ok bundle⟩]).wp markerEnv.step (fun _ _ => True)
      (fun _ w₁ => (runJob markerEnv laterRun (.ok bundle)).wp markerEnv.step
        (MarkerGuard w₁.log.length offsiteJob (laterRun.snap bundle)
          [(runAt offsiteJob none).snap bundle, laterRun.snap bundle]) (fun _ w₂ =>
            ∀ s ∈ [(runAt offsiteJob none).snap bundle, laterRun.snap bundle],
              s.Awaited catchUpWorld.log.length offsiteJob w₂ →
                w₂.owner (s.sid ++ pendingSuffix) = some offsiteJob.name) w₁) catchUpWorld :=
  no_snapshot_forgotten markerEnv offsiteJob [⟨runAt offsiteJob none, .ok bundle⟩]
    ⟨laterRun, .ok bundle⟩ catchUpWorld (by simp [laterRun, runAt]) (by decide) (fun _ _ => rfl)
    { toUnmistakable := Unmistakable.of_plain (by decide +kernel) (by decide +kernel)
        (by decide +kernel)
      nodup := by decide +kernel
      fresh := by decide +kernel }

/-- **Where a snapshot is forgotten**: the archive of `a[b]` does not match the pattern that its own
id makes, so the next run that reaches the bucket takes the snapshot for removed. -/
theorem snapshot_forgotten :
    let runs : List Run := [⟨runAt offsiteJob (some "a[b]".toList), .ok bundle⟩,
      ⟨runAt offsiteJob (some "c".toList), .ok bundle⟩]
    let down : Fault := .raise ⟨"OSError".toList, "bucket unreachable".toList⟩ .untouched
    let w := ((runAll markerEnv runs).exec markerEnv.step .calm [.calm, .calm, down] (worldOf [])).2
    (Snap.mk "a[b]".toList .none).Awaited 0 offsiteJob w ∧
      w.get .data ("a[b]".toList ++ pendingSuffix) = none := by
  decide +kernel

end BackupHelper
