import BackupHelper.JobIsolation
import BackupHelper.OffsitePending
import BackupHelper.Snapshots.Order

/-!
# A manifest implies its archive

Whenever a bucket holds `<id>.manifest.json` it holds the archive of `<id>` as well, with the bytes
that were archived: in every state of every sequence of runs, each of which may be stopped between
any two operations, whatever calls fail.  A single put is taken to appear whole or not at all
(`WholePuts`).

* `Reached`                      the worlds that such runs lead to;
* `Orderly`                      what the names in the stores tell; no fault breaks it;
* `Complete`                     the invariant; a put that is whole keeps it;
* `manifest_implies_archive`     the runs.

The manifest is put after the archive, and `<id>.manifest.json` sorts before `<id>.tar.gz`, so it is
deleted before.
-/

set_option linter.unusedSectionVars false

namespace BackupHelper
open Text Glob Effects Calendar

/-! ## runs that may stop anywhere -/

/-- a put leaves its target alone, or the content that it read -/
def WholePuts (env : Env) (w w' : World) : Prop :=
  ∀ d key src b, w'.log = w.log ++ [(.put d key src, b)] →
    w'.get (d.loc env) (d.pre ++ key) = w.get (d.loc env) (d.pre ++ key) ∨
      ∃ c, w.content src = some c ∧ w'.get (d.loc env) (d.pre ++ key) = some c

/-- the worlds at the end of a run, or where it was stopped -/
inductive Reached (env : Env) (w₀ : World) : List Run → World → Prop
  | start : Reached env w₀ [] w₀
  | run {rs w w'} (r : Run) (faults : List Fault) (h : Reached env w₀ rs w)
      (hwhole : ∀ m ∈ (runJob env r.args r.made).moves env.step .calm faults w,
        WholePuts env m.1 m.2)
      (hstop : w' = w ∨ ∃ m ∈ (runJob env r.args r.made).moves env.step .calm faults w, w' = m.2) :
      Reached env w₀ (r :: rs) w'

/-- before the first run: no manifest in a bucket, no marker, no archive of a later run -/
structure Untouched (rs : List Run) (w : World) : Prop where
  manifests : ∀ site K, w.get (.bucket site) (K ++ manifestSuffix) = none
  markers : ∀ q, w.owner (q ++ pendingSuffix) = none
  archives : ∀ r ∈ rs, ∀ k, r.args.sid ++ tarSuffix <+: k → w.get .data k = none

/-- `b` are the bytes that a run archived under the id `q` -/
def Archived (rs : List Run) (q : Str) (b : Bytes) : Prop :=
  ∃ r ∈ rs, r.args.sid = q ∧ ∃ made, r.made = .ok made ∧ made.archive = b

/-- a destination of a run keeps the snapshot `q` under the name `K` of the bucket -/
def KeptAs (env : Env) (rs : List Run) (site : Site) (K q : Str) : Prop :=
  ∃ r ∈ rs, ∃ c ∈ r.args.job.offsite, env.site c.endpoint c.bucket = site ∧ K = c.prefix_ ++ q

/-! ## names -/

theorem archiveName_pre (p s : Str) (e : EncryptionMode) :
    archiveName (p ++ s) e = p ++ archiveName s e := by
  simp [archiveName]

/-- the parts of an archive's ending before a dot -/
def tarParts : List Str := [".tar".toList, tarSuffix]

/-- where `p.` begins an archive it begins the manifest as well, or cuts the archive's ending -/
theorem dot_begins_archive {p s : Str} {e : EncryptionMode} (h : p ++ ['.'] <+: archiveName s e) :
    p ++ ['.'] <+: s ++ manifestSuffix ∨ ∃ t ∈ tarParts, p = s ++ t := by
  by_cases hs : p ++ ['.'] <+: s
  · exact Or.inl (hs.trans (List.prefix_append _ _))
  · unfold archiveName at h
    rw [List.append_assoc] at h
    obtain ⟨t, hne, ht, he⟩ := begins_append h hs
    have hdot : t.getLast? = some '.' := by
      have hlast : (p ++ ['.']).getLast? = some '.' := by simp
      rw [he, List.getLast?_append] at hlast
      cases hl : t.getLast? with
      | none => exact absurd (List.getLast?_eq_none_iff.mp hl) hne
      | some c =>
        rw [hl] at hlast
        exact hlast
    have hcut : ∀ e : EncryptionMode, ∀ t ∈ (tarSuffix ++ encryptSuffix e).inits,
        t.getLast? = some '.' → t = ['.'] ∨ ∃ u ∈ tarParts, t = u ++ ['.'] := by
      intro e
      cases e <;> decide
    rcases hcut e t ((List.mem_inits t _).mpr ht) hdot with rfl | ⟨u, hu, rfl⟩
    · rw [List.append_cancel_right he]
      exact Or.inl (begins_manifest s)
    · rw [← List.append_assoc] at he
      exact Or.inr ⟨u, hu, List.append_cancel_right he⟩

theorem manifest_lt_archive (s : Str) (e : EncryptionMode) : s ++ manifestSuffix < archiveName s e := by
  have h : ∀ e, manifestSuffix < tarSuffix ++ encryptSuffix e := by
    intro e
    cases e <;> decide
  unfold archiveName
  rw [List.append_assoc]
  exact append_lt_append s (h e)

theorem lt_of_append_lt {p s t : Str} (h : p ++ s < p ++ t) : s < t := by
  by_contra hn
  rcases lt_or_eq_of_le (not_lt.mp hn) with hlt | rfl
  · exact lt_asymm h (append_lt_append p hlt)
  · exact lt_irrefl _ h

/-- an id that the engine writes ends in no part of an archive's ending -/
theorem Engine.not_part {q : Str} (h : Engine q) {t : Str} (ht : t ∈ tarParts) {p K : Str} :
    p ++ q ≠ K ++ t := by
  intro he
  have hpart : ∀ t ∈ tarParts, '.' ∈ t ∧ t.length < timestampLen := by decide
  have hdot := hpart t ht
  obtain ⟨time, job, rfl⟩ := h
  rcases List.suffix_or_suffix_of_suffix ⟨p, he⟩ ⟨K, rfl⟩ with hs | hs
  · obtain ⟨x, -, u, hu⟩ := Engine.named ⟨time, job, rfl⟩
    have hlen := hs.length_le
    rw [hu, List.length_append, stamp_length] at hlen
    omega
  · exact newSnapshotId_free time job (hs.subset hdot.1)

/-! ## what the names tell -/

/-- what holds whatever calls fail: markers name ids of runs, an archive in the data dir is called as
such, and no manifest is that of a part of an archive's name -/
structure Orderly (rs : List Run) (w : World) : Prop where
  marked : ∀ q j, free '/' q → w.owner (q ++ pendingSuffix) = some j → ∃ r ∈ rs, r.args.sid = q
  named : ∀ r ∈ rs, ∀ k, r.args.sid ++ tarSuffix <+: k → (w.get .data k).isSome →
    ∃ e, k = archiveName r.args.sid e
  parts : ∀ site K, ∀ t ∈ tarParts, w.get (.bucket site) (K ++ t ++ manifestSuffix) = none

theorem Untouched.orderly {rs : List Run} {w : World} (h : Untouched rs w) : Orderly rs w := by
  refine ⟨fun q j _ ho => ?_, fun r hr k hk hs => ?_, fun site K t _ => h.manifests _ _⟩
  · rw [h.markers] at ho
    simp at ho
  · rw [h.archives r hr k hk] at hs
    simp at hs

theorem Orderly.of_files {rs : List Run} {w w' : World} (h : Orderly rs w)
    (hfiles : w'.files = w.files) : Orderly rs w' := by
  have hget : ∀ l k, w'.get l k = w.get l k := fun l k => by rw [World.get, hfiles, World.get]
  refine ⟨fun q j hq ho => h.marked q j hq ?_, fun r hr k hk hs => h.named r hr k hk ?_, ?_⟩
  · rw [World.owner_eq_some] at ho ⊢
    rwa [hget] at ho
  · rwa [hget] at hs
  · intro site K t ht
    rw [hget]
    exact h.parts site K t ht

theorem Orderly.of_removed {rs : List Run} {w w' : World} {l : Loc} {k : Str} {r : Except Exc Unit}
    (h : Orderly rs w) (hrem : Removed l k w r w') : Orderly rs w' := by
  refine ⟨fun q j hq ho => h.marked q j hq ?_, fun r hr x hx hs => h.named r hr x hx ?_, ?_⟩
  · rw [World.owner_eq_some] at ho ⊢
    rw [← hrem.get_of_isSome (by rw [ho]; rfl)]
    exact ho
  · rw [← hrem.get_of_isSome hs]
    exact hs
  · intro site K t ht
    exact hrem.get_none (h.parts site K t ht)

section
variable {env : Env} {rs : List Run} {w w' : World} {r : Except Exc Unit}

theorem Orderly.of_wrote {l : Loc} {k : Str} {c : Content} (h : Orderly rs w) (hw : Wrote l k c w r w')
    (hmark : ∀ q j, l = .data → k = q ++ pendingSuffix → c = .marker j → ∃ r ∈ rs, r.args.sid = q)
    (hname : ∀ r ∈ rs, l = .data → r.args.sid ++ tarSuffix <+: k → ∃ e, k = archiveName r.args.sid e)
    (hpart : ∀ K, ∀ t ∈ tarParts, l ≠ .data → k ≠ K ++ t ++ manifestSuffix) : Orderly rs w' := by
  refine ⟨fun q j hq ho => ?_, fun r hr x hx hs => ?_, fun site K t ht => ?_⟩
  · rw [World.owner_eq_some] at ho
    by_cases he : (Loc.data, q ++ pendingSuffix) = (l, k)
    · obtain ⟨rfl, rfl⟩ := Prod.mk.inj he
      rcases hw.here with hh | hh | ⟨b, hh⟩
      · rw [hh] at ho
        exact h.marked q j hq (World.owner_eq_some.mpr ho)
      · rw [hh] at ho
        exact hmark q j rfl rfl (Option.some.inj ho)
      · rw [hh] at ho
        simp at ho
    · rw [hw.other _ _ he] at ho
      exact h.marked q j hq (World.owner_eq_some.mpr ho)
  · by_cases he : (Loc.data, x) = (l, k)
    · obtain ⟨rfl, rfl⟩ := Prod.mk.inj he
      exact hname r hr rfl hx
    · rw [hw.other _ _ he] at hs
      exact h.named r hr x hx hs
  · rw [hw.other _ _ fun he => ?_]
    · exact h.parts site K t ht
    · obtain ⟨rfl, rfl⟩ := Prod.mk.inj he
      exact hpart K t ht (by simp) rfl

/-- the archive or the manifest of a run's id -/
theorem Orderly.put (h : Orderly rs w) (hengine : ∀ r ∈ rs, Engine r.args.sid) {u : Run} (hu : u ∈ rs)
    {d : Dest} {x : Str} {c : Content}
    (hx : (∃ e, x = archiveName u.args.sid e) ∨ x = u.args.sid ++ manifestSuffix)
    (hw : Wrote (d.loc env) (d.pre ++ x) c w r w') : Orderly rs w' := by
  have hpre : d.loc env = .data → d.pre = [] := by
    cases d with
    | «local» => exact fun _ => rfl
    | s3 c => exact fun h => by simp [Dest.loc] at h
  refine h.of_wrote hw (fun q j hl he _ => ?_) (fun v hv hl hpfx => ?_) (fun K t ht _ he => ?_)
  · rw [hpre hl, List.nil_append] at he
    rcases hx with ⟨e, rfl⟩ | rfl
    · exact absurd he (archive_not_pending _ _ _)
    · exact absurd he (manifest_not_pending _ _)
  · rw [hpre hl, List.nil_append] at hpfx ⊢
    have hdot : ∀ {s : Str}, Engine s → ¬ v.args.sid ++ tarSuffix <+: s := by
      intro s hs hpfx
      exact dotless hs.slug (hpfx.subset (List.mem_append_right _ (by decide)))
    rcases hx with ⟨e, rfl⟩ | rfl
    · rcases tar_begins_archive hpfx with he | hs
      · exact ⟨e, by rw [he]⟩
      · exact absurd hs (hdot (hengine u hu))
    · exact absurd (tar_begins_manifest hpfx) (hdot (hengine u hu))
  · rcases hx with ⟨e, rfl⟩ | rfl
    · rw [← archiveName_pre] at he
      exact archive_not_manifest _ _ _ he
    · rw [← List.append_assoc] at he
      exact (hengine u hu).not_part ht (List.append_cancel_right he)

end

/-! ## the invariant -/

/-- the bucket holds the archive of `K` in mode `e`, with the bytes of an id kept under this name -/
def HasArchive (env : Env) (rs : List Run) (w : World) (site : Site) (K : Str) (e : EncryptionMode) :
    Prop :=
  ∃ b q, w.get (.bucket site) (archiveName K e) = some (.raw b) ∧ Archived rs q b ∧
    KeptAs env rs site K q

structure Complete (env : Env) (rs : List Run) (w : World) : Prop where
  bucket : ∀ site K, (w.get (.bucket site) (K ++ manifestSuffix)).isSome →
    ∃ e, HasArchive env rs w site K e
  data : ∀ r ∈ rs, ∀ e c, w.get .data (archiveName r.args.sid e) = some c →
    ∃ b, c = .raw b ∧ Archived rs r.args.sid b

theorem Untouched.complete {env : Env} {rs : List Run} {w : World} (h : Untouched rs w) :
    Complete env rs w := by
  refine ⟨fun site K hs => ?_, fun r hr e c hc => ?_⟩
  · rw [h.manifests] at hs
    simp at hs
  · have hnone := h.archives r hr (archiveName r.args.sid e) (List.prefix_append _ _)
    rw [hnone] at hc
    simp at hc

section
variable {env : Env} {rs : List Run} {w w' : World} {l : Loc} {k : Str}

theorem Complete.of_get (h : Complete env rs w) (hget : ∀ l k, w'.get l k = w.get l k) :
    Complete env rs w' := by
  refine ⟨fun site K hs => ?_, fun r hr e c hc => h.data r hr e c (by rwa [hget] at hc)⟩
  rw [hget] at hs
  obtain ⟨e, b, q, hb, hq⟩ := h.bucket site K hs
  exact ⟨e, b, q, by rw [hget]; exact hb, hq⟩

theorem HasArchive.of_elsewhere {site : Site} {K : Str} {e : EncryptionMode}
    (h : HasArchive env rs w site K e) (he : Elsewhere l k w w')
    (hne : (Loc.bucket site, archiveName K e) ≠ (l, k)) : HasArchive env rs w' site K e := by
  obtain ⟨b, q, hb, hq⟩ := h
  exact ⟨b, q, (he _ _ hne).trans hb, hq⟩

/-- one name changes: what has to hold if it is a manifest, an archive, or a file in the data dir -/
theorem Complete.of_elsewhere (h : Complete env rs w) (he : Elsewhere l k w w')
    (hman : ∀ site K, l = .bucket site → k = K ++ manifestSuffix → (w'.get l k).isSome →
      ∃ e, HasArchive env rs w site K e)
    (harch : ∀ site K e, l = .bucket site → k = archiveName K e → HasArchive env rs w site K e →
      (w.get (.bucket site) (K ++ manifestSuffix)).isSome → HasArchive env rs w' site K e)
    (hdata : ∀ r ∈ rs, ∀ e c, l = .data → k = archiveName r.args.sid e → w'.get .data k = some c →
      ∃ b, c = .raw b ∧ Archived rs r.args.sid b) : Complete env rs w' := by
  refine ⟨fun site K hs => ?_, fun r hr e c hc => ?_⟩
  · by_cases hk : (Loc.bucket site, K ++ manifestSuffix) = (l, k)
    · obtain ⟨rfl, rfl⟩ := Prod.mk.inj hk
      obtain ⟨e, ha⟩ := hman site K rfl rfl hs
      exact ⟨e, ha.of_elsewhere he fun hne => archive_not_manifest _ _ _ (Prod.mk.inj hne).2⟩
    · rw [he _ _ hk] at hs
      obtain ⟨e, ha⟩ := h.bucket site K hs
      by_cases hk' : (Loc.bucket site, archiveName K e) = (l, k)
      · obtain ⟨rfl, rfl⟩ := Prod.mk.inj hk'
        exact ⟨e, harch site K e rfl rfl ha hs⟩
      · exact ⟨e, ha.of_elsewhere he hk'⟩
  · by_cases hk : (Loc.data, archiveName r.args.sid e) = (l, k)
    · obtain ⟨rfl, rfl⟩ := Prod.mk.inj hk
      exact hdata r hr e c rfl rfl hc
    · rw [he _ _ hk] at hc
      exact h.data r hr e c hc

/-- in the data dir nothing but an archive matters -/
theorem Complete.of_data (h : Complete env rs w) (he : Elsewhere .data k w w')
    (hdata : ∀ r ∈ rs, ∀ e c, k = archiveName r.args.sid e → w'.get .data k = some c →
      ∃ b, c = .raw b ∧ Archived rs r.args.sid b) : Complete env rs w' :=
  h.of_elsewhere he (fun _ _ hl => by simp at hl) (fun _ _ _ hl => by simp at hl)
    fun r hr e c _ => hdata r hr e c

theorem Complete.of_unlinked {r : Except Exc Unit} (h : Complete env rs w)
    (hrem : Removed .data k w r w') : Complete env rs w' := by
  refine h.of_data hrem.other fun r hr e c hk hc => ?_
  rw [hrem.get_of_isSome (by rw [hc]; rfl), hk] at hc
  exact h.data r hr e c hc

variable {d : Dest} {q : Str}

/-- the archive of `q` is put, whole -/
theorem Complete.put_archive (h : Complete env rs w) {e : EncryptionMode} {b : Bytes}
    (hd : ∀ c, d = .s3 c → ∃ r ∈ rs, c ∈ r.args.job.offsite) (hq : Archived rs q b)
    (he : Elsewhere (d.loc env) (d.pre ++ archiveName q e) w w')
    (hhere : w'.get (d.loc env) (d.pre ++ archiveName q e) = w.get (d.loc env) (d.pre ++ archiveName q e) ∨
      w'.get (d.loc env) (d.pre ++ archiveName q e) = some (.raw b)) : Complete env rs w' := by
  cases d with
  | «local» =>
    refine h.of_data he fun r hr e' c hk hc => ?_
    obtain ⟨rfl, rfl⟩ := archiveName_inj (show archiveName q e = archiveName r.args.sid e' from hk)
    rcases hhere with hh | hh
    · exact h.data r hr e c (hh.symm.trans hc)
    · exact ⟨b, Option.some.inj (hc.symm.trans hh), hq⟩
  | s3 c =>
    refine h.of_elsewhere he (fun site K _ hk _ => ?_) (fun site K e' hl hk ha _ => ?_)
      (fun r hr e c hl => by simp [Dest.loc] at hl)
    · rw [← archiveName_pre] at hk
      exact absurd hk (archive_not_manifest _ _ _)
    · obtain rfl : env.site c.endpoint c.bucket = site := by simpa [Dest.loc] using hl
      rw [← archiveName_pre] at hk hhere
      obtain ⟨rfl, rfl⟩ := archiveName_inj hk
      rcases hhere with hh | hh
      · obtain ⟨b', q', hb', hq'⟩ := ha
        exact ⟨b', q', hh.trans hb', hq'⟩
      · obtain ⟨r, hr, hc⟩ := hd c rfl
        exact ⟨b, q, hh, hq, r, hr, c, hc, rfl, rfl⟩

/-- the manifest of `q` is put where its archive is -/
theorem Complete.put_manifest (h : Complete env rs w) {e : EncryptionMode} {b : Bytes}
    (hd : ∀ c, d = .s3 c → ∃ r ∈ rs, c ∈ r.args.job.offsite) (hq : Archived rs q b)
    (hthere : d.at env w (archiveName q e) = some (.raw b))
    (he : Elsewhere (d.loc env) (d.pre ++ (q ++ manifestSuffix)) w w') : Complete env rs w' := by
  cases d with
  | «local» =>
    refine h.of_data he fun r hr e' c hk _ => ?_
    exact absurd hk.symm (archive_not_manifest _ _ _)
  | s3 c =>
    refine h.of_elsewhere he (fun site K hl hk _ => ?_) (fun site K e' _ hk _ _ => ?_)
      (fun r hr e c hl => by simp [Dest.loc] at hl)
    · obtain rfl : env.site c.endpoint c.bucket = site := by simpa [Dest.loc] using hl
      rw [← List.append_assoc] at hk
      obtain rfl := List.append_cancel_right hk
      obtain ⟨r, hr, hc⟩ := hd c rfl
      refine ⟨e, b, q, ?_, hq, r, hr, c, hc, rfl, rfl⟩
      rw [archiveName_pre]
      exact hthere
    · rw [← List.append_assoc] at hk
      exact absurd hk.symm (archive_not_manifest _ _ _)

/-- **A deletion by retention takes no archive whose manifest is there**: the manifest came first. -/
theorem Complete.pruned {w₀ : World} {p key : Str} {r : Except Exc Unit} (h : Complete env rs w)
    (h₀ : Orderly rs w₀) (hp : (d.at env w₀ (p ++ manifestSuffix)).isSome) (hkey : p ++ ['.'] <+: key)
    (hsmall : ∀ k, p ++ ['.'] <+: k → k < key → d.at env w k = none)
    (hrem : Removed (d.loc env) (d.pre ++ key) w r w') : Complete env rs w' := by
  cases d with
  | «local» => exact h.of_unlinked hrem
  | s3 c =>
    refine h.of_elsewhere hrem.other (fun site K hl hk hs => ?_) (fun site K e hl hk _ hs => ?_)
      (fun r hr e c hl => by simp [Dest.loc] at hl)
    · rw [hrem.get_of_isSome hs, hl, hk] at hs
      exact h.bucket site K hs
    · have hP : (c.prefix_ ++ p) ++ ['.'] <+: archiveName K e := by
        rw [← hk, List.append_assoc]
        exact (List.prefix_append_right_inj _).mpr hkey
      have hloc : (Dest.s3 c).loc env = .bucket site := hl
      rcases dot_begins_archive hP with hman | ⟨t, ht, hpt⟩
      · exfalso
        obtain ⟨x, hx⟩ : ∃ x, K ++ manifestSuffix = c.prefix_ ++ (p ++ ['.'] ++ x) := by
          obtain ⟨x, hx⟩ := hman
          exact ⟨x, by rw [← hx]; simp⟩
        have hlt : p ++ ['.'] ++ x < key := by
          apply lt_of_append_lt (p := c.prefix_)
          rw [← hx, show c.prefix_ ++ key = archiveName K e from hk]
          exact manifest_lt_archive K e
        have hnone := hsmall _ (List.prefix_append _ _) hlt
        unfold Dest.at at hnone
        rw [hloc, show (Dest.s3 c).pre ++ (p ++ ['.'] ++ x) = K ++ manifestSuffix from hx.symm] at hnone
        rw [hnone] at hs
        simp at hs
      · exfalso
        unfold Dest.at at hp
        rw [hloc, show (Dest.s3 c).pre ++ (p ++ manifestSuffix) = K ++ t ++ manifestSuffix by
          rw [← hpt, List.append_assoc]; rfl, h₀.parts site K t ht] at hp
        simp at hp

end

/-! ## one run -/

/-- a state change keeps the names in order, and the invariant if its put is whole -/
def Sound (env : Env) (rs : List Run) (w w' : World) : Prop :=
  (Orderly rs w → Orderly rs w') ∧
    (WholePuts env w w' → Orderly rs w → Complete env rs w → Complete env rs w')

section
variable {env : Env} {rs : List Run}

theorem Sound.of_quiet {w w' : World} (h : Quiet w w') : Sound env rs w w' :=
  ⟨fun ho => ho.of_files h.same, fun _ _ hc => hc.of_get h.get⟩

theorem keeps_complete (hengine : ∀ r ∈ rs, Engine r.args.sid) {u : Run} (hu : u ∈ rs) {made : Made}
    (hmade : u.made = .ok made) :
    Keeps env (Sound env rs) u.args.job u.args.scope u.args.now (u.args.artifact made)
      (.work (.manifest (u.args.manifest env made))) u.args.sid 0
      (fun S w => (∀ d ∈ S, d ∈ places u.args.job) ∧ Orderly rs w)
      (fun S w => (∀ d ∈ S, d ∈ places u.args.job) ∧ Orderly rs w)
      (fun S w => (∀ d ∈ S, d ∈ places u.args.job) ∧ Orderly rs w) := by
  have hname := artifact_name made (slashless (hengine u hu).slug)
  have hown : Archived rs u.args.sid made.archive := ⟨u, hu, rfl, made, hmade, rfl⟩
  have hoff : ∀ {d}, d ∈ places u.args.job → ∀ c, d = .s3 c → ∃ r ∈ rs, c ∈ r.args.job.offsite := by
    rintro d hd c rfl
    exact ⟨u, hu, mem_offsite.mp hd⟩
  have hquiet : ∀ (S : List Dest) w w', Quiet w w' →
      ((∀ d ∈ S, d ∈ places u.args.job) ∧ Orderly rs w) →
      (∀ d ∈ S, d ∈ places u.args.job) ∧ Orderly rs w' :=
    fun S w w' hq h => ⟨h.1, h.2.of_files hq.same⟩
  have hremoved : ∀ {S : List Dest} {l : Loc} {k : Str} {w w' : World} {r : Except Exc Unit},
      ((∀ d ∈ S, d ∈ places u.args.job) ∧ Orderly rs w) → Removed l k w r w' →
      (∀ d ∈ S, d ∈ places u.args.job) ∧ Orderly rs w' :=
    fun h hrem => ⟨h.1, h.2.of_removed hrem⟩
  have hunlinked : ∀ {k : Str} {w w' : World} {r : Except Exc Unit}, Removed .data k w r w' →
      Sound env rs w w' :=
    fun hrem => ⟨fun ho => ho.of_removed hrem, fun _ _ hc => hc.of_unlinked hrem⟩
  refine
    { calm := fun w w' => Sound.of_quiet
      quietD := hquiet
      quietI := hquiet
      quietE := hquiet
      since := fun S w _ => Nat.zero_le _
      upload := ?upload
      enter := fun S w h _ => h
      mark := ?mark
      ship := ?ship
      unlink := fun S ws hs _ q _ w₀ _ name w r w' h _ hrem _ _ => ⟨hunlinked hrem, hremoved h hrem⟩
      prune := ?prune
      finish := fun S w h => h
      drop := fun S _ _ name _ w r w' h hrem _ => ⟨hunlinked hrem, hremoved h hrem⟩
      start := fun w h => h }
  case upload =>
    intro dests ht before d after S w hdests _ h
    have hd : d ∈ places u.args.job := ht.subset (by rw [hdests]; simp)
    apply wp_uploadTo
    intro c r w₁ hread hwrote hlog
    rw [hname] at hwrote hlog
    have hput : ∀ {w}, Orderly rs w → ∀ {x c r w'}, Own u.args made x →
        Wrote (d.loc env) (d.pre ++ x) c w r w' → Orderly rs w' := by
      intro w ho x c r w' hx hw
      exact ho.put hengine hu (hx.imp_left fun h => ⟨_, h⟩) hw
    have h₁ := hput h.2 (Or.inl rfl) hwrote
    refine ⟨⟨fun ho => hput ho (Or.inl rfl) hwrote, fun hwhole _ hc => ?_⟩, ?_, ?_⟩
    · refine hc.put_archive (hoff hd) hown hwrote.other ?_
      refine (hwhole _ _ _ _ hlog).imp_right fun ⟨c', hc', hw'⟩ => ?_
      rw [hw', ← hc']
      rfl
    · rintro e rfl
      exact ⟨h.1, h₁⟩
    · rintro rfl c' r' w₂ _ hwrote' _
      have hthere : d.at env w₁ (archiveName u.args.sid made.encrypted) = some (.raw made.archive) := by
        rcases hread with hc | ⟨⟨e, he⟩, -⟩
        · exact (hwrote.done rfl).trans hc.symm
        · simp at he
      refine ⟨⟨fun ho => hput ho (Or.inr rfl) hwrote', fun _ _ hc => ?_⟩, ?_, hput h₁ (Or.inr rfl) hwrote'⟩
      · exact hc.put_manifest (hoff hd) hown hthere hwrote'.other
      · intro x hx
        split at hx
        · rcases List.mem_append.mp hx with hx | hx
          · exact h.1 x hx
          · rw [List.mem_singleton.mp hx]
            exact hd
        · exact h.1 x hx
  case mark =>
    intro S w r w' h _ _ _ hwrote _ _
    have ho : ∀ {w}, Orderly rs w → ∀ {w' r}, Wrote .data (u.args.sid ++ pendingSuffix)
        (.marker u.args.job.name) w r w' → Orderly rs w' := by
      intro w ho w' r hw
      refine ho.of_wrote hw (fun q j _ he _ => ?_) (fun v hv _ hpfx => ?_) (fun K t _ hl => ?_)
      · exact ⟨u, hu, List.append_cancel_right he⟩
      · have hdot := dotless (hengine u hu).slug
        exact absurd ((tar_begins_pending hpfx).subset (List.mem_append_right _ (by decide))) hdot
      · exact absurd rfl hl
    refine ⟨⟨fun h => ho h hwrote, fun _ _ hc => ?_⟩, fun _ => ⟨h.1, ho h.2 hwrote⟩, h.1, ho h.2 hwrote⟩
    refine hc.of_data hwrote.other fun v hv e c hk _ => ?_
    exact absurd hk.symm (archive_not_pending _ _ _)
  case ship =>
    intro S ws hs q hq w₀ a h₀ ha d hd key src c w r w' hship h hdata hwrote hlog
    obtain ⟨hdS, -⟩ := mem_offsiteOf.mp hd
    have hdp := h.1 d hdS
    obtain ⟨hfree, hown⟩ := mem_pendingOf.mp hq
    obtain ⟨v, hv, rfl⟩ := hs.2.marked q _ hfree hown
    obtain ⟨htar, -, hthere⟩ := artifactOf_some (plain_of_all (hengine v hv).slug) ha
    obtain ⟨e, rfl⟩ := h₀.2.named v hv a htar hthere
    have hput : ∀ {w}, Orderly rs w → ∀ {w' r}, Wrote (d.loc env) (d.pre ++ key) c w r w' →
        Orderly rs w' := by
      intro w ho w' r hw
      exact ho.put hengine hv (hship.name.imp_left fun h => ⟨e, h⟩) hw
    refine ⟨⟨fun ho => hput ho hwrote, fun hwhole _ hc => ?_⟩, h.1, hput h.2 hwrote⟩
    rcases hship with ⟨rfl, rfl⟩ | ⟨rfl, c', hc', hat⟩
    · -- the archive is read in the data dir, where it has the bytes that were archived
      cases hsrc : w.get .data (archiveName v.args.sid e) with
      | none =>
        have hsame := (hwhole _ _ _ _ hlog).resolve_right fun ⟨x, hx, _⟩ => by
          rw [show w.content (.data (archiveName v.args.sid e)) = none from hsrc] at hx
          simp at hx
        refine hc.of_get fun l k => ?_
        by_cases hk : (l, k) = (d.loc env, d.pre ++ archiveName v.args.sid e)
        · obtain ⟨rfl, rfl⟩ := Prod.mk.inj hk
          exact hsame
        · exact hwrote.other _ _ hk
      | some c' =>
        obtain ⟨b, rfl, hb⟩ := hc.data v hv e c' hsrc
        refine hc.put_archive (hoff hdp) hb hwrote.other ?_
        refine (hwhole _ _ _ _ hlog).imp_right fun ⟨x, hx, hw'⟩ => ?_
        rw [hw', ← hx]
        exact hsrc
    · obtain ⟨b, rfl, hb⟩ := hc.data v hv e c' ((hdata _).trans hc')
      exact hc.put_manifest (hoff hdp) hb hat hwrote.other
  case prune =>
    intro S w h dest hd only _ out hout p hp key hkey w₁ r w₂ h₁ hsmall hrem _
    refine ⟨⟨fun ho => ho.of_removed hrem, fun _ _ hc => ?_⟩, hremoved h₁ hrem⟩
    exact hc.pruned h.2 (mem_ids.mp (prunable_subset hout hp)).2 hkey hsmall hrem

/-- **One run**, whatever its sources, hooks and destinations do. -/
theorem Orderly.run (hengine : ∀ r ∈ rs, Engine r.args.sid) {u : Run} (hu : u ∈ rs) {w : World}
    (h : Orderly rs w) : (runJob env u.args u.made).wp env.step (Sound env rs)
      (fun _ w' => Orderly rs w') w := by
  cases hmade : u.made with
  | error raised =>
    exact Prog.wp_post (wp_runJob_raised (fun w w' => Sound.of_quiet) u.args raised w)
      fun r w' hr => h.of_files hr.1.same
  | ok made =>
    refine Prog.wp_post ((keeps_complete hengine hu hmade).runJob (w := w) ⟨by simp, h⟩)
      fun r w' hr => ?_
    obtain ⟨-, S, hE⟩ := hr
    exact hE.2

end

/-! ## every sequence of runs -/

theorem Reached.invariant {env : Env} {rs all : List Run} {w₀ w : World} (h : Reached env w₀ rs w)
    (hengine : ∀ r ∈ all, Engine r.args.sid) (hstart : Untouched all w₀) (hall : rs ⊆ all) :
    Orderly all w ∧ Complete env all w := by
  induction h with
  | start => exact ⟨hstart.orderly, hstart.complete⟩
  | @run rs w w' r faults _ hwhole hstop ih =>
    obtain ⟨hr, hrs⟩ := List.cons_subset.mp hall
    have hinv := ih hrs
    have hrun : (runJob env r.args r.made).wp env.step (Sound env all) (fun _ w' => Orderly all w') w :=
      hinv.1.run hengine hr
    have hmoves := ((Prog.wp_iff_exec .calm _ _ _).mp hrun faults).1
    rcases hstop with rfl | ⟨m, hm, rfl⟩
    · exact hinv
    · apply Prog.moves_keep Fault.calm (J := fun w => Orderly all w ∧ Complete env all w) ?_ hinv m hm
      intro m hm hJ
      exact ⟨(hmoves m hm).1 hJ.1, (hmoves m hm).2 (hwhole m hm) hJ.1 hJ.2⟩

/-- a prefix that names a folder, or none -/
def Folder (p : Str) : Prop := p = [] ∨ ∃ x, p = x ++ ['/']

/-- every destination of the runs in the bucket of `d` has the prefix of `d`, or both are folders -/
def Clashless (env : Env) (rs : List Run) (d : S3Spec) : Prop :=
  ∀ r ∈ rs, ∀ c ∈ r.args.job.offsite, env.site c.endpoint c.bucket = env.site d.endpoint d.bucket →
    c.prefix_ = d.prefix_ ∨ (Folder c.prefix_ ∧ Folder d.prefix_)

theorem fileName_folder {p q : Str} (hp : Folder p) (hq : free '/' q) : fileName (p ++ q) = q := by
  rcases hp with rfl | ⟨x, rfl⟩
  · exact fileName_of_free hq
  · have hall : ∀ c ∈ q.reverse, decide (c ≠ '/') = true := by
      intro c hc
      rw [decide_eq_true_eq]
      rintro rfl
      exact hq (List.mem_reverse.mp hc)
    unfold fileName
    rw [List.reverse_append, List.takeWhile_append_of_pos hall]
    simp

/-- **A manifest implies its archive.**  Wherever any of the runs was stopped: the archive of a
manifest on an S3 destination is there too, with the bytes archived for an id that has this key, and
no other id has it unless destinations with overlapping prefixes share the bucket. -/
theorem manifest_implies_archive {env : Env} {rs : List Run} {w₀ w : World}
    (hengine : ∀ r ∈ rs, Engine r.args.sid) (hstart : Untouched rs w₀) (h : Reached env w₀ rs w)
    (d : S3Spec) (sid : Str) (hm : ((Dest.s3 d).at env w (sid ++ manifestSuffix)).isSome) :
    ∃ e b q, (Dest.s3 d).at env w (archiveName sid e) = some (.raw b) ∧ Archived rs q b ∧
      KeptAs env rs (env.site d.endpoint d.bucket) (d.prefix_ ++ sid) q ∧
      (Clashless env rs d → free '/' sid → q = sid) := by
  have hinv := (h.invariant hengine hstart (List.Subset.refl rs)).2
  have hman : (w.get (.bucket (env.site d.endpoint d.bucket))
      (d.prefix_ ++ sid ++ manifestSuffix)).isSome := by
    rw [List.append_assoc]
    exact hm
  obtain ⟨e, b, q, hb, hq, hkept⟩ := hinv.bucket _ _ hman
  refine ⟨e, b, q, ?_, hq, hkept, fun hclash hfree => ?_⟩
  · rw [archiveName_pre] at hb
    exact hb
  · obtain ⟨r, hr, c, hc, hsite, hname⟩ := hkept
    rcases hclash r hr c hc hsite with hpre | ⟨hfc, hfd⟩
    · rw [hpre] at hname
      exact (List.append_cancel_left hname).symm
    · obtain ⟨v, hv, rfl, -⟩ := hq
      have hq := fileName_folder hfc (slashless (hengine v hv).slug)
      rw [← hname, fileName_folder hfd hfree] at hq
      exact hq.symm

/-! ## a run that is stopped after its upload -/

theorem wholePuts_step {env : Env} {o : Op} {f : Fault} (w : World)
    (hf : ∀ e b, f ≠ .raise e (.torn b)) : WholePuts env w (env.step o f w).2 := by
  intro d key src b hlog
  have hlast := List.append_inj_right' hlog rfl
  obtain rfl : o = .put d key src := (Prod.mk.inj (List.cons.inj hlast).1).1
  show (env.effect _ _ w).2.get _ _ = _ ∨ ∃ c, _ ∧ (env.effect _ _ w).2.get _ _ = _
  generalize hg : (if env.sure (.put d key src) then Fault.calm else f) = g
  have hg' : ∀ e b, g ≠ .raise e (.torn b) := by
    rw [← hg]
    split
    · intro e b h
      cases h
    · exact hf
  cases hc : w.content src with
  | none =>
    rw [effect_put_none g hc]
    exact Or.inl rfl
  | some c =>
    rw [effect_put_some g hc]
    rcases (wrote_put w (d.loc env) (d.pre ++ key) c g).here with h | h | ⟨x, h⟩
    · exact Or.inl h
    · exact Or.inr ⟨c, rfl, h⟩
    · cases g with
      | calm => exact Or.inr ⟨c, rfl, w.get_write _ _ c⟩
      | raise e r =>
        cases r with
        | untouched => exact Or.inl rfl
        | whole => exact Or.inr ⟨c, rfl, w.get_write _ _ c⟩
        | torn b => exact absurd rfl (hg' e b)

def offsiteRun : Run := ⟨runAt offsiteJob none, .ok bundle⟩

def offsiteMoves : List (World × World) :=
  (runJob plainEnv offsiteRun.args offsiteRun.made).moves plainEnv.step .calm [] (worldOf [])

/-- the world right after the put of the manifest -/
def afterUpload : World := (offsiteMoves.getD 3 (worldOf [], worldOf [])).2

theorem manifest_implies_archive_afterUpload :
    ((Dest.s3 ⟨[], "backups".toList, []⟩).at plainEnv afterUpload
      (offsiteRun.args.sid ++ manifestSuffix)).isSome ∧
    ∃ e b q, (Dest.s3 ⟨[], "backups".toList, []⟩).at plainEnv afterUpload
        (archiveName offsiteRun.args.sid e) = some (.raw b) ∧ Archived [offsiteRun] q b ∧
      KeptAs plainEnv [offsiteRun] ([], "backups".toList) offsiteRun.args.sid q ∧
      (Clashless plainEnv [offsiteRun] ⟨[], "backups".toList, []⟩ → free '/' offsiteRun.args.sid →
        q = offsiteRun.args.sid) := by
  have hm : ((Dest.s3 ⟨[], "backups".toList, []⟩).at plainEnv afterUpload
      (offsiteRun.args.sid ++ manifestSuffix)).isSome := by decide +kernel
  have hlen : 3 < offsiteMoves.length := by decide +kernel
  have hstart : Untouched [offsiteRun] (worldOf []) :=
    ⟨fun _ _ => rfl, fun _ => rfl, fun _ _ _ _ => rfl⟩
  have hreached : Reached plainEnv (worldOf []) [offsiteRun] afterUpload := by
    refine Reached.run offsiteRun [] Reached.start (fun m hm => ?_)
      (Or.inr ⟨offsiteMoves.get ⟨3, hlen⟩, List.get_mem _ _, ?_⟩)
    · obtain ⟨o, f, hf, he⟩ := Prog.mem_moves Fault.calm hm
      obtain rfl : f = .calm := hf.resolve_right (by simp)
      rw [he]
      exact wholePuts_step m.1 fun e b h => by cases h
    · unfold afterUpload
      rw [List.getD_eq_getElem?_getD, List.getElem?_eq_getElem hlen]
      rfl
  refine ⟨hm, manifest_implies_archive (fun r hr => ?_) hstart hreached _ _ hm⟩
  rw [List.mem_singleton.mp hr]
  exact ⟨noon, none, rfl⟩

end BackupHelper
