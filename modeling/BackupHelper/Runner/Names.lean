import BackupHelper.Runner.Keeps
import Mathlib.Data.List.TakeWhile
import Mathlib.Data.List.Infix

/-!
# The names of a snapshot's files

Every file of a snapshot `sid` is called `<sid>.…`: the archive, the sidecar manifest and the
pending marker, whose endings differ (`archive_not_manifest` and its siblings).

* `artifact_name`                  a run uploads its archive under `archiveName`;
* `Own`                            the two names that a run uploads;
* `begins_unique`                  of ids none of which begins another with a dot, a name has one.

At the end an environment and worlds for concrete runs.
-/

set_option linter.unusedSectionVars false

namespace BackupHelper
open Text Glob Effects Calendar

theorem tarSuffix_eq : tarSuffix = '.' :: "tar.gz".toList := by decide

theorem manifestSuffix_eq : manifestSuffix = '.' :: "manifest.json".toList := by decide

theorem pendingSuffix_eq : pendingSuffix = '.' :: "offsite-pending.json".toList := by decide

theorem begins_of_dot {q s t : Str} (h : s = '.' :: t) : q ++ ['.'] <+: q ++ s := by
  rw [h]
  exact ⟨t, by simp⟩

theorem begins_manifest (q : Str) : q ++ ['.'] <+: q ++ manifestSuffix :=
  begins_of_dot manifestSuffix_eq

theorem begins_pending (q : Str) : q ++ ['.'] <+: q ++ pendingSuffix :=
  begins_of_dot pendingSuffix_eq

theorem begins_tar {q b : Str} (h : q ++ tarSuffix <+: b) : q ++ ['.'] <+: b :=
  (begins_of_dot tarSuffix_eq).trans h

theorem begins_archive (q : Str) (e : EncryptionMode) : q ++ ['.'] <+: archiveName q e :=
  begins_tar (List.prefix_append _ _)

/-- of two ids neither of which begins the other with a dot, a name begins with at most one -/
theorem begins_unique {s t k : Str} (hs : s ++ ['.'] <+: k) (ht : t ++ ['.'] <+: k)
    (hst : ¬ s ++ ['.'] <+: t) (hts : ¬ t ++ ['.'] <+: s) : s = t := by
  have hlen : ∀ {x y : Str}, x ++ ['.'] <+: y ++ ['.'] → ¬ x ++ ['.'] <+: y → x = y := by
    intro x y h hn
    rcases List.prefix_concat_iff.mp h with he | he
    · exact List.append_cancel_right he
    · exact absurd he hn
  rcases List.prefix_or_prefix_of_prefix hs ht with h | h
  · exact hlen h hst
  · exact (hlen h hts).symm

def Own (a : RunArgs) (made : Made) (x : Str) : Prop :=
  x = archiveName a.sid made.encrypted ∨ x = a.sid ++ manifestSuffix

theorem Own.begins {a : RunArgs} {made : Made} {x : Str} (h : Own a made x) :
    a.sid ++ ['.'] <+: x := by
  rcases h with rfl | rfl
  · exact begins_archive _ _
  · exact begins_manifest _

theorem fileName_of_free {s : Str} (h : free '/' s) : fileName s = s := by
  unfold fileName
  have hall : ∀ c ∈ s.reverse, decide (c ≠ '/') = true := by
    intro c hc
    rw [decide_eq_true_eq]
    rintro rfl
    exact h (List.mem_reverse.mp hc)
  rw [List.takeWhile_eq_self_iff.mpr hall, List.reverse_reverse]

theorem artifact_name {a : RunArgs} (made : Made) (h : free '/' a.sid) :
    (a.artifact made).name = archiveName a.sid made.encrypted := by
  have he : free '/' (encryptSuffix made.encrypted) := by cases made.encrypted <;> decide
  exact fileName_of_free (free_append.mpr ⟨free_append.mpr ⟨h, by decide⟩, he⟩)

/-- names that end differently -/
theorem append_ne {s t u v : Str} (h : ¬ u <:+ v) (h' : ¬ v <:+ u) : s ++ u ≠ t ++ v := by
  intro he
  rcases List.suffix_or_suffix_of_suffix ⟨s, he⟩ ⟨t, rfl⟩ with hs | hs
  · exact h hs
  · exact h' hs

theorem archive_not_manifest (s q : Str) (e : EncryptionMode) :
    archiveName s e ≠ q ++ manifestSuffix := by
  unfold archiveName
  rw [List.append_assoc]
  cases e <;> exact append_ne (by decide) (by decide)

theorem archive_not_pending (s q : Str) (e : EncryptionMode) :
    archiveName s e ≠ q ++ pendingSuffix := by
  unfold archiveName
  rw [List.append_assoc]
  cases e <;> exact append_ne (by decide) (by decide)

theorem manifest_not_pending (s q : Str) : s ++ manifestSuffix ≠ q ++ pendingSuffix :=
  append_ne (by decide) (by decide)

theorem archiveName_inj {s t : Str} {e f : EncryptionMode} (h : archiveName s e = archiveName t f) :
    s = t ∧ e = f := by
  unfold archiveName at h
  rw [List.append_assoc, List.append_assoc] at h
  have hsuf : ∀ e f : EncryptionMode, e ≠ f →
      ¬ tarSuffix ++ encryptSuffix e <:+ tarSuffix ++ encryptSuffix f := by
    intro e f
    cases e <;> cases f <;> decide
  have hef : e = f := by
    by_contra hne
    exact append_ne (hsuf e f hne) (hsuf f e (Ne.symm hne)) h
  subst hef
  exact ⟨List.append_cancel_right h, rfl⟩

/-! ## names that begin with another name -/

theorem begins_append {u s e : Str} (h : u <+: s ++ e) (hs : ¬ u <+: s) :
    ∃ t, t ≠ [] ∧ t <+: e ∧ u = s ++ t := by
  rcases List.prefix_or_prefix_of_prefix h (List.prefix_append s e) with hp | ⟨t, rfl⟩
  · exact absurd hp hs
  · refine ⟨t, ?_, (List.prefix_append_right_inj s).mp h, rfl⟩
    rintro rfl
    exact hs (by simp)

/-- if `q.tar.gz` begins `s ++ e` and not `s`, it is `s` with a part of `e` that ends in `z` -/
theorem begins_tar_append {q s e : Str} (h : q ++ tarSuffix <+: s ++ e)
    (hs : ¬ q ++ tarSuffix <+: s) : ∃ t ∈ e.inits, t.getLast? = some 'z' ∧ q ++ tarSuffix = s ++ t := by
  obtain ⟨t, hne, ht, he⟩ := begins_append h hs
  refine ⟨t, (List.mem_inits t e).mpr ht, ?_, he⟩
  have hlast : (q ++ tarSuffix).getLast? = some 'z' := by
    rw [List.getLast?_append]
    rfl
  rw [he, List.getLast?_append] at hlast
  cases hl : t.getLast? with
  | none => exact absurd (List.getLast?_eq_none_iff.mp hl) hne
  | some c =>
    rw [hl] at hlast
    exact hlast

theorem tar_begins_manifest {q s : Str} (h : q ++ tarSuffix <+: s ++ manifestSuffix) :
    q ++ tarSuffix <+: s := by
  by_contra hs
  obtain ⟨t, ht, hl, -⟩ := begins_tar_append h hs
  have hnone : ∀ t ∈ manifestSuffix.inits, t.getLast? ≠ some 'z' := by decide
  exact hnone t ht hl

theorem tar_begins_pending {q s : Str} (h : q ++ tarSuffix <+: s ++ pendingSuffix) :
    q ++ tarSuffix <+: s := by
  by_contra hs
  obtain ⟨t, ht, hl, -⟩ := begins_tar_append h hs
  have hnone : ∀ t ∈ pendingSuffix.inits, t.getLast? ≠ some 'z' := by decide
  exact hnone t ht hl

theorem tar_begins_archive {q s : Str} {e : EncryptionMode}
    (h : q ++ tarSuffix <+: archiveName s e) : q = s ∨ q ++ tarSuffix <+: s := by
  by_cases hs : q ++ tarSuffix <+: s
  · exact Or.inr hs
  · unfold archiveName at h
    rw [List.append_assoc] at h
    obtain ⟨t, ht, hl, he⟩ := begins_tar_append h hs
    have hone : ∀ t ∈ (tarSuffix ++ encryptSuffix e).inits, t.getLast? = some 'z' → t = tarSuffix := by
      cases e <;> decide
    rw [hone t ht hl] at he
    exact Or.inl (List.append_cancel_right he)

/-- the id whose files `<id>.…` take in the marker of `s` but not its manifest -/
def markerId (s : Str) : Str := s ++ ".offsite-pending".toList

theorem markerId_ne (s : Str) : markerId s ≠ s := by
  intro h
  have hlen := congrArg List.length h
  simp [markerId] at hlen

theorem dot_begins_pending {p s : Str} (h : p ++ ['.'] <+: s ++ pendingSuffix) :
    p ++ ['.'] <+: s ++ manifestSuffix ∨ p = markerId s := by
  by_cases hs : p ++ ['.'] <+: s
  · exact Or.inl (hs.trans (List.prefix_append _ _))
  · obtain ⟨t, -, ht, he⟩ := begins_append h hs
    have hdot : t.getLast? = some '.' ∨ t = [] := by
      cases hl : t.getLast? with
      | none => exact Or.inr (List.getLast?_eq_none_iff.mp hl)
      | some c =>
        have hlast : (p ++ ['.']).getLast? = some '.' := by simp
        rw [he, List.getLast?_append, hl] at hlast
        exact Or.inl hlast
    have htwo : ∀ t ∈ pendingSuffix.inits, t.getLast? = some '.' ∨ t = [] →
        t = [] ∨ t = ['.'] ∨ t = ".offsite-pending".toList ++ ['.'] := by decide
    rcases htwo t ((List.mem_inits t _).mpr ht) hdot with rfl | rfl | rfl
    · rw [List.append_nil] at he
      exact absurd (by rw [he]) hs
    · rw [List.append_cancel_right he]
      exact Or.inl (begins_manifest s)
    · rw [← List.append_assoc] at he
      exact Or.inr (List.append_cancel_right he)

theorem append_lt_append (s : Str) {t u : Str} (h : t < u) : s ++ t < s ++ u := by
  induction s with
  | nil => exact h
  | cons c s ih => exact List.Lex.cons ih

/-- the manifest of a snapshot comes before its marker -/
theorem manifest_lt_pending (s : Str) : s ++ manifestSuffix < s ++ pendingSuffix :=
  append_lt_append s (by decide)

/-! ## concrete runs -/

/-- every endpoint its own server, sets in the order of their lists -/
def plainEnv : Env where
  site endpoint bucket := (endpoint, bucket)
  sha256 b := b.map (fun x => Char.ofNat x.toNat)
  repr s := '\'' :: s ++ ['\'']
  iter l := l
  iter_perm l := List.Perm.refl l
  sure _ := false

/-- noon of 2024-04-24 -/
def noon : Datetime := ⟨739000, 12 * 3600 * 1000000, by decide, by decide, by decide⟩

def bundle : Made := ⟨[], [], [1, 2, 3], .none⟩

def worldOf (data : List (Str × Content)) : World where
  files l := match l with
    | .data => data.foldr (fun f m => m.insert f.1 f.2) ∅
    | .bucket _ => ∅
  alerts := []
  runs := ∅
  log := []

def runAt (job : Job) (snapshotId : Option Str) : RunArgs where
  job := job
  scope := { job := job.name }
  instance_ := "backup".toList
  now := noon
  snapshotId := snapshotId
  notifier := false
  hooks := false

/-- a call that fails after writing torn bytes -/
def torn : Fault := .raise ⟨"OSError".toList, "No space left on device".toList⟩ (.torn [])

def offsiteBucket : DestinationSpec := .s3 ⟨[], "backups".toList, []⟩

def onlyManifest (sid : Str) : Str × Content :=
  (sid ++ manifestSuffix, .manifest (Manifest.build sid [] [] [] none))

def dayBefore : Str := "2024-04-23_12-00-00".toList

/-- a snapshot of the day before is pending -/
def catchUpWorld : World :=
  worldOf [(dayBefore ++ pendingSuffix, .marker "main".toList),
    (dayBefore ++ tarSuffix, .raw [4, 5]), onlyManifest dayBefore]

end BackupHelper
