import BackupHelper.Snapshots.Order
import BackupHelper.Runner.Names

/-!
# Ids are unambiguous

What retention, ownership, deletion by prefix and the restore lookup rest on: an id is read back as
it was made, orders like its time, and begins no file name of another id (`ids_unambiguous`).
-/

namespace BackupHelper
open Text Glob Calendar

/-! ## seconds -/

theorem toSecond_before {s t : Datetime} (h : toSecond s ≠ toSecond t) :
    s.Before t ↔ (toSecond s).Before (toSecond t) := by
  have hne : s.day ≠ t.day ∨ s.micro / 1000000 ≠ t.micro / 1000000 := by
    by_contra hn
    push Not at hn
    apply h
    unfold toSecond
    rw [Datetime.mk.injEq]
    exact ⟨hn.1, by rw [hn.2]⟩
  show _ ∨ _ ∧ _ ↔ s.day < t.day ∨ s.day = t.day ∧
    s.micro / 1000000 * 1000000 < t.micro / 1000000 * 1000000
  omega

theorem before_or_before {s t : Datetime} (h : s ≠ t) : s.Before t ∨ t.Before s := by
  by_contra hn
  push Not at hn
  obtain ⟨h1, h2⟩ := hn
  unfold Datetime.Before at h1 h2
  apply h
  obtain ⟨d, m, hd, hd', hm⟩ := s
  obtain ⟨d', m', _, _, _⟩ := t
  simp only at h1 h2
  obtain rfl : d = d' := by omega
  obtain rfl : m = m' := by omega
  rfl

/-! ## ids -/

theorem newSnapshotId_begins (t : Datetime) (job : Option Str) :
    ∃ u, newSnapshotId t job = stamp t ++ u := by
  cases job with
  | none => exact ⟨[], (List.append_nil _).symm⟩
  | some name => exact ⟨'_' :: jobSlug name, rfl⟩

theorem newSnapshotId_lt {s t : Datetime} (h : (toSecond s).Before (toSecond t)) (j k : Option Str) :
    newSnapshotId s j < newSnapshotId t k := by
  obtain ⟨x, hx⟩ := newSnapshotId_begins s j
  obtain ⟨y, hy⟩ := newSnapshotId_begins t k
  rw [hx, hy]
  have hl : (stamp s).length = (stamp t).length := by rw [stamp_length, stamp_length]
  exact append_lt_append_of_lt (stamp_lt h) hl x y

theorem newSnapshotId_lt_iff {s t : Datetime} (h : toSecond s ≠ toSecond t) (j k : Option Str) :
    newSnapshotId s j < newSnapshotId t k ↔ s.Before t := by
  rw [toSecond_before h]
  constructor
  · intro hlt
    refine (before_or_before h).resolve_right fun hb => ?_
    exact lt_asymm hlt (newSnapshotId_lt hb k j)
  · exact fun hb => newSnapshotId_lt hb j k

theorem newSnapshotId_slug {s t : Datetime} {a b : Str}
    (h : newSnapshotId s (some a) = newSnapshotId t (some b)) : jobSlug a = jobSlug b := by
  have hparse := congrArg (fun sid => (parseSnapshotId sid).2) h
  simp only [parse_newSnapshotId] at hparse
  exact Option.some.inj hparse

theorem Engine.dot {sid : Str} (h : Engine sid) : free '.' sid := by
  obtain ⟨t, job, rfl⟩ := h
  exact newSnapshotId_free t job

/-- no file of one id is named like a file of another -/
theorem not_begins {x y : Str} (hx : Engine x) (hy : Engine y) (hne : x ≠ y) (u : Str) :
    ¬ y ++ ['.'] <+: x ++ '.' :: u := by
  intro h
  have hself : x ++ ['.'] <+: x ++ '.' :: u := ⟨u, by simp⟩
  exact hne (begins_unique hself h (fun hb => hy.dot (hb.subset (by simp)))
    fun hb => hx.dot (hb.subset (by simp)))

theorem Engine.plain {sid : Str} (h : Engine sid) : plain (sid ++ ['.']) := by
  have hfree : ∀ c, isSlugChar c = false → c ≠ '.' → free c (sid ++ ['.']) := by
    intro c hc hdot
    rw [free_append, free_cons]
    exact ⟨free_of_all_slug h.slug hc, hdot, List.not_mem_nil⟩
  exact ⟨hfree _ (by decide) (by decide), hfree _ (by decide) (by decide),
    hfree _ (by decide) (by decide)⟩

/-- **Snapshot ids are unambiguous.** -/
theorem ids_unambiguous :
    (∀ t job, parseSnapshotId (newSnapshotId t job) = (some (toSecond t), job.map jobSlug)) ∧
    (∀ s t j k, toSecond s ≠ toSecond t → (newSnapshotId s j < newSnapshotId t k ↔ s.Before t)) ∧
    (∀ s t a b, jobSlug a ≠ jobSlug b → newSnapshotId s (some a) ≠ newSnapshotId t (some b)) ∧
    ∀ x y, Engine x → Engine y → x ≠ y → ∀ u, ¬ y ++ ['.'] <+: x ++ '.' :: u ∧
      fnmatch (y ++ ".*".toList) (x ++ '.' :: u) = false := by
  refine ⟨parse_newSnapshotId, fun s t j k h => newSnapshotId_lt_iff h j k,
    fun s t a b h he => h (newSnapshotId_slug he), fun x y hx hy hne u => ?_⟩
  have hno := not_begins hx hy hne u
  refine ⟨hno, ?_⟩
  have hpat : y ++ ".*".toList = (y ++ ['.']) ++ ['*'] := by simp
  rw [hpat, ← Bool.not_eq_true, fnmatch_begins hy.plain]
  exact hno

/-- a plain id, and one of the next second for a job whose name holds a dot -/
theorem ids_unambiguous_noon :
    let t : Datetime := ⟨739000, 43201 * 1000000, by decide, by decide, by decide⟩
    (newSnapshotId noon none < newSnapshotId t (some "a.b".toList) ↔ noon.Before t) ∧
    newSnapshotId noon (some "a".toList) ≠ newSnapshotId noon (some "a.b".toList) ∧
    ¬ newSnapshotId noon none ++ ['.'] <+: newSnapshotId t (some "a.b".toList) ++ '.' :: "tar".toList := by
  intro t
  obtain ⟨-, hlt, hne, hbegin⟩ := ids_unambiguous
  exact ⟨hlt _ _ _ _ (by decide), hne _ _ _ _ (by decide),
    (hbegin _ _ ⟨t, _, rfl⟩ ⟨noon, _, rfl⟩ (by decide +kernel) _).1⟩

end BackupHelper
