import BackupHelper.RetentionPasses

/-!
# What retention leaves of a source

Smart-last protects the newest snapshot, whatever its manifest says of its components.  A pass leaves
every source that has a backup with one exactly if the policy keeps one of its backups.

* `World.backedUp`              a snapshot's manifest has a component of that name without an error;
* `Spared`                      every source with a backup has one that the policy keeps;
* `retention_keeps_sources`     the pass, whatever calls fail.
-/

namespace BackupHelper
open Text Glob Effects Calendar Keep

/-- the manifest of `s` on the destination has a component `name` without an error -/
def World.backedUp (w : World) (env : Env) (dest : Dest) (name s : Str) : Bool :=
  match dest.at env w (s ++ manifestSuffix) with
  | some (.manifest m) => m.components.any (fun c => c.name = name && !c.failed)
  | _ => false

theorem World.backedUp_isSome {w : World} {env : Env} {dest : Dest} {name s : Str}
    (h : w.backedUp env dest name s = true) : (dest.at env w (s ++ manifestSuffix)).isSome := by
  unfold World.backedUp at h
  split at h
  · rename_i m hm
    rw [hm]
    rfl
  · simp at h

theorem World.backedUp_congr {w w' : World} {env : Env} {dest : Dest} {name s : Str}
    (h : dest.at env w' (s ++ manifestSuffix) = dest.at env w (s ++ manifestSuffix)) :
    w'.backedUp env dest name s = w.backedUp env dest name s := by
  unfold World.backedUp
  rw [h]

section
variable (env : Env) (dest : Dest) (cfg : RetentionConfig) (now : Datetime) (scope : SnapshotScope)
  (only : Option (List Str))

/-- each source with a backup among the snapshots that a pass looks at has one that the policy keeps;
for an id with a dot, deletion by prefix asks the same of the ids that begin it -/
def Spared (w : World) : Prop :=
  ∀ name, (∃ s ∈ w.mine env dest scope only, w.backedUp env dest name s = true) →
    ∃ s ∈ w.mine env dest scope only, w.backedUp env dest name s = true ∧
      ∀ p ∈ w.mine env dest scope only, p ++ ['.'] <+: s ++ manifestSuffix →
        Kept (policyOf (takenAt now) cfg) (Old (takenAt now) cfg now)
          (ofList (w.mine env dest scope only)) p

/-- **A source keeps a backup exactly if the policy keeps one.** -/
theorem retention_keeps_sources (w : World) :
    (applyRetention env cfg now scope only dest).wp env.step (fun _ _ => True) (fun errors w' =>
      let keepsSources := ∀ name,
        (∃ s ∈ w.mine env dest scope only, w.backedUp env dest name s = true) →
          ∃ s ∈ w.mine env dest scope only, w'.backedUp env dest name s = true
      (Spared env dest cfg now scope only w → keepsSources) ∧
        (errors = [] → keepsSources → Spared env dest cfg now scope only w)) w := by
  refine Prog.wp_post (wp_pass env dest cfg now scope only w) fun errors w' hpass => ?_
  constructor
  · intro hspared name hname
    obtain ⟨s, hs, hgood, hkept⟩ := hspared name hname
    refine ⟨s, hs, ?_⟩
    rwa [World.backedUp_congr (hpass.same _ fun out hout p hp hbegin => ?_)]
    obtain ⟨hmine, hnot⟩ := (mem_prunable hout p).mp hp
    exact hnot (hkept p hmine hbegin)
  · intro he hkeeps name hname
    obtain ⟨out, hout, hgone⟩ := hpass.complete he
    obtain ⟨s, hs, hgood⟩ := hkeeps name hname
    have hthere := World.backedUp_isSome hgood
    have hsame := (hpass.shrink (s ++ manifestSuffix)).resolve_right fun hnone => by
      rw [hnone] at hthere
      simp at hthere
    refine ⟨s, hs, by rwa [World.backedUp_congr hsame] at hgood, fun p hp hbegin => ?_⟩
    by_contra hnot
    rw [hgone p ((mem_prunable hout p).mpr ⟨hp, hnot⟩) _ hbegin] at hthere
    simp at hthere

end

/-- a manifest with one component, a database dump -/
def dumpManifest (sid : Str) (error : Option Str) : Str × Content :=
  (sid ++ manifestSuffix, .manifest (Manifest.build sid [] [⟨"db".toList, "postgres".toList, 7, [],
    error, []⟩] [] none))

/-- **Where a source loses its last backup**: the newest snapshot, which is protected, holds a failed
dump, and the only good dump is beyond the count. -/
theorem last_backup_pruned :
    let w := worldOf [dumpManifest dayBefore none, dumpManifest today (some "timeout".toList)]
    let w' := ((applyRetention plainEnv newestOnly noon { job := [] } none .local).exec plainEnv.step
      .calm [] w).2
    newestOnly.smartLast = true ∧
      (∃ s ∈ w.mine plainEnv .local { job := [] } none,
        w.backedUp plainEnv .local "db".toList s = true) ∧
      ¬ ∃ s ∈ w.mine plainEnv .local { job := [] } none,
        w'.backedUp plainEnv .local "db".toList s = true := by
  decide +kernel

end BackupHelper
