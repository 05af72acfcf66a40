import BackupHelper.Concurrency.Zones
import BackupHelper.Runner.Ends

/-!
# Concurrent jobs do not disturb each other

The daemon runs jobs in parallel threads on the same directory and buckets.  Operations are atomic and
fail by a plan of the run's own; a listing, and the markers, show the other job's files as well.

* `Env.stepRead`     a step of the store where the reading of a marker may fail too;
* `Side.Fixed P p`   amid the other job `p` does as it does alone, and its answer has `P`;
* `fixed_*`          this for every part of a run;
* `jobs_run_apart`   two runs in any interleaving, and one after the other in either order.
-/

set_option linter.unusedSectionVars false

namespace BackupHelper
open Text Glob Effects Calendar

/-- as `Env.step`; a marker that cannot be read counts as none -/
def Env.stepRead (env : Env) (o : Op) (f : Fault) (w : World) : Res o × World :=
  match o with
  | .readMarker name =>
    match if env.sure (.readMarker name) then .calm else f with
    | .calm => env.step (.readMarker name) .calm w
    | .raise _ _ => (none, w.note (.readMarker name, false))
  | o => env.step o f w

/-- looks at the data dir leave no trace in a run's plan of failures: how many there are depends on
the files of other jobs -/
def Op.counts : Op → Bool
  | .glob _ => false
  | .isThere _ => false
  | .readMarker _ => false
  | _ => true

namespace Side

/-- amid the other job `p` does as `p'` does alone -/
abbrev Sim {α β : Type} (s : Side) (plan : Prog.Plan Op Fault) (Rel : α → β → Prop) (p : M α) (p' : M β) :
    Prop :=
  Prog.Sim s.env.stepRead Op.counts plan s.Tame s.Same s.Moves Rel p p'

/-- amid the other job `p` does as it does alone, and its answer has `P` -/
abbrev Fixed {α : Type} (s : Side) (plan : Prog.Plan Op Fault) (P : α → Prop) (p : M α) : Prop :=
  s.Sim plan (fun a b => b = a ∧ P a) p p

end Side

section
variable {s : Side} {plan : Prog.Plan Op Fault} {α β : Type}

theorem fixed_pure {P : α → Prop} {a : α} (ha : P a) : s.Fixed plan P (pure a) :=
  Prog.Sim.ret (same_equivalence s) ⟨rfl, ha⟩

theorem fixed_bind {P : α → Prop} {Q : β → Prop} {p : M α} {k : α → M β} (hp : s.Fixed plan P p)
    (hk : ∀ a, P a → s.Fixed plan Q (k a)) : s.Fixed plan Q (p >>= k) := by
  refine Prog.Sim.bind (same_equivalence s) hp fun a b hab => ?_
  obtain ⟨rfl, ha⟩ := hab
  exact hk _ ha

/-! ## one operation -/

theorem fixed_op {o : Op} {P : Res o → Prop} (hstep : ∀ f w w', s.Tame w → s.Tame w' → s.Same w w' →
    ((s.env.stepRead o f w').1 = (s.env.stepRead o f w).1 ∧ P (s.env.stepRead o f w).1) ∧
      s.Tame (s.env.stepRead o f w).2 ∧ s.Tame (s.env.stepRead o f w').2 ∧
      s.Same (s.env.stepRead o f w).2 (s.env.stepRead o f w').2 ∧
      s.Moves w (s.env.stepRead o f w).2) : s.Fixed plan P (.op o .ret : M (Res o)) :=
  Prog.Sim.perform (same_equivalence s) hstep

/-- an operation that touches no file, answered by its fault alone -/
theorem fixed_still {o : Op} (hread : ∀ name, o ≠ .readMarker name)
    (hfiles : ∀ f w, (s.env.effect o f w).2.files = w.files)
    (hans : ∀ f w w', (s.env.effect o f w).1 = (s.env.effect o f w').1) :
    s.Fixed plan (fun _ => True) (.op o .ret : M (Res o)) := by
  refine fixed_op fun f w w' ht ht' hs => ?_
  have hstep : ∀ w, s.env.stepRead o f w = s.env.step o f w := by
    intro w
    cases o with
    | readMarker name => exact absurd rfl (hread name)
    | _ => rfl
  have hw : ∀ w, (s.env.step o f w).2.files = w.files := fun w => hfiles _ w
  have hget : ∀ w l k, (s.env.step o f w).2.get l k = w.get l k := fun w l k => by
    rw [World.get, hw, World.get]
  rw [hstep, hstep]
  refine ⟨⟨hans _ _ _, trivial⟩, ht.of_files (hw w), ht'.of_files (hw w'), fun l k hz => ?_,
    fun ht => ⟨ht.of_files (hw w), fun l k _ => hget w l k⟩⟩
  rw [hget, hget]
  exact hs l k hz

/-- what an operation on a name of its zone leaves -/
theorem same_put {w w' : World} (hs : s.Same w w') (l : Loc) (k : Str) (c : Content) (f : Fault) :
    s.Same (w.put l k c f) (w'.put l k c f) := by
  have hwrite : ∀ c, s.Same (w.write l k c) (w'.write l k c) := by
    intro c l' k' hz
    by_cases he : (l', k') = (l, k)
    · obtain ⟨rfl, rfl⟩ := Prod.mk.inj he
      rw [World.get_write, World.get_write]
    · rw [World.get_write_ne _ _ he, World.get_write_ne _ _ he]
      exact hs l' k' hz
  cases f with
  | calm => exact hwrite c
  | raise e r =>
    cases r with
    | untouched => exact hs
    | whole => exact hwrite c
    | torn b => exact hwrite _

theorem same_remove {w w' : World} (hs : s.Same w w') (l : Loc) (k : Str) (f : Fault) :
    s.Same (w.remove l k f) (w'.remove l k f) := by
  have herase : s.Same (w.erase l k) (w'.erase l k) := by
    intro l' k' hz
    by_cases he : (l', k') = (l, k)
    · obtain ⟨rfl, rfl⟩ := Prod.mk.inj he
      rw [World.get_erase, World.get_erase]
    · rw [World.get_erase_ne _ he, World.get_erase_ne _ he]
      exact hs l' k' hz
  cases f with
  | calm => exact herase
  | raise e r =>
    cases r with
    | untouched => exact hs
    | whole => exact herase
    | torn b => exact herase

theorem moves_of_elsewhere {w w' : World} {l : Loc} {k : Str} (hz : s.Zone l k) (ht : s.Tame w')
    (h : Elsewhere l k w w') : s.Moves w w' := by
  refine fun _ => ⟨ht, fun l' k' hn => h l' k' fun he => ?_⟩
  obtain ⟨rfl, rfl⟩ := Prod.mk.inj he
  exact hn hz

theorem fixed_put (h : s.Apart) {d : Dest} (hd : d ∈ places s.job) {key : Str} {src : Src}
    (hz : s.Zone (d.loc s.env) (d.pre ++ key))
    (hsrc : ∀ name, src = .data name → s.Zone .data name)
    (hman : ∀ p, free '/' p → key = p ++ manifestSuffix → Engine p)
    (hpend : d = .local → ∀ q, key ≠ q ++ pendingSuffix) :
    s.Fixed plan (fun _ => True) (put d key src) := by
  refine fixed_op (o := .put d key src) fun f w w' ht ht' hs => ?_
  have hcontent : w.content src = w'.content src := by
    cases src with
    | work c => rfl
    | data name => exact hs _ _ (hsrc name rfl)
  let f' := if s.env.sure (.put d key src) then Fault.calm else f
  show (_ ∧ True) ∧ _
  cases hc : w.content src with
  | none =>
    have hstep : ∀ w, w.content src = none → s.env.stepRead (.put d key src) f w =
        (.error missing, w.note (.put d key src, false)) := by
      intro w hc
      show (let r := s.env.effect _ f' w; (r.1, r.2.note _)) = _
      rw [effect_put_none f' hc]
      rfl
    rw [hstep w hc, hstep w' (hcontent.symm.trans hc)]
    exact ⟨⟨rfl, trivial⟩, ht.of_files rfl, ht'.of_files rfl, fun l k hz => hs l k hz,
      fun ht => ⟨ht.of_files rfl, fun _ _ _ => rfl⟩⟩
  | some c =>
    have hstep : ∀ w, w.content src = some c → s.env.stepRead (.put d key src) f w =
        (f'.answer, (w.put (d.loc s.env) (d.pre ++ key) c f').note
          (.put d key src, isOk f'.answer)) := by
      intro w hc
      show (let r := s.env.effect _ f' w; (r.1, r.2.note _)) = _
      rw [effect_put_some f' hc]
      rfl
    have htame : ∀ w, s.Tame w → s.Tame (w.put (d.loc s.env) (d.pre ++ key) c f') :=
      fun w ht => Side.Tame.of_put h hd ht (wrote_put w _ _ c f') hman hpend
    rw [hstep w hc, hstep w' (hcontent.symm.trans hc)]
    refine ⟨⟨rfl, trivial⟩, (htame w ht).of_files rfl, (htame w' ht').of_files rfl,
      same_put hs _ _ _ _, ?_⟩
    exact moves_of_elsewhere hz ((htame w ht).of_files rfl) (wrote_put w _ _ c f').other

/-- a file of its zone is removed -/
theorem fixed_remove {o : Op} {l : Loc} {k : Str} (hz : s.Zone l k)
    (hread : ∀ name, o ≠ .readMarker name)
    (heff : ∀ f w, (s.env.effect o f w).2 = w.remove l k f)
    (hans : ∀ f w w', (s.env.effect o f w).1 = (s.env.effect o f w').1) :
    s.Fixed plan (fun _ => True) (.op o .ret : M (Res o)) := by
  refine fixed_op fun f w w' ht ht' hs => ?_
  have hstep : ∀ w, s.env.stepRead o f w = s.env.step o f w := by
    intro w
    cases o with
    | readMarker name => exact absurd rfl (hread name)
    | _ => rfl
  let f' := if s.env.sure o then Fault.calm else f
  have hw : ∀ w, (s.env.step o f w).2.files = (w.remove l k f').files := fun w => by
    show (s.env.effect o f' w).2.files = _
    rw [heff]
  have hget : ∀ w l' k', (s.env.step o f w).2.get l' k' = (w.remove l k f').get l' k' :=
    fun w l' k' => by rw [World.get, hw, World.get]
  have htame : ∀ w, s.Tame w → s.Tame (s.env.step o f w).2 :=
    fun w ht => (ht.of_removed (removed_remove w l k f')).of_files (hw w)
  rw [hstep, hstep]
  refine ⟨⟨hans _ _ _, trivial⟩, htame w ht, htame w' ht', fun l' k' hz' => ?_, ?_⟩
  · rw [hget, hget]
    exact same_remove hs l k f' l' k' hz'
  · refine moves_of_elsewhere hz (htame w ht) fun l' k' hne => ?_
    rw [hget]
    exact (removed_remove w l k f').other l' k' hne

theorem fixed_unlink {name : Str} (hz : s.Zone .data name) :
    s.Fixed plan (fun _ => True) (unlink name) :=
  fixed_remove hz (fun _ => by simp) (fun _ _ => rfl) (fun _ _ _ => rfl)

theorem fixed_delete {d : Dest} {key : Str} (hz : s.Zone (d.loc s.env) (d.pre ++ key)) :
    s.Fixed plan (fun _ => True) (delete d key) :=
  fixed_remove hz (fun _ => by simp) (fun _ _ => rfl) (fun _ _ _ => rfl)

theorem fixed_writeMarker (h : s.Apart) {sid : Str} (hsid : s.Scoped sid) :
    s.Fixed plan (fun _ => True) (writeMarker (sid ++ pendingSuffix) s.job.name) := by
  refine fixed_op (o := .writeMarker (sid ++ pendingSuffix) s.job.name) fun f w w' ht ht' hs => ?_
  let f' := if s.env.sure (.writeMarker (sid ++ pendingSuffix) s.job.name) then Fault.calm else f
  have htame : ∀ w, s.Tame w →
      s.Tame (w.put .data (sid ++ pendingSuffix) (.marker s.job.name) f') :=
    fun w ht => Side.Tame.of_mark h hsid ht (wrote_put w _ _ _ f')
  refine ⟨⟨rfl, trivial⟩, (htame w ht).of_files rfl, (htame w' ht').of_files rfl,
    same_put hs _ _ _ _, ?_⟩
  exact moves_of_elsewhere (zone_data h hsid (begins_pending sid)) ((htame w ht).of_files rfl)
    (wrote_put w _ _ _ f').other

theorem fixed_isThere {name : Str} (hz : s.Zone .data name) :
    s.Fixed plan (fun _ => True) (isThere name) := by
  refine fixed_op (o := .isThere name) fun f w w' ht ht' hs => ?_
  refine ⟨⟨?_, trivial⟩, ht.of_files rfl, ht'.of_files rfl, fun l k hz => hs l k hz,
    fun ht => ⟨ht.of_files rfl, fun _ _ _ => rfl⟩⟩
  show (w'.get .data name).isSome = (w.get .data name).isSome
  rw [hs _ _ hz]

end
end BackupHelper
