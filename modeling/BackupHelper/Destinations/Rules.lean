import BackupHelper.Destinations.Store

/-!
# What each operation can do

One relation per kind of operation, which says all that a caller may rely on, and the rule for the
operation in a program:

* `Wrote env l k c w r w'`   a write of `c` to `k` of `l` that answered `r`;
* `Removed l k w r w'`       a removal of `k` of `l` that answered `r`;
* `Quiet w w'`               operations that only read or report.

In each of them no other name changes, and the log grows by what was done.
-/

set_option linter.unusedSectionVars false

namespace BackupHelper
open Text Glob Effects

/-- `w'` differs from `w` at most in the content of `k` of `l` -/
def Elsewhere (l : Loc) (k : Str) (w w' : World) : Prop :=
  ∀ l' k', (l', k') ≠ (l, k) → w'.get l' k' = w.get l' k'

structure Wrote (l : Loc) (k : Str) (c : Content) (w : World) (r : Except Exc Unit) (w' : World) :
    Prop where
  other : Elsewhere l k w w'
  done : r = .ok () → w'.get l k = some c
  here : w'.get l k = w.get l k ∨ w'.get l k = some c ∨ ∃ b, w'.get l k = some (.raw b)

structure Removed (l : Loc) (k : Str) (w : World) (r : Except Exc Unit) (w' : World) : Prop where
  other : Elsewhere l k w w'
  done : r = .ok () → w'.get l k = none
  here : w'.get l k = w.get l k ∨ w'.get l k = none

theorem Wrote.isSome {l : Loc} {k : Str} {c : Content} {w w' : World} {r : Except Exc Unit}
    (h : Wrote l k c w r w') {l' : Loc} {k' : Str} (hs : (w.get l' k').isSome) :
    (w'.get l' k').isSome := by
  by_cases he : (l', k') = (l, k)
  · obtain ⟨rfl, rfl⟩ := Prod.mk.inj he
    rcases h.here with hh | hh | ⟨b, hh⟩
    · rwa [hh]
    · rw [hh]
      rfl
    · rw [hh]
      rfl
  · rwa [h.other _ _ he]

/-- a removal leaves a name as it is or takes it away -/
theorem Removed.get_of_isSome {l : Loc} {key : Str} {w w' : World} {r : Except Exc Unit} (h : Removed l key w r w')
    {l' : Loc} {k : Str} (hs : (w'.get l' k).isSome) : w'.get l' k = w.get l' k := by
  by_cases he : (l', k) = (l, key)
  · obtain ⟨rfl, rfl⟩ := Prod.mk.inj he
    refine h.here.resolve_right fun hn => ?_
    rw [hn] at hs
    simp at hs
  · exact h.other _ _ he

theorem Removed.get_none {l : Loc} {key : Str} {w w' : World} {r : Except Exc Unit} (h : Removed l key w r w')
    {l' : Loc} {k : Str} (hn : w.get l' k = none) : w'.get l' k = none := by
  by_contra hne
  have he := h.get_of_isSome (Option.ne_none_iff_isSome.mp hne)
  exact hne (he.trans hn)

/-- an operation that changes no file -/
def Op.quiet : Op → Prop
  | .put _ _ _ => False
  | .delete _ _ => False
  | .writeMarker _ _ => False
  | .unlink _ => False
  | _ => True

/-- only operations that change no file -/
structure Quiet (w w' : World) : Prop where
  same : w'.files = w.files
  log : ∃ es, w'.log = w.log ++ es ∧ ∀ e ∈ es, e.1.quiet

theorem Quiet.refl (w : World) : Quiet w w := ⟨rfl, [], by simp, by simp⟩

theorem Quiet.trans {w₁ w₂ w₃ : World} (h : Quiet w₁ w₂) (h' : Quiet w₂ w₃) : Quiet w₁ w₃ := by
  obtain ⟨hs, es, hl, he⟩ := h
  obtain ⟨hs', es', hl', he'⟩ := h'
  refine ⟨hs'.trans hs, es ++ es', by rw [hl', hl, List.append_assoc], ?_⟩
  intro e hmem
  rcases List.mem_append.mp hmem with h | h
  · exact he e h
  · exact he' e h

theorem Quiet.get {w w' : World} (h : Quiet w w') (l : Loc) (k : Str) : w'.get l k = w.get l k := by
  unfold World.get
  rw [h.same]

theorem Quiet.note {w : World} {o : Op} (b : Bool) (h : o.quiet) : Quiet w (w.note (o, b)) :=
  ⟨rfl, [(o, b)], rfl, by simpa using h⟩

/-! ## one operation -/

theorem wrote_put (w : World) (l : Loc) (k : Str) (c : Content) (f : Fault) :
    Wrote l k c w f.answer (w.put l k c f) := by
  refine ⟨fun l' k' h => get_put_ne w c f h, ?_, ?_⟩
  · intro h
    cases f with
    | calm => exact w.get_write l k c
    | raise e r => simp [Fault.answer] at h
  · cases f with
    | calm => exact Or.inr (Or.inl (w.get_write l k c))
    | raise e r =>
      cases r with
      | untouched => exact Or.inl rfl
      | whole => exact Or.inr (Or.inl (w.get_write l k c))
      | torn b => exact Or.inr (Or.inr ⟨b, w.get_write l k _⟩)

theorem removed_remove (w : World) (l : Loc) (k : Str) (f : Fault) :
    Removed l k w f.answer (w.remove l k f) := by
  refine ⟨fun l' k' h => get_remove_ne w f h, ?_, ?_⟩
  · intro h
    cases f with
    | calm => exact w.get_erase l k
    | raise e r => simp [Fault.answer] at h
  · cases f with
    | calm => exact Or.inr (w.get_erase l k)
    | raise e r =>
      cases r with
      | untouched => exact Or.inl rfl
      | whole => exact Or.inr (w.get_erase l k)
      | torn b => exact Or.inr (w.get_erase l k)

section
variable {env : Env} {G : World → World → Prop} {w : World}

/-- the content `c` was read from `src`, or it was missing and nothing happened -/
def Read (src : Src) (c : Content) (w : World) (r : Except Exc Unit) (w' : World) : Prop :=
  w.content src = some c ∨ ((∃ e, r = .error e) ∧ w'.files = w.files)

theorem wp_put {d : Dest} {key : Str} {src : Src} {Q : Except Exc Unit → World → Prop}
    (h : ∀ c r w', Read src c w r w' → Wrote (d.loc env) (d.pre ++ key) c w r w' →
      w'.log = w.log ++ [(.put d key src, isOk r)] → G w w' ∧ Q r w') :
    (put d key src).wp env.step G Q w := by
  intro f
  generalize hf : (if env.sure (.put d key src) then Fault.calm else f) = f'
  cases hc : w.content src with
  | none =>
    have hs : env.step (.put d key src) f w
        = (.error missing, w.note (.put d key src, false)) := by
      simp only [Env.step, hf, effect_put_none f' hc]
      rfl
    rw [hs]
    exact h (.raw []) (.error missing) _ (Or.inr ⟨⟨_, rfl⟩, rfl⟩)
      ⟨fun _ _ _ => rfl, fun h => by simp at h, Or.inl rfl⟩ rfl
  | some c =>
    have hs : env.step (.put d key src) f w = (f'.answer,
        (w.put (d.loc env) (d.pre ++ key) c f').note (.put d key src, isOk f'.answer)) := by
      simp only [Env.step, hf, effect_put_some f' hc]
      rfl
    rw [hs]
    obtain ⟨h1, h2, h3⟩ := wrote_put w (d.loc env) (d.pre ++ key) c f'
    refine h c f'.answer _ (Or.inl hc) ⟨h1, h2, h3⟩ ?_
    have hlog : (w.put (d.loc env) (d.pre ++ key) c f').log = w.log := by
      cases f' with
      | calm => rfl
      | raise e r => cases r <;> rfl
    show _ ++ _ = _
    rw [hlog]

theorem remove_log (w : World) (l : Loc) (k : Str) (f : Fault) : (w.remove l k f).log = w.log := by
  cases f with
  | calm => rfl
  | raise e r => cases r <;> rfl

theorem wp_delete {d : Dest} {key : Str} {Q : Except Exc Unit → World → Prop}
    (h : ∀ r w', Removed (d.loc env) (d.pre ++ key) w r w' →
      w'.log = w.log ++ [(.delete d key, isOk r)] → G w w' ∧ Q r w') :
    (delete d key).wp env.step G Q w := by
  intro f
  have hr := removed_remove w (d.loc env) (d.pre ++ key)
    (if env.sure (.delete d key) then Fault.calm else f)
  obtain ⟨h1, h2, h3⟩ := hr
  refine h _ _ ⟨h1, h2, h3⟩ ?_
  show _ ++ _ = _
  rw [show (env.effect (.delete d key) _ w).2.log = w.log from remove_log ..]
  rfl

theorem wp_unlink {name : Str} {Q : Except Exc Unit → World → Prop}
    (h : ∀ r w', Removed .data name w r w' → (env.sure (.unlink name) = true → r = .ok ()) →
      w'.log = w.log ++ [(.unlink name, isOk r)] → G w w' ∧ Q r w') :
    (unlink name).wp env.step G Q w := by
  intro f
  have hr := removed_remove w .data name (if env.sure (.unlink name) then Fault.calm else f)
  obtain ⟨h1, h2, h3⟩ := hr
  refine h _ _ ⟨h1, h2, h3⟩ ?_ ?_
  · intro hs
    show (if env.sure (.unlink name) then Fault.calm else f).answer = _
    rw [if_pos hs]
    rfl
  · show _ ++ _ = _
    rw [show (env.effect (.unlink name) _ w).2.log = w.log from remove_log ..]
    rfl

theorem wp_writeMarker {name job : Str} {Q : Except Exc Unit → World → Prop}
    (h : ∀ r w', Wrote .data name (.marker job) w r w' →
      (env.sure (.writeMarker name job) = true → r = .ok ()) →
      w'.log = w.log ++ [(.writeMarker name job, isOk r)] → G w w' ∧ Q r w') :
    (writeMarker name job).wp env.step G Q w := by
  intro f
  generalize hf : (if env.sure (.writeMarker name job) then Fault.calm else f) = f'
  have hs : env.step (.writeMarker name job) f w = (f'.answer,
      (w.put .data name (.marker job) f').note (.writeMarker name job, isOk f'.answer)) := by
    simp only [Env.step, hf]
    rfl
  rw [hs]
  obtain ⟨h1, h2, h3⟩ := wrote_put w .data name (.marker job) f'
  refine h f'.answer _ ⟨h1, h2, h3⟩ ?_ ?_
  · intro hsure
    rw [if_pos hsure] at hf
    rw [← hf]
    rfl
  · have hlog : (w.put .data name (.marker job) f').log = w.log := by
      cases f' with
      | calm => rfl
      | raise e r => cases r <;> rfl
    show _ ++ _ = _
    rw [hlog]

variable (hG : ∀ w', Quiet w w' → G w w')
include hG

theorem wp_listKeys {d : Dest} {pfx : Str} {Q : Except Exc (List Str) → World → Prop}
    (he : ∀ e w', Quiet w w' → Q (.error e) w')
    (ho : ∀ w', Quiet w w' → Q (.ok (w.listing env d pfx)) w') :
    (listKeys d pfx).wp env.step G Q w := by
  intro f
  refine ⟨hG _ (Quiet.note _ trivial), ?_⟩
  have hq := fun b => Quiet.note (w := w) (o := .listKeys d pfx) b trivial
  unfold Env.step
  cases (if env.sure (.listKeys d pfx) then Fault.calm else f) with
  | calm => exact ho _ (hq _)
  | raise e r => exact he e _ (hq _)

theorem wp_glob {pat : Str} {Q : List Str → World → Prop}
    (h : ∀ w', Quiet w w' → Q (w.globbed pat) w') : (glob pat).wp env.step G Q w :=
  fun _ => ⟨hG _ (Quiet.note _ trivial), h _ (Quiet.note _ trivial)⟩

theorem wp_isThere {name : Str} {Q : Bool → World → Prop}
    (h : ∀ w', Quiet w w' → Q (w.get .data name).isSome w') :
    (isThere name).wp env.step G Q w :=
  fun _ => ⟨hG _ (Quiet.note _ trivial), h _ (Quiet.note _ trivial)⟩

/-- an operation that only reports -/
theorem wp_report {o : Op} {Q : Res o → World → Prop} (hq : o.quiet)
    (h : ∀ r w', Quiet w w' → Q r w') : (Prog.op o Prog.ret).wp env.step G Q w := by
  intro f
  have hfiles : ∀ f, (env.effect o f w).2.files = w.files ∧ (env.effect o f w).2.log = w.log := by
    intro f
    cases o with
    | put => exact hq.elim
    | delete => exact hq.elim
    | writeMarker => exact hq.elim
    | unlink => exact hq.elim
    | record r => cases f <;> exact ⟨rfl, rfl⟩
    | notify e => cases f <;> exact ⟨rfl, rfl⟩
    | _ => exact ⟨rfl, rfl⟩
  obtain ⟨hs, hl⟩ := hfiles (if env.sure o then .calm else f)
  have hquiet : Quiet w (env.step o f w).2 := by
    refine ⟨hs, [(o, o.returned (env.step o f w).1)], ?_, by simpa using hq⟩
    show _ ++ _ = _
    rw [hl]
    rfl
  exact ⟨hG _ hquiet, h _ _ hquiet⟩

end

/-! ## pending markers -/

/-- the job that a marker names -/
def World.owner (w : World) (name : Str) : Option Str :=
  match w.get .data name with
  | some (.marker job) => some job
  | _ => none

theorem World.owner_eq_some {w : World} {name job : Str} :
    w.owner name = some job ↔ w.get .data name = some (.marker job) := by
  unfold owner
  cases hg : w.get .data name with
  | none => simp
  | some c => cases c <;> simp

end BackupHelper
