import BackupHelper.Config.Overrides
import BackupHelper.Lib.Reorder
import BackupHelper.Lib.TreesOrder

/-!
# The order of the environment

The loop over the variables takes them as the environment lists them.  Where two of them get in each
other's way (the one names what the other one sets, or a place above it; or the place where they part is
opened as a list by the one and as a mapping by the other) the second one has the last word.

* `InConflict`        two such variables;
* `override_order`    **only their order counts**.
-/

namespace BackupHelper
open Text Trees

/-- below a common first segment the paths get in each other's way -/
def InConflict (a b : EnvVar) : Prop := ¬ Free a.keys b.keys

/-- variables in conflict come in `env'` in the order in which they come in `env` -/
def ConflictsInOrder (env env' : List EnvVar) : Prop :=
  ∀ a b, InConflict a b → [a, b].Sublist env → [a, b].Sublist env'

/-- the same tree, or none -/
def SameOutcome : Except Exc ConfigTree → Except Exc ConfigTree → Prop
  | .ok t, .ok t' => t.Same t'
  | .error _, .error _ => True
  | _, _ => False

/-- one round of the loop -/
def overrideStep (loads : Str → Loaded) (r : Except Exc ConfigTree) (var : EnvVar) :
    Except Exc ConfigTree :=
  match r with
  | .error e => .error e
  | .ok tree => applyOverrides loads tree [var]

/-- the tree, if there is one, is a mapping -/
def IsMapping (r : Except Exc ConfigTree) : Prop := ∀ tree, r = .ok tree → ∃ entries, tree = .mapping entries

section
variable {loads : Str → Loaded}

theorem overrideStep_ok (tree : ConfigTree) (var : EnvVar) : overrideStep loads (.ok tree) var =
    if overridePath var.name = [] then .ok tree
    else match var.coerced loads with
      | .error e => .error e
      | .ok value => .ok (tree.put var.keys value) := rfl

theorem foldl_error (e : Exc) (env : List EnvVar) : env.foldl (overrideStep loads) (.error e) = .error e := by
  induction env with
  | nil => rfl
  | cons var env ih => exact ih

theorem applyOverrides_foldl (tree : ConfigTree) (env : List EnvVar) :
    applyOverrides loads tree env = env.foldl (overrideStep loads) (.ok tree) := by
  induction env generalizing tree with
  | nil => rfl
  | cons var env ih =>
    rw [List.foldl_cons, overrideStep_ok]
    unfold applyOverrides
    by_cases hpath : overridePath var.name = []
    · rw [if_pos hpath, if_pos hpath]
      exact ih tree
    · rw [if_neg hpath, if_neg hpath]
      show (match var.coerced loads with
        | .error e => (.error e : Except Exc ConfigTree)
        | .ok value => applyOverrides loads (tree.put var.keys value) env) = _
      cases var.coerced loads with
      | error e => exact (foldl_error e env).symm
      | ok value => exact ih _

theorem sameOutcome_equiv : Equivalence SameOutcome where
  refl r := by
    cases r with
    | error e => exact trivial
    | ok t => exact same_equiv.refl t
  symm {r r'} h := by
    cases r <;> cases r' <;> first | exact same_equiv.symm h | exact h
  trans {r r' r''} h h' := by
    cases r <;> cases r' <;> cases r'' <;>
      first | exact same_equiv.trans h h' | exact h.elim | exact h'.elim | exact trivial

/-- **Rounds of the loop** may be swapped if their variables are not in conflict. -/
theorem overrides_swap (loads : Str → Loaded) :
    Reorder.Swaps (overrideStep loads) IsMapping SameOutcome (fun a b => Free a.keys b.keys) where
  equiv := sameOutcome_equiv
  stays r var hr := by
    intro tree htree
    cases r with
    | error e => cases htree
    | ok t =>
      obtain ⟨m, rfl⟩ := hr t rfl
      rw [overrideStep_ok] at htree
      split at htree
      · exact ⟨m, (Except.ok.inj htree).symm⟩
      · split at htree
        · cases htree
        · rw [← Except.ok.inj htree]
          exact mapping_put m _ _
  keep r r' var h := by
    cases r with
    | error e =>
      cases r' with
      | error e' => exact trivial
      | ok t' => exact h.elim
    | ok t =>
      cases r' with
      | error e' => exact h.elim
      | ok t' =>
        rw [overrideStep_ok, overrideStep_ok]
        split
        · exact h
        · split
          · exact trivial
          · exact Doc.Same.put h _ (same_equiv.refl _)
  swap r a b hr hfree := by
    cases r with
    | error e => exact trivial
    | ok t =>
      obtain ⟨m, rfl⟩ := hr t rfl
      rw [overrideStep_ok, overrideStep_ok]
      by_cases ha : overridePath a.name = []
      · rw [if_pos ha, overrideStep_ok]
        split
        · rw [overrideStep_ok, if_pos ha]
          exact same_equiv.refl _
        · split
          · exact trivial
          · rw [overrideStep_ok, if_pos ha]
            exact same_equiv.refl _
      · rw [if_neg ha]
        by_cases hb : overridePath b.name = []
        · rw [if_pos hb, overrideStep_ok, if_neg ha]
          split
          · exact trivial
          · rw [overrideStep_ok, if_pos hb]
            exact same_equiv.refl _
        · rw [if_neg hb]
          cases hva : a.coerced loads with
          | error e =>
            simp only
            cases hvb : b.coerced loads with
            | error e' => exact trivial
            | ok vb =>
              simp only
              rw [overrideStep_ok, if_neg ha, hva]
              exact trivial
          | ok va =>
            simp only
            rw [overrideStep_ok, if_neg hb]
            cases hvb : b.coerced loads with
            | error e' => exact trivial
            | ok vb =>
              simp only
              rw [overrideStep_ok, if_neg ha, hva]
              exact put_swap_free hfree m va vb

end

/-- **Only the order of variables in conflict counts.**  Two orders of one environment that list those
alike give the same tree. -/
theorem override_order (loads : Str → Loaded) (entries : List (Key Str × ConfigTree)) (env env' : List EnvVar)
    (hnames : (env.map (·.name)).Nodup) (hperm : env'.Perm env) (horder : ConflictsInOrder env env') :
    SameOutcome (applyOverrides loads (.mapping entries) env) (applyOverrides loads (.mapping entries) env') := by
  have hmapping : IsMapping (.ok (.mapping entries)) := by
    intro tree htree
    exact ⟨entries, (Except.ok.inj htree).symm⟩
  rw [applyOverrides_foldl, applyOverrides_foldl]
  exact Reorder.foldl_reorder (overrides_swap loads) hnames.of_map hperm horder hmapping

/-! ## concrete variables -/

/-- `json.loads` of an empty object, of digits, and of texts that are not JSON -/
def loadEmpty (s : Str) : Loaded := if s = "{}".toList then .value (.mapping []) else loadDigits s

def retentionVar : EnvVar := ⟨"BACKUP_JOBS__0__RETENTION".toList, "{}".toList, by decide⟩

theorem countVar_ascii :
    "BACKUP_JOBS__0__RETENTION__COUNT".toList.all (fun c => c.toNat < 128) = true := by decide

def countVar : EnvVar := ⟨"BACKUP_JOBS__0__RETENTION__COUNT".toList, "30".toList, countVar_ascii⟩

def nameVar : EnvVar := ⟨"BACKUP_JOBS__1__NAME".toList, "db".toList, by decide⟩

theorem override_order_jobs : SameOutcome
    (applyOverrides loadEmpty (.mapping oneJob) [retentionVar, countVar, nameVar])
    (applyOverrides loadEmpty (.mapping oneJob) [nameVar, retentionVar, countVar]) := by
  have hretention : Free retentionVar.keys nameVar.keys := by decide +kernel
  have hcount : Free countVar.keys nameVar.keys := by decide +kernel
  refine override_order loadEmpty oneJob _ _ (by decide +kernel) ?_ fun a b hconflict hsub => ?_
  · exact (List.perm_append_comm : ([nameVar] ++ [retentionVar, countVar]).Perm _)
  · cases hsub with
    | cons_cons _ hb =>
      rcases List.mem_cons.mp (List.singleton_sublist.mp hb) with rfl | hb
      · exact List.sublist_cons_self _ _
      · rw [List.mem_singleton.mp hb] at hconflict
        exact absurd hretention hconflict
    | cons _ hsub =>
      cases hsub with
      | cons_cons _ hb =>
        rw [List.mem_singleton.mp (List.singleton_sublist.mp hb)] at hconflict
        exact absurd hcount hconflict
      | cons _ hsub =>
        have hlen := hsub.length_le
        simp at hlen

/-- **Where the order counts**: the second variable replaces what the first one set. -/
theorem retention_last : ([countVar, retentionVar].map (·.name)).Nodup ∧
    [retentionVar, countVar].Perm [countVar, retentionVar] ∧
    ¬ SameOutcome (applyOverrides loadEmpty (.mapping []) [countVar, retentionVar])
      (applyOverrides loadEmpty (.mapping []) [retentionVar, countVar]) := by
  refine ⟨by decide +kernel, List.Perm.swap _ _ _, fun h => ?_⟩
  have hlost : (applyOverrides loadEmpty (.mapping []) [countVar, retentionVar]).toOption.map
      (fun tree => (tree.look countVar.keys).isSome) = some false := by decide +kernel
  have hkept : (applyOverrides loadEmpty (.mapping []) [retentionVar, countVar]).toOption.map
      (fun tree => (tree.look countVar.keys).isSome) = some true := by decide +kernel
  cases hx : applyOverrides loadEmpty (.mapping []) [countVar, retentionVar] with
  | error e =>
    rw [hx] at hlost
    cases hlost
  | ok t =>
    cases hy : applyOverrides loadEmpty (.mapping []) [retentionVar, countVar] with
    | error e =>
      rw [hy] at hkept
      cases hkept
    | ok t' =>
      rw [hx, hy] at h
      rw [hx] at hlost
      rw [hy] at hkept
      have hlost' : (t.look countVar.keys).isSome = false := Option.some.inj hlost
      have hkept' : (t'.look countVar.keys).isSome = true := Option.some.inj hkept
      have hsame : (t.look countVar.keys).map Doc.top = (t'.look countVar.keys).map Doc.top := h countVar.keys
      have hsome : (t.look countVar.keys).isSome = (t'.look countVar.keys).isSome := by
        rw [← Option.isSome_map (f := Doc.top), hsame, Option.isSome_map]
      rw [hlost', hkept'] at hsome
      cases hsome

end BackupHelper
