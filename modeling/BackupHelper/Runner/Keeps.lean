import BackupHelper.Runner.Rules

/-!
# Invariants of a run

`Keeps .. D I E` collects what has to be shown for a run to keep an invariant: `D S` holds while the
destinations `S` have stored so far, `I S` once the off-site copies are tracked, `E S` to the end,
and each condition is about one operation at one place of the run.  `G` holds of every state change.

* `Keeps.storePhase`, `Keeps.runJob`   what follows for the whole run.
-/

set_option linter.unusedSectionVars false

namespace BackupHelper
open Text Glob Effects Calendar

/-- `key` was put to `d` after the first `n` operations -/
def World.PutSince (w : World) (n : ℕ) (d : Dest) (key : Str) : Prop :=
  ∃ src, (Op.put d key src, true) ∈ w.log.drop n

theorem World.PutSince.mono {w w' : World} {n : ℕ} {d : Dest} {key : Str} {es : List (Op × Bool)}
    (h : w.PutSince n d key) (hlog : w'.log = w.log ++ es) : w'.PutSince n d key := by
  obtain ⟨src, hs⟩ := h
  refine ⟨src, ?_⟩
  rw [hlog, List.drop_append]
  exact List.mem_append_left _ hs

theorem World.PutSince.last {w w' : World} {n : ℕ} {d : Dest} {key : Str} {src : Src}
    (hn : n ≤ w.log.length) (hlog : w'.log = w.log ++ [(.put d key src, true)]) :
    w'.PutSince n d key := by
  refine ⟨src, ?_⟩
  rw [hlog, List.drop_append, Nat.sub_eq_zero_of_le hn]
  exact List.mem_append_right _ List.mem_cons_self

theorem World.PutSince.of_append {w w' : World} {n : ℕ} {d : Dest} {key : Str}
    {es : List (Op × Bool)} (h : w'.PutSince n d key) (hlog : w'.log = w.log ++ es) :
    w.PutSince n d key ∨ ∃ src, (Op.put d key src, true) ∈ es := by
  obtain ⟨src, hs⟩ := h
  rw [hlog, List.drop_append] at hs
  rcases List.mem_append.mp hs with hs | hs
  · exact Or.inl ⟨src, hs⟩
  · exact Or.inr ⟨src, List.mem_of_mem_drop hs⟩

theorem World.PutSince.anti {w : World} {n k : ℕ} {d : Dest} {key : Str} (h : w.PutSince k d key)
    (hnk : n ≤ k) : w.PutSince n d key := by
  obtain ⟨src, hs⟩ := h
  refine ⟨src, ?_⟩
  rw [← Nat.add_sub_cancel' hnk, ← List.drop_drop] at hs
  exact List.mem_of_mem_drop hs

/-- archive and manifest of `sid` were put to `d` -/
def World.ShippedSince (w : World) (n : ℕ) (d : Dest) (archive sid : Str) : Prop :=
  w.PutSince n d archive ∧ w.PutSince n d (sid ++ manifestSuffix)

theorem World.ShippedSince.mono {w w' : World} {n : ℕ} {d : Dest} {archive sid : Str}
    {es : List (Op × Bool)} (h : w.ShippedSince n d archive sid) (hlog : w'.log = w.log ++ es) :
    w'.ShippedSince n d archive sid :=
  ⟨h.1.mono hlog, h.2.mono hlog⟩

def offsiteOf (dests : List Dest) : List Dest := dests.filter (fun d => !d.isLocal)

theorem mem_offsiteOf {dests : List Dest} {d : Dest} :
    d ∈ offsiteOf dests ↔ d ∈ dests ∧ d ≠ .local := by
  unfold offsiteOf
  rw [List.mem_filter]
  cases d <;> simp [Dest.isLocal]

/-- why `shipPending` unlinks `name` on account of the pending id `q` -/
def UnlinkReason (n : ℕ) (keepsLocal : Bool) (offsite : List Dest) (q name : Str) (w₀ w : World) :
    Prop :=
  -- pruned or removed in the meantime
  (name = q ++ pendingSuffix ∧ (w.artifactOf q = none ∨ w.get .data (q ++ manifestSuffix) = none)) ∨
  -- uploaded everywhere
  ∃ a, w₀.artifactOf q = some a ∧ (∀ d ∈ offsite, w.ShippedSince n d a q) ∧
    (name = q ++ pendingSuffix ∨ (keepsLocal = false ∧ (name = a ∨ name = q ++ manifestSuffix)))

/-- what `shipPending` puts to `d` on account of the pending id `q`, whose archive `a` was found at
`w₀`: the manifest follows the archive -/
def Shipping (env : Env) (q a : Str) (d : Dest) (w₀ w : World) (key : Str) (src : Src) : Prop :=
  (key = a ∧ src = .data a) ∨
  (key = q ++ manifestSuffix ∧ ∃ c, w₀.get .data a = some c ∧ d.at env w a = some c)

theorem Shipping.name {env : Env} {q a : Str} {d : Dest} {w₀ w : World} {key : Str} {src : Src}
    (h : Shipping env q a d w₀ w key src) : key = a ∨ key = q ++ manifestSuffix :=
  h.imp (fun h => h.1) (fun h => h.1)

section
variable {env : Env} {G : World → World → Prop}

theorem wp_orRaise {p : M (Except Exc Unit)} {q : M (Except Exc Unit × List Str)} {R : World → Prop}
    {Q : Except Exc Unit × List Str → World → Prop} {w : World}
    (hp : p.wp env.step G (fun r w' => (r = .ok () → R w') ∧ ∀ e, r = .error e → Q (.error e, []) w') w)
    (hq : ∀ w', R w' → q.wp env.step G Q w') : (orRaise p q).wp env.step G Q w := by
  refine Prog.wp_seq hp fun r w' h => ?_
  cases r with
  | ok u => exact hq w' (h.1 rfl)
  | error e => exact h.2 e rfl

theorem Quiet.artifactOf {w w' : World} (h : Quiet w w') (q : Str) :
    w'.artifactOf q = w.artifactOf q := by
  unfold World.artifactOf World.globbed
  rw [h.same]

/-- one pending snapshot after the other -/
theorem wp_shipPending {keepsLocal : Bool} {offsite : List Dest} {ids : List Str} {n : ℕ}
    {I : World → Prop} (hloc : ∀ d ∈ offsite, d ≠ .local)
    (hG : ∀ w w', Quiet w w' → G w w') (hI : ∀ w w', Quiet w w' → I w → I w')
    (hn : ∀ w, I w → n ≤ w.log.length)
    (hput : ∀ q ∈ ids, ∀ w₀ a, I w₀ → w₀.artifactOf q = some a →
      ∀ d ∈ offsite, ∀ key src c w r w', Shipping env q a d w₀ w key src →
      I w → (∀ k, w.get .data k = w₀.get .data k) → Wrote (d.loc env) (d.pre ++ key) c w r w' →
      w'.log = w.log ++ [(.put d key src, isOk r)] → G w w' ∧ I w')
    (hunlink : ∀ q ∈ ids, ∀ w₀, I w₀ → ∀ name w r w', I w →
      UnlinkReason n keepsLocal offsite q name w₀ w → Removed .data name w r w' →
      (env.sure (.unlink name) = true → r = .ok ()) →
      w'.log = w.log ++ [(.unlink name, isOk r)] → G w w' ∧ I w')
    {w : World} (hw : I w) :
    (shipPending keepsLocal offsite ids).wp env.step G (fun _ w' => I w') w := by
  induction ids generalizing w with
  | nil => exact hw
  | cons q ids ih =>
    have hrest : ∀ w, I w → (shipPending keepsLocal offsite ids).wp env.step G (fun _ w' => I w') w :=
      fun w hw => ih (fun q hq => hput q (List.mem_cons_of_mem _ hq))
        (fun q hq => hunlink q (List.mem_cons_of_mem _ hq)) hw
    have hq : q ∈ q :: ids := List.mem_cons_self
    have hone : ∀ name w₀ w, I w₀ → I w → UnlinkReason n keepsLocal offsite q name w₀ w →
        ∀ K : World → Prop, (∀ w', I w' → (∃ b, w'.log = w.log ++ [(.unlink name, b)]) → K w') →
        (unlink name).wp env.step G
          (fun r w' => (r = .ok () → I w' ∧ K w') ∧ ∀ e, r = .error e → I w') w := by
      intro name w₀ w h₀ hw hreason K hK
      apply wp_unlink
      intro r w' hrem hsure hlog
      obtain ⟨hg, hI'⟩ := hunlink q hq w₀ h₀ name w r w' hw hreason hrem hsure hlog
      exact ⟨hg, fun _ => ⟨hI', hK w' hI' ⟨_, hlog⟩⟩, fun _ _ => hI'⟩
    refine Prog.wp_seq (wp_findArtifact hG q w) fun artifact w₁ h => ?_
    obtain ⟨hq₁, hart⟩ := h
    have hthere : (isThere (q ++ manifestSuffix)).wp env.step G
        (fun r w' => Quiet w w' ∧ r = (w.get .data (q ++ manifestSuffix)).isSome) w₁ :=
      wp_isThere (hG w₁) fun w' h => ⟨hq₁.trans h, by rw [hq₁.get]⟩
    refine Prog.wp_seq hthere fun there w₂ h => ?_
    obtain ⟨hq₂, hman⟩ := h
    have hI₂ : I w₂ := hI _ _ hq₂ hw
    have hgone : (artifact = none ∨ there = false) →
        (orRaise (unlink (q ++ pendingSuffix)) (shipPending keepsLocal offsite ids)).wp env.step G
          (fun _ w' => I w') w₂ := by
      intro h
      have hreason : UnlinkReason n keepsLocal offsite q (q ++ pendingSuffix) w₂ w₂ := by
        refine Or.inl ⟨rfl, h.imp (fun ha => ?_) (fun hm => ?_)⟩
        · rw [hq₂.artifactOf, ← hart, ha]
        · rw [hq₂.get]
          rw [hman] at hm
          exact Option.not_isSome_iff_eq_none.mp (by rw [hm]; simp)
      exact wp_orRaise (R := I) (Prog.wp_post (hone _ w₂ w₂ hI₂ hI₂ hreason (fun _ => True)
        (fun _ _ _ => trivial)) fun r w' h => ⟨fun hr => (h.1 hr).1, h.2⟩) hrest
    cases artifact with
    | none => exact hgone (Or.inl rfl)
    | some a =>
      cases there with
      | false => exact hgone (Or.inr rfl)
      | true =>
        have ha₂ : w₂.artifactOf q = some a := by rw [hq₂.artifactOf, ← hart]
        -- the uploads leave the data dir alone and are noted in the log
        let J : List Dest → World → Prop := fun S w' => I w' ∧
          (∀ k, w'.get .data k = w₂.get .data k) ∧ ∀ d ∈ S, w'.ShippedSince n d a q
        have hstep : ∀ before d after S w, offsite = before ++ d :: after → S.Sublist before →
            J S w → (uploadTo d ⟨a, .data a⟩ (.data (q ++ manifestSuffix)) q).wp env.step G
              (fun r w' => J (if isOk r then S ++ [d] else S) w') w := by
          intro before d after S w₃ hd _ hJ
          obtain ⟨hI₃, hdata₃, hlog₃⟩ := hJ
          have hmem : d ∈ offsite := by rw [hd]; simp
          have hne : Loc.data ≠ d.loc env := by
            cases d with
            | «local» => exact absurd rfl (hloc _ hmem)
            | s3 c => simp [Dest.loc]
          have hdata : ∀ {key c w r w'}, Wrote (d.loc env) (d.pre ++ key) c w r w' →
              ∀ k, w'.get .data k = w.get .data k :=
            fun hwrote k => hwrote.other _ _ fun e => hne (Prod.mk.inj e).1
          apply wp_uploadTo
          intro c r w₄ hread hwrote hlog
          obtain ⟨hg, hI₄⟩ := hput q hq w₂ a hI₂ ha₂ d hmem a _ c w₃ r w₄ (Or.inl ⟨rfl, rfl⟩) hI₃
            hdata₃ hwrote hlog
          have hdata₄ : ∀ k, w₄.get .data k = w₂.get .data k :=
            fun k => (hdata hwrote k).trans (hdata₃ k)
          have hlog₄ : ∀ x ∈ S, w₄.ShippedSince n x a q := fun x hx => (hlog₃ x hx).mono hlog
          refine ⟨hg, ?_, ?_⟩
          · rintro e rfl
            exact ⟨hI₄, hdata₄, hlog₄⟩
          · rintro rfl c' r' w₅ _ hwrote' hlog'
            have hcopy : w₂.get .data a = some c ∧ d.at env w₄ a = some c := by
              refine ⟨?_, hwrote.done rfl⟩
              rcases hread with hc | ⟨⟨e, he⟩, -⟩
              · exact (hdata₃ a).symm.trans hc
              · simp at he
            obtain ⟨hg', hI₅⟩ := hput q hq w₂ a hI₂ ha₂ d hmem _ _ c' w₄ r' w₅
              (Or.inr ⟨rfl, c, hcopy⟩) hI₄ hdata₄ hwrote' hlog'
            refine ⟨hg', hI₅, fun k => (hdata hwrote' k).trans (hdata₄ k), ?_⟩
            intro x hx
            cases r' with
            | error e => exact (hlog₄ x hx).mono hlog'
            | ok u =>
              rcases List.mem_append.mp hx with hx | hx
              · exact (hlog₄ x hx).mono hlog'
              · rw [List.mem_singleton.mp hx]
                exact ⟨(World.PutSince.last (hn _ hI₃) hlog).mono hlog',
                  World.PutSince.last (hn _ hI₄) hlog'⟩
        have hJ₂ : J [] w₂ := ⟨hI₂, fun _ => rfl, by simp⟩
        refine Prog.wp_seq (wp_upload hstep hJ₂) fun r w₃ h => ?_
        obtain ⟨⟨hI₃, -, hshipped⟩, hsub, -⟩ := h
        obtain ⟨stored, failures⟩ := r
        by_cases hlt : stored.length < offsite.length
        · show Prog.wp env.step G _ (if stored.length < offsite.length then _ else _) w₃
          rw [if_pos hlt]
          exact Prog.wp_seq (hrest w₃ hI₃) fun r w' h => h
        · show Prog.wp env.step G _ (if stored.length < offsite.length then _ else _) w₃
          rw [if_neg hlt]
          have hall : stored = offsite := hsub.eq_of_length_le (not_lt.mp hlt)
          let K : World → Prop := fun w => ∀ d ∈ offsite, w.ShippedSince n d a q
          have hK : K w₃ := fun d hd => hshipped d (by rw [hall]; exact hd)
          have hreason : ∀ name w, K w →
              (name = q ++ pendingSuffix ∨ (keepsLocal = false ∧ (name = a ∨ name = q ++ manifestSuffix))) →
              UnlinkReason n keepsLocal offsite q name w₂ w :=
            fun name w hK hname => Or.inr ⟨a, ha₂, hK, hname⟩
          have hstepK : ∀ name w, I w → K w →
              (name = q ++ pendingSuffix ∨ (keepsLocal = false ∧ (name = a ∨ name = q ++ manifestSuffix))) →
              (unlink name).wp env.step G
                (fun r w' => (r = .ok () → I w' ∧ K w') ∧ ∀ e, r = .error e → I w') w := by
            intro name w hI' hK hname
            refine hone name w₂ w hI₂ hI' (hreason name w hK hname) K ?_
            rintro w' - ⟨b, hlog⟩
            exact fun d hd => (hK d hd).mono hlog
          refine wp_orRaise (hstepK _ w₃ hI₃ hK (Or.inl rfl)) fun w₄ h₄ => ?_
          by_cases hk : keepsLocal = true
          · rw [if_pos hk]
            exact hrest w₄ h₄.1
          · rw [if_neg hk]
            have hkf : keepsLocal = false := Bool.eq_false_iff.mpr hk
            refine wp_orRaise (hstepK _ w₄ h₄.1 h₄.2 (Or.inr ⟨hkf, Or.inl rfl⟩)) fun w₅ h₅ => ?_
            refine wp_orRaise (hstepK _ w₅ h₅.1 h₅.2 (Or.inr ⟨hkf, Or.inr rfl⟩)) fun w₆ h₆ => ?_
            exact hrest w₆ h₆.1

/-! ## the frame of a run -/

theorem wp_abort (hG : ∀ w w', Quiet w w' → G w w') (a : RunArgs) (r : Raised) (w : World) :
    (abort a r).wp env.step G (fun res w' => Quiet w w' ∧ ∃ e, res = .error e) w := by
  have hrec : ∀ w, (recordState a .error r.components).wp env.step G (fun _ w' => Quiet w w') w :=
    fun w => wp_report (hG w) trivial fun _ _ h => h
  rcases abort_cases a r with he | ⟨e, he⟩
  swap
  · rw [he]
    exact ⟨Quiet.refl w, e, rfl⟩
  rw [he]
  refine Prog.wp_seq (hrec w) fun _ w₁ h₁ => ?_
  cases hn : a.notifier with
  | true =>
    have hnot : ∀ e w, (notify e).wp env.step G (fun _ w' => Quiet w w') w :=
      fun e w => wp_report (hG w) trivial fun _ _ h => h
    exact Prog.wp_seq (hnot _ w₁) fun _ w₂ h₂ => ⟨h₁.trans h₂, _, rfl⟩
  | false => exact ⟨h₁, _, rfl⟩

theorem wp_ifHooks (hG : ∀ w w', Quiet w w' → G w w') (a : RunArgs) (phase : Str) (w : World) :
    (ifHooks a phase).wp env.step G (fun _ w' => Quiet w w') w := by
  unfold ifHooks
  cases a.hooks with
  | true => exact wp_report (hG w) trivial fun _ _ h => h
  | false => exact Quiet.refl w

theorem wp_ifNotifier (hG : ∀ w w', Quiet w w' → G w w') (a : RunArgs) (e : AlertEvent) (w : World) :
    (ifNotifier a e).wp env.step G (fun _ w' => Quiet w w') w := by
  unfold ifNotifier
  cases a.notifier with
  | true => exact wp_report (hG w) trivial fun _ _ h => h
  | false => exact Quiet.refl w

theorem wp_finish (hG : ∀ w w', Quiet w w' → G w w') (a : RunArgs) (made : Made)
    (manifest : Manifest) (delivery : Delivery) (errors : List Str) (w : World) :
    (finish a made manifest delivery errors).wp env.step G (fun r w' => Quiet w w' ∧
      ∀ result, r = .ok result → result.errors = errors ∧
        result.status = jobStatus made.components errors (decide (delivery.stored ≠ [])) ∧
        result.components = made.components) w := by
  have hthere : ∀ name w, (isThere name).wp env.step G (fun _ w' => Quiet w w') w :=
    fun name w => wp_isThere (hG w) fun _ h => h
  have hrec : ∀ st w, (recordState a st made.components).wp env.step G (fun _ w' => Quiet w w') w :=
    fun st w => wp_report (hG w) trivial fun _ _ h => h
  refine Prog.wp_seq (hthere _ w) fun there w₁ h₁ => ?_
  refine Prog.wp_seq (hrec _ w₁) fun _ w₂ h₂ => ?_
  have hq₂ := h₁.trans h₂
  refine Prog.wp_seq (wp_ifNotifier hG a _ w₂) fun r w₃ h₃ => ?_
  cases r with
  | error e => exact ⟨hq₂.trans h₃, fun result h => by simp at h⟩
  | ok u =>
    refine Prog.wp_seq (wp_ifHooks hG a _ w₃) fun r w₄ h₄ => ?_
    have hq₄ := (hq₂.trans h₃).trans h₄
    cases r with
    | error e => exact ⟨hq₄, fun result h => by simp at h⟩
    | ok u =>
      refine ⟨hq₄, fun result h => ?_⟩
      rw [← Except.ok.inj h]
      exact ⟨rfl, rfl, rfl⟩

/-- where a job may store or prune: its destinations, and the data dir -/
def places (job : Job) : List Dest := .local :: specDests job.destinations

theorem s3_mem_places {job : Job} {c : S3Spec} : Dest.s3 c ∈ places job ↔ Dest.s3 c ∈ specDests job.destinations := by
  unfold places
  rw [List.mem_cons, or_iff_right nofun]

theorem mem_offsite {job : Job} {c : S3Spec} : Dest.s3 c ∈ places job ↔ c ∈ job.offsite := by
  have hmap : Dest.s3 c ∈ job.offsite.map Dest.s3 ↔ c ∈ job.offsite := by simp
  rw [← hmap, offsite_eq, List.mem_filter]
  simp [places, Dest.isLocal]

theorem Target.subset {job : Job} {dests : List Dest} (h : Target job dests) {d : Dest}
    (hd : d ∈ dests) : d ∈ places job := by
  rcases h with h | rfl
  · exact List.mem_cons_of_mem _ (h.subset hd)
  · rw [List.mem_singleton.mp hd]
    exact List.mem_cons_self

/-- what has to be shown of each operation of a run; `n` operations were performed before it -/
structure Keeps (env : Env) (G : World → World → Prop) (job : Job) (scope : SnapshotScope)
    (now : Datetime) (artifact : Artifact) (sidecar : Src) (sid : Str) (n : ℕ)
    (D I E : List Dest → World → Prop) : Prop where
  calm : ∀ w w', Quiet w w' → G w w'
  quietD : ∀ S w w', Quiet w w' → D S w → D S w'
  quietI : ∀ S w w', Quiet w w' → I S w → I S w'
  quietE : ∀ S w w', Quiet w w' → E S w → E S w'
  since : ∀ S w, I S w → n ≤ w.log.length
  /-- delivery -/
  upload : ∀ dests, Target job dests → ∀ before d after S w, dests = before ++ d :: after →
    S.Sublist before → D S w → (uploadTo d artifact sidecar sid).wp env.step G
      (fun r w' => D (if isOk r then S ++ [d] else S) w') w
  /-- no marker is needed -/
  enter : ∀ S w, D S w → (offsiteOf S ≠ [] ∨ job.offsite = [] ∨ S = []) → I S w
  mark : ∀ S w r w', D S w → S ≠ [] → offsiteOf S = [] → job.offsite ≠ [] →
    Wrote .data (sid ++ pendingSuffix) (.marker job.name) w r w' →
    (env.sure (.writeMarker (sid ++ pendingSuffix) job.name) = true → r = .ok ()) →
    w'.log = w.log ++ [(.writeMarker (sid ++ pendingSuffix) job.name, isOk r)] →
    G w w' ∧ (r = .ok () → I S w') ∧ E S w'
  /-- catch-up of the pending id `q` -/
  ship : ∀ S ws, I S ws → ∀ q ∈ ws.pendingOf job.name, ∀ w₀ a, I S w₀ → w₀.artifactOf q = some a →
    ∀ d ∈ offsiteOf S, ∀ key src c w r w', Shipping env q a d w₀ w key src → I S w →
    (∀ k, w.get .data k = w₀.get .data k) → Wrote (d.loc env) (d.pre ++ key) c w r w' →
    w'.log = w.log ++ [(.put d key src, isOk r)] → G w w' ∧ I S w'
  unlink : ∀ S ws, I S ws → offsiteOf S ≠ [] → ∀ q ∈ ws.pendingOf job.name, ∀ w₀, I S w₀ →
    ∀ name w r w', I S w →
    UnlinkReason n (job.keepLocal && hasLocal job.destinations) (offsiteOf S) q name w₀ w →
    Removed .data name w r w' → (env.sure (.unlink name) = true → r = .ok ()) →
    w'.log = w.log ++ [(.unlink name, isOk r)] → G w w' ∧ I S w'
  prune : ∀ S w, I S w → ∀ dest ∈ places job, ∀ only,
    (only = none ∨ (dest = .local ∧ only = some (w.pendingOf job.name))) →
    ∀ out, w.prunable env dest job.retention now scope only = .ok out → ∀ p ∈ out,
    ∀ key, p ++ ['.'] <+: key → ∀ w₁ r w₂, I S w₁ →
    (∀ k, p ++ ['.'] <+: k → k < key → dest.at env w₁ k = none) →
    Removed (dest.loc env) (dest.pre ++ key) w₁ r w₂ →
    w₂.log = w₁.log ++ [(.delete dest key, isOk r)] → G w₁ w₂ ∧ I S w₂
  finish : ∀ S w, I S w → E S w
  /-- the drop of the local copy -/
  drop : ∀ S, .local ∈ S → offsiteOf S ≠ [] → ∀ name,
    name = artifact.name ∨ name = sid ++ manifestSuffix → ∀ w r w', E S w →
    Removed .data name w r w' → w'.log = w.log ++ [(.unlink name, isOk r)] → G w w' ∧ E S w'
  /-- before anything is stored -/
  start : ∀ w, D [] w → E [] w

namespace Keeps
variable {job : Job} {scope : SnapshotScope} {now : Datetime} {artifact : Artifact} {sidecar : Src}
  {sid : Str} {n : ℕ} {D I E : List Dest → World → Prop}
  (h : Keeps env G job scope now artifact sidecar sid n D I E)
include h

theorem trackOffsite {delivery : Delivery} {w : World} (hw : D delivery.stored w) :
    (trackOffsite job sid delivery).wp env.step G (fun r w' =>
      (r.1 = .ok () → I delivery.stored w') ∧ E delivery.stored w') w := by
  unfold BackupHelper.trackOffsite
  by_cases hoff : offsiteOf delivery.stored = []
  · show Prog.wp env.step G _ (if offsiteOf delivery.stored = [] then _ else _) w
    rw [if_pos hoff]
    by_cases hc : job.offsite ≠ [] ∧ delivery.stored ≠ []
    · rw [if_pos hc]
      have hmark : (writeMarker (sid ++ pendingSuffix) job.name).wp env.step G (fun r w' =>
          (r = .ok () → I delivery.stored w') ∧ E delivery.stored w') w := by
        apply wp_writeMarker
        intro r w' hwrote hsure hlog
        exact h.mark _ w r w' hw hc.2 hoff hc.1 hwrote hsure hlog
      refine wp_orRaise (R := I delivery.stored) (Prog.wp_post hmark fun r w' hr => ⟨hr.1, ?_⟩)
        fun w' hI => ⟨fun _ => hI, h.finish _ _ hI⟩
      rintro e rfl
      exact ⟨fun he => by simp at he, hr.2⟩
    · rw [if_neg hc]
      have hI : I delivery.stored w := h.enter _ w hw (Or.inr (by tauto))
      exact ⟨fun _ => hI, h.finish _ _ hI⟩
  · show Prog.wp env.step G _ (if offsiteOf delivery.stored = [] then _ else _) w
    rw [if_neg hoff]
    have hI : I delivery.stored w := h.enter _ w hw (Or.inl hoff)
    refine Prog.wp_seq (wp_pendingIds h.calm job.name w) fun ids w₁ hids => ?_
    obtain ⟨hq, rfl⟩ := hids
    have hship : (shipPending (job.keepLocal && hasLocal job.destinations)
        (offsiteOf delivery.stored) (w.pendingOf job.name)).wp env.step G
        (fun _ w' => I delivery.stored w') w₁ :=
      wp_shipPending (fun d hd => (mem_offsiteOf.mp hd).2) h.calm (h.quietI _) (h.since _)
        (fun q hmem => h.ship _ w hI q hmem) (fun q hmem => h.unlink _ w hI hoff q hmem)
        (h.quietI _ _ _ hq hI)
    exact Prog.wp_post hship fun r w' hI' => ⟨fun _ => hI', h.finish _ _ hI'⟩

theorem applyRetention {S : List Dest} {dest : Dest} (hd : dest ∈ places job)
    {only : Option (List Str)} {w : World}
    (ho : only = none ∨ (dest = .local ∧ only = some (w.pendingOf job.name))) (hw : I S w) :
    (applyRetention env job.retention now scope only dest).wp env.step G (fun _ w' => I S w') w :=
  Prog.wp_post (wp_applyRetention h.calm (h.quietI S)
    (fun out hout p hp key hk => h.prune S w hw dest hd only ho out hout p hp key hk) hw)
    fun _ _ h => h.1

theorem applyRetentions {S dests : List Dest} (hd : ∀ d ∈ dests, d ∈ places job) {w : World}
    (hw : I S w) : (applyRetentions env job.retention now scope dests).wp env.step G
      (fun _ w' => I S w') w := by
  induction dests generalizing w with
  | nil => exact hw
  | cons d dests ih =>
    refine Prog.wp_seq (h.applyRetention (hd d List.mem_cons_self) (Or.inl rfl) hw) fun _ w₁ h₁ => ?_
    exact Prog.wp_seq (ih (fun x hx => hd x (List.mem_cons_of_mem _ hx)) h₁) fun _ w₂ h₂ => h₂

theorem fallbackRetention {S : List Dest} {fallback : Option Dest}
    (hf : fallback = none ∨ fallback = some .local) {w : World} (hw : I S w) :
    (fallbackRetention env job now scope fallback).wp env.step G (fun _ w' => I S w') w := by
  rcases hf with rfl | rfl
  · exact hw
  · refine Prog.wp_seq (wp_pendingIds h.calm job.name w) fun ids w₁ hids => ?_
    obtain ⟨hq, rfl⟩ := hids
    have hsame : w₁.pendingOf job.name = w.pendingOf job.name := by
      unfold World.pendingOf
      rw [hq.pending]
    exact h.applyRetention List.mem_cons_self (Or.inr ⟨rfl, by rw [hsame]⟩) (h.quietI _ _ _ hq hw)

theorem maybeDropLocal {S : List Dest} {w : World} (hw : E S w) :
    (maybeDropLocal job artifact.name sid S).wp env.step G (fun _ w' => E S w') w := by
  unfold BackupHelper.maybeDropLocal
  by_cases h1 : job.keepLocal ∨ ¬ hasLocal job.destinations
  · rw [if_pos h1]
    exact hw
  · rw [if_neg h1]
    by_cases h2 : S.any (·.isLocal) = true
    · rw [if_neg (by simpa using h2)]
      by_cases h3 : S.any (fun d => !d.isLocal) = true
      · rw [if_neg (by simpa using h3)]
        have hoff : offsiteOf S ≠ [] := by
          intro hnil
          obtain ⟨d, hd, hl⟩ := List.any_eq_true.mp h3
          have hmem : d ∈ offsiteOf S := List.mem_filter.mpr ⟨hd, hl⟩
          rw [hnil] at hmem
          simp at hmem
        have hone : ∀ name, name = artifact.name ∨ name = sid ++ manifestSuffix → ∀ w, E S w →
            (BackupHelper.unlink name).wp env.step G
              (fun r w' => (r = .ok () → E S w') ∧ ∀ e, r = .error e → E S w') w := by
          intro name hname w hw
          apply wp_unlink
          intro r w' hrem _ hlog
          obtain ⟨hg, hE⟩ := h.drop S (any_isLocal.mp h2) hoff name hname w r w' hw hrem hlog
          exact ⟨hg, fun _ => hE, fun _ _ => hE⟩
        refine wp_orRaise (hone _ (Or.inl rfl) w hw) fun w₁ h₁ => ?_
        exact wp_orRaise (hone _ (Or.inr rfl) w₁ h₁) fun w₂ h₂ => h₂
      · rw [if_pos (by simpa using h3)]
        exact hw
    · rw [if_pos (by simpa using h2)]
      exact hw

/-- delivery, tracking, retention and drop -/
theorem storePhase {w : World} (hw : D [] w) :
    (storePhase env job scope now artifact sidecar sid).wp env.step G (fun r w' =>
      (∀ delivery, r.1 = .ok delivery → E delivery.stored w' ∧ Delivered job delivery ∧
        (delivery.stored = [] → notStoredText ∈ r.2)) ∧ ∃ S, E S w') w := by
  refine Prog.wp_seq (wp_deliver h.calm (h.quietD []) h.upload hw) fun r w₁ hr => ?_
  obtain ⟨hD, hdel⟩ := hr
  obtain ⟨delivery, delivered⟩ := r
  refine Prog.wp_seq (h.trackOffsite hD) fun r w₂ hr => ?_
  obtain ⟨hI, hE⟩ := hr
  obtain ⟨tracked, tracking⟩ := r
  cases tracked with
  | error e => exact ⟨fun d hd => by simp at hd, _, hE⟩
  | ok u =>
    have hI₂ := hI rfl
    refine Prog.wp_seq (h.applyRetentions (fun d hd => hdel.target.subset hd) hI₂)
      fun pruning w₃ hI₃ => ?_
    have hf := hdel.fallback.imp id (fun h => h.1)
    refine Prog.wp_seq (h.fallbackRetention hf hI₃) fun fb w₄ hI₄ => ?_
    refine Prog.wp_seq (h.maybeDropLocal (h.finish _ _ hI₄)) fun r w₅ hE₅ => ?_
    obtain ⟨dropped, dropping⟩ := r
    refine ⟨fun d hd => ?_, _, hE₅⟩
    obtain ⟨x, hx, rfl⟩ : ∃ x, dropped = .ok x ∧ delivery = d := by
      cases dropped with
      | error e => simp [Except.map] at hd
      | ok x => exact ⟨x, rfl, by simpa [Except.map] using hd⟩
    refine ⟨hE₅, hdel, fun hnil => ?_⟩
    simp [hnil]

end Keeps

/-- **A whole run.**  If it returns, its result speaks of the delivery that `E` holds of. -/
theorem Keeps.runJob {a : RunArgs} {made : Made} {n : ℕ} {D I E : List Dest → World → Prop}
    (h : Keeps env G a.job a.scope a.now (a.artifact made) (.work (.manifest (a.manifest env made)))
      a.sid n D I E) {w : World} (hw : D [] w) :
    (runJob env a (.ok made)).wp env.step G (fun r w' =>
      (∀ result, r = .ok result → ∃ delivery errors, E delivery.stored w' ∧
        Delivered a.job delivery ∧ result.errors = made.errors ++ errors ∧
        (delivery.stored = [] → notStoredText ∈ errors) ∧
        result.status =
          jobStatus made.components result.errors (decide (delivery.stored ≠ [])) ∧
        result.components = made.components) ∧
      ∃ S, E S w') w := by
  have hmk : mkdirs.wp env.step G (fun _ w' => Quiet w w') w :=
    wp_report (h.calm w) trivial fun _ _ h => h
  refine Prog.wp_seq hmk fun r w₁ h₁ => ?_
  have hD₁ := h.quietD _ _ _ h₁ hw
  cases r with
  | error e => exact ⟨fun result h => by simp at h, _, h.start _ hD₁⟩
  | ok u =>
    refine Prog.wp_seq (wp_ifHooks h.calm a _ w₁) fun r w₂ h₂ => ?_
    have hD₂ := h.quietD _ _ _ h₂ hD₁
    cases r with
    | error e =>
      refine Prog.wp_post (wp_abort h.calm a _ w₂) fun r w' hr => ⟨?_, [], ?_⟩
      · rintro result rfl
        obtain ⟨-, e, he⟩ := hr
        simp at he
      · exact h.quietE _ _ _ hr.1 (h.start _ hD₂)
    | ok u =>
      refine Prog.wp_seq (h.storePhase hD₂) fun r w₃ hr => ?_
      obtain ⟨r, errors⟩ := r
      obtain ⟨hok, S, hE⟩ := hr
      cases r with
      | error e =>
        refine Prog.wp_post (wp_abort h.calm a _ w₃) fun r w' hr => ⟨?_, S, ?_⟩
        · rintro result rfl
          obtain ⟨-, e, he⟩ := hr
          simp at he
        · exact h.quietE _ _ _ hr.1 hE
      | ok delivery =>
        obtain ⟨hEd, hdel, hnot⟩ := hok delivery rfl
        refine Prog.wp_post (wp_finish h.calm a made _ delivery _ w₃)
          fun r w' hr => ⟨?_, delivery.stored, ?_⟩
        · intro result hres
          obtain ⟨he, hs, hc⟩ := hr.2 result hres
          exact ⟨delivery, errors, h.quietE _ _ _ hr.1 hEd, hdel, he, hnot, by rw [he]; exact hs, hc⟩
        · exact h.quietE _ _ _ hr.1 hEd

/-- a run that is aborted before delivery only reports -/
theorem wp_runJob_raised (hG : ∀ w w', Quiet w w' → G w w') (a : RunArgs) (raised : Raised)
    (w : World) : (runJob env a (.error raised)).wp env.step G
      (fun r w' => Quiet w w' ∧ ∃ e, r = .error e) w := by
  have hmk : mkdirs.wp env.step G (fun _ w' => Quiet w w') w :=
    wp_report (hG w) trivial fun _ _ h => h
  refine Prog.wp_seq hmk fun r w₁ h₁ => ?_
  cases r with
  | error e => exact ⟨h₁, e, rfl⟩
  | ok u =>
    refine Prog.wp_seq (wp_ifHooks hG a _ w₁) fun r w₂ h₂ => ?_
    have hq := h₁.trans h₂
    cases r with
    | error e => exact Prog.wp_post (wp_abort hG a _ w₂) fun r w' hr => ⟨hq.trans hr.1, hr.2⟩
    | ok u => exact Prog.wp_post (wp_abort hG a _ w₂) fun r w' hr => ⟨hq.trans hr.1, hr.2⟩

end
end BackupHelper
