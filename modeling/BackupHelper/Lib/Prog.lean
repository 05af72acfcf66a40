import Mathlib.Tactic.Common

/-!
# Programs over a store: operations, runs and what every run guarantees

A program `Prog Op Res α` performs operations `o : Op` one after the other, each answered with a
`Res o`, and ends with an `α`.  What an operation does to a state `σ` is given by

* `step o f w`       answer and next state of `o` at `w` under the fault `f : φ`
                     (`calm : φ` is the fault of an operation that succeeds).

`Prog.exec` runs a program, the `i`-th operation under the `i`-th fault of a list (`calm` past its
end), and `Prog.moves` lists the state changes on the way.  `Prog.wp step G Q p w` says that under
EVERY pattern of faults each single state change is in `G` and the run ends in an answer and a
state with `Q`; `wp_iff_exec` ties the three together.

* `wp_bind`, `wp_seq`, `wp_mono`, `wp_and`   the usual rules, and `exec_bind` without faults;
* `moves_keep`                               what holds wherever a run may be stopped;
* `run b p`                                  answer and operations under fixed answers `b`;
* `Only P p`                                 every operation that `p` may perform has `P`;
* `Only.wp`                                  an invariant that every operation with `P` keeps;
* `Steady fine Q p`                          operations answered by `fine` lead to answers in `Q`;
* `Shows fine clean p`                       an answer in `clean` means that every operation was
                                             answered by `fine` (`Shows.wp`).
-/

set_option linter.unusedSectionVars false

namespace Effects

/-- programs over the operations `Op`; an operation `o` answers with a `Res o` -/
inductive Prog (Op : Type) (Res : Op → Type) (α : Type) : Type where
  | ret (a : α) : Prog Op Res α
  | op (o : Op) (k : Res o → Prog Op Res α) : Prog Op Res α

namespace Prog
section
variable {Op : Type} {Res : Op → Type} {α β : Type}

def bind : Prog Op Res α → (α → Prog Op Res β) → Prog Op Res β
  | ret a, k => k a
  | op o g, k => op o (fun r => (g r).bind k)

instance : Monad (Prog Op Res) where
  pure := ret
  bind := bind

/-- one operation, whose answer is returned -/
def perform (o : Op) : Prog Op Res (Res o) := op o ret

theorem bind_assoc {γ : Type} (p : Prog Op Res α) (k : α → Prog Op Res β) (k' : β → Prog Op Res γ) :
    p >>= k >>= k' = p >>= fun a => k a >>= k' := by
  induction p with
  | ret a => rfl
  | op o g ih => exact congrArg (op o) (funext ih)

/-- every operation that `p` may perform, whatever the answers, satisfies `P` -/
def Only (P : Op → Prop) : Prog Op Res α → Prop
  | ret _ => True
  | op o k => P o ∧ ∀ r, (k r).Only P

theorem Only.bind {P : Op → Prop} {p : Prog Op Res α} {k : α → Prog Op Res β} (hp : p.Only P)
    (hk : ∀ a, (k a).Only P) : (p >>= k).Only P := by
  induction p with
  | ret a => exact hk a
  | op o g ih => exact ⟨hp.1, fun r => ih r (hp.2 r)⟩

/-! ## runs by fixed answers -/

/-- answer and operations of a run whose operations answer by `b` -/
def run (b : (o : Op) → Res o) : Prog Op Res α → α × List Op
  | ret a => (a, [])
  | op o k => (((k (b o)).run b).1, o :: ((k (b o)).run b).2)

@[simp] theorem run_pure (b : (o : Op) → Res o) (a : α) :
    (pure a : Prog Op Res α).run b = (a, []) := rfl

theorem run_bind (b : (o : Op) → Res o) (p : Prog Op Res α) (k : α → Prog Op Res β) :
    (p >>= k).run b = (((k (p.run b).1).run b).1, (p.run b).2 ++ ((k (p.run b).1).run b).2) := by
  induction p with
  | ret a => rfl
  | op o g ih =>
    show (((g (b o) >>= k).run b).1, o :: ((g (b o) >>= k).run b).2) = _
    rw [ih]
    rfl

theorem Only.run {P : Op → Prop} {p : Prog Op Res α} (h : p.Only P) (b : (o : Op) → Res o) :
    ∀ o ∈ (p.run b).2, P o := by
  induction p with
  | ret a => intro o ho; cases ho
  | op o g ih =>
    intro o' ho
    rcases List.mem_cons.mp ho with rfl | ho
    · exact h.1
    · exact ih _ (h.2 _) o' ho

theorem Only.pure {P : Op → Prop} (a : α) : (Pure.pure a : Prog Op Res α).Only P := trivial

theorem Only.perform {P : Op → Prop} {o : Op} (h : P o) :
    (Prog.perform o : Prog Op Res (Res o)).Only P := ⟨h, fun _ => trivial⟩

/-! ## answers that show how the operations were answered -/

/-- every answer of `p` is in `Q` -/
def Answers (Q : α → Prop) : Prog Op Res α → Prop
  | ret a => Q a
  | op _ k => ∀ r, (k r).Answers Q

/-- after an operation that is not answered by `fine`, no answer of `p` is in `clean` -/
def Shows (fine : (o : Op) → Res o → Prop) (clean : α → Prop) : Prog Op Res α → Prop
  | ret _ => True
  | op o k => ∀ r, (¬ fine o r → (k r).Answers (fun a => ¬ clean a)) ∧ (k r).Shows fine clean

/-- as long as the operations are answered by `fine`, the answer of `p` will be in `Q` -/
def Steady (fine : (o : Op) → Res o → Prop) (Q : α → Prop) : Prog Op Res α → Prop
  | ret a => Q a
  | op o k => ∀ r, fine o r → (k r).Steady fine Q

section
variable {fine : (o : Op) → Res o → Prop} {clean Q : α → Prop} {clean' Q' : β → Prop}

theorem Steady.bind {p : Prog Op Res α} {k : α → Prog Op Res β} (hp : p.Steady fine Q)
    (hk : ∀ a, Q a → (k a).Steady fine Q') : (p >>= k).Steady fine Q' := by
  induction p with
  | ret a => exact hk a hp
  | op o g ih => exact fun r hr => ih r (hp r hr)

theorem Only.mono {P P' : Op → Prop} {p : Prog Op Res α} (hp : p.Only P) (h : ∀ o, P o → P' o) :
    p.Only P' := by
  induction p with
  | ret a => trivial
  | op o g ih => exact ⟨h o hp.1, fun r => ih r (hp.2 r)⟩

/-- sequencing, where the operations depend on what the first part may answer -/
theorem Only.bind_of {P : Op → Prop} {p : Prog Op Res α} {k : α → Prog Op Res β} (hp : p.Only P)
    (hQ : p.Answers Q) (hk : ∀ a, Q a → (k a).Only P) : (p >>= k).Only P := by
  induction p with
  | ret a => exact hk a hQ
  | op o g ih => exact ⟨hp.1, fun r => ih r (hp.2 r) (hQ r)⟩

theorem Steady.of_forall {p : Prog Op Res α} (h : ∀ a, Q a) : p.Steady fine Q := by
  induction p with
  | ret a => exact h a
  | op o g ih => exact fun r _ => ih r

theorem Answers.mono {Q₁ : α → Prop} {p : Prog Op Res α} (hp : p.Answers Q)
    (h : ∀ a, Q a → Q₁ a) : p.Answers Q₁ := by
  induction p with
  | ret a => exact h a hp
  | op o g ih => exact fun r => ih r (hp r)

theorem Answers.bind {p : Prog Op Res α} {k : α → Prog Op Res β} (hp : p.Answers Q)
    (hk : ∀ a, Q a → (k a).Answers Q') : (p >>= k).Answers Q' := by
  induction p with
  | ret a => exact hk a hp
  | op o g ih => exact fun r => ih r (hp r)

/-- whatever came before -/
theorem Answers.after {p : Prog Op Res α} {k : α → Prog Op Res β} (hk : ∀ a, (k a).Answers Q') :
    (p >>= k).Answers Q' := by
  induction p with
  | ret a => exact hk a
  | op o g ih => exact fun r => ih r

theorem Shows.bind {p : Prog Op Res α} {k : α → Prog Op Res β} (hp : p.Shows fine clean)
    (hn : ∀ a, ¬ clean a → (k a).Answers (fun b => ¬ clean' b))
    (hk : ∀ a, (k a).Shows fine clean') : (p >>= k).Shows fine clean' := by
  induction p with
  | ret a => exact hk a
  | op o g ih => exact fun r => ⟨fun hf => ((hp r).1 hf).bind hn, ih r (hp r).2⟩

/-- operations that are answered by `fine` in any case -/
theorem Only.shows {P : Op → Prop} (hP : ∀ o, P o → ∀ r, fine o r) {p : Prog Op Res α}
    (hp : p.Only P) : p.Shows fine clean := by
  induction p with
  | ret a => trivial
  | op o g ih => exact fun r => ⟨fun hf => absurd (hP o hp.1 r) hf, ih r (hp.2 r)⟩

/-- what is known of every answer -/
theorem Shows.sharpen {p : Prog Op Res α} (hp : p.Shows fine clean) (hQ : p.Answers Q) :
    p.Shows fine (fun a => Q a → clean a) := by
  induction p with
  | ret a => trivial
  | op o g ih =>
    refine fun r => ⟨fun hf => ?_, ih r (hp r).2 (hQ r)⟩
    have hboth : ∀ q : Prog Op Res α, q.Answers Q → q.Answers (fun a => ¬ clean a) →
        q.Answers (fun a => ¬ (Q a → clean a)) := by
      intro q
      induction q with
      | ret a => exact fun h h' hc => h' (hc h)
      | op o g ih => exact fun h h' r => ih r (h r) (h' r)
    exact hboth _ (hQ r) ((hp r).1 hf)

/-- an answer that is not clean, whatever the operations -/
theorem Answers.shows {p : Prog Op Res α} (hp : p.Answers (fun a => ¬ clean a)) :
    p.Shows fine clean := by
  induction p with
  | ret a => trivial
  | op o g ih => exact fun r => ⟨fun _ => hp r, ih r (hp r)⟩

end

end

section
variable {Op : Type} {Res : Op → Type} {α β σ φ : Type}
  (step : (o : Op) → φ → σ → Res o × σ) (calm : φ) (G : σ → σ → Prop)

/-! ## runs -/

/-- answer and final state of a run, the operations under the faults `fs` in order -/
def exec : Prog Op Res α → List φ → σ → α × σ
  | ret a, _, w => (a, w)
  | op o k, fs, w =>
    (k (step o (fs.headD calm) w).1).exec fs.tail (step o (fs.headD calm) w).2

/-- the state changes of a run, in order -/
def moves : Prog Op Res α → List φ → σ → List (σ × σ)
  | ret _, _, _ => []
  | op o k, fs, w =>
    (w, (step o (fs.headD calm) w).2) ::
      (k (step o (fs.headD calm) w).1).moves fs.tail (step o (fs.headD calm) w).2

/-! ## what every run guarantees -/

/-- whatever faults occur, each state change of a run from `w` is in `G` and the run ends with `Q` -/
def wp (Q : α → σ → Prop) : Prog Op Res α → σ → Prop
  | ret a, w => Q a w
  | op o k, w => ∀ f, G w (step o f w).2 ∧ (k (step o f w).1).wp Q (step o f w).2

variable {step}

/-- a run whose answer is mapped -/
theorem exec_map (p : Prog Op Res α) (f : α → β) (fs : List φ) (w : σ) :
    (p >>= fun a => (pure (f a) : Prog Op Res β)).exec step calm fs w =
      (f (p.exec step calm fs w).1, (p.exec step calm fs w).2) := by
  induction p generalizing fs w with
  | ret a => rfl
  | op o g ih => exact ih _ _ _

/-- a run without faults, in two parts -/
theorem exec_bind (p : Prog Op Res α) (k : α → Prog Op Res β) (w : σ) :
    (p >>= k).exec step calm [] w =
      (k (p.exec step calm [] w).1).exec step calm [] (p.exec step calm [] w).2 := by
  induction p generalizing w with
  | ret a => rfl
  | op o g ih => exact ih _ _

variable {G}

@[simp] theorem wp_pure (a : α) (Q : α → σ → Prop) (w : σ) :
    (pure a : Prog Op Res α).wp step G Q w ↔ Q a w := Iff.rfl

@[simp] theorem wp_perform (o : Op) (Q : Res o → σ → Prop) (w : σ) :
    (perform o : Prog Op Res (Res o)).wp step G Q w ↔
      ∀ f, G w (step o f w).2 ∧ Q (step o f w).1 (step o f w).2 :=
  Iff.rfl

theorem wp_bind (p : Prog Op Res α) (k : α → Prog Op Res β) (Q : β → σ → Prop) (w : σ) :
    (p >>= k).wp step G Q w ↔ p.wp step G (fun a w' => (k a).wp step G Q w') w := by
  induction p generalizing w with
  | ret a => exact Iff.rfl
  | op o g ih => exact forall_congr' fun f => and_congr_right' (ih _ _)

theorem wp_mono {p : Prog Op Res α} {G' : σ → σ → Prop} {Q Q' : α → σ → Prop} {w : σ}
    (h : p.wp step G Q w) (hG : ∀ w₁ w₂, G w₁ w₂ → G' w₁ w₂) (hQ : ∀ a w', Q a w' → Q' a w') :
    p.wp step G' Q' w := by
  induction p generalizing w with
  | ret a => exact hQ a w h
  | op o g ih => exact fun f => ⟨hG _ _ (h f).1, ih _ (h f).2⟩

theorem wp_post {p : Prog Op Res α} {Q Q' : α → σ → Prop} {w : σ} (h : p.wp step G Q w)
    (hQ : ∀ a w', Q a w' → Q' a w') : p.wp step G Q' w :=
  wp_mono h (fun _ _ => id) hQ

theorem wp_and {p : Prog Op Res α} {G' : σ → σ → Prop} {Q Q' : α → σ → Prop} {w : σ}
    (h : p.wp step G Q w) (h' : p.wp step G' Q' w) :
    p.wp step (fun w₁ w₂ => G w₁ w₂ ∧ G' w₁ w₂) (fun a w' => Q a w' ∧ Q' a w') w := by
  induction p generalizing w with
  | ret a => exact ⟨h, h'⟩
  | op o g ih => exact fun f => ⟨⟨(h f).1, (h' f).1⟩, ih _ (h f).2 (h' f).2⟩

/-- sequencing, with the postcondition of the first part named -/
theorem wp_seq {p : Prog Op Res α} {k : α → Prog Op Res β} {R : α → σ → Prop}
    {Q : β → σ → Prop} {w : σ} (hp : p.wp step G R w)
    (hk : ∀ a w', R a w' → (k a).wp step G Q w') : (p >>= k).wp step G Q w :=
  (wp_bind p k Q w).mpr (wp_post hp hk)

/-- `wp` is exactly: every pattern of faults moves by `G` and ends with `Q` -/
theorem wp_iff_exec (p : Prog Op Res α) (Q : α → σ → Prop) (w : σ) :
    p.wp step G Q w ↔ ∀ fs, (∀ m ∈ p.moves step calm fs w, G m.1 m.2) ∧
      Q (p.exec step calm fs w).1 (p.exec step calm fs w).2 := by
  induction p generalizing w with
  | ret a => exact ⟨fun h _ => ⟨by simp [moves], h⟩, fun h => (h []).2⟩
  | op o k ih =>
    constructor
    · intro h fs
      obtain ⟨hg, hk⟩ := h (fs.headD calm)
      obtain ⟨hm, hQ⟩ := (ih _ _).mp hk fs.tail
      refine ⟨?_, hQ⟩
      intro m hmem
      rcases List.mem_cons.mp hmem with rfl | hmem
      · exact hg
      · exact hm m hmem
    · intro h f
      refine ⟨(h [f]).1 _ List.mem_cons_self, (ih _ _).mpr fun fs => ?_⟩
      obtain ⟨hm, hQ⟩ := h (f :: fs)
      exact ⟨fun m hmem => hm m (List.mem_cons_of_mem _ hmem), hQ⟩

theorem exec_wp {p : Prog Op Res α} {Q : α → σ → Prop} {w : σ} (h : p.wp step G Q w) (fs : List φ) :
    Q (p.exec step calm fs w).1 (p.exec step calm fs w).2 := ((wp_iff_exec calm p Q w).mp h fs).2

/-- each state change of a run is an operation, calm or under one of its faults -/
theorem mem_moves {p : Prog Op Res α} {fs : List φ} {w : σ} {m : σ × σ}
    (hm : m ∈ p.moves step calm fs w) : ∃ o f, (f = calm ∨ f ∈ fs) ∧ m.2 = (step o f m.1).2 := by
  induction p generalizing fs w with
  | ret a => simp [moves] at hm
  | op o k ih =>
    rcases List.mem_cons.mp hm with rfl | hm
    · refine ⟨o, fs.headD calm, ?_, rfl⟩
      cases fs with
      | nil => exact Or.inl rfl
      | cons f fs => exact Or.inr List.mem_cons_self
    · obtain ⟨o', f, hf, he⟩ := ih _ hm
      exact ⟨o', f, hf.imp_right List.mem_of_mem_tail, he⟩

/-- an invariant that each state change of a run keeps holds after every one of them -/
theorem moves_keep {J : σ → Prop} {p : Prog Op Res α} {fs : List φ} {w : σ}
    (hmove : ∀ m ∈ p.moves step calm fs w, J m.1 → J m.2) (hw : J w) :
    ∀ m ∈ p.moves step calm fs w, J m.2 := by
  induction p generalizing fs w with
  | ret a => intro m hm; simp [moves] at hm
  | op o k ih =>
    have hfirst := hmove _ List.mem_cons_self hw
    intro m hm
    rcases List.mem_cons.mp hm with rfl | hm
    · exact hfirst
    · exact ih _ (fun m hm => hmove m (List.mem_cons_of_mem _ hm)) hfirst m hm

/-- an invariant that every operation with `P` keeps, moving by `G` -/
theorem Only.wp {P : Op → Prop} {I : σ → Prop} {p : Prog Op Res α} (hp : p.Only P)
    (hI : ∀ o f w, P o → I w → G w (step o f w).2 ∧ I (step o f w).2) {w : σ} (hw : I w) :
    p.wp step G (fun _ w' => I w') w := by
  induction p generalizing w with
  | ret a => exact hw
  | op o k ih => exact fun f => ⟨(hI o f w hp.1 hw).1, ih _ (hp.2 _) (hI o f w hp.1 hw).2⟩

/-- a run without faults, whose operations are answered by `fine` when none occurs -/
theorem Steady.exec {fine : (o : Op) → Res o → Prop} {Q : α → Prop} {p : Prog Op Res α}
    (hp : p.Steady fine Q) (hcalm : ∀ o w, fine o (step o calm w).1) (w : σ) :
    Q (p.exec step calm [] w).1 := by
  induction p generalizing w with
  | ret a => exact hp
  | op o k ih => exact ih _ (hp _ (hcalm o w)) _

theorem Answers.exec {Q : α → Prop} {p : Prog Op Res α} (hp : p.Answers Q) (fs : List φ) (w : σ) :
    Q (p.exec step calm fs w).1 := by
  induction p generalizing fs w with
  | ret a => exact hp
  | op o k ih => exact ih _ (hp _) _ _

theorem Answers.wp {Q : α → Prop} {p : Prog Op Res α} (hp : p.Answers Q) (w : σ) :
    p.wp step (fun _ _ => True) (fun a _ => Q a) w := by
  induction p generalizing w with
  | ret a => exact hp
  | op o k ih => exact fun f => ⟨trivial, ih _ (hp _) _⟩

/-- a clean answer: an invariant that the operations keep if they are answered by `fine` -/
theorem Shows.wp {fine : (o : Op) → Res o → Prop} {clean : α → Prop} {I : σ → Prop}
    {p : Prog Op Res α} (hp : p.Shows fine clean)
    (hI : ∀ o f w, I w → fine o (step o f w).1 → I (step o f w).2) {w : σ} (hw : I w) :
    p.wp step (fun _ _ => True) (fun a w' => clean a → I w') w := by
  induction p generalizing w with
  | ret a => exact fun _ => hw
  | op o k ih =>
    intro f
    refine ⟨trivial, ?_⟩
    by_cases hf : fine o (step o f w).1
    · exact ih _ (hp _).2 (hI o f w hw hf)
    · exact wp_post (((hp _).1 hf).wp _) fun a w' hn hc => absurd hc hn

end
end Prog
end Effects
