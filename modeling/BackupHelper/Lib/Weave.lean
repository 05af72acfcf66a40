import BackupHelper.Lib.Prog

/-!
# Two programs over one store

Programs take turns at the operations of a store, each under its own plan of failures: the fault of
an operation is a function of the `seen` operations that its program has performed so far.

* `alone`      a program that runs by itself;
* `Weave`      any interleaving of two programs;
* `amid`       what a program guarantees while others move by `R` between its operations;
* `Weave.amid` two programs each of whose moves are among those that the other one allows for;
* `Weave.moves` what the operations of both do together;
* `Sim`        amid others, a program does as it does alone from a state that looks the same.
-/

set_option linter.unusedSectionVars false

namespace Effects
namespace Prog

section
variable {Op : Type} {Res : Op → Type} {α β γ σ φ : Type}
  (step : (o : Op) → φ → σ → Res o × σ) (seen : Op → Bool)

/-- the fault of an operation after those that were seen -/
abbrev Plan (Op φ : Type) := List Op → Op → φ

def push (h : List Op) (o : Op) : List Op := if seen o then h ++ [o] else h

/-- answer, operations seen and final state of a run by itself -/
def alone (plan : Plan Op φ) : Prog Op Res α → List Op → σ → α × List Op × σ
  | ret a, h, w => (a, h, w)
  | op o k, h, w =>
    (k (step o (plan h o) w).1).alone plan (push seen h o) (step o (plan h o) w).2

/-- both programs run from the state before the last three, taking turns in some order, to their
answers and the final state -/
inductive Weave (plan plan' : Plan Op φ) :
    Prog Op Res α → List Op → Prog Op Res β → List Op → σ → α → β → σ → Prop
  | done (a : α) (b : β) (h h' : List Op) (w : σ) : Weave plan plan' (ret a) h (ret b) h' w a b w
  | left {o : Op} {k : Res o → Prog Op Res α} {h h' : List Op} {q : Prog Op Res β} {w w' : σ} {a : α}
      {b : β} (rest : Weave plan plan' (k (step o (plan h o) w).1) (push seen h o) q h'
        (step o (plan h o) w).2 a b w') : Weave plan plan' (op o k) h q h' w a b w'
  | right {o : Op} {k : Res o → Prog Op Res β} {h h' : List Op} {p : Prog Op Res α} {w w' : σ} {a : α}
      {b : β} (rest : Weave plan plan' p h (k (step o (plan' h' o) w).1) (push seen h' o)
        (step o (plan' h' o) w).2 a b w') : Weave plan plan' p h (op o k) h' w a b w'

/-- while others move by `R` between the operations, each operation of `p` moves by `G` and the run
ends with `Q` -/
def amid (plan : Plan Op φ) (R G : σ → σ → Prop) (Q : α → List Op → σ → Prop) :
    Prog Op Res α → List Op → σ → Prop
  | ret a, h, w => ∀ w₁, R w w₁ → Q a h w₁
  | op o k, h, w => ∀ w₁, R w w₁ → G w₁ (step o (plan h o) w₁).2 ∧
      (k (step o (plan h o) w₁).1).amid plan R G Q (push seen h o) (step o (plan h o) w₁).2

variable {step seen} {plan plan' : Plan Op φ}

theorem alone_bind (p : Prog Op Res α) (k : α → Prog Op Res β) (h : List Op) (w : σ) :
    (p >>= k).alone step seen plan h w =
      (k (p.alone step seen plan h w).1).alone step seen plan (p.alone step seen plan h w).2.1
        (p.alone step seen plan h w).2.2 := by
  induction p generalizing h w with
  | ret a => rfl
  | op o g ih => exact ih _ _ _

/-! ## amid others -/

section
variable {R G : σ → σ → Prop} {Q : α → List Op → σ → Prop}

theorem amid_mono {p : Prog Op Res α} {Q' : α → List Op → σ → Prop} {h : List Op} {w : σ}
    (hp : p.amid step seen plan R G Q h w) (hQ : ∀ a h' w', Q a h' w' → Q' a h' w') :
    p.amid step seen plan R G Q' h w := by
  induction p generalizing h w with
  | ret a => exact fun w₁ hr => hQ a h w₁ (hp w₁ hr)
  | op o g ih => exact fun w₁ hr => ⟨(hp w₁ hr).1, ih _ (hp w₁ hr).2⟩

/-- others may have moved before the start -/
theorem amid_shift (htrans : ∀ w₁ w₂ w₃, R w₁ w₂ → R w₂ w₃ → R w₁ w₃) {p : Prog Op Res α}
    {h : List Op} {w w' : σ} (hp : p.amid step seen plan R G Q h w) (hr : R w w') :
    p.amid step seen plan R G Q h w' := by
  cases p with
  | ret a => exact fun w₁ h₁ => hp w₁ (htrans _ _ _ hr h₁)
  | op o g => exact fun w₁ h₁ => hp w₁ (htrans _ _ _ hr h₁)

theorem amid_bind (hrefl : ∀ w, R w w) {p : Prog Op Res α} {k : α → Prog Op Res β}
    {Q : β → List Op → σ → Prop} {h : List Op} {w : σ}
    (hp : p.amid step seen plan R G (fun a h' w' => (k a).amid step seen plan R G Q h' w') h w) :
    (p >>= k).amid step seen plan R G Q h w := by
  induction p generalizing h w with
  | ret a => exact hp w (hrefl w)
  | op o g ih => exact fun w₁ hr => ⟨(hp w₁ hr).1, ih _ (hp w₁ hr).2⟩

/-- a run alone is one amid others that do nothing -/
theorem alone_of_amid (hrefl : ∀ w, R w w) {p : Prog Op Res α} {h : List Op} {w : σ}
    (hp : p.amid step seen plan R G Q h w) :
    Q (p.alone step seen plan h w).1 (p.alone step seen plan h w).2.1
      (p.alone step seen plan h w).2.2 := by
  induction p generalizing h w with
  | ret a => exact hp w (hrefl w)
  | op o g ih => exact ih _ (hp w (hrefl w)).2

end

/-! ## two programs -/

/-- **Two programs side by side**: where the moves of each are allowed by the other, both end as they
do amid others. -/
theorem Weave.amid {R G R' G' : σ → σ → Prop} {Q : α → List Op → σ → Prop}
    {Q' : β → List Op → σ → Prop} (hrefl : ∀ w, R w w) (hrefl' : ∀ w, R' w w)
    (htrans : ∀ w₁ w₂ w₃, R w₁ w₂ → R w₂ w₃ → R w₁ w₃)
    (htrans' : ∀ w₁ w₂ w₃, R' w₁ w₂ → R' w₂ w₃ → R' w₁ w₃) (hG : ∀ w w', G w w' → R' w w')
    (hG' : ∀ w w', G' w w' → R w w') {p : Prog Op Res α} {q : Prog Op Res β} {h h' : List Op}
    {w w' : σ} {a : α} {b : β} (hweave : Weave step seen plan plan' p h q h' w a b w')
    (hp : p.amid step seen plan R G Q h w) (hq : q.amid step seen plan' R' G' Q' h' w) :
    (∃ h₁, Q a h₁ w') ∧ ∃ h₁, Q' b h₁ w' := by
  induction hweave with
  | done a b h h' w => exact ⟨⟨h, hp w (hrefl w)⟩, h', hq w (hrefl' w)⟩
  | left rest ih =>
    obtain ⟨hg, hk⟩ := hp _ (hrefl _)
    exact ih hk (amid_shift htrans' hq (hG _ _ hg))
  | right rest ih =>
    obtain ⟨hg, hk⟩ := hq _ (hrefl' _)
    exact ih (amid_shift htrans hp (hG' _ _ hg)) hk

/-- what every operation of both does, all of them together do -/
theorem Weave.moves {R G R' G' T : σ → σ → Prop} {Q : α → List Op → σ → Prop}
    {Q' : β → List Op → σ → Prop} (hrefl : ∀ w, R w w) (hrefl' : ∀ w, R' w w)
    (htrans : ∀ w₁ w₂ w₃, R w₁ w₂ → R w₂ w₃ → R w₁ w₃)
    (htrans' : ∀ w₁ w₂ w₃, R' w₁ w₂ → R' w₂ w₃ → R' w₁ w₃) (hG : ∀ w w', G w w' → R' w w')
    (hG' : ∀ w w', G' w w' → R w w') (hT : ∀ w, T w w) (hTtrans : ∀ w₁ w₂ w₃, T w₁ w₂ → T w₂ w₃ → T w₁ w₃)
    (hGT : ∀ w w', G w w' → T w w') (hGT' : ∀ w w', G' w w' → T w w') {p : Prog Op Res α}
    {q : Prog Op Res β} {h h' : List Op} {w w' : σ} {a : α} {b : β}
    (hweave : Weave step seen plan plan' p h q h' w a b w') (hp : p.amid step seen plan R G Q h w)
    (hq : q.amid step seen plan' R' G' Q' h' w) : T w w' := by
  induction hweave with
  | done a b h h' w => exact hT w
  | left rest ih =>
    obtain ⟨hg, hk⟩ := hp _ (hrefl _)
    exact hTtrans _ _ _ (hGT _ _ hg) (ih hk (amid_shift htrans' hq (hG _ _ hg)))
  | right rest ih =>
    obtain ⟨hg, hk⟩ := hq _ (hrefl' _)
    exact hTtrans _ _ _ (hGT' _ _ hg) (ih (amid_shift htrans hp (hG' _ _ hg)) hk)

/-- one after the other is an interleaving -/
theorem weave_alone (p : Prog Op Res α) (q : Prog Op Res β) (h h' : List Op) (w : σ) :
    Weave step seen plan plan' p h q h' w (p.alone step seen plan h w).1
      (q.alone step seen plan' h' (p.alone step seen plan h w).2.2).1
      (q.alone step seen plan' h' (p.alone step seen plan h w).2.2).2.2 := by
  induction p generalizing h w with
  | ret a =>
    show Weave step seen plan plan' (ret a) h q h' w a (q.alone step seen plan' h' w).1
      (q.alone step seen plan' h' w).2.2
    induction q generalizing h' w with
    | ret b => exact .done a b h h' w
    | op o g ih => exact .right (ih _ _ _)
  | op o g ih => exact .left (ih _ _ _)

theorem Weave.symm {p : Prog Op Res α} {q : Prog Op Res β} {h h' : List Op} {w w' : σ} {a : α} {b : β}
    (hweave : Weave step seen plan plan' p h q h' w a b w') :
    Weave step seen plan' plan q h' p h w b a w' := by
  induction hweave with
  | done a b h h' w => exact .done b a h' h w
  | left rest ih => exact .right ih
  | right rest ih => exact .left ih

/-! ## as it does alone -/

section
variable (Inv : σ → Prop) (Same : σ → σ → Prop)

/-- what others may do: keep the invariant, and nothing that shows -/
def Unseen (w w' : σ) : Prop := Inv w → Inv w' ∧ Same w w'

variable (step seen plan) (G : σ → σ → Prop)

/-- amid others, `p` does as `p'` does alone from a state that looks the same, up to `Rel` in the
answer -/
def Sim (Rel : α → β → Prop) (p : Prog Op Res α) (p' : Prog Op Res β) : Prop :=
  ∀ w w' h, Inv w → Inv w' → Same w w' → p.amid step seen plan (Unseen Inv Same) G (fun a h₁ w₁ =>
    Rel a (p'.alone step seen plan h w').1 ∧ h₁ = (p'.alone step seen plan h w').2.1 ∧
      Inv w₁ ∧ Inv (p'.alone step seen plan h w').2.2 ∧
      Same w₁ (p'.alone step seen plan h w').2.2) h w

variable {step seen plan Inv Same G} (heq : Equivalence Same)
include heq

theorem Sim.ret {Rel : α → β → Prop} {a : α} {b : β} (hab : Rel a b) :
    Sim step seen plan Inv Same G Rel (ret a) (ret b) := by
  intro w w' h hw hw' hs w₁ hr
  obtain ⟨hi, hs₁⟩ := hr hw
  exact ⟨hab, rfl, hi, hw', heq.trans (heq.symm hs₁) hs⟩

theorem Sim.bind {α' β' : Type} {Rel : α → α' → Prop} {Rel' : β → β' → Prop} {p : Prog Op Res α}
    {p' : Prog Op Res α'} {k : α → Prog Op Res β} {k' : α' → Prog Op Res β'}
    (hp : Sim step seen plan Inv Same G Rel p p')
    (hk : ∀ a a', Rel a a' → Sim step seen plan Inv Same G Rel' (k a) (k' a')) :
    Sim step seen plan Inv Same G Rel' (p >>= k) (p' >>= k') := by
  intro w w' h hw hw' hs
  refine amid_bind (fun w hi => ⟨hi, heq.refl w⟩) (amid_mono (hp w w' h hw hw' hs) fun a h₁ w₁ hr => ?_)
  obtain ⟨hrel, rfl, hi, hi', hs₁⟩ := hr
  rw [alone_bind]
  exact hk _ _ hrel w₁ _ _ hi hi' hs₁

omit heq in
theorem Sim.mono {Rel Rel' : α → β → Prop} {p : Prog Op Res α} {p' : Prog Op Res β}
    (hp : Sim step seen plan Inv Same G Rel p p') (h : ∀ a b, Rel a b → Rel' a b) :
    Sim step seen plan Inv Same G Rel' p p' := by
  intro w w' hist hw hw' hs
  exact amid_mono (hp w w' hist hw hw' hs) fun a h₁ w₁ hr => ⟨h _ _ hr.1, hr.2⟩

/-- one operation, from states that look the same -/
theorem Sim.perform {o : Op} {Rel : Res o → Res o → Prop}
    (hstep : ∀ f w w', Inv w → Inv w' → Same w w' →
      Rel (step o f w).1 (step o f w').1 ∧ Inv (step o f w).2 ∧ Inv (step o f w').2 ∧
        Same (step o f w).2 (step o f w').2 ∧ G w (step o f w).2) :
    Sim step seen plan Inv Same G Rel (Prog.perform o) (Prog.perform o) := by
  intro w w' h hw hw' hs w₁ hr
  obtain ⟨hi, hs₁⟩ := hr hw
  obtain ⟨hrel, hi₁, hi₁', hs₂, hg⟩ := hstep (plan h o) w₁ w' hi hw' (heq.trans (heq.symm hs₁) hs)
  refine ⟨hg, fun w₂ hr₂ => ?_⟩
  obtain ⟨hi₂, hs₃⟩ := hr₂ hi₁
  exact ⟨hrel, rfl, hi₂, hi₁', heq.trans (heq.symm hs₃) hs₂⟩

/-- a program that only looks, told by what it finds -/
theorem Sim.of_looks {U : List Op → σ → α → Prop} {Rel : α → α → Prop} {p : Prog Op Res α}
    (hp : ∀ w h, Inv w → p.amid step seen plan (Unseen Inv Same) G
      (fun a h₁ w₁ => U h w a ∧ h₁ = h ∧ Inv w₁ ∧ Same w w₁) h w)
    (hU : ∀ h w w' a a', Inv w → Inv w' → Same w w' → U h w a → U h w' a' → Rel a a') :
    Sim step seen plan Inv Same G Rel p p := by
  intro w w' h hw hw' hs
  obtain ⟨hu', hh, hi', hs'⟩ := alone_of_amid (fun w hi => ⟨hi, heq.refl w⟩) (hp w' h hw')
  refine amid_mono (hp w h hw) fun a h₁ w₁ hr => ?_
  obtain ⟨hu, rfl, hi, hs₁⟩ := hr
  exact ⟨hU _ _ _ _ _ hw hw' hs hu hu', hh.symm, hi, hi',
    heq.trans (heq.symm hs₁) (heq.trans hs hs')⟩

end
end
end Prog
end Effects
