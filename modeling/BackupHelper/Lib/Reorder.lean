import Mathlib.Data.List.Perm.Basic
import Mathlib.Data.List.Nodup

/-!
# Two orders of the same steps

A run takes its steps one after the other.  Some pairs of steps may be swapped, and two orders agree on
all others.

* `Swaps`              what is asked of the pairs that may be swapped;
* `Agree`              the other pairs come in the same order;
* `foldl_reorder`      **both orders lead to the same state**.
-/

namespace Reorder

section
variable {α σ : Type*} {step : σ → α → σ} {inv : σ → Prop} {same : σ → σ → Prop} {free : α → α → Prop}

/-- up to `same`, which every step keeps, two steps that are `free` may be swapped where `inv` holds -/
structure Swaps (step : σ → α → σ) (inv : σ → Prop) (same : σ → σ → Prop) (free : α → α → Prop) : Prop where
  equiv : Equivalence same
  stays : ∀ s a, inv s → inv (step s a)
  keep : ∀ s s' a, same s s' → same (step s a) (step s' a)
  swap : ∀ s a b, inv s → free a b → same (step (step s a) b) (step (step s b) a)

/-- steps that are not free come in `l'` as they do in `l` -/
def Agree (free : α → α → Prop) (l l' : List α) : Prop :=
  ∀ a b, ¬ free a b → [a, b].Sublist l → [a, b].Sublist l'

theorem Swaps.keep_run (h : Swaps step inv same free) (l : List α) {s s' : σ} (hs : same s s') :
    same (l.foldl step s) (l.foldl step s') := by
  induction l generalizing s s' with
  | nil => exact hs
  | cons a l ih => exact ih (h.keep s s' a hs)

/-- a step goes before others that it is free from -/
theorem Swaps.forward (h : Swaps step inv same free) {a : α} {l : List α} (hl : ∀ b ∈ l, free a b) {s : σ}
    (hs : inv s) : same (l.foldl step (step s a)) (step (l.foldl step s) a) := by
  induction l generalizing s with
  | nil => exact h.equiv.refl _
  | cons b l ih =>
    rw [List.forall_mem_cons] at hl
    have hswap := h.keep_run l (h.swap s a b hs hl.1)
    exact h.equiv.trans hswap (ih hl.2 (h.stays s b hs))

theorem Agree.tail {a : α} {l s t : List α} (h : Agree free (a :: l) (s ++ a :: t)) (ha : a ∉ l) :
    Agree free l (s ++ t) := by
  intro b c hbc hsub
  have hb : b ≠ a := fun e => ha (e ▸ hsub.subset List.mem_cons_self)
  have hc : c ≠ a := fun e => ha (e ▸ hsub.subset (by simp))
  have hwhole := h b c hbc (hsub.trans (List.sublist_cons_self a l))
  obtain ⟨u, v, huv, hu, hv⟩ := List.sublist_append_iff.mp hwhole
  rw [huv]
  refine hu.append ?_
  cases hv with
  | cons _ hv => exact hv
  | cons_cons _ hv =>
    exfalso
    have hmem : a ∈ [b, c] := huv ▸ List.mem_append_right u List.mem_cons_self
    simp only [List.mem_cons, List.not_mem_nil, or_false] at hmem
    rcases hmem with rfl | rfl
    · exact hb rfl
    · exact hc rfl

/-- **Two orders that agree** on the steps that may not be swapped lead to the same state. -/
theorem foldl_reorder (h : Swaps step inv same free) {l l' : List α} (hnodup : l.Nodup) (hperm : l'.Perm l)
    (hagree : Agree free l l') {s : σ} (hs : inv s) : same (l.foldl step s) (l'.foldl step s) := by
  induction l generalizing l' s with
  | nil =>
    rw [hperm.eq_nil]
    exact h.equiv.refl _
  | cons a l ih =>
    obtain ⟨ha, hnodup⟩ := List.nodup_cons.mp hnodup
    obtain ⟨u, t, rfl⟩ := List.append_of_mem (hperm.mem_iff.mpr List.mem_cons_self)
    have hrest : (u ++ t).Perm l := (List.perm_middle.symm.trans hperm).cons_inv
    have hu : ∀ b ∈ u, b ∈ l := fun b hb => hrest.mem_iff.mp (List.mem_append_left t hb)
    have hau : a ∉ u := fun hmem => ha (hu a hmem)
    have hat : a ∉ t := fun hmem => ha (hrest.mem_iff.mp (List.mem_append_right u hmem))
    -- what comes before `a` in the second order is free from it
    have hfree : ∀ b ∈ u, free a b := by
      intro b hb
      by_contra hnot
      have hsub : [a, b].Sublist (a :: l) :=
        (List.singleton_sublist.mpr (hu b hb)).cons_cons a
      obtain ⟨v, w, hvw, hv, hw⟩ := List.sublist_append_iff.mp (hagree a b hnot hsub)
      cases v with
      | nil =>
        rw [List.nil_append] at hvw
        subst hvw
        have hbt : b ∈ t := by
          cases hw with
          | cons _ hw => exact hw.subset (by simp)
          | cons_cons _ hw => exact hw.subset (by simp)
        have hnd : (u ++ t).Nodup := hrest.nodup_iff.mpr hnodup
        exact (List.nodup_append.mp hnd).2.2 b hb b hbt rfl
      | cons x v =>
        obtain ⟨rfl, -⟩ := List.cons.inj hvw
        exact hau (hv.subset List.mem_cons_self)
    have hih := ih hnodup hrest (hagree.tail ha) (h.stays s a hs)
    rw [List.foldl_append] at hih
    rw [List.foldl_append, List.foldl_cons, List.foldl_cons]
    exact h.equiv.trans hih (h.keep_run t (h.forward hfree hs))

end
end Reorder
