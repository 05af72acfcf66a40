import BackupHelper.Lib.Text
import Mathlib.Logic.Function.Basic

/-!
# Stores of values under keys

A store is a map from keys to values.  `Step torn s r a s'` is what may become of a request `r`: it is
answered with `a` and leaves `s'`.  A request that fails may have been carried out all the same, and a
write that fails may leave a torn value (`torn b b'`); no other key is ever changed.

* `Step`, `Runs`       one request, and one after the other;
* `Step.map`           the values seen through a function;
* `Smooth`             nothing failed but to read a key that is not there;
* `Machine`            something that is asked, and the store that is seen in its state;
* `Machine.Sound`      it does what a store may do (`Sound.runs`);
* `Machine.Full`       it may do whatever a store may do;
* `simulated`          the runs of a sound machine are among those of a full one;
* `agree`              two sound machines that run smoothly answer alike.
-/

namespace KeyStore
open Text

abbrev Map (β : Type) := Str → Option β

inductive Req (β : Type) where
  | put (k : Str) (b : β)
  | get (k : Str)
  /-- the keys that begin so -/
  | list (pfx : Str)
  | delete (k : Str)
  | holds (k : Str)

inductive Ans (β : Type) where
  | done
  | value (b : β)
  | keys (l : List Str)
  | yes (b : Bool)
  | failed
deriving DecidableEq

section
variable {β γ : Type}

def Req.map (f : β → γ) : Req β → Req γ
  | .put k b => .put k (f b)
  | .get k => .get k
  | .list pfx => .list pfx
  | .delete k => .delete k
  | .holds k => .holds k

def Ans.map (f : β → γ) : Ans β → Ans γ
  | .done => .done
  | .value b => .value (f b)
  | .keys l => .keys l
  | .yes b => .yes b
  | .failed => .failed

/-- the values seen through `f` -/
def Map.through (f : β → γ) (s : Map β) : Map γ := fun k => (s k).map f

theorem through_update (f : β → γ) (s : Map β) (k : Str) (v : Option β) :
    Map.through f (Function.update s k v) = Function.update (Map.through f s) k (v.map f) := by
  funext k'
  by_cases hk : k' = k
  · rw [hk, Function.update_self, Map.through, Function.update_self]
  · rw [Function.update_of_ne hk, Map.through, Function.update_of_ne hk]
    rfl

/-! ## a request -/

section
variable (torn : β → β → Prop)

inductive Step (s : Map β) : Req β → Ans β → Map β → Prop where
  | put (k : Str) (b : β) : Step s (.put k b) .done (Function.update s k (some b))
  | get {k : Str} {b : β} (h : s k = some b) : Step s (.get k) (.value b) s
  | list {pfx : Str} {l : List Str} (hl : l.Pairwise (· < ·)) (hmem : ∀ x, x ∈ l ↔ pfx <+: x ∧ s x ≠ none) :
      Step s (.list pfx) (.keys l) s
  | delete (k : Str) : Step s (.delete k) .done (Function.update s k none)
  | holds (k : Str) : Step s (.holds k) (.yes (s k).isSome) s
  | failed (r : Req β) : Step s r .failed s
  | putLate (k : Str) (b : β) : Step s (.put k b) .failed (Function.update s k (some b))
  | putTorn (k : Str) {b b' : β} (h : torn b b') : Step s (.put k b) .failed (Function.update s k (some b'))
  | deleteLate (k : Str) : Step s (.delete k) .failed (Function.update s k none)

inductive Runs : Map β → List (Req β) → List (Ans β) → Map β → Prop where
  | nil (s : Map β) : Runs s [] [] s
  | cons {s s₁ s' : Map β} {r : Req β} {a : Ans β} {rs : List (Req β)} {as : List (Ans β)}
      (h : Step torn s r a s₁) (hs : Runs s₁ rs as s') : Runs s (r :: rs) (a :: as) s'

end

/-- what is written is seen whole, or torn -/
def Seen (torn : β → β → Prop) (torn' : γ → γ → Prop) (f : β → γ) : Req β → Prop
  | .put _ b => ∀ b', torn b b' → f b' = f b ∨ torn' (f b) (f b')
  | _ => True

theorem Step.map {torn : β → β → Prop} {torn' : γ → γ → Prop} {f : β → γ} {s s' : Map β} {r : Req β} {a : Ans β}
    (h : Step torn s r a s') (hseen : Seen torn torn' f r) :
    Step torn' (s.through f) (r.map f) (a.map f) (s'.through f) := by
  cases h with
  | put k b =>
    rw [through_update]
    exact .put k (f b)
  | get h => exact .get (by rw [Map.through, h]; rfl)
  | list hl hmem =>
    refine .list hl fun x => ?_
    rw [hmem, Map.through]
    cases s x <;> simp
  | delete k =>
    rw [through_update]
    exact .delete k
  | holds k =>
    show Step torn' _ (.holds k) (.yes (s k).isSome) _
    have hsome : (s k).isSome = (s.through f k).isSome := by
      rw [Map.through]
      cases s k <;> rfl
    rw [hsome]
    exact .holds k
  | failed r => exact .failed _
  | putLate k b =>
    rw [through_update]
    exact .putLate k (f b)
  | @putTorn k b b' h =>
    rw [through_update]
    show Step torn' _ _ _ (Function.update _ k (some (f b')))
    rcases hseen b' h with he | ht
    · rw [he]
      exact .putLate k (f b)
    · exact .putTorn k ht
  | deleteLate k =>
    rw [through_update]
    exact .deleteLate k

/-! ## nothing failed -/

/-- to read a key fails if it is not there, and nothing else fails -/
def Smooth (s : Map β) (r : Req β) (a : Ans β) : Prop := a = .failed → ∃ k, r = .get k ∧ s k = none

theorem sorted_strict {l : List Str} (h : l.Nodup) : (sorted l).Pairwise (· < ·) :=
  ((sorted_pairwise l).and (sorted_nodup h)).imp fun h => lt_of_le_of_ne h.1 h.2

theorem keys_unique {l l' : List Str} (hl : l.Pairwise (· < ·)) (hl' : l'.Pairwise (· < ·))
    (hmem : ∀ x, x ∈ l ↔ x ∈ l') : l = l' := by
  have hperm : l.Perm l' := (List.perm_ext_iff_of_nodup hl.nodup hl'.nodup).mpr hmem
  exact hperm.eq_of_pairwise' hl hl'

theorem Step.det {torn : β → β → Prop} {s s₁ s₂ : Map β} {r : Req β} {a₁ a₂ : Ans β} (h₁ : Step torn s r a₁ s₁)
    (h₂ : Step torn s r a₂ s₂) (hs₁ : Smooth s r a₁) (hs₂ : Smooth s r a₂) : a₁ = a₂ ∧ s₁ = s₂ := by
  -- a failed request was to read a missing key
  have hfail : ∀ {a s'}, Step torn s r a s' → Smooth s r a → a = .failed → s' = s ∧ ∃ k, r = .get k ∧ s k = none := by
    intro a s' h hs ha
    obtain ⟨k, rfl, hk⟩ := hs ha
    subst ha
    cases h
    exact ⟨rfl, k, rfl, hk⟩
  by_cases ha₁ : a₁ = .failed
  · obtain ⟨rfl, k, rfl, hk⟩ := hfail h₁ hs₁ ha₁
    subst ha₁
    cases h₂ with
    | get h => rw [hk] at h; cases h
    | failed => exact ⟨rfl, rfl⟩
  · by_cases ha₂ : a₂ = .failed
    · obtain ⟨rfl, k, rfl, hk⟩ := hfail h₂ hs₂ ha₂
      cases h₁ with
      | get h => rw [hk] at h; cases h
      | failed => exact absurd rfl ha₁
    · cases h₁ with
      | put k b =>
        cases h₂ with
        | put => exact ⟨rfl, rfl⟩
        | _ => exact absurd rfl ha₂
      | get h =>
        cases h₂ with
        | get h' =>
          rw [h] at h'
          rw [Option.some.inj h']
          exact ⟨rfl, rfl⟩
        | _ => exact absurd rfl ha₂
      | list hl hmem =>
        cases h₂ with
        | list hl' hmem' =>
          rw [keys_unique hl hl' fun x => (hmem x).trans (hmem' x).symm]
          exact ⟨rfl, rfl⟩
        | _ => exact absurd rfl ha₂
      | delete k =>
        cases h₂ with
        | delete => exact ⟨rfl, rfl⟩
        | _ => exact absurd rfl ha₂
      | holds k =>
        cases h₂ with
        | holds => exact ⟨rfl, rfl⟩
        | _ => exact absurd rfl ha₂
      | _ => exact absurd rfl ha₁

end

/-! ## machines -/

/-- something that answers requests, under faults of type `φ` -/
structure Machine (β φ σ : Type) where
  ask : Req β → φ → σ → Ans β × σ
  /-- the store that its state is -/
  view : σ → Map β

section
variable {β γ φ ψ σ τ : Type}

def Machine.run (M : Machine β φ σ) : List (Req β × φ) → σ → List (Ans β) × σ
  | [], s => ([], s)
  | q :: qs, s => ((M.ask q.1 q.2 s).1 :: (M.run qs (M.ask q.1 q.2 s).2).1, (M.run qs (M.ask q.1 q.2 s).2).2)

/-- asked for what it is for, it keeps its invariant and does what a store may do -/
structure Machine.Sound (M : Machine β φ σ) (torn : β → β → Prop) (Inv : σ → Prop) (For : Req β × φ → Prop) : Prop where
  keeps : ∀ q s, For q → Inv s → Inv (M.ask q.1 q.2 s).2
  step : ∀ q s, For q → Inv s → Step torn (M.view s) q.1 (M.ask q.1 q.2 s).1 (M.view (M.ask q.1 q.2 s).2)

/-- with more that it keeps, asked for less -/
theorem Machine.Sound.and {M : Machine β φ σ} {torn : β → β → Prop} {Inv J : σ → Prop} {For For' : Req β × φ → Prop}
    (hM : M.Sound torn Inv For) (hfor : ∀ q, For' q → For q)
    (hJ : ∀ q s, For' q → Inv s → J s → J (M.ask q.1 q.2 s).2) : M.Sound torn (fun s => Inv s ∧ J s) For' where
  keeps q s hq hs := ⟨hM.keeps q s (hfor q hq) hs.1, hJ q s hq hs.1 hs.2⟩
  step q s hq hs := hM.step q s (hfor q hq) hs.1

theorem Machine.Sound.runs {M : Machine β φ σ} {torn : β → β → Prop} {Inv : σ → Prop} {For : Req β × φ → Prop}
    (hM : M.Sound torn Inv For) {qs : List (Req β × φ)} (hqs : ∀ q ∈ qs, For q) {s : σ} (hs : Inv s) :
    Inv (M.run qs s).2 ∧ Runs torn (M.view s) (qs.map (·.1)) (M.run qs s).1 (M.view (M.run qs s).2) := by
  induction qs generalizing s with
  | nil => exact ⟨hs, .nil _⟩
  | cons q qs ih =>
    rw [List.forall_mem_cons] at hqs
    obtain ⟨hinv, hruns⟩ := ih hqs.2 (hM.keeps q s hqs.1 hs)
    exact ⟨hinv, .cons (hM.step q s hqs.1 hs) hruns⟩

/-- whatever a store may do, the machine does it under some fault -/
def Machine.Full (M : Machine β φ σ) (torn : β → β → Prop) : Prop :=
  ∀ s r a s', Step torn (M.view s) r a s' → ∃ f, (M.ask r f s).1 = a ∧ M.view (M.ask r f s).2 = s'

theorem Machine.Full.runs {M : Machine β φ σ} {torn : β → β → Prop} (hM : M.Full torn) {s s' : Map β}
    {rs : List (Req β)}
    {as : List (Ans β)} (h : Runs torn s rs as s') {t : σ} (ht : M.view t = s) :
    ∃ qs : List (Req β × φ), qs.map (·.1) = rs ∧ (M.run qs t).1 = as ∧ M.view (M.run qs t).2 = s' := by
  induction h generalizing t with
  | nil s => exact ⟨[], rfl, rfl, ht⟩
  | @cons s s₁ s' r a rs as h hs ih =>
    subst ht
    obtain ⟨f, ha, hview⟩ := hM t r a s₁ h
    obtain ⟨qs, hrs, has, hview'⟩ := ih hview
    refine ⟨(r, f) :: qs, ?_, ?_, hview'⟩
    · rw [List.map_cons, hrs]
    · rw [Machine.run, ha, has]

theorem Runs.map {torn : β → β → Prop} {torn' : γ → γ → Prop} {f : β → γ} {s s' : Map β} {rs : List (Req β)}
    {as : List (Ans β)} (h : Runs torn s rs as s') (hseen : ∀ r ∈ rs, Seen torn torn' f r) :
    Runs torn' (s.through f) (rs.map (·.map f)) (as.map (·.map f)) (s'.through f) := by
  induction h with
  | nil s => exact .nil _
  | cons h hs ih =>
    rw [List.forall_mem_cons] at hseen
    exact .cons (h.map hseen.1) (ih hseen.2)

/-- the runs of a sound machine are runs of a full one, its values seen through `f` -/
theorem simulated {M : Machine β φ σ} {N : Machine γ ψ τ} {torn : β → β → Prop} {torn' : γ → γ → Prop} {Inv : σ → Prop}
    {For : Req β × φ → Prop} (hM : M.Sound torn Inv For) (hN : N.Full torn') {f : β → γ} {qs : List (Req β × φ)}
    (hqs : ∀ q ∈ qs, For q) (hseen : ∀ q ∈ qs, Seen torn torn' f q.1) {s : σ} (hs : Inv s) {t : τ}
    (ht : N.view t = (M.view s).through f) :
    ∃ qs' : List (Req γ × ψ), qs'.map (·.1) = qs.map (fun q => q.1.map f) ∧
      (N.run qs' t).1 = (M.run qs s).1.map (·.map f) ∧
      N.view (N.run qs' t).2 = (M.view (M.run qs s).2).through f := by
  have hseen' : ∀ r ∈ qs.map (·.1), Seen torn torn' f r := by
    intro r hr
    obtain ⟨q, hq, rfl⟩ := List.mem_map.mp hr
    exact hseen q hq
  obtain ⟨qs', hrs, has, hview⟩ := hN.runs ((hM.runs hqs hs).2.map hseen') ht
  rw [List.map_map] at hrs
  exact ⟨qs', hrs, has, hview⟩

/-- asked `rs` under no fault, everything goes well -/
def Machine.Smoothly (M : Machine β φ σ) (calm : φ) (Inv : σ → Prop) (For : Req β → Prop) : Prop :=
  ∀ r s, For r → Inv s → Smooth (M.view s) r (M.ask r calm s).1

/-- two machines with the same store answer alike -/
theorem agree {M : Machine β φ σ} {N : Machine β ψ τ} {torn : β → β → Prop} {calm : φ} {calm' : ψ} {Inv : σ → Prop}
    {Inv' : τ → Prop} {For : Req β → Prop} (hM : M.Sound torn Inv fun q => For q.1 ∧ q.2 = calm)
    (hN : N.Sound torn Inv' fun q => For q.1 ∧ q.2 = calm') (hsM : M.Smoothly calm Inv For)
    (hsN : N.Smoothly calm' Inv' For) {rs : List (Req β)} (hrs : ∀ r ∈ rs, For r) {s : σ} (hs : Inv s) {t : τ}
    (ht : Inv' t) (hview : M.view s = N.view t) :
    (M.run (rs.map (·, calm)) s).1 = (N.run (rs.map (·, calm')) t).1 ∧
      M.view (M.run (rs.map (·, calm)) s).2 = N.view (N.run (rs.map (·, calm')) t).2 := by
  induction rs generalizing s t with
  | nil => exact ⟨rfl, hview⟩
  | cons r rs ih =>
    rw [List.forall_mem_cons] at hrs
    have hstep := hM.step (r, calm) s ⟨hrs.1, rfl⟩ hs
    have hstep' := hN.step (r, calm') t ⟨hrs.1, rfl⟩ ht
    have hsmooth := hsN r t hrs.1 ht
    rw [← hview] at hstep' hsmooth
    obtain ⟨ha, hafter⟩ := hstep.det hstep' (hsM r s hrs.1 hs) hsmooth
    obtain ⟨has, hend⟩ := ih hrs.2 (hM.keeps (r, calm) s ⟨hrs.1, rfl⟩ hs) (hN.keeps (r, calm') t ⟨hrs.1, rfl⟩ ht) hafter
    refine ⟨?_, hend⟩
    show (M.ask r calm s).1 :: _ = (N.ask r calm' t).1 :: _
    rw [show (M.ask r calm s).1 = (N.ask r calm' t).1 from ha]
    exact congrArg _ has

end
end KeyStore
