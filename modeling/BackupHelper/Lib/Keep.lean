import Mathlib.Data.Finset.Max
import Mathlib.Data.Finset.Image
import Mathlib.Data.Finset.Card

/-!
# What a retention policy keeps of a finite history

`H` is a finite set of a linear order, its greater elements the newer ones.  A policy prunes the
elements that are beyond a count or `old`, except the newest of the newest buckets of its tiers and
the newest of all:

* `above H x`        how many elements of `H` are newer than `x`;
* `Leads b n H x`    `x` is the newest of its bucket, and its bucket is one of the `n` newest;
* `Kept P old H x`   `x` stays.

`Kept.between`: **a set between the kept part of `H` and `H` has the same kept part**, so pruning
early never changes what is pruned later.  `Kept.anti`: an element that is kept in a longer history,
with more elements old, is kept in the shorter one.  `Pruned.step` is what follows for a pass over a
partially pruned history.
-/

set_option linter.unusedSectionVars false

namespace Keep
open Finset

section
variable {α β : Type*} [LinearOrder α] [LinearOrder β]

/-- the elements of a list -/
def ofList (l : List α) : Finset α := l.toFinset

/-- the buckets of a history -/
def buckets (b : α → β) (H : Finset α) : Finset β := H.image b

@[simp] theorem mem_ofList {l : List α} {x : α} : x ∈ ofList l ↔ x ∈ l := List.mem_toFinset

theorem ofList_perm {l l' : List α} (h : l.Perm l') : ofList l = ofList l' :=
  List.toFinset_eq_of_perm _ _ h

theorem ofList_cons (a : α) (l : List α) : ofList (a :: l) = insert a (ofList l) :=
  List.toFinset_cons

theorem mem_buckets {b : α → β} {H : Finset α} {c : β} : c ∈ buckets b H ↔ ∃ x ∈ H, b x = c :=
  mem_image

theorem buckets_mono {b : α → β} {A H : Finset α} (h : A ⊆ H) : buckets b A ⊆ buckets b H :=
  image_subset_image h

def above (H : Finset α) (x : α) : ℕ := #{y ∈ H | x < y}

theorem above_mono {A H : Finset α} (h : A ⊆ H) (x : α) : above A x ≤ above H x :=
  card_le_card (filter_subset_filter _ h)

theorem above_eq_zero {H : Finset α} {x : α} (h : ∀ y ∈ H, y ≤ x) : above H x = 0 := by
  unfold above
  rw [card_eq_zero, filter_eq_empty_iff]
  exact fun y hy => not_lt.mpr (h y hy)

theorem above_insert_self {a : α} {s : Finset α} (ha : ∀ x ∈ s, x < a) : above (insert a s) a = 0 := by
  apply above_eq_zero
  intro y hy
  rcases mem_insert.mp hy with rfl | hy
  · exact le_rfl
  · exact (ha y hy).le

theorem above_insert_of_lt {a : α} {s : Finset α} (ha : ∀ x ∈ s, x < a) {x : α} (hx : x ∈ s) :
    above (insert a s) x = above s x + 1 := by
  unfold above
  rw [filter_insert, if_pos (ha x hx), card_insert_of_notMem]
  exact fun h => lt_irrefl a (ha a (mem_filter.mp h).1)

/-- `n` elements of a set of at least `n` have fewer than `n` above them -/
theorem le_card_above_lt (S : Finset α) : ∀ n ≤ #S, n ≤ #{x ∈ S | above S x < n} := by
  induction S using Finset.induction_on_max with
  | empty => intro n hn; simpa using hn
  | insert a s ha ih =>
    intro n hn
    have has : a ∉ s := fun h => lt_irrefl a (ha a h)
    cases n with
    | zero => exact Nat.zero_le _
    | succ m =>
      have hm : m ≤ #s := by rw [card_insert_of_notMem has] at hn; omega
      have haa : above (insert a s) a = 0 := above_insert_self ha
      have hx : ∀ x ∈ s, above (insert a s) x = above s x + 1 := fun x =>
        above_insert_of_lt ha
      have hsub : insert a {x ∈ s | above s x < m} ⊆ {x ∈ insert a s | above (insert a s) x < m + 1} := by
        intro y hy
        rcases mem_insert.mp hy with rfl | hy
        · exact mem_filter.mpr ⟨mem_insert_self _ _, by omega⟩
        · obtain ⟨hys, hlt⟩ := mem_filter.mp hy
          exact mem_filter.mpr ⟨mem_insert_of_mem hys, by rw [hx y hys]; omega⟩
      have hcard := card_le_card hsub
      rw [card_insert_of_notMem fun h => has (mem_filter.mp h).1] at hcard
      have := ih m hm
      omega

/-- if at least `n` elements of `H` are above `x`, then `n` of them have fewer than `n` above -/
theorem le_card_above_lt_of_le {H : Finset α} {x : α} {n : ℕ} (h : n ≤ above H x) :
    n ≤ #{y ∈ H | x < y ∧ above H y < n} := by
  refine (le_card_above_lt {y ∈ H | x < y} n h).trans (card_le_card ?_)
  intro y hy
  obtain ⟨hyx, hlt⟩ := mem_filter.mp hy
  obtain ⟨hyH, hxy⟩ := mem_filter.mp hyx
  refine mem_filter.mpr ⟨hyH, hxy, ?_⟩
  have : above {z ∈ H | x < z} y = above H y := by
    unfold above
    rw [filter_filter]
    congr 1
    ext z
    simp only [mem_filter, and_congr_right_iff, and_iff_right_iff_imp]
    exact fun _ hyz => hxy.trans hyz
  omega

/-- the elements of a decreasing list from the `n`-th on are those with at least `n` above them -/
theorem mem_drop_iff {l : List α} (h : l.Pairwise (· > ·)) (n : ℕ) (x : α) :
    x ∈ l.drop n ↔ x ∈ l ∧ n ≤ above (ofList l) x := by
  induction l generalizing n with
  | nil => simp
  | cons a l ih =>
    obtain ⟨ha, hl⟩ := List.pairwise_cons.mp h
    have ha' : ∀ y ∈ ofList l, y < a := fun y hy => ha y (mem_ofList.mp hy)
    cases n with
    | zero => simp
    | succ n =>
      rw [List.drop_succ_cons, ih hl, ofList_cons, List.mem_cons]
      constructor
      · rintro ⟨hx, hn⟩
        rw [above_insert_of_lt ha' (mem_ofList.mpr hx)]
        exact ⟨Or.inr hx, by omega⟩
      · rintro ⟨rfl | hx, hn⟩
        · rw [above_insert_self ha'] at hn
          omega
        · rw [above_insert_of_lt ha' (mem_ofList.mpr hx)] at hn
          exact ⟨hx, by omega⟩

theorem mem_take_iff {l : List α} (h : l.Pairwise (· > ·)) (n : ℕ) (x : α) :
    x ∈ l.take n ↔ x ∈ l ∧ above (ofList l) x < n := by
  have hnd : (l.take n ++ l.drop n).Nodup := by
    rw [List.take_append_drop]
    exact h.imp fun h => ne_of_gt h
  have hmem : x ∈ l ↔ x ∈ l.take n ∨ x ∈ l.drop n := by
    rw [← List.mem_append, List.take_append_drop]
  constructor
  · intro hx
    have hd : x ∉ l.drop n := List.disjoint_of_nodup_append hnd hx
    have hl := hmem.mpr (Or.inl hx)
    rw [mem_drop_iff h] at hd
    exact ⟨hl, by by_contra hn; exact hd ⟨hl, by omega⟩⟩
  · rintro ⟨hx, hn⟩
    refine (hmem.mp hx).resolve_right fun hd => ?_
    have := ((mem_drop_iff h n x).mp hd).2
    omega

/-- `x` is the greatest of its bucket in `H`, whose bucket is one of the `n` greatest -/
structure Leads (b : α → β) (n : ℕ) (H : Finset α) (x : α) : Prop where
  mem : x ∈ H
  top : ∀ y ∈ H, b y = b x → y ≤ x
  rank : above (buckets b H) (b x) < n

theorem exists_leads {b : α → β} {n : ℕ} {H : Finset α} {c : β} (hc : c ∈ buckets b H)
    (hn : above (buckets b H) c < n) : ∃ x, b x = c ∧ Leads b n H x := by
  obtain ⟨y, hy, rfl⟩ := mem_buckets.mp hc
  have hne : ({x ∈ H | b x = b y} : Finset α).Nonempty := ⟨y, mem_filter.mpr ⟨hy, rfl⟩⟩
  obtain ⟨hmem, hb⟩ := mem_filter.mp (max'_mem _ hne)
  refine ⟨_, hb, hmem, fun z hz hzb => ?_, by rwa [hb]⟩
  exact le_max' _ _ (mem_filter.mpr ⟨hz, hzb.trans hb⟩)

theorem Leads.anti {b : α → β} {n : ℕ} {A H : Finset α} {x : α} (hAH : A ⊆ H) (hx : x ∈ A)
    (h : Leads b n H x) : Leads b n A x :=
  ⟨hx, fun y hy => h.top y (hAH hy), (above_mono (buckets_mono hAH) _).trans_lt h.rank⟩

/-- a subset that holds every leader has no other leaders -/
theorem Leads.of_between {b : α → β} {n : ℕ} {A H : Finset α} {x : α} (hAH : A ⊆ H)
    (hK : ∀ y, Leads b n H y → y ∈ A) (h : Leads b n A x) : Leads b n H x := by
  have hxH := hAH h.mem
  have hrank : above (buckets b H) (b x) < n := by
    by_contra hn
    have hle := le_card_above_lt_of_le (not_lt.mp hn)
    refine absurd h.rank (not_lt.mpr (hle.trans (card_le_card ?_)))
    intro c hc
    obtain ⟨hcH, hxc, hcn⟩ := mem_filter.mp hc
    obtain ⟨y, rfl, hy⟩ := exists_leads hcH hcn
    exact mem_filter.mpr ⟨mem_buckets.mpr ⟨y, hK y hy, rfl⟩, hxc⟩
  obtain ⟨m, hm, hmL⟩ := exists_leads (mem_buckets.mpr ⟨x, hxH, rfl⟩) hrank
  have hmx : m ≤ x := h.top m (hK m hmL) hm
  have hxm : x ≤ m := hmL.top x hxH hm.symm
  rwa [le_antisymm hxm hmx]

/-- the newest element of all -/
def Last (H : Finset α) (x : α) : Prop := x ∈ H ∧ ∀ y ∈ H, y ≤ x

/-- `count` newest elements are no candidates for pruning (`0`: no limit), `tiers` are pairs of a
bucket function and how many buckets it protects, `last` protects the newest element -/
structure Policy (α β : Type*) where
  count : ℕ
  tiers : List ((α → β) × ℕ)
  last : Bool

variable (P : Policy α β) (old : α → Prop)

def Candidate (H : Finset α) (x : α) : Prop := (0 < P.count ∧ P.count ≤ above H x) ∨ old x

def Protected (H : Finset α) (x : α) : Prop :=
  (∃ t ∈ P.tiers, Leads t.1 t.2 H x) ∨ (P.last = true ∧ Last H x)

def Kept (H : Finset α) (x : α) : Prop := x ∈ H ∧ (¬ Candidate P old H x ∨ Protected P H x)

variable {P old}

/-- within `H`, a newer element than one that is not old is not old -/
def Downward (old : α → Prop) (H : Finset α) : Prop := ∀ x ∈ H, ∀ y ∈ H, x ≤ y → old y → old x

theorem Protected.anti {A H : Finset α} {x : α} (hAH : A ⊆ H) (hx : x ∈ A)
    (h : Protected P H x) : Protected P A x := by
  rcases h with ⟨t, ht, hl⟩ | ⟨hlast, -, hmax⟩
  · exact Or.inl ⟨t, ht, hl.anti hAH hx⟩
  · exact Or.inr ⟨hlast, hx, fun y hy => hmax y (hAH hy)⟩

/-- **Kept in more is kept in less.** -/
theorem Kept.anti {old' : α → Prop} {A H : Finset α} {x : α} (hAH : A ⊆ H) (hx : x ∈ A)
    (hold : ∀ y, old y → old' y) (h : Kept P old' H x) : Kept P old A x := by
  refine ⟨hx, h.2.imp (fun hc hc' => hc ?_) (Protected.anti hAH hx)⟩
  exact hc'.imp (fun ⟨h0, hle⟩ => ⟨h0, hle.trans (above_mono hAH x)⟩) (hold x)

theorem Protected.of_between {A H : Finset α} {x : α} (hAH : A ⊆ H)
    (hK : ∀ y, Kept P old H y → y ∈ A) (h : Protected P A x) : Protected P H x := by
  have hP : ∀ y ∈ H, Protected P H y → y ∈ A := fun y hy hp => hK y ⟨hy, Or.inr hp⟩
  rcases h with ⟨t, ht, hl⟩ | ⟨hlast, hx, hmax⟩
  · exact Or.inl ⟨t, ht, hl.of_between hAH fun y hy => hP y hy.mem (Or.inl ⟨t, ht, hy⟩)⟩
  · have hne : H.Nonempty := ⟨x, hAH hx⟩
    have hmaxH : Last H (H.max' hne) := ⟨H.max'_mem hne, fun y hy => H.le_max' y hy⟩
    have hmA : H.max' hne ∈ A := hP _ hmaxH.1 (Or.inr ⟨hlast, hmaxH⟩)
    have hxm : x = H.max' hne := le_antisymm (hmaxH.2 x (hAH hx)) (hmax _ hmA)
    exact Or.inr ⟨hlast, hxm ▸ hmaxH⟩

/-- **A set between the kept part of `H` and `H` has the kept part of `H`.** -/
theorem Kept.between {A H : Finset α} (hold : Downward old H) (hAH : A ⊆ H)
    (hK : ∀ y, Kept P old H y → y ∈ A) (x : α) : Kept P old A x ↔ Kept P old H x := by
  refine ⟨fun h => ?_, fun h => h.anti hAH (hK x h) fun _ => id⟩
  obtain ⟨hxA, hc | hp⟩ := h
  · refine ⟨hAH hxA, Or.inl fun hcH => hc ?_⟩
    by_cases hox : old x
    · exact Or.inr hox
    · obtain ⟨h0, hle⟩ : 0 < P.count ∧ P.count ≤ above H x := hcH.resolve_right hox
      refine Or.inl ⟨h0, (le_card_above_lt_of_le hle).trans (card_le_card ?_)⟩
      intro y hy
      obtain ⟨hyH, hxy, hyn⟩ := mem_filter.mp hy
      -- the `count` newest elements are kept: they are newer than `x`, which is not old
      have hyc : ¬ Candidate P old H y := by
        rintro (⟨-, h⟩ | h)
        · omega
        · exact hox (hold x (hAH hxA) y hyH hxy.le h)
      exact mem_filter.mpr ⟨hK y ⟨hyH, Or.inl hyc⟩, hxy⟩
  · exact ⟨hAH hxA, Or.inr (hp.of_between hAH hK)⟩

/-! ## histories pruned on the way -/

/-- `A` is what is left of the history `H` after passes that removed no element kept at `old` -/
structure Pruned (P : Policy α β) (old : α → Prop) (H A : Finset α) : Prop where
  sub : A ⊆ H
  kept : ∀ x, Kept P old H x → x ∈ A

theorem Pruned.grow {H A : Finset α} (h : Pruned P old H A) (s : α) :
    Pruned P old (insert s H) (insert s A) := by
  refine ⟨insert_subset_insert s h.sub, fun x hx => ?_⟩
  rcases mem_insert.mp hx.1 with rfl | hxH
  · exact mem_insert_self _ _
  · exact mem_insert_of_mem (h.kept x (hx.anti (subset_insert s H) hxH fun _ => id))

/-- a pass with at least as many old elements, which removed only elements it does not keep -/
theorem Pruned.step {old' : α → Prop} {H A A' : Finset α} (h : Pruned P old H A)
    (hold : ∀ y, old y → old' y) (hdown : Downward old' H) (hsub : A' ⊆ A)
    (hpass : ∀ x ∈ A, Kept P old' A x → x ∈ A') : Pruned P old' H A' := by
  have hA : ∀ x, Kept P old' H x → x ∈ A := fun x hx =>
    h.kept x (hx.anti subset_rfl hx.1 hold)
  refine ⟨hsub.trans h.sub, fun x hx => ?_⟩
  exact hpass x (hA x hx) ((Kept.between hdown h.sub hA x).mpr hx)

/-- **After a complete pass exactly the kept part of the full history is left.** -/
theorem Pruned.complete {old' : α → Prop} {H A A' : Finset α} (h : Pruned P old H A)
    (hold : ∀ y, old y → old' y) (hdown : Downward old' H)
    (hpass : ∀ x, x ∈ A' ↔ Kept P old' A x) (x : α) : x ∈ A' ↔ Kept P old' H x := by
  have hA : ∀ x, Kept P old' H x → x ∈ A := fun x hx =>
    h.kept x (hx.anti subset_rfl hx.1 hold)
  rw [hpass, Kept.between hdown h.sub hA]

end
end Keep
