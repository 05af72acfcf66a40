import Mathlib.Data.List.Sort
import Mathlib.Data.List.Lex
import Mathlib.Data.Char

/-!
# Strings as lists of characters

A string is the list of its characters (`Str`), compared character by character.  What the
programs of this development do with names is

* `stem suf k`     `k` without its suffix `suf`, if it ends with it;
* `cut pre k`      `k` without its first `pre.length` characters (a prefix known to be there);
* `splitAt1 c s`   the part before the first `c` and the part after it;
* `sorted l`       the list in increasing order;
* `hexVal c`       the value of a hexadecimal digit.

`not_prefix_of_lt` is the fact that deletion by the prefix `<id>.` rests on: among names that begin with
a dot-free `s` and a dot, a prefix `p` and a dot belong to `p = s` or to a `p` that itself begins
with `s` and a dot, and is therefore greater than `s`.
-/

namespace Text

abbrev Str := List Char

instance (x : Str) (l : List Str) : Decidable (x ∈ l) := List.instDecidableMemOfLawfulBEq x l

/-- decided on the characters of `s`, not on all characters -/
instance decidableForallChar (p : Char → Prop) [DecidablePred p] (s : Str) : Decidable (∀ c ∈ s, p c) :=
  List.decidableBAll p s

instance decidableForallHead (p : Char → Prop) [DecidablePred p] (o : Option Char) : Decidable (∀ c ∈ o, p c) :=
  Option.decidableForallMem o

/-! ## prefixes and suffixes -/

/-- `k` without its suffix `suf` -/
def stem (suf k : Str) : Option Str :=
  if suf.isSuffixOf k then some (k.take (k.length - suf.length)) else none

theorem stem_eq_some {suf k s : Str} : stem suf k = some s ↔ k = s ++ suf := by
  unfold stem
  constructor
  · intro h
    split at h
    · rename_i hs
      obtain ⟨t, rfl⟩ := List.isSuffixOf_iff_suffix.mp hs
      simpa using h
    · simp at h
  · rintro rfl
    have hs : suf.isSuffixOf (s ++ suf) = true :=
      List.isSuffixOf_iff_suffix.mpr (List.suffix_append s suf)
    simp [hs]

@[simp] theorem stem_append (suf s : Str) : stem suf (s ++ suf) = some s :=
  stem_eq_some.mpr rfl

/-- `k` without its first `pre.length` characters -/
def cut (pre k : Str) : Str := k.drop pre.length

@[simp] theorem cut_append (pre k : Str) : cut pre (pre ++ k) = k := by simp [cut]

/-- a list whose elements are none of them `c` -/
def free (c : Char) (s : Str) : Prop := c ∉ s

instance (c : Char) (s : Str) : Decidable (free c s) := inferInstanceAs (Decidable (c ∉ s))

/-- the part before the first `c` and the part after it -/
def splitAt1 (c : Char) (s : Str) : Option (Str × Str) :=
  match s with
  | [] => none
  | d :: s => if d = c then some ([], s) else (splitAt1 c s).map (fun r => (d :: r.1, r.2))

theorem splitAt1_append {c : Char} {s t : Str} (h : free c s) :
    splitAt1 c (s ++ c :: t) = some (s, t) := by
  induction s with
  | nil => simp [splitAt1]
  | cons d s ih =>
    have hd : d ≠ c := fun e => h (by simp [e])
    have hs : free c s := fun hc => h (List.mem_cons_of_mem _ hc)
    simp [splitAt1, hd, ih hs]

theorem splitAt1_eq_some {c : Char} {s x y : Str} (h : splitAt1 c s = some (x, y)) :
    s = x ++ c :: y := by
  induction s generalizing x with
  | nil => simp [splitAt1] at h
  | cons d s ih =>
    unfold splitAt1 at h
    by_cases hd : d = c
    · rw [if_pos hd] at h
      obtain ⟨rfl, rfl⟩ := Prod.mk.inj (Option.some.inj h)
      rw [hd]
      rfl
    · rw [if_neg hd] at h
      obtain ⟨⟨x', y'⟩, hr, he⟩ := Option.map_eq_some_iff.mp h
      obtain ⟨rfl, rfl⟩ := Prod.mk.inj he
      rw [ih hr]
      rfl

/-- two ways to split a list at the first `c` -/
theorem split_unique {c : Char} {s t x y : Str} (hs : free c s) (ht : free c t)
    (h : s ++ c :: x = t ++ c :: y) : s = t ∧ x = y := by
  induction s generalizing t with
  | nil =>
    cases t with
    | nil => exact ⟨rfl, by simpa using h⟩
    | cons d t =>
      have hd : c = d := (List.cons.inj h).1
      exact absurd (by simp [hd]) ht
  | cons d s ih =>
    cases t with
    | nil =>
      have hd : d = c := (List.cons.inj h).1
      exact absurd (by simp [hd]) hs
    | cons e t =>
      obtain ⟨rfl, h'⟩ := List.cons.inj h
      have hs' : free c s := fun hc => hs (List.mem_cons_of_mem _ hc)
      have ht' : free c t := fun hc => ht (List.mem_cons_of_mem _ hc)
      obtain ⟨rfl, rfl⟩ := ih hs' ht' h'
      exact ⟨rfl, rfl⟩

/-- a name that begins with the `c`-free `s` and a `c`, and with `p` and a `c`: then `p` is `s`, or
begins with `s` and a `c` itself -/
theorem prefix_cases {c : Char} {p s x : Str} (hs : free c s) (h : p ++ [c] <+: s ++ c :: x) :
    p = s ∨ s ++ [c] <+: p := by
  obtain ⟨z, hz⟩ := h
  have hz' : p ++ c :: z = s ++ c :: x := by simpa using hz
  by_cases hp : c ∈ p
  · right
    obtain ⟨a, b, rfl, ha⟩ := List.eq_append_cons_of_mem hp
    have hab : a ++ c :: (b ++ c :: z) = s ++ c :: x := by simpa using hz'
    obtain ⟨rfl, -⟩ := split_unique ha hs hab
    exact ⟨b, by simp⟩
  · exact Or.inl (split_unique hp hs hz').1

theorem lt_append_cons (s : Str) (c : Char) (t : Str) : s < s ++ c :: t := by
  induction s with
  | nil => exact List.Lex.nil
  | cons d s ih => exact List.Lex.cons ih

theorem lt_of_begins {s p : Str} {c : Char} (h : s ++ [c] <+: p) : s < p := by
  obtain ⟨t, rfl⟩ := h
  simpa using lt_append_cons s c t

/-- **Deletion by prefix.**  If `p` is at most `s`, other than `s`, and `s` has no `c`, then no name
`s ++ c :: x` begins with `p` and a `c`. -/
theorem not_prefix_of_lt {c : Char} {p s x : Str} (hs : free c s) (hp : p < s) :
    ¬ p ++ [c] <+: s ++ c :: x := by
  intro h
  rcases prefix_cases hs h with rfl | h'
  · exact lt_irrefl _ hp
  · exact lt_asymm hp (lt_of_begins h')

/-! ## sorted lists -/

def sorted (l : List Str) : List Str := l.insertionSort (· ≤ ·)

@[simp] theorem mem_sorted {l : List Str} {x : Str} : x ∈ sorted l ↔ x ∈ l :=
  List.mem_insertionSort _

theorem sorted_pairwise (l : List Str) : (sorted l).Pairwise (· ≤ ·) :=
  List.pairwise_insertionSort _ l

theorem sorted_perm (l : List Str) : (sorted l).Perm l := List.perm_insertionSort _ l

theorem sorted_nodup {l : List Str} (h : l.Nodup) : (sorted l).Nodup :=
  (sorted_perm l).nodup_iff.mpr h

theorem head_sorted {l : List Str} {x : Str} : (sorted l).head? = some x ↔ x ∈ l ∧ ∀ y ∈ l, x ≤ y := by
  have hpair := sorted_pairwise l
  constructor
  · intro h
    obtain ⟨t, ht⟩ := List.head?_eq_some_iff.mp h
    rw [ht] at hpair
    have hmem : ∀ y, y ∈ l ↔ y ∈ x :: t := fun y => by rw [← ht, mem_sorted]
    refine ⟨(hmem x).mpr List.mem_cons_self, fun y hy => ?_⟩
    rcases List.mem_cons.mp ((hmem y).mp hy) with rfl | hy
    · exact le_rfl
    · exact (List.pairwise_cons.mp hpair).1 y hy
  · rintro ⟨hx, hle⟩
    cases hs : sorted l with
    | nil =>
      rw [← mem_sorted, hs] at hx
      cases hx
    | cons z t =>
      rw [hs] at hpair
      have hz : z ∈ l := by rw [← mem_sorted, hs]; exact List.mem_cons_self
      have hxz : x ∈ z :: t := by rw [← hs, mem_sorted]; exact hx
      rcases List.mem_cons.mp hxz with rfl | hxt
      · rfl
      · rw [le_antisymm (hle z hz) ((List.pairwise_cons.mp hpair).1 x hxt)]
        rfl

/-- lists with the same elements, each once, are sorted alike -/
theorem sorted_ext {l l' : List Str} (h : l.Nodup) (h' : l'.Nodup) (hmem : ∀ x, x ∈ l ↔ x ∈ l') :
    sorted l = sorted l' := by
  have hperm : (sorted l).Perm (sorted l') :=
    (sorted_perm l).trans (((List.perm_ext_iff_of_nodup h h').mpr hmem).trans (sorted_perm l').symm)
  exact hperm.eq_of_pairwise' (sorted_pairwise l) (sorted_pairwise l')

/-- what passes a filter, of lists with the same such elements -/
theorem filter_sorted_ext {l l' : List Str} (h : l.Nodup) (h' : l'.Nodup) {p p' : Str → Bool}
    (hmem : ∀ x, (x ∈ l ∧ p x = true) ↔ (x ∈ l' ∧ p' x = true)) :
    (sorted l).filter p = (sorted l').filter p' := by
  have hnd := (sorted_nodup h).filter p
  have hnd' := (sorted_nodup h').filter p'
  have hperm : ((sorted l).filter p).Perm ((sorted l').filter p') := by
    refine (List.perm_ext_iff_of_nodup hnd hnd').mpr fun x => ?_
    rw [List.mem_filter, List.mem_filter, mem_sorted, mem_sorted]
    exact hmem x
  exact hperm.eq_of_pairwise' ((sorted_pairwise l).filter p) ((sorted_pairwise l').filter p')

/-! ## hexadecimal digits -/

/-- the value of a hexadecimal digit -/
def hexVal (c : Char) : Option ℕ :=
  if '0' ≤ c ∧ c ≤ '9' then some (c.toNat - 48)
  else if 'a' ≤ c ∧ c ≤ 'f' then some (c.toNat - 87)
  else if 'A' ≤ c ∧ c ≤ 'F' then some (c.toNat - 55)
  else none

theorem hexVal_digitChar : ∀ d < 16, hexVal (Nat.digitChar d) = some d := by decide

end Text
