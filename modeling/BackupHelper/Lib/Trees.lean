import Mathlib.Tactic.Common
import Mathlib.Data.List.Chain
import Mathlib.Data.List.Pairwise

/-!
# Documents of mappings and lists, and assignment at a path

A step of a path is a name or an index.  `put` goes down a path as a chain of item assignments does:
where there is nothing yet, or null, it opens the container that the next step asks for; a list that
is too short is padded with empty mappings; what does not fit is left alone.

* `child`, `assign`     an item of a container, and its assignment;
* `look`, `put`         the same along a path;
* `Fits t p`            the steps of `p` meet containers of their kind, null or nothing;
* `look_put`, `look_put_other`, `Fits.put`   what one assignment does, and leaves alone;
* `putAll_spec`         **assignments at paths that do not get in each other's way**, in any order.
-/

set_option linter.unusedSectionVars false

namespace Trees

inductive Key (N : Type) where
  | name (s : N)
  | index (i : ℕ)
deriving DecidableEq

inductive Doc (N A : Type) where
  | null
  | scalar (a : A)
  | list (items : List (Doc N A))
  | mapping (entries : List (Key N × Doc N A))

def Key.isIndex {N : Type} : Key N → Bool
  | .name _ => false
  | .index _ => true

section
variable {N A : Type} [DecidableEq N]

namespace Doc

/-- an item; nothing of what is no container, or a list asked for a name -/
def child : Doc N A → Key N → Option (Doc N A)
  | .list l, .index i => l[i]?
  | .mapping m, k => m.lookup k
  | _, _ => none

def setEntry (k : Key N) (t : Doc N A) : List (Key N × Doc N A) → List (Key N × Doc N A)
  | [] => [(k, t)]
  | e :: m => if k = e.1 then (k, t) :: m else e :: setEntry k t m

/-- the item at `i`, after padding with empty mappings -/
def setItem (i : ℕ) (t : Doc N A) (l : List (Doc N A)) : List (Doc N A) :=
  (l ++ List.replicate (i + 1 - l.length) (mapping [])).set i t

def assign : Doc N A → Key N → Doc N A → Doc N A
  | .list l, .index i, t => .list (setItem i t l)
  | .mapping m, k, t => .mapping (setEntry k t m)
  | c, _, _ => c

/-- the container that a step asks for -/
def fresh (k : Key N) : Doc N A := if k.isIndex then .list [] else .mapping []

/-- the item of `c` at `k`, or the container that is opened there for the step `next` -/
def opened (c : Doc N A) (k next : Key N) : Doc N A :=
  match c.child k with
  | none => fresh next
  | some .null => fresh next
  | some t => t

def put : Doc N A → List (Key N) → Doc N A → Doc N A
  | c, [], _ => c
  | c, [k], t => c.assign k t
  | c, k :: next :: p, t => c.assign k ((c.opened k next).put (next :: p) t)

def look : Doc N A → List (Key N) → Option (Doc N A)
  | c, [] => some c
  | c, k :: p => (c.child k).bind (fun t => t.look p)

/-- a container of the kind that the step asks for -/
def takes : Doc N A → Key N → Bool
  | .list _, .index _ => true
  | .mapping _, .name _ => true
  | _, _ => false

end Doc

open Doc

/-- what a step may meet -/
def Meets (o : Option (Doc N A)) (k : Key N) : Prop :=
  o = none ∨ o = some .null ∨ ∃ t, o = some t ∧ t.takes k = true

def Fits (c : Doc N A) (p : List (Key N)) : Prop :=
  ∀ q k, q ++ [k] <+: p → Meets (c.look q) k

/-- no two adjacent indexes -/
def Spaced (p : List (Key N)) : Prop := p.IsChain (fun x y => x.isIndex = true → y.isIndex = false)

instance (p : List (Key N)) : Decidable (Spaced p) := inferInstanceAs (Decidable (List.IsChain _ p))

/-- neither path is where the other one is, or on the way to it -/
def Apart (p q : List (Key N)) : Prop := ¬ p <+: q ∧ ¬ q <+: p

instance (p q : List (Key N)) : Decidable (Apart p q) := inferInstanceAs (Decidable (_ ∧ _))

/-- where they part, both paths go on by names, or both by indexes -/
def Alike (p q : List (Key N)) : Prop :=
  ∀ c x y, c ++ [x] <+: p → c ++ [y] <+: q → x.isIndex = y.isIndex

/-- `q` is an item of a list on the way of `p`, below the one that `p` goes through -/
def Below (q p : List (Key N)) : Prop :=
  ∃ c i j, q = c ++ [.index i] ∧ i < j ∧ c ++ [.index j] <+: p

/-- at `q` there was nothing, and a list on the way of one of `ps` was padded there -/
def Padded (ps : List (List (Key N))) (c c' : Doc N A) (q : List (Key N)) : Prop :=
  c.look q = none ∧ c'.look q = some (.mapping []) ∧ ∃ p ∈ ps, Below q p

/-! ## one step -/

theorem lookup_entry (k k' : Key N) (t : Doc N A) (m : List (Key N × Doc N A)) :
    List.lookup k' ((k, t) :: m) = if k' = k then some t else m.lookup k' := by
  rw [List.lookup_cons]
  by_cases hk : k' = k
  · rw [if_pos hk, hk, beq_self_eq_true]
  · rw [if_neg hk, beq_false_of_ne hk]

theorem lookup_setEntry (k : Key N) (t : Doc N A) (m : List (Key N × Doc N A)) (k' : Key N) :
    (setEntry k t m).lookup k' = if k' = k then some t else m.lookup k' := by
  induction m with
  | nil => exact lookup_entry k k' t []
  | cons e m ih =>
    obtain ⟨k₁, t₁⟩ := e
    unfold setEntry
    by_cases he : k = k₁
    · rw [if_pos he, lookup_entry, lookup_entry, ← he]
      by_cases hk : k' = k
      · rw [if_pos hk, if_pos hk]
      · rw [if_neg hk, if_neg hk, if_neg hk]
    · rw [if_neg he, lookup_entry, lookup_entry, ih]
      by_cases hk : k' = k
      · rw [if_pos hk, if_neg fun h => he (hk.symm.trans h), if_pos hk]
      · rw [if_neg hk, if_neg hk]

theorem getElem?_setItem (i : ℕ) (t : Doc N A) (l : List (Doc N A)) (j : ℕ) :
    (setItem i t l)[j]? = if j = i then some t else if j < l.length then l[j]?
      else if j < i then some (.mapping []) else none := by
  unfold setItem
  rw [List.getElem?_set, List.length_append, List.length_replicate]
  by_cases hj : j = i
  · subst hj
    rw [if_pos rfl, if_pos rfl, if_pos (by omega)]
  · rw [if_neg (Ne.symm hj), if_neg hj]
    by_cases hl : j < l.length
    · rw [if_pos hl, List.getElem?_append_left hl]
    · rw [if_neg hl, List.getElem?_append_right (by omega), List.getElem?_replicate]
      by_cases hi : j < i
      · rw [if_pos hi, if_pos (by omega)]
      · rw [if_neg hi, if_neg (by omega)]

/-- an assignment takes effect or does nothing -/
theorem child_assign (c : Doc N A) (k : Key N) (t : Doc N A) :
    c.assign k t = c ∨ (c.assign k t).child k = some t := by
  cases c with
  | null => exact Or.inl rfl
  | scalar a => exact Or.inl rfl
  | mapping m =>
    refine Or.inr ?_
    show (setEntry k t m).lookup k = some t
    rw [lookup_setEntry, if_pos rfl]
  | list l =>
    cases k with
    | name s => exact Or.inl rfl
    | index i =>
      refine Or.inr ?_
      show (setItem i t l)[i]? = some t
      rw [getElem?_setItem, if_pos rfl]

theorem child_assign_takes {c : Doc N A} {k : Key N} (h : c.takes k = true) (t : Doc N A) :
    (c.assign k t).child k = some t := by
  rcases child_assign c k t with he | he
  · cases c with
    | null => cases h
    | scalar a => cases h
    | mapping m =>
      show (setEntry k t m).lookup k = some t
      rw [lookup_setEntry, if_pos rfl]
    | list l =>
      cases k with
      | name s => cases h
      | index i =>
        show (setItem i t l)[i]? = some t
        rw [getElem?_setItem, if_pos rfl]
  · exact he

theorem child_assign_ne (c : Doc N A) {k k' : Key N} (hk : k' ≠ k) (t : Doc N A) :
    (c.assign k t).child k' = c.child k' ∨
      (c.child k' = none ∧ (c.assign k t).child k' = some (.mapping []) ∧
        ∃ i j, k' = .index i ∧ k = .index j ∧ i < j) := by
  cases c with
  | null => exact Or.inl rfl
  | scalar a => exact Or.inl rfl
  | mapping m =>
    refine Or.inl ?_
    show (setEntry k t m).lookup k' = m.lookup k'
    rw [lookup_setEntry, if_neg hk]
  | list l =>
    cases k with
    | name s => exact Or.inl rfl
    | index j =>
      cases k' with
      | name s => exact Or.inl rfl
      | index i =>
        have hij : i ≠ j := fun he => hk (by rw [he])
        have hset : ((Doc.list l).assign (.index j) t).child (.index i) = (setItem j t l)[i]? := rfl
        have hold : (Doc.list l).child (.index i) = l[i]? := rfl
        rw [hset, hold, getElem?_setItem, if_neg hij]
        by_cases hl : i < l.length
        · rw [if_pos hl]
          exact Or.inl rfl
        · rw [if_neg hl, List.getElem?_eq_none (by omega)]
          by_cases hlt : i < j
          · rw [if_pos hlt]
            exact Or.inr ⟨rfl, rfl, i, j, rfl, rfl, hlt⟩
          · rw [if_neg hlt]
            exact Or.inl rfl

theorem takes_assign (c : Doc N A) (k k' : Key N) (t : Doc N A) :
    (c.assign k t).takes k' = c.takes k' := by
  cases c <;> cases k <;> cases k' <;> rfl

theorem takes_congr (c : Doc N A) {k k' : Key N} (h : k.isIndex = k'.isIndex) :
    c.takes k = c.takes k' := by
  cases c <;> cases k <;> cases k' <;> first | rfl | cases h

theorem takes_kind {c : Doc N A} {k k' : Key N} (h : c.takes k = true) (h' : c.takes k' = true) :
    k.isIndex = k'.isIndex := by
  cases c <;> cases k <;> cases k' <;> simp_all [takes, Key.isIndex]

theorem takes_fresh (k : Key N) : (fresh k : Doc N A).takes k = true := by
  cases k <;> rfl

theorem look_fresh (next k : Key N) (p : List (Key N)) : (fresh next : Doc N A).look (k :: p) = none := by
  cases next <;> cases k <;> rfl

/-! ## along a path -/

theorem look_cons (c : Doc N A) (k : Key N) (p : List (Key N)) :
    c.look (k :: p) = (c.child k).bind (fun t => t.look p) := rfl

theorem look_null (k : Key N) (p : List (Key N)) : (null : Doc N A).look (k :: p) = none := by
  cases k <;> rfl

theorem look_empty (k : Key N) (p : List (Key N)) : (mapping [] : Doc N A).look (k :: p) = none := by
  cases k <;> rfl

/-- what is opened at `k` holds what was there -/
theorem look_opened (c : Doc N A) (k next x : Key N) (q : List (Key N)) :
    (c.opened k next).look (x :: q) = c.look (k :: x :: q) := by
  rw [look_cons c]
  unfold opened
  split
  · rename_i h
    rw [h, look_fresh]
    rfl
  · rename_i h
    rw [h, look_fresh]
    exact (look_null x q).symm
  · rename_i t hnull h
    rw [h]
    rfl

/-- what is opened at `k` takes the next step, if the path fits -/
theorem Fits.opened {c : Doc N A} {k next : Key N} {p : List (Key N)} (h : Fits c (k :: next :: p)) :
    (c.opened k next).takes next = true ∧ Fits (c.opened k next) (next :: p) := by
  have htakes : (c.opened k next).takes next = true := by
    have hmeets := h [k] next ⟨p, rfl⟩
    rw [look_cons] at hmeets
    unfold Doc.opened
    split
    · exact takes_fresh next
    · exact takes_fresh next
    · rename_i t hnull ht
      rw [ht] at hmeets
      rcases hmeets with he | he | ⟨t', he, ht'⟩
      · cases he
      · exact absurd (Option.some.inj he) hnull
      · rwa [← Option.some.inj he] at ht'
  refine ⟨htakes, fun q x hq => ?_⟩
  cases q with
  | nil =>
    obtain ⟨r, hr⟩ := hq
    have hx : x = next := (List.cons.inj hr).1
    exact Or.inr (Or.inr ⟨_, rfl, hx ▸ htakes⟩)
  | cons y q =>
    rw [look_opened]
    exact h (k :: y :: q) x ((List.prefix_cons_inj k).mpr hq)

theorem fits_cons {c : Doc N A} {k : Key N} {p : List (Key N)} (h : Meets (some c) k)
    (hp : ∀ t, c.child k = some t → Fits t p) : Fits c (k :: p) := by
  intro q x hq
  cases q with
  | nil =>
    obtain ⟨r, hr⟩ := hq
    rw [(List.cons.inj hr).1]
    exact h
  | cons y q =>
    obtain ⟨rfl, hrest⟩ := List.cons_prefix_cons.mp hq
    rw [look_cons]
    cases ht : c.child y with
    | none => exact Or.inl rfl
    | some t => exact hp t ht q x hrest

theorem fits_nil (c : Doc N A) : Fits c [] := by
  intro q x hq
  have hlen := hq.length_le
  rw [List.length_append] at hlen
  exact absurd hlen (by simp)

def fitsFrom : Doc N A → List (Key N) → Bool
  | _, [] => true
  | .null, _ => true
  | c, k :: p => c.takes k && (match c.child k with
    | none => true
    | some t => fitsFrom t p)

theorem fitsFrom_iff (c : Doc N A) (p : List (Key N)) : fitsFrom c p = true ↔ Fits c p := by
  induction p generalizing c with
  | nil => exact iff_of_true (by unfold fitsFrom; rfl) (fits_nil c)
  | cons k p ih =>
    by_cases hnull : c = .null
    · subst hnull
      have hchild : (null : Doc N A).child k = none := by cases k <;> rfl
      refine iff_of_true (by unfold fitsFrom; rfl) (fits_cons (Or.inr (Or.inl rfl)) fun t ht => ?_)
      rw [hchild] at ht
      cases ht
    · have hstep : fitsFrom c (k :: p) = (c.takes k && (match c.child k with
          | none => true
          | some t => fitsFrom t p)) := by
        cases c <;> first | rfl | exact absurd rfl hnull
      rw [hstep, Bool.and_eq_true]
      constructor
      · rintro ⟨htakes, hrest⟩
        refine fits_cons (Or.inr (Or.inr ⟨c, rfl, htakes⟩)) fun t ht => ?_
        rw [ht] at hrest
        exact (ih t).mp hrest
      · intro h
        constructor
        · rcases h [] k ⟨p, rfl⟩ with he | he | ⟨t, he, ht⟩
          · cases he
          · exact absurd (Option.some.inj he) hnull
          · rwa [← Option.some.inj he] at ht
        · cases ht : c.child k with
          | none => rfl
          | some t =>
            refine (ih t).mpr fun q x hq => ?_
            have hx := h (k :: q) x ((List.prefix_cons_inj k).mpr hq)
            rw [look_cons, ht] at hx
            exact hx

instance (c : Doc N A) (p : List (Key N)) : Decidable (Fits c p) :=
  decidable_of_iff _ (fitsFrom_iff c p)

def sameKinds : List (Key N) → List (Key N) → Bool
  | x :: p, y :: q => x.isIndex = y.isIndex && (x ≠ y || sameKinds p q)
  | _, _ => true

theorem sameKinds_iff (p q : List (Key N)) : sameKinds p q = true ↔ Alike p q := by
  induction p generalizing q with
  | nil =>
    refine iff_of_true (by unfold sameKinds; rfl) fun c x y hx => ?_
    have hlen := hx.length_le
    simp at hlen
  | cons a p ih =>
    cases q with
    | nil =>
      refine iff_of_true (by unfold sameKinds; rfl) fun c x y _ hy => ?_
      have hlen := hy.length_le
      simp at hlen
    | cons b q =>
      unfold sameKinds
      rw [Bool.and_eq_true, Bool.or_eq_true, decide_eq_true_eq, decide_eq_true_eq, ih]
      constructor
      · rintro ⟨hkind, hrest⟩ c x y hx hy
        cases c with
        | nil =>
          obtain ⟨r, hr⟩ := hx
          obtain ⟨r', hr'⟩ := hy
          rw [(List.cons.inj hr).1, (List.cons.inj hr').1]
          exact hkind
        | cons d c =>
          obtain ⟨rfl, hp⟩ := List.cons_prefix_cons.mp hx
          obtain ⟨rfl, hq⟩ := List.cons_prefix_cons.mp hy
          exact (hrest.resolve_left fun hne => hne rfl) c x y hp hq
      · intro h
        refine ⟨h [] a b ⟨p, rfl⟩ ⟨q, rfl⟩, or_iff_not_imp_left.mpr fun he c x y hx hy => ?_⟩
        rw [not_not] at he
        subst he
        exact h (a :: c) x y ((List.prefix_cons_inj a).mpr hx) ((List.prefix_cons_inj a).mpr hy)

instance (p q : List (Key N)) : Decidable (Alike p q) := decidable_of_iff _ (sameKinds_iff p q)

theorem Fits.takes {c : Doc N A} {k : Key N} {p : List (Key N)} (h : Fits c (k :: p))
    (hc : c ≠ .null) : c.takes k = true := by
  rcases h [] k ⟨p, rfl⟩ with he | he | ⟨t, he, ht⟩
  · cases he
  · exact absurd (Option.some.inj he) hc
  · rwa [← Option.some.inj he] at ht

/-- **The path reads what was put there**, -/
theorem look_put {c : Doc N A} {p : List (Key N)} (hp : p ≠ []) (h : Fits c p) (hc : c ≠ .null)
    (t : Doc N A) : (c.put p t).look p = some t := by
  induction c, p, t using put.induct with
  | case1 c t => exact absurd rfl hp
  | case2 c k t =>
    show ((c.assign k t).child k).bind _ = _
    rw [child_assign_takes (h.takes hc)]
    rfl
  | case3 c k next p t ih =>
    obtain ⟨htakes, hfits⟩ := h.opened
    have hnull : c.opened k next ≠ .null := by
      intro he
      rw [he] at htakes
      cases htakes
    show ((c.assign k _).child k).bind _ = _
    rw [child_assign_takes (h.takes hc)]
    exact ih (by simp) hfits hnull

/-- on the way there are containers of the kind that the path asks for, -/
theorem takes_put {c : Doc N A} {p : List (Key N)} (h : Fits c p) (hc : c ≠ .null) (t : Doc N A)
    {q : List (Key N)} {k : Key N} (hq : q ++ [k] <+: p) :
    ∃ b, (c.put p t).look q = some b ∧ b.takes k = true := by
  induction c, p, t using put.induct generalizing q with
  | case1 c t => simp at hq
  | case2 c k' t =>
    cases q with
    | nil =>
      obtain ⟨r, hr⟩ := hq
      refine ⟨_, rfl, ?_⟩
      show (c.assign k' t).takes k = true
      rw [takes_assign, (List.cons.inj hr).1]
      exact h.takes hc
    | cons y q =>
      have hlen := hq.length_le
      simp at hlen
  | case3 c k' next p t ih =>
    cases q with
    | nil =>
      obtain ⟨r, hr⟩ := hq
      refine ⟨_, rfl, ?_⟩
      show (c.assign k' _).takes k = true
      rw [takes_assign, (List.cons.inj hr).1]
      exact h.takes hc
    | cons y q =>
      obtain ⟨htakes, hfits⟩ := h.opened
      have hnull : c.opened k' next ≠ .null := by
        intro he
        rw [he] at htakes
        cases htakes
      obtain ⟨rfl, hrest⟩ := List.cons_prefix_cons.mp hq
      show ∃ b, ((c.assign y _).child y).bind _ = some b ∧ _
      rw [child_assign_takes (h.takes hc)]
      exact ih hfits hnull hrest

theorem Below.cons {p q : List (Key N)} (k : Key N) (h : Below q p) : Below (k :: q) (k :: p) := by
  obtain ⟨c, i, j, rfl, hij, hp⟩ := h
  exact ⟨k :: c, i, j, rfl, hij, (List.prefix_cons_inj k).mpr hp⟩

theorem Apart.cons {p q : List (Key N)} {k : Key N} (h : Apart (k :: p) (k :: q)) : Apart p q :=
  ⟨fun hp => h.1 ((List.prefix_cons_inj k).mpr hp), fun hq => h.2 ((List.prefix_cons_inj k).mpr hq)⟩

/-- beside the assigned item -/
theorem look_assign_ne (c : Doc N A) {k y : Key N} (hy : y ≠ k) (p q : List (Key N)) (t : Doc N A) :
    (c.assign k t).look (y :: q) = c.look (y :: q) ∨ Padded [k :: p] c (c.assign k t) (y :: q) := by
  rcases child_assign_ne c hy t with he | ⟨hnone, hempty, i, j, rfl, rfl, hij⟩
  · rw [look_cons, look_cons, he]
    exact Or.inl rfl
  · cases q with
    | nil =>
      refine Or.inr ⟨?_, ?_, _, List.mem_singleton_self _, [], i, j, rfl, hij, ⟨p, rfl⟩⟩
      · rw [look_cons, hnone]
        rfl
      · rw [look_cons, hempty]
        rfl
    | cons z q =>
      rw [look_cons, look_cons c, hnone, hempty]
      exact Or.inl (look_empty z q)

/-- and elsewhere nothing changes, but for padding. -/
theorem look_put_other (c : Doc N A) {p q : List (Key N)} (t : Doc N A) (hpq : Apart p q) :
    (c.put p t).look q = c.look q ∨ Padded [p] c (c.put p t) q := by
  induction c, p, t using put.induct generalizing q with
  | case1 c t => exact absurd List.nil_prefix hpq.1
  | case2 c k t =>
    cases q with
    | nil => exact absurd List.nil_prefix hpq.2
    | cons y q =>
      have hy : y ≠ k := fun he => hpq.1 ⟨q, by rw [he]; rfl⟩
      exact look_assign_ne c hy [] q t
  | case3 c k next p t ih =>
    cases q with
    | nil => exact absurd List.nil_prefix hpq.2
    | cons y q =>
      by_cases hy : y = k
      · subst hy
        show (c.assign y _).look _ = _ ∨ Padded _ c (c.assign y _) _
        rcases child_assign c y ((c.opened y next).put (next :: p) t) with he | he
        · rw [he]
          exact Or.inl rfl
        · cases q with
          | nil => exact absurd ⟨next :: p, rfl⟩ hpq.2
          | cons x q =>
            have hlook : (c.assign y ((c.opened y next).put (next :: p) t)).look (y :: x :: q) =
                ((c.opened y next).put (next :: p) t).look (x :: q) := by
              rw [look_cons, he]
              rfl
            rcases ih hpq.cons with h | ⟨hnone, hempty, p', hp', hbelow⟩
            · rw [hlook, h, look_opened]
              exact Or.inl rfl
            · rw [List.mem_singleton.mp hp'] at hbelow
              rw [look_opened] at hnone
              exact Or.inr ⟨hnone, hlook.trans hempty, _, List.mem_singleton_self _, hbelow.cons y⟩
      · exact look_assign_ne c hy (next :: p) q _

/-! ## assignments one after the other -/

theorem put_ne_null {c : Doc N A} (hc : c ≠ .null) {p : List (Key N)} (t : Doc N A) :
    c.put p t ≠ .null := by
  have hassign : ∀ k (t : Doc N A), c.assign k t ≠ .null := by
    intro k t he
    cases c <;> cases k <;> first | exact hc he | cases he
  match p with
  | [] => exact hc
  | [k] => exact hassign k t
  | k :: next :: p => exact hassign k _

/-- a path that fits goes on fitting -/
theorem Fits.put {c : Doc N A} {p q : List (Key N)} (hq : Fits c q) (hp : Fits c p) (hc : c ≠ .null)
    (hpq : Apart p q) (halike : Alike p q) (hspaced : Spaced q) (t : Doc N A) :
    Fits (c.put p t) q := by
  intro r k hr
  by_cases hrp : r <+: p
  · obtain ⟨s, rfl⟩ := hrp
    cases s with
    | nil =>
      rw [List.append_nil] at hpq
      exact absurd ((List.prefix_append r [k]).trans hr) hpq.1
    | cons x s =>
      have hx : r ++ [x] <+: r ++ x :: s := ⟨s, by simp⟩
      obtain ⟨b, hb, htakes⟩ := takes_put hp hc t hx
      rw [takes_congr b (halike r x k hx hr)] at htakes
      exact Or.inr (Or.inr ⟨b, hb, htakes⟩)
  · have hapart : Apart p r :=
      ⟨fun h => hpq.1 (h.trans ((List.prefix_append r [k]).trans hr)), hrp⟩
    rcases look_put_other c t hapart with he | ⟨-, hempty, p', -, b, i, j, rfl, -, -⟩
    · rw [he]
      exact hq r k hr
    · refine Or.inr (Or.inr ⟨_, hempty, ?_⟩)
      cases k with
      | name s => rfl
      | index a =>
        obtain ⟨s, rfl⟩ := hr
        rw [Spaced, List.append_assoc, List.append_assoc] at hspaced
        have hnot := (List.isChain_cons_cons.mp hspaced.right_of_append).1 rfl
        cases hnot

def putAll (c : Doc N A) : List (List (Key N) × Doc N A) → Doc N A
  | [] => c
  | o :: os => putAll (c.put o.1 o.2) os

/-- the assignments do not get in each other's way, and fit -/
structure Clear (c : Doc N A) (ps : List (List (Key N))) : Prop where
  apart : ps.Pairwise Apart
  alike : ps.Pairwise Alike
  spaced : ∀ p ∈ ps, Spaced p
  fits : ∀ p ∈ ps, Fits c p
  nonempty : ∀ p ∈ ps, p ≠ []

theorem Clear.tail {c : Doc N A} (hc : c ≠ .null) {p : List (Key N)} {ps : List (List (Key N))}
    (h : Clear c (p :: ps)) (t : Doc N A) : Clear (c.put p t) ps := by
  obtain ⟨hapart, hapart'⟩ := List.pairwise_cons.mp h.apart
  obtain ⟨halike, halike'⟩ := List.pairwise_cons.mp h.alike
  refine ⟨hapart', halike', fun q hq => h.spaced q (List.mem_cons_of_mem _ hq), fun q hq => ?_,
    fun q hq => h.nonempty q (List.mem_cons_of_mem _ hq)⟩
  exact (h.fits q (List.mem_cons_of_mem _ hq)).put (h.fits p List.mem_cons_self) hc (hapart q hq)
    (halike q hq) (h.spaced q (List.mem_cons_of_mem _ hq)) t

/-- what is left elsewhere -/
theorem look_putAll_other (c : Doc N A) (os : List (List (Key N) × Doc N A)) {q : List (Key N)}
    (hq : ∀ o ∈ os, Apart o.1 q) :
    (putAll c os).look q = c.look q ∨ Padded (os.map (·.1)) c (putAll c os) q := by
  induction os generalizing c with
  | nil => exact Or.inl rfl
  | cons o os ih =>
    have hone := look_put_other c o.2 (hq o List.mem_cons_self)
    rcases ih (c.put o.1 o.2) fun o' ho' => hq o' (List.mem_cons_of_mem _ ho') with
      he | ⟨hnone, hempty, p, hp, hbelow⟩
    · rcases hone with hone | ⟨hnone, hempty, p, hp, hbelow⟩
      · exact Or.inl (he.trans hone)
      · rw [List.mem_singleton.mp hp] at hbelow
        exact Or.inr ⟨hnone, he.trans hempty, o.1, List.mem_cons_self, hbelow⟩
    · rcases hone with hone | ⟨-, hempty', -⟩
      · exact Or.inr ⟨hone ▸ hnone, hempty, p, List.mem_cons_of_mem _ hp, hbelow⟩
      · rw [hempty'] at hnone
        cases hnone

theorem apart_symm {p q : List (Key N)} (h : Apart p q) : Apart q p := ⟨h.2, h.1⟩

theorem alike_symm {p q : List (Key N)} (h : Alike p q) : Alike q p :=
  fun c x y hx hy => (h c y x hy hx).symm

/-- the order does not matter -/
theorem Clear.perm {c : Doc N A} {ps ps' : List (List (Key N))} (h : Clear c ps) (hp : ps'.Perm ps) :
    Clear c ps' :=
  ⟨(hp.pairwise_iff apart_symm).mpr h.apart, (hp.pairwise_iff alike_symm).mpr h.alike,
    fun p hmem => h.spaced p (hp.mem_iff.mp hmem), fun p hmem => h.fits p (hp.mem_iff.mp hmem),
    fun p hmem => h.nonempty p (hp.mem_iff.mp hmem)⟩

/-- **Every path reads what was put there**, and on its way there are the containers it asks for. -/
theorem putAll_spec {c : Doc N A} (hc : c ≠ .null) {os : List (List (Key N) × Doc N A)}
    (h : Clear c (os.map (·.1))) : ∀ o ∈ os, (putAll c os).look o.1 = some o.2 ∧
      ∀ q k, q ++ [k] <+: o.1 → ∃ b, (putAll c os).look q = some b ∧ b.takes k = true := by
  induction os generalizing c with
  | nil => exact fun o ho => absurd ho List.not_mem_nil
  | cons first os ih =>
    have hrest := ih (put_ne_null hc first.2) (h.tail hc first.2)
    obtain ⟨hapart, -⟩ := List.pairwise_cons.mp h.apart
    obtain ⟨halike, -⟩ := List.pairwise_cons.mp h.alike
    have hfits := h.fits first.1 List.mem_cons_self
    intro o ho
    rcases List.mem_cons.mp ho with rfl | ho
    · have hkeep : ∀ {q b}, (c.put o.1 o.2).look q = some b → (∀ o' ∈ os, Apart o'.1 q) →
          (putAll c (o :: os)).look q = some b := by
        intro q b hb hq
        rcases look_putAll_other (c.put o.1 o.2) os hq with he | ⟨hnone, -⟩
        · exact he.trans hb
        · rw [hb] at hnone
          cases hnone
      refine ⟨hkeep (look_put (h.nonempty _ List.mem_cons_self) hfits hc o.2) fun o' ho' =>
        apart_symm (hapart o'.1 (List.mem_map_of_mem ho')), fun q k hq => ?_⟩
      by_cases hway : ∃ o' ∈ os, q <+: o'.1
      · -- a later path goes on from there too
        obtain ⟨o', ho', s, hs⟩ := hway
        have hap := hapart o'.1 (List.mem_map_of_mem ho')
        cases s with
        | nil =>
          rw [List.append_nil] at hs
          exact absurd (hs ▸ (List.prefix_append q [k]).trans hq) hap.2
        | cons x s =>
          have hx : q ++ [x] <+: o'.1 := ⟨s, by rw [← hs]; simp⟩
          obtain ⟨b, hb, htakes⟩ := (hrest o' ho').2 q x hx
          rw [← takes_congr b (halike o'.1 (List.mem_map_of_mem ho') q k x hq hx)] at htakes
          exact ⟨b, hb, htakes⟩
      · obtain ⟨b, hb, htakes⟩ := takes_put hfits hc o.2 hq
        refine ⟨b, hkeep hb fun o' ho' => ⟨fun hle => ?_, fun hle => hway ⟨o', ho', hle⟩⟩, htakes⟩
        exact (hapart o'.1 (List.mem_map_of_mem ho')).2
          (hle.trans ((List.prefix_append q [k]).trans hq))
    · exact hrest o ho

end
end Trees
