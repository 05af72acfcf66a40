import BackupHelper.Lib.Trees

/-!
# Assignments in two orders

A document is what its paths read; the order of the entries of a mapping does not count.

* `Same`              no path tells the two documents apart;
* `child_assign_at`   what an assignment does to every item;
* `Loose p q`         neither path is on the way to the other one, they do not open one place as two
                      kinds of container, and neither pads a list where the other one opens an item;
* `put_swap`          **assignments at such paths may be swapped**.
-/

set_option linter.unusedSectionVars false

namespace Trees

/-- what a document is at its top -/
inductive Top (A : Type) where
  | null
  | scalar (a : A)
  | list
  | mapping
deriving DecidableEq

section
variable {N A : Type} [DecidableEq N]

open Doc

namespace Doc

def top : Doc N A → Top A
  | null => .null
  | scalar a => .scalar a
  | list _ => .list
  | mapping _ => .mapping

/-- no path tells them apart -/
def Same (c d : Doc N A) : Prop := ∀ p, (c.look p).map top = (d.look p).map top

end Doc

/-- both nothing, or the same -/
def SameItem (o o' : Option (Doc N A)) : Prop :=
  ∀ p, (o.bind fun c => c.look p).map top = (o'.bind fun c => c.look p).map top

theorem same_iff {c d : Doc N A} :
    c.Same d ↔ c.top = d.top ∧ ∀ k, SameItem (c.child k) (d.child k) := by
  constructor
  · intro h
    exact ⟨Option.some.inj (h []), fun k p => h (k :: p)⟩
  · rintro ⟨htop, hitem⟩ p
    cases p with
    | nil => exact congrArg some htop
    | cons k p => exact hitem k p

theorem same_equiv : Equivalence (Same : Doc N A → Doc N A → Prop) :=
  ⟨fun _ _ => rfl, fun h p => (h p).symm, fun h h' p => (h p).trans (h' p)⟩

theorem Doc.Same.item {c d : Doc N A} (h : c.Same d) : SameItem (some c) (some d) := h

theorem SameItem.refl (o : Option (Doc N A)) : SameItem o o := fun _ => rfl

theorem SameItem.none_iff {o o' : Option (Doc N A)} (h : SameItem o o') : o = none ↔ o' = none := by
  have hnil := h []
  cases o <;> cases o' <;> simp_all [look]

/-! ## one assignment -/

/-- an assignment at the key takes effect -/
def Top.accepts : Top A → Key N → Bool
  | .list, .index _ => true
  | .mapping, _ => true
  | _, _ => false

/-- an assignment at `k` puts an empty mapping where `k'` has nothing -/
def Top.pads : Top A → Key N → Key N → Bool
  | .list, .index j, .index i => i < j
  | _, _, _ => false

theorem top_assign (c : Doc N A) (k : Key N) (t : Doc N A) : (c.assign k t).top = c.top := by
  cases c <;> cases k <;> rfl

theorem child_assign_at (c : Doc N A) (k : Key N) (t : Doc N A) (x : Key N) :
    (c.assign k t).child x =
      if c.top.accepts k = true ∧ x = k then some t
      else if c.top.pads k x = true ∧ c.child x = none then some (.mapping []) else c.child x := by
  cases c with
  | null => rfl
  | scalar a => rfl
  | mapping m =>
    show (setEntry k t m).lookup x = _
    rw [lookup_setEntry]
    by_cases hx : x = k <;> simp [hx, Top.accepts, Top.pads, top, child]
  | list l =>
    cases k with
    | name s => simp [assign, Top.accepts, Top.pads, top]
    | index j =>
      cases x with
      | name s => simp [assign, child, Top.accepts, Top.pads, top]
      | index i =>
        show (setItem j t l)[i]? = _
        rw [getElem?_setItem]
        have hchild : (Doc.list l : Doc N A).child (.index i) = l[i]? := rfl
        rw [hchild]
        by_cases hij : i = j
        · simp [hij, Top.accepts, top]
        · by_cases hl : i < l.length
          · simp [hij, hl, top]
          · by_cases hlt : i < j <;> simp [hij, hl, hlt, Top.pads, top]

theorem pads_ne {c : Top A} {k x : Key N} (h : c.pads k x = true) : x ≠ k := by
  rintro rfl
  cases c <;> cases x <;> simp [Top.pads] at h

theorem pads_accepts {c : Top A} {k x : Key N} (h : c.pads k x = true) : c.accepts x = true := by
  cases c <;> cases k <;> cases x <;> simp_all [Top.pads, Top.accepts]

/-- the value of an assignment counts as what it reads, -/
theorem Doc.Same.assign {c d t u : Doc N A} (h : c.Same d) (k : Key N) (ht : t.Same u) :
    (c.assign k t).Same (d.assign k u) := by
  obtain ⟨htop, hitem⟩ := same_iff.mp h
  refine same_iff.mpr ⟨by rw [top_assign, top_assign, htop], fun x => ?_⟩
  rw [child_assign_at, child_assign_at, htop]
  have hnone := (hitem x).none_iff
  by_cases h1 : d.top.accepts k = true ∧ x = k
  · rw [if_pos h1, if_pos h1]
    exact ht.item
  · rw [if_neg h1, if_neg h1]
    by_cases h2 : d.top.pads k x = true ∧ d.child x = none
    · rw [if_pos h2, if_pos ⟨h2.1, hnone.mpr h2.2⟩]
      exact .refl _
    · rw [if_neg h2, if_neg fun h => h2 ⟨h.1, hnone.mp h.2⟩]
      exact hitem x

/-- of two at one key the second counts, -/
theorem assign_assign (c : Doc N A) (k : Key N) (t u : Doc N A) :
    ((c.assign k t).assign k u).Same (c.assign k u) := by
  refine same_iff.mpr ⟨by rw [top_assign, top_assign, top_assign], fun x => ?_⟩
  rw [child_assign_at (c.assign k t), child_assign_at c k u, top_assign]
  by_cases h1 : c.top.accepts k = true ∧ x = k
  · rw [if_pos h1, if_pos h1]
    exact .refl _
  · rw [if_neg h1, if_neg h1, child_assign_at, if_neg h1]
    by_cases h2 : c.top.pads k x = true ∧ c.child x = none
    · simp only [if_pos h2]
      rw [if_neg (by simp)]
      exact .refl _
    · rw [if_neg h2, if_neg h2]
      exact .refl _

/-- and two at different keys may be swapped. -/
theorem assign_swap (c : Doc N A) {k k' : Key N} (hk : k ≠ k') (t u : Doc N A) :
    ((c.assign k t).assign k' u).Same ((c.assign k' u).assign k t) := by
  refine same_iff.mpr ⟨by rw [top_assign, top_assign, top_assign, top_assign], fun x => ?_⟩
  have hitem : ((c.assign k t).assign k' u).child x = ((c.assign k' u).assign k t).child x := by
    rw [child_assign_at (c.assign k t), child_assign_at (c.assign k' u), top_assign, top_assign,
      child_assign_at c k, child_assign_at c k']
    by_cases h1 : x = k
    · subst h1
      have hpad : c.top.pads x x = false := by
        by_contra h
        exact pads_ne (Bool.not_eq_false _ ▸ h) rfl
      by_cases h2 : c.top.accepts x = true
      · simp [hk, h2]
      · have hnot : ¬ c.top.pads k' x = true := fun h => h2 (pads_accepts h)
        simp [hk, h2, hpad, hnot]
    · by_cases h2 : x = k'
      · subst h2
        have hpad : c.top.pads x x = false := by
          by_contra h
          exact pads_ne (Bool.not_eq_false _ ▸ h) rfl
        by_cases h3 : c.top.accepts x = true
        · simp [h1, h3]
        · have hnot : ¬ c.top.pads k x = true := fun h => h3 (pads_accepts h)
          simp [h1, h3, hpad, hnot]
      · by_cases hn : c.child x = none <;> by_cases hp : c.top.pads k x = true <;>
          by_cases hp' : c.top.pads k' x = true <;> simp [h1, h2, hn, hp, hp']
  rw [hitem]
  exact .refl _

/-! ## along a path -/

/-- what is there, or the container that the step `next` asks for -/
def openAt (o : Option (Doc N A)) (next : Key N) : Doc N A :=
  match o with
  | none => fresh next
  | some .null => fresh next
  | some c => c

/-- what is put at the first key of a path, where `o` is -/
def newItem (o : Option (Doc N A)) (p : List (Key N)) (t : Doc N A) : Doc N A :=
  match p with
  | [] => t
  | next :: p => (openAt o next).put (next :: p) t

theorem put_cons (c : Doc N A) (k : Key N) (p : List (Key N)) (t : Doc N A) :
    c.put (k :: p) t = c.assign k (newItem (c.child k) p t) := by
  cases p <;> rfl

theorem openAt_same {o o' : Option (Doc N A)} (h : SameItem o o') (next : Key N) :
    (openAt o next).Same (openAt o' next) := by
  cases o with
  | none =>
    rw [h.none_iff.mp rfl]
    exact same_equiv.refl _
  | some c =>
    cases o' with
    | none => exact absurd (h.none_iff.mpr rfl) (by simp)
    | some d =>
      have htop : c.top = d.top := Option.some.inj (h [])
      cases c <;> cases d <;> first | exact same_equiv.refl _ | exact h | cases htop

theorem openAt_congr (o : Option (Doc N A)) {x y : Key N} (h : x.isIndex = y.isIndex) :
    openAt o x = openAt o y := by
  have hfresh : (fresh x : Doc N A) = fresh y := by
    unfold fresh
    rw [h]
  unfold openAt
  split
  · exact hfresh
  · exact hfresh
  · rfl

theorem openAt_ne_null (o : Option (Doc N A)) (next : Key N) : openAt o next ≠ .null := by
  have hfresh : (fresh next : Doc N A) ≠ .null := by
    unfold fresh
    split <;> simp
  unfold openAt
  split
  · exact hfresh
  · exact hfresh
  · rename_i c hc
    exact hc

theorem openAt_some {c : Doc N A} (h : c ≠ .null) (next : Key N) : openAt (some c) next = c := by
  cases c <;> first | rfl | exact absurd rfl h

/-- what an assignment along a path comes to depends on what the paths read -/
theorem Doc.Same.put {c d t u : Doc N A} (h : c.Same d) (p : List (Key N)) (ht : t.Same u) :
    (c.put p t).Same (d.put p u) := by
  induction p generalizing c d with
  | nil => exact h
  | cons k p ih =>
    rw [put_cons, put_cons]
    refine Doc.Same.assign h k ?_
    cases p with
    | nil => exact ht
    | cons next p => exact ih (openAt_same ((same_iff.mp h).2 k) next)

/-- neither path is on the way to the other one, they do not open a place as containers of two kinds,
and neither pads a list at an index where the other one goes on by an index -/
structure Loose (p q : List (Key N)) : Prop where
  apart : Apart p q
  alike : Alike p q
  left : ∀ c i j k, c ++ [.index j] <+: p → c ++ [.index i, .index k] <+: q → j ≤ i
  right : ∀ c i j k, c ++ [.index j] <+: q → c ++ [.index i, .index k] <+: p → j ≤ i

theorem Loose.cons {p q : List (Key N)} {k : Key N} (h : Loose (k :: p) (k :: q)) : Loose p q where
  apart := h.apart.cons
  alike c x y hx hy := h.alike (k :: c) x y ((List.prefix_cons_inj k).mpr hx) ((List.prefix_cons_inj k).mpr hy)
  left c i j l hj hi := h.left (k :: c) i j l ((List.prefix_cons_inj k).mpr hj) ((List.prefix_cons_inj k).mpr hi)
  right c i j l hj hi :=
    h.right (k :: c) i j l ((List.prefix_cons_inj k).mpr hj) ((List.prefix_cons_inj k).mpr hi)

/-- where they part, `p` goes on by an index above the one by which `q` goes on, to an index again -/
def padsInto : List (Key N) → List (Key N) → Bool
  | x :: p, y :: q =>
    if x = y then padsInto p q
    else match x, y, q with
      | .index j, .index i, .index _ :: _ => i < j
      | _, _, _ => false
  | _, _ => false

theorem padsInto_iff (p q : List (Key N)) : padsInto p q = false ↔
    ∀ c i j k, c ++ [.index j] <+: p → c ++ [.index i, .index k] <+: q → j ≤ i := by
  induction p generalizing q with
  | nil =>
    refine iff_of_true (by unfold padsInto; rfl) fun c i j k hp => ?_
    have hlen := hp.length_le
    simp at hlen
  | cons x p ih =>
    cases q with
    | nil =>
      refine iff_of_true (by unfold padsInto; rfl) fun c i j k _ hq => ?_
      have hlen := hq.length_le
      simp at hlen
    | cons y q =>
      unfold padsInto
      by_cases hxy : x = y
      · subst hxy
        rw [if_pos rfl, ih]
        constructor
        · intro h c i j k hp hq
          cases c with
          | nil =>
            obtain ⟨r, hr⟩ := hp
            obtain ⟨r', hr'⟩ := hq
            have hij : Key.index j = (Key.index i : Key N) := (List.cons.inj hr).1.trans (List.cons.inj hr').1.symm
            exact le_of_eq (Key.index.inj hij)
          | cons d c =>
            obtain ⟨rfl, hp'⟩ := List.cons_prefix_cons.mp hp
            exact h c i j k hp' (List.cons_prefix_cons.mp hq).2
        · intro h c i j k hp hq
          exact h (x :: c) i j k ((List.prefix_cons_inj x).mpr hp) ((List.prefix_cons_inj x).mpr hq)
      · rw [if_neg hxy]
        -- the paths part here
        have hnil : ∀ c i j k, c ++ [.index j] <+: x :: p → c ++ [.index i, .index k] <+: y :: q → c = [] := by
          intro c i j k hp hq
          cases c with
          | nil => rfl
          | cons d c =>
            obtain ⟨rfl, -⟩ := List.cons_prefix_cons.mp hp
            exact absurd (List.cons_prefix_cons.mp hq).1 hxy
        constructor
        · intro h c i j k hp hq
          obtain rfl := hnil c i j k hp hq
          obtain ⟨r, hr⟩ := hp
          obtain ⟨r', hr'⟩ := hq
          obtain ⟨rfl, -⟩ := List.cons.inj hr
          obtain ⟨rfl, rfl⟩ := List.cons.inj hr'
          simpa using h
        · intro h
          split
          · rename_i j i k q'
            simpa using h [] i j k ⟨p, rfl⟩ ⟨q', rfl⟩
          · rfl

instance (p q : List (Key N)) : Decidable (Loose p q) :=
  decidable_of_iff (Apart p q ∧ Alike p q ∧ padsInto p q = false ∧ padsInto q p = false)
    ⟨fun h => ⟨h.1, h.2.1, (padsInto_iff p q).mp h.2.2.1, (padsInto_iff q p).mp h.2.2.2⟩,
      fun h => ⟨h.apart, h.alike, (padsInto_iff p q).mpr h.left, (padsInto_iff q p).mpr h.right⟩⟩

/-- what is put beside an assignment is what is put without it -/
theorem newItem_beside (c : Doc N A) {k k' : Key N} (hk : k' ≠ k) (v : Doc N A) {q : List (Key N)}
    (hpad : ∀ i j l, k = .index j → k' = .index i → [.index l] <+: q → j ≤ i) (u : Doc N A) :
    newItem ((c.assign k v).child k') q u = newItem (c.child k') q u := by
  rcases child_assign_ne c hk v with he | ⟨hnone, hempty, i, j, rfl, rfl, hij⟩
  · rw [he]
  · rw [hnone, hempty]
    cases q with
    | nil => rfl
    | cons next q =>
      cases next with
      | name s => rfl
      | index l => exact absurd (hpad i j l rfl rfl ⟨q, rfl⟩) (by omega)

/-- assignments at two first keys -/
theorem put_swap_ne (c : Doc N A) {k k' : Key N} (hk : k ≠ k') {p q : List (Key N)}
    (hq : ∀ i j l, k = .index j → k' = .index i → [.index l] <+: q → j ≤ i)
    (hp : ∀ i j l, k' = .index j → k = .index i → [.index l] <+: p → j ≤ i) (t u : Doc N A) :
    ((c.put (k :: p) t).put (k' :: q) u).Same ((c.put (k' :: q) u).put (k :: p) t) := by
  rw [put_cons c, put_cons c, put_cons, put_cons, newItem_beside c (Ne.symm hk) _ hq,
    newItem_beside c hk _ hp]
  exact assign_swap c hk _ _

/-- assignments below one first key -/
theorem put_swap_cons (c : Doc N A) (k : Key N) {p q : List (Key N)} (hp : p ≠ []) (hq : q ≠ [])
    (hkind : ∀ x y, [x] <+: p → [y] <+: q → x.isIndex = y.isIndex) {t u : Doc N A}
    (h : ∀ d : Doc N A, ((d.put p t).put q u).Same ((d.put q u).put p t)) :
    ((c.put (k :: p) t).put (k :: q) u).Same ((c.put (k :: q) u).put (k :: p) t) := by
  obtain ⟨x, p, rfl⟩ := List.exists_cons_of_ne_nil hp
  obtain ⟨y, q, rfl⟩ := List.exists_cons_of_ne_nil hq
  have hopen := openAt_congr (c.child k) (hkind x y ⟨p, rfl⟩ ⟨q, rfl⟩)
  have hboth : ∀ (x y : Key N) (p q : List (Key N)) (t u : Doc N A), openAt (c.child k) x = openAt (c.child k) y →
      ((c.put (k :: x :: p) t).put (k :: y :: q) u).Same
        (c.assign k (((openAt (c.child k) x).put (x :: p) t).put (y :: q) u)) := by
    intro x y p q t u he
    have hne : (openAt (c.child k) x).put (x :: p) t ≠ .null := put_ne_null (openAt_ne_null _ x) t
    have hfirst : c.put (k :: x :: p) t = c.assign k ((openAt (c.child k) x).put (x :: p) t) := put_cons c k _ t
    rw [hfirst, put_cons]
    by_cases hacc : c.top.accepts k = true
    · rw [child_assign_at, if_pos ⟨hacc, rfl⟩]
      show ((c.assign k _).assign k ((openAt (some _) y).put (y :: q) u)).Same _
      rw [openAt_some hne]
      exact assign_assign c k _ _
    · -- the assignment does nothing
      have hsame : ∀ (d v : Doc N A), d.top = c.top → (d.assign k v).Same d := by
        intro d v hd
        refine same_iff.mpr ⟨top_assign d k v, fun z => ?_⟩
        have hnot : ¬ d.top.pads k z = true := by
          rw [hd]
          intro hpad
          cases c <;> cases k <;> cases z <;> simp_all [Top.pads, Top.accepts, top]
        rw [child_assign_at, if_neg (fun h => hacc (hd ▸ h.1)), if_neg fun h => hnot h.1]
        exact .refl _
      refine same_equiv.trans (hsame _ _ (top_assign c k _)) ?_
      exact same_equiv.trans (hsame c _ rfl) (same_equiv.symm (hsame c _ rfl))
  refine same_equiv.trans (hboth x y p q t u hopen)
    (same_equiv.trans ?_ (same_equiv.symm (hboth y x q p u t hopen.symm)))
  rw [← hopen]
  exact Doc.Same.assign (same_equiv.refl c) k (h _)

/-- **Assignments at loose paths may be swapped.** -/
theorem put_swap {p q : List (Key N)} (h : Loose p q) (c t u : Doc N A) :
    ((c.put p t).put q u).Same ((c.put q u).put p t) := by
  induction p generalizing c q with
  | nil => exact absurd List.nil_prefix h.apart.1
  | cons k p ih =>
    cases q with
    | nil => exact absurd List.nil_prefix h.apart.2
    | cons k' q =>
      by_cases hk : k = k'
      · subst hk
        refine put_swap_cons c k ?_ ?_ (fun x y hx hy => h.cons.alike [] x y hx hy) fun d => ih h.cons d
        · rintro rfl
          exact h.cons.apart.1 List.nil_prefix
        · rintro rfl
          exact h.cons.apart.2 List.nil_prefix
      · refine put_swap_ne c hk (fun i j l hj hi hl => ?_) (fun i j l hj hi hl => ?_) t u
        · subst hj hi
          exact h.left [] i j l ⟨p, rfl⟩ ((List.prefix_cons_inj _).mpr hl)
        · subst hj hi
          exact h.right [] i j l ⟨q, rfl⟩ ((List.prefix_cons_inj _).mpr hl)

/-- paths into a mapping are free of each other unless they share their first key, and below it get in
each other's way -/
def Free (p q : List (Key N)) : Prop := ∀ k p' q', p = k :: p' → q = k :: q' → Loose p' q'

theorem free_cons {k k' : Key N} {p q : List (Key N)} : Free (k :: p) (k' :: q) ↔ k ≠ k' ∨ Loose p q := by
  constructor
  · intro h
    refine or_iff_not_imp_left.mpr fun hk => ?_
    rw [not_not] at hk
    exact h k p q rfl (by rw [hk])
  · rintro h x p' q' hp hq
    obtain ⟨rfl, rfl⟩ := List.cons.inj hp
    obtain ⟨rfl, rfl⟩ := List.cons.inj hq
    exact h.resolve_left fun hk => hk rfl

instance : (p q : List (Key N)) → Decidable (Free p q)
  | [], _ => isTrue fun _ _ _ h => by cases h
  | _ :: _, [] => isTrue fun _ _ _ _ h => by cases h
  | _ :: _, _ :: _ => decidable_of_iff _ free_cons.symm

theorem mapping_put (m : List (Key N × Doc N A)) (p : List (Key N)) (t : Doc N A) :
    ∃ m', (Doc.mapping m).put p t = .mapping m' := by
  cases p with
  | nil => exact ⟨m, rfl⟩
  | cons k p =>
    rw [put_cons]
    exact ⟨_, rfl⟩

/-- **Assignments into a mapping, at free paths** -/
theorem put_swap_free {p q : List (Key N)} (h : Free p q) (m : List (Key N × Doc N A)) (t u : Doc N A) :
    (((Doc.mapping m).put p t).put q u).Same (((Doc.mapping m).put q u).put p t) := by
  cases p with
  | nil => exact same_equiv.refl _
  | cons k p =>
    cases q with
    | nil => exact same_equiv.refl _
    | cons k' q =>
      by_cases hk : k = k'
      · subst hk
        have hloose := h k p q rfl rfl
        refine put_swap_cons _ k ?_ ?_ (fun x y hx hy => hloose.alike [] x y hx hy) fun d => put_swap hloose d t u
        · rintro rfl
          exact hloose.apart.1 List.nil_prefix
        · rintro rfl
          exact hloose.apart.2 List.nil_prefix
      · rw [put_cons (.mapping m), put_cons (.mapping m), put_cons, put_cons]
        -- a mapping is not padded
        have hbeside : ∀ (k k' : Key N) (v : Doc N A), k' ≠ k →
            ((Doc.mapping m).assign k v).child k' = (Doc.mapping m).child k' := by
          intro k k' v hne
          show (setEntry k v m).lookup k' = m.lookup k'
          rw [lookup_setEntry, if_neg hne]
        rw [hbeside k k' _ (Ne.symm hk), hbeside k' k _ hk]
        exact assign_swap _ hk _ _

end
end Trees
