import BackupHelper.Lib.Trees
import Mathlib.Data.List.Infix

/-!
# Merging documents, and reading their scalars anew

* `merge`               mappings are merged entry by entry; anything else takes the place of what was there;
* `look_merge`          **a path in a merged document**: as long as both are mappings, both show through;
* `rewrite f`           every scalar read anew by `f`, which may fail;
* `look_rewrite`        a path in a document that was read anew;
* `rewrite_ok_iff`      **it fails exactly at a scalar that cannot be read**;
* `shape_rewrite`       **what is read never changes the shape**.
-/

set_option linter.unusedSectionVars false

namespace Trees
namespace Doc

variable {N A B E : Type} [DecidableEq N]

/-! ## merging -/

mutual
/-- `v` over what is there -/
def mergeItem : Option (Doc N A) → Doc N A → Doc N A
  | some (.mapping b), .mapping o => .mapping (mergeEntries b o)
  | _, v => v

/-- `o` over the entries `r`, one after the other -/
def mergeEntries (r : List (Key N × Doc N A)) : List (Key N × Doc N A) → List (Key N × Doc N A)
  | [] => r
  | (k, v) :: o => mergeEntries (setEntry k (mergeItem (r.lookup k) v) r) o
end

def merge (b o : Doc N A) : Doc N A := mergeItem (some b) o

def isMapping : Doc N A → Bool
  | .mapping _ => true
  | _ => false

/-- the keys of every mapping are distinct -/
def Tidy (d : Doc N A) : Prop := ∀ p m, d.look p = some (.mapping m) → (m.map (·.1)).Nodup

/-- up to where `o` has nothing, both have mappings along the way -/
def Overlaid (b o : Doc N A) (p : List (Key N)) : Prop :=
  ∀ q, q <+: p → q ≠ p → ∀ v, o.look q = some v → v.isMapping = true ∧ ∃ m, b.look q = some (.mapping m)

/-- one item over another, where there are such -/
def blend (b o : Option (Doc N A)) : Option (Doc N A) :=
  match o with
  | none => b
  | some v => some (mergeItem b v)

theorem mergeItem_other {b : Option (Doc N A)} {v : Doc N A}
    (h : ¬ (v.isMapping = true ∧ ∃ m, b = some (.mapping m))) : mergeItem b v = v := by
  cases v with
  | mapping o =>
    cases b with
    | none => rw [mergeItem]; simp
    | some t =>
      cases t with
      | mapping m => exact absurd ⟨rfl, m, rfl⟩ h
      | _ => rw [mergeItem]; simp
  | _ => rw [mergeItem]; simp

theorem mergeItem_mapping (b o : List (Key N × Doc N A)) :
    mergeItem (some (.mapping b)) (.mapping o) = .mapping (mergeEntries b o) := by rw [mergeItem]

theorem Tidy.child {d t : Doc N A} (h : d.Tidy) {k : Key N} (ht : d.child k = some t) : t.Tidy := by
  intro p m hm
  apply h (k :: p) m
  show (d.child k).bind (fun t => t.look p) = _
  rw [ht]
  exact hm

/-- an entry of the merged mapping -/
theorem lookup_mergeEntries {o : List (Key N × Doc N A)} (h : (o.map (·.1)).Nodup)
    (r : List (Key N × Doc N A)) (k : Key N) : (mergeEntries r o).lookup k = blend (r.lookup k) (o.lookup k) := by
  induction o generalizing r with
  | nil =>
    rw [mergeEntries]
    rfl
  | cons e o ih =>
    obtain ⟨k₁, v⟩ := e
    obtain ⟨hnew, hrest⟩ := List.nodup_cons.mp h
    rw [mergeEntries, ih hrest, lookup_setEntry, lookup_entry]
    by_cases hk : k = k₁
    · subst hk
      have hnone : o.lookup k = none := by
        rw [List.lookup_eq_none_iff]
        intro x hx
        simp only [bne_iff_ne, ne_eq]
        rintro rfl
        exact hnew (List.mem_map.mpr ⟨x, hx, rfl⟩)
      rw [if_pos rfl, if_pos rfl, hnone]
      rfl
    · rw [if_neg hk, if_neg hk]

theorem setEntry_new {k : Key N} {m : List (Key N × Doc N A)} (h : k ∉ m.map (·.1)) (t : Doc N A) :
    setEntry k t m = m ++ [(k, t)] := by
  induction m with
  | nil => rfl
  | cons e m ih =>
    obtain ⟨hne, hrest⟩ := not_or.mp (mt List.mem_cons.mpr h)
    unfold setEntry
    rw [if_neg hne, ih hrest]
    rfl

/-- new entries come behind the others -/
theorem mergeEntries_new {r o : List (Key N × Doc N A)} (h : ((r ++ o).map (·.1)).Nodup) :
    mergeEntries r o = r ++ o := by
  induction o generalizing r with
  | nil => rw [mergeEntries, List.append_nil]
  | cons e o ih =>
    obtain ⟨k, v⟩ := e
    have hnew : k ∉ r.map (·.1) := by
      rw [List.map_append, List.map_cons] at h
      exact fun hk => (List.nodup_append.mp h).2.2 k hk k List.mem_cons_self rfl
    have hnone : r.lookup k = none := by
      rw [List.lookup_eq_none_iff]
      intro x hx
      simp only [bne_iff_ne, ne_eq]
      rintro rfl
      exact hnew (List.mem_map.mpr ⟨x, hx, rfl⟩)
    have hfresh : mergeItem none v = v := mergeItem_other (by simp)
    rw [mergeEntries, hnone, hfresh, setEntry_new hnew, ih, List.append_assoc]
    · rfl
    · rw [List.append_assoc]
      exact h

theorem overlaid_cons {b o : Doc N A} {k : Key N} {p : List (Key N)} : Overlaid b o (k :: p) ↔
    (o.isMapping = true ∧ ∃ m, b = .mapping m) ∧ ∀ v, o.child k = some v → p = [] ∨
      ∃ t, b.child k = some t ∧ Overlaid t v p := by
  constructor
  · intro h
    obtain ⟨hmap, m, hm⟩ := h [] List.nil_prefix nofun o rfl
    refine ⟨⟨hmap, m, Option.some.inj hm⟩, fun v hv => or_iff_not_imp_left.mpr fun hp => ?_⟩
    -- below the entry, the rest of the path
    have hbelow : ∀ q, q <+: p → q ≠ p → ∀ u, v.look q = some u →
        u.isMapping = true ∧ ∃ m, (b.child k).bind (·.look q) = some (.mapping m) := by
      intro q hq hne u hu
      apply h (k :: q) ((List.cons_prefix_cons).mpr ⟨rfl, hq⟩) (fun he => hne (List.cons.inj he).2) u
      rw [look_cons, hv]
      exact hu
    obtain ⟨-, m', hm'⟩ := hbelow [] List.nil_prefix (Ne.symm hp) v rfl
    obtain ⟨t, ht, -⟩ := Option.bind_eq_some_iff.mp hm'
    refine ⟨t, ht, fun q hq hne u hu => ?_⟩
    have hu' := hbelow q hq hne u hu
    rw [ht] at hu'
    exact hu'
  · rintro ⟨⟨hmap, m, rfl⟩, h⟩ q hq hne u hu
    rcases List.prefix_cons_iff.mp hq with rfl | ⟨q', rfl, hq'⟩
    · obtain rfl := Option.some.inj hu
      exact ⟨hmap, m, rfl⟩
    · rw [look_cons] at hu ⊢
      obtain ⟨v, hv, hu⟩ := Option.bind_eq_some_iff.mp hu
      rcases h v hv with rfl | ⟨t, ht, hover⟩
      · rw [List.prefix_nil.mp hq'] at hne
        exact absurd rfl hne
      · rw [ht]
        exact hover q' hq' (fun he => hne (by rw [he])) u hu

mutual
/-- `Tidy`, as a test -/
def tidy : Doc N A → Bool
  | .mapping m => (m.map (·.1)).Nodup && tidyEntries m
  | .list l => tidyItems l
  | _ => true

def tidyItems : List (Doc N A) → Bool
  | [] => true
  | d :: l => d.tidy && tidyItems l

def tidyEntries : List (Key N × Doc N A) → Bool
  | [] => true
  | (_, d) :: m => d.tidy && tidyEntries m
end

theorem tidyItems_get {l : List (Doc N A)} (h : tidyItems l = true) {i : ℕ} {t : Doc N A} (ht : l[i]? = some t) :
    t.tidy = true := by
  induction l generalizing i with
  | nil => cases ht
  | cons d l ih =>
    rw [tidyItems, Bool.and_eq_true] at h
    cases i with
    | zero =>
      obtain rfl := Option.some.inj ht
      exact h.1
    | succ i => exact ih h.2 ht

theorem tidyEntries_lookup {m : List (Key N × Doc N A)} (h : tidyEntries m = true) {k : Key N} {t : Doc N A}
    (ht : m.lookup k = some t) : t.tidy = true := by
  induction m with
  | nil => cases ht
  | cons e m ih =>
    obtain ⟨k₁, d⟩ := e
    rw [tidyEntries, Bool.and_eq_true] at h
    rw [lookup_entry] at ht
    split at ht
    · obtain rfl := Option.some.inj ht
      exact h.1
    · exact ih h.2 ht

theorem tidy_sound {d : Doc N A} (h : d.tidy = true) : d.Tidy := by
  intro p m hm
  induction p generalizing d with
  | nil =>
    obtain rfl := Option.some.inj hm
    rw [tidy, Bool.and_eq_true] at h
    exact of_decide_eq_true h.1
  | cons k p ih =>
    rw [look_cons] at hm
    obtain ⟨t, ht, hm⟩ := Option.bind_eq_some_iff.mp hm
    -- one step down
    have hstep : t.tidy = true := by
      cases d with
      | mapping r =>
        rw [tidy, Bool.and_eq_true] at h
        exact tidyEntries_lookup h.2 ht
      | list l =>
        rw [tidy] at h
        cases k with
        | name s => cases ht
        | index i => exact tidyItems_get h ht
      | _ => cases ht
    exact ih hstep hm

/-- **A path in a merged document.** -/
theorem look_merge {b o : Doc N A} (h : o.Tidy) (p : List (Key N)) :
    (Overlaid b o p → (merge b o).look p = blend (b.look p) (o.look p)) ∧
      (¬ Overlaid b o p → (merge b o).look p = o.look p) := by
  induction p generalizing b o with
  | nil =>
    refine ⟨fun _ => rfl, fun hnot => absurd (fun q hq hne => ?_) hnot⟩
    exact absurd (List.prefix_nil.mp hq) hne
  | cons k p ih =>
    by_cases hboth : o.isMapping = true ∧ ∃ m, b = .mapping m
    · obtain ⟨hmap, m, rfl⟩ := hboth
      obtain ⟨n, rfl⟩ : ∃ n, o = .mapping n := by
        cases o with
        | mapping n => exact ⟨n, rfl⟩
        | _ => cases hmap
      have hchild : (merge (.mapping m) (.mapping n)).child k = blend (m.lookup k) (n.lookup k) := by
        unfold merge
        rw [mergeItem_mapping]
        exact lookup_mergeEntries (h [] n rfl) m k
      rw [overlaid_cons, look_cons, look_cons, look_cons, hchild]
      show ((_ ∧ ∀ v, n.lookup k = some v → p = [] ∨ ∃ t, m.lookup k = some t ∧ Overlaid t v p) → _ =
          blend ((m.lookup k).bind (·.look p)) ((n.lookup k).bind (·.look p))) ∧
        (¬ (_ ∧ ∀ v, n.lookup k = some v → p = [] ∨ ∃ t, m.lookup k = some t ∧ Overlaid t v p) → _ =
          (n.lookup k).bind (·.look p))
      cases hn : n.lookup k with
      | none =>
        refine ⟨fun _ => rfl, fun hnot => absurd ⟨⟨rfl, m, rfl⟩, fun v hv => ?_⟩ hnot⟩
        cases hv
      | some v =>
        have hv : v.Tidy := h.child (show (Doc.mapping n).child k = some v from hn)
        cases hm : m.lookup k with
        | none =>
          have hfresh : mergeItem none v = v := mergeItem_other (by simp)
          show (_ → (mergeItem none v).look p = blend none (v.look p)) ∧
            (_ → (mergeItem none v).look p = v.look p)
          rw [hfresh]
          refine ⟨fun hover => ?_, fun _ => rfl⟩
          rcases hover.2 v rfl with rfl | ⟨t, ht, -⟩
          · show some v = some (mergeItem none v)
            rw [hfresh]
          · cases ht
        | some t =>
          obtain ⟨hyes, hno⟩ := ih (b := t) hv
          show (_ → (merge t v).look p = blend (t.look p) (v.look p)) ∧ (_ → (merge t v).look p = v.look p)
          refine ⟨fun hover => ?_, fun hnot => hno fun hover => hnot ?_⟩
          · rcases hover.2 v rfl with rfl | ⟨t', ht, hover⟩
            · rfl
            · obtain rfl := Option.some.inj ht
              exact hyes hover
          · refine ⟨⟨rfl, m, rfl⟩, fun u hu => Or.inr ⟨t, rfl, ?_⟩⟩
            rw [← Option.some.inj hu]
            exact hover
    · have hsame : merge b o = o := by
        apply mergeItem_other
        rintro ⟨hmap, m, hm⟩
        exact hboth ⟨hmap, m, Option.some.inj hm⟩
      rw [hsame]
      exact ⟨fun hover => absurd (overlaid_cons.mp hover).1 hboth, fun _ => rfl⟩

/-! ## reading the scalars anew -/

mutual
def rewrite (f : A → Except E B) : Doc N A → Except E (Doc N B)
  | .null => .ok .null
  | .scalar a => (f a).map .scalar
  | .list l => (rewriteItems f l).map .list
  | .mapping m => (rewriteEntries f m).map .mapping

def rewriteItems (f : A → Except E B) : List (Doc N A) → Except E (List (Doc N B))
  | [] => .ok []
  | d :: l =>
    match rewrite f d with
    | .error e => .error e
    | .ok d' => (rewriteItems f l).map (d' :: ·)

def rewriteEntries (f : A → Except E B) : List (Key N × Doc N A) → Except E (List (Key N × Doc N B))
  | [] => .ok []
  | (k, d) :: m =>
    match rewrite f d with
    | .error e => .error e
    | .ok d' => (rewriteEntries f m).map ((k, d') :: ·)
end

mutual
/-- the document without what its scalars are -/
def shape : Doc N A → Doc N Unit
  | .null => .null
  | .scalar _ => .scalar ()
  | .list l => .list (shapeItems l)
  | .mapping m => .mapping (shapeEntries m)

def shapeItems : List (Doc N A) → List (Doc N Unit)
  | [] => []
  | d :: l => d.shape :: shapeItems l

def shapeEntries : List (Key N × Doc N A) → List (Key N × Doc N Unit)
  | [] => []
  | (k, d) :: m => (k, d.shape) :: shapeEntries m
end

section
variable {f : A → Except E B}

theorem map_eq_ok {α β : Type} {g : α → β} {x : Except E α} {b : β} : x.map g = .ok b ↔ ∃ a, x = .ok a ∧ g a = b := by
  cases x with
  | error e =>
    constructor
    · intro h
      cases h
    · rintro ⟨a, h, -⟩
      cases h
  | ok a =>
    constructor
    · intro h
      exact ⟨a, rfl, Except.ok.inj h⟩
    · rintro ⟨a', h, rfl⟩
      obtain rfl := Except.ok.inj h
      rfl

theorem map_eq_error {α β : Type} {g : α → β} {x : Except E α} {e : E} : x.map g = .error e ↔ x = .error e := by
  cases x with
  | error e' =>
    constructor
    · intro h
      exact congrArg Except.error (Except.error.inj h)
    · intro h
      exact congrArg Except.error (Except.error.inj h)
  | ok a =>
    constructor
    all_goals
      intro h
      cases h

theorem rewriteItems_cons {d : Doc N A} {l : List (Doc N A)} {l' : List (Doc N B)}
    (h : rewriteItems f (d :: l) = .ok l') :
    ∃ d' r, rewrite f d = .ok d' ∧ rewriteItems f l = .ok r ∧ l' = d' :: r := by
  rw [rewriteItems] at h
  split at h
  · cases h
  · rename_i d' hd
    obtain ⟨r, hr, rfl⟩ := map_eq_ok.mp h
    exact ⟨d', r, hd, hr, rfl⟩

theorem rewriteEntries_cons {k : Key N} {d : Doc N A} {m : List (Key N × Doc N A)} {m' : List (Key N × Doc N B)}
    (h : rewriteEntries f ((k, d) :: m) = .ok m') :
    ∃ d' r, rewrite f d = .ok d' ∧ rewriteEntries f m = .ok r ∧ m' = (k, d') :: r := by
  rw [rewriteEntries] at h
  split at h
  · cases h
  · rename_i d' hd
    obtain ⟨r, hr, rfl⟩ := map_eq_ok.mp h
    exact ⟨d', r, hd, hr, rfl⟩

/-- an item that was read anew -/
def ReadAs (f : A → Except E B) (o : Option (Doc N A)) (o' : Option (Doc N B)) : Prop :=
  match o with
  | none => o' = none
  | some t => ∃ t', rewrite f t = .ok t' ∧ o' = some t'

theorem items_readAs {l : List (Doc N A)} {l' : List (Doc N B)} (h : rewriteItems f l = .ok l') (i : ℕ) :
    ReadAs f l[i]? l'[i]? := by
  induction l generalizing l' i with
  | nil =>
    rw [rewriteItems] at h
    rw [← Except.ok.inj h]
    rfl
  | cons d l ih =>
    obtain ⟨d', r, hd, hr, rfl⟩ := rewriteItems_cons h
    cases i with
    | zero => exact ⟨d', hd, rfl⟩
    | succ i => exact ih hr i

theorem entries_readAs {m : List (Key N × Doc N A)} {m' : List (Key N × Doc N B)}
    (h : rewriteEntries f m = .ok m') (k : Key N) : ReadAs f (m.lookup k) (m'.lookup k) := by
  induction m generalizing m' with
  | nil =>
    rw [rewriteEntries] at h
    rw [← Except.ok.inj h]
    rfl
  | cons e m ih =>
    obtain ⟨k₁, d⟩ := e
    obtain ⟨d', r, hd, hr, rfl⟩ := rewriteEntries_cons h
    rw [lookup_entry, lookup_entry]
    by_cases hk : k = k₁
    · rw [if_pos hk, if_pos hk]
      exact ⟨d', hd, rfl⟩
    · rw [if_neg hk, if_neg hk]
      exact ih hr

theorem child_rewrite {d : Doc N A} {d' : Doc N B} (h : rewrite f d = .ok d') (k : Key N) :
    ReadAs f (d.child k) (d'.child k) := by
  cases d with
  | null =>
    rw [rewrite] at h
    rw [← Except.ok.inj h]
    rfl
  | scalar a =>
    rw [rewrite] at h
    obtain ⟨b, -, rfl⟩ := map_eq_ok.mp h
    rfl
  | list l =>
    rw [rewrite] at h
    obtain ⟨l', hl, rfl⟩ := map_eq_ok.mp h
    cases k with
    | name s => rfl
    | index i => exact items_readAs hl i
  | mapping m =>
    rw [rewrite] at h
    obtain ⟨m', hm, rfl⟩ := map_eq_ok.mp h
    exact entries_readAs hm k

/-- **A path in a document that was read anew.** -/
theorem look_rewrite {d : Doc N A} {d' : Doc N B} (h : rewrite f d = .ok d') (p : List (Key N)) :
    ReadAs f (d.look p) (d'.look p) := by
  induction p generalizing d d' with
  | nil => exact ⟨d', h, rfl⟩
  | cons k p ih =>
    rw [look_cons, look_cons]
    have hchild := child_rewrite h k
    cases ht : d.child k with
    | none =>
      rw [ht] at hchild
      rw [show d'.child k = none from hchild]
      rfl
    | some t =>
      rw [ht] at hchild
      obtain ⟨t', hread, hchild⟩ := hchild
      rw [hchild]
      exact ih hread

mutual
/-- **What is read never changes the shape.** -/
theorem shape_rewrite : ∀ (d : Doc N A) {d' : Doc N B}, rewrite f d = .ok d' → d'.shape = d.shape
  | .null, d', h => by
    rw [rewrite] at h
    rw [← Except.ok.inj h]
    rfl
  | .scalar a, d', h => by
    rw [rewrite] at h
    obtain ⟨b, -, rfl⟩ := map_eq_ok.mp h
    rfl
  | .list l, d', h => by
    rw [rewrite] at h
    obtain ⟨l', hl, rfl⟩ := map_eq_ok.mp h
    rw [shape, shape, shapeItems_rewrite l hl]
  | .mapping m, d', h => by
    rw [rewrite] at h
    obtain ⟨m', hm, rfl⟩ := map_eq_ok.mp h
    rw [shape, shape, shapeEntries_rewrite m hm]

theorem shapeItems_rewrite : ∀ (l : List (Doc N A)) {l' : List (Doc N B)}, rewriteItems f l = .ok l' →
    shapeItems l' = shapeItems l
  | [], l', h => by
    rw [rewriteItems] at h
    rw [← Except.ok.inj h]
    rfl
  | d :: l, l', h => by
    obtain ⟨d', r, hd, hr, rfl⟩ := rewriteItems_cons h
    rw [shapeItems, shapeItems, shape_rewrite d hd, shapeItems_rewrite l hr]

theorem shapeEntries_rewrite : ∀ (m : List (Key N × Doc N A)) {m' : List (Key N × Doc N B)},
    rewriteEntries f m = .ok m' → shapeEntries m' = shapeEntries m
  | [], m', h => by
    rw [rewriteEntries] at h
    rw [← Except.ok.inj h]
    rfl
  | (k, d) :: m, m', h => by
    obtain ⟨d', r, hd, hr, rfl⟩ := rewriteEntries_cons h
    rw [shapeEntries, shapeEntries, shape_rewrite d hd, shapeEntries_rewrite m hr]
end

mutual
/-- a scalar that cannot be read is why the document cannot -/
theorem rewrite_error : ∀ (d : Doc N A) {e : E}, d.Tidy → rewrite f d = .error e →
    ∃ p a, d.look p = some (.scalar a) ∧ f a = .error e
  | .null, e, _, h => by
    rw [rewrite] at h
    cases h
  | .scalar a, e, _, h => by
    rw [rewrite] at h
    exact ⟨[], a, rfl, map_eq_error.mp h⟩
  | .list l, e, ht, h => by
    rw [rewrite] at h
    obtain ⟨i, d, p, a, hi, hp, ha⟩ :=
      rewriteItems_error l (fun i d hi => ht.child (k := .index i) hi) (map_eq_error.mp h)
    refine ⟨.index i :: p, a, ?_, ha⟩
    rw [look_cons, show (Doc.list l).child (.index i) = some d from hi]
    exact hp
  | .mapping m, e, ht, h => by
    rw [rewrite] at h
    obtain ⟨k, d, p, a, hk, hp, ha⟩ := rewriteEntries_error m (ht [] m rfl) (fun k d hk => ht.child (k := k) hk)
      (map_eq_error.mp h)
    refine ⟨k :: p, a, ?_, ha⟩
    rw [look_cons, show (Doc.mapping m).child k = some d from hk]
    exact hp

theorem rewriteItems_error : ∀ (l : List (Doc N A)) {e : E}, (∀ (i : ℕ) d, l[i]? = some d → d.Tidy) →
    rewriteItems f l = .error e → ∃ (i : ℕ) (d : Doc N A) (p : List (Key N)) (a : A),
      l[i]? = some d ∧ d.look p = some (.scalar a) ∧ f a = .error e
  | [], e, _, h => by
    rw [rewriteItems] at h
    cases h
  | d :: l, e, ht, h => by
    rw [rewriteItems] at h
    split at h
    · rename_i e' hd
      obtain ⟨p, a, hp, ha⟩ := rewrite_error d (ht 0 d rfl) hd
      rw [Except.error.inj h] at ha
      exact ⟨0, d, p, a, rfl, hp, ha⟩
    · obtain ⟨i, u, p, a, hi, hp, ha⟩ := rewriteItems_error l (fun i u hi => ht (i + 1) u hi) (map_eq_error.mp h)
      exact ⟨i + 1, u, p, a, hi, hp, ha⟩

theorem rewriteEntries_error : ∀ (m : List (Key N × Doc N A)) {e : E}, (m.map (·.1)).Nodup →
    (∀ k d, m.lookup k = some d → d.Tidy) → rewriteEntries f m = .error e →
    ∃ (k : Key N) (d : Doc N A) (p : List (Key N)) (a : A),
      m.lookup k = some d ∧ d.look p = some (.scalar a) ∧ f a = .error e
  | [], e, _, _, h => by
    rw [rewriteEntries] at h
    cases h
  | (k, d) :: m, e, hnodup, ht, h => by
    obtain ⟨hnew, hrest⟩ := List.nodup_cons.mp hnodup
    have hfirst : List.lookup k ((k, d) :: m) = some d := by rw [lookup_entry, if_pos rfl]
    rw [rewriteEntries] at h
    split at h
    · rename_i e' hd
      obtain ⟨p, a, hp, ha⟩ := rewrite_error d (ht k d hfirst) hd
      rw [Except.error.inj h] at ha
      exact ⟨k, d, p, a, hfirst, hp, ha⟩
    · have hother : ∀ k' u, m.lookup k' = some u → List.lookup k' ((k, d) :: m) = some u := by
        intro k' u hu
        rw [lookup_entry, if_neg]
        · exact hu
        · rintro rfl
          have hnone : m.lookup k' = none := by
            rw [List.lookup_eq_none_iff]
            intro x hx
            simp only [bne_iff_ne, ne_eq]
            rintro rfl
            exact hnew (List.mem_map.mpr ⟨x, hx, rfl⟩)
          rw [hnone] at hu
          cases hu
      obtain ⟨k', u, p, a, hk, hp, ha⟩ := rewriteEntries_error m hrest (fun k' u hu => ht k' u (hother k' u hu))
        (map_eq_error.mp h)
      exact ⟨k', u, p, a, hother k' u hk, hp, ha⟩
end

/-- **A document is read exactly if every scalar is.** -/
theorem rewrite_ok_iff {d : Doc N A} (hd : d.Tidy) : (∃ d', rewrite f d = .ok d') ↔
    ∀ p a, d.look p = some (.scalar a) → ∃ b, f a = .ok b := by
  constructor
  · rintro ⟨d', h⟩ p a hp
    have hread := look_rewrite h p
    rw [hp] at hread
    obtain ⟨t', ht, -⟩ := hread
    rw [rewrite] at ht
    obtain ⟨b, hb, -⟩ := map_eq_ok.mp ht
    exact ⟨b, hb⟩
  · intro h
    cases hr : rewrite f d with
    | ok d' => exact ⟨d', rfl⟩
    | error e =>
      obtain ⟨p, a, hp, ha⟩ := rewrite_error d hd hr
      obtain ⟨b, hb⟩ := h p a hp
      rw [ha] at hb
      cases hb

end

end Doc
end Trees
