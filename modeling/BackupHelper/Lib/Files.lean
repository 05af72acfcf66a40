import BackupHelper.Lib.Text
import Mathlib.Data.List.Dedup
import Mathlib.Data.List.Infix
import Mathlib.Tactic.Tauto

/-!
# Files and directories

A disk gives the nodes at absolute paths, lists of names; the root is always a directory.  A
relative path is walked from a directory name by name, each step from an existing directory: `..`
goes up, any other name goes down.  `fits` says which names the file system takes.

* `reach p segs`, `trail p segs`       where a walk ends, and the directories it passes;
* `Disk.mkdirs`, `write`, `save`       as `mkdir -p`, and writing a file with and without it;
* `Disk.below`                         all nodes below a directory, by relative path;
* `inside r segs`                      the walk from `r` never goes above the directory `r` is in.

A walk that stays inside is the same below every directory (`reach_append`, `trail_append`); one that
does not leaves any directory whose name it does not mention (`leaves_of_not_inside`).
-/

namespace Files
open Text

abbrev Path := List Str

def up : Str := "..".toList

def step (p : Path) (s : Str) : Path := if s = up then p.dropLast else p ++ [s]

/-- where the walk of `segs` from `p` ends -/
def reach (p : Path) (segs : List Str) : Path := segs.foldl step p

/-- the places from which the walk goes on -/
def trail (p : Path) (segs : List Str) : List Path :=
  match segs with
  | [] => []
  | s :: segs => p :: trail (step p s) segs

/-- the walk from `r` does not go above the directory that `r` is relative to -/
def inside (r : Path) (segs : List Str) : Bool :=
  match segs with
  | [] => true
  | s :: segs => (s ≠ up || r ≠ []) && inside (step r s) segs

@[simp] theorem reach_nil (p : Path) : reach p [] = p := rfl

@[simp] theorem reach_cons (p : Path) (s : Str) (segs : List Str) :
    reach p (s :: segs) = reach (step p s) segs := rfl

theorem trail_concat (p : Path) (segs : List Str) (s : Str) :
    trail p (segs ++ [s]) = trail p segs ++ [reach p segs] := by
  induction segs generalizing p with
  | nil => rfl
  | cons t segs ih =>
    show p :: trail (step p t) (segs ++ [s]) = p :: (trail (step p t) segs ++ [_])
    rw [ih]
    rfl

theorem step_append {d r : Path} {s : Str} (h : s ≠ up ∨ r ≠ []) : step (d ++ r) s = d ++ step r s := by
  unfold step
  by_cases hs : s = up
  · rw [if_pos hs, if_pos hs, List.dropLast_append_of_ne_nil (h.resolve_left (not_not.mpr hs))]
  · rw [if_neg hs, if_neg hs, List.append_assoc]

theorem inside_cons {r : Path} {s : Str} {segs : List Str} :
    inside r (s :: segs) = true ↔ (s ≠ up ∨ r ≠ []) ∧ inside (step r s) segs = true := by
  simp [inside]

/-- a walk that stays inside ends at the same place below every directory -/
theorem reach_append {r : Path} {segs : List Str} (h : inside r segs = true) (d : Path) :
    reach (d ++ r) segs = d ++ reach r segs := by
  induction segs generalizing r with
  | nil => rfl
  | cons s segs ih =>
    obtain ⟨hs, hin⟩ := inside_cons.mp h
    rw [reach_cons, reach_cons, step_append hs, ih hin]

theorem trail_append {r : Path} {segs : List Str} (h : inside r segs = true) (d : Path) :
    trail (d ++ r) segs = (trail r segs).map (d ++ ·) := by
  induction segs generalizing r with
  | nil => rfl
  | cons s segs ih =>
    obtain ⟨hs, hin⟩ := inside_cons.mp h
    show (d ++ r) :: trail (step (d ++ r) s) segs = (d ++ r) :: (trail (step r s) segs).map _
    rw [step_append hs, ih hin]

/-- `trail p segs` and the end of the walk -/
def places (p : Path) (segs : List Str) : List Path := trail p segs ++ [reach p segs]

theorem mem_places {p q : Path} {segs : List Str} :
    q ∈ places p segs ↔ q ∈ trail p segs ∨ q = reach p segs := by
  rw [places, List.mem_append, List.mem_singleton]

theorem places_cons (p : Path) (s : Str) (segs : List Str) :
    places p (s :: segs) = p :: places (step p s) segs := rfl

theorem self_mem_places (p : Path) (segs : List Str) : p ∈ places p segs := by
  cases segs with
  | nil => simp [places, trail]
  | cons s segs => simp [places_cons]

theorem mem_step {p : Path} {s t : Str} (h : t ∈ step p s) : t ∈ p ∨ t = s ∧ s ≠ up := by
  unfold step at h
  split at h
  · exact Or.inl (List.mem_of_mem_dropLast h)
  · rename_i hs
    exact (List.mem_append.mp h).imp_right fun ht => ⟨List.mem_singleton.mp ht, hs⟩

/-- the names of a place come from the start of the walk or from its names, and are not `..` -/
theorem mem_of_place {p q : Path} {segs : List Str} {t : Str} (hq : q ∈ places p segs) (ht : t ∈ q) :
    t ∈ p ∨ t ∈ segs ∧ t ≠ up := by
  induction segs generalizing p with
  | nil =>
    have hqp : q = p := by simpa [places, trail] using hq
    exact Or.inl (hqp ▸ ht)
  | cons s segs ih =>
    rcases List.mem_cons.mp hq with rfl | hq
    · exact Or.inl ht
    · rcases ih hq with hp | ⟨hs, hne⟩
      · rcases mem_step hp with hp | ⟨rfl, hne⟩
        · exact Or.inl hp
        · exact Or.inr ⟨List.mem_cons_self, hne⟩
      · exact Or.inr ⟨List.mem_cons_of_mem _ hs, hne⟩

theorem up_notMem_place {p q : Path} {segs : List Str} (hp : up ∉ p) (hq : q ∈ places p segs) :
    up ∉ q := by
  intro hu
  rcases mem_of_place hq hu with h | ⟨-, h⟩
  · exact hp h
  · exact h rfl

/-- a walk comes to a place for each of its names -/
theorem exists_place {segs : List Str} {s : Str} (hs : s ∈ segs) (hne : s ≠ up) (p : Path) :
    ∃ q ∈ places p segs, s ∈ q := by
  induction segs generalizing p with
  | nil => exact absurd hs List.not_mem_nil
  | cons t segs ih =>
    rcases List.mem_cons.mp hs with rfl | hs
    · refine ⟨step p s, List.mem_cons_of_mem _ (self_mem_places _ _), ?_⟩
      rw [step, if_neg hne]
      simp
    · obtain ⟨q, hq, hsq⟩ := ih hs (step p t)
      exact ⟨q, List.mem_cons_of_mem _ hq, hsq⟩

/-- a walk comes to a place by way of the directories it is in -/
theorem prefix_of_place {p q r : Path} {segs : List Str} (hr : r ∈ places p segs) (hq : q <+: r)
    (hne : q ≠ r) : q ∈ trail p segs ∨ q <+: p ∧ q ≠ p := by
  induction segs generalizing p with
  | nil =>
    have hrp : r = p := by simpa [places, trail] using hr
    subst hrp
    exact Or.inr ⟨hq, hne⟩
  | cons s segs ih =>
    rcases List.mem_cons.mp hr with rfl | hr
    · exact Or.inr ⟨hq, hne⟩
    · rcases ih hr with ht | ⟨hpre, hne'⟩
      · exact Or.inl (List.mem_cons_of_mem _ ht)
      · unfold step at hpre hne'
        split at hpre
        · rename_i hs
          rw [if_pos hs] at hne'
          right
          refine ⟨hpre.trans (List.dropLast_prefix p), ?_⟩
          rintro rfl
          exact hne' (hpre.eq_of_length_le (by simp))
        · rename_i hs
          rw [if_neg hs] at hne'
          rcases List.prefix_concat_iff.mp hpre with he | hp
          · exact absurd he hne'
          · by_cases he : q = p
            · exact Or.inl (he ▸ List.mem_cons_self)
            · exact Or.inr ⟨hp, he⟩

/-- outside a directory, a walk that does not mention its name stays outside -/
theorem outside_place {d p q : Path} {name : Str} {segs : List Str} (hp : ¬ d ++ [name] <+: p)
    (hname : name ∉ segs) (hq : q ∈ places p segs) : ¬ d ++ [name] <+: q := by
  induction segs generalizing p with
  | nil =>
    have hqp : q = p := by simpa [places, trail] using hq
    exact hqp ▸ hp
  | cons s segs ih =>
    have hs : s ≠ name := fun e => hname (by simp [e])
    rcases List.mem_cons.mp hq with rfl | hq
    · exact hp
    · refine ih ?_ (fun h => hname (List.mem_cons_of_mem _ h)) hq
      unfold step
      split
      · exact fun h => hp (h.trans (List.dropLast_prefix p))
      · intro h
        rcases List.prefix_concat_iff.mp h with he | hpre
        · exact hs (List.singleton_injective (List.append_inj_right' he rfl)).symm
        · exact hp hpre

theorem outside_reach {name : Str} {p : Path} {segs : List Str} (hp : ¬ [name] <+: p)
    (hname : name ∉ segs) : ¬ [name] <+: reach p segs :=
  outside_place (d := []) hp hname (mem_places.mpr (Or.inr rfl))

theorem leaves_of_not_inside {name : Str} {r : Path} {segs : List Str} (h : inside r segs = false)
    (hname : name ∉ segs) : ¬ [name] <+: reach ([name] ++ r) segs := by
  induction segs generalizing r with
  | nil => simp [inside] at h
  | cons s segs ih =>
    have hrest : name ∉ segs := fun hm => hname (List.mem_cons_of_mem _ hm)
    by_cases hs : s ≠ up ∨ r ≠ []
    · rw [reach_cons, step_append hs]
      refine ih ?_ hrest
      by_contra hin
      rw [inside_cons.mpr ⟨hs, by simpa using hin⟩] at h
      exact absurd h (by simp)
    · obtain ⟨rfl, rfl⟩ : s = up ∧ r = [] := by
        constructor
        · by_contra hne
          exact hs (Or.inl hne)
        · by_contra hne
          exact hs (Or.inr hne)
      rw [reach_cons]
      exact outside_reach (by simp [step]) hrest

/-! ## names without `..` -/

theorem reach_plain {p : Path} {segs : List Str} (h : up ∉ segs) : reach p segs = p ++ segs := by
  induction segs generalizing p with
  | nil => simp
  | cons s segs ih =>
    have hs : s ≠ up := fun e => h (by simp [e])
    rw [reach_cons, ih fun hm => h (List.mem_cons_of_mem _ hm), step, if_neg hs, List.append_assoc]
    rfl

/-- the places passed by a walk without `..`: the proper prefixes -/
theorem mem_trail_plain {p q : Path} {segs : List Str} (h : up ∉ segs) :
    q ∈ trail p segs ↔ ∃ r, r <+: segs ∧ r ≠ segs ∧ q = p ++ r := by
  induction segs generalizing p with
  | nil => simp [trail]
  | cons s segs ih =>
    have hs : s ≠ up := fun e => h (by simp [e])
    show q ∈ p :: trail (step p s) segs ↔ _
    rw [List.mem_cons, ih fun hm => h (List.mem_cons_of_mem _ hm), step, if_neg hs]
    constructor
    · rintro (rfl | ⟨r, hr, hne, rfl⟩)
      · exact ⟨[], List.nil_prefix, by simp, by simp⟩
      · exact ⟨s :: r, List.cons_prefix_cons.mpr ⟨rfl, hr⟩, by simpa using hne, by simp⟩
    · rintro ⟨r, hr, hne, rfl⟩
      cases r with
      | nil => exact Or.inl (by simp)
      | cons t r =>
        obtain ⟨rfl, hpre⟩ := List.cons_prefix_cons.mp hr
        exact Or.inr ⟨r, hpre, by simpa using hne, by simp⟩

theorem inside_of_plain {r : Path} {segs : List Str} (h : up ∉ segs) : inside r segs = true := by
  induction segs generalizing r with
  | nil => rfl
  | cons s segs ih =>
    have hs : s ≠ up := fun e => h (by simp [e])
    exact inside_cons.mpr ⟨Or.inl hs, ih fun hm => h (List.mem_cons_of_mem _ hm)⟩

/-- apart from each other, directories have no place below in common -/
theorem not_prefix_below {p q : Path} (h : ¬ p <+: q) (h' : ¬ q <+: p) (r : Path) : ¬ p <+: q ++ r :=
  fun hp => (List.prefix_or_prefix_of_prefix hp (List.prefix_append q r)).elim h h'

/-! ## disks -/

inductive Node (β : Type*) where
  | dir
  | file (b : β)
  deriving DecidableEq

/-- the nodes other than the root; where a path stands twice, the first one counts -/
structure Disk (β : Type*) where
  nodes : List (Path × Node β)
  deriving DecidableEq

section
variable {β : Type*}

namespace Disk

def node (d : Disk β) (p : Path) : Option (Node β) := if p = [] then some .dir else d.nodes.lookup p

def isDir (d : Disk β) (p : Path) : Bool :=
  match d.node p with
  | some .dir => true
  | _ => false

def isFile (d : Disk β) (p : Path) : Bool :=
  match d.node p with
  | some (.file _) => true
  | _ => false

def put (d : Disk β) (p : Path) (n : Node β) : Disk β := ⟨(p, n) :: d.nodes⟩

/-- remove the node at `p` and all below it -/
def remove (d : Disk β) (p : Path) : Disk β := ⟨d.nodes.filter (fun e => ¬ p <+: e.1)⟩

/-- all nodes below the directory `p`, by their paths relative to it -/
def below (d : Disk β) (p : Path) : List (Path × Node β) :=
  ((d.nodes.map (·.1)).dedup.filter (fun q => p <+: q ∧ q ≠ p)).filterMap
    (fun q => (d.node q).map (fun n => (q.drop p.length, n)))

theorem isDir_iff {d : Disk β} {p : Path} : d.isDir p = true ↔ d.node p = some .dir := by
  unfold isDir
  split <;> simp_all

@[simp] theorem isDir_nil (d : Disk β) : d.isDir [] = true := by simp [isDir_iff, node]

theorem node_put_self {d : Disk β} {p : Path} {n : Node β} (h : p ≠ []) :
    (d.put p n).node p = some n := by
  simp [node, put, h]

theorem node_put_ne {d : Disk β} {p q : Path} {n : Node β} (h : q ≠ p) :
    (d.put p n).node q = d.node q := by
  have hbeq : (q == p) = false := by simpa using h
  simp [node, put, List.lookup_cons, hbeq]

theorem lookup_filter {l : List (Path × Node β)} {f : Path → Bool} (p : Path) :
    (l.filter (fun e => f e.1)).lookup p = if f p then l.lookup p else none := by
  induction l with
  | nil => simp
  | cons e l ih =>
    obtain ⟨q, n⟩ := e
    by_cases hp : p = q
    · subst hp
      cases hf : f p with
      | true => simp [hf]
      | false => rw [List.filter_cons_of_neg (by simp [hf]), ih]; simp [hf]
    · have hbeq : (p == q) = false := by simpa using hp
      cases hf : f q with
      | true =>
        rw [List.filter_cons_of_pos (by simp [hf]), List.lookup_cons, List.lookup_cons, hbeq]
        exact ih
      | false =>
        rw [List.filter_cons_of_neg (by simp [hf]), List.lookup_cons, hbeq]
        exact ih

theorem node_remove {d : Disk β} {p q : Path} (hq : q ≠ []) :
    (d.remove p).node q = if p <+: q then none else d.node q := by
  unfold node remove
  rw [if_neg hq, if_neg hq]
  have h := lookup_filter (l := d.nodes) (f := fun r => decide ¬ p <+: r) q
  simp only [decide_eq_true_eq] at h
  rw [h]
  by_cases hp : p <+: q <;> simp [hp]

theorem mem_below {d : Disk β} {p r : Path} {n : Node β} :
    (r, n) ∈ d.below p ↔ r ≠ [] ∧ d.node (p ++ r) = some n := by
  simp only [below, List.mem_filterMap, List.mem_filter, List.mem_dedup, List.mem_map,
    Bool.decide_and, Bool.and_eq_true, decide_eq_true_eq, Option.map_eq_some_iff, Prod.mk.injEq]
  constructor
  · rintro ⟨q, ⟨-, ⟨r', rfl⟩, hne⟩, n', hn, hr, rfl⟩
    rw [List.drop_left] at hr
    subst hr
    exact ⟨fun e => hne (by simp [e]), hn⟩
  · rintro ⟨hr, hn⟩
    have hne : p ++ r ≠ [] := by simp [hr]
    refine ⟨p ++ r, ⟨?_, List.prefix_append p r, by simpa using hr⟩, n, hn, List.drop_left, rfl⟩
    rw [node, if_neg hne] at hn
    obtain ⟨l₁, l₂, hl, -⟩ := List.lookup_eq_some_iff.mp hn
    exact ⟨(p ++ r, n), by simp [hl], rfl⟩

/-! ## walking, making directories, reading and writing -/

variable (fits : Str → Bool)

/-- where the names lead, if every step starts at a directory -/
def walk (d : Disk β) (p : Path) (segs : List Str) : Option Path :=
  match segs with
  | [] => some p
  | s :: segs => if d.isDir p ∧ fits s then d.walk (step p s) segs else none

def read (d : Disk β) (p : Path) (segs : List Str) : Option β :=
  match d.walk fits p segs with
  | none => none
  | some q =>
    match d.node q with
    | some (.file b) => some b
    | _ => none

/-- create or overwrite a file -/
def write (d : Disk β) (p : Path) (segs : List Str) (b : β) : Option (Disk β) :=
  match d.walk fits p segs with
  | none => none
  | some q => if d.isDir q then none else some (d.put q (.file b))

/-- the directory at the end of the walk, and those on the way, are made where they are missing -/
def mkdirs (d : Disk β) (p : Path) (segs : List Str) : Option (Disk β) :=
  match segs with
  | [] => if d.isDir p then some d else none
  | s :: segs =>
    if d.isDir p ∧ fits s then
      match d.node (step p s) with
      | some (.file _) => none
      | some .dir => d.mkdirs (step p s) segs
      | none => (d.put (step p s) .dir).mkdirs (step p s) segs
    else none

/-- write a file, its directories made first -/
def save (d : Disk β) (p : Path) (segs : List Str) (b : β) : Option (Disk β) :=
  match d.mkdirs fits p segs.dropLast with
  | none => none
  | some d' => d'.write fits p segs b

variable {fits}

theorem walk_eq_some {d : Disk β} {p q : Path} {segs : List Str} :
    d.walk fits p segs = some q ↔
      (∀ r ∈ trail p segs, d.isDir r = true) ∧ (∀ s ∈ segs, fits s = true) ∧ q = reach p segs := by
  induction segs generalizing p with
  | nil =>
    show some p = some q ↔ _
    simp only [trail, List.not_mem_nil, false_implies, implies_true, true_and, reach_nil,
      Option.some.injEq]
    exact eq_comm
  | cons s segs ih =>
    show (if d.isDir p = true ∧ fits s = true then d.walk fits (step p s) segs else none) = some q ↔
      (∀ r ∈ p :: trail (step p s) segs, _) ∧ _
    rw [List.forall_mem_cons, List.forall_mem_cons, reach_cons]
    by_cases h : d.isDir p = true ∧ fits s = true
    · rw [if_pos h, ih]
      tauto
    · rw [if_neg h]
      constructor
      · simp
      · rintro ⟨⟨h1, -⟩, ⟨h2, -⟩, -⟩
        exact absurd ⟨h1, h2⟩ h

theorem read_eq_some {d : Disk β} {p : Path} {segs : List Str} {b : β} :
    d.read fits p segs = some b ↔
      (∀ r ∈ trail p segs, d.isDir r = true) ∧ (∀ s ∈ segs, fits s = true) ∧
        d.node (reach p segs) = some (.file b) := by
  unfold read
  cases hw : d.walk fits p segs with
  | none =>
    simp only [reduceCtorEq, false_iff]
    rintro ⟨h1, h2, -⟩
    rw [walk_eq_some.mpr ⟨h1, h2, rfl⟩] at hw
    simp at hw
  | some q =>
    obtain ⟨h1, h2, rfl⟩ := walk_eq_some.mp hw
    simp only
    constructor
    · intro h
      refine ⟨h1, h2, ?_⟩
      split at h
      · rename_i hn
        rw [hn, Option.some.inj h]
      · simp at h
    · rintro ⟨-, -, hn⟩
      rw [hn]

/-- directories stay, files stay, and what was made is a directory at one of the places `P` -/
structure Made (P : List Path) (d d' : Disk β) : Prop where
  same : ∀ q, d'.node q = d.node q ∨ (q ∈ P ∧ d.node q = none ∧ d'.node q = some .dir)

theorem Made.refl (P : List Path) (d : Disk β) : Made P d d := ⟨fun _ => Or.inl rfl⟩

theorem Made.isDir {P : List Path} {d d' : Disk β} (h : Made P d d') {q : Path}
    (hq : d.isDir q = true) : d'.isDir q = true := by
  rw [isDir_iff] at hq ⊢
  rcases h.same q with he | ⟨-, -, he⟩
  · rwa [he]
  · exact he

theorem Made.file {P : List Path} {d d' : Disk β} (h : Made P d d') {q : Path} {b : β} :
    d'.node q = some (.file b) ↔ d.node q = some (.file b) := by
  rcases h.same q with he | ⟨-, hn, he⟩
  · rw [he]
  · rw [he, hn]
    simp

theorem mkdirs_spec {d d' : Disk β} {p : Path} {segs : List Str} (h : d.mkdirs fits p segs = some d') :
    Made (places p segs) d d' ∧ (∀ q ∈ places p segs, d'.isDir q = true) ∧
      ∀ s ∈ segs, fits s = true := by
  induction segs generalizing d p with
  | nil =>
    simp only [mkdirs] at h
    split at h
    · rename_i hp
      rw [← Option.some.inj h]
      exact ⟨Made.refl _ d, by simpa [places, trail] using hp, by simp⟩
    · simp at h
  | cons s segs ih =>
    simp only [mkdirs] at h
    split at h
    · rename_i hps
      rw [places_cons, List.forall_mem_cons, List.forall_mem_cons]
      split at h
      · simp at h
      · obtain ⟨hm, hd, hf⟩ := ih h
        have hm' : Made (p :: places (step p s) segs) d d' :=
          ⟨fun q => (hm.same q).imp_right fun hq => ⟨List.mem_cons_of_mem _ hq.1, hq.2⟩⟩
        exact ⟨hm', ⟨hm'.isDir hps.1, hd⟩, hps.2, hf⟩
      · rename_i hnone
        obtain ⟨hm, hd, hf⟩ := ih h
        have hne : step p s ≠ [] := by
          intro e
          rw [e] at hnone
          simp [node] at hnone
        have hplace := self_mem_places (step p s) segs
        have hm' : Made (p :: places (step p s) segs) d d' := by
          constructor
          intro q
          by_cases hq : q = step p s
          · subst hq
            exact Or.inr ⟨List.mem_cons_of_mem _ hplace, hnone, isDir_iff.mp (hd _ hplace)⟩
          · rcases hm.same q with he | ⟨hmem, hn, he⟩
            · exact Or.inl (by rw [he, node_put_ne hq])
            · exact Or.inr ⟨List.mem_cons_of_mem _ hmem, by rwa [node_put_ne hq] at hn, he⟩
        exact ⟨hm', ⟨hm'.isDir hps.1, hd⟩, hps.2, hf⟩
    · simp at h

theorem exists_mkdirs {d : Disk β} {p : Path} {segs : List Str} (hp : d.isDir p = true)
    (hfits : ∀ s ∈ segs, fits s = true)
    (hplaces : ∀ q ∈ places p segs, ∀ b, d.node q ≠ some (.file b)) :
    ∃ d', d.mkdirs fits p segs = some d' := by
  induction segs generalizing d p with
  | nil => exact ⟨d, by simp [mkdirs, hp]⟩
  | cons s segs ih =>
    rw [places_cons, List.forall_mem_cons] at hplaces
    rw [List.forall_mem_cons] at hfits
    have hmem := self_mem_places (step p s) segs
    simp only [mkdirs, hp, hfits.1, and_self, if_true]
    cases hn : d.node (step p s) with
    | none =>
      have hne : step p s ≠ [] := by
        intro e
        rw [e] at hn
        simp [node] at hn
      refine ih (isDir_iff.mpr (node_put_self hne)) hfits.2 fun q hq b => ?_
      by_cases hqs : q = step p s
      · rw [hqs, node_put_self hne]
        simp
      · rw [node_put_ne hqs]
        exact hplaces.2 q hq b
    | some n =>
      cases n with
      | dir => exact ih (isDir_iff.mpr hn) hfits.2 hplaces.2
      | file b => exact absurd hn (hplaces.2 _ hmem b)

theorem write_eq_some {d d' : Disk β} {p : Path} {segs : List Str} {b : β} :
    d.write fits p segs b = some d' ↔
      (∀ r ∈ trail p segs, d.isDir r = true) ∧ (∀ s ∈ segs, fits s = true) ∧
        d.isDir (reach p segs) = false ∧ d' = d.put (reach p segs) (.file b) := by
  unfold write
  cases hw : d.walk fits p segs with
  | none =>
    simp only [reduceCtorEq, false_iff]
    rintro ⟨h1, h2, -⟩
    rw [walk_eq_some.mpr ⟨h1, h2, rfl⟩] at hw
    simp at hw
  | some q =>
    obtain ⟨h1, h2, rfl⟩ := walk_eq_some.mp hw
    by_cases hd : d.isDir (reach p segs) = true
    · simp [hd]
    · rw [Bool.not_eq_true] at hd
      have hput : d' = d.put (reach p segs) (.file b) ↔ d.put (reach p segs) (.file b) = d' := eq_comm
      simp only [hd, Bool.false_eq_true, if_false, Option.some.injEq, hput, true_and]
      exact ⟨fun h => ⟨h1, h2, h⟩, fun h => h.2.2⟩

/-- a file is saved: the places on the way are directories, the last one holds it, nothing else was
changed -/
structure Saved (fits : Str → Bool) (p : Path) (segs : List Str) (b : β) (d d' : Disk β) : Prop where
  names : ∀ s ∈ segs, fits s = true
  dirs : ∀ q ∈ trail p segs, d'.isDir q = true
  file : d'.node (reach p segs) = some (.file b)
  fresh : d.isDir (reach p segs) = false
  same : ∀ q, q ≠ reach p segs → d'.node q = d.node q ∨
    (q ∈ trail p segs ∧ d.node q = none ∧ d'.node q = some .dir)

theorem trail_dropLast {p : Path} {segs : List Str} (h : segs ≠ []) :
    trail p segs = places p segs.dropLast := by
  conv_lhs => rw [← List.dropLast_append_getLast h]
  exact trail_concat _ _ _

theorem save_spec {d d' : Disk β} {p : Path} {segs : List Str} {b : β}
    (h : d.save fits p segs b = some d') : Saved fits p segs b d d' := by
  unfold save at h
  split at h
  · simp at h
  · rename_i d1 hmk
    obtain ⟨hmade, hdirs, -⟩ := mkdirs_spec hmk
    obtain ⟨htrail, hfits, hnot, rfl⟩ := write_eq_some.mp h
    have hne : reach p segs ≠ [] := by
      intro e
      rw [e] at hnot
      simp at hnot
    have hnotin : reach p segs ∉ trail p segs := by
      intro hm
      rw [htrail _ hm] at hnot
      simp at hnot
    refine ⟨hfits, fun q hq => ?_, node_put_self hne, ?_, fun q hq => ?_⟩
    · have hqne : q ≠ reach p segs := fun e => hnotin (e ▸ hq)
      rw [isDir_iff, node_put_ne hqne, ← isDir_iff]
      exact htrail q hq
    · by_contra hd
      rw [hmade.isDir (by simpa using hd)] at hnot
      simp at hnot
    · rw [node_put_ne hq]
      rcases hmade.same q with he | ⟨hmem, hn, he⟩
      · exact Or.inl he
      · cases segs with
        | nil => exact absurd (by simpa [places, trail] using hmem) hq
        | cons s segs => exact Or.inr ⟨by rwa [trail_dropLast (by simp)], hn, he⟩

theorem exists_save {d : Disk β} {p : Path} {segs : List Str} (b : β) (hp : d.isDir p = true)
    (hsegs : segs ≠ []) (hfits : ∀ s ∈ segs, fits s = true)
    (hplaces : ∀ q ∈ trail p segs, ∀ b, d.node q ≠ some (.file b))
    (hlast : d.isDir (reach p segs) = false) (hnot : reach p segs ∉ trail p segs) :
    ∃ d', d.save fits p segs b = some d' := by
  rw [trail_dropLast hsegs] at hplaces hnot
  obtain ⟨d1, hmk⟩ := exists_mkdirs hp
    (fun s hs => hfits s (List.mem_of_mem_dropLast hs)) hplaces
  obtain ⟨hmade, hdirs, -⟩ := mkdirs_spec hmk
  refine ⟨d1.put (reach p segs) (.file b), ?_⟩
  unfold save
  rw [hmk]
  refine write_eq_some.mpr ⟨by rwa [trail_dropLast hsegs], hfits, ?_, rfl⟩
  by_contra hd
  rcases hmade.same (reach p segs) with he | ⟨hmem, -, -⟩
  · have hdir : d1.isDir (reach p segs) = true := by simpa using hd
    rw [isDir_iff, he, ← isDir_iff, hlast] at hdir
    simp at hdir
  · exact hnot hmem

/-! ## disks on which everything is in a directory -/

def Closed (d : Disk β) : Prop := ∀ q s, d.node (q ++ [s]) ≠ none → d.isDir q = true

theorem Closed.above {d : Disk β} (h : d.Closed) {q r : Path} (hr : r ≠ []) (hn : d.node (q ++ r) ≠ none) :
    d.isDir q = true := by
  induction r using List.reverseRecOn with
  | nil => exact absurd rfl hr
  | append_singleton r s ih =>
    rw [← List.append_assoc] at hn
    have hdir := h (q ++ r) s hn
    by_cases he : r = []
    · rwa [he, List.append_nil] at hdir
    · refine ih he ?_
      rw [isDir_iff.mp hdir]
      simp

theorem Closed.ancestor {d : Disk β} (h : d.Closed) {q r : Path} (hd : d.isDir (q ++ r) = true) :
    d.isDir q = true := by
  by_cases hr : r = []
  · rwa [hr, List.append_nil] at hd
  · refine h.above hr ?_
    rw [isDir_iff.mp hd]
    simp

/-- there is nothing below what is no directory -/
theorem Closed.below {d : Disk β} (h : d.Closed) {q r : Path} (hq : d.isDir q = false) (hr : r ≠ []) :
    d.node (q ++ r) = none := by
  by_contra hn
  rw [h.above hr hn] at hq
  cases hq

/-- what a walk leads to is in a directory -/
theorem Closed.walk {d : Disk β} (h : d.Closed) {p q : Path} {segs : List Str} (hp : d.isDir p = true)
    (hw : d.walk fits p segs = some q) {q' : Path} {s : Str} (hq : q = q' ++ [s]) : d.isDir q' = true := by
  obtain ⟨hdirs, -, rfl⟩ := walk_eq_some.mp hw
  have hpre : q' <+: reach p segs := hq ▸ List.prefix_append q' [s]
  have hne : q' ≠ reach p segs := by
    rw [hq]
    simp
  rcases prefix_of_place (mem_places.mpr (Or.inr rfl)) hpre hne with ht | ⟨hpre', hne'⟩
  · exact hdirs q' ht
  · obtain ⟨r, rfl⟩ := hpre'
    exact h.ancestor hp

/-- a change at one place that is no directory, before and after -/
theorem Closed.change {d d' : Disk β} (h : d.Closed) {p : Path} (hin : ∀ q s, p = q ++ [s] → d.isDir q = true)
    (hp : d.isDir p = false) (hp' : d'.isDir p = false) (hsame : ∀ q, q ≠ p → d'.node q = d.node q) :
    d'.Closed ∧ ∀ q, d'.isDir q = d.isDir q := by
  have hdirs : ∀ q, d'.isDir q = d.isDir q := by
    intro q
    by_cases hq : q = p
    · rw [hq, hp, hp']
    · unfold isDir
      rw [hsame q hq]
  refine ⟨fun q s hn => ?_, hdirs⟩
  rw [hdirs]
  by_cases hq : q ++ [s] = p
  · exact hin q s hq.symm
  · rw [hsame _ hq] at hn
    exact h q s hn

theorem ne_nil_of_not_dir {d : Disk β} {p : Path} (hp : d.isDir p = false) : p ≠ [] := by
  rintro rfl
  rw [isDir_nil] at hp
  cases hp

theorem isDir_put_self {d : Disk β} {p : Path} {b : β} (hp : d.isDir p = false) :
    (d.put p (.file b)).isDir p = false := by
  rw [isDir, node_put_self (ne_nil_of_not_dir hp)]

theorem node_remove_self {d : Disk β} {p : Path} (hp : p ≠ []) : (d.remove p).node p = none := by
  rw [node_remove hp, if_pos List.prefix_rfl]

theorem isDir_remove_self {d : Disk β} {p : Path} (hp : p ≠ []) : (d.remove p).isDir p = false := by
  rw [isDir, node_remove_self hp]

theorem node_remove_file {d : Disk β} (h : d.Closed) {p q : Path} (hp : d.isDir p = false) (hq : q ≠ p) :
    (d.remove p).node q = d.node q := by
  by_cases hnil : q = []
  · rw [hnil]
    rfl
  · rw [node_remove hnil]
    split
    · rename_i hpre
      obtain ⟨r, rfl⟩ := hpre
      refine (h.below hp fun e => hq ?_).symm
      rw [e, List.append_nil]
    · rfl

/-- a walk asks for directories only -/
theorem walk_congr {d d' : Disk β} {p : Path} {segs : List Str}
    (h : ∀ q ∈ trail p segs, d'.isDir q = d.isDir q) : d'.walk fits p segs = d.walk fits p segs := by
  induction segs generalizing p with
  | nil => rfl
  | cons s segs ih =>
    unfold Disk.walk
    rw [h p List.mem_cons_self, ih fun q hq => h q (List.mem_cons_of_mem _ hq)]

/-- directories that are there need not be made -/
theorem mkdirs_same {d d' : Disk β} {p : Path} {segs : List Str} (h : d.mkdirs fits p segs = some d')
    (hdirs : ∀ q ∈ places p segs, d.isDir q = true) : d' = d := by
  induction segs generalizing p with
  | nil =>
    rw [mkdirs, if_pos (hdirs p (self_mem_places p []))] at h
    exact (Option.some.inj h).symm
  | cons s segs ih =>
    rw [places_cons, List.forall_mem_cons] at hdirs
    have hstep := isDir_iff.mp (hdirs.2 _ (self_mem_places (step p s) segs))
    unfold mkdirs at h
    split at h
    · rw [hstep] at h
      exact ih h hdirs.2
    · cases h

/-- the same nodes outside a directory -/
def SameOutside (stage : Path) (d d' : Disk β) : Prop := ∀ q, ¬ stage <+: q → d'.node q = d.node q

theorem SameOutside.trans {stage : Path} {d d1 d2 : Disk β} (h : SameOutside stage d d1)
    (h' : SameOutside stage d1 d2) : SameOutside stage d d2 := fun q hq => (h' q hq).trans (h q hq)

theorem SameOutside.isDir {stage q : Path} {d d' : Disk β} (h : SameOutside stage d d')
    (hq : ¬ stage <+: q) : d'.isDir q = d.isDir q := by
  unfold Disk.isDir
  rw [h q hq]

theorem SameOutside.put {d : Disk β} {stage p : Path} (hp : stage <+: p) (n : Node β) :
    SameOutside stage d (d.put p n) := fun _ hq => node_put_ne fun e => hq (e ▸ hp)

theorem SameOutside.mkdirs {d d' : Disk β} {stage p : Path} {segs : List Str}
    (hin : ∀ q ∈ places p segs, stage <+: q) (h : d.mkdirs fits p segs = some d') : SameOutside stage d d' :=
  fun q hq => ((mkdirs_spec h).1.same q).resolve_right fun hplace => hq (hin q hplace.1)

theorem SameOutside.save {d d' : Disk β} {stage p : Path} {segs : List Str} {b : β}
    (hin : ∀ q ∈ places p segs, stage <+: q) (h : d.save fits p segs b = some d') :
    SameOutside stage d d' := by
  intro q hq
  refine ((save_spec h).same q fun e => hq (hin q ?_)).resolve_right fun hplace => hq (hin q ?_)
  · exact mem_places.mpr (Or.inr e)
  · exact mem_places.mpr (Or.inl hplace.1)

theorem SameOutside.write {d d' : Disk β} {stage p : Path} {segs : List Str} {b : β}
    (hin : stage <+: reach p segs) (h : d.write fits p segs b = some d') : SameOutside stage d d' := by
  obtain ⟨-, -, -, rfl⟩ := write_eq_some.mp h
  exact .put hin _

end Disk
end
end Files
