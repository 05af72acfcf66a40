import BackupHelper.Sources.Base
import BackupHelper.Lib.Glob

/-!
# What the filesystem source collects

`os.walk` from each root, `path` itself or its `subdirs`.  A directory that an exclude `<dir>/*`
matches is not entered; a file that an exclude matches is left out.

* `Listing`              the entries of a directory, with everything below it;
* `Start`                a root: below the path, or where an absolute subdirectory leads;
* `excluded`, `pruned`   what the excludes say of a file, and of a directory;
* `collect`              the members of the archive, and the warnings;
* `collect_everywhere`   **entering every directory would collect the same members.**
-/

namespace BackupHelper
namespace Filesystem
open Text Glob Files

/-- the entries of a directory, in the order in which it lists them -/
inductive Listing where
  | nil
  /-- anything but a directory; `regular` if it is a file, or a link to one -/
  | file (name : Str) (regular : Bool) (rest : Listing)
  /-- a link to a directory: it is not followed -/
  | link (name : Str) (rest : Listing)
  /-- `raises`: what listing it raises -/
  | dir (name : Str) (raises : Option Exc) (entries rest : Listing)

/-- what a root leads to -/
inductive Root where
  | file
  | dir (raises : Option Exc) (entries : Listing)

/-- where a walk starts -/
inductive Start where
  /-- at the path, or at a place below it -/
  | below (p : Path)
  /-- at a path with the slashes `anchor` before its names, which is not below the configured one -/
  | outside (anchor : Str) (p : Path)
  deriving DecidableEq

structure Volume where
  /-- what there is -/
  root : Start → Option Root
  /-- Python's `repr` of a text -/
  repr : Str → Str

structure FilesystemConfig where
  path : Str
  subdirs : Option (List Str) := none
  exclude : List Str := []

/-- the archive names with the paths, and the warnings -/
structure Walked where
  members : List (Str × Path)
  skipped : List Str

def Walked.nothing : Walked := ⟨[], []⟩

def Walked.append (a b : Walked) : Walked := ⟨a.members ++ b.members, a.skipped ++ b.skipped⟩

def absolute (target : Str) : Bool := ['/'].isPrefixOf target

/-- the slashes that a path keeps: two stay two, more are one -/
def anchor (text : Str) : Str :=
  if ['/', '/'].isPrefixOf text && !(['/', '/', '/'].isPrefixOf text) then ['/', '/']
  else if absolute text then ['/'] else []

/-- `str(Path(text))` -/
def pathText (text : Str) : Str :=
  if anchor text = [] ∧ parts '/' text = [] then ['.'] else anchor text ++ posix (parts '/' text)

/-- `base / sub`: an absolute subdirectory replaces the path -/
def start (path sub : Str) : Start :=
  if absolute sub then
    if anchor sub = anchor path ∧ (parts '/' path).isPrefixOf (parts '/' sub) then
      .below ((parts '/' sub).drop (parts '/' path).length)
    else .outside (anchor sub) (parts '/' sub)
  else .below (parts '/' sub)

def excluded (exclude : List Str) (arcname : Str) : Bool :=
  exclude.any (fun pat => fnmatch pat arcname)

/-- a directory matched by a `<dir>/*` exclude is not entered at all -/
def pruned (exclude : List Str) (rel : Str) : Bool :=
  exclude.any (fun pat => ['/', '*'].isSuffixOf pat && fnmatch (pat.take (pat.length - 2)) rel)

def lostAndFound : Str := "lost+found".toList

/-- the warning for a directory below the path -/
def unreadableWarning (p : Path) (e : Exc) : List Str :=
  -- an artefact of mkfs, never application data
  if p.getLast? = some lostAndFound then []
  else [posix p ++ "/ (directory not readable: ".toList ++ e.reason ++ ")".toList]

/-- the configured path itself has to be readable -/
def unreadableDir (p : Path) (e : Exc) : Except Exc Walked :=
  if p = [] then .error e else .ok ⟨[], unreadableWarning p e⟩

/-- the files right in the directory `p` -/
def filesIn (exclude : List Str) (p : Path) : Listing → List (Str × Path)
  | .nil => []
  | .file name regular rest =>
    if regular && !excluded exclude (posix (p ++ [name])) then
      (posix (p ++ [name]), p ++ [name]) :: filesIn exclude p rest
    else filesIn exclude p rest
  | .link _ rest => filesIn exclude p rest
  | .dir _ _ _ rest => filesIn exclude p rest

/-- the walk below the directory `p`, which does not enter what `skip` says -/
def below (skip : Path → Bool) (exclude : List Str) (p : Path) : Listing → Walked
  | .nil => .nothing
  | .file _ _ rest => below skip exclude p rest
  | .link _ rest => below skip exclude p rest
  | .dir name raises entries rest =>
    let here : Walked :=
      if skip (p ++ [name]) then .nothing
      else
        match raises with
        | some e => ⟨[], unreadableWarning (p ++ [name]) e⟩
        | none => Walked.append ⟨filesIn exclude (p ++ [name]) entries, []⟩
            (below skip exclude (p ++ [name]) entries)
    here.append (below skip exclude p rest)

def notADirectory : Exc := ⟨"NotADirectoryError".toList, "Not a directory".toList⟩

/-- from a root that is the path, or below it -/
def walkBelow (v : Volume) (skip : Path → Bool) (exclude : List Str) (p : Path) :
    Except Exc Walked :=
  match v.root (.below p) with
  | none => .ok .nothing
  | some .file => unreadableDir p notADirectory
  | some (.dir (some e) _) => unreadableDir p e
  | some (.dir none entries) =>
    .ok (Walked.append ⟨filesIn exclude p entries, []⟩ (below skip exclude p entries))

/-- the first directory, or link to one -/
def firstDir : Listing → Option Str
  | .nil => none
  | .file _ _ rest => firstDir rest
  | .link name _ => some name
  | .dir name _ _ _ => some name

/-- the first file, or link to one -/
def firstFile : Listing → Option Str
  | .nil => none
  | .file name regular rest => if regular then some name else firstFile rest
  | .link _ rest => firstFile rest
  | .dir _ _ _ rest => firstFile rest

/-- `relative_to` the path raises -/
def notBelow (v : Volume) (path : Str) (anchor : Str) (p : Path) : Except Exc Walked :=
  .error ⟨"ValueError".toList, v.repr (anchor ++ posix p) ++ " is not in the subpath of ".toList ++
    v.repr (pathText path)⟩

/-- from a root that is not below the path: of nothing in it there is a name relative to the path -/
def walkOutside (v : Volume) (path anchor : Str) (p : Path) : Except Exc Walked :=
  match v.root (.outside anchor p) with
  | none => .ok .nothing
  | some (.dir none entries) =>
    -- the directories are asked for before the files
    match (firstDir entries).or (firstFile entries) with
    | none => .ok .nothing
    | some name => notBelow v path anchor (p ++ [name])
  | some _ =>
    if p.getLast? = some lostAndFound then .ok .nothing else notBelow v path anchor p

def walkRoot (v : Volume) (path : Str) (skip : Path → Bool) (exclude : List Str) :
    Start → Except Exc Walked
  | .below p => walkBelow v skip exclude p
  | .outside anchor p => walkOutside v path anchor p

def walkRoots (v : Volume) (path : Str) (skip : Path → Bool) (exclude : List Str) :
    List Start → Except Exc Walked
  | [] => .ok .nothing
  | s :: ss => do
    let here ← walkRoot v path skip exclude s
    let rest ← walkRoots v path skip exclude ss
    pure (here.append rest)

def roots (cfg : FilesystemConfig) : List Start :=
  match cfg.subdirs with
  | none => [.below []]
  | some [] => [.below []]
  | some subdirs => subdirs.map (start cfg.path)

def collectWith (skip : Path → Bool) (v : Volume) (cfg : FilesystemConfig) : Except Exc Walked := do
  let w ← walkRoots v cfg.path skip cfg.exclude (roots cfg)
  pure { w with members := w.members.insertionSort (fun a b => a.1 ≤ b.1) }

def collect (v : Volume) (cfg : FilesystemConfig) : Except Exc Walked :=
  collectWith (fun p => pruned cfg.exclude (posix p)) v cfg

/-- the walk that enters every directory and filters files only -/
def collectEverywhere (v : Volume) (cfg : FilesystemConfig) : Except Exc Walked :=
  collectWith (fun _ => false) v cfg

example : ((collect ⟨fun _ => some (.dir none (.dir "a[".toList none (.file "x".toList true .nil)
      (.file "b".toList true .nil))), id⟩
        { path := "/srv".toList, exclude := ["a[/*".toList] }).toOption.map
        (·.members.map (·.1))) = some ["b".toList] := by
  decide +kernel

/-- below the path by its absolute name, and beside it -/
example : start "/srv/media".toList "//".toList = .outside "//".toList [] ∧
    start "/srv/media".toList "/srv//media/a".toList = .below ["a".toList] ∧
    start "/srv/media".toList "/a".toList = .outside "/".toList ["a".toList] := by
  decide

/-! ## below a directory that is not entered -/

section
variable {exclude : List Str}

theorem excluded_of_pruned {d : Str} (h : pruned exclude d = true) (x : Str) :
    excluded exclude (d ++ '/' :: x) = true := by
  obtain ⟨pat, hpat, hmatch⟩ := List.any_eq_true.mp h
  obtain ⟨hsuffix, hd⟩ := Bool.and_eq_true_iff.mp hmatch
  obtain ⟨q, rfl⟩ := List.isSuffixOf_iff_suffix.mp hsuffix
  have htake : (q ++ ['/', '*']).take ((q ++ ['/', '*']).length - 2) = q := by simp
  rw [htake] at hd
  exact List.any_eq_true.mpr ⟨_, hpat, fnmatch_below hd x⟩

theorem posix_concat {p : Path} (hp : p ≠ []) (name : Str) :
    posix (p ++ [name]) = posix p ++ '/' :: name := by
  induction p with
  | nil => exact absurd rfl hp
  | cons s p ih =>
    cases p with
    | nil =>
      show s ++ ['/'] ++ name = s ++ '/' :: name
      rw [List.append_assoc]
      rfl
    | cons t p =>
      have hrest := ih (List.cons_ne_nil t p)
      show s ++ ['/'] ++ posix (t :: p ++ [name]) = s ++ ['/'] ++ posix (t :: p) ++ '/' :: name
      rw [hrest]
      simp

/-- everything below `p` is excluded -/
structure Hidden (exclude : List Str) (p : Path) : Prop where
  ne : p ≠ []
  excluded : ∀ x, excluded exclude (posix p ++ '/' :: x) = true

theorem Hidden.of_pruned {p : Path} (hp : p ≠ []) (h : pruned exclude (posix p) = true) :
    Hidden exclude p :=
  ⟨hp, excluded_of_pruned h⟩

theorem Hidden.concat {p : Path} (h : Hidden exclude p) (name : Str) : Hidden exclude (p ++ [name]) := by
  refine ⟨by simp, fun x => ?_⟩
  rw [posix_concat h.ne, List.append_assoc]
  exact h.excluded (name ++ '/' :: x)

theorem Hidden.filesIn {p : Path} (h : Hidden exclude p) (t : Listing) : filesIn exclude p t = [] := by
  induction t with
  | nil => rfl
  | file name regular rest ih =>
    have hex : Filesystem.excluded exclude (posix (p ++ [name])) = true := by
      rw [posix_concat h.ne]
      exact h.excluded name
    unfold Filesystem.filesIn
    rw [hex, Bool.not_true, Bool.and_false]
    exact ih
  | link name rest ih => exact ih
  | dir name raises entries rest _ ih => exact ih

/-- the walk below a hidden directory finds no member -/
theorem Hidden.below {p : Path} (h : Hidden exclude p) (skip : Path → Bool) (t : Listing) :
    (below skip exclude p t).members = [] := by
  induction t generalizing p with
  | nil => rfl
  | file name regular rest ih => exact ih h
  | link name rest ih => exact ih h
  | dir name raises entries rest ihe ih =>
    unfold Filesystem.below
    show List.append _ _ = []
    rw [ih h]
    split
    · rfl
    · cases raises with
      | some e => rfl
      | none =>
        show (Filesystem.filesIn exclude (p ++ [name]) entries ++
          (Filesystem.below skip exclude (p ++ [name]) entries).members) ++ [] = []
        rw [(h.concat name).filesIn, ihe (h.concat name)]
        rfl

/-! ## the two walks -/

/-- a walk that enters only what is not hidden collects what one that enters everything does -/
theorem below_members {skip : Path → Bool} (hskip : ∀ p, p ≠ [] → skip p = true → Hidden exclude p)
    (p : Path) (t : Listing) :
    (below skip exclude p t).members = (below (fun _ => false) exclude p t).members := by
  induction t generalizing p with
  | nil => rfl
  | file name regular rest ih => exact ih p
  | link name rest ih => exact ih p
  | dir name raises entries rest ihe ih =>
    unfold below
    show List.append _ _ = List.append _ _
    rw [ih p]
    congr 1
    rw [if_neg Bool.false_ne_true]
    by_cases hs : skip (p ++ [name]) = true
    · have hidden := hskip (p ++ [name]) (by simp) hs
      rw [if_pos hs]
      cases raises with
      | some e => rfl
      | none =>
        show [] = filesIn exclude (p ++ [name]) entries ++
          (below (fun _ => false) exclude (p ++ [name]) entries).members
        rw [hidden.filesIn, hidden.below]
        rfl
    · rw [if_neg hs]
      cases raises with
      | some e => rfl
      | none =>
        show filesIn exclude (p ++ [name]) entries ++ _ = filesIn exclude (p ++ [name]) entries ++ _
        rw [ihe]

theorem walkBelow_members (v : Volume) {skip : Path → Bool}
    (hskip : ∀ p, p ≠ [] → skip p = true → Hidden exclude p) (p : Path) :
    (walkBelow v skip exclude p).map (·.members) =
      (walkBelow v (fun _ => false) exclude p).map (·.members) := by
  unfold walkBelow
  cases v.root (.below p) with
  | none => rfl
  | some root =>
    cases root with
    | file => rfl
    | dir raises entries =>
      cases raises with
      | some e => rfl
      | none =>
        show Except.ok (filesIn exclude p entries ++ _) = Except.ok (filesIn exclude p entries ++ _)
        rw [below_members hskip]

/-- two computations that agree in what `f` shows of their results, each followed by one that depends
on no more -/
theorem map_bind_congr {α β γ : Type} {f : α → β} {g : α → γ} {x y : Except Exc α}
    {k k' : α → Except Exc α} (h : x.map f = y.map f)
    (hk : ∀ a b, f a = f b → (k a).map g = (k' b).map g) : (x >>= k).map g = (y >>= k').map g := by
  cases x with
  | error e =>
    cases y with
    | error e' => exact congrArg Except.error (Except.error.inj h)
    | ok b => cases h
  | ok a =>
    cases y with
    | error e' => cases h
    | ok b => exact hk a b (Except.ok.inj h)

theorem walkRoot_members (v : Volume) (path : Str) {skip : Path → Bool}
    (hskip : ∀ p, p ≠ [] → skip p = true → Hidden exclude p) (s : Start) :
    (walkRoot v path skip exclude s).map (·.members) =
      (walkRoot v path (fun _ => false) exclude s).map (·.members) := by
  cases s with
  | below p => exact walkBelow_members v hskip p
  | outside anchor p => rfl

theorem walkRoots_members (v : Volume) (path : Str) {skip : Path → Bool}
    (hskip : ∀ p, p ≠ [] → skip p = true → Hidden exclude p) (ss : List Start) :
    (walkRoots v path skip exclude ss).map (·.members) =
      (walkRoots v path (fun _ => false) exclude ss).map (·.members) := by
  induction ss with
  | nil => rfl
  | cons s ss ih =>
    refine map_bind_congr (walkRoot_members v path hskip s) fun a b hab => ?_
    refine map_bind_congr ih fun c d hcd => ?_
    show Except.ok (a.members ++ c.members) = Except.ok (b.members ++ d.members)
    rw [hab, hcd]

end

/-- **Skipping excluded directories changes nothing**: the members are those of a walk that enters
every directory, and every file below a directory that is not entered is excluded. -/
theorem collect_everywhere (v : Volume) (cfg : FilesystemConfig) :
    (collect v cfg).map (·.members) = (collectEverywhere v cfg).map (·.members) ∧
    ∀ d x, pruned cfg.exclude d = true → excluded cfg.exclude (d ++ '/' :: x) = true := by
  refine ⟨?_, fun d x h => excluded_of_pruned h x⟩
  have hskip : ∀ p : Path, p ≠ [] → pruned cfg.exclude (posix p) = true → Hidden cfg.exclude p :=
    fun p hp h => Hidden.of_pruned hp h
  refine map_bind_congr (walkRoots_members v cfg.path hskip (roots cfg)) fun a b hab => ?_
  show Except.ok (a.members.insertionSort _) = Except.ok (b.members.insertionSort _)
  rw [hab]

theorem collect_everywhere_cache :
    excluded ["cache/*".toList] ("cache".toList ++ '/' :: "img/1.png".toList) = true :=
  (collect_everywhere ⟨fun _ => none, id⟩
    { path := "/srv".toList, exclude := ["cache/*".toList] }).2 _ _ (by decide)

end Filesystem
end BackupHelper
