import BackupHelper.Sources.Base
import BackupHelper.Lib.KeyStore

/-!
# The local destination

Keys are the paths of files below a root directory.  Every operation may fail: making directories part of
the way, copying after some of the bytes.  A directory that cannot be listed is not modelled.

* `put`, `get`, `listKeys`, `delete`, `exists_`   as the engine does, on a disk;
* `canonical`                                     the keys that name a file below the root as it is listed;
* `Tidy`                                          disks: everything is in a directory and has a file name;
* `sound`                                         **a disk below a root is a store of bytes under keys**.
-/

namespace BackupHelper
open Text Files Disk

namespace LocalDestination
open KeyStore

/-- how an operation fails -/
inductive Fault where
  | calm
  /-- when `n` directories on the way to the file are there -/
  | stopped (n : ℕ)
  /-- when `n` bytes are copied -/
  | copied (n : ℕ)

def Fault.isCalm : Fault → Bool
  | .calm => true
  | _ => false

/-! ## the operations -/

/-- `root / key`, from the root of the file system -/
def path (root : Path) (key : Str) : Path := (at_ root key).1 ++ (at_ root key).2

/-- the directories that were made when `mkdir` raised, at the `n`-th one or before -/
def partway (d : Disk Bytes) (dirs : List Str) : ℕ → Disk Bytes
  | 0 => d
  | n + 1 => (d.mkdirs fits [] (dirs.take (n + 1))).getD (partway d dirs n)

/-- what is copied -/
def Fault.copy (b : Bytes) : Fault → Bytes
  | .copied n => b.take n
  | _ => b

/-- `target.parent.mkdir(parents=True, exist_ok=True)` -/
def mkParent (target : Path) (f : Fault) (d : Disk Bytes) : Bool × Disk Bytes :=
  match f with
  | .stopped n => (false, partway d target.dropLast n)
  | _ =>
    match d.mkdirs fits [] target.dropLast with
    | none => (false, partway d target.dropLast target.length)
    | some d' => (true, d')

/-- `shutil.copyfile`, of a file with these bytes -/
def copyfile (target : Path) (b : Bytes) (f : Fault) (d : Disk Bytes) : Bool × Disk Bytes :=
  match d.write fits [] target (f.copy b) with
  | none => (false, d)
  | some d' => (f.isCalm, d')

def put (root : Path) (b : Bytes) (key : Str) (f : Fault) (d : Disk Bytes) : Bool × Disk Bytes :=
  let r := mkParent (path root key) f d
  if r.1 then copyfile (path root key) b f r.2 else r

/-- what a path leads to -/
inductive Found where
  | here (q : Path)
  | missing
  /-- through a file, or with a name that the file system does not take -/
  | refused

def find (d : Disk Bytes) : Path → List Str → Found
  | p, [] => .here p
  | p, s :: segs =>
    match d.node p with
    | none => .missing
    | some (.file _) => .refused
    | some .dir => if fits s then find d (step p s) segs else .refused

def contents : Option (Node Bytes) → Option Bytes
  | some (.file b) => some b
  | _ => none

/-- the file that is copied, if it is there -/
def get (root : Path) (key : Str) (f : Fault) (d : Disk Bytes) : Option Bytes :=
  match f, find d [] (path root key) with
  | .calm, .here q => contents (d.node q)
  | _, _ => none

def fileKey : Path × Node Bytes → Option Str
  | (r, .file _) => some (posix r)
  | _ => none

def listKeys (root : Path) (pfx : Str) (d : Disk Bytes) : List Str :=
  if d.node root = none then []
  else sorted (((d.below root).filterMap fileKey).filter pfx.isPrefixOf)

/-- `unlink(missing_ok=True)` -/
def delete (root : Path) (key : Str) (f : Fault) (d : Disk Bytes) : Bool × Disk Bytes :=
  match f, find d [] (path root key) with
  | .calm, .missing => (true, d)
  | .calm, .here q =>
    match d.node q with
    | none => (true, d)
    | some .dir => (false, d)
    | some (.file _) => (true, d.remove q)
  | _, _ => (false, d)

def exists_ (root : Path) (key : Str) (d : Disk Bytes) : Bool :=
  match find d [] (path root key) with
  | .here q => d.isFile q
  | _ => false

/-! ## keys and paths -/

def canonical (key : Str) : Prop :=
  parts '/' key ≠ [] ∧ up ∉ parts '/' key ∧ posix (parts '/' key) = key

instance (key : Str) : Decidable (canonical key) := by
  unfold canonical
  infer_instance

/-- the name of a file in a directory -/
structure Name (s : Str) : Prop where
  ne : s ≠ []
  dot : s ≠ ['.']
  up : s ≠ up
  slash : free '/' s

theorem parts_name {s : Str} (h : Name s) : parts '/' s = [s] := by
  unfold parts
  rw [pieces_free h.slash, List.filter_cons_of_pos (by simp [h.ne, h.dot])]
  rfl

theorem parts_posix {r : Path} (h : ∀ s ∈ r, Name s) : parts '/' (posix r) = r := by
  induction r with
  | nil => decide
  | cons s r ih =>
    rw [List.forall_mem_cons] at h
    rw [show s :: r = [s] ++ r from rfl, parts_posix_append, ih h.2]
    show parts '/' s ++ r = _
    rw [parts_name h.1]

theorem canonical_posix {r : Path} (hr : r ≠ []) (h : ∀ s ∈ r, Name s) : canonical (posix r) := by
  unfold canonical
  rw [parts_posix h]
  exact ⟨hr, fun hup => (h up hup).up rfl, rfl⟩

/-- a name without a slash -/
theorem canonical_name {s : Str} (h : Name s) : canonical s :=
  canonical_posix (r := [s]) (by simp) fun t ht => by rwa [List.mem_singleton.mp ht]

theorem canonical.names {key : Str} (h : canonical key) : ∀ s ∈ parts '/' key, Name s := by
  intro s hs
  obtain ⟨hpiece, hs'⟩ := List.mem_filter.mp hs
  simp only [ne_eq, decide_eq_true_eq] at hs'
  refine ⟨hs'.1, hs'.2, fun e => h.2.1 (e ▸ hs), fun hc => ?_⟩
  exact free_of_piece hpiece hc

theorem canonical.injective {k k' : Str} (h : canonical k) (h' : canonical k') (he : parts '/' k = parts '/' k') :
    k = k' := by
  rw [← h.2.2, he, h'.2.2]

theorem canonical.path {root : Path} {key : Str} (h : canonical key) : path root key = root ++ parts '/' key := by
  have hrel : ¬ ['/'].isPrefixOf key = true := by
    intro hpre
    obtain ⟨t, ht⟩ := List.isPrefixOf_iff_prefix.mp hpre
    -- the text begins with a name that is not empty and has no slash
    have hkey := h.2.2
    cases hparts : parts '/' key with
    | nil => exact h.1 hparts
    | cons s r =>
      have hname := h.names s (by rw [hparts]; exact List.mem_cons_self)
      rw [hparts] at hkey
      cases s with
      | nil => exact hname.ne rfl
      | cons c s =>
        have hc : c = '/' := by
          rw [← ht] at hkey
          cases r with
          | nil => exact (List.cons.inj hkey).1
          | cons s' r => exact (List.cons.inj hkey).1
        exact hname.slash (hc ▸ List.mem_cons_self)
  unfold LocalDestination.path at_
  rw [if_neg hrel]

/-! ## tidy disks -/

/-- everything is in a directory, under a name that a directory may hold -/
structure Tidy (d : Disk Bytes) : Prop where
  closed : d.Closed
  names : ∀ q s, d.node (q ++ [s]) ≠ none → Name s ∧ fits s = true

section
variable {d d' : Disk Bytes}

theorem Tidy.path (hd : Tidy d) {p r : Path} (h : d.node (p ++ r) ≠ none) :
    ∀ s ∈ r, Name s ∧ fits s = true := by
  intro s hs
  obtain ⟨a, b, rfl⟩ := List.append_of_mem hs
  apply hd.names (p ++ a) s
  rw [show p ++ (a ++ s :: b) = p ++ a ++ [s] ++ b by simp] at h
  by_cases hb : b = []
  · rwa [hb, List.append_nil] at h
  · rw [isDir_iff.mp (hd.closed.above hb h)]
    simp

theorem up_notMem_of_names {r : Path} (h : ∀ s ∈ r, Name s) : up ∉ r := fun hup => (h up hup).up rfl

/-- the places on the way to a path without `..` are its beginnings -/
theorem mem_places_plain {segs q : Path} (h : up ∉ segs) : q ∈ Files.places [] segs ↔ q <+: segs := by
  rw [mem_places, mem_trail_plain h, reach_plain h]
  constructor
  · rintro (⟨r, hr, -, rfl⟩ | rfl)
    · exact hr
    · exact List.prefix_rfl
  · intro hq
    by_cases he : q = segs
    · exact Or.inr he
    · exact Or.inl ⟨q, hq, he, rfl⟩

/-- the directories of a path with proper names -/
theorem Tidy.mkdirs (hd : Tidy d) {segs : List Str} (hnames : ∀ s ∈ segs, Name s)
    (h : d.mkdirs fits [] segs = some d') : Tidy d' := by
  obtain ⟨hmade, hdirs, hfits⟩ := mkdirs_spec h
  have hplain := up_notMem_of_names hnames
  refine ⟨fun q s hn => ?_, fun q s hn => ?_⟩
  · rcases hmade.same (q ++ [s]) with he | ⟨hplace, -, -⟩
    · rw [he] at hn
      exact hmade.isDir (hd.closed q s hn)
    · apply hdirs
      rw [mem_places_plain hplain] at hplace ⊢
      exact (List.prefix_append q [s]).trans hplace
  · rcases hmade.same (q ++ [s]) with he | ⟨hplace, -, -⟩
    · rw [he] at hn
      exact hd.names q s hn
    · rw [mem_places_plain hplain] at hplace
      have hs : s ∈ segs := hplace.subset (by simp)
      exact ⟨hnames s hs, hfits s hs⟩

/-- directories that were made, and nothing else -/
theorem made_partway (d : Disk Bytes) (dirs : List Str) (n : ℕ) :
    partway d dirs n = d ∨ ∃ m, d.mkdirs fits [] (dirs.take m) = some (partway d dirs n) := by
  induction n with
  | zero => exact Or.inl rfl
  | succ n ih =>
    unfold partway
    cases hmk : d.mkdirs fits [] (dirs.take (n + 1)) with
    | none => exact ih
    | some d' => exact Or.inr ⟨n + 1, hmk⟩

/-- a file in a directory -/
theorem Tidy.put (hd : Tidy d) {q : Path} {s : Str} (hq : d.isDir q = true) (hs : Name s) (hfits : fits s = true)
    (hnot : d.isDir (q ++ [s]) = false) (b : Bytes) : Tidy (d.put (q ++ [s]) (.file b)) := by
  have hin : ∀ q' s', q ++ [s] = q' ++ [s'] → d.isDir q' = true := by
    intro q' s' he
    rw [← (List.append_inj' he rfl).1]
    exact hq
  have hsame : ∀ p, p ≠ q ++ [s] → (d.put (q ++ [s]) (.file b)).node p = d.node p := fun p hp => node_put_ne hp
  refine ⟨(hd.closed.change hin hnot (isDir_put_self hnot) hsame).1, fun q' s' hn => ?_⟩
  by_cases he : q' ++ [s'] = q ++ [s]
  · rw [List.singleton_inj.mp (List.append_inj' he rfl).2]
    exact ⟨hs, hfits⟩
  · rw [node_put_ne he] at hn
    exact hd.names q' s' hn

theorem Tidy.remove (hd : Tidy d) {q : Path} {s : Str} {b : Bytes} (hn : d.node (q ++ [s]) = some (.file b)) :
    Tidy (d.remove (q ++ [s])) := by
  have hnot : d.isDir (q ++ [s]) = false := by rw [isDir, hn]
  have hin : ∀ q' s', q ++ [s] = q' ++ [s'] → d.isDir q' = true := by
    intro q' s' he
    rw [← (List.append_inj' he rfl).1]
    exact hd.closed q s (by rw [hn]; simp)
  have hchange := hd.closed.change hin hnot (isDir_remove_self (by simp)) fun p hp => node_remove_file hd.closed hnot hp
  refine ⟨hchange.1, fun q' s' hn' => ?_⟩
  by_cases he : q' ++ [s'] = q ++ [s]
  · rw [he, node_remove_self (by simp)] at hn'
    exact absurd rfl hn'
  · rw [node_remove_file hd.closed hnot he] at hn'
    exact hd.names q' s' hn'

/-! ## what a path leads to -/

theorem find_here {p q : Path} {segs : List Str} (hup : up ∉ segs) (h : find d p segs = .here q) : q = p ++ segs := by
  induction segs generalizing p with
  | nil =>
    rw [List.append_nil]
    exact (Found.here.inj h).symm
  | cons s segs ih =>
    unfold find at h
    split at h
    · cases h
    · cases h
    · split at h
      · have hs : s ≠ up := fun e => hup (e ▸ List.mem_cons_self)
        rw [ih (fun hm => hup (List.mem_cons_of_mem _ hm)) h, step, if_neg hs, List.append_assoc]
        rfl
      · cases h

/-- what is there is found -/
theorem Tidy.find (hd : Tidy d) {p : Path} {segs : List Str} (h : d.node (p ++ segs) ≠ none) :
    find d p segs = .here (p ++ segs) := by
  induction segs generalizing p with
  | nil => rw [List.append_nil]; rfl
  | cons s segs ih =>
    obtain ⟨hname, hfits⟩ := hd.path h s List.mem_cons_self
    have hdir := isDir_iff.mp (hd.closed.above (List.cons_ne_nil s segs) h)
    have hassoc : p ++ s :: segs = p ++ [s] ++ segs := by simp
    unfold LocalDestination.find
    rw [hdir]
    show (if fits s = true then LocalDestination.find d (step p s) segs else .refused) = _
    rw [if_pos hfits, step, if_neg hname.up, hassoc]
    apply ih
    rwa [hassoc] at h

theorem contents_eq_some {n : Option (Node Bytes)} {b : Bytes} : contents n = some b ↔ n = some (.file b) := by
  unfold contents
  split
  · simp
  · rename_i hnot
    constructor
    · intro h
      cases h
    · intro h
      exact absurd h (hnot b)

/-- no file was made, changed or removed where directories were made -/
theorem contents_made {P : List Path} (h : Disk.Made P d d') (q : Path) :
    contents (d'.node q) = contents (d.node q) := by
  rcases h.same q with he | ⟨-, hn, he⟩
  · rw [he]
  · rw [hn, he]
    rfl

end

/-! ## the store -/

/-- the store of the files below a root -/
def view (root : Path) (d : Disk Bytes) : Map Bytes := fun k =>
  if canonical k then contents (d.node (root ++ parts '/' k)) else none

def machine (root : Path) : Machine Bytes Fault (Disk Bytes) where
  ask r f d :=
    match r with
    | .put k b => (if (put root b k f d).1 then .done else .failed, (put root b k f d).2)
    | .get k =>
      match get root k f d with
      | some b => (.value b, d)
      | none => (.failed, d)
    | .list pfx => (.keys (listKeys root pfx d), d)
    | .delete k => (if (delete root k f d).1 then .done else .failed, (delete root k f d).2)
    | .holds k => (.yes (exists_ root k d), d)
  view := view root

/-- to read changes nothing -/
theorem machine_get (root : Path) (k : Str) (f : Fault) (d : Disk Bytes) :
    (machine root).ask (.get k) f d = ((get root k f d).elim .failed .value, d) := by
  cases hget : get root k f d with
  | none => simp only [machine, hget, Option.elim]
  | some b => simp only [machine, hget, Option.elim]

section
variable {root : Path} {d d' : Disk Bytes} {key : Str}

theorem view_made {P : List Path} (h : Disk.Made P d d') : view root d' = view root d := by
  funext k
  unfold view
  rw [contents_made h]

theorem root_append_ne (hk : canonical key) {k : Str} (hk' : canonical k) (hne : k ≠ key) :
    root ++ parts '/' k ≠ root ++ parts '/' key := fun he =>
  hne (hk'.injective hk (List.append_cancel_left he))

theorem view_put (hk : canonical key) (b : Bytes) :
    view root (d.put (root ++ parts '/' key) (.file b)) = Function.update (view root d) key (some b) := by
  funext k
  by_cases he : k = key
  · subst he
    rw [Function.update_self]
    unfold view
    rw [if_pos hk, node_put_self (by simp [hk.1])]
    rfl
  · rw [Function.update_of_ne he]
    unfold view
    by_cases hk' : canonical k
    · rw [if_pos hk', if_pos hk', node_put_ne (root_append_ne hk hk' he)]
    · rw [if_neg hk', if_neg hk']

theorem view_remove (hd : Tidy d) (hk : canonical key) {b : Bytes}
    (hn : d.node (root ++ parts '/' key) = some (.file b)) :
    view root (d.remove (root ++ parts '/' key)) = Function.update (view root d) key none := by
  have hnot : d.isDir (root ++ parts '/' key) = false := by rw [isDir, hn]
  funext k
  by_cases he : k = key
  · subst he
    rw [Function.update_self]
    unfold view
    rw [if_pos hk, node_remove_self (by simp [hk.1])]
    rfl
  · rw [Function.update_of_ne he]
    unfold view
    by_cases hk' : canonical k
    · rw [if_pos hk', if_pos hk', node_remove_file hd.closed hnot (root_append_ne hk hk' he)]
    · rw [if_neg hk', if_neg hk']

/-- nothing is stored where there is no file -/
theorem update_none (hn : contents (d.node (root ++ parts '/' key)) = none) :
    Function.update (view root d) key none = view root d := by
  funext k
  by_cases he : k = key
  · subst he
    rw [Function.update_self]
    unfold view
    rw [hn, ite_self]
  · rw [Function.update_of_ne he]

/-- no file outside of the root is made, changed or removed -/
def FilesKept (root : Path) (d d' : Disk Bytes) : Prop :=
  ∀ q, ¬ root <+: q → contents (d'.node q) = contents (d.node q)

theorem path_names (hroot : ∀ s ∈ root, Name s) (hk : canonical key) : ∀ s ∈ path root key, Name s := by
  rw [hk.path]
  intro s hs
  rcases List.mem_append.mp hs with h | h
  · exact hroot s h
  · exact hk.names s h

/-- directories are made, and nothing else -/
theorem mkParent_spec (hd : Tidy d) {target : Path} (hnames : ∀ s ∈ target, Name s) (f : Fault) :
    ∃ P, Disk.Made P d (mkParent target f d).2 ∧ Tidy (mkParent target f d).2 ∧
      ((mkParent target f d).1 = true → (mkParent target f d).2.isDir target.dropLast = true) := by
  have hdirs : ∀ s ∈ target.dropLast, Name s := fun s hs => hnames s (List.mem_of_mem_dropLast hs)
  have hpart : ∀ n, ∃ P, Disk.Made P d (partway d target.dropLast n) ∧ Tidy (partway d target.dropLast n) := by
    intro n
    rcases made_partway d target.dropLast n with he | ⟨m, hmk⟩
    · rw [he]
      exact ⟨[], Disk.Made.refl _ d, hd⟩
    · exact ⟨_, (mkdirs_spec hmk).1, hd.mkdirs (fun s hs => hdirs s (List.mem_of_mem_take hs)) hmk⟩
  have hrest : ∀ g : Fault, (∀ n, g ≠ .stopped n) → ∃ P, Disk.Made P d (mkParent target g d).2 ∧
      Tidy (mkParent target g d).2 ∧ ((mkParent target g d).1 = true →
        (mkParent target g d).2.isDir target.dropLast = true) := by
    intro g hg
    have hunfold : mkParent target g d = match d.mkdirs fits [] target.dropLast with
        | none => (false, partway d target.dropLast target.length)
        | some d' => (true, d') := by
      cases g with
      | stopped n => exact absurd rfl (hg n)
      | calm => rfl
      | copied n => rfl
    rw [hunfold]
    cases hmk : d.mkdirs fits [] target.dropLast with
    | none =>
      obtain ⟨P, hmade, htidy⟩ := hpart target.length
      exact ⟨P, hmade, htidy, nofun⟩
    | some d' =>
      obtain ⟨hmade, hall, -⟩ := mkdirs_spec hmk
      refine ⟨_, hmade, hd.mkdirs hdirs hmk, fun _ => hall _ ?_⟩
      exact (mem_places_plain (up_notMem_of_names hdirs)).mpr List.prefix_rfl
  cases f with
  | stopped n =>
    obtain ⟨P, hmade, htidy⟩ := hpart n
    exact ⟨P, hmade, htidy, nofun⟩
  | calm => exact hrest .calm nofun
  | copied n => exact hrest (.copied n) nofun

theorem copy_prefix (b : Bytes) (f : Fault) : f.copy b <+: b := by
  cases f with
  | copied n => exact List.take_prefix n b
  | _ => exact List.prefix_rfl

theorem copy_calm {b : Bytes} {f : Fault} (h : f.isCalm = true) : f.copy b = b := by
  cases f with
  | calm => rfl
  | _ => cases h

/-- a copy fails, or writes to the target -/
theorem copyfile_spec (hd : Tidy d) {target : Path} (hne : target ≠ []) (hnames : ∀ s ∈ target, Name s)
    (hdir : d.isDir target.dropLast = true) (b : Bytes) (f : Fault) :
    copyfile target b f d = (false, d) ∨ copyfile target b f d = (f.isCalm, d.put target (.file (f.copy b))) ∧
      Tidy (d.put target (.file (f.copy b))) := by
  unfold copyfile
  split
  · exact Or.inl rfl
  · rename_i d' hwrite
    obtain ⟨-, hfits, hnot, rfl⟩ := Disk.write_eq_some.mp hwrite
    rw [reach_plain (up_notMem_of_names hnames), List.nil_append] at hnot ⊢
    refine Or.inr ⟨rfl, ?_⟩
    have hmem := List.getLast_mem hne
    have hput := fun hnot => hd.put hdir (hnames _ hmem) (hfits _ hmem) hnot (f.copy b)
    rw [List.dropLast_append_getLast hne] at hput
    exact hput hnot

/-- what becomes of a put -/
theorem put_spec (hd : Tidy d) (hroot : ∀ s ∈ root, Name s) (hk : canonical key) (b : Bytes) (f : Fault) :
    Tidy (put root b key f d).2 ∧ FilesKept root d (put root b key f d).2 ∧
      ((put root b key f d).1 = false ∧ view root (put root b key f d).2 = view root d ∨
        ∃ b', b' <+: b ∧ ((put root b key f d).1 = true → b' = b) ∧
          view root (put root b key f d).2 = Function.update (view root d) key (some b')) := by
  have hnames := path_names hroot hk
  have hne : path root key ≠ [] := by
    rw [hk.path]
    simp [hk.1]
  obtain ⟨P, hmade, htidy, hparent⟩ := mkParent_spec hd hnames f
  have hkept : FilesKept root d (mkParent (path root key) f d).2 := fun q _ => contents_made hmade q
  have hfailed : view root (mkParent (path root key) f d).2 = view root d := view_made hmade
  unfold put
  dsimp only
  split
  · rename_i hok
    rcases copyfile_spec htidy hne hnames (hparent hok) b f with he | ⟨he, htidy'⟩
    · rw [he]
      exact ⟨htidy, hkept, Or.inl ⟨rfl, hfailed⟩⟩
    · rw [he]
      refine ⟨htidy', fun q hq => ?_, Or.inr ⟨f.copy b, copy_prefix b f, fun h => copy_calm h, ?_⟩⟩
      · have hqne : q ≠ path root key := fun e => hq (by rw [e, hk.path]; exact List.prefix_append _ _)
        show contents ((Disk.put _ _ _).node q) = _
        rw [node_put_ne hqne]
        exact hkept q hq
      · show view root (Disk.put _ (path root key) _) = _
        rw [← hfailed, ← view_put hk, hk.path]
  · rename_i hno
    exact ⟨htidy, hkept, Or.inl ⟨by simpa using hno, hfailed⟩⟩

/-- the file of a key is found -/
theorem Tidy.find_path (hd : Tidy d) (hk : canonical key) (hn : d.node (root ++ parts '/' key) ≠ none) :
    LocalDestination.find d [] (LocalDestination.path root key) = .here (root ++ parts '/' key) := by
  rw [hk.path]
  exact hd.find (p := []) hn

/-- what becomes of a delete -/
theorem delete_spec (hd : Tidy d) (hroot : ∀ s ∈ root, Name s) (hk : canonical key) (f : Fault) :
    Tidy (delete root key f d).2 ∧ FilesKept root d (delete root key f d).2 ∧
      ((delete root key f d).1 = false ∧ view root (delete root key f d).2 = view root d ∨
        view root (delete root key f d).2 = Function.update (view root d) key none) := by
  have hsame : ∀ b : Bool, (b = true → contents (d.node (root ++ parts '/' key)) = none) →
      Tidy (b, d).2 ∧ FilesKept root d (b, d).2 ∧ ((b, d).1 = false ∧ view root (b, d).2 = view root d ∨
        view root (b, d).2 = Function.update (view root d) key none) := by
    intro b hb
    refine ⟨hd, fun q _ => rfl, ?_⟩
    cases b with
    | false => exact Or.inl ⟨rfl, rfl⟩
    | true => exact Or.inr (update_none (hb rfl)).symm
  have hpath : path root key = root ++ parts '/' key := hk.path
  have hup := up_notMem_of_names (path_names hroot hk)
  unfold delete
  split
  · rename_i hfind
    refine hsame true fun _ => ?_
    by_contra hn
    -- a file would have been found
    rw [hd.find_path hk fun he => hn (by rw [he]; rfl)] at hfind
    cases hfind
  · rename_i q hfind
    obtain rfl := find_here hup hfind
    rw [List.nil_append, hpath]
    split
    · rename_i hn
      exact hsame true fun _ => by rw [hn]; rfl
    · exact hsame false nofun
    · rename_i b hn
      have hnot : d.isDir (root ++ parts '/' key) = false := by rw [isDir, hn]
      refine ⟨?_, fun q hq => ?_, Or.inr (view_remove hd hk hn)⟩
      · have hne : root ++ parts '/' key ≠ [] := by simp [hk.1]
        rw [← List.dropLast_append_getLast hne] at hn ⊢
        exact hd.remove hn
      · have hqne : q ≠ root ++ parts '/' key := fun e => hq (e ▸ List.prefix_append _ _)
        show contents ((Disk.remove _ _).node q) = _
        rw [node_remove_file hd.closed hnot hqne]
  · exact hsame false nofun

/-- the files below a root by their keys -/
theorem mem_listKeys (hd : Tidy d) {pfx x : Str} : x ∈ listKeys root pfx d ↔ pfx <+: x ∧ view root d x ≠ none := by
  have hview : view root d x ≠ none ↔ ∃ r b, r ≠ [] ∧ d.node (root ++ r) = some (.file b) ∧ posix r = x := by
    unfold view
    constructor
    · intro h
      have hk : canonical x := by
        by_contra hk
        rw [if_neg hk] at h
        exact h rfl
      rw [if_pos hk] at h
      obtain ⟨b, hb⟩ := Option.ne_none_iff_exists'.mp h
      exact ⟨parts '/' x, b, hk.1, contents_eq_some.mp hb, hk.2.2⟩
    · rintro ⟨r, b, hr, hn, rfl⟩
      have hnames : ∀ s ∈ r, Name s := fun s hs => (hd.path (p := root) (by rw [hn]; simp) s hs).1
      rw [if_pos (canonical_posix hr hnames), parts_posix hnames, hn]
      nofun
  rw [hview]
  unfold listKeys
  split
  · rename_i hroot
    constructor
    · intro hx
      cases hx
    · rintro ⟨-, r, b, hr, hn, -⟩
      rw [isDir_iff.mp (hd.closed.above hr (by rw [hn]; simp))] at hroot
      cases hroot
  · rw [mem_sorted, List.mem_filter, List.mem_filterMap, List.isPrefixOf_iff_prefix, and_comm]
    refine and_congr_right' ⟨?_, ?_⟩
    · rintro ⟨⟨r, n⟩, hmem, he⟩
      cases n with
      | dir => cases he
      | file b =>
        obtain ⟨hr, hn⟩ := mem_below.mp hmem
        exact ⟨r, b, hr, hn, Option.some.inj he⟩
    · rintro ⟨r, b, hr, hn, rfl⟩
      exact ⟨(r, .file b), mem_below.mpr ⟨hr, hn⟩, rfl⟩

theorem nodup_below (d : Disk Bytes) (p : Path) : (d.below p).Nodup := by
  unfold below
  refine List.pairwise_filterMap.mpr (((List.nodup_dedup _).filter _).imp_of_mem ?_)
  intro q q' hq hq' hne e he e' he' heq
  obtain ⟨n, -, rfl⟩ := Option.map_eq_some_iff.mp he
  obtain ⟨n', -, rfl⟩ := Option.map_eq_some_iff.mp he'
  obtain ⟨hpre, -⟩ := of_decide_eq_true (List.mem_filter.mp hq).2
  obtain ⟨hpre', -⟩ := of_decide_eq_true (List.mem_filter.mp hq').2
  obtain ⟨r, rfl⟩ := hpre
  obtain ⟨r', rfl⟩ := hpre'
  have hdrop := (Prod.mk.inj heq).1
  rw [List.drop_left, List.drop_left] at hdrop
  exact hne (by rw [hdrop])

/-- two files have different keys -/
theorem nodup_keys (hd : Tidy d) : ((d.below root).filterMap fileKey).Nodup := by
  refine List.pairwise_filterMap.mpr ((nodup_below d root).imp_of_mem ?_)
  rintro ⟨r, n⟩ ⟨r', n'⟩ hmem hmem' hne k hk k' hk' he
  have hnames : ∀ {r n}, (r, n) ∈ d.below root → ∀ s ∈ r, Name s := by
    intro r n hmem s hs
    have hn := (mem_below.mp hmem).2
    exact (hd.path (p := root) (by rw [hn]; simp) s hs).1
  cases n with
  | dir => cases hk
  | file b =>
    cases n' with
    | dir => cases hk'
    | file b' =>
      have hr : r = r' := by
        rw [← parts_posix (hnames hmem), ← parts_posix (hnames hmem')]
        rw [show posix r = posix r' from (Option.some.inj hk).trans (he.trans (Option.some.inj hk').symm)]
      subst hr
      have hn := (mem_below.mp hmem).2
      rw [(mem_below.mp hmem').2] at hn
      exact hne (by rw [Option.some.inj hn])

theorem listKeys_strict (hd : Tidy d) (pfx : Str) : (listKeys root pfx d).Pairwise (· < ·) := by
  unfold listKeys
  split
  · exact .nil
  · exact sorted_strict ((nodup_keys hd).filter _)

/-- what a request for a key leads to -/
theorem view_find (hd : Tidy d) (hroot : ∀ s ∈ root, Name s) (hk : canonical key) :
    view root d key = match find d [] (path root key) with
      | .here q => contents (d.node q)
      | _ => none := by
  have hpath : path root key = root ++ parts '/' key := hk.path
  unfold view
  rw [if_pos hk]
  by_cases hn : d.node (root ++ parts '/' key) = none
  · rw [hn]
    split
    · rename_i q hfind
      rw [find_here (up_notMem_of_names (path_names hroot hk)) hfind, List.nil_append, hpath, hn]
    · rfl
  · rw [hd.find_path hk hn]

/-- a request that the destination is for: its key is one that it lists -/
def Keyed : Req Bytes → Prop
  | .put k _ => canonical k
  | .get k => canonical k
  | .list _ => True
  | .delete k => canonical k
  | .holds k => canonical k

/-- **A disk below a root is a store of bytes under keys.** -/
theorem sound (hroot : ∀ s ∈ root, Name s) : (machine root).Sound (fun b b' => b' <+: b) Tidy fun q => Keyed q.1 where
  keeps q d hq hd := by
    obtain ⟨r, f⟩ := q
    cases r with
    | put k b => exact (put_spec hd hroot hq b f).1
    | delete k => exact (delete_spec hd hroot hq f).1
    | get k =>
      rw [machine_get]
      exact hd
    | list pfx => exact hd
    | holds k => exact hd
  step q d hq hd := by
    obtain ⟨r, f⟩ := q
    cases r with
    | put k b =>
      show KeyStore.Step _ (view root d) (.put k b) (if (put root b k f d).1 then .done else .failed)
        (view root (put root b k f d).2)
      obtain ⟨-, -, h⟩ := put_spec hd hroot hq b f
      rcases h with ⟨hno, hview⟩ | ⟨b', hb', hall, hview⟩
      · rw [hno, hview]
        exact .failed _
      · rw [hview]
        split
        · rename_i hok
          rw [hall hok]
          exact .put k b
        · exact .putTorn k hb'
    | get k =>
      rw [machine_get]
      show KeyStore.Step _ (view root d) (.get k) ((get root k f d).elim .failed .value) (view root d)
      have hview := view_find hd hroot hq
      cases hget : get root k f d with
      | none => exact .failed _
      | some b =>
        apply KeyStore.Step.get
        unfold get at hget
        split at hget
        · rename_i hfind
          rw [hview, hfind]
          exact hget
        · cases hget
    | list pfx => exact .list (listKeys_strict hd pfx) fun x => mem_listKeys hd
    | delete k =>
      show KeyStore.Step _ (view root d) (.delete k) (if (delete root k f d).1 then .done else .failed)
        (view root (delete root k f d).2)
      obtain ⟨-, -, h⟩ := delete_spec hd hroot hq f
      rcases h with ⟨hno, hview⟩ | hview
      · rw [hno, hview]
        exact .failed _
      · rw [hview]
        split
        · exact .delete k
        · exact .deleteLate k
    | holds k =>
      show KeyStore.Step _ (view root d) (.holds k) (.yes (exists_ root k d)) (view root d)
      have hyes : exists_ root k d = (view root d k).isSome := by
        rw [view_find hd hroot hq]
        unfold exists_
        split
        · rename_i q hfind
          unfold Disk.isFile contents
          split
          · rename_i b hn
            rw [hn]
            rfl
          · rename_i hn
            split
            · rename_i b hb
              exact absurd hb (hn b)
            · rfl
        · rfl
      rw [hyes]
      exact .holds k

theorem filesKept_ask (hroot : ∀ s ∈ root, Name s) {r : Req Bytes} (hr : Keyed r) (f : Fault) (hd : Tidy d) :
    FilesKept root d ((machine root).ask r f d).2 := by
  cases r with
  | put k b => exact (put_spec hd hroot hr b f).2.1
  | delete k => exact (delete_spec hd hroot hr f).2.1
  | get k =>
    rw [machine_get]
    exact fun _ _ => rfl
  | list pfx => exact fun _ _ => rfl
  | holds k => exact fun _ _ => rfl

theorem filesKept_run (hroot : ∀ s ∈ root, Name s) {qs : List (Req Bytes × Fault)} (hqs : ∀ q ∈ qs, Keyed q.1)
    (hd : Tidy d) : FilesKept root d ((machine root).run qs d).2 := by
  induction qs generalizing d with
  | nil => exact fun _ _ => rfl
  | cons q qs ih =>
    rw [List.forall_mem_cons] at hqs
    intro p hp
    refine (ih hqs.2 ((sound hroot).keeps q d hqs.1 hd) p hp).trans ?_
    exact filesKept_ask hroot hqs.1 q.2 hd p hp

end
end LocalDestination
end BackupHelper
