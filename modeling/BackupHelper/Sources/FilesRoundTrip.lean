import BackupHelper.Runner.Produce
import BackupHelper.Sources.Filesystem

/-!
# The archive of the filesystem source, there and back

`produce` writes the collected files into an archive, a symbolic link as a link; `restore` copies
every file of the extracted archive onto the path, a link as the file it leads to.

* `PathGroup`              what there is under the path, regular files and links to files;
* `writeTargz`, `produce`  the archive, and the warnings;
* `restore`                the way back;
* `Leads`                  the file that a link leads to, by way of the members alone;
* `files_round_trip_iff`   **the archives that are restored in full.**
-/

namespace BackupHelper
namespace Filesystem
open Text Glob Files Disk

/-! ## what there is under the path -/

inductive Entry where
  | regular (b : Bytes)
  /-- a link, and what is read when it is opened -/
  | symlink (target : Str) (b : Bytes)

def Entry.content : Entry → Bytes
  | .regular b => b
  | .symlink _ b => b

/-- what `gettarinfo` records: it does not follow the link that opening the file follows -/
def Entry.recorded : Entry → FileData
  | .regular b => .bytes b
  | .symlink target _ => .link target

/-- the files of a listing, and of the directories in it that can be listed -/
def filePaths (p : Path) : Listing → List Path
  | .nil => []
  | .file name regular rest => if regular then (p ++ [name]) :: filePaths p rest else filePaths p rest
  | .link _ rest => filePaths p rest
  | .dir name raises entries rest =>
    (if raises.isNone then filePaths (p ++ [name]) entries else []) ++ filePaths p rest

/-- a tree of regular files and of links to files; every path is relative to the configured one -/
structure PathGroup where
  volume : Volume
  /-- what opening a file gives -/
  entry : Path → Except Exc Entry
  named : ∀ p l, volume.root (.below p) = some (.dir none l) → ∀ r ∈ filePaths p l, ∀ s ∈ r,
    fits s = true
  /-- a file is no directory -/
  leaf : ∀ p l, volume.root (.below p) = some (.dir none l) → ∀ r ∈ filePaths p l, ∀ p' l',
    volume.root (.below p') = some (.dir none l') → ∀ r' ∈ filePaths p' l', r <+: r' → r = r'
  /-- a link that stays below the path reads as the file at its end -/
  reads : ∀ r target b, up ∉ r → entry r = .ok (.symlink target b) → absolute target = false →
    inside r.dropLast (parts '/' target) = true →
    ∀ e, entry (reach r.dropLast (parts '/' target)) = .ok e → e.content = b

/-! ## writing -/

/-- `_write_deterministic_targz`: the archive, and what was skipped -/
def writeTargz (entry : Path → Except Exc Entry) :
    List (Str × Path) → List (Member FileData) × List Str
  | [] => ([], [])
  | (arcname, p) :: members =>
    let (archive, skipped) := writeTargz entry members
    match entry p with
    | .error e =>
      (archive, (arcname ++ " (file not readable: ".toList ++ e.reason ++ ")".toList) :: skipped)
    | .ok e => ((p, .file e.recorded) :: archive, skipped)

def maxWarnings : ℕ := 20

def summarize (skipped : List Str) : List Str :=
  if skipped.length ≤ maxWarnings then skipped
  else skipped.take maxWarnings ++
    ["... and ".toList ++ (toString (skipped.length - maxWarnings)).toList ++ " more".toList]

/-- the component of a filesystem source -/
structure Produced where
  /-- `path`: the archive -/
  archive : Option (List (Member FileData))
  fileCount : ℕ := 0
  warnings : List Str := []
  error : Option Str := none

def produce (g : PathGroup) (cfg : FilesystemConfig) : Except Exc Produced :=
  match g.volume.root (.below []) with
  | none => .ok { archive := none, error := some ("path not found: ".toList ++ pathText cfg.path) }
  | some _ => do
    let w ← collect g.volume cfg
    let (archive, skipped) := writeTargz g.entry w.members
    pure { archive := some archive, fileCount := archive.length,
           warnings := summarize (w.skipped ++ skipped) }

/-! ## reading -/

/-- the filter of the extraction as it treats links: the target that is made, none where it raises -/
abbrev LinkFilter := Path → Str → Option Str

/-- files pass -/
def LinkFilter.onData (links : LinkFilter) : Path → FileData → Option FileData
  | p, .link target => (links p target).map .link
  | _, b => some b

/-- one item of `rglob`, if it is a file: what is at the end of it is copied -/
def copyItem (h : Host) (staged target : Path) (d : Disk FileData) (r : Path) :
    Option (Disk FileData) :=
  match resolve h d (staged, r) with
  | none => some d
  | some (_, b) => d.save h.fits target r b

/-- `restore` onto a target without links; `order` is the one in which the items are found -/
def restore (h : Host) (order : List Path → List Path) (d : Disk FileData) (staged target : Path) :
    Option (Disk FileData) :=
  match d.mkdirs h.fits [] target with
  | none => none
  | some d => (order ((d.below staged).map (·.1))).foldlM (copyItem h staged target) d

/-- the filter raises on a link that is absolute or that leaves the directory, and changes of a
target no more than its spelling -/
structure LinkFilter.Confines (links : LinkFilter) : Prop where
  before : ∀ r t t', links r t = some t' → absolute t = false ∧ inside r.dropLast (parts '/' t) = true
  after : ∀ r t t', links r t = some t' → absolute t' = false ∧ inside r.dropLast (parts '/' t') = true
  same : ∀ r t t', links r t = some t' →
    reach r.dropLast (parts '/' t') = reach r.dropLast (parts '/' t)

/-- as the `data` filter: the target stays as it is -/
def dataFilter : LinkFilter := fun r t =>
  if absolute t = false ∧ inside r.dropLast (parts '/' t) = true then some t else none

theorem dataFilter_confines : dataFilter.Confines := by
  have h : ∀ r t t', dataFilter r t = some t' →
      t' = t ∧ absolute t = false ∧ inside r.dropLast (parts '/' t) = true := by
    intro r t t' ht
    unfold dataFilter at ht
    split at ht
    · rename_i hin
      exact ⟨(Option.some.inj ht).symm, hin⟩
    · simp at ht
  constructor
  · intro r t t' ht
    exact (h r t t' ht).2
  · intro r t t' ht
    obtain ⟨rfl, hin⟩ := h r t t' ht
    exact hin
  · intro r t t' ht
    rw [(h r t t' ht).1]

/-! ## where links lead -/

section
variable (In : Path → FileData → Prop)

/-- a directory of a member -/
def Above (q : Path) : Prop := q = [] ∨ ∃ r c, In r c ∧ q <+: r ∧ q ≠ r

/-- by way of the members, over at most `n` links -/
inductive Leads : ℕ → Path → Bytes → Prop
  | file {n : ℕ} {r : Path} {b : Bytes} (hr : In r (.bytes b)) : Leads n r b
  | link {n : ℕ} {r : Path} {b : Bytes} {t : Str} (hr : In r (.link t))
      (hdirs : ∀ q ∈ trail r.dropLast (parts '/' t), Above In q)
      (hleads : Leads n (reach r.dropLast (parts '/' t)) b) : Leads (n + 1) r b

end

/-- the members of a list -/
def InList (L : List (Member FileData)) (r : Path) (c : FileData) : Prop := (r, .file c) ∈ L

/-- what is extracted of a filesystem archive: files, and links that stay inside -/
structure Archived (fits : Str → Bool) (L : List (Member FileData)) : Prop where
  tree : Tree fits L
  kinds : ∀ m ∈ L, (∃ b, m.2 = .file (.bytes b)) ∨ ∃ t, m.2 = .file (.link t) ∧
    absolute t = false ∧ inside m.1.dropLast (parts '/' t) = true

section
variable {h : Host} {L : List (Member FileData)} {dest : Path} {d : Disk FileData}

theorem Leads.mem {In : Path → FileData → Prop} {n : ℕ} {r : Path} {b : Bytes} (hl : Leads In n r b) :
    ∃ c, In r c := by
  cases hl with
  | file hr => exact ⟨_, hr⟩
  | link hr _ _ => exact ⟨_, hr⟩

theorem Archived.putsDir_iff {fits : Str → Bool} (hA : Archived fits L) {q : Path} :
    PutsDir L q ↔ Above (InList L) q := by
  refine or_congr_right ⟨?_, ?_⟩
  · rintro ⟨m, hm, hpre, hor⟩
    rcases hA.kinds m hm with ⟨b, hb⟩ | ⟨t, ht, -⟩
    · rw [hb] at hor
      exact ⟨m.1, .bytes b, show (m.1, _) ∈ L from hb ▸ hm, hpre, hor.resolve_right (by simp)⟩
    · rw [ht] at hor
      exact ⟨m.1, .link t, show (m.1, _) ∈ L from ht ▸ hm, hpre, hor.resolve_right (by simp)⟩
  · rintro ⟨r, c, hr, hpre, hne⟩
    exact ⟨_, hr, hpre, Or.inl hne⟩

theorem Archived.one {fits : Str → Bool} (hA : Archived fits L) {r : Path} {c c' : FileData}
    (hc : (r, Node.file c) ∈ L) (hc' : (r, Node.file c') ∈ L) : c = c' :=
  Node.file.inj (hA.tree.one _ hc _ hc' rfl)

theorem Leads.unique {fits : Str → Bool} (hA : Archived fits L) {n : ℕ} {r : Path} {b b' : Bytes}
    (hl : Leads (InList L) n r b) (hl' : Leads (InList L) n r b') : b = b' := by
  induction hl generalizing b' with
  | file hr =>
    cases hl' with
    | file hr' => exact FileData.bytes.inj (hA.one hr hr')
    | link hr' _ _ => exact absurd (hA.one hr hr') (by simp)
  | link hr _ _ ih =>
    cases hl' with
    | file hr' => exact absurd (hA.one hr hr') (by simp)
    | link hr' _ hl'' =>
      obtain rfl := FileData.link.inj (hA.one hr hr')
      exact ih hl''

/-- names on a way that ends in the archive -/
theorem Archived.fits_names {fits : Str → Bool} (hA : Archived fits L) (hup : fits up = true)
    {p : Path} {segs : List Str} (hdirs : ∀ q ∈ trail p segs, Above (InList L) q)
    (hend : ∃ c, (reach p segs, .file c) ∈ L) : ∀ s ∈ segs, fits s = true := by
  have hput : ∀ q ∈ Files.places p segs, ∀ s ∈ q, fits s = true := by
    intro q hq s hs
    rcases mem_places.mp hq with ht | rfl
    · rcases hdirs q ht with rfl | ⟨r, c, hr, hpre, -⟩
      · exact absurd hs (by simp)
      · exact (hA.tree.named _ hr).2.2 s (hpre.subset hs)
    · obtain ⟨c, hc⟩ := hend
      exact (hA.tree.named _ hc).2.2 s hs
  intro s hs
  by_cases he : s = up
  · rw [he]
    exact hup
  · obtain ⟨q, hq, hsq⟩ := exists_place hs he p
    exact hput q hq s hsq

theorem walk_iff_above (hA : Archived h.fits L) (hU : Unpacked dest L d) {p : Path} {segs : List Str}
    (hin : inside p segs = true) {q : Path} :
    d.walk h.fits (dest ++ p) segs = some q ↔ (∀ q ∈ trail p segs, Above (InList L) q) ∧
      (∀ s ∈ segs, h.fits s = true) ∧ q = dest ++ reach p segs := by
  rw [walk_eq_some, reach_append hin, trail_append hin]
  refine and_congr_left fun _ => ?_
  simp only [List.mem_map, forall_exists_index, and_imp, forall_apply_eq_imp_iff₂, isDir_iff, hU.dirs,
    hA.putsDir_iff]

/-- one walk, if what comes after a link is known -/
theorem follow_step (hA : Archived h.fits L) (hU : Unpacked dest L d) {n : ℕ} {p : Path}
    {segs : List Str} (hin : inside p segs = true) {c : FileData}
    (hlink : ∀ r t, (r, Node.file (.link t)) ∈ L →
      ((∃ q, follow h d n (at_ (dest ++ r).dropLast t) = some q ∧ d.node q = some (.file c)) ↔
        ∃ b, c = .bytes b ∧ Leads (InList L) n r b)) :
    (∃ q, follow h d (n + 1) (dest ++ p, segs) = some q ∧ d.node q = some (.file c)) ↔
      (∀ q ∈ trail p segs, Above (InList L) q) ∧ (∀ s ∈ segs, h.fits s = true) ∧
        ∃ b, c = .bytes b ∧ Leads (InList L) n (reach p segs) b := by
  unfold follow
  cases hw : d.walk h.fits (dest ++ p) segs with
  | none =>
    simp only [reduceCtorEq, false_and, exists_false, false_iff]
    rintro ⟨hdirs, hfits, -⟩
    rw [(walk_iff_above hA hU hin).mpr ⟨hdirs, hfits, rfl⟩] at hw
    cases hw
  | some q0 =>
    obtain ⟨hdirs, hfits, rfl⟩ := (walk_iff_above hA hU hin).mp hw
    rw [and_iff_right hdirs, and_iff_right hfits]
    simp only
    generalize reach p segs = r
    -- at a place that holds no file nothing is led to
    have hnone : (∀ c, d.node (dest ++ r) ≠ some (.file c)) → ¬ ∃ b, c = .bytes b ∧ Leads (InList L) n r b := by
      rintro hno ⟨b, -, hl⟩
      obtain ⟨c', hc'⟩ := hl.mem
      exact hno c' ((hU.files r c').mpr hc')
    split
    · rename_i t hn
      exact hlink r t ((hU.files _ _).mp hn)
    · rename_i hn
      constructor
      · rintro ⟨q, hq, hc⟩
        obtain rfl := Option.some.inj hq
        have hmem := (hU.files _ _).mp hc
        rcases hA.kinds _ hmem with ⟨b, hb⟩ | ⟨t, ht, -⟩
        · obtain rfl : c = .bytes b := Node.file.inj hb
          exact ⟨b, rfl, .file hmem⟩
        · obtain rfl : c = .link t := Node.file.inj ht
          exact absurd hc (hn t)
      · intro hb
        obtain ⟨b, rfl, hl⟩ := hb
        refine ⟨_, rfl, ?_⟩
        cases hl with
        | file hr => exact (hU.files _ _).mpr hr
        | link hr _ _ => exact absurd ((hU.files _ _).mpr hr) (hn _)

/-- **Where a walk through the extracted archive ends** -/
theorem follow_iff (hA : Archived h.fits L) (hup : h.fits up = true) (hU : Unpacked dest L d) {n : ℕ}
    {p : Path} {segs : List Str} (hin : inside p segs = true) {c : FileData} :
    (∃ q, follow h d (n + 1) (dest ++ p, segs) = some q ∧ d.node q = some (.file c)) ↔
      (∀ q ∈ trail p segs, Above (InList L) q) ∧ (∀ s ∈ segs, h.fits s = true) ∧
        ∃ b, c = .bytes b ∧ Leads (InList L) n (reach p segs) b := by
  induction n generalizing p segs with
  | zero =>
    refine follow_step hA hU hin fun r t hr => ?_
    constructor
    · rintro ⟨q, hq, -⟩
      cases hq
    · rintro ⟨b, -, hl⟩
      cases hl with
      | file hr' => exact absurd (hA.one hr hr') (by simp)
  | succ n ih =>
    refine follow_step hA hU hin fun r t hr => ?_
    have hne : r ≠ [] := (hA.tree.named _ hr).1
    have hwhere : at_ (dest ++ r).dropLast t = (dest ++ r.dropLast, parts '/' t) ∧
        inside r.dropLast (parts '/' t) = true := by
      rcases hA.kinds _ hr with ⟨b, hb⟩ | ⟨t', ht, habs, hin'⟩
      · cases hb
      · obtain rfl : t = t' := FileData.link.inj (Node.file.inj ht)
        refine ⟨?_, hin'⟩
        show ((if absolute t = true then [] else _), _) = _
        rw [habs, if_neg Bool.false_ne_true, List.dropLast_append_of_ne_nil hne]
    rw [hwhere.1, ih hwhere.2]
    constructor
    · rintro ⟨hdirs, -, b, hb, hl⟩
      exact ⟨b, hb, .link hr hdirs hl⟩
    · rintro ⟨b, hb, hl⟩
      cases hl with
      | file hr' => exact absurd (hA.one hr hr') (by simp)
      | link hr' hdirs hl =>
        obtain rfl := FileData.link.inj (hA.one hr hr')
        exact ⟨hdirs, hA.fits_names hup hdirs hl.mem, b, hb, hl⟩

/-- what copying an item of the extracted archive reads -/
theorem resolve_iff (hA : Archived h.fits L) (hup : h.fits up = true) (hU : Unpacked dest L d)
    {r : Path} (hr : up ∉ r) {c : FileData} :
    (∃ q, resolve h d (dest, r) = some (q, c)) ↔ ∃ b, c = .bytes b ∧ Leads (InList L) maxLinks r b := by
  have hiff : (∃ q, resolve h d (dest, r) = some (q, c)) ↔
      ∃ q, follow h d (maxLinks + 1) (dest ++ [], r) = some q ∧ d.node q = some (.file c) := by
    rw [List.append_nil]
    unfold resolve
    refine exists_congr fun q => ?_
    cases follow h d (maxLinks + 1) (dest, r) with
    | none => simp
    | some q' =>
      simp only
      constructor
      · intro hq
        split at hq
        · rename_i b hn
          obtain ⟨rfl, rfl⟩ := Prod.mk.inj (Option.some.inj hq)
          exact ⟨rfl, hn⟩
        · cases hq
      · rintro ⟨hq, hn⟩
        obtain rfl := Option.some.inj hq
        rw [hn]
  rw [hiff, follow_iff hA hup hU (inside_of_plain hr), reach_plain hr, List.nil_append]
  constructor
  · rintro ⟨-, -, hb⟩
    exact hb
  · rintro ⟨b, hb, hl⟩
    obtain ⟨c', hc'⟩ := hl.mem
    refine ⟨fun q hq => ?_, (hA.tree.named _ hc').2.2, b, hb, hl⟩
    obtain ⟨q', hpre, hne, rfl⟩ := (mem_trail_plain hr).mp hq
    exact Or.inr ⟨_, _, hc', hpre, hne⟩

/-! ## what is copied -/

/-- the members that `restore` puts in place of the archive's -/
def Copied (L : List (Member FileData)) (m : Member FileData) : Prop :=
  ∃ b, m.2 = .file (.bytes b) ∧ Leads (InList L) maxLinks m.1 b

theorem tree_of_copied {fits : Str → Bool} (hA : Archived fits L) {M : List (Member FileData)}
    (hM : ∀ m ∈ M, Copied L m) : Tree fits M where
  named m hm := by
    obtain ⟨b, -, hl⟩ := hM m hm
    obtain ⟨c, hc⟩ := hl.mem
    exact hA.tree.named (m.1, .file c) hc
  one m hm m' hm' he := by
    obtain ⟨b, hb, hl⟩ := hM m hm
    obtain ⟨b', hb', hl'⟩ := hM m' hm'
    rw [he] at hl
    rw [hb, hb', hl.unique hA hl']
  files r b hr m hm hpre := by
    obtain ⟨b', -, hl⟩ := hM _ hr
    obtain ⟨b'', -, hl'⟩ := hM m hm
    obtain ⟨c, hc⟩ := hl.mem
    obtain ⟨c', hc'⟩ := hl'.mem
    exact hA.tree.files r c hc (m.1, .file c') hc' hpre

variable {target : Path} {M : List (Member FileData)}

/-- an item more -/
theorem copyItem_spec (hA : Archived h.fits L) (hup : h.fits up = true) (hU : Unpacked dest L d)
    (hV : Unpacked target M d) (hM : ∀ m ∈ M, Copied L m) (hap : ¬ dest <+: target)
    (hap' : ¬ target <+: dest) {r : Path} (hr : up ∉ r) :
    ∃ d' M', copyItem h dest target d r = some d' ∧ Unpacked dest L d' ∧ Unpacked target M' d' ∧
      ∀ m, m ∈ M' ↔ m ∈ M ∨ m.1 = r ∧ Copied L m := by
  unfold copyItem
  cases hres : resolve h d (dest, r) with
  | none =>
    refine ⟨d, M, rfl, hU, hV, fun m => ⟨Or.inl, fun hm => hm.resolve_right ?_⟩⟩
    rintro ⟨rfl, b, -, hl⟩
    obtain ⟨q, hq⟩ := (resolve_iff hA hup hU hr).mpr ⟨b, rfl, hl⟩
    rw [hres] at hq
    cases hq
  | some qc =>
    obtain ⟨q, c⟩ := qc
    obtain ⟨b, rfl, hl⟩ := (resolve_iff hA hup hU hr).mp ⟨q, hres⟩
    have hT := tree_of_copied hA (List.forall_mem_cons.mpr ⟨(⟨b, rfl, hl⟩ : Copied L (r, _)), hM⟩)
    obtain ⟨d', hsave, hV'⟩ := extractMember_file hV hT
    have hext : extractMember h.fits target d (r, .file (.bytes b)) = some d' := hsave
    have hsame : ∀ r', d'.node (dest ++ r') = d.node (dest ++ r') := fun r' =>
      extractMember_outside hr hext (not_prefix_below hap' hap r')
    refine ⟨d', _, hsave, hU.same hsame, hV', fun m => ?_⟩
    rw [List.mem_cons, or_comm]
    refine or_congr_right ⟨?_, ?_⟩
    · rintro rfl
      exact ⟨rfl, b, rfl, hl⟩
    · rintro ⟨rfl, b', hb', hl'⟩
      rw [hl.unique hA hl', ← hb']

/-- all items -/
theorem copyItems_spec (hA : Archived h.fits L) (hup : h.fits up = true) (hU : Unpacked dest L d)
    (hV : Unpacked target M d) (hM : ∀ m ∈ M, Copied L m) (hap : ¬ dest <+: target)
    (hap' : ¬ target <+: dest) {items : List Path} (hitems : ∀ r ∈ items, up ∉ r) :
    ∃ d' M', items.foldlM (copyItem h dest target) d = some d' ∧ Unpacked target M' d' ∧
      ∀ m, m ∈ M' ↔ m ∈ M ∨ m.1 ∈ items ∧ Copied L m := by
  induction items generalizing d M with
  | nil => exact ⟨d, M, rfl, hV, by simp⟩
  | cons r items ih =>
    rw [List.forall_mem_cons] at hitems
    obtain ⟨d1, M1, h1, hU1, hV1, hmem1⟩ := copyItem_spec hA hup hU hV hM hap hap' hitems.1
    have hM1 : ∀ m ∈ M1, Copied L m := fun m hm =>
      ((hmem1 m).mp hm).elim (hM m) fun hcop => hcop.2
    obtain ⟨d', M', hd', hV', hmem'⟩ := ih hU1 hV1 hM1 hitems.2
    refine ⟨d', M', by rw [List.foldlM_cons, h1]; exact hd', hV', fun m => ?_⟩
    rw [hmem', hmem1, List.mem_cons, or_and_right, or_assoc]

/-- the target may be made, and there is nothing in it -/
structure EmptyTarget (fits : Str → Bool) (d : Disk FileData) (target : Path) : Prop where
  plain : up ∉ target
  made : ∃ d', d.mkdirs fits [] target = some d'
  empty : ∀ r ≠ [], d.node (target ++ r) = none

/-- **Restoring the extracted archive** onto an empty target leaves there, and only there, what its
items lead to. -/
theorem restore_spec {order : List Path → List Path} (horder : ∀ l, (order l).Perm l)
    (hA : Archived h.fits L) (hup : h.fits up = true) (hU : Unpacked dest L d)
    (htarget : EmptyTarget h.fits d target) (hap : ¬ dest <+: target) (hap' : ¬ target <+: dest) :
    ∃ d', restore h order d dest target = some d' ∧
      ∀ r c, d'.node (target ++ r) = some (.file c) ↔ ∃ b, c = .bytes b ∧ Leads (InList L) maxLinks r b := by
  obtain ⟨d1, hmk⟩ := htarget.made
  obtain ⟨hmade, hdirs, -⟩ := mkdirs_spec hmk
  have hplace : ∀ q ∈ Files.places [] target, q <+: target := by
    intro q hq
    obtain ⟨r, hr, rfl⟩ := (mem_places_plain htarget.plain).mp hq
    exact hr
  have hU1 : Unpacked dest L d1 := hU.same fun r =>
    (hmade.same _).resolve_right fun hq => hap ((List.prefix_append dest r).trans (hplace _ hq.1))
  have hbare : ∀ r ≠ [], d1.node (target ++ r) = none := by
    intro r hr
    rcases hmade.same (target ++ r) with he | ⟨hq, -, -⟩
    · rw [he]
      exact htarget.empty r hr
    · have hlen := (hplace _ hq).length_le
      rw [List.length_append] at hlen
      exact absurd (List.length_eq_zero_iff.mp (by omega)) hr
  have hdir : d1.isDir target = true :=
    hdirs _ (mem_places.mpr (Or.inr (by rw [reach_plain htarget.plain, List.nil_append])))
  have hitems : ∀ r ∈ order ((d1.below dest).map (·.1)), up ∉ r := by
    intro r hr
    obtain ⟨m, hm, rfl⟩ := List.mem_map.mp ((horder _).mem_iff.mp hr)
    exact hU1.plain hA.tree (mem_below.mp hm).2
  obtain ⟨d', M, hd', hV, hmem⟩ := copyItems_spec hA hup hU1 (unpacked_bare hdir hbare)
    (fun m hm => absurd hm List.not_mem_nil) hap hap' hitems
  refine ⟨d', ?_, fun r c => ?_⟩
  · unfold restore
    rw [hmk]
    exact hd'
  · rw [hV.files, hmem, (horder _).mem_iff]
    constructor
    · rintro (hm | ⟨-, b, hb, hl⟩)
      · exact absurd hm List.not_mem_nil
      · exact ⟨b, Node.file.inj hb, hl⟩
    · rintro ⟨b, rfl, hl⟩
      obtain ⟨c, hc⟩ := hl.mem
      refine Or.inr ⟨List.mem_map.mpr ⟨(r, .file c), mem_below.mpr ⟨?_, (hU1.files r c).mpr hc⟩, rfl⟩,
        b, rfl, hl⟩
      exact (hA.tree.named _ hc).1

end

/-! ## the members of the archive -/

/-- a file that is found from one of the roots -/
def Found (v : Volume) (ss : List Start) (r : Path) : Prop :=
  ∃ p, .below p ∈ ss ∧ ∃ l, v.root (.below p) = some (.dir none l) ∧ r ∈ filePaths p l

/-- a file that is collected: found, and not excluded -/
def Collected (v : Volume) (cfg : FilesystemConfig) (r : Path) : Prop :=
  excluded cfg.exclude (posix r) = false ∧ Found v (roots cfg) r

theorem mem_filesIn {exclude : List Str} {p : Path} {m : Str × Path} {l : Listing} :
    m ∈ filesIn exclude p l ++ (below (fun _ => false) exclude p l).members ↔
      m.1 = posix m.2 ∧ excluded exclude (posix m.2) = false ∧ m.2 ∈ filePaths p l := by
  induction l generalizing p with
  | nil => simp [filesIn, below, Walked.nothing, filePaths]
  | file name regular rest ih =>
    unfold filesIn below filePaths
    cases regular with
    | false => exact ih
    | true =>
      rw [Bool.true_and, if_pos rfl, List.mem_cons]
      split
      · rename_i hex
        rw [List.cons_append, List.mem_cons, ih]
        constructor
        · rintro (rfl | ⟨h1, h2, h3⟩)
          · exact ⟨rfl, by simpa using hex, Or.inl rfl⟩
          · exact ⟨h1, h2, Or.inr h3⟩
        · rintro ⟨h1, h2, h3 | h3⟩
          · exact Or.inl (Prod.ext (h1.trans (by rw [h3])) h3)
          · exact Or.inr ⟨h1, h2, h3⟩
      · rename_i hex
        rw [ih]
        refine and_congr_right fun _ => and_congr_right fun h2 => ⟨Or.inr, fun h3 => h3.resolve_left ?_⟩
        intro he
        rw [he] at h2
        exact hex (by simp [h2])
  | link name rest ih => exact ih
  | dir name raises entries rest ihe ih =>
    unfold filesIn below filePaths
    rw [if_neg Bool.false_ne_true]
    have hrest := @ih p
    rw [List.mem_append] at hrest ⊢
    rw [List.mem_append]
    show _ ∨ m ∈ List.append _ _ ↔ _
    cases raises with
    | some e =>
      show _ ∨ m ∈ [] ++ _ ↔ _ ∧ _ ∧ (m.2 ∈ [] ∨ _)
      rw [List.nil_append, hrest]
      simp
    | none =>
      show _ ∨ m ∈ (filesIn exclude (p ++ [name]) entries ++ _) ++ _ ↔
        _ ∧ _ ∧ (m.2 ∈ filePaths (p ++ [name]) entries ∨ _)
      rw [List.mem_append, ihe, or_left_comm, hrest]
      tauto

section
variable {v : Volume} {path : Str} {exclude : List Str}

theorem unreadableDir_members {p : Path} {e : Exc} {w : Walked} (h : unreadableDir p e = .ok w) :
    w.members = [] := by
  unfold unreadableDir at h
  split at h
  · cases h
  · rw [← Except.ok.inj h]

theorem mem_walkBelow {p : Path} {w : Walked} (h : walkBelow v (fun _ => false) exclude p = .ok w)
    {m : Str × Path} : m ∈ w.members ↔ m.1 = posix m.2 ∧ excluded exclude (posix m.2) = false ∧
      ∃ l, v.root (.below p) = some (.dir none l) ∧ m.2 ∈ filePaths p l := by
  unfold walkBelow at h
  split at h
  · rename_i hfs
    rw [← Except.ok.inj h, hfs]
    simp [Walked.nothing]
  · rename_i hfs
    rw [unreadableDir_members h, hfs]
    simp
  · rename_i e l hfs
    rw [unreadableDir_members h, hfs]
    simp
  · rename_i l hfs
    rw [← Except.ok.inj h, hfs]
    show m ∈ filesIn exclude p l ++ _ ↔ _
    rw [mem_filesIn]
    simp

/-- a walk that ends from a root elsewhere has found nothing -/
theorem walkOutside_ok {anchor : Str} {p : Path} {w : Walked}
    (h : walkOutside v path anchor p = .ok w) : w = .nothing := by
  unfold walkOutside at h
  split at h
  · exact (Except.ok.inj h).symm
  · split at h
    · exact (Except.ok.inj h).symm
    · cases h
  · split at h
    · exact (Except.ok.inj h).symm
    · cases h

theorem mem_walkRoot {s : Start} {w : Walked}
    (h : walkRoot v path (fun _ => false) exclude s = .ok w) {m : Str × Path} :
    m ∈ w.members ↔ m.1 = posix m.2 ∧ excluded exclude (posix m.2) = false ∧ Found v [s] m.2 := by
  cases s with
  | below p =>
    rw [mem_walkBelow h]
    unfold Found
    simp only [List.mem_singleton, Start.below.injEq, exists_eq_left]
  | outside anchor p =>
    rw [walkOutside_ok h]
    simp [Found, Walked.nothing]

theorem Found.cons_iff (s : Start) (ss : List Start) {r : Path} :
    Found v (s :: ss) r ↔ Found v [s] r ∨ Found v ss r := by
  unfold Found
  rw [← exists_or]
  refine exists_congr fun p => ?_
  rw [List.mem_cons, List.mem_singleton, or_and_right]

theorem mem_walkRoots {ss : List Start} {w : Walked}
    (h : walkRoots v path (fun _ => false) exclude ss = .ok w) {m : Str × Path} :
    m ∈ w.members ↔ m.1 = posix m.2 ∧ excluded exclude (posix m.2) = false ∧ Found v ss m.2 := by
  induction ss generalizing w with
  | nil =>
    rw [← Except.ok.inj h]
    simp [Walked.nothing, Found]
  | cons s ss ih =>
    unfold walkRoots at h
    cases hhere : walkRoot v path (fun _ => false) exclude s with
    | error e =>
      rw [hhere] at h
      cases h
    | ok here =>
      cases hrest : walkRoots v path (fun _ => false) exclude ss with
      | error e =>
        rw [hhere, hrest] at h
        cases h
      | ok rest =>
        rw [hhere, hrest] at h
        rw [← Except.ok.inj h]
        show m ∈ here.members ++ rest.members ↔ _
        rw [List.mem_append, mem_walkRoot hhere, ih hrest, Found.cons_iff s ss, and_or_left, and_or_left]

/-- **What is collected** -/
theorem mem_collect {cfg : FilesystemConfig} {w : Walked} (h : collect v cfg = .ok w) {m : Str × Path} :
    m ∈ w.members ↔ m.1 = posix m.2 ∧ Collected v cfg m.2 := by
  have hskip : ∀ p : Path, p ≠ [] → pruned cfg.exclude (posix p) = true → Hidden cfg.exclude p :=
    fun p hp h => Hidden.of_pruned hp h
  have hall := walkRoots_members v cfg.path hskip (roots cfg)
  unfold collect collectWith at h
  cases hw : walkRoots v cfg.path (fun p => pruned cfg.exclude (posix p)) cfg.exclude (roots cfg) with
  | error e =>
    rw [hw] at h
    cases h
  | ok w0 =>
    rw [hw] at h hall
    cases hw' : walkRoots v cfg.path (fun _ => false) cfg.exclude (roots cfg) with
    | error e =>
      rw [hw'] at hall
      cases hall
    | ok w1 =>
      rw [hw'] at hall
      have hmembers : w0.members = w1.members := Except.ok.inj hall
      rw [← Except.ok.inj h]
      show m ∈ w0.members.insertionSort _ ↔ _
      rw [List.mem_insertionSort, hmembers, mem_walkRoots hw']
      rfl

end

theorem mem_writeTargz {entry : Path → Except Exc Entry} {members : List (Str × Path)}
    {m : Member FileData} : m ∈ (writeTargz entry members).1 ↔
      ∃ a ∈ members, ∃ e, entry a.2 = .ok e ∧ m = (a.2, .file e.recorded) := by
  induction members with
  | nil => simp [writeTargz]
  | cons a members ih =>
    obtain ⟨arcname, p⟩ := a
    rw [List.exists_mem_cons_iff]
    unfold writeTargz
    cases hp : entry p with
    | error e =>
      show m ∈ (writeTargz entry members).1 ↔ _
      rw [ih]
      simp
    | ok e =>
      show m ∈ (p, _) :: (writeTargz entry members).1 ↔ _
      rw [List.mem_cons, ih]
      simp

/-- the members of the archive: the collected files, as they are recorded -/
theorem mem_archive {g : PathGroup} {cfg : FilesystemConfig} {out : Produced}
    {archive : List (Member FileData)} (h : produce g cfg = .ok out) (ha : out.archive = some archive)
    {m : Member FileData} : m ∈ archive ↔
      Collected g.volume cfg m.1 ∧ ∃ e, g.entry m.1 = .ok e ∧ m.2 = .file e.recorded := by
  unfold produce at h
  split at h
  · rw [← Except.ok.inj h] at ha
    cases ha
  · cases hw : collect g.volume cfg with
    | error e =>
      rw [hw] at h
      cases h
    | ok w =>
      rw [hw] at h
      rw [← Except.ok.inj h] at ha
      rw [← Option.some.inj ha]
      show m ∈ (writeTargz g.entry w.members).1 ↔ _
      rw [mem_writeTargz]
      constructor
      · rintro ⟨a, hmem, e, he, rfl⟩
        exact ⟨((mem_collect hw).mp hmem).2, e, he, rfl⟩
      · rintro ⟨hc, e, he, hm⟩
        exact ⟨(posix m.1, m.1), (mem_collect hw).mpr ⟨rfl, hc⟩, e, he, Prod.ext rfl hm⟩

/-! ## the way there and back -/

/-- a collected file as it is extracted -/
def Kept (links : LinkFilter) (g : PathGroup) (cfg : FilesystemConfig) (r : Path) (c : FileData) : Prop :=
  Collected g.volume cfg r ∧ ∃ e, g.entry r = .ok e ∧ links.onData r e.recorded = some c

/-- no member's name is left out by the extraction, and every link passes the filter and leads to a
file of the archive -/
structure Restorable (links : LinkFilter) (g : PathGroup) (cfg : FilesystemConfig) : Prop where
  safe : ∀ r e, Collected g.volume cfg r → g.entry r = .ok e → isSafeMember (posix r) = true
  leads : ∀ r t b, Collected g.volume cfg r → g.entry r = .ok (.symlink t b) →
    ∃ b', Leads (Kept links g cfg) maxLinks r b'

theorem filePaths_ne_nil {p r : Path} {l : Listing} (h : r ∈ filePaths p l) : r ≠ [] := by
  induction l generalizing p with
  | nil => exact absurd h List.not_mem_nil
  | file name regular rest ih =>
    unfold filePaths at h
    split at h
    · rcases List.mem_cons.mp h with rfl | h
      · simp
      · exact ih h
    · exact ih h
  | link name rest ih => exact ih h
  | dir name raises entries rest ihe ih =>
    rcases List.mem_append.mp h with h | h
    · split at h
      · exact ihe h
      · exact absurd h List.not_mem_nil
    · exact ih h

section
variable {links : LinkFilter} {g : PathGroup} {cfg : FilesystemConfig} {archive L : List (Member FileData)}

/-- the content at the end of a link is what reading the link gave -/
theorem content_of_leads (hlinks : links.Confines) {n : ℕ} {r : Path} {b : Bytes}
    (hl : Leads (Kept links g cfg) n r b) (hup : up ∉ r) {e : Entry} (he : g.entry r = .ok e) :
    b = e.content := by
  induction hl generalizing e with
  | @file n r b hr =>
    obtain ⟨-, e', he', hb⟩ := hr
    obtain rfl := Except.ok.inj (he.symm.trans he')
    cases e with
    | regular b' => exact (FileData.bytes.inj (Option.some.inj hb)).symm
    | symlink t b' =>
      obtain ⟨t', -, ht⟩ := Option.map_eq_some_iff.mp hb
      cases ht
  | @link n r b t' hr hdirs hleads ih =>
    obtain ⟨-, e', he', hb⟩ := hr
    obtain rfl := Except.ok.inj (he.symm.trans he')
    cases e with
    | regular b' => cases Option.some.inj hb
    | symlink t b' =>
      obtain ⟨t'', ht, htt⟩ := Option.map_eq_some_iff.mp hb
      obtain rfl := FileData.link.inj htt
      obtain ⟨habs, hin⟩ := hlinks.before r t _ ht
      have hdrop : up ∉ r.dropLast := fun h => hup (List.mem_of_mem_dropLast h)
      obtain ⟨c, -, e2, he2, -⟩ := hleads.mem
      rw [ih (up_notMem_place hdrop (mem_places.mpr (Or.inr rfl))) he2]
      rw [hlinks.same r t _ ht] at he2
      exact g.reads r t b' hup he habs hin e2 he2

/-- the archive is what `produce` made -/
def FromGroup (g : PathGroup) (cfg : FilesystemConfig) (archive : List (Member FileData)) : Prop :=
  ∀ m, m ∈ archive ↔ Collected g.volume cfg m.1 ∧ ∃ e, g.entry m.1 = .ok e ∧ m.2 = .file e.recorded

theorem mem_extracted (hg : FromGroup g cfg archive)
    (hL : (safeMembers archive).mapM (filterMember links.onData) = some L) {m : Member FileData} :
    m ∈ L ↔ isSafeMember (posix m.1) = true ∧ ∃ c, m.2 = .file c ∧ Kept links g cfg m.1 c := by
  have hall := mapM_forall₂ hL
  constructor
  · intro hm
    obtain ⟨m0, hm0, hf⟩ := exists_of_forall₂ hall m hm
    obtain ⟨hmem, hsafe⟩ := mem_safeMembers.mp hm0
    obtain ⟨hc, e, he, hrec⟩ := (hg m0).mp hmem
    have hfst := filterMember_fst hf
    unfold filterMember at hf
    rw [hrec] at hf
    obtain ⟨c, hc', hmk⟩ := Option.map_eq_some_iff.mp hf
    rw [hfst]
    exact ⟨hsafe, c, by rw [← hmk], hc, e, he, hc'⟩
  · rintro ⟨hsafe, c, hm, hc, e, he, hpass⟩
    have hmem : (m.1, .file e.recorded) ∈ safeMembers archive :=
      mem_safeMembers.mpr ⟨(hg _).mpr ⟨hc, e, he, rfl⟩, hsafe⟩
    obtain ⟨m', hm', hf⟩ := exists_of_forall₂_left hall _ hmem
    have hmk : filterMember links.onData (m.1, .file e.recorded) = some (m.1, .file c) := by
      show (links.onData m.1 e.recorded).map _ = _
      rw [hpass]
      rfl
    rw [hmk] at hf
    rw [show m = (m.1, .file c) from Prod.ext rfl hm, Option.some.inj hf]
    exact hm'

/-- what is extracted goes together -/
theorem archived_of_group {fits' : Str → Bool} (hfits : ∀ s, fits s = true → fits' s = true)
    (hlinks : links.Confines) (hg : FromGroup g cfg archive)
    (hL : (safeMembers archive).mapM (filterMember links.onData) = some L) : Archived fits' L := by
  refine ⟨⟨fun m hm => ?_, fun m hm m' hm' he => ?_, fun r b hr m hm hpre => ?_⟩, fun m hm => ?_⟩
  · obtain ⟨hsafe, c, -, ⟨-, p, -, l, hroot, hr⟩, -⟩ := (mem_extracted hg hL).mp hm
    exact ⟨filePaths_ne_nil hr, up_notMem_of_safe hsafe, fun s hs => hfits s (g.named p l hroot _ hr s hs)⟩
  · obtain ⟨-, c, hc, -, e, hent, hpass⟩ := (mem_extracted hg hL).mp hm
    obtain ⟨-, c', hc', -, e', hent', hpass'⟩ := (mem_extracted hg hL).mp hm'
    rw [he] at hent hpass
    obtain rfl := Except.ok.inj (hent.symm.trans hent')
    rw [hc, hc', Option.some.inj (hpass.symm.trans hpass')]
  · obtain ⟨-, -, -, ⟨-, p, -, l, hroot, hrl⟩, -⟩ := (mem_extracted hg hL).mp hr
    obtain ⟨-, -, -, ⟨-, p', -, l', hroot', hrl'⟩, -⟩ := (mem_extracted hg hL).mp hm
    exact (g.leaf p l hroot r hrl p' l' hroot' m.1 hrl' hpre).symm
  · obtain ⟨-, c, hc, -, e, -, hpass⟩ := (mem_extracted hg hL).mp hm
    cases e with
    | regular b =>
      rw [hc, ← Option.some.inj hpass]
      exact Or.inl ⟨b, rfl⟩
    | symlink t b =>
      obtain ⟨t', ht, rfl⟩ := Option.map_eq_some_iff.mp hpass
      exact Or.inr ⟨t', hc, hlinks.after _ t t' ht⟩

/-- an empty target is one still after the extraction into another directory -/
theorem EmptyTarget.extracted {fits : Str → Bool} {d d0 d1 : Disk FileData} {dest target : Path}
    (ht : EmptyTarget fits d target) (hplain : up ∉ dest) (hdest : d.mkdirs fits [] dest = some d0)
    (hout : ∀ q, ¬ dest <+: q → d1.node q = d0.node q) (hap : ¬ dest <+: target)
    (hap' : ¬ target <+: dest) : EmptyTarget fits d1 target := by
  have hsame : ∀ q, ¬ dest <+: q → d1.node q = d.node q ∨
      (q <+: dest ∧ d.node q = none ∧ d1.node q = some .dir) := by
    intro q hq
    rw [hout q hq]
    refine ((mkdirs_spec hdest).1.same q).imp_right fun ⟨hplace, hn, hdir⟩ => ⟨?_, hn, hdir⟩
    obtain ⟨r, hr, rfl⟩ := (mem_places_plain hplain).mp hplace
    exact hr
  refine ⟨ht.plain, ?_, fun r hr => ?_⟩
  · obtain ⟨d', hd'⟩ := ht.made
    obtain ⟨hmade, hdirs, hfits⟩ := mkdirs_spec hd'
    refine exists_mkdirs (isDir_nil d1) hfits fun q hq b hn => ?_
    have hpre : q <+: target := by
      obtain ⟨r, hr, rfl⟩ := (mem_places_plain ht.plain).mp hq
      exact hr
    rcases hsame q fun h => hap (h.trans hpre) with he | ⟨-, -, hdir⟩
    · rw [he] at hn
      have hdir := isDir_iff.mp (hdirs q hq)
      rw [hmade.file.mpr hn] at hdir
      cases hdir
    · rw [hdir] at hn
      cases hn
  · rcases hsame (target ++ r) (not_prefix_below hap hap' r) with he | ⟨hpre, -, -⟩
    · rw [he]
      exact ht.empty r hr
    · exact absurd ((List.prefix_append target r).trans hpre) hap'

/-- the safe members all pass the filter -/
theorem exists_extracted (hg : FromGroup g cfg archive) (hR : Restorable links g cfg) :
    ∃ L, (safeMembers archive).mapM (filterMember links.onData) = some L := by
  have hpass : ∀ m ∈ safeMembers archive, ∃ m', filterMember links.onData m = some m' ∧ True := by
    intro m hm
    obtain ⟨hc, e, he, hrec⟩ := (hg m).mp (mem_safeMembers.mp hm).1
    obtain ⟨c, hc'⟩ : ∃ c, links.onData m.1 e.recorded = some c := by
      cases e with
      | regular b => exact ⟨_, rfl⟩
      | symlink t b =>
        obtain ⟨b', hl⟩ := hR.leads m.1 t b hc he
        obtain ⟨c, -, e', he', hc'⟩ := hl.mem
        obtain rfl := Except.ok.inj (he.symm.trans he')
        exact ⟨c, hc'⟩
    refine ⟨(m.1, .file c), ?_, trivial⟩
    unfold filterMember
    rw [hrec]
    show (links.onData m.1 e.recorded).map _ = _
    rw [hc']
    rfl
  obtain ⟨L, hL, -⟩ := exists_mapM hpass
  exact ⟨L, hL⟩

/-- once all names are safe, what is extracted is what was kept -/
theorem inList_extracted (hg : FromGroup g cfg archive)
    (hL : (safeMembers archive).mapM (filterMember links.onData) = some L)
    (hsafe : ∀ r e, Collected g.volume cfg r → g.entry r = .ok e → isSafeMember (posix r) = true) :
    InList L = Kept links g cfg := by
  funext r c
  refine propext ((mem_extracted hg hL).trans ⟨?_, fun hk => ?_⟩)
  · rintro ⟨-, c', hc, hk⟩
    rw [Node.file.inj hc]
    exact hk
  · have hcol := hk
    obtain ⟨hc, e, he, -⟩ := hcol
    exact ⟨hsafe r e hc he, c, rfl, hk⟩

end

/-- extracting the archive into `dest` and restoring onto `target` succeeds, and puts every member
there with its content -/
def RestoredTo (h : Host) (links : LinkFilter) (order : List Path → List Path) (g : PathGroup)
    (archive : List (Member FileData)) (d : Disk FileData) (dest target : Path) : Prop :=
  ∃ d1 d2, extractBundle h.fits links.onData d dest archive = some d1 ∧
    restore h order d1 dest target = some d2 ∧
    ∀ m ∈ archive, ∀ e, g.entry m.1 = .ok e →
      d2.node (target ++ m.1) = some (.file (.bytes e.content))

/-- **The archives that are restored in full**: those of which no member's name is left out by the
extraction, and of which every link passes the filter and leads to a file of the archive. -/
theorem files_round_trip_iff (h : Host) (hfits : ∀ s, fits s = true → h.fits s = true)
    (links : LinkFilter) (hlinks : links.Confines) (order : List Path → List Path)
    (horder : ∀ l, (order l).Perm l) (g : PathGroup) (cfg : FilesystemConfig) {out : Produced}
    {archive : List (Member FileData)} (hout : produce g cfg = .ok out)
    (harch : out.archive = some archive) {d d0 : Disk FileData} {dest target : Path}
    (hplain : up ∉ dest) (hdest : d.mkdirs h.fits [] dest = some d0) (hbare : Bare d0 dest)
    (htarget : EmptyTarget h.fits d target) (hap : ¬ dest <+: target) (hap' : ¬ target <+: dest) :
    RestoredTo h links order g archive d dest target ↔ Restorable links g cfg := by
  have hg : FromGroup g cfg archive := fun m => mem_archive hout harch
  have hup : h.fits up = true := hfits up (by decide)
  constructor
  · rintro ⟨d1, d2, hex, hres, hfull⟩
    obtain ⟨L, hL, hside⟩ := extractBundle_cases hdest hex
    have hA := archived_of_group hfits hlinks hg hL
    obtain ⟨d1', hex', hU⟩ := extractBundle_spec hdest hbare hL hA.tree
    obtain rfl := Option.some.inj (hex'.symm.trans hex)
    have ht := htarget.extracted hplain hdest hside hap hap'
    obtain ⟨d2', hres', hspec⟩ := restore_spec horder hA hup hU ht hap hap'
    obtain rfl := Option.some.inj (hres'.symm.trans hres)
    -- every member is copied from a member that was extracted
    have hled : ∀ r e, Collected g.volume cfg r → g.entry r = .ok e →
        Leads (InList L) maxLinks r e.content := by
      intro r e hc he
      obtain ⟨b, hb, hl⟩ := (hspec r _).mp (hfull _ ((hg (r, _)).mpr ⟨hc, e, he, rfl⟩) e he)
      rw [FileData.bytes.inj hb]
      exact hl
    have hsafe : ∀ r e, Collected g.volume cfg r → g.entry r = .ok e → isSafeMember (posix r) = true := by
      intro r e hc he
      obtain ⟨c, hmem⟩ := (hled r e hc he).mem
      exact ((mem_extracted hg hL).mp hmem).1
    refine ⟨hsafe, fun r t b hc he => ⟨b, ?_⟩⟩
    rw [← inList_extracted hg hL hsafe]
    exact hled r _ hc he
  · intro hR
    obtain ⟨L, hL⟩ := exists_extracted hg hR
    have hA := archived_of_group hfits hlinks hg hL
    obtain ⟨d1, hex, hU⟩ := extractBundle_spec hdest hbare hL hA.tree
    obtain ⟨-, -, hside⟩ := extractBundle_cases hdest hex
    have ht := htarget.extracted hplain hdest hside hap hap'
    obtain ⟨d2, hres, hspec⟩ := restore_spec horder hA hup hU ht hap hap'
    refine ⟨d1, d2, hex, hres, fun m hm e he => ?_⟩
    rw [hspec]
    refine ⟨_, rfl, ?_⟩
    rw [inList_extracted hg hL hR.safe]
    obtain ⟨hc, -⟩ := (hg m).mp hm
    have hsafe := up_notMem_of_safe (hR.safe m.1 e hc he)
    cases e with
    | regular b => exact .file ⟨hc, _, he, rfl⟩
    | symlink t b =>
      obtain ⟨b', hl⟩ := hR.leads m.1 t b hc he
      rw [← content_of_leads hlinks hl hsafe he]
      exact hl

/-! ## examples -/

/-- the path, with the files `a.txt` and `b` -/
def mediaListing : Listing := .file "a.txt".toList true (.file "b".toList true .nil)

def mediaVolume : Volume :=
  ⟨fun s => if s = .below [] then some (.dir none mediaListing) else none, id⟩

theorem mediaVolume_root {p : Path} {l : Listing}
    (h : mediaVolume.root (.below p) = some (.dir none l)) : p = [] ∧ l = mediaListing := by
  unfold mediaVolume at h
  simp only at h
  split at h
  · rename_i hp
    exact ⟨Start.below.inj hp, (Root.dir.inj (Option.some.inj h)).2.symm⟩
  · cases h

def mediaConfig : FilesystemConfig := { path := "/srv/media".toList }

/-- `b` is a link that reads as `a.txt` -/
def linked (target : Str) : PathGroup where
  volume := mediaVolume
  entry p := if p = ["b".toList] then .ok (.symlink target [1]) else .ok (.regular [1])
  named p l h r hr := by
    obtain ⟨rfl, rfl⟩ := mediaVolume_root h
    have hall : ∀ r ∈ filePaths [] mediaListing, ∀ s ∈ r, fits s = true := by decide
    exact hall r hr
  leaf p l h r hr p' l' h' r' hr' := by
    obtain ⟨rfl, rfl⟩ := mediaVolume_root h
    obtain ⟨rfl, rfl⟩ := mediaVolume_root h'
    have hall : ∀ r ∈ filePaths [] mediaListing, ∀ r' ∈ filePaths [] mediaListing,
        r <+: r' → r = r' := by decide
    exact hall r hr r' hr'
  reads r t b _ h _ _ e he := by
    have hb : b = [1] := by
      split at h
      · exact (Entry.symlink.inj (Except.ok.inj h)).2.symm
      · cases Except.ok.inj h
    rw [hb]
    split at he
    · rw [← Except.ok.inj he]
      rfl
    · rw [← Except.ok.inj he]
      rfl

def linkedArchive (target : Str) : List (Member FileData) :=
  [(["a.txt".toList], .file (.bytes [1])), (["b".toList], .file (.link target))]

theorem produce_linked (target : Str) : produce (linked target) mediaConfig =
    .ok { archive := some (linkedArchive target), fileCount := 2 } := rfl

theorem collected_linked {target : Str} {r : Path} (h : Collected (linked target).volume mediaConfig r) :
    r = ["a.txt".toList] ∨ r = ["b".toList] := by
  obtain ⟨-, p, -, l, hroot, hr⟩ := h
  obtain ⟨rfl, rfl⟩ := mediaVolume_root hroot
  simpa [filePaths, mediaListing] using hr

theorem emptyTarget_blank : EmptyTarget fits ⟨[]⟩ ["t".toList] where
  plain := by decide
  made := ⟨_, rfl⟩
  empty r _ := by simp [node]

/-- a link to a file beside it comes back as a copy of that file -/
theorem files_round_trip_linked : RestoredTo plainHost dataFilter id (linked "a.txt".toList)
    (linkedArchive "a.txt".toList) ⟨[]⟩ ["w".toList] ["t".toList] := by
  have hbare : Bare (⟨[(["w".toList], .dir)]⟩ : Disk FileData) ["w".toList] := by
    refine ⟨rfl, fun r hr => ?_⟩
    have hne : ["w".toList] ++ r ≠ ["w".toList] := by simpa using hr
    show ((⟨[]⟩ : Disk FileData).put ["w".toList] .dir).node _ = none
    rw [node_put_ne hne]
    simp [node]
  have hfile : Kept dataFilter (linked "a.txt".toList) mediaConfig ["a.txt".toList] (.bytes [1]) :=
    ⟨⟨rfl, [], List.mem_singleton_self _, _, rfl, by decide⟩, .regular [1], rfl, rfl⟩
  have hlink : Kept dataFilter (linked "a.txt".toList) mediaConfig ["b".toList] (.link "a.txt".toList) :=
    ⟨⟨rfl, [], List.mem_singleton_self _, _, rfl, by decide⟩, .symlink _ [1], rfl, rfl⟩
  refine (files_round_trip_iff plainHost (fun _ hs => hs) dataFilter dataFilter_confines id
    (fun l => List.Perm.refl l) (linked "a.txt".toList) mediaConfig (produce_linked _) rfl (by decide)
    (show _ = some _ from rfl) hbare emptyTarget_blank (by decide) (by decide)).mpr ⟨?_, ?_⟩
  · intro r e hc _
    rcases collected_linked hc with rfl | rfl
    · decide
    · decide
  · intro r t b hc he
    rcases collected_linked hc with rfl | rfl
    · cases he
    · refine ⟨[1], .link hlink (fun q hq => ?_) (.file hfile)⟩
      exact Or.inl (List.mem_singleton.mp hq)

/-- **Where the archive cannot be extracted**: it is made without a warning, and its link is absolute. -/
theorem absolute_link_not_restored :
    produce (linked "/srv/shared/a.txt".toList) mediaConfig =
      .ok { archive := some (linkedArchive "/srv/shared/a.txt".toList), fileCount := 2,
            warnings := [], error := none } ∧
    ¬ RestoredTo plainHost dataFilter id (linked "/srv/shared/a.txt".toList)
      (linkedArchive "/srv/shared/a.txt".toList) ⟨[]⟩ ["w".toList] ["t".toList] := by
  refine ⟨rfl, ?_⟩
  rintro ⟨d1, d2, hex, -⟩
  cases hex

end Filesystem
end BackupHelper
