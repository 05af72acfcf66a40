import BackupHelper.Lib.Files
import BackupHelper.Lib.Lines

/-!
# Bundles

A bundle holds every node below a directory, in the order of the names; it is extracted node by node
into another directory, members whose names look absolute or have a `..` left out.

* `createBundle`, `extractBundle`   as the engine does;
* `isSafeMember`                    the names that are extracted;
* `Tree`                            members that go together: no file is another one's directory;
* `Unpacked`                        below a directory there is what the members say, and nothing else.

Members that go together are extracted, and leave what they say (`extractBundle_spec`).
-/

namespace BackupHelper
open Text Files Disk

/-! ## names -/

/-- the parts of a path, `.` and empty ones left out -/
def parts (c : Char) (s : Str) : List Str := (pieces c s).filter (fun t => t ≠ [] ∧ t ≠ ['.'])

def posix (p : Path) : Str := joined ['/'] p

/-- the name is absolute as a Windows path: it begins with two backslashes, or with a drive (one
character and a colon) and a backslash, where slashes count as backslashes -/
def windowsAbsolute (name : Str) : Bool :=
  match name.map (fun c => if c = '/' then '\\' else c) with
  | '\\' :: '\\' :: _ => true
  | '\\' :: rest =>
    -- `\:\x` is written so once its parts are put together again
    match parts '\\' rest with
    | [':'] :: _ :: _ => true
    | _ => false
  | _ :: ':' :: '\\' :: _ => true
  | _ => false

def isSafeMember (name : Str) : Bool :=
  !(['/'].isPrefixOf name) && !windowsAbsolute name && !((parts '/' name).contains up)

example : isSafeMember "uploads/a.txt".toList = true := by decide
example : isSafeMember "C:/a.txt".toList = false := by decide
example : isSafeMember "a/../b".toList = false := by decide

theorem parts_append (c : Char) (s t : Str) : parts c (s ++ c :: t) = parts c s ++ parts c t := by
  rw [parts, pieces_append, List.filter_append]
  rfl

theorem windowsAbsolute_append {s : Str} (h : windowsAbsolute s = true) (t : Str) :
    windowsAbsolute (s ++ '/' :: t) = true := by
  unfold windowsAbsolute at h ⊢
  rw [List.map_append, List.map_cons, if_pos rfl]
  generalize s.map (fun c => if c = '/' then '\\' else c) = n at h
  generalize t.map (fun c => if c = '/' then '\\' else c) = m
  split at h
  · rfl
  · rename_i rest hne
    split at h
    · rename_i x xs hparts
      cases rest with
      | nil => simp [parts, pieces] at hparts
      | cons y rest =>
        have hy : y ≠ '\\' := by
          rintro rfl
          exact hne rest rfl
        have hrest : parts '\\' (y :: rest ++ '\\' :: m) = [':'] :: x :: (xs ++ parts '\\' m) := by
          rw [parts_append, hparts]
          rfl
        rw [List.cons_append, List.cons_append] at *
        simp [hrest, hy]
    · simp at h
  · simp
  · simp at h

/-- a directory of a member that is extracted has a name that would be -/
theorem isSafeMember_of_append {s t : Str} (h : isSafeMember (s ++ '/' :: t) = true) :
    isSafeMember s = true := by
  unfold isSafeMember at h ⊢
  simp only [Bool.and_eq_true, Bool.not_eq_true'] at h ⊢
  obtain ⟨⟨h1, h2⟩, h3⟩ := h
  refine ⟨⟨?_, ?_⟩, ?_⟩
  · by_contra hp
    have hpre : ['/'] <+: s := List.isPrefixOf_iff_prefix.mp (by simpa using hp)
    rw [List.isPrefixOf_iff_prefix.mpr (hpre.trans (List.prefix_append _ _))] at h1
    simp at h1
  · by_contra hw
    rw [windowsAbsolute_append (by simpa using hw)] at h2
    simp at h2
  · rw [parts_append, List.contains_eq_mem] at h3
    rw [List.contains_eq_mem]
    simp only [decide_eq_false_iff_not, List.mem_append, not_or] at h3 ⊢
    exact h3.1

theorem isSafeMember_above {q r : Path} (hq : q ≠ []) (hpre : q <+: r)
    (h : isSafeMember (posix r) = true) : isSafeMember (posix q) = true := by
  obtain ⟨t, rfl⟩ := hpre
  by_cases ht : t = []
  · rwa [ht, List.append_nil] at h
  · unfold posix at h
    rw [joined_append _ hq ht, List.append_assoc] at h
    exact isSafeMember_of_append h

theorem parts_posix_append (p q : Path) :
    parts '/' (posix (p ++ q)) = parts '/' (posix p) ++ parts '/' (posix q) := by
  have hnil : parts '/' (posix []) = [] := by decide
  by_cases hp : p = []
  · rw [hp, hnil]
    rfl
  · by_cases hq : q = []
    · rw [hq, hnil, List.append_nil, List.append_nil]
    · unfold posix
      rw [joined_append _ hp hq, List.append_assoc]
      exact parts_append '/' _ _

theorem up_notMem_of_safe {p : Path} (h : isSafeMember (posix p) = true) : up ∉ p := by
  intro hup
  obtain ⟨a, b, rfl⟩ := List.append_of_mem hup
  have hmem : up ∈ parts '/' (posix (a ++ up :: b)) := by
    rw [show a ++ up :: b = a ++ ([up] ++ b) from rfl, parts_posix_append, parts_posix_append]
    have hself : up ∈ parts '/' (posix [up]) := by decide
    exact List.mem_append_right _ (List.mem_append_left _ hself)
  unfold isSafeMember at h
  rw [List.contains_iff_mem.mpr hmem] at h
  simp at h

/-! ## lists on which every step may fail -/

theorem exists_mapM {α γ : Type*} {f : α → Option γ} {Q : α → γ → Prop} {l : List α}
    (h : ∀ x ∈ l, ∃ y, f x = some y ∧ Q x y) : ∃ ys, l.mapM f = some ys ∧ List.Forall₂ Q l ys := by
  induction l with
  | nil => exact ⟨[], rfl, .nil⟩
  | cons x l ih =>
    obtain ⟨y, hy, hq⟩ := h x List.mem_cons_self
    obtain ⟨ys, hys, hqs⟩ := ih fun x hx => h x (List.mem_cons_of_mem _ hx)
    exact ⟨y :: ys, by rw [List.mapM_cons, hy, hys]; rfl, .cons hq hqs⟩

theorem mapM_forall₂ {α γ : Type*} {f : α → Option γ} {l : List α} {ys : List γ}
    (h : l.mapM f = some ys) : List.Forall₂ (fun x y => f x = some y) l ys := by
  induction l generalizing ys with
  | nil =>
    rw [List.mapM_nil] at h
    rw [← Option.some.inj h]
    exact .nil
  | cons x l ih =>
    rw [List.mapM_cons] at h
    obtain ⟨y, hy, h⟩ := Option.bind_eq_some_iff.mp h
    obtain ⟨ys', hys, h⟩ := Option.bind_eq_some_iff.mp h
    rw [← Option.some.inj h]
    exact .cons hy (ih hys)

theorem map_eq_of_forall₂ {α γ δ : Type*} {f : α → δ} {g : γ → δ} {l : List α} {ys : List γ}
    (h : List.Forall₂ (fun x y => g y = f x) l ys) : ys.map g = l.map f := by
  induction h with
  | nil => rfl
  | cons hx _ ih => rw [List.map_cons, List.map_cons, hx, ih]

theorem exists_of_forall₂ {α γ : Type*} {Q : α → γ → Prop} {l : List α} {ys : List γ}
    (h : List.Forall₂ Q l ys) : ∀ y ∈ ys, ∃ x ∈ l, Q x y := by
  induction h with
  | nil => simp
  | cons hx _ ih =>
    rw [List.forall_mem_cons]
    exact ⟨⟨_, List.mem_cons_self, hx⟩, fun y hy =>
      (ih y hy).imp fun x hx => ⟨List.mem_cons_of_mem _ hx.1, hx.2⟩⟩

theorem exists_of_forall₂_left {α γ : Type*} {Q : α → γ → Prop} {l : List α} {ys : List γ}
    (h : List.Forall₂ Q l ys) : ∀ x ∈ l, ∃ y ∈ ys, Q x y := by
  induction h with
  | nil => simp
  | cons hx _ ih =>
    rw [List.forall_mem_cons]
    exact ⟨⟨_, List.mem_cons_self, hx⟩, fun x hx =>
      (ih x hx).imp fun y hy => ⟨List.mem_cons_of_mem _ hy.1, hy.2⟩⟩

/-! ## creating and extracting -/

section
variable {β : Type*}

abbrev Member (β : Type*) := Path × Node β

def createBundle (d : Disk β) (staging : Path) : List (Member β) :=
  (d.below staging).insertionSort (fun a b => posix a.1 ≤ posix b.1)

theorem mem_createBundle {d : Disk β} {staging r : Path} {n : Node β} :
    (r, n) ∈ createBundle d staging ↔ r ≠ [] ∧ d.node (staging ++ r) = some n := by
  rw [createBundle, List.mem_insertionSort, mem_below]

def safeMembers (members : List (Member β)) : List (Member β) :=
  members.filter (fun m => isSafeMember (posix m.1))

/-- a member as the filter of the extraction lets it through; none where it raises -/
def filterMember (filter : Path → β → Option β) (m : Member β) : Option (Member β) :=
  match m.2 with
  | .dir => some m
  | .file b => (filter m.1 b).map fun b => (m.1, .file b)

/-- `fits` are the names that the file system takes -/
def extractMember (fits : Str → Bool) (dest : Path) (d : Disk β) (m : Member β) : Option (Disk β) :=
  match m.2 with
  | .dir => d.mkdirs fits dest m.1
  | .file b => d.save fits dest m.1 b

def extractBundle (fits : Str → Bool) (filter : Path → β → Option β) (d : Disk β) (dest : Path)
    (members : List (Member β)) : Option (Disk β) :=
  match d.mkdirs fits [] dest with
  | none => none
  | some d =>
    match (safeMembers members).mapM (filterMember filter) with
    | none => none
    | some members => members.foldlM (extractMember fits dest) d

/-- the filter of a bundle without links lets every member through -/
def keepAll : Path → β → Option β := fun _ b => some b

theorem mapM_keepAll (members : List (Member β)) :
    members.mapM (filterMember keepAll) = some members := by
  induction members with
  | nil => rfl
  | cons m members ih =>
    obtain ⟨r, n⟩ := m
    rw [List.mapM_cons, ih]
    cases n <;> rfl

theorem mem_safeMembers {members : List (Member β)} {m : Member β} :
    m ∈ safeMembers members ↔ m ∈ members ∧ isSafeMember (posix m.1) = true := by
  rw [safeMembers, List.mem_filter]

/-- members that go together -/
structure Tree (fits : Str → Bool) (L : List (Member β)) : Prop where
  named : ∀ m ∈ L, m.1 ≠ [] ∧ up ∉ m.1 ∧ ∀ s ∈ m.1, fits s = true
  one : ∀ m ∈ L, ∀ m' ∈ L, m.1 = m'.1 → m.2 = m'.2
  files : ∀ r b, (r, .file b) ∈ L → ∀ m ∈ L, r <+: m.1 → m.1 = r

/-- the members put a directory at `r`: a member goes there or below -/
def PutsDir (L : List (Member β)) (r : Path) : Prop :=
  r = [] ∨ ∃ m ∈ L, r <+: m.1 ∧ (r ≠ m.1 ∨ m.2 = .dir)

/-- below `dest` there is what the members put there, and nothing else -/
structure Unpacked (dest : Path) (L : List (Member β)) (d : Disk β) : Prop where
  dirs : ∀ r, d.node (dest ++ r) = some .dir ↔ PutsDir L r
  files : ∀ r b, d.node (dest ++ r) = some (.file b) ↔ (r, .file b) ∈ L

section
variable {fits : Str → Bool} {dest : Path} {L : List (Member β)} {d : Disk β}

theorem Tree.subset {L' : List (Member β)} (h : Tree fits L) (hsub : ∀ m ∈ L', m ∈ L) :
    Tree fits L' where
  named m hm := h.named m (hsub m hm)
  one m hm m' hm' := h.one m (hsub m hm) m' (hsub m' hm')
  files r b hr m hm := h.files r b (hsub _ hr) m (hsub m hm)

theorem PutsDir.mono {L' : List (Member β)} {r : Path} (h : PutsDir L r) (hsub : ∀ m ∈ L, m ∈ L') :
    PutsDir L' r :=
  h.imp_right fun ⟨m, hm, hr⟩ => ⟨m, hsub m hm, hr⟩

/-- the places on the way to a member are none of the others' files -/
theorem Unpacked.not_file {m : Member β} (hU : Unpacked dest L d) (hT : Tree fits (m :: L))
    {r : Path} (hr : r <+: m.1) (hne : r ≠ m.1 ∨ m.2 = .dir) (b : β) :
    d.node (dest ++ r) ≠ some (.file b) := by
  intro hn
  have hmem : (r, Node.file b) ∈ m :: L := List.mem_cons_of_mem _ ((hU.files r b).mp hn)
  have he := hT.files r b hmem m List.mem_cons_self hr
  rcases hne with hne | hdir
  · exact hne he.symm
  · have hb := hT.one (r, .file b) hmem m List.mem_cons_self he.symm
    rw [hdir] at hb
    simp at hb

theorem mem_places_plain {m : Path} (hm : up ∉ m) {q : Path} :
    q ∈ places dest m ↔ ∃ r, r <+: m ∧ q = dest ++ r := by
  rw [mem_places, mem_trail_plain hm, reach_plain hm]
  constructor
  · rintro (⟨r, hr, -, rfl⟩ | rfl)
    · exact ⟨r, hr, rfl⟩
    · exact ⟨m, List.prefix_rfl, rfl⟩
  · rintro ⟨r, hr, rfl⟩
    by_cases he : r = m
    · exact Or.inr (by rw [he])
    · exact Or.inl ⟨r, hr, he, rfl⟩

theorem extractMember_dir {r : Path} (hU : Unpacked dest L d) (hT : Tree fits ((r, .dir) :: L)) :
    ∃ d', d.mkdirs fits dest r = some d' ∧ Unpacked dest ((r, .dir) :: L) d' := by
  obtain ⟨-, hup, hfits⟩ := hT.named (r, .dir) List.mem_cons_self
  have hdest : d.isDir dest = true := by
    have h := (hU.dirs []).mpr (Or.inl rfl)
    rw [List.append_nil] at h
    exact isDir_iff.mpr h
  obtain ⟨d', hmk⟩ := exists_mkdirs hdest hfits fun q hq b => by
    obtain ⟨r', hr', rfl⟩ := (mem_places_plain hup).mp hq
    exact hU.not_file hT hr' (Or.inr rfl) b
  obtain ⟨hmade, hdirs, -⟩ := mkdirs_spec hmk
  refine ⟨d', hmk, ⟨fun r' => ?_, fun r' b => ?_⟩⟩
  · constructor
    · intro hn
      rcases hmade.same (dest ++ r') with he | ⟨hplace, -, -⟩
      · rw [he] at hn
        exact ((hU.dirs r').mp hn).mono fun m hm => List.mem_cons_of_mem _ hm
      · obtain ⟨r0, hr0, he⟩ := (mem_places_plain hup).mp hplace
        rw [List.append_cancel_left he]
        exact Or.inr ⟨(r, .dir), List.mem_cons_self, hr0, Or.inr rfl⟩
    · intro hp
      rw [← isDir_iff]
      rcases hp with rfl | ⟨m, hm, hr', hor⟩
      · rw [List.append_nil]
        exact hmade.isDir hdest
      · rcases List.mem_cons.mp hm with rfl | hm
        · exact hdirs _ ((mem_places_plain hup).mpr ⟨r', hr', rfl⟩)
        · exact hmade.isDir (isDir_iff.mpr ((hU.dirs r').mpr (Or.inr ⟨m, hm, hr', hor⟩)))
  · rw [hmade.file, hU.files]
    simp

theorem extractMember_file {r : Path} {b : β} (hU : Unpacked dest L d)
    (hT : Tree fits ((r, .file b) :: L)) :
    ∃ d', d.save fits dest r b = some d' ∧ Unpacked dest ((r, .file b) :: L) d' := by
  have hself : (r, Node.file b) ∈ (r, Node.file b) :: L := List.mem_cons_self
  obtain ⟨hne, hup, hfits⟩ := hT.named (r, .file b) hself
  have hdest : d.isDir dest = true := by
    have h := (hU.dirs []).mpr (Or.inl rfl)
    rw [List.append_nil] at h
    exact isDir_iff.mpr h
  have hnotdir : ∀ m ∈ (r, Node.file b) :: L, r <+: m.1 → ¬ (r ≠ m.1 ∨ m.2 = .dir) := by
    intro m hm hr hor
    have he := hT.files r b hself m hm hr
    rcases hor with hne | hdir
    · exact hne he.symm
    · have hb := hT.one _ hself m hm he.symm
      rw [hdir] at hb
      simp at hb
  have hlast : d.isDir (reach dest r) = false := by
    by_contra hd
    have hd' : d.isDir (dest ++ r) = true := by simpa [reach_plain hup] using hd
    rcases (hU.dirs r).mp (isDir_iff.mp hd') with he | ⟨m, hm, hr, hor⟩
    · exact hne he
    · exact hnotdir m (List.mem_cons_of_mem _ hm) hr hor
  have hnot : reach dest r ∉ trail dest r := by
    rw [reach_plain hup, mem_trail_plain hup]
    rintro ⟨r', -, hne', he⟩
    exact hne' (List.append_cancel_left he).symm
  obtain ⟨d', hsave⟩ := exists_save b hdest hne hfits (fun q hq b' => by
    obtain ⟨r', hr', hne', rfl⟩ := (mem_trail_plain hup).mp hq
    exact hU.not_file hT hr' (Or.inl hne') b') hlast hnot
  have hs := save_spec hsave
  have hfile : d'.node (dest ++ r) = some (.file b) := by
    rw [← reach_plain hup]
    exact hs.file
  have hsame : ∀ r' ≠ r, d'.node (dest ++ r') = d.node (dest ++ r') ∨
      ((r' <+: r ∧ r' ≠ r) ∧ d.node (dest ++ r') = none ∧ d'.node (dest ++ r') = some .dir) := by
    intro r' hr'
    have hq : dest ++ r' ≠ reach dest r := by
      rw [reach_plain hup]
      exact fun e => hr' (List.append_cancel_left e)
    refine (hs.same _ hq).imp_right fun ⟨hmem, hn, he⟩ => ?_
    obtain ⟨r0, hr0, hne0, he0⟩ := (mem_trail_plain hup).mp hmem
    rw [List.append_cancel_left he0]
    exact ⟨⟨hr0, hne0⟩, by rwa [← he0], by rwa [← he0]⟩
  refine ⟨d', hsave, ⟨fun r' => ?_, fun r' b' => ?_⟩⟩
  · by_cases hr' : r' = r
    · subst hr'
      constructor
      · rw [hfile]
        simp
      · rintro (he | ⟨m, hm, hpre, hor⟩)
        · exact absurd he hne
        · exact absurd hor (hnotdir m hm hpre)
    · constructor
      · intro hn
        rcases hsame r' hr' with he | ⟨⟨hpre, -⟩, -, -⟩
        · rw [he] at hn
          exact ((hU.dirs r').mp hn).mono fun m hm => List.mem_cons_of_mem _ hm
        · exact Or.inr ⟨_, hself, hpre, Or.inl hr'⟩
      · intro hp
        have hold : PutsDir L r' → d'.node (dest ++ r') = some .dir := by
          intro hp
          have hn := (hU.dirs r').mpr hp
          rcases hsame r' hr' with he | ⟨-, hnone, -⟩
          · rwa [he]
          · rw [hnone] at hn
            simp at hn
        rcases hp with rfl | ⟨m, hm, hpre, hor⟩
        · exact hold (Or.inl rfl)
        · rcases List.mem_cons.mp hm with rfl | hm
          · exact isDir_iff.mp (hs.dirs _ ((mem_trail_plain hup).mpr ⟨r', hpre, hr', rfl⟩))
          · exact hold (Or.inr ⟨m, hm, hpre, hor⟩)
  · by_cases hr' : r' = r
    · subst hr'
      rw [hfile]
      constructor
      · intro he
        rw [← Node.file.inj (Option.some.inj he)]
        exact hself
      · intro hm
        exact congrArg some (hT.one _ hself _ hm rfl)
    · have hiff : (r', Node.file b') ∈ (r, Node.file b) :: L ↔ (r', Node.file b') ∈ L := by
        simp [hr']
      rw [hiff, ← hU.files]
      rcases hsame r' hr' with he | ⟨-, hn, he⟩
      · rw [he]
      · rw [he, hn]
        simp

/-- one member more -/
theorem extractMember_spec {m : Member β} (hU : Unpacked dest L d) (hT : Tree fits (m :: L)) :
    ∃ d', extractMember fits dest d m = some d' ∧ Unpacked dest (m :: L) d' := by
  obtain ⟨r, n⟩ := m
  cases n with
  | dir => exact extractMember_dir hU hT
  | file b => exact extractMember_file hU hT

/-- all members, those already extracted in `L` -/
theorem extractMembers_spec {members : List (Member β)} (hU : Unpacked dest L d)
    (hT : Tree fits (members.reverse ++ L)) :
    ∃ d', members.foldlM (extractMember fits dest) d = some d' ∧
      Unpacked dest (members.reverse ++ L) d' := by
  induction members generalizing L d with
  | nil => exact ⟨d, rfl, hU⟩
  | cons m members ih =>
    rw [List.reverse_cons, List.append_assoc] at hT ⊢
    obtain ⟨d1, h1, hU1⟩ := extractMember_spec hU (m := m)
      (hT.subset fun m' hm' => List.mem_append_right _ hm')
    obtain ⟨d', hd', hU'⟩ := ih hU1 hT
    exact ⟨d', by rw [List.foldlM_cons, h1]; exact hd', hU'⟩

theorem Unpacked.congr {L' : List (Member β)} (h : Unpacked dest L d) (hmem : ∀ m, m ∈ L ↔ m ∈ L') :
    Unpacked dest L' d where
  dirs r := (h.dirs r).trans ⟨fun hp => hp.mono fun m hm => (hmem m).mp hm,
    fun hp => hp.mono fun m hm => (hmem m).mpr hm⟩
  files r b := (h.files r b).trans (hmem _)

/-- nothing changes outside the directory -/
theorem extractMember_outside {m : Member β} {d' : Disk β} (hup : up ∉ m.1)
    (h : extractMember fits dest d m = some d') {q : Path} (hq : ¬ dest <+: q) : d'.node q = d.node q := by
  obtain ⟨r, n⟩ := m
  cases n with
  | dir =>
    refine ((mkdirs_spec h).1.same q).resolve_right fun hplace => ?_
    obtain ⟨r', -, rfl⟩ := (mem_places_plain hup).mp hplace.1
    exact hq (List.prefix_append dest r')
  | file b =>
    have hne : q ≠ reach dest r := by
      rw [reach_plain hup]
      rintro rfl
      exact hq (List.prefix_append dest r)
    refine ((save_spec h).same q hne).resolve_right fun hplace => ?_
    obtain ⟨r', -, -, rfl⟩ := (mem_trail_plain hup).mp hplace.1
    exact hq (List.prefix_append dest r')

theorem extractMembers_outside {members : List (Member β)} {d' : Disk β}
    (hup : ∀ m ∈ members, up ∉ m.1) (h : members.foldlM (extractMember fits dest) d = some d')
    {q : Path} (hq : ¬ dest <+: q) : d'.node q = d.node q := by
  induction members generalizing d with
  | nil =>
    obtain rfl := Option.some.inj h
    rfl
  | cons m members ih =>
    rw [List.foldlM_cons] at h
    obtain ⟨d1, h1, h2⟩ := Option.bind_eq_some_iff.mp h
    rw [ih (fun m hm => hup m (List.mem_cons_of_mem _ hm)) h2]
    exact extractMember_outside (hup m List.mem_cons_self) h1 hq

/-- what is unpacked stays if no place below the directory changes -/
theorem Unpacked.same {d' : Disk β} (hU : Unpacked dest L d)
    (h : ∀ r, d'.node (dest ++ r) = d.node (dest ++ r)) : Unpacked dest L d' where
  dirs r := by rw [h]; exact hU.dirs r
  files r b := by rw [h]; exact hU.files r b

theorem Unpacked.plain (hU : Unpacked dest L d) (hT : Tree fits L) {r : Path} {n : Node β}
    (hn : d.node (dest ++ r) = some n) : up ∉ r := by
  cases n with
  | dir =>
    rcases (hU.dirs r).mp hn with rfl | ⟨m, hm, hpre, -⟩
    · exact List.not_mem_nil
    · exact fun h => (hT.named m hm).2.1 (hpre.subset h)
  | file b => exact (hT.named _ ((hU.files r b).mp hn)).2.1

theorem unpacked_bare (hdest : d.isDir dest = true) (hbare : ∀ r ≠ [], d.node (dest ++ r) = none) :
    Unpacked dest [] d := by
  constructor
  · intro r
    by_cases hr : r = []
    · subst hr
      rw [List.append_nil]
      exact iff_of_true (isDir_iff.mp hdest) (Or.inl rfl)
    · rw [hbare r hr]
      simp [PutsDir, hr]
  · intro r b
    by_cases hr : r = []
    · subst hr
      rw [List.append_nil, isDir_iff.mp hdest]
      simp
    · rw [hbare r hr]
      simp

end

/-- nothing is below the directory -/
def Bare (d : Disk β) (dest : Path) : Prop := d.isDir dest = true ∧ ∀ r ≠ [], d.node (dest ++ r) = none

/-- **Extraction.**  Into a directory with nothing below it, the safe members are extracted if they
pass the filter and go together, and afterwards they are what is there. -/
theorem extractBundle_spec {fits : Str → Bool} {filter : Path → β → Option β} {dest : Path}
    {d d0 : Disk β} {members L : List (Member β)} (hdest : d.mkdirs fits [] dest = some d0)
    (hbare : Bare d0 dest) (hfilter : (safeMembers members).mapM (filterMember filter) = some L)
    (hT : Tree fits L) :
    ∃ d', extractBundle fits filter d dest members = some d' ∧ Unpacked dest L d' := by
  have hU : Unpacked dest [] d0 := unpacked_bare hbare.1 hbare.2
  have hT' : Tree fits (L.reverse ++ []) := hT.subset fun m hm => by simpa using hm
  obtain ⟨d', hd', hU'⟩ := extractMembers_spec hU hT'
  refine ⟨d', ?_, hU'.congr fun m => by simp⟩
  unfold extractBundle
  rw [hdest]
  simp only [hfilter]
  exact hd'

theorem filterMember_fst {filter : Path → β → Option β} {m m' : Member β}
    (h : filterMember filter m = some m') : m'.1 = m.1 := by
  obtain ⟨r, n⟩ := m
  unfold filterMember at h
  cases n with
  | dir => rw [← Option.some.inj h]
  | file b =>
    obtain ⟨b', -, rfl⟩ := Option.map_eq_some_iff.mp h
    rfl

/-- what an extraction does, if it comes to an end -/
theorem extractBundle_cases {fits : Str → Bool} {filter : Path → β → Option β} {dest : Path}
    {d d0 d' : Disk β} {members : List (Member β)} (hdest : d.mkdirs fits [] dest = some d0)
    (h : extractBundle fits filter d dest members = some d') :
    ∃ L, (safeMembers members).mapM (filterMember filter) = some L ∧
      ∀ q, ¬ dest <+: q → d'.node q = d0.node q := by
  unfold extractBundle at h
  rw [hdest] at h
  simp only at h
  split at h
  · cases h
  · rename_i L hL
    refine ⟨L, hL, fun q hq => extractMembers_outside (fun m' hm' => ?_) h hq⟩
    obtain ⟨m, hm, hf⟩ := exists_of_forall₂ (mapM_forall₂ hL) m' hm'
    rw [filterMember_fst hf]
    exact up_notMem_of_safe (mem_safeMembers.mp hm).2

end
end BackupHelper
