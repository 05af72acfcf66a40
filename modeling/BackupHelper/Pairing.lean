import BackupHelper.ManifestPromise
import BackupHelper.Restore

/-!
# Each component and its own file

A source names the file that it stages after its component; at a restore the file is looked for under
that name again, in the extracted bundle: as it is where the component is an archive, and by a pattern
where it is a dump.

* `RestoreArgs.lookup`, `handed`   what is looked for, and the file that a source is handed;
* `openArtifact`                   from the stored archive to the members of the bundle;
* `InFront`                        no other file of the bundle comes before the source's own;
* `restore_pairs`                  **every source is handed its own file**, exactly if that is so.
-/

namespace BackupHelper
open Text Files Disk Python Glob

/-! ## the lookups -/

/-- what is handed to the `restore` of a source -/
inductive Lookup where
  /-- `extracted / f"{name}.tar.gz"`, which is extracted in turn -/
  | nested (name : Str)
  /-- the first of `sorted(extracted.glob(pat))` -/
  | firstOf (pat : Str)
  | nothing

def sqlKinds : List Str := ["mariadb".toList, "mysql".toList]

def RestoreArgs.lookup (r : RestoreArgs) (spec : SourceSpec) (c : Component) : Lookup :=
  if c.kind ∈ nestedTarKinds then .nested c.name
  else
    match r.built spec with
    | .ok (.text name) =>
      if spec.type = "postgres".toList then .firstOf (name ++ ".*".toList)
      else if spec.type ∈ sqlKinds then .firstOf (name ++ ".sql.gz".toList)
      else .nothing
    -- the dump sources are built under a text
    | _ => .nothing

/-- `sorted(dir.glob(pat))`, for a pattern without a slash -/
def globIn (d : Disk FileData) (dir : Path) (pat : Str) : List Str :=
  sorted (((iterdir d dir).getD []).filter (fnmatch pat))

def handed (d : Disk FileData) (extracted : Path) : Lookup → Option Path
  | .nested name =>
    let out := at_ extracted (name ++ ".tar.gz".toList)
    (d.walk fits out.1 out.2).filter d.isFile
  | .firstOf pat => (globIn d extracted pat).head?.map (extracted ++ [·])
  | .nothing => none

/-- the tools of a restore -/
structure Opener where
  decrypt : EncryptionMode → Bytes → Option Bytes
  unpack : Bytes → Option (List (Member FileData))

/-- `_decrypt_if_needed`, and the members of the bundle -/
def openArtifact (t : Opener) (identityFile : Option Str) (artifact : Str) (b : Bytes) :
    Option (List (Member FileData)) :=
  if hasExtension ".age".toList artifact then
    match identityFile with
    | none => none
    | some [] => none
    | some _ => (t.decrypt .age b).bind t.unpack
  else if hasExtension ".gpg".toList artifact then (t.decrypt .gpg b).bind t.unpack
  else t.unpack b

/-! ## the name of a source's file -/

/-- the name of the file that a source writes -/
def Builtin.file (s : Builtin) : Str := s.name ++ s.kind.suffix

/-- the same, without the lists of the manifest and the job -/
def SourceKind.lookup (k : SourceKind) (name : Str) : Lookup :=
  match k with
  | .filesystem => .nested name
  | .s3 => .nested name
  | .postgres _ => .firstOf (name ++ ".*".toList)
  | .mariadb => .firstOf (name ++ ".sql.gz".toList)
  | .mysql => .firstOf (name ++ ".sql.gz".toList)
  | .env => .nothing

section
variable {s : Builtin} {staging : Path} {d : Disk FileData}

theorem file_free (hs : free '/' s.name) : free '/' s.file := by
  have hsuffix : free '/' s.kind.suffix := by
    cases s.kind with
    | postgres custom => cases custom <;> decide
    | _ => decide
  exact free_append.mpr ⟨hs, hsuffix⟩

theorem file_plain : s.file ≠ [] ∧ s.file ≠ ['.'] ∧ s.file ≠ up := by
  have hlong : 3 ≤ s.kind.suffix.length := by
    cases s.kind with
    | postgres custom => cases custom <;> decide
    | _ => decide
  have hfile : 3 ≤ s.file.length := by
    show 3 ≤ (s.name ++ s.kind.suffix).length
    rw [List.length_append]
    omega
  refine ⟨?_, ?_, ?_⟩
  all_goals
    intro he
    rw [he] at hfile
    revert hfile
    decide

theorem at_file (hs : free '/' s.name) (dir : Path) : at_ dir s.file = (dir, [s.file]) := by
  have hfree := file_free hs
  obtain ⟨hnil, hdot, -⟩ := file_plain (s := s)
  have hrel : ¬ ['/'].isPrefixOf s.file = true := by
    intro h
    obtain ⟨t, ht⟩ := List.isPrefixOf_iff_prefix.mp h
    apply hfree
    rw [← ht]
    exact List.mem_cons_self
  unfold at_ parts
  rw [if_neg hrel, pieces_free hfree, List.filter_cons_of_pos (by simp [hnil, hdot])]
  rfl

theorem walk_file {q : Path} (h : d.walk fits staging [s.file] = some q) :
    q = staging ++ [s.file] ∧ fits s.file = true ∧ d.isDir staging = true := by
  obtain ⟨hdirs, hfits, rfl⟩ := walk_eq_some.mp h
  have hup : up ∉ [s.file] := fun hmem => (file_plain (s := s)).2.2 (List.mem_singleton.mp hmem).symm
  exact ⟨reach_plain hup, hfits _ List.mem_cons_self, hdirs _ List.mem_cons_self⟩

/-- without a slash in its name a source stages right into the staging directory -/
theorem place_file (hs : free '/' s.name) {q : Path} (h : s.place staging d = some q) :
    q = staging ++ [s.file] ∧ fits s.file = true := by
  have hout : s.out staging = (staging, [s.file]) := at_file hs staging
  unfold Builtin.place at h
  rw [hout] at h
  obtain ⟨hq, hfits, -⟩ := walk_file h
  exact ⟨hq, hfits⟩

end

/-! ## what the components are called -/

section
variable {h : Host} {staging : Path} {s : Builtin} {d d' : Disk FileData}

/-- what a source of these kinds returns is one component of its own -/
theorem run_answers {ret : Returned} (hrun : s.run h staging d = (d', .ok ret)) :
    ∃ path error, ret = { items := [.component (s.component path error)] } := by
  unfold Builtin.run at hrun
  dsimp only at hrun
  split at hrun
  · cases hrun
  · obtain ⟨-, he⟩ := Prod.mk.inj hrun
    exact ⟨_, _, (Except.ok.inj he).symm⟩
  · obtain ⟨-, he⟩ := Prod.mk.inj hrun
    exact ⟨_, _, (Except.ok.inj he).symm⟩
  · split at hrun
    · cases hrun
    · cases hrun
  · split at hrun
    · cases hrun
    · obtain ⟨-, he⟩ := Prod.mk.inj hrun
      exact ⟨_, _, (Except.ok.inj he).symm⟩
  · split at hrun
    · obtain ⟨-, he⟩ := Prod.mk.inj hrun
      exact ⟨_, _, (Except.ok.inj he).symm⟩
    · obtain ⟨-, he⟩ := Prod.mk.inj hrun
      exact ⟨_, _, (Except.ok.inj he).symm⟩

/-- recorded under the source's name and kind -/
def NamedBy (s : Builtin) (c : PyComponent) : Prop := c.name = lit s.name ∧ c.kind = lit s.kind.type

theorem recordComponent_named {path : Output} {error : PyVal} {cs : List PyComponent}
    (hr : (recordComponent h d (s.component path error)).1 = .ok cs) : ∀ c ∈ cs, NamedBy s c := by
  unfold recordComponent at hr
  split at hr
  · cases hr
  · intro c hc
    rw [← Except.ok.inj hr] at hc
    rw [List.mem_singleton.mp hc]
    exact ⟨rfl, rfl⟩
  · split at hr
    · cases hr
    · split at hr
      · cases hr
      · rename_i c hbuild
        split at hr
        · cases hr
        · intro c' hc
          rw [← Except.ok.inj hr] at hc
          rw [List.mem_singleton.mp hc, ← Except.ok.inj hbuild]
          exact ⟨rfl, rfl⟩

theorem recordRaised_named {e : PyExc} {cs : List PyComponent}
    (hr : (recordRaised h s.kind.type (.text (lit s.name)) e).1 = .ok cs) : ∀ c ∈ cs, NamedBy s c := by
  unfold recordRaised at hr
  split at hr
  · cases hr
  · intro c hc
    rw [← Except.ok.inj hr] at hc
    rw [List.mem_singleton.mp hc]
    exact ⟨rfl, rfl⟩

theorem stage_named {cs : List PyComponent} {errors : List PyText}
    (hst : stage h staging (s.toRun h staging) d = (d', .ok cs, errors)) : ∀ c ∈ cs, NamedBy s c := by
  unfold stage at hst
  split at hst
  · cases hst
  · split at hst
    · rename_i d1 ret hrun
      obtain ⟨path, error, rfl⟩ := run_answers (show s.run h staging d = (d1, .ok ret) from hrun)
      obtain ⟨-, hrec⟩ := Prod.mk.inj hst
      refine recordComponent_named (h := h) (d := d1) (?_ : (recordComponent h d1 (s.component path error)).1 = .ok cs)
      exact recordItems_one (congrArg Prod.fst hrec)
    · rename_i d1 e hrun
      split at hst
      · cases hst
      · rename_i cs' errors' hrec
        split at hst
        · cases hst
        · obtain ⟨-, he⟩ := Prod.mk.inj hst
          obtain ⟨he, -⟩ := Prod.mk.inj he
          obtain rfl := Except.ok.inj he
          obtain ⟨-, name, hask, hrec⟩ := handleRaised_ok h hrec
          obtain rfl := Except.ok.inj hask
          exact recordRaised_named (congrArg Prod.fst hrec)

theorem steps_named {sources : List Builtin} : ∀ st ∈ steps h staging sources d,
    st.source ∈ sources ∧ NamedBy st.source st.component := by
  induction sources generalizing d with
  | nil => exact fun st hst => absurd hst List.not_mem_nil
  | cons s sources ih =>
    intro st hst
    unfold steps at hst
    split at hst
    · split at hst
      · cases hst
      · rename_i d1 cs errors hstage
        rcases List.mem_append.mp hst with hst | hst
        · obtain ⟨c, hc, rfl⟩ := List.mem_map.mp hst
          exact ⟨List.mem_cons_self, stage_named hstage c hc⟩
        · exact (ih st hst).imp_left (List.mem_cons_of_mem _)
    · exact (ih st hst).imp_left (List.mem_cons_of_mem _)

/-- as the manifest has it -/
theorem write_named {pc : PyComponent} {c : Component} (hn : NamedBy s pc) (hw : pc.write h = some c) :
    c.name = s.name ∧ c.kind = s.kind.type := by
  unfold PyComponent.write at hw
  split at hw
  · rename_i name kind error hname hkind herror hmeta
    rw [hn.1, encode_lit] at hname
    rw [hn.2, encode_lit] at hkind
    rw [← Option.some.inj hw]
    exact ⟨(Option.some.inj hname).symm, (Option.some.inj hkind).symm⟩
  · cases hw

end

/-! ## a flat directory -/

/-- right below the directory there are files, and nothing else -/
def Flat (d : Disk FileData) (dir : Path) : Prop :=
  ∀ r n, r ≠ [] → d.node (dir ++ r) = some n → ∃ f b, r = [f] ∧ n = .file b ∧ fits f = true ∧ f ≠ up

section
variable {h : Host} {staging : Path} {d : Disk FileData}

theorem Flat.not_dir (hd : Flat d staging) {r : Path} (hr : r ≠ []) : d.isDir (staging ++ r) = false := by
  by_contra hdir
  rw [Bool.not_eq_false, isDir_iff] at hdir
  obtain ⟨f, b, -, hn, -⟩ := hd r .dir hr hdir
  cases hn

theorem Flat.put (hd : Flat d staging) {f : Str} (b : FileData) (hfits : fits f = true) (hup : f ≠ up) :
    Flat (d.put (staging ++ [f]) (.file b)) staging := by
  intro r n hr hn
  by_cases he : r = [f]
  · subst he
    rw [node_put_self (by simp)] at hn
    exact ⟨f, b, rfl, (Option.some.inj hn).symm, hfits, hup⟩
  · rw [node_put_ne fun hq => he (List.append_cancel_left hq)] at hn
    exact hd r n hr hn

/-- a step leaves a flat staging directory flat -/
theorem Flat.step {st : Step} (hd : Flat st.before staging) (hsound : st.Sound h staging)
    (hslash : free '/' st.source.name) : Flat st.after staging := by
  intro r n hr hn
  by_cases ht : st.Touches staging (staging ++ r)
  · obtain ⟨-, hplace, -⟩ := ht
    obtain ⟨hq, hfits⟩ := place_file hslash hplace
    have hrf : r = [st.source.file] := List.append_cancel_left hq
    cases n with
    | dir =>
      -- no directory is new
      obtain ⟨p, honly⟩ := hsound.only
      have hdir := honly.dirs (staging ++ r)
      rw [isDir_iff.mpr hn, hd.not_dir hr] at hdir
      cases hdir
    | file b => exact ⟨st.source.file, b, hrf, rfl, hfits, (file_plain).2.2⟩
  · rw [hsound.frame _ ht] at hn
    exact hd r n hr hn

theorem Flat.lastDisk {l : List Step} (hd : Flat d staging) (hchain : Chained d l)
    (hall : ∀ st ∈ l, st.Sound h staging) (hslash : ∀ st ∈ l, free '/' st.source.name) :
    Flat (lastDisk d l) staging := by
  induction l generalizing d with
  | nil => exact hd
  | cons st l ih =>
    obtain ⟨rfl, hchain⟩ := hchain
    rw [List.forall_mem_cons] at hall hslash
    exact ih (hd.step hall.1 hslash.1) hchain hall.2 hslash.2

/-- the members of the bundle of a flat directory -/
theorem Flat.member (hd : Flat d staging) {m : Member FileData} (hm : m ∈ createBundle d staging) :
    ∃ f b, m = ([f], .file b) ∧ fits f = true ∧ f ≠ up := by
  obtain ⟨r, n⟩ := m
  obtain ⟨hr, hn⟩ := mem_createBundle.mp hm
  obtain ⟨f, b, rfl, rfl, hfits, hup⟩ := hd r n hr hn
  exact ⟨f, b, rfl, hfits, hup⟩

theorem Flat.tree (hd : Flat d staging) : Tree fits (safeMembers (createBundle d staging)) := by
  have hmember : ∀ m ∈ safeMembers (createBundle d staging), m ∈ createBundle d staging := fun m hm =>
    (mem_safeMembers.mp hm).1
  refine ⟨fun m hm => ?_, fun m hm m' hm' he => ?_, fun r b hr m hm hpre => ?_⟩
  · obtain ⟨f, b, rfl, hfits, hup⟩ := hd.member (hmember m hm)
    refine ⟨List.cons_ne_nil _ _, fun hmem => hup (List.mem_singleton.mp hmem).symm, fun s hs => ?_⟩
    rw [List.mem_singleton.mp hs]
    exact hfits
  · obtain ⟨r, n⟩ := m
    obtain ⟨r', n'⟩ := m'
    obtain rfl : r = r' := he
    have hn := (mem_createBundle.mp (hmember _ hm)).2
    have hn' := (mem_createBundle.mp (hmember _ hm')).2
    exact Option.some.inj (hn.symm.trans hn')
  · obtain ⟨f, b', he, -⟩ := hd.member (hmember _ hr)
    obtain ⟨f', b'', rfl, -⟩ := hd.member (hmember m hm)
    obtain rfl : r = [f] := (Prod.mk.inj he).1
    obtain ⟨hf, -⟩ := List.cons_prefix_cons.mp hpre
    show [f'] = [f]
    rw [hf]

end

/-! ## the extracted bundle -/

/-- a bundle of a flat directory, extracted -/
structure Extracted (members : List (Member FileData)) (extracted : Path) (d : Disk FileData) : Prop where
  isDir : d.isDir extracted = true
  files : ∀ f n, d.node (extracted ++ [f]) = some n ↔ ([f], n) ∈ members ∧ isSafeMember f = true

section
variable {staging extracted : Path} {d dM work d0 : Disk FileData} {members : List (Member FileData)}

theorem Flat.extract (hd : Flat dM staging) (hdest : work.mkdirs fits [] extracted = some d0)
    (hbare : Bare d0 extracted) : ∃ d',
      extractBundle fits keepAll work extracted (createBundle dM staging) = some d' ∧
        Extracted (createBundle dM staging) extracted d' := by
  obtain ⟨d', hextract, hU⟩ := extractBundle_spec hdest hbare (mapM_keepAll _) hd.tree
  refine ⟨d', hextract, ?_, fun f n => ?_⟩
  · have hroot := (hU.dirs []).mpr (Or.inl rfl)
    rw [List.append_nil] at hroot
    exact isDir_iff.mpr hroot
  · have hsafe : ∀ m ∈ createBundle dM staging, ∀ g, m.1 = [g] →
        (m ∈ safeMembers (createBundle dM staging) ↔ isSafeMember g = true) := by
      intro m hm g hg
      have hposix : posix m.1 = g := by rw [hg]; rfl
      rw [mem_safeMembers, hposix]
      exact ⟨fun h => h.2, fun h => ⟨hm, h⟩⟩
    cases n with
    | file b =>
      rw [hU.files, mem_safeMembers]
      exact Iff.rfl
    | dir =>
      rw [hU.dirs]
      constructor
      · rintro (h | ⟨m, hm, hpre, hor⟩)
        · cases h
        · -- the members are files, right in the directory
          obtain ⟨g, b, rfl, -⟩ := hd.member (mem_safeMembers.mp hm).1
          obtain ⟨hf, -⟩ := List.cons_prefix_cons.mp hpre
          rcases hor with hne | hdir
          · exact absurd (by rw [hf]) hne
          · cases hdir
      · rintro ⟨hm, -⟩
        obtain ⟨g, b, he, -⟩ := hd.member hm
        cases (Prod.mk.inj he).2

theorem Extracted.mem_globIn (hd : Extracted members extracted d) {pat x : Str} :
    x ∈ globIn d extracted pat ↔
      (∃ n, ([x], n) ∈ members) ∧ isSafeMember x = true ∧ fnmatch pat x = true := by
  obtain ⟨names, hnames⟩ : ∃ names, iterdir d extracted = some names := ⟨_, if_pos hd.isDir⟩
  unfold globIn
  rw [mem_sorted, List.mem_filter, hnames]
  show x ∈ names ∧ _ ↔ _
  rw [mem_iterdir hnames, Option.ne_none_iff_exists']
  constructor
  · rintro ⟨⟨n, hn⟩, hmatch⟩
    obtain ⟨hm, hsafe⟩ := (hd.files x n).mp hn
    exact ⟨⟨n, hm⟩, hsafe, hmatch⟩
  · rintro ⟨⟨n, hm⟩, hsafe, hmatch⟩
    exact ⟨⟨n, (hd.files x n).mpr ⟨hm, hsafe⟩⟩, hmatch⟩

/-- nothing of the bundle comes before the source's file -/
structure InFront (members : List (Member FileData)) (s : Builtin) : Prop where
  /-- the extraction lets it through -/
  safe : isSafeMember s.file = true
  first : ∀ pat, s.kind.lookup s.name = .firstOf pat → fnmatch pat s.file = true ∧
    ∀ x n, ([x], n) ∈ members → isSafeMember x = true → fnmatch pat x = true → s.file ≤ x

/-- **A source is handed its own file** exactly if no other comes before it. -/
theorem handed_iff {s : Builtin} {b : FileData} (hd : Extracted members extracted d) (hslash : free '/' s.name)
    (hfits : fits s.file = true) (hm : ([s.file], .file b) ∈ members) (hkind : s.kind ≠ .env) :
    handed d extracted (s.kind.lookup s.name) = some (extracted ++ [s.file]) ↔ InFront members s := by
  have hnested : s.kind.suffix = ".tar.gz".toList → (handed d extracted (.nested s.name) =
      some (extracted ++ [s.file]) ↔ isSafeMember s.file = true) := by
    intro hsuffix
    have hfile : s.name ++ ".tar.gz".toList = s.file := by rw [← hsuffix]; rfl
    have hup : up ∉ [s.file] := fun hmem => (file_plain (s := s)).2.2 (List.mem_singleton.mp hmem).symm
    have hwalk : d.walk fits extracted [s.file] = some (extracted ++ [s.file]) := by
      rw [walk_eq_some, reach_plain hup]
      refine ⟨fun q hq => ?_, fun f hf => ?_, rfl⟩
      · rw [List.mem_singleton.mp hq]
        exact hd.isDir
      · rw [List.mem_singleton.mp hf]
        exact hfits
    have hhanded : handed d extracted (.nested s.name) = (some (extracted ++ [s.file])).filter d.isFile := by
      show (d.walk fits (at_ extracted (s.name ++ ".tar.gz".toList)).1
        (at_ extracted (s.name ++ ".tar.gz".toList)).2).filter d.isFile = _
      rw [hfile, at_file hslash]
      exact congrArg (·.filter d.isFile) hwalk
    rw [hhanded, Option.filter_eq_some_iff]
    constructor
    · rintro ⟨-, hisFile⟩
      unfold Disk.isFile at hisFile
      split at hisFile
      · rename_i b' hn
        exact ((hd.files _ _).mp hn).2
      · cases hisFile
    · intro hsafe
      refine ⟨rfl, ?_⟩
      unfold Disk.isFile
      rw [(hd.files _ _).mpr ⟨hm, hsafe⟩]
  have hfirst : ∀ pat, handed d extracted (.firstOf pat) = some (extracted ++ [s.file]) ↔
      isSafeMember s.file = true ∧ fnmatch pat s.file = true ∧
        ∀ x n, ([x], n) ∈ members → isSafeMember x = true → fnmatch pat x = true → s.file ≤ x := by
    intro pat
    have hhead : handed d extracted (.firstOf pat) = some (extracted ++ [s.file]) ↔
        (globIn d extracted pat).head? = some s.file := by
      show (globIn d extracted pat).head?.map (extracted ++ [·]) = _ ↔ _
      rw [Option.map_eq_some_iff]
      constructor
      · rintro ⟨x, hx, he⟩
        rw [hx, List.singleton_inj.mp (List.append_cancel_left he)]
      · exact fun hx => ⟨s.file, hx, rfl⟩
    have hglob : (globIn d extracted pat).head? = some s.file ↔ s.file ∈ globIn d extracted pat ∧
        ∀ y ∈ globIn d extracted pat, s.file ≤ y := by
      unfold globIn
      rw [head_sorted, mem_sorted]
      refine and_congr_right fun _ => forall_congr' fun y => ?_
      rw [mem_sorted]
    rw [hhead, hglob, hd.mem_globIn]
    constructor
    · rintro ⟨⟨-, hsafe, hmatch⟩, hle⟩
      exact ⟨hsafe, hmatch, fun x n hx hsafe hmatch => hle x (hd.mem_globIn.mpr ⟨⟨n, hx⟩, hsafe, hmatch⟩)⟩
    · rintro ⟨hsafe, hmatch, hle⟩
      refine ⟨⟨⟨_, hm⟩, hsafe, hmatch⟩, fun y hy => ?_⟩
      obtain ⟨⟨n, hy⟩, hsafe, hmatch⟩ := hd.mem_globIn.mp hy
      exact hle y n hy hsafe hmatch
  have hdump : ∀ pat, s.kind.lookup s.name = .firstOf pat →
      (handed d extracted (s.kind.lookup s.name) = some (extracted ++ [s.file]) ↔ InFront members s) := by
    intro pat hpat
    rw [hpat, hfirst pat]
    constructor
    · rintro ⟨hsafe, hrest⟩
      refine ⟨hsafe, fun pat' hpat' => ?_⟩
      obtain rfl := Lookup.firstOf.inj (hpat.symm.trans hpat')
      exact hrest
    · exact fun hfront => ⟨hfront.safe, hfront.first pat hpat⟩
  have harchive : s.kind.lookup s.name = .nested s.name → s.kind.suffix = ".tar.gz".toList →
      (handed d extracted (s.kind.lookup s.name) = some (extracted ++ [s.file]) ↔ InFront members s) := by
    intro hlookup hsuffix
    rw [hlookup, hnested hsuffix]
    constructor
    · refine fun hsafe => ⟨hsafe, fun pat hpat => ?_⟩
      rw [hlookup] at hpat
      cases hpat
    · exact fun hfront => hfront.safe
  cases hk : s.kind with
  | filesystem =>
    rw [hk] at harchive
    exact harchive rfl rfl
  | s3 =>
    rw [hk] at harchive
    exact harchive rfl rfl
  | env => exact absurd hk hkind
  | postgres custom =>
    rw [hk] at hdump
    exact hdump _ rfl
  | mariadb =>
    rw [hk] at hdump
    exact hdump _ rfl
  | mysql =>
    rw [hk] at hdump
    exact hdump _ rfl

end

/-! ## from the stored archive to the bundle -/

theorem hasExtension_append {ext name rest : Str} (hname : name = rest ++ ext) (hrest : rest ≠ []) :
    hasExtension ext name = true := by
  subst hname
  unfold hasExtension
  have hpos : 0 < rest.length := List.length_pos_iff.mpr hrest
  rw [List.isSuffixOf_iff_suffix.mpr (List.suffix_append rest ext), Bool.true_and, decide_eq_true_eq,
    List.length_append]
  omega

theorem not_hasExtension {ext ext' rest : Str} (h : ¬ ext <:+ ext') (h' : ¬ ext' <:+ ext) :
    ¬ hasExtension ext (rest ++ ext') = true := by
  unfold hasExtension
  rw [Bool.and_eq_true, List.isSuffixOf_iff_suffix]
  rintro ⟨⟨t, ht⟩, -⟩
  exact append_ne h h' ht

/-- the name of the artifact tells how it was encrypted -/
theorem open_stored {h : Host} {t : Opener} {identityFile : Option Str} {mode encrypted : EncryptionMode}
    {plain archive : Bytes} {more : List PyText} (sid : Str)
    (hdecrypt : ∀ mode plain b, h.encrypt mode plain = .ok b → t.decrypt mode b = some plain)
    (hidentity : encrypted = .age → ∃ c cs, identityFile = some (c :: cs))
    (hseal : maybeEncrypt h mode plain = .ok (archive, encrypted, more)) :
    openArtifact t identityFile (archiveName sid encrypted) archive = t.unpack plain := by
  -- what was encrypted, and with what
  have hsealed : (encrypted = .none ∧ archive = plain) ∨
      (encrypted ≠ .none ∧ h.encrypt encrypted plain = .ok archive) := by
    unfold maybeEncrypt at hseal
    split at hseal
    · obtain ⟨rfl, he⟩ := Prod.mk.inj (Except.ok.inj hseal)
      exact Or.inl ⟨(Prod.mk.inj he).1.symm, rfl⟩
    · rename_i hmode
      split at hseal
      · rename_i b hb
        obtain ⟨rfl, he⟩ := Prod.mk.inj (Except.ok.inj hseal)
        rw [← (Prod.mk.inj he).1]
        exact Or.inr ⟨hmode, hb⟩
      · rename_i e he
        split at hseal
        · cases hseal
        cases hd : describe h e with
        | error e' =>
          rw [hd] at hseal
          cases hseal
        | ok reason =>
          rw [hd] at hseal
          obtain ⟨rfl, he⟩ := Prod.mk.inj (Except.ok.inj hseal)
          exact Or.inl ⟨(Prod.mk.inj he).1.symm, rfl⟩
  have hbase : sid ++ tarSuffix ≠ [] := by
    intro he
    exact absurd (List.append_eq_nil_iff.mp he).2 (by decide)
  unfold openArtifact archiveName
  rcases hsealed with ⟨rfl, rfl⟩ | ⟨hmode, hseal⟩
  · have hname : sid ++ tarSuffix ++ encryptSuffix .none = sid ++ ".tar.gz".toList := List.append_nil _
    rw [hname, if_neg (not_hasExtension (by decide) (by decide)), if_neg (not_hasExtension (by decide) (by decide))]
  · have hplain : (t.decrypt encrypted archive).bind t.unpack = t.unpack plain := by
      rw [hdecrypt _ _ _ hseal]
      rfl
    cases encrypted with
    | none => exact absurd rfl hmode
    | age =>
      obtain ⟨c, cs, hid⟩ := hidentity rfl
      have hage : hasExtension ".age".toList (sid ++ tarSuffix ++ encryptSuffix .age) = true :=
        hasExtension_append rfl hbase
      rw [if_pos hage, hid]
      exact hplain
    | gpg =>
      have hnot : ¬ hasExtension ".age".toList (sid ++ tarSuffix ++ encryptSuffix .gpg) = true :=
        not_hasExtension (by decide) (by decide)
      have hgpg : hasExtension ".gpg".toList (sid ++ tarSuffix ++ encryptSuffix .gpg) = true :=
        hasExtension_append rfl hbase
      rw [if_neg hnot, if_pos hgpg]
      exact hplain

/-! ## the job -/

section
variable {jobs : List (SourceSpec × Builtin)} {r : RestoreArgs}

/-- the sources of the job, each with what it does in the run -/
structure Configured (r : RestoreArgs) (jobs : List (SourceSpec × Builtin)) : Prop where
  sources : r.sources = jobs.map (·.1)
  /-- a source that can be built tells the name of its component -/
  built : ∀ p ∈ jobs, r.built p.1 = .ok (.text p.2.name)
  types : ∀ p ∈ jobs, p.1.type = p.2.kind.type
  slash : ∀ p ∈ jobs, free '/' p.2.name
  /-- disabled sources included -/
  distinct : (jobs.map (·.2.name)).Nodup

theorem Configured.name (hr : Configured r jobs) {p : SourceSpec × Builtin} (hp : p ∈ jobs) :
    specComponentName r.built p.1 = .ok (.text p.2.name) := by
  unfold specComponentName
  rw [hr.built p hp]

/-- the source of a component is the one of that name -/
theorem Configured.spec_eq (hr : Configured r jobs) {p : SourceSpec × Builtin} (hp : p ∈ jobs) :
    r.spec p.2.name = some p.1 := by
  unfold RestoreArgs.spec
  cases hf : r.sources.reverse.find?
      (fun s => decide (specComponentName r.built s = .ok (.text p.2.name))) with
  | none =>
    have hmem : p.1 ∈ r.sources.reverse := by
      rw [List.mem_reverse, hr.sources]
      exact List.mem_map_of_mem hp
    exact absurd (decide_eq_true (hr.name hp)) (List.find?_eq_none.mp hf p.1 hmem)
  | some spec =>
    have hname : specComponentName r.built spec = .ok (.text p.2.name) := by
      simpa using List.find?_some hf
    have hmem := List.mem_reverse.mp (List.mem_of_find?_eq_some hf)
    rw [hr.sources] at hmem
    obtain ⟨p', hp', rfl⟩ := List.mem_map.mp hmem
    rw [hr.name hp'] at hname
    rw [List.inj_on_of_nodup_map hr.distinct hp' hp (SpecValue.text.inj (Except.ok.inj hname))]

/-- a restore looks for what the kind of the source says -/
theorem Configured.lookup (hr : Configured r jobs) {p : SourceSpec × Builtin} (hp : p ∈ jobs) {c : Component}
    (hname : c.name = p.2.name) (hkind : c.kind = p.2.kind.type) :
    r.lookup p.1 c = p.2.kind.lookup p.2.name := by
  unfold RestoreArgs.lookup
  rw [hkind, hname, hr.types p hp, hr.built p hp]
  cases p.2.kind with
  | filesystem => exact if_pos (by decide)
  | s3 => exact if_pos (by decide)
  | postgres custom => cases custom <;> exact (if_neg (by decide)).trans (if_pos (by decide))
  | mariadb => exact (if_neg (by decide)).trans ((if_neg (by decide)).trans (if_pos (by decide)))
  | mysql => exact (if_neg (by decide)).trans ((if_neg (by decide)).trans (if_pos (by decide)))
  | env => exact (if_neg (by decide)).trans ((if_neg (by decide)).trans (if_neg (by decide)))

theorem mem_due {m : Manifest} {p : SourceSpec × Component} : p ∈ due r m ↔
    p.2 ∈ m.components ∧ r.skips p.2 = false ∧ p.2.kind ≠ envKind ∧ r.spec p.2.name = some p.1 := by
  unfold due
  rw [List.mem_filterMap]
  constructor
  · rintro ⟨c, hc, he⟩
    split at he
    · cases he
    · rename_i hnot
      obtain ⟨hskip, henv⟩ := not_or.mp hnot
      obtain ⟨spec, hspec, rfl⟩ := Option.map_eq_some_iff.mp he
      exact ⟨hc, by simpa using hskip, henv, hspec⟩
  · rintro ⟨hc, hskip, henv, hspec⟩
    refine ⟨p.2, hc, ?_⟩
    rw [if_neg (not_or.mpr ⟨by rw [hskip]; simp, henv⟩), hspec]
    rfl

end

/-- names without special characters, and no other file that begins with the component's name and a dot -/
theorem inFront_of_apart {members : List (Member FileData)} {s : Builtin} (hsafe : isSafeMember s.file = true)
    (hplain : plain s.name) (h : ∀ x n, ([x], n) ∈ members → s.name ++ ['.'] <+: x → x = s.file) :
    InFront members s := by
  refine ⟨hsafe, fun pat hpat => ?_⟩
  -- what the pattern matches begins so
  have hbegins : fnmatch pat s.file = true ∧ ∀ x, fnmatch pat x = true → s.name ++ ['.'] <+: x := by
    have hall : plain (s.name ++ ['.']) := plain_append hplain (by decide)
    have hstar : s.name ++ ".*".toList = s.name ++ ['.'] ++ ['*'] := by
      rw [List.append_assoc]
      rfl
    have hsql : plain (s.name ++ ".sql.gz".toList) := plain_append hplain (by decide)
    have hdot : ∀ suffix : Str, s.name ++ ['.'] <+: s.name ++ '.' :: suffix := fun suffix =>
      ⟨suffix, by rw [List.append_assoc]; rfl⟩
    have hpostgres : ∀ custom, s.kind = .postgres custom → pat = s.name ++ ".*".toList →
        fnmatch pat s.file = true ∧ ∀ x, fnmatch pat x = true → s.name ++ ['.'] <+: x := by
      rintro custom hkind rfl
      rw [hstar]
      refine ⟨(fnmatch_begins hall _).mpr ?_, fun x hx => (fnmatch_begins hall x).mp hx⟩
      unfold Builtin.file
      rw [hkind]
      cases custom
      · exact hdot "sql.gz".toList
      · exact hdot "dump".toList
    have hdump : s.kind.suffix = ".sql.gz".toList → pat = s.name ++ ".sql.gz".toList →
        fnmatch pat s.file = true ∧ ∀ x, fnmatch pat x = true → s.name ++ ['.'] <+: x := by
      rintro hsuffix rfl
      have hfile : s.file = s.name ++ ".sql.gz".toList := by rw [← hsuffix]; rfl
      refine ⟨(fnmatch_plain hsql _).mpr hfile, fun x hx => ?_⟩
      rw [(fnmatch_plain hsql x).mp hx]
      exact hdot "sql.gz".toList
    cases hk : s.kind with
    | filesystem =>
      rw [hk] at hpat
      cases hpat
    | env =>
      rw [hk] at hpat
      cases hpat
    | s3 =>
      rw [hk] at hpat
      cases hpat
    | postgres custom =>
      rw [hk] at hpat
      exact hpostgres custom hk (Lookup.firstOf.inj hpat).symm
    | mariadb =>
      rw [hk] at hpat hdump
      exact hdump rfl (Lookup.firstOf.inj hpat).symm
    | mysql =>
      rw [hk] at hpat hdump
      exact hdump rfl (Lookup.firstOf.inj hpat).symm
  refine ⟨hbegins.1, fun x n hx _ hmatch => ?_⟩
  rw [h x n hx (hbegins.2 x hmatch)]

/-! ## from a run to a restore -/

/-- the component of a step, and what its source is handed -/
structure Paired (h : Host) (staging : Path) (jobs : List (SourceSpec × Builtin)) (r : RestoreArgs)
    (members : List (Member FileData)) (extracted : Path) (d : Disk FileData) (p : SourceSpec × Component)
    (st : Step) : Prop where
  /-- it is restored into the source that it came from -/
  source : (p.1, st.source) ∈ jobs
  component : st.component.write h = some p.2
  file : ∃ b, st.after.node (staging ++ [st.source.file]) = some (.file b) ∧
    (InFront members st.source → d.node (extracted ++ [st.source.file]) = some (.file b))
  handed : handed d extracted (r.lookup p.1 p.2) = some (extracted ++ [st.source.file]) ↔
    InFront members st.source

/-- **Each component and its own file.**  The archive that a run of careful steps stored is opened and
extracted again; every component without error that is selected is restored into the source that it came
from, and this is handed the file that it staged, as it was then, exactly if no other file of the bundle
that its pattern matches comes before it. -/
theorem restore_pairs (h : Host) (hfits : h.fits = fits) (a : RunArgs) {staging : Path}
    {jobs : List (SourceSpec × Builtin)} {d : Disk FileData} (hF : Fresh staging d)
    (htemp : ∀ s ∈ jobs.map (·.2), s.NewTemp staging) {made : Made}
    (hmade : makeBundle h a staging ((jobs.map (·.2)).map (·.toRun h staging)) d = .ok made)
    (hcareful : Careful h staging (jobs.map (·.2)) (steps h staging (jobs.map (·.2)) d))
    (r : RestoreArgs) (hr : Configured r jobs) (t : Opener)
    (hdecrypt : ∀ mode plain b, h.encrypt mode plain = .ok b → t.decrypt mode b = some plain)
    (hunpack : ∀ dM plain, bundleDisk h a staging ((jobs.map (·.2)).map (·.toRun h staging)) d = some dM →
      h.pack (createBundle dM staging) = .ok plain → t.unpack plain = some (createBundle dM staging))
    (hidentity : made.encrypted = .age → ∃ c cs, r.identityFile = some (c :: cs))
    {work d0 : Disk FileData} {extracted : Path} (hdest : work.mkdirs fits [] extracted = some d0)
    (hbare : Bare d0 extracted) (m : Manifest) (hm : m.components = made.components) :
    ∃ members d',
      openArtifact t r.identityFile (archiveName a.sid made.encrypted) made.archive = some members ∧
      extractBundle fits keepAll work extracted members = some d' ∧
      (∀ st ∈ steps h staging (jobs.map (·.2)) d, ∀ c, st.component.write h = some c → r.skips c = false →
        c.kind ≠ envKind → ∃ spec, (spec, c) ∈ due r m) ∧
      ∀ p ∈ due r m, p.2.error = none →
        ∃ st ∈ steps h staging (jobs.map (·.2)) d, Paired h staging jobs r members extracted d' p st := by
  obtain ⟨d1, cs, errors, dM, plain, more, hprod, hwrite, hover, hdisk, hpack, hencrypt⟩ :=
    makeBundle_cases hmade
  obtain ⟨rfl, hchain, rfl, hM, hall⟩ :=
    steps_spec hfits hF.midway hF.isDir hF.plain hcareful.keys htemp hprod
  have hlast := kept_lastDisk hchain hall hcareful.inside hcareful.apart
  obtain ⟨-, rfl⟩ := overwrite_manifest hM hover
  have hkept := hlast.put (n := .file (.manifest (Manifest.build a.sid a.instance_ made.components
    (isoformat a.now) none))) (List.prefix_append staging [manifestFile]) hcareful.manifest
  -- the steps are of the job's sources, each under its own name
  have hnamed : ∀ st ∈ steps h staging (jobs.map (·.2)) d, ∃ spec, (spec, st.source) ∈ jobs ∧
      NamedBy st.source st.component := by
    intro st hst
    obtain ⟨hsource, hname⟩ := steps_named st hst
    obtain ⟨p, hp, he⟩ := List.mem_map.mp hsource
    exact ⟨p.1, by rw [← he]; exact hp, hname⟩
  -- there are only files in the bundle
  have hfresh : Flat d staging := fun f n hf hn => by
    rw [hF.empty f hf] at hn
    cases hn
  have hflat := (hfresh.lastDisk hchain hall fun st hst => by
    obtain ⟨spec, hp, -⟩ := hnamed st hst
    exact hr.slash _ hp).put (f := manifestFile) (.manifest (Manifest.build a.sid a.instance_ made.components
      (isoformat a.now) none)) (by decide) (by decide)
  obtain ⟨d', hextract, hE⟩ := hflat.extract hdest hbare
  refine ⟨_, d', ?_, hextract, fun st hst c hc hskip henv => ?_, fun p hp herror => ?_⟩
  · rw [open_stored a.sid hdecrypt hidentity hencrypt]
    exact hunpack _ _ hdisk hpack
  · obtain ⟨spec, hjob, hname⟩ := hnamed st hst
    obtain ⟨hcname, -⟩ := write_named hname hc
    have hmem : c ∈ m.components := by
      rw [hm]
      obtain ⟨c', hc', he⟩ := exists_of_forall₂_left (mapM_forall₂ hwrite) st.component
        (List.mem_map_of_mem hst)
      rw [hc] at he
      rw [Option.some.inj he]
      exact hc'
    refine ⟨spec, mem_due.mpr ⟨hmem, hskip, henv, ?_⟩⟩
    rw [hcname]
    exact hr.spec_eq hjob
  · obtain ⟨hmem, -, henv, hspec⟩ := mem_due.mp hp
    rw [hm] at hmem
    obtain ⟨pc, hpc, hc⟩ := exists_of_forall₂ (mapM_forall₂ hwrite) p.2 hmem
    obtain ⟨st, hst, rfl⟩ := List.mem_map.mp hpc
    obtain ⟨spec, hjob, hname⟩ := hnamed st hst
    obtain ⟨hcname, hckind⟩ := write_named hname hc
    -- the spec of the component's name is its source's
    have hown : spec = p.1 := by
      rw [hcname, hr.spec_eq hjob] at hspec
      exact Option.some.inj hspec
    subst hown
    obtain ⟨-, -, hnone⟩ := write_component hc
    obtain ⟨q, b, hfile, hafter, hnode, -⟩ := hkept.intact st hst (hnone herror)
    obtain ⟨rfl, hfit⟩ := place_file (hr.slash _ hjob) hfile.2
    have hbundle : ([st.source.file], Node.file b) ∈ createBundle _ staging :=
      mem_createBundle.mpr ⟨by simp, hnode⟩
    have hkind : st.source.kind ≠ .env := by
      intro he
      rw [hckind, he] at henv
      exact henv rfl
    refine ⟨st, hst, hjob, hc, ⟨b, hafter, fun hfront => ?_⟩, ?_⟩
    · exact (hE.files _ _).mpr ⟨hbundle, hfront.safe⟩
    · rw [hr.lookup hjob hcname hckind]
      exact handed_iff hE (hr.slash _ hjob) hfit hbundle hkind

/-- a file that begins like the dump comes before it -/
example : handed ⟨[(["x".toList], .dir), (["x".toList, "db.dump".toList], .file (.bytes [1])),
      (["x".toList, "db.a.tar.gz".toList], .file (.bytes [2]))]⟩ ["x".toList] (.firstOf "db.*".toList) =
    some ["x".toList, "db.a.tar.gz".toList] := by decide +kernel

/-! ## a dump and an archive -/

theorem bytes_noMirror (b : Bytes) (bucket prefix_ : Str) (objects : Bucket) (td : Disk FileData → Str) :
    Work.writes (.bytes b) ≠ .mirrors bucket prefix_ objects td := by
  intro h
  cases h

theorem bytes_noLink (b : Bytes) (t : Str) (e : PyExc) :
    Work.writes (.bytes b) ≠ .writes (.link t) ∧ Work.writes (.bytes b) ≠ .breaks (.link t) e := by
  refine ⟨fun h => ?_, fun h => ?_⟩
  · cases h
  · cases h

def pgSource (name : Str) (b : Bytes) : Builtin where
  kind := .postgres true
  name := name
  enabled := .bool true
  bucket := .none
  metadata := []
  work := .writes (.bytes b)
  mirror bucket prefix_ objects td h := absurd h (bytes_noMirror b bucket prefix_ objects td)
  noLink t e := bytes_noLink b t e

def dumpAndFiles : List (SourceSpec × Builtin) :=
  [(dumpSpec, pgSource "db".toList [1]), (uploadsSpec, filesSource "uploads".toList [2])]

theorem configured_dumpAndFiles : Configured twoSources dumpAndFiles where
  sources := rfl
  built p hp := by
    rcases List.mem_cons.mp hp with rfl | hp
    · rfl
    · rw [List.mem_singleton.mp hp]
      rfl
  types p hp := by
    rcases List.mem_cons.mp hp with rfl | hp
    · rfl
    · rw [List.mem_singleton.mp hp]
      rfl
  slash p hp := by
    rcases List.mem_cons.mp hp with rfl | hp
    · decide
    · rw [List.mem_singleton.mp hp]
      decide
  distinct := by decide

theorem careful_dumpAndFiles : Careful plainHost ["stage".toList] (dumpAndFiles.map (·.2))
    (steps plainHost ["stage".toList] (dumpAndFiles.map (·.2)) emptyStage) := by
  obtain ⟨d1, d2, c1, c2, hsteps⟩ : ∃ d1 d2 c1 c2,
      steps plainHost ["stage".toList] (dumpAndFiles.map (·.2)) emptyStage =
      [⟨pgSource "db".toList [1], emptyStage, d1, c1⟩, ⟨filesSource "uploads".toList [2], d1, d2, c2⟩] :=
    ⟨_, _, _, _, rfl⟩
  have hdump : ∀ d q, (pgSource "db".toList [1]).place ["stage".toList] d = some q →
      q = ["stage".toList] ++ ["db.dump".toList] := fun d q hq => (place_file (by decide) hq).1
  have hfiles : ∀ d q, (filesSource "uploads".toList [2]).place ["stage".toList] d = some q →
      q = ["stage".toList] ++ ["uploads.tar.gz".toList] := fun d q hq => (place_file (by decide) hq).1
  rw [hsteps]
  refine ⟨?_, ?_, ?_, ?_⟩
  · intro s hs _ bucket prefix_ objects td hwork
    rcases List.mem_cons.mp hs with rfl | hs
    · cases hwork
    · obtain rfl := List.mem_singleton.mp hs
      cases hwork
  · intro st hst q hq
    rcases List.mem_cons.mp hst with rfl | hst
    · rw [hdump _ _ hq.2.1]
      exact List.prefix_append _ _
    · obtain rfl := List.mem_singleton.mp hst
      rw [hfiles _ _ hq.2.1]
      exact List.prefix_append _ _
  · refine List.pairwise_pair.mpr fun q hq ht => ?_
    have he := (hdump _ _ hq.2).symm.trans (hfiles _ _ ht.2.1)
    exact absurd he (by decide)
  · intro st hst hq
    rcases List.mem_cons.mp hst with rfl | hst
    · exact absurd (hdump _ _ hq.2) (by decide)
    · obtain rfl := List.mem_singleton.mp hst
      exact absurd (hfiles _ _ hq.2) (by decide)

/-- the bundle of the two -/
def twoMembers (m : Manifest) : List (Member FileData) :=
  [(["db.dump".toList], .file (.bytes [1])), (["manifest.json".toList], .file (.manifest m)),
    (["uploads.tar.gz".toList], .file (.bytes [2]))]

theorem restore_pairs_dumpAndFiles :
    ∃ made d', makeBundle plainHost (runAt {} none) ["stage".toList]
        ((dumpAndFiles.map (·.2)).map (·.toRun plainHost ["stage".toList])) emptyStage = .ok made ∧
      ∀ p ∈ due twoSources (Manifest.build "s".toList [] made.components [] none), p.2.error = none →
        ∃ s, (p.1, s) ∈ dumpAndFiles ∧ handed d' ["stage".toList] (twoSources.lookup p.1 p.2) =
          some (["stage".toList] ++ [s.file]) := by
  obtain ⟨embedded, hbundle⟩ : ∃ m dM, bundleDisk plainHost (runAt {} none) ["stage".toList]
      ((dumpAndFiles.map (·.2)).map (·.toRun plainHost ["stage".toList])) emptyStage = some dM ∧
      createBundle dM ["stage".toList] = twoMembers m := ⟨_, _, rfl, rfl⟩
  obtain ⟨dM, hdisk, hmembers⟩ := hbundle
  have hdest : emptyStage.mkdirs fits [] ["stage".toList] = some emptyStage := rfl
  let t : Opener := ⟨fun _ b => some b.tail, fun _ => some (twoMembers embedded)⟩
  obtain ⟨members, d', hopen, -, -, hpairs⟩ := restore_pairs plainHost rfl (runAt {} none) fresh_emptyStage
    (fun s hs bucket prefix_ objects td hwork => by
      rcases List.mem_cons.mp hs with rfl | hs
      · cases hwork
      · obtain rfl := List.mem_singleton.mp hs
        cases hwork) rfl careful_dumpAndFiles twoSources configured_dumpAndFiles t
    (fun mode plain b hb => by rw [← Except.ok.inj hb]; rfl)
    (fun dM' plain hdM _ => by
      rw [← Option.some.inj (hdisk.symm.trans hdM), hmembers])
    (fun he => by cases he) hdest ⟨fresh_emptyStage.isDir, fresh_emptyStage.empty⟩
    (Manifest.build "s".toList [] _ [] none) rfl
  have hlist : members = twoMembers embedded := (Option.some.inj hopen).symm
  refine ⟨_, d', rfl, fun p hp herror => ?_⟩
  obtain ⟨st, -, hpair⟩ := hpairs p hp herror
  refine ⟨st.source, hpair.source, hpair.handed.mpr ?_⟩
  rw [hlist]
  have hnames : ∀ x n, ([x], n) ∈ twoMembers embedded →
      x ∈ ["db.dump".toList, "manifest.json".toList, "uploads.tar.gz".toList] := by
    intro x n hx
    have hmap : [x] ∈ (twoMembers embedded).map (·.1) := List.mem_map_of_mem hx
    simpa [twoMembers] using hmap
  have hapart : ∀ x ∈ ["db.dump".toList, "manifest.json".toList, "uploads.tar.gz".toList],
      ("db.".toList <+: x → x = "db.dump".toList) ∧ ("uploads.".toList <+: x → x = "uploads.tar.gz".toList) := by
    decide
  rcases List.mem_cons.mp hpair.source with he | he
  · rw [(Prod.mk.inj he).2]
    exact inFront_of_apart (by decide) (by decide) fun x n hx hpre => (hapart x (hnames x n hx)).1 hpre
  · rw [(Prod.mk.inj (List.mem_singleton.mp he)).2]
    exact inFront_of_apart (by decide) (by decide) fun x n hx hpre => (hapart x (hnames x n hx)).2 hpre

end BackupHelper
