import BackupHelper.Runner.Produce
import BackupHelper.Sources.S3Mirror

/-!
# What the built-in sources do to the staging directory

Each writes one file, whose name is the name of its component and a suffix.  What it comes to (a dump
that is written, one that breaks off, an answer with an error) depends on the backend.

* `Builtin`, `Work`      a source of one of these kinds, and what it comes to;
* `Builtin.run`          its `produce`;
* `Builtin.place`        where the name of its file leads;
* `stage_onlyAt`         **nothing else changes**.
-/

namespace BackupHelper
open Text Files Disk Python

inductive SourceKind where
  | filesystem
  | env
  | postgres (custom : Bool)
  | mariadb
  | mysql
  | s3
  deriving DecidableEq

def SourceKind.type : SourceKind → Str
  | .filesystem => "filesystem".toList
  | .env => "env".toList
  | .postgres _ => "postgres".toList
  | .mariadb => "mariadb".toList
  | .mysql => "mysql".toList
  | .s3 => "s3".toList

def SourceKind.suffix : SourceKind → Str
  | .filesystem => ".tar.gz".toList
  | .env => ".json".toList
  | .postgres true => ".dump".toList
  | .postgres false => ".sql.gz".toList
  | .mariadb => ".sql.gz".toList
  | .mysql => ".sql.gz".toList
  | .s3 => ".tar.gz".toList

/-- what `produce` of a source comes to -/
inductive Work where
  /-- it raises before it opens its file -/
  | raises (e : PyExc)
  /-- it answers with an error before it touches its file -/
  | fails (error : Str)
  /-- it answers with an error, its file removed -/
  | drops (error : Str)
  /-- it raises while it writes `b` -/
  | breaks (b : FileData) (e : PyExc)
  | writes (b : FileData)
  /-- it downloads objects into a temporary directory `td` and bundles it -/
  | mirrors (bucket prefix_ : Str) (objects : Bucket) (td : Disk FileData → Str)

structure Builtin where
  kind : SourceKind
  /-- the name of its component -/
  name : Str
  enabled : PyVal
  bucket : PyVal
  metadata : List (PyText × PyVal)
  work : Work
  mirror : ∀ bucket prefix_ objects td, work = .mirrors bucket prefix_ objects td → kind = .s3
  noLink : ∀ t e, work ≠ .writes (.link t) ∧ work ≠ .breaks (.link t) e

namespace Builtin

/-- where the walk to its file starts, and the names -/
def out (s : Builtin) (staging : Path) : Path × List Str := at_ staging (s.name ++ s.kind.suffix)

def component (s : Builtin) (path : Output) (error : PyVal) : PyStaged where
  name := .text (lit s.name)
  kind := .text (lit s.kind.type)
  path := path
  metadata := .dict s.metadata
  error := error

/-- the one component it answers with -/
def answer (sc : PyStaged) : Except PyExc Returned := .ok { items := [.component sc] }

def failed (s : Builtin) (error : Str) : PyStaged := s.component .absent (.text (lit error))

def config (s : Builtin) (bucket prefix_ : Str) : S3SourceConfig := ⟨bucket, prefix_, s.name⟩

def run (h : Host) (staging : Path) (s : Builtin) (d : Disk FileData) :
    Disk FileData × Except PyExc Returned :=
  let out := s.out staging
  match s.work with
  | .raises e => (d, .error e)
  | .fails error => (d, answer (s.failed error))
  | .drops error => (unlinkAt d out, answer (s.failed error))
  | .breaks b e =>
    match d.write fits out.1 out.2 b with
    | none => (d, .error (h.exc (.unreadable out)))
    | some d => (d, .error e)
  | .writes b =>
    match d.write fits out.1 out.2 b with
    | none => (d, .error (h.exc (.unreadable out)))
    | some d => (d, answer (s.component (.file out) .none))
  | .mirrors bucket prefix_ objects td =>
    let (d, sc) := (s.config bucket prefix_).produce d staging (td d) objects
    match sc.error with
    | some error => (d, answer (s.failed error))
    | none => (d, answer (s.component (.file out) .none))

/-- the source as the engine sees it -/
def toRun (h : Host) (staging : Path) (s : Builtin) : SourceRun where
  type := s.kind.type
  enabled := s.enabled
  bucket := s.bucket
  name := .ok (.text (lit s.name))
  run := s.run h staging

/-- where the name of its file leads -/
def place (s : Builtin) (staging : Path) (d : Disk FileData) : Option Path :=
  d.walk fits (s.out staging).1 (s.out staging).2

end Builtin

/-- it opens its file, or removes it -/
def Work.touches : Work → Bool
  | .raises _ => false
  | .fails _ => false
  | _ => true

/-! ## changes at one place -/

/-- at most the file at `p` is another one, and it is no link -/
structure OnlyAt (p : Option Path) (d d' : Disk FileData) : Prop where
  same : ∀ q, p ≠ some q → d'.node q = d.node q
  dirs : ∀ q, d'.isDir q = d.isDir q
  closed : d'.Closed
  links : ∀ q t, d'.node q = some (.file (.link t)) → d.node q = some (.file (.link t))

theorem OnlyAt.refl {d : Disk FileData} (h : d.Closed) (p : Option Path) : OnlyAt p d d :=
  ⟨fun _ _ => rfl, fun _ => rfl, h, fun _ _ hn => hn⟩

theorem OnlyAt.trans {p : Option Path} {d d1 d2 : Disk FileData} (h : OnlyAt p d d1) (h' : OnlyAt p d1 d2) :
    OnlyAt p d d2 where
  same q hq := (h'.same q hq).trans (h.same q hq)
  dirs q := (h'.dirs q).trans (h.dirs q)
  closed := h'.closed
  links q t hn := h.links q t (h'.links q t hn)

theorem OnlyAt.of_change {d d' : Disk FileData} (hc : d.Closed) {p : Path}
    (hin : ∀ q s, p = q ++ [s] → d.isDir q = true) (hp : d.isDir p = false) (hp' : d'.isDir p = false)
    (hsame : ∀ q, q ≠ p → d'.node q = d.node q) (hlink : ∀ t, d'.node p ≠ some (.file (.link t))) :
    OnlyAt (some p) d d' := by
  obtain ⟨hclosed, hdirs⟩ := hc.change hin hp hp' hsame
  refine ⟨fun q hq => hsame q fun e => hq (by rw [e]), hdirs, hclosed, fun q t hn => ?_⟩
  by_cases hq : q = p
  · rw [hq] at hn
    exact absurd hn (hlink t)
  · rwa [hsame q hq] at hn

section
variable {d : Disk FileData} {p q : Path} {segs : List Str} {b : FileData}

/-- a file is written where a walk ends -/
theorem OnlyAt.put (hc : d.Closed) (hp : d.isDir p = true) (hw : d.walk fits p segs = some q)
    (hq : d.isDir q = false) (hb : ∀ t, b ≠ .link t) : OnlyAt (some q) d (d.put q (.file b)) := by
  refine OnlyAt.of_change hc (fun q' s he => hc.walk hp hw he) hq (isDir_put_self hq)
    (fun q' hne => node_put_ne hne) fun t hn => ?_
  rw [node_put_self (ne_nil_of_not_dir hq)] at hn
  exact hb t (Node.file.inj (Option.some.inj hn))

theorem OnlyAt.remove (hc : d.Closed) (hq : d.node q = some (.file b)) :
    OnlyAt (some q) d (d.remove q) := by
  have hdir : d.isDir q = false := by rw [isDir, hq]
  have hne := ne_nil_of_not_dir hdir
  refine OnlyAt.of_change hc (fun q' s he => hc q' s ?_) hdir (isDir_remove_self hne)
    (fun q' hq' => node_remove_file hc hdir hq') fun t hn => ?_
  · rw [← he, hq]
    simp
  · rw [node_remove_self hne] at hn
    cases hn

theorem OnlyAt.unlink (hc : d.Closed) (out : Path × List Str) :
    OnlyAt (d.walk fits out.1 out.2) d (unlinkAt d out) := by
  unfold unlinkAt
  cases hw : d.walk fits out.1 out.2 with
  | none => exact .refl hc _
  | some q =>
    simp only
    split
    · rename_i hf
      unfold isFile at hf
      split at hf
      · rename_i b hn
        exact .remove hc hn
      · cases hf
    · exact .refl hc _

theorem OnlyAt.of_same {d' : Disk FileData} (hc : d.Closed) (h : ∀ q, d'.node q = d.node q)
    (p : Option Path) : OnlyAt p d d' := by
  have hdirs : ∀ q, d'.isDir q = d.isDir q := fun q => by rw [isDir, isDir, h]
  refine ⟨fun q _ => h q, hdirs, fun q s hn => ?_, fun q t hn => (h q).symm.trans hn⟩
  rw [hdirs]
  rw [h] at hn
  exact hc q s hn

/-! ## the mirror of a bucket -/

/-- what is downloaded stays in the temporary directory -/
theorem downloads_outside {stage : Path} {objects : Bucket} {d' : Disk FileData}
    {r : Except Str (List S3Entry × List Str)} (hkeys : ∀ e ∈ objects, Within e.1)
    (h : downloads (stage ++ [objectsName]) d objects = (d', r)) : SameOutside stage d d' := by
  induction objects generalizing d d' r with
  | nil =>
    obtain ⟨rfl, -⟩ := Prod.mk.inj h
    exact fun q _ => rfl
  | cons e objects ih =>
    obtain ⟨key, o⟩ := e
    rw [List.forall_mem_cons] at hkeys
    obtain ⟨hw, hkeys⟩ := hkeys
    unfold downloads downloadOne at h
    rw [hw.at_ stage] at h
    simp only at h
    cases hsave : d.save fits (stage ++ start) (segs key) o.body with
    | none =>
      rw [hsave] at h
      obtain ⟨rfl, -⟩ := Prod.mk.inj h
      exact fun q _ => rfl
    | some d1 =>
      rw [hsave] at h
      have hin : ∀ q ∈ Files.places (stage ++ start) (segs key), stage <+: q := by
        intro q hq
        rcases mem_places.mp hq with ht | rfl
        · rw [hw.trail stage] at ht
          obtain ⟨r', -, rfl⟩ := List.mem_map.mp ht
          exact List.prefix_append _ _
        · rw [hw.reach stage]
          exact List.prefix_append _ _
      have hone := SameOutside.save hin hsave
      cases hcap : o.captured key with
      | error reason =>
        rw [hcap] at h
        obtain ⟨rfl, -⟩ := Prod.mk.inj h
        exact hone
      | ok eu =>
        rw [hcap] at h
        simp only at h
        cases hrest : downloads (stage ++ [objectsName]) d1 objects with
        | mk d2 r2 =>
          rw [hrest] at h
          have htwo := hone.trans (ih hkeys hrest)
          cases r2 with
          | error reason =>
            obtain ⟨rfl, -⟩ := Prod.mk.inj h
            exact htwo
          | ok es =>
            obtain ⟨rfl, -⟩ := Prod.mk.inj h
            exact htwo

theorem downloadAll_outside {stage : Path} {objects : Bucket} {d' : Disk FileData}
    {r : Except Str (List S3Entry × List Str)} (hkeys : ∀ e ∈ objects, Within e.1)
    (h : downloadAll stage d objects = (d', r)) : SameOutside stage d d' := by
  unfold downloadAll at h
  cases hmk : d.mkdirs fits stage [objectsName] with
  | none =>
    rw [hmk] at h
    obtain ⟨rfl, -⟩ := Prod.mk.inj h
    exact fun q _ => rfl
  | some d1 =>
    rw [hmk] at h
    have hin : ∀ q ∈ Files.places stage [objectsName], stage <+: q := by
      intro q hq
      obtain ⟨r', -, rfl⟩ := (mem_places_plain (by decide)).mp hq
      exact List.prefix_append _ _
    have hone := SameOutside.mkdirs hin hmk
    simp only at h
    cases hdown : downloads (stage ++ [objectsName]) d1 objects with
    | mk d2 r2 =>
      rw [hdown] at h
      have htwo := hone.trans (downloads_outside hkeys hdown)
      cases r2 with
      | error reason =>
        obtain ⟨rfl, -⟩ := Prod.mk.inj h
        exact htwo
      | ok es =>
        obtain ⟨rfl, -⟩ := Prod.mk.inj h
        exact htwo

/-- a temporary directory that the walk to the component's file does not come by -/
structure Temporary (cfg : S3SourceConfig) (dir : Path) (td : Str) (d : Disk FileData) : Prop where
  isDir : d.isDir dir = true
  fresh : d.node (dir ++ [td]) = none
  unnamed : td ∉ (cfg.out dir).2

section
variable {cfg : S3SourceConfig} {staging : Path} {td : Str}

theorem Temporary.not_below (h : Temporary cfg staging td d) {q : Path}
    (hq : q ∈ Files.places (cfg.out staging).1 (cfg.out staging).2) : ¬ staging ++ [td] <+: q := by
  refine outside_place ?_ h.unnamed hq
  show ¬ staging ++ [td] <+: (if _ then [] else staging)
  split
  · simp
  · intro hpre
    have hlen := hpre.length_le
    rw [List.length_append, List.length_singleton] at hlen
    omega

theorem Temporary.below (h : Temporary cfg staging td d) (hc : d.Closed) (r : Path) :
    d.node (staging ++ [td] ++ r) = none := by
  by_cases hr : r = []
  · rw [hr, List.append_nil]
    exact h.fresh
  · exact hc.below (by rw [Disk.isDir, h.fresh]) hr

/-- the walk to the component's file is the same in the midst of the mirroring -/
theorem Temporary.walk (h : Temporary cfg staging td d) {d' : Disk FileData}
    (hs : SameOutside (staging ++ [td]) d d') :
    d'.walk fits (cfg.out staging).1 (cfg.out staging).2 =
      d.walk fits (cfg.out staging).1 (cfg.out staging).2 :=
  walk_congr fun _ hq => hs.isDir (h.not_below (mem_places.mpr (Or.inl hq)))

/-- how the filling of the temporary directory ends -/
theorem fill_outside (h : Temporary cfg staging td d) {objects : Bucket} {d' : Disk FileData}
    {r : Except Str (List S3Entry × List Str)} (hkeys : ∀ e ∈ objects, Within e.1)
    (hf : cfg.fill staging (staging ++ [td]) (d.put (staging ++ [td]) .dir) objects = (d', r)) :
    (∃ reason, r = .error reason ∧ SameOutside (staging ++ [td]) d d') ∨
    ∃ d1 q l es, r = .ok es ∧ SameOutside (staging ++ [td]) d d1 ∧
      d.walk fits (cfg.out staging).1 (cfg.out staging).2 = some q ∧ d.isDir q = false ∧
      d' = d1.put q (.file (.targz l)) := by
  have hput : SameOutside (staging ++ [td]) d (d.put (staging ++ [td]) .dir) :=
    .put List.prefix_rfl _
  unfold S3SourceConfig.fill at hf
  cases hall : downloadAll (staging ++ [td]) (d.put (staging ++ [td]) .dir) objects with
  | mk d1 r1 =>
    have h1 := hput.trans (downloadAll_outside hkeys hall)
    rw [hall] at hf
    cases r1 with
    | error reason =>
      obtain ⟨rfl, rfl⟩ := Prod.mk.inj hf
      exact Or.inl ⟨reason, rfl, h1⟩
    | ok es =>
      obtain ⟨es, untagged⟩ := es
      simp only at hf
      split at hf
      · obtain ⟨rfl, rfl⟩ := Prod.mk.inj hf
        exact Or.inl ⟨_, rfl, h1⟩
      · rename_i d2 hmeta
        have hin : staging ++ [td] <+: reach (staging ++ [td]) [metadataName] := by
          rw [reach_plain (by decide)]
          exact List.prefix_append _ _
        have h2 := h1.trans (.write hin hmeta)
        split at hf
        · obtain ⟨rfl, rfl⟩ := Prod.mk.inj hf
          exact Or.inl ⟨_, rfl, h2⟩
        · rename_i d3 hout
          obtain ⟨rfl, rfl⟩ := Prod.mk.inj hf
          obtain ⟨hdirs, hfits, hnot, rfl⟩ := write_eq_some.mp hout
          have hw := walk_eq_some.mpr ⟨hdirs, hfits, rfl⟩
          rw [h.walk h2] at hw
          refine Or.inr ⟨d2, _, _, _, rfl, h2, hw, ?_, rfl⟩
          rw [← h2.isDir (h.not_below (mem_places.mpr (Or.inr rfl)))]
          exact hnot

/-- **The mirror changes its component's file only.** -/
theorem mirror_onlyAt (h : Temporary cfg staging td d) (hc : d.Closed) (hup : up ∉ staging) {objects : Bucket}
    {d' : Disk FileData} {sc : StagedComponent} (hkeys : ∀ e ∈ objects, Within e.1)
    (hp : cfg.produce d staging td objects = (d', sc)) :
    OnlyAt (d.walk fits (cfg.out staging).1 (cfg.out staging).2) d d' ∧
    (sc.error = none → ∃ q b, d.walk fits (cfg.out staging).1 (cfg.out staging).2 = some q ∧
      d.isDir q = false ∧ d'.node q = some (.file b) ∧ ∀ t, b ≠ .link t) := by
  -- without the temporary directory there is what there was
  have hgone : ∀ d1, SameOutside (staging ++ [td]) d d1 → ∀ q,
      (d1.remove (staging ++ [td])).node q = d.node q := by
    intro d1 hs q
    by_cases hq : q = []
    · rw [hq]
      rfl
    · rw [node_remove hq]
      split
      · rename_i hpre
        obtain ⟨r, rfl⟩ := hpre
        exact (h.below hc r).symm
      · rename_i hpre
        exact hs q hpre
  unfold S3SourceConfig.produce at hp
  cases hmk : d.mkdirs fits [] staging with
  | none =>
    rw [hmk] at hp
    obtain ⟨rfl, rfl⟩ := Prod.mk.inj hp
    exact ⟨.refl hc _, fun he => by cases he⟩
  | some d0 =>
    have hplaces : ∀ q ∈ Files.places [] staging, d.isDir q = true := by
      intro q hq
      obtain ⟨q', ⟨r, hr⟩, rfl⟩ := (mem_places_plain hup).mp hq
      exact hc.ancestor (r := r) (hr ▸ h.isDir)
    obtain rfl := mkdirs_same hmk hplaces
    have hbase : d0.isDir (cfg.out staging).1 = true := by
      show d0.isDir (if _ then [] else staging) = true
      split
      · exact isDir_nil d0
      · exact h.isDir
    rw [hmk] at hp
    simp only at hp
    cases hfill : cfg.fill staging (staging ++ [td]) (d0.put (staging ++ [td]) .dir) objects with
    | mk d1 r =>
      rw [hfill] at hp
      rcases fill_outside h hkeys hfill with
        ⟨reason, rfl, hs⟩ | ⟨d2, q, l, es, rfl, hs, hw, hnot, rfl⟩
      · obtain ⟨rfl, rfl⟩ := Prod.mk.inj hp
        have hsame := OnlyAt.of_same hc (hgone d1 hs) (d0.walk fits (cfg.out staging).1 (cfg.out staging).2)
        refine ⟨hsame.trans ?_, fun he => by cases he⟩
        have hunlink := OnlyAt.unlink hsame.closed (cfg.out staging)
        rwa [walk_congr fun q _ => hsame.dirs q] at hunlink
      · obtain ⟨rfl, rfl⟩ := Prod.mk.inj hp
        have hq : ¬ staging ++ [td] <+: q := by
          obtain ⟨-, -, rfl⟩ := walk_eq_some.mp hw
          exact h.not_below (mem_places.mpr (Or.inr rfl))
        have hnode : ((d2.put q (.file (.targz l))).remove (staging ++ [td])).node q =
            some (.file (.targz l)) := by
          rw [node_remove (ne_nil_of_not_dir hnot), if_neg hq, node_put_self (ne_nil_of_not_dir hnot)]
        rw [hw]
        refine ⟨OnlyAt.of_change hc (fun q' s he => hc.walk hbase hw he) hnot (by rw [Disk.isDir, hnode])
          (fun q' hne => ?_) fun t ht => ?_, fun _ => ⟨q, _, rfl, hnot, hnode, fun t ht => by cases ht⟩⟩
        · rw [← hgone d2 hs q']
          by_cases hnil : q' = []
          · rw [hnil]
            rfl
          · rw [node_remove hnil, node_remove hnil, node_put_ne hne]
        · rw [hnode] at ht
          cases ht

end

/-! ## one source -/

/-- no object of a mirrored bucket leaves the temporary directory -/
def Builtin.KeysStay (s : Builtin) : Prop :=
  ∀ bucket prefix_ objects td, s.work = .mirrors bucket prefix_ objects td → ∀ e ∈ objects, Within e.1

/-- a temporary directory is a new one, with a name that the configuration does not have -/
def Builtin.NewTemp (staging : Path) (s : Builtin) : Prop :=
  ∀ bucket prefix_ objects td, s.work = .mirrors bucket prefix_ objects td →
    ∀ d : Disk FileData, d.node (staging ++ [td d]) = none ∧ td d ∉ (s.out staging).2

/-- how a source may end -/
inductive Builtin.Ends (h : Host) (staging : Path) (s : Builtin) (d d' : Disk FileData) :
    Except PyExc Returned → Prop
  | raised (e : PyExc) : Ends h staging s d d' (.error e)
  | failed (error : Str) : Ends h staging s d d' (Builtin.answer (s.failed error))
  | staged (q : Path) (b : FileData) (htouch : s.work.touches = true)
      (hplace : s.place staging d = some q) (hdir : d.isDir q = false)
      (hnode : d'.node q = some (.file b)) (hb : ∀ t, b ≠ .link t) :
      Ends h staging s d d' (Builtin.answer (s.component (.file (s.out staging)) .none))

section
variable {h : Host} {staging : Path} {s : Builtin} {d' : Disk FileData}

theorem Builtin.isDir_out (hdir : d.isDir staging = true) : d.isDir (s.out staging).1 = true := by
  show d.isDir (if _ then [] else staging) = true
  split
  · exact isDir_nil d
  · exact hdir

/-- **What one source does** -/
theorem Builtin.run_spec (hc : d.Closed) (hdir : d.isDir staging = true) (hup : up ∉ staging)
    (hkeys : s.KeysStay) (htemp : s.NewTemp staging) {r : Except PyExc Returned} (hrun : s.run h staging d = (d', r)) :
    OnlyAt (s.place staging d) d d' ∧ (s.work.touches = false → d' = d) ∧ s.Ends h staging d d' r := by
  unfold Builtin.run at hrun
  cases hwork : s.work with
  | raises e =>
    rw [hwork] at hrun
    obtain ⟨rfl, rfl⟩ := Prod.mk.inj hrun
    exact ⟨.refl hc _, fun _ => rfl, .raised e⟩
  | fails error =>
    rw [hwork] at hrun
    obtain ⟨rfl, rfl⟩ := Prod.mk.inj hrun
    exact ⟨.refl hc _, fun _ => rfl, .failed error⟩
  | drops error =>
    rw [hwork] at hrun
    obtain ⟨rfl, rfl⟩ := Prod.mk.inj hrun
    exact ⟨.unlink hc _, fun he => (by cases he), .failed error⟩
  | breaks b e =>
    rw [hwork] at hrun
    simp only at hrun
    split at hrun
    · obtain ⟨rfl, rfl⟩ := Prod.mk.inj hrun
      exact ⟨.refl hc _, fun _ => rfl, .raised _⟩
    · rename_i d1 hw
      obtain ⟨rfl, rfl⟩ := Prod.mk.inj hrun
      obtain ⟨hdirs, hfits, hnot, rfl⟩ := write_eq_some.mp hw
      have hwalk := walk_eq_some.mpr ⟨hdirs, hfits, rfl⟩
      refine ⟨?_, fun he => (by cases he), .raised e⟩
      rw [show s.place staging d = _ from hwalk]
      exact .put hc (Builtin.isDir_out hdir) hwalk hnot fun t hb => (s.noLink t e).2 (hb ▸ hwork)
  | writes b =>
    rw [hwork] at hrun
    simp only at hrun
    split at hrun
    · obtain ⟨rfl, rfl⟩ := Prod.mk.inj hrun
      exact ⟨.refl hc _, fun _ => rfl, .raised _⟩
    · rename_i d1 hw
      obtain ⟨rfl, rfl⟩ := Prod.mk.inj hrun
      obtain ⟨hdirs, hfits, hnot, rfl⟩ := write_eq_some.mp hw
      have hwalk : s.place staging d = some _ := walk_eq_some.mpr ⟨hdirs, hfits, rfl⟩
      have hb : ∀ t, b ≠ .link t := fun t hb => (s.noLink t ⟨[], none, false⟩).1 (hb ▸ hwork)
      refine ⟨?_, fun he => (by cases he), .staged _ b (by rw [hwork]; rfl) hwalk hnot
        (node_put_self (ne_nil_of_not_dir hnot)) hb⟩
      rw [hwalk]
      exact .put hc (Builtin.isDir_out hdir) hwalk hnot hb
  | mirrors bucket prefix_ objects td =>
    rw [hwork] at hrun
    have hkeys := hkeys bucket prefix_ objects td hwork
    have htd := htemp bucket prefix_ objects td hwork
    have hout : (s.config bucket prefix_).out staging = s.out staging := by
      unfold Builtin.out
      rw [s.mirror _ _ _ _ hwork]
      rfl
    have hT : Temporary (s.config bucket prefix_) staging (td d) d :=
      ⟨hdir, (htd d).1, by rw [hout]; exact (htd d).2⟩
    simp only at hrun
    cases hp : (s.config bucket prefix_).produce d staging (td d) objects with
    | mk d1 sc =>
      obtain ⟨honly, hgood⟩ := mirror_onlyAt hT hc hup hkeys hp
      rw [hout] at honly hgood
      rw [hp] at hrun
      simp only at hrun
      split at hrun
      · obtain ⟨rfl, rfl⟩ := Prod.mk.inj hrun
        exact ⟨honly, fun he => (by cases he), .failed _⟩
      · rename_i herr
        obtain ⟨rfl, rfl⟩ := Prod.mk.inj hrun
        obtain ⟨q, b, hwalk, hnot, hnode, hb⟩ := hgood herr
        exact ⟨honly, fun he => (by cases he), .staged q b (by rw [hwork]; rfl) hwalk hnot hnode hb⟩

/-! ## the entries of a source that raised -/

theorem mem_iterdir {dir : Path} {names : List Str} (hn : iterdir d dir = some names) {n : Str} :
    n ∈ names ↔ d.node (dir ++ [n]) ≠ none := by
  unfold iterdir at hn
  split at hn
  · rw [← Option.some.inj hn, List.mem_filterMap]
    constructor
    · rintro ⟨⟨r, nd⟩, hm, he⟩
      obtain ⟨-, hnode⟩ := mem_below.mp hm
      simp only at he
      split at he
      · obtain rfl := Option.some.inj he
        rw [hnode]
        simp
      · cases he
    · intro hne
      obtain ⟨nd, hnode⟩ := Option.ne_none_iff_exists'.mp hne
      exact ⟨([n], nd), mem_below.mpr ⟨by simp, hnode⟩, rfl⟩
  · cases hn

theorem removeEntry_onlyAt (hc : d.Closed) {dir : Path} {n : Str} (hdir : d.isDir dir = true)
    (hn : d.isDir (dir ++ [n]) = false) (hrem : removeEntry h d (dir ++ [n]) = some d') :
    OnlyAt (some (dir ++ [n])) d d' := by
  have hremove : OnlyAt (some (dir ++ [n])) d (d.remove (dir ++ [n])) := by
    have hne := ne_nil_of_not_dir hn
    refine OnlyAt.of_change hc (fun q s he => ?_) hn (isDir_remove_self hne)
      (fun q hq => node_remove_file hc hn hq) fun t ht => ?_
    · obtain ⟨rfl, -⟩ := List.append_inj' he rfl
      exact hdir
    · rw [node_remove_self hne] at ht
      cases ht
  unfold removeEntry at hrem
  split at hrem
  · rw [hn] at hrem
    split at hrem
    · obtain rfl := Option.some.inj hrem
      exact .refl hc _
    · split at hrem
      · obtain rfl := Option.some.inj hrem
        exact hremove
      · cases hrem
  · split at hrem
    · obtain rfl := Option.some.inj hrem
      exact hremove
    · cases hrem

theorem removeEntries_onlyAt {dir : Path} {p : Option Path} {names : List Str} (hc : d.Closed)
    (hdir : d.isDir dir = true)
    (hn : ∀ n ∈ names, p = some (dir ++ [n]) ∧ d.isDir (dir ++ [n]) = false)
    (hrem : removeEntries h dir names d = some d') : OnlyAt p d d' := by
  induction names generalizing d with
  | nil =>
    obtain rfl := Option.some.inj hrem
    exact .refl hc _
  | cons n names ih =>
    rw [List.forall_mem_cons] at hn
    obtain ⟨d1, h1, hrest⟩ := Option.bind_eq_some_iff.mp hrem
    have hone := removeEntry_onlyAt hc hdir hn.1.2 h1
    rw [← hn.1.1] at hone
    refine hone.trans (ih hone.closed ?_ (fun m hm => ⟨(hn.2 m hm).1, ?_⟩) hrest)
    · rw [hone.dirs]
      exact hdir
    · rw [hone.dirs]
      exact (hn.2 m hm).2

/-- what a source that raised left behind is at its place -/
theorem removeNewEntries_onlyAt {dir : Path} {p : Option Path} {before : List Str} {d1 : Disk FileData}
    (hdir : d.isDir dir = true) (hbefore : iterdir d dir = some before) (honly : OnlyAt p d d1)
    (hrem : removeNewEntries h d1 dir before = some d') : OnlyAt p d d' := by
  obtain ⟨names, hnames, hrest⟩ := Option.bind_eq_some_iff.mp hrem
  refine honly.trans (removeEntries_onlyAt honly.closed (by rw [honly.dirs]; exact hdir) ?_ hrest)
  intro n hn
  obtain ⟨hmem, hnew⟩ := List.mem_filter.mp hn
  have hgone : d.node (dir ++ [n]) = none := by
    by_contra hne
    exact (of_decide_eq_true hnew) ((mem_iterdir hbefore).mpr hne)
  constructor
  · by_contra hp
    have hsame := honly.same _ hp
    rw [hgone] at hsame
    exact (mem_iterdir hnames).mp hmem hsame
  · rw [honly.dirs, Disk.isDir, hgone]

theorem removeNewEntries_self {dir : Path} {before : List Str} (hbefore : iterdir d dir = some before)
    (hrem : removeNewEntries h d dir before = some d') : d' = d := by
  unfold removeNewEntries at hrem
  rw [hbefore] at hrem
  have hnil : before.filter (· ∉ before) = [] := by simp
  rw [Option.bind_some, hnil] at hrem
  exact (Option.some.inj hrem).symm

/-! ## the step of the engine -/

/-- what is recorded for a file that was staged: its size and its hash -/
def PyComponent.Holds (c : PyComponent) (h : Host) (b : FileData) : Prop :=
  c.size = (h.render b).length ∧ c.sha256 = h.sha256 (h.render b)

/-- a component without error holds what is at the source's place -/
def Builtin.Stages (h : Host) (staging : Path) (s : Builtin) (d d' : Disk FileData) (c : PyComponent) :
    Prop :=
  c.error = none → s.work.touches = true ∧ ∃ q b, s.place staging d = some q ∧ d.isDir q = false ∧
    d'.node q = some (.file b) ∧ (∀ t, b ≠ .link t) ∧ c.Holds h b

/-- a file that is no link is read where it is -/
theorem load_place (hfits : h.fits = fits) {q : Path} {b : FileData} {b' : Bytes}
    (hplace : d.walk fits (s.out staging).1 (s.out staging).2 = some q) (hnode : d.node q = some (.file b))
    (hb : ∀ t, b ≠ .link t) (hload : load h d (s.out staging) = .ok b') : b' = h.render b := by
  have hres : resolve h d (s.out staging) = some (q, b) := by
    unfold resolve follow
    rw [hfits, hplace]
    simp only [hnode]
    cases b with
    | link t => exact absurd rfl (hb t)
    | bytes _ => simp only [hnode]
    | s3 _ => simp only [hnode]
    | env _ => simp only [hnode]
    | manifest _ => simp only [hnode]
    | targz _ => simp only [hnode]
  unfold load at hload
  rw [hres] at hload
  simp only at hload
  split at hload
  · exact (Except.ok.inj hload).symm
  · cases hload

theorem recordItems_one {item : Item} {cs : List PyComponent}
    (hr : (recordItems h d none [item]).1 = .ok cs) : (recordItem h d item).1 = .ok cs := by
  unfold recordItems at hr
  cases hone : recordItem h d item with
  | mk r errors =>
    rw [hone] at hr
    cases r with
    | error e => cases hr
    | ok cs' =>
      have hcs : cs' ++ [] = cs := Except.ok.inj hr
      rw [← hcs, List.append_nil]

/-- an answer with an error is recorded with one -/
theorem record_failed {error : Str} {cs : List PyComponent}
    (hr : (recordItem h d (.component (s.failed error))).1 = .ok cs) : ∃ c, cs = [c] ∧ c.error ≠ none := by
  have hfail : ∃ t, failure h (s.failed error) = .ok (some t) := by
    unfold failure
    split
    · exact ⟨_, rfl⟩
    · exact ⟨noOutput, rfl⟩
  obtain ⟨t, ht⟩ := hfail
  have hr' : (recordComponent h d (s.failed error)).1 = .ok cs := hr
  unfold recordComponent at hr'
  rw [ht] at hr'
  exact ⟨_, (Except.ok.inj hr').symm, by simp⟩

theorem record_raised {e : PyExc} {type : Str} {name : PyText} {cs : List PyComponent}
    (hr : (recordRaised h type (.text name) e).1 = .ok cs) : ∃ c, cs = [c] ∧ c.error ≠ none := by
  unfold recordRaised at hr
  split at hr
  · cases hr
  · exact ⟨_, (Except.ok.inj hr).symm, by simp⟩

/-- a file without an error is recorded as it is -/
theorem record_staged {cs : List PyComponent} {P : Bytes → Prop}
    (hload : ∀ b, load h d (s.out staging) = .ok b → P b)
    (hr : (recordItem h d (.component (s.component (.file (s.out staging)) .none))).1 = .ok cs) :
    ∃ c b, cs = [c] ∧ P b ∧ c.size = b.length ∧ c.sha256 = h.sha256 b := by
  have hrec : (recordComponent h d (s.component (.file (s.out staging)) .none)).1 = .ok cs := hr
  clear hr
  rename' hrec => hr
  unfold recordComponent at hr
  have hfail : failure h (s.component (.file (s.out staging)) .none) = .ok none := rfl
  rw [hfail] at hr
  simp only at hr
  have hfile : outputFile h d (s.component (.file (s.out staging)) .none).path = load h d (s.out staging) :=
    rfl
  rw [hfile] at hr
  cases hl : load h d (s.out staging) with
  | error e =>
    rw [hl] at hr
    cases hr
  | ok b =>
    rw [hl] at hr
    simp only at hr
    split at hr
    · cases hr
    · rename_i c hbuild
      have hc : c = _ := (Except.ok.inj hbuild).symm
      split at hr
      · cases hr
      · refine ⟨c, b, (Except.ok.inj hr).symm, hload b hl, ?_, ?_⟩
        · rw [hc]
        · rw [hc]

/-- **One source on the staging directory**: nothing changes but the file at its place, and what is
recorded without error is what is there. -/
theorem stage_onlyAt (hfits : h.fits = fits) (hc : d.Closed) (hdir : d.isDir staging = true)
    (hup : up ∉ staging) (hkeys : s.KeysStay) (htemp : s.NewTemp staging) {r : Recorded}
    (hst : stage h staging (s.toRun h staging) d = (d', r)) :
    OnlyAt (s.place staging d) d d' ∧ (s.work.touches = false → d' = d) ∧
      ∀ cs, r.1 = .ok cs → ∃ c, cs = [c] ∧ s.Stages h staging d d' c := by
  unfold stage at hst
  cases hbefore : iterdir d staging with
  | none =>
    rw [hbefore] at hst
    obtain ⟨rfl, rfl⟩ := Prod.mk.inj hst
    exact ⟨.refl hc _, fun _ => rfl, fun cs hcs => by cases hcs⟩
  | some before =>
    rw [hbefore] at hst
    simp only at hst
    cases hrun : s.run h staging d with
    | mk d1 res =>
      obtain ⟨honly, hself, hends⟩ := Builtin.run_spec hc hdir hup hkeys htemp hrun
      have hrun' : (s.toRun h staging).run d = (d1, res) := hrun
      rw [hrun'] at hst
      cases hends with
      | raised e =>
        simp only at hst
        cases hrec : handleRaised h (s.toRun h staging) e with
        | mk r1 errors =>
          rw [hrec] at hst
          cases r1 with
          | error e' =>
            obtain ⟨rfl, rfl⟩ := Prod.mk.inj hst
            exact ⟨honly, hself, fun cs hcs => by cases hcs⟩
          | ok cs =>
            obtain ⟨-, name, hask, hok⟩ := handleRaised_ok h hrec
            obtain rfl := Except.ok.inj hask
            obtain ⟨c, rfl, herr⟩ := record_raised (congrArg Prod.fst hok)
            simp only at hst
            split at hst
            · obtain ⟨rfl, rfl⟩ := Prod.mk.inj hst
              exact ⟨honly, hself, fun cs hcs => by cases hcs⟩
            · rename_i d2 hrem
              obtain ⟨rfl, rfl⟩ := Prod.mk.inj hst
              refine ⟨removeNewEntries_onlyAt hdir hbefore honly hrem, fun hno => ?_, fun cs hcs => ?_⟩
              · rw [hself hno] at hrem
                exact removeNewEntries_self hbefore hrem
              · exact ⟨c, (Except.ok.inj hcs).symm, fun hnone => absurd hnone herr⟩
      | failed error =>
        obtain ⟨rfl, rfl⟩ := Prod.mk.inj hst
        refine ⟨honly, hself, fun cs hcs => ?_⟩
        obtain ⟨c, rfl, herr⟩ := record_failed (recordItems_one hcs)
        exact ⟨c, rfl, fun hnone => absurd hnone herr⟩
      | staged q b htouch hplace hnot hnode hb =>
        obtain ⟨rfl, rfl⟩ := Prod.mk.inj hst
        refine ⟨honly, hself, fun cs hcs => ?_⟩
        have hplace' : d1.walk fits (s.out staging).1 (s.out staging).2 = some q := by
          rw [walk_congr fun q _ => honly.dirs q]
          exact hplace
        obtain ⟨c, b', rfl, rfl, hsize, hsha⟩ := record_staged (P := (· = h.render b))
          (fun b' hl => load_place hfits hplace' hnode hb hl) (recordItems_one hcs)
        exact ⟨c, rfl, fun _ => ⟨htouch, q, b, hplace, hnot, hnode, hb, hsize, hsha⟩⟩

end

end

end BackupHelper
