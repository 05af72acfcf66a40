import BackupHelper.Sources.S3Mirror

/-!
# The round trip of an S3 bucket

The stage is filled (`Filled`), its bundle holds exactly what is there (`Filled.tree`), and what is
extracted from it is read back key by key (`read_key`).

* `Ready`, `RoundTrips`       the claim: where produce starts, and what it and restore come to;
* `Mirrorable`                the condition on keys and bodies;
* `mirror_round_trips_iff`    a bucket makes the round trip exactly if it is mirrorable.
-/

namespace BackupHelper
open Text Files Disk

/-! ## the statement -/

/-- the component's file -/
def S3SourceConfig.file (cfg : S3SourceConfig) : Str := cfg.name ++ ".tar.gz".toList

/-- the name is one the file system takes as it stands -/
def OneFile (cfg : S3SourceConfig) : Prop := free '/' cfg.name ∧ fits cfg.file = true

/-- a disk on which the temporary directory `td` is new; `d0` is the disk once `staging` is there -/
structure Ready (cfg : S3SourceConfig) (d d0 : Disk FileData) (staging : Path) (td : Str) : Prop where
  made : d.mkdirs fits [] staging = some d0
  plain : up ∉ staging
  temp : td ≠ up ∧ td ≠ cfg.file
  fresh : ∀ r, d0.node (staging ++ td :: r) = none
  out : d0.isDir (staging ++ [cfg.file]) = false

/-- every key is put once, with its own body -/
structure Restored (B : Bucket) (puts : List Put) : Prop where
  keys : puts.map (·.key) = sorted (B.map (·.1))
  bodies : ∀ p ∈ puts, ∃ o, (p.key, o) ∈ B ∧ p.body = o.body

/-- into any bare directory the members are extracted, and restored from there -/
def RestoredFrom (B : Bucket) (members : List (Member FileData)) : Prop :=
  ∀ d dest d0, up ∉ dest → d.mkdirs fits [] dest = some d0 → Bare d0 dest →
    ∃ d' puts, extractBundle fits keepAll d dest members = some d' ∧
      restoreObjects d' dest = some puts ∧ Restored B puts

/-- the component is produced without an error, and nothing outside `staging` was touched -/
structure Mirrored (cfg : S3SourceConfig) (B : Bucket) (d0 : Disk FileData) (staging : Path) (td : Str)
    (d : Disk FileData) (members : List (Member FileData)) : Prop where
  ok : (cfg.produce d staging td B).2.error = none
  out : (cfg.produce d staging td B).1.read fits (cfg.out staging).1 (cfg.out staging).2 =
    some (.targz members)
  outside : ∀ q, ¬ staging <+: q → (cfg.produce d staging td B).1.node q = d0.node q

def RoundTrips (cfg : S3SourceConfig) (B : Bucket) : Prop :=
  ∀ d d0 staging td, Ready cfg d d0 staging td →
    ∃ members, Mirrored cfg B d0 staging td d members ∧ RestoredFrom B members

/-- what the store lists: distinct keys that S3 allows, tags that are answered or refused -/
structure Listed (B : Bucket) : Prop where
  keys : ∀ e ∈ B, e.1 ≠ [] ∧ (e.1.map (·.utf8Size)).sum ≤ 1024
  nodup : (B.map (·.1)).Nodup
  tags : ∀ e ∈ B, ∀ reason, e.2.tagging ≠ .failed reason

/-- the content of `metadata.json` -/
def S3SourceConfig.index (cfg : S3SourceConfig) (B : Bucket) : FileData :=
  .s3 (cfg.manifest (byKey (entries B)))

/-- what the keys and bodies of a bucket have to be -/
structure Mirrorable (cfg : S3SourceConfig) (B : Bucket) : Prop extends Placed B where
  index : ∀ e ∈ B, [metadataName] ∉ dirsOf e.1 ∧
    (fileOf e.1 = [metadataName] → e.2.body = cfg.index B)
  same : ∀ e ∈ B, ∀ e' ∈ B, fileOf e.1 = fileOf e'.1 → e.2.body = e'.2.body
  safe : ∀ e ∈ B, ∀ r, r ∈ dirsOf e.1 ∨ r = fileOf e.1 → r ≠ [] → isSafeMember (posix r) = true

/-! ## the stage once it is filled -/

structure Filled (cfg : S3SourceConfig) (stage : Path) (d0 d : Disk FileData) (B : Bucket) : Prop where
  dirs : ∀ r, d.node (stage ++ r) = some .dir ↔ PutsDirs B r
  index : d.node (stage ++ [metadataName]) = some (.file (cfg.index B))
  files : ∀ r b, r ≠ [metadataName] →
    (d.node (stage ++ r) = some (.file b) ↔ lastBody B.reverse r = some b)
  others : ∀ q, ¬ stage <+: q → d.node q = d0.node q

section
variable {cfg : S3SourceConfig} {B : Bucket} {d d0 : Disk FileData} {staging stage : Path} {td : Str}

theorem OneFile.out (h : OneFile cfg) (staging : Path) : cfg.out staging = (staging, [cfg.file]) := by
  have hfree : free '/' cfg.file := by
    unfold free S3SourceConfig.file
    rw [List.mem_append, not_or]
    exact ⟨h.1, by decide⟩
  have hlen : 7 ≤ cfg.file.length := by simp [S3SourceConfig.file]
  have hne : cfg.file ≠ [] := by
    intro e
    rw [e] at hlen
    simp at hlen
  have hdot : cfg.file ≠ ['.'] := by
    intro e
    rw [e] at hlen
    simp at hlen
  have habs : ¬ ['/'] <+: cfg.file := by
    rintro ⟨t, ht⟩
    exact hfree (by rw [← ht]; simp)
  unfold S3SourceConfig.out
  rw [show cfg.name ++ ".tar.gz".toList = cfg.file from rfl, at_relative habs, parts,
    pieces_free hfree]
  simp [hne, hdot]

theorem file_ne_up (cfg : S3SourceConfig) : cfg.file ≠ up := by
  intro e
  have hlen : cfg.file.length = 2 := by rw [e]; rfl
  simp [S3SourceConfig.file] at hlen

theorem Ready.isDir (h : Ready cfg d d0 staging td) : d0.isDir staging = true := by
  have hdirs := (mkdirs_spec h.made).2.1
  have hmem := mem_places.mpr (Or.inr (reach_plain (p := []) h.plain).symm)
  exact hdirs _ (by simpa using hmem)

theorem Ready.stage_fresh (h : Ready cfg d d0 staging td) (r : Path) :
    d0.node (staging ++ [td] ++ r) = none := by
  rw [List.append_assoc]
  exact h.fresh r

theorem ne_of_outside {p q : Path} (h : ¬ p <+: q) (r : Path) : q ≠ p ++ r := by
  rintro rfl
  exact h (List.prefix_append p r)

/-- the stage with its empty `objects` -/
def opened (d0 : Disk FileData) (stage : Path) : Disk FileData :=
  (d0.put stage .dir).put (stage ++ start) .dir

theorem mkdirs_opened (d0 : Disk FileData) {stage : Path} (hstage : stage ≠ [])
    (hfresh : ∀ r, d0.node (stage ++ r) = none) :
    (d0.put stage .dir).mkdirs fits stage [objectsName] = some (opened d0 stage) := by
  have hdir : (d0.put stage .dir).isDir stage = true := isDir_iff.mpr (node_put_self hstage)
  have hstep : step stage objectsName = stage ++ start := rfl
  have hne : stage ++ start ≠ stage := by simp [start]
  have hnode : (d0.put stage .dir).node (stage ++ start) = none := by
    rw [node_put_ne hne]
    exact hfresh start
  have hdir' : (opened d0 stage).isDir (stage ++ start) = true :=
    isDir_iff.mpr (node_put_self (by simp [start]))
  have hfits : fits objectsName = true := by decide
  unfold Disk.mkdirs
  simp only [hdir, hfits, and_self, if_true, hstep, hnode]
  unfold Disk.mkdirs
  exact if_pos hdir'

theorem holds_opened {stage : Path} (hstage : stage ≠ [])
    (hfresh : ∀ r, d0.node (stage ++ r) = none) : Downloaded stage d0 (opened d0 stage) [] := by
  have hnode : ∀ r, (opened d0 stage).node (stage ++ r) =
      if r = [] ∨ r = start then some .dir else none := by
    intro r
    unfold opened
    by_cases hr : r = start
    · rw [hr, node_put_self (by simp [start])]
      simp
    · rw [node_put_ne fun e => hr (List.append_cancel_left e)]
      by_cases hr' : r = []
      · rw [hr', List.append_nil, node_put_self hstage]
        simp
      · rw [node_put_ne (by simpa using hr'), hfresh]
        simp [hr, hr']
  constructor
  · intro r
    rw [hnode]
    simp only [PutsDirs, List.not_mem_nil, false_and, exists_false, or_false]
    by_cases h : r = [] ∨ r = start <;> simp [h]
  · intro r b
    rw [hnode]
    by_cases h : r = [] ∨ r = start <;> simp [h, lastBody]
  · intro q hq
    unfold opened
    have hne := ne_of_outside hq []
    rw [List.append_nil] at hne
    rw [node_put_ne (ne_of_outside hq start), node_put_ne hne]

theorem write_one {d' : Disk FileData} {p : Path} {s : Str} {b : FileData} (hs : s ≠ up)
    (h : d.write fits p [s] b = some d') :
    d.isDir (p ++ [s]) = false ∧ d' = d.put (p ++ [s]) (.file b) := by
  obtain ⟨-, -, hnot, he⟩ := write_eq_some.mp h
  simp only [reach_cons, reach_nil, step, if_neg hs] at hnot he
  exact ⟨hnot, he⟩

theorem exists_write_one {p : Path} {s : Str} {b : FileData} (hp : d.isDir p = true) (hs : s ≠ up)
    (hfits : fits s = true) (hnot : d.isDir (p ++ [s]) = false) :
    d.write fits p [s] b = some (d.put (p ++ [s]) (.file b)) := by
  refine write_eq_some.mpr ⟨?_, ?_, ?_, ?_⟩
  · simpa [trail] using hp
  · simpa using hfits
  · simpa [step, hs] using hnot
  · simp [step, hs]

/-- the disk once the listing is written -/
def listed (cfg : S3SourceConfig) (stage : Path) (d : Disk FileData) (es : List S3Entry) :
    Disk FileData :=
  d.put (stage ++ [metadataName]) (.file (.s3 (cfg.manifest (byKey es))))

/-- the listing is written beside what the objects put there -/
theorem Downloaded.filled {L : Bucket} (h : Downloaded stage d0 d L) (hL : L = B.reverse)
    (hindex : d.isDir (stage ++ [metadataName]) = false) :
    Filled cfg stage d0 (listed cfg stage d (entries B)) B := by
  subst hL
  unfold listed
  have hne : stage ++ [metadataName] ≠ [] := by simp
  have hputs : ∀ r, PutsDirs B.reverse r ↔ PutsDirs B r := by
    intro r
    simp only [PutsDirs, List.mem_reverse]
  constructor
  · intro r
    by_cases hr : r = [metadataName]
    · subst hr
      rw [node_put_self hne, ← hputs, ← h.dirs, ← isDir_iff, hindex]
      simp
    · rw [node_put_ne fun e => hr (List.append_cancel_left e), h.dirs, hputs]
  · exact node_put_self hne
  · intro r b hr
    rw [node_put_ne fun e => hr (List.append_cancel_left e), h.files]
  · intro q hq
    rw [node_put_ne (ne_of_outside hq _), h.others q hq]

/-- the disk once the stage is bundled -/
def packed (cfg : S3SourceConfig) (staging stage : Path) (d : Disk FileData) : Disk FileData :=
  d.put (staging ++ [cfg.file]) (.file (.targz (createBundle d stage)))

/-- what a successful fill of the stage comes to, whatever the keys are -/
theorem fill_cases {d' : Disk FileData} {objects : List S3Entry} {untagged : List Str}
    (hcfg : OneFile cfg) (hstage : stage ≠ []) (hfresh : ∀ r, d0.node (stage ++ r) = none)
    (h : cfg.fill staging stage (d0.put stage .dir) B = (d', .ok (objects, untagged))) :
    ∃ d1 es codes, downloads (stage ++ [objectsName]) (opened d0 stage) B = (d1, .ok (es, codes)) ∧
      d1.isDir (stage ++ [metadataName]) = false ∧
      d' = packed cfg staging stage (listed cfg stage d1 es) := by
  unfold S3SourceConfig.fill downloadAll at h
  rw [mkdirs_opened d0 hstage hfresh] at h
  simp only at h
  cases hd : downloads (stage ++ [objectsName]) (opened d0 stage) B with
  | mk d1 res =>
    cases res with
    | error reason => simp [hd] at h
    | ok r =>
      obtain ⟨es, codes⟩ := r
      simp only [hd] at h
      split at h
      · simp at h
      · rename_i d2 hwrite
        obtain ⟨hnot, rfl⟩ := write_one (by decide) hwrite
        rw [hcfg.out] at h
        split at h
        · simp at h
        · rename_i d3 hout
          obtain ⟨-, rfl⟩ := write_one (file_ne_up cfg) hout
          obtain ⟨rfl, -⟩ := Prod.mk.inj h
          exact ⟨d1, es, codes, rfl, hnot, rfl⟩

/-- the same for keys that stay inside: what the stage then holds -/
theorem filled_of_downloads (cfg : S3SourceConfig) {d1 : Disk FileData} {es : List S3Entry} {codes : List Str}
    (hw : ∀ e ∈ B, Within e.1) (hstage : stage ≠ []) (hfresh : ∀ r, d0.node (stage ++ r) = none)
    (hd : downloads (stage ++ [objectsName]) (opened d0 stage) B = (d1, .ok (es, codes)))
    (hindex : d1.isDir (stage ++ [metadataName]) = false) :
    Filled cfg stage d0 (listed cfg stage d1 es) B ∧ ¬ PutsDirs B [metadataName] ∧
      ∀ e ∈ B, ∀ s ∈ segs e.1, fits s = true := by
  obtain ⟨hh, rfl, hfits⟩ := (holds_opened hstage hfresh).downloads hw hd
  rw [List.append_nil] at hh
  refine ⟨hh.filled rfl hindex, fun hp => ?_, hfits⟩
  have hdir := (hh.dirs [metadataName]).mpr (by simpa only [PutsDirs, List.mem_reverse] using hp)
  rw [isDir_iff.mpr hdir] at hindex
  simp at hindex

theorem Ready.not_below : ¬ staging ++ [td] <+: staging := by
  intro h
  have hlen := h.length_le
  rw [List.length_append, List.length_singleton] at hlen
  omega

theorem exists_fill (hcfg : OneFile cfg) (hR : Ready cfg d d0 staging td) (hB : Placed B)
    (hindex : ¬ PutsDirs B [metadataName])
    (htags : ∀ e ∈ B, ∀ reason, e.2.tagging ≠ .failed reason) :
    ∃ d' objects untagged, cfg.fill staging (staging ++ [td]) (d0.put (staging ++ [td]) .dir) B =
      (d', .ok (objects, untagged)) := by
  have hstage : staging ++ [td] ≠ [] := by simp
  have hfresh := hR.stage_fresh
  obtain ⟨d1, es, codes, hd⟩ := hB.exists_downloads (holds_opened hstage hfresh) (by simp)
    (fun e he => he) htags
  obtain ⟨hh, rfl, -⟩ := (holds_opened hstage hfresh).downloads hB.within hd
  rw [List.append_nil] at hh
  have hnot : d1.isDir (staging ++ [td] ++ [metadataName]) = false := by
    by_contra hdir
    have hp := (hh.dirs [metadataName]).mp (isDir_iff.mp (by simpa using hdir))
    exact hindex (by simpa only [PutsDirs, List.mem_reverse] using hp)
  have hF : Filled cfg (staging ++ [td]) d0 (listed cfg (staging ++ [td]) d1 (entries B)) B :=
    hh.filled rfl hnot
  have hdir : d1.isDir (staging ++ [td]) = true := by
    have hn := (hh.dirs []).mpr (Or.inl rfl)
    rw [List.append_nil] at hn
    exact isDir_iff.mpr hn
  have hwrite : d1.write fits (staging ++ [td]) [metadataName] (cfg.index B) =
      some (listed cfg (staging ++ [td]) d1 (entries B)) :=
    exists_write_one hdir (by decide) (by decide) hnot
  have hstaging : (listed cfg (staging ++ [td]) d1 (entries B)).isDir staging = true := by
    rw [isDir_iff, hF.others _ Ready.not_below, ← isDir_iff]
    exact hR.isDir
  have hout : (listed cfg (staging ++ [td]) d1 (entries B)).isDir (staging ++ [cfg.file]) = false := by
    have hn : ¬ staging ++ [td] <+: staging ++ [cfg.file] := by
      rw [List.prefix_append_right_inj, List.cons_prefix_cons]
      exact fun h => hR.temp.2 h.1
    by_contra hdir
    have hd0 : (listed cfg (staging ++ [td]) d1 (entries B)).isDir (staging ++ [cfg.file]) = true := by
      simpa using hdir
    rw [isDir_iff, hF.others _ hn, ← isDir_iff, hR.out] at hd0
    simp at hd0
  have hpack : (listed cfg (staging ++ [td]) d1 (entries B)).write fits staging [cfg.file]
      (.targz (createBundle (listed cfg (staging ++ [td]) d1 (entries B)) (staging ++ [td]))) =
      some (packed cfg staging (staging ++ [td]) (listed cfg (staging ++ [td]) d1 (entries B))) :=
    exists_write_one hstaging (file_ne_up cfg) hcfg.2 hout
  refine ⟨packed cfg staging (staging ++ [td]) (listed cfg (staging ++ [td]) d1 (entries B)),
    byKey (entries B), codes, ?_⟩
  unfold S3SourceConfig.fill downloadAll
  rw [mkdirs_opened d0 hstage hfresh]
  simp only [hd]
  rw [show FileData.s3 (cfg.manifest (byKey (entries B))) = cfg.index B from rfl, hwrite, hcfg.out]
  simp only
  rw [hpack]

/-! ## the component -/

/-- after a successful fill, only the component's file is left in `staging` -/
theorem mirrored_of_fill {d' : Disk FileData} {objects : List S3Entry} {untagged : List Str}
    (hcfg : OneFile cfg) (hR : Ready cfg d d0 staging td) {d2 : Disk FileData}
    (hfill : cfg.fill staging (staging ++ [td]) (d0.put (staging ++ [td]) .dir) B =
      (d', .ok (objects, untagged)))
    (hd' : d' = packed cfg staging (staging ++ [td]) d2)
    (hothers : ∀ q, ¬ staging ++ [td] <+: q → d2.node q = d0.node q) :
    Mirrored cfg B d0 staging td d (createBundle d2 (staging ++ [td])) := by
  have hprod : cfg.produce d staging td B = (d'.remove (staging ++ [td]),
      cfg.component (some (cfg.out staging))
        (if untagged = [] then [] else [untaggedWarning untagged objects.length]) none) := by
    unfold S3SourceConfig.produce
    rw [hR.made]
    simp only
    rw [hfill]
  have hnode : ∀ q, q ≠ staging ++ [cfg.file] → ¬ staging ++ [td] <+: q →
      (d'.remove (staging ++ [td])).node q = d0.node q := by
    intro q hne hq
    by_cases hnil : q = []
    · subst hnil
      rfl
    · rw [node_remove hnil, if_neg hq, hd', packed, node_put_ne hne, hothers q hq]
  constructor
  · rw [hprod]
    rfl
  · rw [hprod, hcfg.out]
    refine read_eq_some.mpr ⟨?_, ?_, ?_⟩
    · intro q hq
      have hqs : q = staging := by simpa [trail] using hq
      subst hqs
      rw [isDir_iff, hnode q (by simp) Ready.not_below, ← isDir_iff]
      exact hR.isDir
    · simpa using hcfg.2
    · have hreach : reach staging [cfg.file] = staging ++ [cfg.file] := by
        simp [step, file_ne_up]
      have hn : ¬ staging ++ [td] <+: staging ++ [cfg.file] := by
        rw [List.prefix_append_right_inj, List.cons_prefix_cons]
        exact fun h => hR.temp.2 h.1
      rw [hreach, node_remove (by simp), if_neg hn, hd', packed, node_put_self (by simp)]
  · intro q hq
    rw [hprod]
    exact hnode q (ne_of_outside hq _) fun h => hq ((List.prefix_append _ _).trans h)

/-! ## what the bundle holds -/

theorem PutsDirs.above {q r : Path} (h : PutsDirs B r) (hq : q <+: r) : PutsDirs B q := by
  by_cases hne : q = r
  · exact hne ▸ h
  · rcases h with rfl | rfl | ⟨e, he, hr⟩
    · exact absurd (List.prefix_nil.mp hq) hne
    · rcases List.prefix_cons_iff.mp hq with hnil | ⟨t, rfl, ht⟩
      · exact Or.inl hnil
      · rw [List.prefix_nil.mp ht] at hne
        exact absurd rfl hne
    · exact (dir_above (Or.inl hr) hq hne).imp_right fun hd => Or.inr ⟨e, he, hd⟩

theorem Filled.file_cases {r : Path} {b : FileData} (h : Filled cfg stage d0 d B)
    (hn : d.node (stage ++ r) = some (.file b)) :
    r = [metadataName] ∨ ∃ e ∈ B, fileOf e.1 = r ∧ e.2.body = b := by
  by_cases hr : r = [metadataName]
  · exact Or.inl hr
  · obtain ⟨e, he, hf⟩ := lastBody_mem ((h.files r b hr).mp hn)
    exact Or.inr ⟨e, List.mem_reverse.mp he, hf⟩

/-- every proper prefix of a node's path is a directory -/
theorem Filled.putsDirs_above {q r : Path} {n : Node FileData} (h : Filled cfg stage d0 d B)
    (hn : d.node (stage ++ r) = some n) (hq : q <+: r) (hne : q ≠ r) : PutsDirs B q := by
  cases n with
  | dir => exact ((h.dirs r).mp hn).above hq
  | file b =>
    rcases h.file_cases hn with rfl | ⟨e, he, rfl, -⟩
    · rcases List.prefix_cons_iff.mp hq with hnil | ⟨t, rfl, ht⟩
      · exact Or.inl hnil
      · rw [List.prefix_nil.mp ht] at hne
        exact absurd rfl hne
    · exact (dir_above (Or.inr rfl) hq hne).imp_right fun hd => Or.inr ⟨e, he, hd⟩

/-- the names of what is below the stage -/
theorem Filled.named {r : Path} {n : Node FileData} (h : Filled cfg stage d0 d B)
    (hfits : ∀ e ∈ B, ∀ s ∈ segs e.1, fits s = true) (hn : d.node (stage ++ r) = some n) :
    up ∉ r ∧ ∀ s ∈ r, fits s = true := by
  have hkey : ∀ e ∈ B, r ∈ dirsOf e.1 ∨ r = fileOf e.1 → up ∉ r ∧ ∀ s ∈ r, fits s = true := by
    intro e he hr
    refine ⟨up_notMem_of_key hr, fun s hs => ?_⟩
    rcases mem_of_place (mem_places.mpr hr) hs with hstart | ⟨hseg, -⟩
    · rw [List.mem_singleton.mp hstart]
      decide
    · exact hfits e he s hseg
  cases n with
  | dir =>
    rcases (h.dirs r).mp hn with rfl | rfl | ⟨e, he, hr⟩
    · simp
    · decide
    · exact hkey e he (Or.inl hr)
  | file b =>
    rcases h.file_cases hn with rfl | ⟨e, he, hr, -⟩
    · decide
    · exact hkey e he (Or.inr hr.symm)

/-- the members of the bundle go together -/
theorem Filled.tree (h : Filled cfg stage d0 d B)
    (hfits : ∀ e ∈ B, ∀ s ∈ segs e.1, fits s = true) : Tree fits (createBundle d stage) where
  named m hm := by
    obtain ⟨hne, hn⟩ := mem_createBundle.mp hm
    exact ⟨hne, h.named hfits hn⟩
  one m hm m' hm' he := by
    obtain ⟨-, hn⟩ := mem_createBundle.mp hm
    obtain ⟨-, hn'⟩ := mem_createBundle.mp hm'
    rw [he, hn'] at hn
    exact (Option.some.inj hn).symm
  files r b hr m hm hpre := by
    obtain ⟨-, hn⟩ := mem_createBundle.mp hr
    obtain ⟨-, hn'⟩ := mem_createBundle.mp hm
    by_contra hne
    rw [(h.dirs r).mpr (h.putsDirs_above hn' hpre fun e => hne e.symm)] at hn
    simp at hn

/-! ## restore -/

section
variable {S : List (Member FileData)} {dest : Path}

theorem Unpacked.isDir (hU : Unpacked dest S d) : d.isDir dest = true := by
  have hn := (hU.dirs []).mpr (Or.inl rfl)
  rw [List.append_nil] at hn
  exact isDir_iff.mpr hn

theorem read_key {key : Str} {b : FileData} (hU : Unpacked dest S d) (hw : Within key) :
    d.read fits (at_ (dest ++ [objectsName]) key).1 (at_ (dest ++ [objectsName]) key).2 = some b ↔
      (∀ r ∈ dirsOf key, PutsDir S r) ∧ (∀ s ∈ segs key, fits s = true) ∧
        (fileOf key, .file b) ∈ S := by
  rw [hw.at_, read_eq_some, hw.trail, hw.reach, hU.files, List.forall_mem_map]
  simp only [isDir_iff, hU.dirs]

theorem read_index {b : FileData} (hU : Unpacked dest S d) :
    d.read fits dest [metadataName] = some b ↔ ([metadataName], .file b) ∈ S := by
  have hreach : reach dest [metadataName] = dest ++ [metadataName] := by
    rw [reach_cons, reach_nil, step, if_neg (by decide)]
  have hfits : fits metadataName = true := by decide
  rw [read_eq_some, hreach, hU.files]
  simp [trail, hU.isDir, hfits]

end

/-! ### lists of results -/

theorem keys_byKey (B : Bucket) : (byKey (entries B)).map (·.key) = sorted (B.map (·.1)) := by
  have hkeys : (entries B).map (·.key) = B.map (·.1) := by
    rw [entries, List.map_map]
    rfl
  unfold byKey sorted
  rw [← hkeys]
  exact List.map_insertionSort _ _ _ _ fun a _ b _ => Iff.rfl

theorem mem_byKey {en : S3Entry} : en ∈ byKey (entries B) ↔ ∃ e ∈ B, e.2.entry e.1 = en := by
  unfold byKey entries
  rw [List.mem_insertionSort, List.mem_map]

/-- a bucket as it should be is restored from its bundle -/
theorem Mirrorable.restored (hM : Mirrorable cfg B) (hF : Filled cfg stage d0 d B) :
    RestoredFrom B (createBundle d stage) := by
  have hfits : ∀ e ∈ B, ∀ s ∈ segs e.1, fits s = true := fun e he => (hM.named e he).2
  have hsafe : ∀ m ∈ createBundle d stage, m ∈ safeMembers (createBundle d stage) := by
    rintro ⟨r, n⟩ hm
    refine mem_safeMembers.mpr ⟨hm, ?_⟩
    obtain ⟨hne, hn⟩ := mem_createBundle.mp hm
    cases n with
    | dir =>
      rcases (hF.dirs r).mp hn with he | rfl | ⟨e, he, hr⟩
      · exact absurd he hne
      · decide
      · exact hM.safe e he r (Or.inl hr) hne
    | file b =>
      rcases hF.file_cases hn with rfl | ⟨e, he, hr, -⟩
      · show isSafeMember (posix [metadataName]) = true
        decide
      · exact hM.safe e he r (Or.inr hr.symm) hne
  intro d1 dest d10 hup hdest hbare
  have hT : Tree fits (safeMembers (createBundle d stage)) :=
    (hF.tree hfits).subset fun m hm => (mem_safeMembers.mp hm).1
  obtain ⟨d', hex, hU⟩ := extractBundle_spec hdest hbare (mapM_keepAll _) hT
  have hindex : d'.read fits dest [metadataName] = some (cfg.index B) :=
    (read_index hU).mpr (hsafe _ (mem_createBundle.mpr ⟨by simp, hF.index⟩))
  have hone : ∀ en ∈ byKey (entries B), ∃ p, restoreOne d' (dest ++ [objectsName]) en = some p ∧
      p.key = en.key ∧ ∃ o, (p.key, o) ∈ B ∧ p.body = o.body := by
    intro en hen
    obtain ⟨e, he, rfl⟩ := mem_byKey.mp hen
    have hw := hM.within e he
    obtain ⟨b, hb⟩ : ∃ b, d.node (stage ++ fileOf e.1) = some (.file b) ∧ b = e.2.body := by
      by_cases hf : fileOf e.1 = [metadataName]
      · refine ⟨cfg.index B, ?_, ((hM.index e he).2 hf).symm⟩
        rw [hf]
        exact hF.index
      · obtain ⟨b, hb⟩ := exists_lastBody (List.mem_reverse.mpr he)
        obtain ⟨e', he', hf', rfl⟩ := lastBody_mem hb
        exact ⟨e'.2.body, (hF.files _ _ hf).mpr hb, hM.same e' (List.mem_reverse.mp he') e he hf'⟩
    have hread := (read_key hU hw).mpr ⟨fun r hr => ?_, hfits e he,
      hsafe _ (mem_createBundle.mpr ⟨(hM.apart e he).1, hb.1⟩)⟩
    · refine ⟨putOf (e.2.entry e.1) b, ?_, rfl, e.2, he, hb.2⟩
      have hkey : (e.2.entry e.1).key = e.1 := rfl
      unfold restoreOne
      simp only [hkey, hread, Option.map_some]
    · by_cases hnil : r = []
      · exact Or.inl hnil
      · have hn := (hF.dirs r).mpr (Or.inr (Or.inr ⟨e, he, hr⟩))
        exact Or.inr ⟨(r, .dir), hsafe _ (mem_createBundle.mpr ⟨hnil, hn⟩), List.prefix_rfl, Or.inr rfl⟩
  obtain ⟨puts, hputs, hall⟩ := exists_mapM hone
  refine ⟨d', puts, hex, ?_, ?_, ?_⟩
  · unfold restoreObjects
    rw [hindex]
    exact hputs
  · rw [← keys_byKey]
    exact map_eq_of_forall₂ (hall.imp fun en p h => h.1)
  · intro p hp
    obtain ⟨en, -, -, h⟩ := exists_of_forall₂ hall p hp
    exact h

/-- **A mirrorable bucket makes the round trip.** -/
theorem Mirrorable.roundTrips (hcfg : OneFile cfg) (hM : Mirrorable cfg B)
    (htags : ∀ e ∈ B, ∀ reason, e.2.tagging ≠ .failed reason) : RoundTrips cfg B := by
  intro d d0 staging td hR
  have hstage : staging ++ [td] ≠ [] := by simp
  have hindex : ¬ PutsDirs B [metadataName] := by
    rintro (he | he | ⟨e, he, hr⟩)
    · simp at he
    · exact absurd he (by decide)
    · exact (hM.index e he).1 hr
  obtain ⟨d', objects, untagged, hfill⟩ := exists_fill hcfg hR hM.toPlaced hindex htags
  obtain ⟨d1, es, codes, hd, hnot, rfl⟩ := fill_cases hcfg hstage hR.stage_fresh hfill
  obtain ⟨hF, -, -⟩ := filled_of_downloads cfg hM.within hstage hR.stage_fresh hd hnot
  exact ⟨_, mirrored_of_fill hcfg hR hfill rfl hF.others, hM.restored hF⟩

/-! ## why the condition is needed -/

/-- no node's path has a `..` -/
def Clean (d : Disk FileData) : Prop := ∀ q, d.node q ≠ none → up ∉ q

theorem Clean.put {p : Path} {n : Node FileData} (h : Clean d) (hp : up ∉ p) : Clean (d.put p n) := by
  intro q hq
  by_cases he : q = p
  · exact he ▸ hp
  · rw [node_put_ne he] at hq
    exact h q hq

theorem Clean.save {d' : Disk FileData} {p : Path} {names : List Str} {b : FileData} (h : Clean d)
    (hp : up ∉ p) (hs : d.save fits p names b = some d') : Clean d' := by
  have hsaved := save_spec hs
  intro q hq
  by_cases he : q = reach p names
  · exact up_notMem_place hp (mem_places.mpr (Or.inr he))
  · rcases hsaved.same q he with hsame | ⟨hmem, -, -⟩
    · rw [hsame] at hq
      exact h q hq
    · exact up_notMem_place hp (mem_places.mpr (Or.inl hmem))

theorem Clean.downloads {objectsDir : Path} {d' : Disk FileData} {R : Bucket} {es : List S3Entry}
    {codes : List Str} (h : Clean d) (hp : up ∉ objectsDir)
    (hd : downloads objectsDir d R = (d', .ok (es, codes))) : Clean d' := by
  induction R generalizing d es codes with
  | nil =>
    obtain ⟨rfl, -⟩ := Prod.mk.inj hd
    exact h
  | cons e R ih =>
    obtain ⟨key, o⟩ := e
    obtain ⟨d1, es', codes', hsave, hrest, -⟩ := downloads_cons hd
    refine ih (h.save ?_ hsave) hrest
    unfold at_
    split
    · simp
    · exact hp

/-- a name of one character that the text does not have -/
theorem exists_name {key : Str} (h : (key.map (·.utf8Size)).sum ≤ 1024) :
    ∃ z, fits z = true ∧ z ≠ up ∧ z ∉ segs key := by
  have hlen : key.length ≤ 1024 := by
    refine le_trans ?_ h
    clear h
    induction key with
    | nil => simp
    | cons c key ih =>
      rw [List.map_cons, List.sum_cons, List.length_cons]
      have hc := Char.utf8Size_pos c
      omega
  have hex : ∃ i < 1025, Char.ofNat (256 + i) ∉ key := by
    by_contra hno
    push Not at hno
    have hvalid : ∀ i < 1025, (Char.ofNat (256 + i)).toNat = 256 + i := by decide +kernel
    have hnodup : ((List.range 1025).map fun i => Char.ofNat (256 + i)).Nodup := by
      refine List.Nodup.map_on (fun i hi j hj he => ?_) List.nodup_range
      have hn := congrArg Char.toNat he
      rw [hvalid i (List.mem_range.mp hi), hvalid j (List.mem_range.mp hj)] at hn
      omega
    have hsub : ((List.range 1025).map fun i => Char.ofNat (256 + i)) ⊆ key := by
      intro c hc
      obtain ⟨i, hi, rfl⟩ := List.mem_map.mp hc
      exact hno i (List.mem_range.mp hi)
    have hle := (List.subperm_of_subset hnodup hsub).length_le
    rw [List.length_map, List.length_range] at hle
    omega
  obtain ⟨i, hi, hnot⟩ := hex
  have hfits : ∀ i < 1025, fits [Char.ofNat (256 + i)] = true := by decide +kernel
  refine ⟨[Char.ofNat (256 + i)], hfits i hi, by simp [up], fun hmem => hnot ?_⟩
  exact mem_of_piece (List.mem_filter.mp hmem).1 (List.mem_singleton.mpr rfl)

/-- an empty disk with the one directory `name` -/
theorem bare_one (name : Str) (hfits : fits name = true) (hup : name ≠ up) :
    (⟨[]⟩ : Disk FileData).mkdirs fits [] [name] = some ⟨[([name], .dir)]⟩ ∧
      Bare (⟨[([name], .dir)]⟩ : Disk FileData) [name] := by
  have hnode : (⟨[]⟩ : Disk FileData).node [name] = none := rfl
  have hdir : (⟨[([name], .dir)]⟩ : Disk FileData).isDir [name] = true := by
    simp [isDir_iff, Disk.node]
  constructor
  · unfold Disk.mkdirs
    simp only [isDir_nil, hfits, and_self, if_true, step, if_neg hup, List.nil_append, hnode]
    unfold Disk.mkdirs
    exact if_pos hdir
  · refine ⟨hdir, fun r hr => ?_⟩
    simp [Disk.node, hr]

/-- a key that is restored into every bare directory stays inside -/
theorem within_of_restored {members : List (Member FileData)} (hplain : ∀ m ∈ members, up ∉ m.1)
    (h : RestoredFrom B members) {e : Str × S3Object} (he : e ∈ B)
    (hsize : (e.1.map (·.utf8Size)).sum ≤ 1024) : Within e.1 := by
  obtain ⟨z, hfits, hup, hz⟩ := exists_name hsize
  obtain ⟨hmk, hbare⟩ := bare_one z hfits hup
  obtain ⟨d', puts, hex, hrest, hkeys, -⟩ := h _ [z] _ (by simpa using Ne.symm hup) hmk hbare
  obtain ⟨p, hp, hkey⟩ : ∃ p ∈ puts, p.key = e.1 := by
    have hmem : e.1 ∈ puts.map (·.key) := by
      rw [hkeys, mem_sorted]
      exact List.mem_map_of_mem he
    exact List.mem_map.mp hmem
  obtain ⟨en, hread⟩ : ∃ en : S3Entry, restoreOne d' ([z] ++ [objectsName]) en = some p := by
    unfold restoreObjects at hrest
    split at hrest
    · obtain ⟨en, -, hen⟩ := exists_of_forall₂ (mapM_forall₂ hrest) p hp
      exact ⟨en, hen⟩
    · simp at hrest
  obtain ⟨b, hb, rfl⟩ := Option.map_eq_some_iff.mp hread
  obtain ⟨-, -, hfile⟩ := read_eq_some.mp hb
  -- a file that is read lies in the directory
  have hin : [z] <+: reach (at_ ([z] ++ [objectsName]) e.1).1 (segs e.1) := by
    by_contra hout
    rw [← hkey] at hout
    unfold extractBundle at hex
    rw [hmk] at hex
    simp only [mapM_keepAll] at hex
    have hsame := extractMembers_outside (fun m hm => hplain m (mem_safeMembers.mp hm).1) hex hout
    have hn := hsame.symm.trans hfile
    simp only [Disk.node, List.lookup_cons, List.lookup_nil] at hn
    split at hn
    · simp at hn
    · split at hn <;> simp at hn
  constructor
  · intro habs
    rw [at_absolute habs] at hin
    exact outside_reach (by simp) hz hin
  · by_contra hnot
    unfold at_ at hin
    split at hin
    · exact outside_reach (by simp) hz hin
    · have hleaves : inside start (segs e.1) = false := by simpa using hnot
      exact leaves_of_not_inside hleaves hz hin

theorem Listed.eq_of_key (hB : Listed B) {e : Str × S3Object} (he : e ∈ B) {o : S3Object}
    (ho : (e.1, o) ∈ B) : o = e.2 := by
  have heq := List.inj_on_of_nodup_map hB.nodup ho he rfl
  rw [← heq]

/-- what restoring from the bundle says of every key: its directories and its own body were there -/
theorem Filled.extracted (hB : Listed B) (hF : Filled cfg stage d0 d B)
    (hw : ∀ e ∈ B, Within e.1) (hfits : ∀ e ∈ B, ∀ s ∈ segs e.1, fits s = true)
    (h : RestoredFrom B (createBundle d stage)) :
    ∀ e ∈ B, (∀ r ∈ dirsOf e.1, PutsDir (safeMembers (createBundle d stage)) r) ∧
      (fileOf e.1, .file e.2.body) ∈ safeMembers (createBundle d stage) := by
  obtain ⟨hmk, hbare⟩ := bare_one objectsName (by decide) (by decide)
  obtain ⟨d3, puts, hex, hrest, hkeys, hbodies⟩ := h _ [objectsName] _ (by decide) hmk hbare
  have hT : Tree fits (safeMembers (createBundle d stage)) :=
    (hF.tree hfits).subset fun m hm => (mem_safeMembers.mp hm).1
  obtain ⟨d3', hex', hU⟩ := extractBundle_spec hmk hbare (mapM_keepAll _) hT
  rw [hex] at hex'
  obtain rfl := Option.some.inj hex'
  unfold restoreObjects at hrest
  split at hrest
  · rename_i m hindex
    have hmem := (mem_safeMembers.mp ((read_index hU).mp hindex)).1
    have hm : FileData.s3 m = cfg.index B := by
      have hn := (mem_createBundle.mp hmem).2
      rw [hF.index] at hn
      exact (Node.file.inj (Option.some.inj hn)).symm
    obtain rfl : m = cfg.manifest (byKey (entries B)) := FileData.s3.inj hm
    intro e he
    have hen : e.2.entry e.1 ∈ byKey (entries B) := mem_byKey.mpr ⟨e, he, rfl⟩
    obtain ⟨p, hp, hone⟩ := exists_of_forall₂_left (mapM_forall₂ hrest) _ hen
    obtain ⟨b, hb, rfl⟩ := Option.map_eq_some_iff.mp hone
    obtain ⟨hdirs, -, hfile⟩ := (read_key hU (hw e he)).mp hb
    obtain ⟨o, ho, hbody⟩ := hbodies _ hp
    have hbo : b = o.body := hbody
    rw [hB.eq_of_key he ho] at hbo
    exact ⟨hdirs, hbo ▸ hfile⟩
  · simp at hrest

/-- **A bucket that makes the round trip is mirrorable.** -/
theorem RoundTrips.mirrorable (hcfg : OneFile cfg) (hB : Listed B) (h : RoundTrips cfg B) :
    Mirrorable cfg B := by
  -- a disk with nothing but the staging directory
  obtain ⟨hmk, -⟩ := bare_one "staging".toList (by decide) (by decide)
  have hfile : "t".toList ≠ cfg.file := by
    intro e
    have hlen : cfg.file.length = 1 := by rw [← e]; rfl
    simp [S3SourceConfig.file] at hlen
  have hout : (⟨[(["staging".toList], .dir)]⟩ : Disk FileData).node (["staging".toList] ++ [cfg.file]) =
      none := rfl
  have hR : Ready cfg ⟨[]⟩ ⟨[(["staging".toList], .dir)]⟩ ["staging".toList] "t".toList :=
    ⟨hmk, by decide, ⟨by decide, hfile⟩, fun r => by simp [Disk.node],
      by rw [Disk.isDir, hout]⟩
  have hclean0 : Clean (opened (⟨[(["staging".toList], .dir)]⟩ : Disk FileData)
      (["staging".toList] ++ ["t".toList])) := by
    refine Clean.put (Clean.put (fun q hq => ?_) (by decide)) (by decide)
    simp only [Disk.node, List.lookup_cons, List.lookup_nil] at hq
    split at hq
    · rename_i hnil
      simp [hnil]
    · split at hq
      · rename_i hbeq
        rw [beq_iff_eq.mp hbeq]
        decide
      · simp at hq
  obtain ⟨members, hMir, hRes⟩ := h _ _ _ _ hR
  have hstage : ["staging".toList] ++ ["t".toList] ≠ [] := by simp
  obtain ⟨d', objects, untagged, hfill⟩ : ∃ d' objects untagged,
      cfg.fill ["staging".toList] (["staging".toList] ++ ["t".toList])
        ((⟨[(["staging".toList], .dir)]⟩ : Disk FileData).put _ .dir) B = (d', .ok (objects, untagged)) := by
    have hok := hMir.ok
    unfold S3SourceConfig.produce at hok
    rw [hmk] at hok
    simp only at hok
    split at hok
    · simp [S3SourceConfig.component] at hok
    · rename_i d' objects untagged hfill
      exact ⟨d', objects, untagged, hfill⟩
  obtain ⟨d1, es, codes, hd, hnot, rfl⟩ := fill_cases hcfg hstage hR.stage_fresh hfill
  have hmembers : members = createBundle (listed cfg (["staging".toList] ++ ["t".toList]) d1 es)
      (["staging".toList] ++ ["t".toList]) := by
    have hout := hMir.out
    unfold S3SourceConfig.produce at hout
    rw [hmk] at hout
    simp only [hfill, hcfg.out] at hout
    obtain ⟨-, -, hn⟩ := read_eq_some.mp hout
    have hreach : reach ["staging".toList] [cfg.file] = ["staging".toList] ++ [cfg.file] := by
      simp [step, file_ne_up]
    have hpre : ¬ ["staging".toList] ++ ["t".toList] <+: ["staging".toList] ++ [cfg.file] := by
      rw [List.prefix_append_right_inj, List.cons_prefix_cons]
      exact fun h => hfile h.1
    rw [hreach, node_remove (by simp), if_neg hpre, packed, node_put_self (by simp)] at hn
    exact (FileData.targz.inj (Node.file.inj (Option.some.inj hn))).symm
  subst hmembers
  have hclean : Clean (listed cfg (["staging".toList] ++ ["t".toList]) d1 es) :=
    (hclean0.downloads (by decide) hd).put (by decide)
  have hplain : ∀ m ∈ createBundle (listed cfg (["staging".toList] ++ ["t".toList]) d1 es)
      (["staging".toList] ++ ["t".toList]), up ∉ m.1 := by
    intro m hm hup
    have hn := (mem_createBundle.mp hm).2
    exact hclean _ (by rw [hn]; simp) (List.mem_append_right _ hup)
  have hw : ∀ e ∈ B, Within e.1 := fun e he => within_of_restored hplain hRes he (hB.keys e he).2
  obtain ⟨hF, hindex, hfits⟩ := filled_of_downloads cfg hw hstage hR.stage_fresh hd hnot
  have hall := hF.extracted hB hw hfits hRes
  have hnode : ∀ e ∈ B, ∃ b, (listed cfg (["staging".toList] ++ ["t".toList]) d1 es).node
      (["staging".toList] ++ ["t".toList] ++ fileOf e.1) = some (.file b) := fun e he =>
    ⟨_, (mem_createBundle.mp (mem_safeMembers.mp (hall e he).2).1).2⟩
  have hnotdir : ∀ e ∈ B, ¬ PutsDirs B (fileOf e.1) := by
    intro e he hp
    obtain ⟨b, hb⟩ := hnode e he
    rw [(hF.dirs _).mpr hp] at hb
    simp at hb
  refine ⟨⟨hw, fun e he => ⟨fun hnil => hnotdir e he (Or.inr (Or.inl ?_)), hfits e he⟩,
    fun e he => ⟨fun hnil => hnotdir e he (Or.inl hnil), fun e' he' hr =>
      hnotdir e he (Or.inr (Or.inr ⟨e', he', hr⟩))⟩⟩, fun e he => ⟨fun hr =>
    hindex (Or.inr (Or.inr ⟨e, he, hr⟩)), fun hf => ?_⟩, fun e he e' he' hf => ?_,
    fun e he r hr hne => ?_⟩
  · unfold fileOf
    rw [hnil]
    rfl
  · have hn := (mem_createBundle.mp (mem_safeMembers.mp (hall e he).2).1).2
    rw [hf, hF.index] at hn
    exact (Node.file.inj (Option.some.inj hn)).symm
  · have hn := (mem_createBundle.mp (mem_safeMembers.mp (hall e he).2).1).2
    have hn' := (mem_createBundle.mp (mem_safeMembers.mp (hall e' he').2).1).2
    rw [hf, hn'] at hn
    exact (Node.file.inj (Option.some.inj hn)).symm
  · rcases hr with hr | rfl
    · rcases (hall e he).1 r hr with hnil | ⟨m, hm, hpre, -⟩
      · exact absurd hnil hne
      · exact isSafeMember_above hne hpre (mem_safeMembers.mp hm).2
    · exact (mem_safeMembers.mp (hall e he).2).2

/-- **Which buckets make the round trip.** -/
theorem mirror_round_trips_iff (cfg : S3SourceConfig) (hcfg : OneFile cfg) (B : Bucket)
    (hB : Listed B) : RoundTrips cfg B ↔ Mirrorable cfg B :=
  ⟨fun h => h.mirrorable hcfg hB, fun h => h.roundTrips hcfg hB.tags⟩

end

/-! ## examples -/

def plainObject (body : List UInt8) : S3Object :=
  ⟨.bytes body, body.length, none, [], [], none, none, .tags []⟩

def mediaConfig : S3SourceConfig := { bucket := "media".toList }

/-- a file beside a directory, and `.` and `..` in a key -/
def mediaBucket : Bucket :=
  [("a/../b.txt".toList, plainObject [1]), ("photos/./cat.jpg".toList, plainObject [2]),
    ("readme".toList, plainObject [3])]

theorem mirror_round_trips_media : RoundTrips mediaConfig mediaBucket := by
  refine (mirror_round_trips_iff mediaConfig ⟨by decide, by decide⟩ mediaBucket
    ⟨by decide, by decide, ?_⟩).mpr ⟨⟨by decide, by decide, by decide⟩, ?_, ?_, ?_⟩
  · simp [mediaBucket, plainObject]
  · have hnot : ∀ e ∈ mediaBucket, [metadataName] ∉ dirsOf e.1 ∧ fileOf e.1 ≠ [metadataName] := by
      decide
    exact fun e he => ⟨(hnot e he).1, fun hf => absurd hf (hnot e he).2⟩
  · have hinj : ∀ e ∈ mediaBucket, ∀ e' ∈ mediaBucket, fileOf e.1 = fileOf e'.1 → e.1 = e'.1 := by
      decide
    have hnodup : (mediaBucket.map (·.1)).Nodup := by decide
    exact fun e he e' he' hf => by rw [List.inj_on_of_nodup_map hnodup he he' (hinj e he e' he' hf)]
  · have hsafe : ∀ e ∈ mediaBucket, ∀ r ∈ fileOf e.1 :: dirsOf e.1, r ≠ [] →
        isSafeMember (posix r) = true := by decide
    exact fun e he r hr => hsafe e he r (List.mem_cons.mpr hr.symm)

/-- a folder marker and an object in the folder -/
def folderBucket : Bucket :=
  [("photos/".toList, plainObject []), ("photos/cat.jpg".toList, plainObject [2])]

/-- **Where the mirror fails**: the marker becomes a file, and the folder cannot be made. -/
theorem folder_not_mirrored :
    Listed folderBucket ∧ OneFile mediaConfig ∧
      (mediaConfig.produce ⟨[]⟩ ["staging".toList] "t".toList folderBucket).2.error =
        some "s3 mirror failed: OSError".toList ∧
      ¬ RoundTrips mediaConfig folderBucket := by
  have hlisted : Listed folderBucket := by
    refine ⟨by decide, by decide, ?_⟩
    simp [folderBucket, plainObject]
  have hfile : OneFile mediaConfig := ⟨by decide, by decide⟩
  refine ⟨hlisted, hfile, by decide +kernel, fun h => ?_⟩
  exact absurd (h.mirrorable hfile hlisted).apart (by decide)

end BackupHelper
