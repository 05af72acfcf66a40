import BackupHelper.Hydrate
import BackupHelper.JobIsolation
import BackupHelper.Snapshots.Order
import BackupHelper.Lib.Json
import BackupHelper.Lib.Utf8

/-!
# The check of an archive

An archive is checked against the hash that its manifest records.

* `textOf`, `bytesOf`     the files as they lie in the data dir;
* `recordedHash`          what a file in JSON holds under `archive_sha256`;
* `verifySnapshot`        the check;
* `verifySnapshot_ok`     **an archive passes that lies beside its manifest alone**.
-/

set_option linter.unusedSectionVars false

namespace BackupHelper
open Text Glob Python

def archiveShaKey : Str := "archive_sha256".toList

/-- `dump` writes a manifest: what is read from the text has its hash in the field of this name -/
def Dumps (dump : Manifest → Str) : Prop :=
  ∀ m, ∃ es, Json.loads (dump m) = some (.obj es) ∧
    es.lookup archiveShaKey = some (m.archiveSha256.elim .null .str)

/-- `json.dumps({"job": job})` -/
def markerText (job : Str) : Str := "\x7b\"job\": ".toList ++ Json.literal job ++ ['}']

def bytesOf (dump : Manifest → Str) : Content → Bytes
  | .raw b => b
  | .manifest m => Utf8.utf8 (dump m)
  | .marker job => Utf8.utf8 (markerText job)

def isDirectory : Exc := ⟨"IsADirectoryError".toList, "Is a directory".toList⟩
def notUtf8 : Exc := ⟨"UnicodeDecodeError".toList, "'utf-8' codec can't decode".toList⟩
def notJson : Exc := ⟨"JSONDecodeError".toList, "Expecting value".toList⟩
def noGet : Exc := ⟨"AttributeError".toList, "object has no attribute 'get'".toList⟩

/-- `json.loads(text).get("archive_sha256")` of the text in the bytes -/
def recordedHash (b : Bytes) : Except Exc (Option Json.Value) :=
  match encode (Utf8.decode b) with
  | none => .error notUtf8
  | some s =>
    match Json.loads s with
    | none => .error notJson
    | some (.obj es) => .ok (es.lookup archiveShaKey)
    | some _ => .error noGet

/-- the bytes of an entry of the data dir -/
def World.read (dump : Manifest → Str) (w : World) (name : Str) : Except Exc Bytes :=
  match w.get .data name with
  | some c => .ok (bytesOf dump c)
  | none => .error isDirectory

/-- the first entry of the data dir that matches, as `find_artifact` looks for it -/
def World.firstArtifact (w : World) (sid : Str) : Option Str :=
  (sorted (w.entries.dedup.filter fun e => fnmatch (sid ++ tarSuffix ++ ['*']) e)).head?

def truthy : Option Json.Value → Bool
  | none => false
  | some .null => false
  | some (.bool b) => b
  | some (.num n) => n ≠ 0
  | some (.str s) => s ≠ []
  | some (.arr vs) => !vs.isEmpty
  | some (.obj es) => !es.isEmpty

/-- the value is this text -/
def isText (h : Str) : Option Json.Value → Bool
  | some (.str s) => h = s
  | _ => false

def verifySnapshot (env : Env) (dump : Manifest → Str) (w : World) (sid : Str) : Except Exc Bool :=
  match w.firstArtifact sid with
  | none => .ok false
  | some artifact =>
    if sid ++ manifestSuffix ∈ w.entries then do
      let expected ← recordedHash (← w.read dump (sid ++ manifestSuffix))
      -- where nothing is recorded, the archive is not read
      if truthy expected then do
        let found ← w.read dump artifact
        .ok (isText (env.sha256 found) expected)
      else .ok false
    else .ok false

/-- the hash that a manifest records is read from its file -/
theorem recordedHash_dumped {dump : Manifest → Str} (hd : Dumps dump) (m : Manifest) :
    recordedHash (bytesOf dump (.manifest m)) = .ok (some (m.archiveSha256.elim .null .str)) := by
  obtain ⟨es, hes, hkey⟩ := hd m
  show recordedHash (Utf8.utf8 (dump m)) = _
  unfold recordedHash
  rw [Utf8.decode_utf8, encode_lit]
  simp only [hes, hkey]

/-! ## a manifest as JSON -/

def statusText : Status → Str
  | .success => "success".toList
  | .warning => "warning".toList
  | .error => "error".toList

def Component.toJson (c : Component) : Json.Value :=
  .obj [("name".toList, .str c.name), ("kind".toList, .str c.kind), ("size".toList, .num c.size),
    ("sha256".toList, .str c.sha256), ("error".toList, c.error.elim .null .str),
    ("metadata".toList, .obj (if c.warnings = [] then [] else [("warnings".toList, .arr (c.warnings.map .str))]))]

/-- the fields of a manifest in their order -/
def Manifest.toJson (m : Manifest) : Json.Value :=
  .obj [("schema_version".toList, .num 1), ("snapshot_id".toList, .str m.snapshotId),
    ("instance_name".toList, .str m.instanceName), ("created_at".toList, .str m.createdAt),
    ("status".toList, .str (statusText m.status)), ("total_bytes".toList, .num m.totalBytes),
    (archiveShaKey, m.archiveSha256.elim .null .str), ("components".toList, .arr (m.components.map (·.toJson)))]

theorem distinctItems_map {α : Type} (f : α → Json.Value) (hf : ∀ a, (f a).Distinct) (l : List α) :
    Json.distinctItems (l.map f) := by
  induction l with
  | nil => trivial
  | cons a l ih => exact ⟨hf a, ih⟩

theorem distinct_elim (o : Option Str) : (o.elim Json.Value.null .str).Distinct := by
  cases o <;> trivial

theorem Component.toJson_distinct (c : Component) : c.toJson.Distinct := by
  refine ⟨?_, trivial, trivial, trivial, trivial, distinct_elim _, ?_, trivial⟩
  · show (["name".toList, "kind".toList, "size".toList, "sha256".toList, "error".toList,
      "metadata".toList] : List Str).Nodup
    decide
  · split
    · exact ⟨List.nodup_nil, trivial⟩
    · exact ⟨List.nodup_singleton _, distinctItems_map _ (fun s => show (Json.Value.str s).Distinct from trivial) _,
        trivial⟩

theorem Manifest.toJson_distinct (m : Manifest) : m.toJson.Distinct := by
  refine ⟨?_, trivial, trivial, trivial, trivial, trivial, trivial, distinct_elim _,
    distinctItems_map _ Component.toJson_distinct _, trivial⟩
  show (["schema_version".toList, "snapshot_id".toList, "instance_name".toList, "created_at".toList, "status".toList,
    "total_bytes".toList, archiveShaKey, "components".toList] : List Str).Nodup
  decide

theorem dumps_render : Dumps fun m => Json.render 0 m.toJson :=
  fun m => ⟨_, Json.loads_render m.toJson_distinct, rfl⟩

/-! ## what is found beside the manifest -/

theorem mem_entries {w : World} {e : Str} :
    e ∈ w.entries ↔ ∃ k, (w.get .data k).isSome ∧ k.takeWhile (· ≠ '/') = e := by
  unfold World.entries World.get
  rw [List.mem_map]
  constructor
  · rintro ⟨k, hk, rfl⟩
    exact ⟨k, AList.lookup_isSome.mpr hk, rfl⟩
  · rintro ⟨k, hk, rfl⟩
    exact ⟨k, AList.lookup_isSome.mp hk, rfl⟩

theorem mem_entries_of_free {w : World} {k : Str} (hk : free '/' k) (hs : (w.get .data k).isSome) :
    k ∈ w.entries := by
  refine mem_entries.mpr ⟨k, hs, ?_⟩
  rw [List.takeWhile_eq_self_iff]
  intro c hc
  rw [decide_eq_true_eq]
  rintro rfl
  exact hk hc

section
variable {env : Env} {w : World} {sid : Str}

/-- an entry that is taken for the archive is the beginning of a name of the snapshot -/
theorem entry_of_tar (hsid : Engine sid) {e : Str} (he : e ∈ w.entries)
    (hm : fnmatch (sid ++ tarSuffix ++ ['*']) e = true) :
    ∃ k, (w.get .data k).isSome ∧ k.takeWhile (· ≠ '/') = e ∧ sid ++ tarSuffix <+: k := by
  obtain ⟨k, hk, rfl⟩ := mem_entries.mp he
  have hpre := (fnmatch_begins (plain_tar (plain_of_all hsid.slug)) _).mp hm
  exact ⟨k, hk, rfl, hpre.trans (List.takeWhile_prefix _)⟩

/-- where the one archive of the snapshot is `a`, it is the one that is found -/
theorem firstArtifact_eq (hsid : Engine sid) {a : Str} (ha : free '/' a) (hthere : (w.get .data a).isSome)
    (hpre : sid ++ tarSuffix <+: a)
    (hone : ∀ k, sid ++ tarSuffix <+: k → (w.get .data k).isSome → k = a) : w.firstArtifact sid = some a := by
  have hall : ∀ e ∈ sorted (w.entries.dedup.filter fun e => fnmatch (sid ++ tarSuffix ++ ['*']) e), e = a := by
    intro e he
    obtain ⟨hmem, hm⟩ := List.mem_filter.mp (mem_sorted.mp he)
    obtain ⟨k, hk, rfl, hkpre⟩ := entry_of_tar hsid (List.mem_dedup.mp hmem) hm
    rw [hone k hkpre hk]
    rw [List.takeWhile_eq_self_iff]
    intro c hc
    rw [decide_eq_true_eq]
    rintro rfl
    exact ha hc
  have hmem : a ∈ sorted (w.entries.dedup.filter fun e => fnmatch (sid ++ tarSuffix ++ ['*']) e) := by
    refine mem_sorted.mpr (List.mem_filter.mpr ⟨List.mem_dedup.mpr (mem_entries_of_free ha hthere), ?_⟩)
    exact (fnmatch_begins (plain_tar (plain_of_all hsid.slug)) a).mpr hpre
  unfold World.firstArtifact
  cases hl : sorted (w.entries.dedup.filter fun e => fnmatch (sid ++ tarSuffix ++ ['*']) e) with
  | nil =>
    rw [hl] at hmem
    cases hmem
  | cons e es =>
    rw [hl] at hall
    rw [List.head?_cons, hall e List.mem_cons_self]

/-- the check of an archive against the manifest that records its hash -/
theorem verifySnapshot_ok {dump : Manifest → Str} (hd : Dumps dump) {a : Str} {b : Bytes} {m : Manifest}
    (hfirst : w.firstArtifact sid = some a) (hfree : free '/' sid) (ha : w.get .data a = some (.raw b))
    (hm : w.get .data (sid ++ manifestSuffix) = some (.manifest m))
    (hsha : m.archiveSha256 = some (env.sha256 b)) (hne : env.sha256 b ≠ []) :
    verifySnapshot env dump w sid = .ok true := by
  have hentry : sid ++ manifestSuffix ∈ w.entries := by
    apply mem_entries_of_free (free_append.mpr ⟨hfree, by decide⟩)
    rw [hm]
    rfl
  have hread : ∀ name c, w.get .data name = some c → w.read dump name = .ok (bytesOf dump c) := by
    intro name c hc
    unfold World.read
    rw [hc]
  unfold verifySnapshot
  rw [hfirst]
  simp only [hentry, ite_true, hread _ _ ha, hread _ _ hm]
  show (recordedHash (bytesOf dump (.manifest m)) >>= _) = _
  rw [recordedHash_dumped hd, hsha]
  have htruthy : truthy (some (.str (env.sha256 b))) = true := decide_eq_true hne
  show (if truthy (some (.str (env.sha256 b))) then
    Except.ok (isText (env.sha256 b) (some (.str (env.sha256 b)))) else _) = _
  rw [if_pos htruthy]
  exact congrArg Except.ok (decide_eq_true rfl)

end

end BackupHelper
