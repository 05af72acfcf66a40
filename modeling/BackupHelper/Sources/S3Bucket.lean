import BackupHelper.Sources.Base

/-!
# The S3 source: a mirror of a bucket, and its way back

Every object is downloaded to a file of its key's name below `objects`, what else is known of it goes
to `metadata.json`, and both are bundled.  A restore puts the objects that `metadata.json` lists.

* `S3Object`                         what the store answers for an object;
* `downloadOne`, `downloadAll`       the objects, into the stage;
* `S3SourceConfig.produce`           the component, or the reason why there is none;
* `S3SourceConfig.restore`           the calls of `put_object`.
-/

namespace BackupHelper
open Text Files Disk

/-- the answer to `get_object_tagging` -/
inductive Tagging where
  | tags (l : List (Str × Str))
  /-- a code that says that the tags cannot be read -/
  | unavailable (code : Str)
  | failed (reason : Str)
  deriving DecidableEq

/-- the answers to `get_object` and `get_object_tagging` -/
structure S3Object where
  body : FileData
  /-- the size of the body -/
  length : ℕ
  contentLength : Option ℕ
  /-- the response fields of `contentHeaders` -/
  headers : List (Str × Str)
  metadata : List (Str × Str)
  storageClass : Option Str
  etag : Option Str
  tagging : Tagging

/-- the key in `metadata.json` and the response field of each content header -/
def contentHeaders : List (Str × Str) :=
  [("content_type".toList, "ContentType".toList),
    ("content_disposition".toList, "ContentDisposition".toList),
    ("cache_control".toList, "CacheControl".toList),
    ("content_encoding".toList, "ContentEncoding".toList),
    ("content_language".toList, "ContentLanguage".toList)]

structure S3SourceConfig where
  bucket : Str
  prefix_ : Str := []
  name : Str := "s3".toList

/-- the objects of the bucket, in the order in which they are listed -/
abbrev Bucket := List (Str × S3Object)

def objectsName : Str := "objects".toList

def metadataName : Str := "metadata.json".toList

/-! ## backup -/

/-- the text of an error of the file system -/
def osError : Str := "OSError".toList

def entryOf (key : Str) (o : S3Object) (tags : Option (List (Str × Str))) : S3Entry where
  key := key
  size := o.contentLength.getD o.length
  metadata := o.metadata
  storageClass := o.storageClass
  etag := o.etag
  tags := tags
  fields := contentHeaders.map fun h => (h.1, o.headers.lookup h.2)

/-- the entry of the object and, where the store refuses its tags, the code it does so with -/
def S3Object.captured (o : S3Object) (key : Str) : Except Str (S3Entry × List Str) :=
  match o.tagging with
  | .tags l => .ok (entryOf key o (some l), [])
  | .unavailable code => .ok (entryOf key o none, [code])
  | .failed reason => .error reason

/-- the disk afterwards: a file that was written stays when the tags fail -/
def downloadOne (objectsDir : Path) (d : Disk FileData) (key : Str) (o : S3Object) :
    Disk FileData × Except Str (S3Entry × List Str) :=
  let dest := at_ objectsDir key
  match d.save fits dest.1 dest.2 o.body with
  | none => (d, .error osError)
  | some d => (d, o.captured key)

/-- the entries in the order of the listing -/
def downloads (objectsDir : Path) (d : Disk FileData) :
    Bucket → Disk FileData × Except Str (List S3Entry × List Str)
  | [] => (d, .ok ([], []))
  | (key, o) :: rest =>
    match downloadOne objectsDir d key o with
    | (d, .error reason) => (d, .error reason)
    | (d, .ok (entry, untagged)) =>
      match downloads objectsDir d rest with
      | (d, .error reason) => (d, .error reason)
      | (d, .ok (entries, more)) => (d, .ok (entry :: entries, untagged ++ more))

def byKey (entries : List S3Entry) : List S3Entry := entries.insertionSort (fun a b => a.key ≤ b.key)

def downloadAll (stage : Path) (d : Disk FileData) (bucket : Bucket) :
    Disk FileData × Except Str (List S3Entry × List Str) :=
  match d.mkdirs fits stage [objectsName] with
  | none => (d, .error osError)
  | some d =>
    match downloads (stage ++ [objectsName]) d bucket with
    | (d, .error reason) => (d, .error reason)
    | (d, .ok (entries, untagged)) => (d, .ok (byKey entries, untagged))

def S3SourceConfig.manifest (cfg : S3SourceConfig) (objects : List S3Entry) : S3Manifest :=
  ⟨cfg.bucket, cfg.prefix_, objects.length, objects⟩

/-- the component's file -/
def S3SourceConfig.out (cfg : S3SourceConfig) (staging : Path) : Path × List Str :=
  at_ staging (cfg.name ++ ".tar.gz".toList)

/-- the stage is filled, and bundled into the component's file -/
def S3SourceConfig.fill (cfg : S3SourceConfig) (staging stage : Path) (d : Disk FileData)
    (bucket : Bucket) : Disk FileData × Except Str (List S3Entry × List Str) :=
  match downloadAll stage d bucket with
  | (d, .error reason) => (d, .error reason)
  | (d, .ok (objects, untagged)) =>
    match d.write fits stage [metadataName] (.s3 (cfg.manifest objects)) with
    | none => (d, .error osError)
    | some d =>
      match d.write fits (cfg.out staging).1 (cfg.out staging).2 (.targz (createBundle d stage)) with
      | none => (d, .error osError)
      | some d => (d, .ok (objects, untagged))

def untaggedWarning (untagged : List Str) (total : ℕ) : Str :=
  "tags of ".toList ++ (toString untagged.length).toList ++ " of ".toList ++
    (toString total).toList ++ " objects (get_object_tagging: ".toList ++
    joined ", ".toList (sorted untagged.dedup) ++ "); these objects restore without tags".toList

/-- remove the file at the end of a walk, if there is one -/
def unlinkAt (d : Disk FileData) (p : Path × List Str) : Disk FileData :=
  match d.walk fits p.1 p.2 with
  | none => d
  | some q => if d.isFile q then d.remove q else d

def S3SourceConfig.component (cfg : S3SourceConfig) (path : Option (Path × List Str))
    (warnings : List Str) (error : Option Str) : StagedComponent :=
  ⟨cfg.name, "s3".toList, path, warnings, error⟩

/-- `td` is the name of the temporary directory in `staging` -/
def S3SourceConfig.produce (cfg : S3SourceConfig) (d : Disk FileData) (staging : Path) (td : Str)
    (bucket : Bucket) : Disk FileData × StagedComponent :=
  match d.mkdirs fits [] staging with
  | none => (d, cfg.component none [] (some osError))
  | some d =>
    let stage := staging ++ [td]
    match cfg.fill staging stage (d.put stage .dir) bucket with
    | (d, .error reason) =>
      -- what was put outside the temporary directory stays
      (unlinkAt (d.remove stage) (cfg.out staging),
        cfg.component none [] (some ("s3 mirror failed: ".toList ++ reason)))
    | (d, .ok (objects, untagged)) =>
      (d.remove stage, cfg.component (some (cfg.out staging))
        (if untagged = [] then [] else [untaggedWarning untagged objects.length]) none)

/-! ## restore -/

def unreserved (c : Char) : Bool :=
  c.isAlphanum || c = '_' || c = '.' || c = '-' || c = '~'

def hexDigit (n : ℕ) : Char := "0123456789ABCDEF".toList.getD n '0'

def quote (s : Str) : Str :=
  s.flatMap fun c =>
    if unreserved c then [c]
    else (String.utf8EncodeChar c).flatMap fun b => ['%', hexDigit (b.toNat / 16), hexDigit (b.toNat % 16)]

def urlencode (tags : List (Str × Str)) : Str :=
  joined ['&'] (tags.map fun t => quote t.1 ++ '=' :: quote t.2)

/-- a call of `put_object` -/
structure Put where
  key : Str
  body : FileData
  /-- the content headers, by their parameters -/
  headers : List (Str × Str)
  metadata : List (Str × Str)
  tagging : Option Str

/-- a text that is empty counts as none -/
def present (v : Option (Option Str)) : Option Str :=
  match v with
  | some (some s) => if s = [] then none else some s
  | _ => none

def putOf (e : S3Entry) (body : FileData) : Put where
  key := e.key
  body := body
  headers := contentHeaders.filterMap fun h => (present (e.fields.lookup h.1)).map (h.2, ·)
  metadata := e.metadata
  tagging := match e.tags with
    | none => none
    | some tags => if tags = [] then none else some (urlencode tags)

def restoreOne (d : Disk FileData) (objectsDir : Path) (e : S3Entry) : Option Put :=
  let src := at_ objectsDir e.key
  (d.read fits src.1 src.2).map (putOf e)

/-- the calls, in the order of the entries; none where a file cannot be read -/
def restoreObjects (d : Disk FileData) (stagedDir : Path) : Option (List Put) :=
  match d.read fits stagedDir [metadataName] with
  | some (.s3 m) => m.objects.mapM (restoreOne d (stagedDir ++ [objectsName]))
  | _ => none

end BackupHelper
