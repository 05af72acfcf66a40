import BackupHelper.Archive.Bundle
import BackupHelper.Archive.Manifest

/-!
# What sources work with

A source writes files into a staging directory and answers with the components it staged.  A file is
known by what was written into it: a text that the engine writes as JSON by its value, an archive by
its members, anything else by its bytes.

* `FileData`           the content of a file, or the target of a symbolic link;
* `at_ base text`      `base / text`: where a walk starts, and its names;
* `fits`               the names that the file system takes.
-/

namespace BackupHelper
open Text Files

/-- what the S3 mirror records of an object -/
structure S3Entry where
  key : Str
  size : ℕ
  metadata : List (Str × Str)
  storageClass : Option Str
  etag : Option Str
  /-- none where the store refuses to hand them out -/
  tags : Option (List (Str × Str))
  /-- the content headers, by the names they are recorded under -/
  fields : List (Str × Option Str)
  deriving DecidableEq

structure S3Manifest where
  bucket : Str
  prefix_ : Str
  objectCount : ℕ
  objects : List S3Entry
  deriving DecidableEq

inductive FileData where
  | bytes (b : Bytes)
  /-- a symbolic link -/
  | link (target : Str)
  /-- `metadata.json` of an S3 mirror -/
  | s3 (m : S3Manifest)
  /-- `<name>.json` of an env snapshot -/
  | env (vars : List (Str × Str))
  /-- `manifest.json` -/
  | manifest (m : Manifest)
  | targz (members : List (List Str × Node FileData))

/-- at most 255 bytes in UTF-8, none of them zero -/
def fits (s : Str) : Bool := (s.map (·.utf8Size)).sum ≤ 255 && !(s.contains '\x00')

/-- `base / text`: an absolute text replaces the base -/
def at_ (base : Path) (text : Str) : Path × List Str :=
  (if ['/'].isPrefixOf text then [] else base, parts '/' text)

/-- one artifact that a source staged, or failed to -/
structure StagedComponent where
  name : Str
  kind : Str
  path : Option (Path × List Str)
  /-- `metadata["warnings"]` -/
  warnings : List Str := []
  error : Option Str := none

end BackupHelper
