import BackupHelper.Config.Models
import Mathlib.Algebra.GroupWithZero.Nat

/-!
# The self-describing manifest

A `Component` is the unit every source produces; a `Manifest` lists the components of a snapshot
and, in the sidecar, the hash of the whole archive.
-/

namespace BackupHelper
open Text

abbrev Bytes := List UInt8

structure Component where
  name : Str
  kind : Str
  size : ℕ
  sha256 : Str
  error : Option Str := none
  /-- `metadata["warnings"]`, each as text -/
  warnings : List Str := []
deriving DecidableEq

/-- a failed component: an empty error text counts as none -/
def Component.failed (c : Component) : Bool :=
  match c.error with
  | none => false
  | some e => e ≠ []

inductive Status where
  | success
  | warning
  | error
deriving DecidableEq

/-- how complete a snapshot's content is -/
def snapshotStatus (components : List Component) : Status :=
  if components.any (·.failed) then .error
  else if components.any (fun c => c.warnings ≠ []) then .warning
  else .success

structure Manifest where
  snapshotId : Str
  instanceName : Str
  createdAt : Str
  status : Status
  totalBytes : ℕ
  archiveSha256 : Option Str
  components : List Component
deriving DecidableEq

def Manifest.build (snapshotId instanceName : Str) (components : List Component) (createdAt : Str)
    (archiveSha256 : Option Str) : Manifest where
  snapshotId := snapshotId
  instanceName := instanceName
  createdAt := createdAt
  status := snapshotStatus components
  totalBytes := (components.map (·.size)).sum
  archiveSha256 := archiveSha256
  components := components

def manifestSuffix : Str := ".manifest.json".toList

end BackupHelper
