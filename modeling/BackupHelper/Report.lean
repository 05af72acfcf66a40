import BackupHelper.Archive.Manifest
import BackupHelper.Lib.Calendar

/-!
# What a run reports: result, alert, run record

The alert's duration comes from a monotonic clock and is left out.
-/

namespace BackupHelper
open Text Calendar

structure JobResult where
  status : Status
  snapshotId : Str
  /-- the archive in the data dir, if it is there at the end -/
  archive : Option Str
  totalBytes : ℕ
  components : List Component
  errors : List Str
deriving DecidableEq

structure AlertEvent where
  status : Status
  title : Str
  message : Str
  instance_ : Str
  snapshotId : Str
  job : Str
  totalBytes : ℕ
  errors : List Str
deriving DecidableEq

/-- the outcome of one run of one job, for the healthcheck -/
structure RunRecord where
  job : Str
  snapshotId : Str
  status : Status
  startedAt : Datetime
  failedComponents : List Str

def Status.text : Status → Str
  | .success => "success".toList
  | .warning => "warning".toList
  | .error => "error".toList

def isStateChar (c : Char) : Bool :=
  ('A' ≤ c && c ≤ 'Z') || ('a' ≤ c && c ≤ 'z') || ('0' ≤ c && c ≤ '9') || c == '.' || c == '_' ||
    c == '-'

/-- the state file of a job's record -/
def jobFile (job : Str) : Str :=
  let safe := job.map (fun c => if isStateChar c then c else '_')
  "job-".toList ++ (if safe = [] then ['_'] else safe) ++ ".json".toList

/-- the outcome of one run -/
def jobStatus (components : List Component) (errors : List Str) (stored : Bool) : Status :=
  if ¬ stored ∨ components.any (·.failed) then .error
  else if errors = [] then .success
  else .warning

/-- the alert message: one fixed text per outcome -/
def outcome (status : Status) (components : List Component) (stored : Bool) : Str :=
  if ¬ stored then "snapshot was not stored on any destination".toList
  else if components.any (·.failed) then "snapshot is incomplete - a component failed".toList
  else if status = .warning then "snapshot completed with warnings".toList
  else "snapshot completed".toList

def event (job instance_ sid : Str) (status : Status) (totalBytes : ℕ) (errors : List Str)
    (message : Str) : AlertEvent where
  status := status
  title := "backup ".toList ++ status.text
  message := message
  instance_ := instance_
  snapshotId := sid
  job := job
  totalBytes := totalBytes
  errors := errors

end BackupHelper
