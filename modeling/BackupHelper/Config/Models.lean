import BackupHelper.Lib.Text

/-!
# The parts of the configuration that a run reads

A `Job` bundles destinations, retention and encryption; `keepLocal = false` asks for the local copy
to be dropped once an off-site destination has stored the snapshot.  A key that the config leaves
out, or gives as null, is the empty string here: the code tests `bucket`, `endpoint` and `prefix`
for truth only.
-/

namespace BackupHelper
open Text

/-- an exception, by its type and the text that the errors of a run show of it -/
structure Exc where
  type : Str
  reason : Str
deriving DecidableEq

/-- what a handler of `Exception` that asks for its text makes of an exception -/
inductive Taken where
  /-- its text can be had -/
  | described
  /-- its `__str__` raises `e` in the handler -/
  | wordless (e : Exc)
  /-- it is no `Exception` and passes the handler -/
  | passing
deriving DecidableEq

/-- the keys of an `s3` destination that decide where its objects go -/
structure S3Spec where
  endpoint : Str
  bucket : Str
  prefix_ : Str
deriving DecidableEq

/-- a destination: only `local` and `s3` exist -/
inductive DestinationSpec where
  | local
  | s3 (spec : S3Spec)
deriving DecidableEq

/-- keep-counts of the grandfather-father-son tiers; `0` disables a tier -/
structure GFSConfig where
  daily : ℕ := 0
  weekly : ℕ := 0
  monthly : ℕ := 0
deriving DecidableEq

structure RetentionConfig where
  /-- `<= 0` means keep everything -/
  count : ℤ := 14
  /-- `0` disables age-based pruning -/
  ageDays : ℕ := 0
  gfs : GFSConfig := {}
  smartLast : Bool := true
deriving DecidableEq

inductive EncryptionMode where
  | none
  | age
  | gpg
deriving DecidableEq

/-- a number of hours: the microseconds that it comes to, or no finite number -/
inductive Hours where
  | finite (micros : ℤ)
  | boundless
deriving DecidableEq

structure Job where
  name : Str := "main".toList
  destinations : List DestinationSpec := [.local]
  keepLocal : Bool := true
  retention : RetentionConfig := {}
  encryption : EncryptionMode := .none
  healthcheckMaxAge : Option Hours := none

/-- the `s3` destinations with a bucket: an `s3` entry without one is not configured -/
def DestinationSpec.offsite? : DestinationSpec → Option S3Spec
  | .local => none
  | .s3 c => if c.bucket = [] then none else some c

def Job.offsite (job : Job) : List S3Spec := job.destinations.filterMap DestinationSpec.offsite?

end BackupHelper
