import BackupHelper.Destinations.Store
import BackupHelper.Retention.Policies
import BackupHelper.Snapshots

/-!
# The runner: one job from its bundle to its retention

`runJob` delivers a bundle to every destination of the job, keeps the off-site copies complete,
prunes every destination by the job's policy and drops the local copy where the job keeps none.
Each step returns the texts that it appends to the errors of the run.

* `upload`, `deliver`               put archive and manifest to the destinations;
* `trackOffsite`, `maybeDropLocal`  pending markers, and the local copy;
* `applyRetention`                  prune the job's own snapshots on one destination;
* `runJob`                          the run, with its abort path, record and alert.
-/

namespace BackupHelper
open Text Calendar

/-- an archive to upload: its file name and the file to read -/
structure Artifact where
  name : Str
  src : Src

def tarSuffix : Str := ".tar.gz".toList

/-! ## delivery -/

def buildDestinations (env : Env) : List DestinationSpec → M (List Dest × List Str)
  | [] => pure ([], [])
  | .local :: specs => do
    let (destinations, errors) ← buildDestinations env specs
    pure (.local :: destinations, errors)
  | .s3 c :: specs =>
    -- an S3 target with no bucket is simply not configured
    if c.bucket = [] then buildDestinations env specs
    else do
      let built ← build c
      let (destinations, errors) ← buildDestinations env specs
      match built with
      | .ok () => pure (.s3 c :: destinations, errors)
      | .error e =>
        pure (destinations,
          ("s3 destination ".toList ++ env.repr c.bucket ++ " unavailable: ".toList ++ e.reason) ::
            errors)

/-- archive and sidecar to one destination -/
def uploadTo (dest : Dest) (artifact : Artifact) (sidecar : Src) (sid : Str) :
    M (Except Exc Unit) := do
  match ← put dest artifact.name artifact.src with
  | .error e => pure (.error e)
  | .ok () => put dest (sid ++ manifestSuffix) sidecar

/-- the destinations that stored BOTH, and the errors of the others -/
def upload (artifact : Artifact) (sidecar : Src) (sid : Str) : List Dest → M (List Dest × List Str)
  | [] => pure ([], [])
  | dest :: dests => do
    let put ← uploadTo dest artifact sidecar sid
    let (stored, errors) ← upload artifact sidecar sid dests
    match put with
    | .ok () => pure (dest :: stored, errors)
    | .error e => pure (stored, ("upload failed: ".toList ++ e.reason) :: errors)

structure Delivery where
  /-- built from the job's own specs -/
  destinations : List Dest
  /-- every destination that stored this snapshot -/
  stored : List Dest
  /-- set when the data dir only stood in -/
  fallback : Option Dest

def keptText : Str :=
  ("no destination stored the snapshot — kept it in the local data" ++
    " dir until an off-site destination is reachable again").toList

def deliver (env : Env) (job : Job) (artifact : Artifact) (sidecar : Src) (sid : Str) :
    M (Delivery × List Str) := do
  let (built, failures) ← buildDestinations env job.destinations
  let destinations := if built = [] ∧ failures = [] then [.local] else built
  let (stored, uploadErrors) ← upload artifact sidecar sid destinations
  if stored = [] ∧ ¬ destinations.any (·.isLocal) then do
    let (stored, fallbackErrors) ← upload artifact sidecar sid [.local]
    pure (⟨destinations, stored, some .local⟩,
      failures ++ uploadErrors ++ fallbackErrors ++ (if stored = [] then [] else [keptText]))
  else pure (⟨destinations, stored, none⟩, failures ++ uploadErrors)

/-! ## off-site copies -/

def readOwners : List Str → M (List (Str × Str))
  | [] => pure []
  | marker :: markers => do
    let owner ← readMarker marker
    let owners ← readOwners markers
    match owner with
    | some job => pure ((marker.take (marker.length - pendingSuffix.length), job) :: owners)
    | none => pure owners

/-- snapshot id and the job its off-site pending marker names -/
def pendingOwners : M (List (Str × Str)) := do
  let markers ← glob ('*' :: pendingSuffix)
  readOwners markers

/-- snapshots of this job that are in the data dir but not yet off-site -/
def pendingIds (jobName : Str) : M (List Str) := do
  let owners ← pendingOwners
  pure ((owners.filter (fun o => o.2 = jobName)).map (·.1))

def findArtifact (sid : Str) : M (Option Str) := do
  let found ← glob (sid ++ tarSuffix ++ ['*'])
  pure found.head?

/-- go on unless an exception was raised -/
def orRaise (p : M (Except Exc Unit)) (q : M (Except Exc Unit × List Str)) :
    M (Except Exc Unit × List Str) := do
  match ← p with
  | .error e => pure (.error e, [])
  | .ok () => q

def shipPending (keepsLocal : Bool) (offsite : List Dest) :
    List Str → M (Except Exc Unit × List Str)
  | [] => pure (.ok (), [])
  | pending :: rest => do
    let marker := pending ++ pendingSuffix
    let sidecar := pending ++ manifestSuffix
    let artifact ← findArtifact pending
    let there ← isThere sidecar
    match artifact, there with
    | some artifact, true => do
      let (stored, failures) ← upload ⟨artifact, .data artifact⟩ (.data sidecar) pending offsite
      if stored.length < offsite.length then do
        -- stays pending, retried on the next run
        let (r, errors) ← shipPending keepsLocal offsite rest
        pure (r, failures.map (fun f => "pending snapshot ".toList ++ pending ++ ": ".toList ++ f) ++
          errors)
      else
        orRaise (unlink marker) <|
          if keepsLocal then shipPending keepsLocal offsite rest
          else
            orRaise (unlink artifact) <| orRaise (unlink sidecar) <|
              shipPending keepsLocal offsite rest
    | _, _ =>
      -- pruned or removed in the meantime
      orRaise (unlink marker) (shipPending keepsLocal offsite rest)

def hasLocal (specs : List DestinationSpec) : Bool := .local ∈ specs

def trackOffsite (job : Job) (sid : Str) (delivery : Delivery) :
    M (Except Exc Unit × List Str) :=
  let offsite := delivery.stored.filter (fun d => !d.isLocal)
  if offsite = [] then
    if job.offsite ≠ [] ∧ delivery.stored ≠ [] then
      orRaise (writeMarker (sid ++ pendingSuffix) job.name) (pure (.ok (), []))
    else pure (.ok (), [])
  else do
    let pending ← pendingIds job.name
    shipPending (job.keepLocal && hasLocal job.destinations) offsite pending

def dropLaterText (job : Job) : Str :=
  if job.offsite ≠ [] then
    (" — kept the local copy; the next run that reaches an off-site" ++
      " destination uploads it").toList
  else " (no S3 bucket configured) — kept the local copy".toList

/-- `keepLocal = false`: drop the local copy, but only once an off-site destination has actually
stored THIS snapshot -/
def maybeDropLocal (job : Job) (artifactName sid : Str) (stored : List Dest) :
    M (Except Exc Unit × List Str) :=
  if job.keepLocal ∨ ¬ hasLocal job.destinations then pure (.ok (), [])
  else if ¬ stored.any (·.isLocal) then pure (.ok (), [])
  else if ¬ stored.any (fun d => !d.isLocal) then
    pure (.ok (),
      ["keep_local is false but no off-site destination stored the snapshot".toList ++
        dropLaterText job])
  else
    orRaise (unlink artifactName) <| orRaise (unlink (sid ++ manifestSuffix)) <| pure (.ok (), [])

/-! ## retention -/

def place : Dest → Str
  | .local => localPlace
  | .s3 c => s3Place c

/-- when a snapshot was taken, from its id; `fallback` for an id the engine did not generate -/
def parseSnapshotTimestamp (sid : Str) (fallback : Datetime) : Datetime :=
  ((parseSnapshotId sid).1).getD fallback

/-- the ids of a listing: only top-level artifacts are snapshots -/
def snapshotIds (keys : List Str) : List Str :=
  sorted (keys.filterMap (fun k => if '/' ∈ k then none else stem manifestSuffix k)).dedup

def SnapshotScope.mine (scope : SnapshotScope) (only : Option (List Str)) (place : Str)
    (marked : List (Str × Str)) (sids : List Str) : List Str :=
  sids.filter (fun s =>
    match only with
    | some ids => s ∈ ids
    | none => scope.owns s place (marked.lookup s))

def snapshotsAt (now : Datetime) (sids : List Str) : List Snapshot :=
  sids.map (fun s => ⟨s, parseSnapshotTimestamp s now⟩)

def deleteKeys (dest : Dest) : List Str → M (Except Exc Unit)
  | [] => pure (.ok ())
  | key :: keys => do
    match ← delete dest key with
    | .error e => pure (.error e)
    | .ok () => deleteKeys dest keys

def pruneIds (dest : Dest) : List Str → M (Except Exc Unit)
  | [] => pure (.ok ())
  | pruned :: rest => do
    match ← listKeys dest (pruned ++ ['.']) with
    | .error e => pure (.error e)
    | .ok keys =>
      match ← deleteKeys dest keys with
      | .error e => pure (.error e)
      | .ok () => pruneIds dest rest

/-- the markers that decide ownership of plain ids on `dest` -/
def markedFor (dest : Dest) : M (List (Str × Str)) :=
  if place dest = localPlace then pendingOwners else pure []

/-- one pass of retention, up to the first call that raises -/
def retentionPass (env : Env) (dest : Dest) (cfg : RetentionConfig) (now : Datetime)
    (scope : SnapshotScope) (only : Option (List Str)) : M (Except Exc Unit) := do
  let marked ← markedFor dest
  match ← listKeys dest [] with
  | .error e => pure (.error e)
  | .ok keys =>
    let mine := scope.mine only (place dest) marked (snapshotIds keys)
    match selectPrunable (snapshotsAt now mine) cfg now with
    | .error e => pure (.error e)
    | .ok prunable => pruneIds dest (env.iter prunable)

/-- prune the job's own snapshots on `dest`, or only the ids in `only` -/
def applyRetention (env : Env) (cfg : RetentionConfig) (now : Datetime) (scope : SnapshotScope)
    (only : Option (List Str)) (dest : Dest) : M (List Str) := do
  match ← retentionPass env dest cfg now scope only with
  | .ok () => pure []
  | .error e => pure ["retention failed: ".toList ++ e.reason]

def applyRetentions (env : Env) (cfg : RetentionConfig) (now : Datetime) (scope : SnapshotScope) :
    List Dest → M (List Str)
  | [] => pure []
  | dest :: dests => do
    let errors ← applyRetention env cfg now scope none dest
    let more ← applyRetentions env cfg now scope dests
    pure (errors ++ more)

/-- only this job's own fallback copies, never the whole data dir -/
def fallbackRetention (env : Env) (job : Job) (now : Datetime) (scope : SnapshotScope) :
    Option Dest → M (List Str)
  | none => pure []
  | some dest => do
    let pending ← pendingIds job.name
    applyRetention env job.retention now scope (some pending) dest

/-! ## the run -/

def notStoredText : Str :=
  "snapshot was not stored on any destination — this run left no copy".toList

/-- delivery, off-site tracking, retention and the drop: the errors, and the exception that ended
it early if there was one -/
def storePhase (env : Env) (job : Job) (scope : SnapshotScope) (now : Datetime)
    (artifact : Artifact) (sidecar : Src) (sid : Str) : M (Except Exc Delivery × List Str) := do
  let (delivery, delivered) ← deliver env job artifact sidecar sid
  let delivered := if delivery.stored = [] then delivered ++ [notStoredText] else delivered
  let (tracked, tracking) ← trackOffsite job sid delivery
  match tracked with
  | .error e => pure (.error e, delivered ++ tracking)
  | .ok () => do
    let pruning ← applyRetentions env job.retention now scope delivery.destinations
    let fallback ← fallbackRetention env job now scope delivery.fallback
    let (dropped, dropping) ← maybeDropLocal job artifact.name sid delivery.stored
    pure (dropped.map (fun _ => delivery), delivered ++ tracking ++ pruning ++ fallback ++ dropping)

/-- what `pre_backup`, the sources, the bundle and the encryption came to -/
structure Made where
  components : List Component
  errors : List Str
  archive : Bytes
  /-- the mode that the archive was encrypted in; a failed encryption leaves it plain -/
  encrypted : EncryptionMode

def encryptSuffix : EncryptionMode → Str
  | .none => []
  | .age => ".age".toList
  | .gpg => ".gpg".toList

def archiveName (sid : Str) (e : EncryptionMode) : Str := sid ++ tarSuffix ++ encryptSuffix e

/-- an exception on the way there, with the components and errors so far -/
structure Raised where
  exc : Exc
  taken : Taken
  components : List Component
  errors : List Str

/-- the part of a path after its last slash -/
def fileName (path : Str) : Str := (path.reverse.takeWhile (· ≠ '/')).reverse

def pad6 (n : ℕ) : Str := pad2 (n / 10000) ++ pad4 n

/-- `isoformat` of a time in UTC -/
def isoformat (t : Datetime) : Str :=
  pad4 (yearOf t.day) ++ '-' :: pad2 (monthOf t.day) ++ '-' :: pad2 (dayOf t.day) ++ 'T' ::
    pad2 t.hour ++ ':' :: pad2 t.minute ++ ':' :: pad2 t.second ++
    (if t.micro % 1000000 = 0 then [] else '.' :: pad6 (t.micro % 1000000)) ++ "+00:00".toList

structure RunArgs where
  job : Job
  scope : SnapshotScope
  instance_ : Str
  now : Datetime
  /-- an id that the caller chose -/
  snapshotId : Option Str
  notifier : Bool
  hooks : Bool

/-- an empty id counts as none -/
def RunArgs.sid (a : RunArgs) : Str :=
  match a.snapshotId with
  | none => a.scope.newId a.now
  | some [] => a.scope.newId a.now
  | some s => s

def RunArgs.manifest (env : Env) (a : RunArgs) (made : Made) : Manifest :=
  Manifest.build a.sid a.instance_ made.components (isoformat a.now) (some (env.sha256 made.archive))

def RunArgs.artifact (a : RunArgs) (made : Made) : Artifact :=
  ⟨fileName (archiveName a.sid made.encrypted), .work (.raw made.archive)⟩

def recordState (a : RunArgs) (status : Status) (components : List Component) :
    M (Except Exc Unit) :=
  record ⟨a.job.name, a.sid, status, a.now, (components.filter (·.failed)).map (·.name)⟩

/-- the run must not fail silently: an error alert, then the exception goes on -/
def tellAbort (a : RunArgs) (r : Raised) : M (Except Exc JobResult) := do
  let errors := r.errors ++
    ["run aborted: ".toList ++ r.exc.type ++ ": ".toList ++ r.exc.reason]
  let _ ← recordState a .error r.components
  if a.notifier then do
    let _ ← notify (event a.job.name a.instance_ a.sid .error 0 errors
      "run aborted before it finished".toList)
    pure (.error r.exc)
  else pure (.error r.exc)

/-- the `except Exception` of a run: the text is asked for before record and alert -/
def abort (a : RunArgs) (r : Raised) : M (Except Exc JobResult) :=
  match r.taken with
  | .described => tellAbort a r
  | .wordless e => pure (.error e)
  | .passing => pure (.error r.exc)

theorem abort_cases (a : RunArgs) (r : Raised) : abort a r = tellAbort a r ∨ ∃ e, abort a r = pure (.error e) := by
  unfold abort
  cases r.taken with
  | described => exact Or.inl rfl
  | wordless e => exact Or.inr ⟨e, rfl⟩
  | passing => exact Or.inr ⟨r.exc, rfl⟩

def ifHooks (a : RunArgs) (phase : Str) : M (Except Exc Unit) :=
  if a.hooks then hook phase else pure (.ok ())

def ifNotifier (a : RunArgs) (e : AlertEvent) : M (Except Exc Unit) :=
  if a.notifier then notify e else pure (.ok ())

/-- after the work dir is gone: result, record, alert and the `post_backup` hook -/
def finish (a : RunArgs) (made : Made) (manifest : Manifest) (delivery : Delivery)
    (errors : List Str) : M (Except Exc JobResult) := do
  let stored : Bool := delivery.stored ≠ []
  let status := jobStatus made.components errors stored
  let name := (a.artifact made).name
  let there ← isThere name
  let result : JobResult := ⟨status, a.sid, if there then some name else none, manifest.totalBytes,
    made.components, errors⟩
  let _ ← recordState a status made.components
  match ← ifNotifier a (event a.job.name a.instance_ a.sid status manifest.totalBytes errors
    (outcome status made.components stored)) with
  | .error e => pure (.error e)
  | .ok () =>
    match ← ifHooks a "post_backup".toList with
    | .error e => pure (.error e)
    | .ok () => pure (.ok result)

/-- run a job once; `made` is what its sources, bundling and encryption come to -/
def runJob (env : Env) (a : RunArgs) (made : Except Raised Made) : M (Except Exc JobResult) := do
  match ← mkdirs with
  | .error e => pure (.error e)
  | .ok () =>
    match ← ifHooks a "pre_backup".toList with
    | .error e => abort a ⟨e, env.taken e, [], []⟩
    | .ok () =>
      match made with
      | .error r => abort a r
      | .ok made => do
        let manifest := a.manifest env made
        let (r, errors) ← storePhase env a.job a.scope a.now (a.artifact made)
          (.work (.manifest manifest)) a.sid
        match r with
        | .error e => abort a ⟨e, .described, made.components, made.errors ++ errors⟩
        | .ok delivery => finish a made manifest delivery (made.errors ++ errors)

end BackupHelper
