import BackupHelper.Runner

/-!
# The `prune` command

Retention on demand, over the data dir only: every job's own snapshots by its own policy.

* `prunePlan`     the snapshots in the data dir and their markers, read once;
* `pruneTarget`   the loop body, for one job;
* `prune`         the command: what it echoes, and how it ends.
-/

namespace BackupHelper
open Text Calendar

/-- the options of the command -/
structure PruneArgs where
  /-- overrides `count` -/
  keep : Option ℤ
  dryRun : Bool
  job : Option Str
  now : Datetime

def unlinkAll : List Str → M (Except Exc Unit)
  | [] => pure (.ok ())
  | name :: names => do
    match ← unlink name with
    | .error e => pure (.error e)
    | .ok () => unlinkAll names

/-- the files of one snapshot, in the order of the directory -/
def unlinkSnapshot (env : Env) (sid : Str) : M (Except Exc Unit) := do
  let names ← glob (sid ++ ".*".toList)
  unlinkAll (env.iter names)

def pruneLine (dryRun : Bool) (sid : Str) : Str :=
  (if dryRun then "would prune ".toList else "pruning ".toList) ++ sid

def pruneSnapshots (env : Env) (dryRun : Bool) : List Str → M (Except Exc Unit × List Str)
  | [] => pure (.ok (), [])
  | sid :: rest => do
    match ← (if dryRun then pure (.ok ()) else unlinkSnapshot env sid) with
    | .error e => pure (.error e, [pruneLine dryRun sid])
    | .ok () => do
      let (r, lines) ← pruneSnapshots env dryRun rest
      pure (r, pruneLine dryRun sid :: lines)

def PruneArgs.retention (a : PruneArgs) (target : Job) : RetentionConfig :=
  match a.keep with
  | none => target.retention
  | some keep => { target.retention with count := keep }

structure PrunePlan where
  sids : List Str
  marked : List (Str × Str)

def prunePlan : M PrunePlan := do
  let manifests ← glob ('*' :: manifestSuffix)
  let marked ← pendingOwners
  pure ⟨sorted (manifests.map (fun m => m.take (m.length - manifestSuffix.length))), marked⟩

/-- what the policy of `target` selects of the snapshots that it owns -/
def PrunePlan.prunable (plan : PrunePlan) (jobs : List Job) (a : PruneArgs) (target : Job) :
    Except Exc (List Str) :=
  let mine := plan.sids.filter
    (fun s => (scopeFor jobs target).owns s localPlace (plan.marked.lookup s))
  selectPrunable (snapshotsAt a.now mine) (a.retention target) a.now

def pruneTarget (env : Env) (jobs : List Job) (a : PruneArgs) (plan : PrunePlan) (target : Job) :
    M (Except Exc Unit × List Str) :=
  match plan.prunable jobs a target with
  | .error e => pure (.error e, [])
  | .ok prunable => pruneSnapshots env a.dryRun (sorted prunable)

def pruneTargets (env : Env) (jobs : List Job) (a : PruneArgs) (plan : PrunePlan) :
    List Job → M (Except Exc Unit × List Str)
  | [] => pure (.ok (), [])
  | target :: targets => do
    let (r, lines) ← pruneTarget env jobs a plan target
    match r with
    | .error e => pure (.error e, lines)
    | .ok () => do
      let (r, more) ← pruneTargets env jobs a plan targets
      pure (r, lines ++ more)

def PruneArgs.targets (a : PruneArgs) (jobs : List Job) : List Job :=
  jobs.filter (fun j => a.job = none ∨ a.job = some j.name)

def prune (env : Env) (jobs : List Job) (a : PruneArgs) : M (Except Exc Unit × List Str) :=
  if jobs.isEmpty then pure (.ok (), ["no jobs configured".toList])
  else if (a.targets jobs).isEmpty then
    pure (.error ⟨"Exit".toList, "1".toList⟩,
      ["no job named ".toList ++ env.repr (a.job.getD []) ++ " configured".toList])
  else do
    let plan ← prunePlan
    pruneTargets env jobs a plan (a.targets jobs)

end BackupHelper
