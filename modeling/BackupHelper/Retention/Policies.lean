import BackupHelper.Snapshots
import Mathlib.Data.List.AList

/-!
# The four retention policies

Each policy selects ids of a list of snapshots, to prune or to keep:

* `Count.selectPrunable`   all but the newest `keep` by id;
* `Age.selectPrunable`     older than `now - ageDays`, which may lie before the calendar begins;
* `Gfs.selectKeep`         the newest of the newest days, ISO weeks and months;
* `Smart.protectedLast`    the newest of all.
-/

namespace BackupHelper
open Text Calendar

/-- a backup snapshot: its sortable id and the time it was taken -/
structure Snapshot where
  id : Str
  when_ : Datetime
deriving DecidableEq

/-- a bucket of snapshots; tuples of integers, compared entry by entry -/
abbrev BucketKey := List ℕ

namespace Count

def selectPrunable (snapshots : List Snapshot) (keep : ℤ) : List Str :=
  if keep ≤ 0 then []
  else ((snapshots.insertionSort (fun s t => t.id ≤ s.id)).drop keep.toNat).map (·.id)

end Count

namespace Age

def selectPrunable (snapshots : List Snapshot) (maxAgeDays : ℕ) (now : Datetime) :
    Except Exc (List Str) :=
  if maxAgeDays ≤ 0 then .ok []
  else
    match now.subDays maxAgeDays with
    | none => .error ⟨"OverflowError".toList, "date value out of range".toList⟩
    | some cutoff => .ok ((snapshots.filter (fun s => s.when_.Before cutoff)).map (·.id))

end Age

namespace Gfs

/-- one turn of the loop over `newest_in_bucket` -/
def note (bucket : Snapshot → BucketKey) (newest : AList (fun _ : BucketKey => Snapshot))
    (snap : Snapshot) : AList (fun _ : BucketKey => Snapshot) :=
  match newest.lookup (bucket snap) with
  | none => newest.insert (bucket snap) snap
  | some current => if current.id < snap.id then newest.insert (bucket snap) snap else newest

/-- the snapshot with the greatest id of each bucket -/
def newestInBucket (bucket : Snapshot → BucketKey) (snapshots : List Snapshot) :
    AList (fun _ : BucketKey => Snapshot) :=
  snapshots.foldl (note bucket) ∅

def keepForTier (snapshots : List Snapshot) (count : ℕ) (bucket : Snapshot → BucketKey) :
    List Str :=
  if count ≤ 0 then []
  else
    let newest := newestInBucket bucket snapshots
    let keptBuckets := (newest.keys.insertionSort (fun a b => b ≤ a)).take count
    keptBuckets.filterMap (fun key => (newest.lookup key).map (·.id))

def daily (s : Snapshot) : BucketKey :=
  [yearOf s.when_.day, monthOf s.when_.day, dayOf s.when_.day]

def weekly (s : Snapshot) : BucketKey :=
  [(isoYearWeek s.when_.day).1, (isoYearWeek s.when_.day).2]

def monthly (s : Snapshot) : BucketKey := [yearOf s.when_.day, monthOf s.when_.day]

def selectKeep (snapshots : List Snapshot) (gfs : GFSConfig) : List Str :=
  keepForTier snapshots gfs.daily daily ++ keepForTier snapshots gfs.weekly weekly ++
    keepForTier snapshots gfs.monthly monthly

end Gfs

namespace Smart

def protectedLast (snapshots : List Snapshot) : List Str :=
  match (snapshots.map (·.id)).max? with
  | none => []
  | some m => [m]

end Smart

/-- `(count ∪ age) - gfs - smart`, each id once -/
def selectPrunable (snapshots : List Snapshot) (cfg : RetentionConfig) (now : Datetime) :
    Except Exc (List Str) :=
  let countPrunable := Count.selectPrunable snapshots cfg.count
  match Age.selectPrunable snapshots cfg.ageDays now with
  | .error e => .error e
  | .ok agePrunable =>
    let gfsKeep := Gfs.selectKeep snapshots cfg.gfs
    let smartProtected := if cfg.smartLast then Smart.protectedLast snapshots else []
    .ok ((countPrunable ++ agePrunable).dedup.filter
      (fun s => s ∉ gfsKeep ∧ s ∉ smartProtected))

end BackupHelper
