import BackupHelper.Destinations.Local
import BackupHelper.Destinations.S3Destination
import BackupHelper.Runner.Names

/-!
# The destinations and the store that runs work on

A run works on a `World`: the data dir and every bucket are maps from names to contents, and a put or a
delete under a fault leaves what the fault says.  Here this is seen as a store under keys, and every run of
the two destinations, with whatever fails in them, is one of its runs.

* `engine`             a destination of a `World`, asked as the others are;
* `full`               whatever a store may do it does under some fault;
* `local_simulated`    **files below a root**;
* `s3_simulated`       **objects of a bucket**.
-/

namespace BackupHelper
open Text Files KeyStore

/-- a write that raised left bytes that are nothing the engine reads -/
def TornContent (_ c : Content) : Prop := ∃ b, c = .raw b

section
variable (env : Env) (d : Dest)

def verdict : Except Exc Unit → Ans Content
  | .ok _ => .done
  | .error _ => .failed

def answerKeys : Except Exc (List Str) → Ans Content
  | .ok l => .keys l
  | .error _ => .failed

def valueOf : Option Content → Ans Content
  | some c => .value c
  | none => .failed

/-- a destination of a world; what is there is read off -/
def engine : Machine Content Fault World where
  ask r f w :=
    match r with
    | .put k c => (verdict (env.effect (.put d k (.work c)) f w).1, (env.effect (.put d k (.work c)) f w).2)
    | .get k =>
      match f with
      | .calm => (valueOf (w.get (d.loc env) (d.pre ++ k)), w)
      | .raise _ _ => (.failed, w)
    | .list pfx => (answerKeys (env.effect (.listKeys d pfx) f w).1, (env.effect (.listKeys d pfx) f w).2)
    | .delete k => (verdict (env.effect (.delete d k) f w).1, (env.effect (.delete d k) f w).2)
    | .holds k =>
      match f with
      | .calm => (.yes (w.get (d.loc env) (d.pre ++ k)).isSome, w)
      | .raise _ _ => (.failed, w)
  view w k := w.get (d.loc env) (d.pre ++ k)

variable {env d}

theorem view_write (w : World) (k : Str) (c : Content) :
    (engine env d).view (w.write (d.loc env) (d.pre ++ k) c) = Function.update ((engine env d).view w) k (some c) := by
  funext k'
  by_cases hk : k' = k
  · rw [hk, Function.update_self]
    exact w.get_write _ _ c
  · rw [Function.update_of_ne hk]
    exact w.get_write_ne c fun he => hk (List.append_cancel_left (Prod.mk.inj he).2)

theorem view_erase (w : World) (k : Str) :
    (engine env d).view (w.erase (d.loc env) (d.pre ++ k)) = Function.update ((engine env d).view w) k none := by
  funext k'
  by_cases hk : k' = k
  · rw [hk, Function.update_self]
    exact w.get_erase _ _
  · rw [Function.update_of_ne hk]
    exact w.get_erase_ne fun he => hk (List.append_cancel_left (Prod.mk.inj he).2)

theorem listing_strict (w : World) (pfx : Str) : (w.listing env d pfx).Pairwise (· < ·) := by
  refine sorted_strict (List.Nodup.map_on ?_ ((w.files (d.loc env)).keys_nodup.filter _))
  intro k hk k' hk' he
  have hbelow : ∀ {k}, k ∈ (w.files (d.loc env)).keys.filter (fun k => (d.pre ++ pfx).isPrefixOf k) →
      ∃ t, k = d.pre ++ (pfx ++ t) := by
    intro k hk
    obtain ⟨t, rfl⟩ := List.isPrefixOf_iff_prefix.mp (List.mem_filter.mp hk).2
    exact ⟨t, List.append_assoc ..⟩
  obtain ⟨t, rfl⟩ := hbelow hk
  obtain ⟨t', rfl⟩ := hbelow hk'
  rw [cut_append, cut_append] at he
  rw [he]

/-- some exception -/
def someError : Exc := ⟨"OSError".toList, []⟩

theorem full : (engine env d).Full TornContent := by
  intro w r a s' h
  cases h with
  | put k c => exact ⟨.calm, rfl, view_write w k c⟩
  | @get k c h =>
    have hget : w.get (d.loc env) (d.pre ++ k) = some c := h
    refine ⟨.calm, ?_, rfl⟩
    show valueOf (w.get (d.loc env) (d.pre ++ k)) = .value c
    rw [hget]
    rfl
  | @list pfx l hl hmem =>
    refine ⟨.calm, ?_, rfl⟩
    show Ans.keys (w.listing env d pfx) = .keys l
    have hsame : w.listing env d pfx = l := by
      refine keys_unique (listing_strict w pfx) hl fun x => ?_
      rw [World.mem_listing, hmem, Option.isSome_iff_ne_none]
      exact Iff.rfl
    rw [hsame]
  | delete k => exact ⟨.calm, rfl, view_erase w k⟩
  | holds k => exact ⟨.calm, rfl, rfl⟩
  | failed r =>
    refine ⟨.raise someError .untouched, ?_⟩
    cases r with
    | put k c => exact ⟨rfl, rfl⟩
    | get k => exact ⟨rfl, rfl⟩
    | list pfx => exact ⟨rfl, rfl⟩
    | delete k => exact ⟨rfl, rfl⟩
    | holds k => exact ⟨rfl, rfl⟩
  | putLate k c => exact ⟨.raise someError .whole, rfl, view_write w k c⟩
  | putTorn k ht =>
    obtain ⟨b, rfl⟩ := ht
    exact ⟨.raise someError (.torn b), rfl, view_write w k (.raw b)⟩
  | deleteLate k => exact ⟨.raise someError .whole, rfl, view_erase w k⟩

/-- torn, these bytes are nothing that the engine reads -/
def Unread (content : Bytes → Content) (b : Bytes) : Prop :=
  ∀ b', b' <+: b → content b' = content b ∨ ∃ x, content b' = .raw x

/-- **Files below a root.**  Whatever fails, a run of a local destination is a run of the store that the
engine's runs work on, with the same answers; no file outside of the root is touched. -/
theorem local_simulated (env : Env) (content : Bytes → Content) {root : Path}
    (hroot : ∀ s ∈ root, LocalDestination.Name s) (qs : List (Req Bytes × LocalDestination.Fault))
    (hqs : ∀ q ∈ qs, LocalDestination.Keyed q.1) (hwhole : ∀ q ∈ qs, ∀ k b, q.1 = .put k b → Unread content b)
    {disk : Disk Bytes} (hdisk : LocalDestination.Tidy disk) {w : World}
    (hw : (engine env .local).view w = (LocalDestination.view root disk).through content) :
    let run := (LocalDestination.machine root).run qs disk
    LocalDestination.Tidy run.2 ∧ LocalDestination.FilesKept root disk run.2 ∧
      ∃ qs' : List (Req Content × Fault), qs'.map (·.1) = qs.map (fun q => q.1.map content) ∧
        ((engine env .local).run qs' w).1 = run.1.map (·.map content) ∧
        (engine env .local).view ((engine env .local).run qs' w).2 =
          (LocalDestination.view root run.2).through content := by
  have hsound := LocalDestination.sound hroot
  have hseen : ∀ q ∈ qs, Seen (fun b b' => b' <+: b) TornContent content q.1 := by
    intro q hq
    cases hr : q.1 with
    | put k b => exact hwhole q hq k b hr
    | _ => trivial
  obtain ⟨htidy, -⟩ := hsound.runs hqs hdisk
  refine ⟨htidy, LocalDestination.filesKept_run hroot hqs hdisk, ?_⟩
  exact simulated hsound full hqs hseen hdisk hw

/-! ## a data dir -/

def dataDisk : Disk Bytes := ⟨[(["data".toList], .dir)]⟩

theorem tidy_dataDisk : LocalDestination.Tidy dataDisk := by
  have hnode : ∀ q, q ≠ [] → q ≠ ["data".toList] → dataDisk.node q = none := by
    intro q hnil hne
    have hbeq : (q == ["data".toList]) = false := by simpa using hne
    unfold dataDisk Disk.node
    rw [if_neg hnil, List.lookup_cons, hbeq]
    rfl
  have honly : ∀ q s, dataDisk.node (q ++ [s]) ≠ none → q = [] ∧ s = "data".toList := by
    intro q s hn
    by_contra hne
    refine hn (hnode _ (by simp) fun he => hne ?_)
    obtain ⟨hq, hs⟩ := List.append_inj' (show q ++ [s] = [] ++ ["data".toList] from he) rfl
    exact ⟨hq, List.singleton_inj.mp hs⟩
  refine ⟨fun q s hn => ?_, fun q s hn => ?_⟩
  · rw [(honly q s hn).1]
    exact Disk.isDir_nil _
  · rw [(honly q s hn).2]
    exact ⟨⟨by decide, by decide, by decide, by decide⟩, by decide⟩

theorem name_data : ∀ s ∈ ["data".toList], LocalDestination.Name s := by
  intro s hs
  rw [List.mem_singleton.mp hs]
  exact ⟨by decide, by decide, by decide, by decide⟩

theorem nothing_dataDisk (k : Str) : LocalDestination.view ["data".toList] dataDisk k = none := by
  unfold LocalDestination.view
  split
  · rename_i hk
    cases hparts : parts '/' k with
    | nil => exact absurd hparts hk.1
    | cons s r => rfl
  · rfl

/-- the second archive is torn -/
def twoPuts : List (Req Bytes × LocalDestination.Fault) :=
  [(.put "a.tar.gz".toList [1, 2, 3], .calm), (.put "b.tar.gz".toList [4, 5], .copied 1), (.list [], .calm),
    (.delete "a.tar.gz".toList, .calm), (.holds "a.tar.gz".toList, .calm)]

theorem local_simulated_twoPuts : ∃ qs' : List (Req Content × Fault),
    ((engine plainEnv .local).run qs' (worldOf [])).1 =
      [.done, .failed, .keys ["a.tar.gz".toList, "b.tar.gz".toList], .done, .yes false] := by
  have hempty : (engine plainEnv .local).view (worldOf []) =
      (LocalDestination.view ["data".toList] dataDisk).through .raw := by
    funext k
    rw [Map.through, nothing_dataDisk]
    rfl
  have hkeyed : ∀ q ∈ twoPuts, LocalDestination.Keyed q.1 := by
    intro q hq
    unfold twoPuts at hq
    simp only [List.mem_cons, List.not_mem_nil, or_false] at hq
    obtain rfl | rfl | rfl | rfl | rfl := hq
    · exact (by decide : LocalDestination.canonical "a.tar.gz".toList)
    · exact (by decide : LocalDestination.canonical "b.tar.gz".toList)
    · trivial
    · exact (by decide : LocalDestination.canonical "a.tar.gz".toList)
    · exact (by decide : LocalDestination.canonical "a.tar.gz".toList)
  obtain ⟨-, -, qs', -, hanswers, -⟩ := local_simulated plainEnv .raw name_data twoPuts hkeyed
    (fun q _ k b _ b' _ => Or.inr ⟨b', rfl⟩) tidy_dataDisk hempty
  refine ⟨qs', hanswers.trans ?_⟩
  have hrun : ((LocalDestination.machine ["data".toList]).run twoPuts dataDisk).1 =
      [.done, .failed, .keys ["a.tar.gz".toList, "b.tar.gz".toList], .done, .yes false] := by decide +kernel
  rw [hrun]
  rfl

/-! ## the other one -/

/-- **Objects of a bucket.**  Whatever fails or is lost, so that it is tried again, a run of an S3 destination
is a run of the store that the engine's runs work on, with the same answers; no object of the service is
touched whose key does not begin with the prefix. -/
theorem s3_simulated {E : Type} [DecidableEq E] (etag : ℕ → ℕ → Bytes → E) (pg : S3Destination.Pager)
    (cfg : S3Upload.S3DestinationConfig) (hsize : 0 < cfg.multipartChunkSize) (env : Env) (d : Dest)
    (content : Bytes → Content) (qs : List (Req Bytes × List (Option S3Destination.Loss)))
    (hqs : ∀ q ∈ qs, S3Destination.Honest q) (s : S3Destination.Service) {w : World}
    (hw : (engine env d).view w = (S3Destination.view cfg s).through content) :
    let run := (S3Destination.machine etag pg cfg).run qs s
    S3Destination.OthersKept cfg s run.2 ∧
      ∃ qs' : List (Req Content × Fault), qs'.map (·.1) = qs.map (fun q => q.1.map content) ∧
        ((engine env d).run qs' w).1 = run.1.map (·.map content) ∧
        (engine env d).view ((engine env d).run qs' w).2 = (S3Destination.view cfg run.2).through content := by
  -- nothing is torn
  have hsound := S3Destination.sound etag pg cfg (fun _ _ => False) hsize
  have hseen : ∀ q ∈ qs, Seen (fun _ _ => False) TornContent content q.1 := by
    intro q _
    cases q.1 with
    | put k b => exact fun b' hb' => absurd hb' id
    | _ => trivial
  exact ⟨S3Destination.othersKept_run etag pg cfg qs s, simulated hsound full hqs hseen trivial hw⟩

/-! ## a bucket with another object -/

def onePage : S3Destination.Pager := ⟨fun l => [l], fun l => by simp⟩

def sharedBucket : S3Destination.Service :=
  ⟨AList.insert ("b".toList, "other".toList) [9] ∅, fun _ => none, 0⟩

def busy : S3Upload.Err := ⟨"503".toList, true⟩

def prefixed : S3Upload.S3DestinationConfig := ⟨"b".toList, "p/".toList, 2, 2⟩

theorem nothing_prefixed (k : Str) : S3Destination.view prefixed sharedBucket k = none := by
  have hne : prefixed.place k ≠ ("b".toList, "other".toList) := by
    intro he
    have hkey : "p/".toList ++ k = "other".toList := (Prod.mk.inj he).2
    exact absurd (List.cons.inj hkey).1 (by decide)
  show AList.lookup (prefixed.place k) (AList.insert ("b".toList, "other".toList) [9] ∅) = none
  rw [AList.lookup_insert_ne hne]
  rfl

/-- of an upload in parts, of a listing and of a delete a call fails or its answer is lost -/
def lostAnswers : List (Req Bytes × List (Option S3Destination.Loss)) :=
  [(.put "k".toList [1, 2, 3], [some (.lost busy), none, some (.lost busy)]), (.list [], [some (.refused busy)]),
    (.get "k".toList, []), (.delete "k".toList, [some (.lost busy)]), (.holds "k".toList, [])]

theorem s3_simulated_lostAnswers : ∃ qs' : List (Req Content × Fault),
    ((engine plainEnv (.s3 ⟨[], "b".toList, "p/".toList⟩)).run qs' (worldOf [])).1 =
      [.done, .keys ["k".toList], .value (.raw [1, 2, 3]), .failed, .yes false] := by
  have hempty : (engine plainEnv (.s3 ⟨[], "b".toList, "p/".toList⟩)).view (worldOf []) =
      (S3Destination.view prefixed sharedBucket).through .raw := by
    funext k
    rw [Map.through, nothing_prefixed]
    rfl
  obtain ⟨-, qs', -, hanswers, -⟩ := s3_simulated (fun id number _ => (id, number)) onePage prefixed (by decide)
    plainEnv (.s3 ⟨[], "b".toList, "p/".toList⟩) .raw lostAnswers (fun q hq k hk l hl => by
      unfold lostAnswers at hq
      simp only [List.mem_cons, List.not_mem_nil, or_false] at hq
      obtain rfl | rfl | rfl | rfl | rfl := hq
      · cases hk
      · cases hk
      · cases hk
      · cases hk
      · cases hl) sharedBucket hempty
  refine ⟨qs', hanswers.trans ?_⟩
  have hrun : ((S3Destination.machine (fun id number _ => (id, number)) onePage prefixed).run lostAnswers
      sharedBucket).1 = [.done, .keys ["k".toList], .value [1, 2, 3], .failed, .yes false] := by decide +kernel
  rw [hrun]
  rfl

end
end BackupHelper
