import BackupHelper.Report
import BackupHelper.Lib.Prog
import BackupHelper.Lib.Glob
import Mathlib.Data.List.AList

/-!
# The stores a run works on, and the operations on them

The data dir and every bucket are finite maps from names to contents (`World`).  A destination is
the data dir or a key prefix of a bucket; two endpoint texts may lead to one server (`Env.site`).
An operation (`Op`) succeeds under the fault `calm`; under `raise e r` it raises `e` and leaves what
`r` says: a put or a write that raises may have had no effect, all of it, or have left torn bytes.
The work dir of a run (`.work/<id>`) is no part of the data dir's map: it holds no snapshot.

* `Env.step`      what an operation does, with a note of it in the log;
* `Op.target`     the one name whose content an operation may change (`get_effect`);
* `mem_listing`   the keys that a destination lists.
-/

namespace BackupHelper
open Text Glob Effects Calendar

/-- the content of a file, as far as the engine reads it -/
inductive Content where
  | raw (b : Bytes)
  | manifest (m : Manifest)
  /-- `{"job": job}` -/
  | marker (job : Str)
deriving DecidableEq

abbrev Files := AList (fun _ : Str => Content)

/-- a bucket of a server -/
abbrev Site := Str × Str

/-- where names live: the data dir (top-level and nested names alike) or a bucket -/
inductive Loc where
  | data
  | bucket (site : Site)
deriving DecidableEq

/-- a built destination -/
inductive Dest where
  | local
  | s3 (cfg : S3Spec)
deriving DecidableEq

def Dest.isLocal : Dest → Bool
  | .local => true
  | .s3 _ => false

/-- what a destination puts in front of its keys -/
def Dest.pre : Dest → Str
  | .local => []
  | .s3 c => c.prefix_

/-- the file that a put reads -/
inductive Src where
  | work (c : Content)
  | data (name : Str)

inductive Op where
  | mkdirs
  | hook (phase : Str)
  | build (c : S3Spec)
  | put (d : Dest) (key : Str) (src : Src)
  | listKeys (d : Dest) (pfx : Str)
  | delete (d : Dest) (key : Str)
  /-- names in the data dir that match a pattern -/
  | glob (pat : Str)
  | isThere (name : Str)
  | readMarker (name : Str)
  | writeMarker (name job : Str)
  | unlink (name : Str)
  | record (r : RunRecord)
  | notify (e : AlertEvent)

def Res : Op → Type
  | .listKeys _ _ => Except Exc (List Str)
  | .glob _ => List Str
  | .isThere _ => Bool
  | .readMarker _ => Option Str
  | _ => Except Exc Unit

/-- what the engine relies on and its source does not decide -/
structure Env where
  /-- the bucket that an endpoint and a bucket name lead to -/
  site : Str → Str → Site
  sha256 : Bytes → Str
  /-- a text in quotes, as the interpreter shows it -/
  repr : Str → Str
  /-- the order in which a set of ids is iterated -/
  iter : List Str → List Str
  iter_perm : ∀ l, (iter l).Perm l
  /-- operations taken never to fail -/
  sure : Op → Bool
  /-- what a handler makes of an exception of a hook; the engine's own operations raise `Exception`s
  with a text -/
  taken : Exc → Taken := fun _ => .described

def Dest.loc (env : Env) : Dest → Loc
  | .local => .data
  | .s3 c => .bucket (env.site c.endpoint c.bucket)

def isOk {α : Type} : Except Exc α → Bool
  | .ok _ => true
  | .error _ => false

/-- whether an operation returned -/
def Op.returned : (o : Op) → Res o → Bool
  | .listKeys _ _, r => @isOk (List Str) r
  | .glob _, _ => true
  | .isThere _, _ => true
  | .readMarker _, _ => true
  | .mkdirs, r => @isOk Unit r
  | .hook _, r => @isOk Unit r
  | .build _, r => @isOk Unit r
  | .put _ _ _, r => @isOk Unit r
  | .delete _ _, r => @isOk Unit r
  | .writeMarker _ _, r => @isOk Unit r
  | .unlink _, r => @isOk Unit r
  | .record _, r => @isOk Unit r
  | .notify _, r => @isOk Unit r

inductive Residue where
  | untouched
  | whole
  | torn (b : Bytes)

inductive Fault where
  | calm
  | raise (e : Exc) (r : Residue)

structure World where
  files : Loc → Files
  /-- what the notifier was handed -/
  alerts : List AlertEvent
  /-- the state files -/
  runs : AList (fun _ : Str => RunRecord)
  /-- the operations so far, each with whether it returned -/
  log : List (Op × Bool)

/-! ## the maps -/

namespace World

def get (w : World) (l : Loc) (k : Str) : Option Content := (w.files l).lookup k

def write (w : World) (l : Loc) (k : Str) (c : Content) : World :=
  { w with files := Function.update w.files l ((w.files l).insert k c) }

def erase (w : World) (l : Loc) (k : Str) : World :=
  { w with files := Function.update w.files l ((w.files l).erase k) }

/-- the operation `e.1` was performed and returned if `e.2` -/
def note (w : World) (e : Op × Bool) : World := { w with log := w.log ++ [e] }

@[simp] theorem get_note (w : World) (e : Op × Bool) (l : Loc) (k : Str) :
    (w.note e).get l k = w.get l k := rfl

theorem get_write (w : World) (l : Loc) (k : Str) (c : Content) : (w.write l k c).get l k = some c := by
  simp [get, write]

theorem get_write_ne (w : World) {l l' : Loc} {k k' : Str} (c : Content) (h : (l', k') ≠ (l, k)) :
    (w.write l k c).get l' k' = w.get l' k' := by
  unfold get write
  by_cases hl : l' = l
  · subst hl
    have hk : k' ≠ k := fun e => h (by rw [e])
    simp [AList.lookup_insert_ne hk]
  · simp [Function.update_of_ne hl]

theorem get_erase (w : World) (l : Loc) (k : Str) : (w.erase l k).get l k = none := by
  simp [get, erase]

theorem get_erase_ne (w : World) {l l' : Loc} {k k' : Str} (h : (l', k') ≠ (l, k)) :
    (w.erase l k).get l' k' = w.get l' k' := by
  unfold get erase
  by_cases hl : l' = l
  · subst hl
    have hk : k' ≠ k := fun e => h (by rw [e])
    simp [AList.lookup_erase_ne hk]
  · simp [Function.update_of_ne hl]

/-- what a write that raised leaves of `c` -/
def leave (w : World) (l : Loc) (k : Str) (c : Content) : Residue → World
  | .untouched => w
  | .whole => w.write l k c
  | .torn b => w.write l k (.raw b)

/-- the keys below a destination's prefix that begin with `pfx`, without that prefix, sorted -/
def listing (w : World) (env : Env) (d : Dest) (pfx : Str) : List Str :=
  sorted (((w.files (d.loc env)).keys.filter (fun k => (d.pre ++ pfx).isPrefixOf k)).map (cut d.pre))

theorem mem_listing {w : World} {env : Env} {d : Dest} {pfx x : Str} :
    x ∈ w.listing env d pfx ↔ pfx <+: x ∧ (w.get (d.loc env) (d.pre ++ x)).isSome := by
  unfold listing get
  rw [mem_sorted, List.mem_map]
  constructor
  · rintro ⟨k, hk, rfl⟩
    obtain ⟨hmem, hpre⟩ := List.mem_filter.mp hk
    obtain ⟨t, rfl⟩ := List.isPrefixOf_iff_prefix.mp hpre
    rw [List.append_assoc, cut_append]
    refine ⟨List.prefix_append pfx t, ?_⟩
    rw [List.append_assoc] at hmem
    exact AList.lookup_isSome.mpr hmem
  · rintro ⟨⟨t, rfl⟩, hs⟩
    refine ⟨d.pre ++ (pfx ++ t), List.mem_filter.mpr ⟨AList.lookup_isSome.mp hs, ?_⟩, cut_append _ _⟩
    exact List.isPrefixOf_iff_prefix.mpr ⟨t, by simp⟩

/-- the names right in the data dir that match `pat`, sorted -/
def globbed (w : World) (pat : Str) : List Str :=
  sorted ((w.files .data).keys.filter (fun k => '/' ∉ k ∧ fnmatch pat k))

theorem mem_globbed {w : World} {pat x : Str} :
    x ∈ w.globbed pat ↔ (w.get .data x).isSome ∧ free '/' x ∧ fnmatch pat x = true := by
  unfold globbed get
  rw [mem_sorted, List.mem_filter, decide_eq_true_eq, AList.lookup_isSome]
  exact Iff.rfl

/-- the content that a put reads -/
def content (w : World) : Src → Option Content
  | .work c => some c
  | .data name => w.get .data name

end World

/-! ## the operations -/

/-- answer of an operation that has none but to have raised or not -/
def Fault.answer : Fault → Except Exc Unit
  | .calm => .ok ()
  | .raise e _ => .error e

def missing : Exc := ⟨"FileNotFoundError".toList, "No such file or directory".toList⟩

/-- the state after writing `c` -/
def World.put (w : World) (l : Loc) (k : Str) (c : Content) : Fault → World
  | .calm => w.write l k c
  | .raise _ r => w.leave l k c r

/-- the state after removing a name -/
def World.remove (w : World) (l : Loc) (k : Str) : Fault → World
  | .calm => w.erase l k
  | .raise _ .untouched => w
  | .raise _ _ => w.erase l k

def Env.effect (env : Env) : (o : Op) → Fault → World → Res o × World
  | .mkdirs, f, w => (f.answer, w)
  | .hook _, f, w => (f.answer, w)
  | .build _, f, w => (f.answer, w)
  | .put d key src, f, w =>
    match w.content src with
    | none => (.error missing, w)
    | some c => (f.answer, w.put (d.loc env) (d.pre ++ key) c f)
  | .listKeys d pfx, f, w => (f.answer.map (fun _ => w.listing env d pfx), w)
  | .delete d key, f, w => (f.answer, w.remove (d.loc env) (d.pre ++ key) f)
  | .glob pat, _, w => (w.globbed pat, w)
  | .isThere name, _, w => ((w.get .data name).isSome, w)
  | .readMarker name, _, w =>
    (match w.get .data name with
     | some (.marker job) => some job
     | _ => none, w)
  | .writeMarker name job, f, w => (f.answer, w.put .data name (.marker job) f)
  | .unlink name, f, w => (f.answer, w.remove .data name f)
  | .record r, f, w =>
    (f.answer, match f with
      | .calm => { w with runs := w.runs.insert (jobFile r.job) r }
      | .raise _ _ => w)
  | .notify e, f, w =>
    (f.answer, match f with
      | .calm => { w with alerts := w.alerts ++ [e] }
      | .raise _ _ => w)

/-- the one name whose content an operation may change -/
def Op.target (env : Env) : Op → Option (Loc × Str)
  | .put d key _ => some (d.loc env, d.pre ++ key)
  | .delete d key => some (d.loc env, d.pre ++ key)
  | .writeMarker name _ => some (.data, name)
  | .unlink name => some (.data, name)
  | _ => none

theorem get_put_ne (w : World) {l l' : Loc} {k k' : Str} (c : Content) (f : Fault)
    (h : (l', k') ≠ (l, k)) : (w.put l k c f).get l' k' = w.get l' k' := by
  cases f with
  | calm => exact w.get_write_ne c h
  | raise e r =>
    cases r with
    | untouched => rfl
    | whole => exact w.get_write_ne c h
    | torn b => exact w.get_write_ne _ h

theorem get_remove_ne (w : World) {l l' : Loc} {k k' : Str} (f : Fault) (h : (l', k') ≠ (l, k)) :
    (w.remove l k f).get l' k' = w.get l' k' := by
  cases f with
  | calm => exact w.get_erase_ne h
  | raise e r => cases r <;> first | rfl | exact w.get_erase_ne h

theorem effect_put_none {env : Env} {d : Dest} {key : Str} {src : Src} {w : World} (f : Fault)
    (h : w.content src = none) : env.effect (.put d key src) f w = (.error missing, w) := by
  simp only [Env.effect, h]

theorem effect_put_some {env : Env} {d : Dest} {key : Str} {src : Src} {w : World} {c : Content}
    (f : Fault) (h : w.content src = some c) :
    env.effect (.put d key src) f w = (f.answer, w.put (d.loc env) (d.pre ++ key) c f) := by
  simp only [Env.effect, h]
  rfl

/-- **An operation changes no name but its target.** -/
theorem get_effect (env : Env) (o : Op) (f : Fault) (w : World) {l : Loc} {k : Str}
    (h : o.target env ≠ some (l, k)) : (env.effect o f w).2.get l k = w.get l k := by
  have hne : ∀ {p : Loc × Str}, o.target env = some p → (l, k) ≠ p := by
    rintro p hp rfl
    exact h hp
  cases o with
  | put d key src =>
    cases hc : w.content src with
    | none => rw [effect_put_none f hc]
    | some c =>
      rw [effect_put_some f hc]
      exact get_put_ne w c f (hne rfl)
  | delete d key => exact get_remove_ne w f (hne rfl)
  | writeMarker name job => exact get_put_ne w _ f (hne rfl)
  | unlink name => exact get_remove_ne w f (hne rfl)
  | record r => cases f <;> rfl
  | notify e => cases f <;> rfl
  | _ => rfl

def Env.step (env : Env) (o : Op) (f : Fault) (w : World) : Res o × World :=
  let r := env.effect o (if env.sure o then .calm else f) w
  (r.1, r.2.note (o, o.returned r.1))

/-! ## programs of the engine -/

abbrev M := Prog Op Res

def build (c : S3Spec) : M (Except Exc Unit) := .op (Op.build c) .ret
def put (d : Dest) (key : Str) (src : Src) : M (Except Exc Unit) := .op (Op.put d key src) .ret
def listKeys (d : Dest) (pfx : Str) : M (Except Exc (List Str)) := .op (Op.listKeys d pfx) .ret
def delete (d : Dest) (key : Str) : M (Except Exc Unit) := .op (Op.delete d key) .ret
def glob (pat : Str) : M (List Str) := .op (Op.glob pat) .ret
def isThere (name : Str) : M Bool := .op (Op.isThere name) .ret
def readMarker (name : Str) : M (Option Str) := .op (Op.readMarker name) .ret
def writeMarker (name job : Str) : M (Except Exc Unit) := .op (Op.writeMarker name job) .ret
def unlink (name : Str) : M (Except Exc Unit) := .op (Op.unlink name) .ret
def hook (phase : Str) : M (Except Exc Unit) := .op (Op.hook phase) .ret
def mkdirs : M (Except Exc Unit) := .op Op.mkdirs .ret
def record (r : RunRecord) : M (Except Exc Unit) := .op (Op.record r) .ret
def notify (e : AlertEvent) : M (Except Exc Unit) := .op (Op.notify e) .ret

end BackupHelper
