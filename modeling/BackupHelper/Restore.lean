import BackupHelper.Archive.Manifest
import BackupHelper.Lib.Prog

/-!
# Restoring a snapshot

`restoreSnapshot` passes the gates (hydration, artifact and manifest, the recorded hash, the
selection, decryption, extraction, the `pre_restore` hook), then replays the selected components into
their sources and calls the `post_restore` hook.  What each operation answers is left open: a
behaviour is a function from operations to answers, as every operation is asked at most once.

A failing component is to leave the others alone, but its handler catches `Exception` only and asks
for the text, which may raise again.

* `restoreSnapshot`     the command, `gates` and `replay` its two halves;
* `Closed`              a gate does not open;
* `due`                 the components that are replayed, each with its source;
* `Gated`               the gates hold as a whole, and the components do not stop each other;
* `restore_is_gated`    **the behaviours under which they do**.
-/

namespace BackupHelper
open Text Effects

/-- an exception, and what a handler makes of it -/
structure Thrown where
  exc : Exc
  taken : Taken := .described
deriving DecidableEq

/-- a value of the config, or the name that a plugin gives its component -/
inductive SpecValue where
  | text (s : Str)
  /-- another value that can be a key; `truthy`: it counts as true -/
  | other (truthy : Bool)
  /-- asking for its hash raises `e`, as of a list -/
  | unhashable (e : Exc) (truthy : Bool)
deriving DecidableEq

def SpecValue.truthy : SpecValue → Bool
  | .text s => s ≠ []
  | .other t => t
  | .unhashable _ t => t

def SpecValue.hash : SpecValue → Except Exc Unit
  | .unhashable e _ => .error e
  | _ => .ok ()

structure SourceSpec where
  type : Str
  /-- the other keys -/
  extra : List (Str × SpecValue)
deriving DecidableEq

/-- the value under a key; one that counts as false counts as none -/
def SourceSpec.get (spec : SourceSpec) (key : Str) : Option SpecValue :=
  (spec.extra.lookup key).filter SpecValue.truthy

/-- the name of a source that cannot be built -/
def SourceSpec.fallbackName (spec : SourceSpec) : SpecValue :=
  match spec.get "name".toList with
  | some name => name
  | none =>
    if spec.type ∈ ["postgres".toList, "mariadb".toList, "mysql".toList] then
      (spec.get "database".toList <|> spec.get "db".toList).getD (.text "database".toList)
    else .text spec.type

/-- the name that a source gives its component; `built` tells it of a source, or why that cannot be
built -/
def specComponentName (built : SourceSpec → Except Thrown SpecValue) (spec : SourceSpec) :
    Except Exc SpecValue :=
  match built spec with
  | .ok name => .ok name
  | .error t => if t.taken = .passing then .error t.exc else .ok spec.fallbackName

structure RestoreArgs where
  jobName : Str
  sources : List SourceSpec
  identityFile : Option Str
  /-- the selected names; empty: no selection -/
  only : List Str
  hooks : Bool
  built : SourceSpec → Except Thrown SpecValue

/-- `specs`: what making the table of the sources by their names raises -/
def RestoreArgs.specs (a : RestoreArgs) : Except Exc Unit :=
  a.sources.forM fun s => do
    let name ← specComponentName a.built s
    name.hash

/-- `specs.get(name)`: of several sources of one name the last -/
def RestoreArgs.spec (a : RestoreArgs) (name : Str) : Option SourceSpec :=
  a.sources.reverse.find? (fun s => specComponentName a.built s = .ok (.text name))

/-- why `decrypt` raised -/
inductive DecryptFailure where
  | encryption (reason : Str)
  | other (e : Exc)

inductive RestoreOp where
  | hydrate
  | findArtifact
  | sidecarThere
  | readManifest
  | sha256 (artifact : Str)
  | decrypt (mode : EncryptionMode) (artifact : Str)
  | extract
  | hook (phase : Str)
  | build (spec : SourceSpec)
  | extractNested (name : Str)
  | restore (spec : SourceSpec) (name : Str)
deriving DecidableEq

def RestoreRes : RestoreOp → Type
  | .findArtifact => Option Str
  | .sidecarThere => Bool
  | .readManifest => Except Exc Manifest
  | .sha256 _ => Except Exc Str
  | .decrypt _ _ => Except DecryptFailure Unit
  | .build _ => Except Thrown Unit
  | .extractNested _ => Except Thrown Unit
  | .restore _ _ => Except Thrown Unit
  | _ => Except Exc Unit

abbrev R := Prog RestoreOp RestoreRes

/-- what every operation answers -/
abbrev Behaviour := (o : RestoreOp) → RestoreRes o

/-! ## the gates -/

/-- the component of a name: of several the last -/
def Manifest.byName (m : Manifest) (name : Str) : Option Component :=
  m.components.reverse.find? (fun c => c.name = name)

/-- `name` can be restored: it is in the snapshot, holds data and has a source -/
def RestoreArgs.restorable (a : RestoreArgs) (m : Manifest) (name : Str) : Bool :=
  match m.byName name with
  | none => false
  | some c => !c.failed && (a.spec name).isSome

def RestoreArgs.onlyIsRestorable (a : RestoreArgs) (m : Manifest) : Bool :=
  a.only.all (a.restorable m)

/-- `Path.suffix` is `ext` -/
def hasExtension (ext name : Str) : Bool := ext.isSuffixOf name && ext.length < name.length

def needsIdentity : DecryptFailure := .encryption "set encryption.identity_file".toList

/-- decrypt by the suffix of the artifact, whatever mode the job encrypts with today -/
def decryptIfNeeded (a : RestoreArgs) (artifact : Str) : R (Except DecryptFailure Unit) :=
  if hasExtension ".age".toList artifact then
    match a.identityFile with
    | none => pure (.error needsIdentity)
    | some [] => pure (.error needsIdentity)
    | some _ => .op (.decrypt .age artifact) .ret
  else if hasExtension ".gpg".toList artifact then .op (.decrypt .gpg artifact) .ret
  else pure (.ok ())

/-- whether the artifact has the recorded hash; without a recorded one it is not asked for -/
def checkSha256 (artifact : Str) (m : Manifest) : R (Except Exc Bool) :=
  match m.archiveSha256 with
  | none => pure (.ok true)
  | some [] => pure (.ok true)
  | some h => do
    let found ← Prog.op (.sha256 artifact) .ret
    pure (Except.map (fun x => decide (x = h)) found)

/-- up to the extraction of the bundle: the manifest, or what the command ends with -/
def gates (a : RestoreArgs) : R (Except (Except Exc Bool) Manifest) := do
  match ← (Prog.op .hydrate .ret : R (Except Exc Unit)) with
  | .error e => pure (.error (.error e))
  | .ok () =>
    match ← (Prog.op .findArtifact .ret : R (Option Str)) with
    | none => pure (.error (.ok false))
    | some artifact =>
      match ← (Prog.op .sidecarThere .ret : R Bool) with
      | false => pure (.error (.ok false))
      | true =>
        match ← (Prog.op .readManifest .ret : R (Except Exc Manifest)) with
        | .error e => pure (.error (.error e))
        | .ok m =>
          match ← checkSha256 artifact m with
          | .error e => pure (.error (.error e))
          | .ok false => pure (.error (.ok false))
          | .ok true =>
            match a.specs with
            | .error e => pure (.error (.error e))
            | .ok () =>
              if a.only ≠ [] ∧ ¬ a.onlyIsRestorable m then pure (.error (.ok false))
              else
                match ← decryptIfNeeded a artifact with
                | .error (.encryption _) => pure (.error (.ok false))
                | .error (.other e) => pure (.error (.error e))
                | .ok () =>
                  match ← (Prog.op .extract .ret : R (Except Exc Unit)) with
                  | .error e => pure (.error (.error e))
                  | .ok () => pure (.ok m)

/-! ## the replay -/

def nestedTarKinds : List Str := ["filesystem".toList, "s3".toList]

def envKind : Str := "env".toList

/-- build the source, unpack what it staged as an archive, restore -/
def restoreInto (spec : SourceSpec) (c : Component) : R (Except Thrown Unit) := do
  match ← (Prog.op (.build spec) .ret : R (Except Thrown Unit)) with
  | .error t => pure (.error t)
  | .ok () =>
    if c.kind ∈ nestedTarKinds then
      match ← (Prog.op (.extractNested c.name) .ret : R (Except Thrown Unit)) with
      | .error t => pure (.error t)
      | .ok () => .op (.restore spec c.name) .ret
    else
      -- db dumps live directly in the extracted dir
      .op (.restore spec c.name) .ret

/-- the handler of `_restore_component`: it logs the text of what it catches -/
def Thrown.handled (t : Thrown) : Except Exc Bool :=
  match t.taken with
  | .described => .ok false
  | .wordless e => .error e
  | .passing => .error t.exc

def restoreComponent (spec : SourceSpec) (c : Component) : R (Except Exc Bool) :=
  -- env snapshots are informational; not auto-applied
  if c.kind = envKind then pure (.ok true)
  else do
    match ← restoreInto spec c with
    | .ok () => pure (.ok true)
    | .error t => pure t.handled

/-- whether a component is passed over: it failed at backup time, or is not selected -/
def RestoreArgs.skips (a : RestoreArgs) (c : Component) : Bool :=
  c.failed || (a.only ≠ [] && c.name ∉ a.only)

def replay (a : RestoreArgs) : List Component → R (Except Exc Bool)
  | [] => pure (.ok true)
  | c :: cs =>
    if a.skips c then replay a cs
    else
      match a.spec c.name with
      | none => replay a cs
      | some spec => do
        match ← restoreComponent spec c with
        | .error e => pure (.error e)
        | .ok done => do
          let ok ← replay a cs
          pure (ok.map (done && ·))

def restoreHook (a : RestoreArgs) (phase : Str) : R (Except Exc Unit) :=
  if a.hooks then .op (.hook phase) .ret else pure (.ok ())

def restoreSnapshot (a : RestoreArgs) : R (Except Exc Bool) := do
  match ← gates a with
  | .error r => pure r
  | .ok m =>
    match ← restoreHook a "pre_restore".toList with
    | .error e => pure (.error e)
    | .ok () =>
      match ← replay a m.components with
      | .error e => pure (.error e)
      | .ok ok =>
        match ← restoreHook a "post_restore".toList with
        | .error e => pure (.error e)
        | .ok () => pure (.ok ok)

/-! ## when the gates open -/

/-- a gate up to the extraction of the bundle does not open -/
inductive Closed (b : Behaviour) (a : RestoreArgs) : Prop
  | hydrate (e : Exc) (h : (b .hydrate : Except Exc Unit) = .error e)
  | artifact (h : (b .findArtifact : Option Str) = none)
  | sidecar (h : (b .sidecarThere : Bool) = false)
  | manifest (e : Exc) (h : (b .readManifest : Except Exc Manifest) = .error e)
  /-- the recorded hash is not that of the artifact -/
  | sha256 (x : Str) (m : Manifest) (recorded : Str) (hx : (b .findArtifact : Option Str) = some x)
      (hm : (b .readManifest : Except Exc Manifest) = .ok m) (hr : m.archiveSha256 = some recorded)
      (hne : recorded ≠ []) (h : (b (.sha256 x) : Except Exc Str) ≠ .ok recorded)
  /-- a selected name is not in the snapshot, failed at backup time or has no source -/
  | selection (m : Manifest) (name : Str) (hm : (b .readManifest : Except Exc Manifest) = .ok m)
      (hname : name ∈ a.only)
      (h : ∀ c ∈ m.components, c.name = name → c.failed = true ∨ a.spec name = none)
  | decrypt (x : Str) (f : DecryptFailure) (hx : (b .findArtifact : Option Str) = some x)
      (h : ((decryptIfNeeded a x).run b).1 = .error f)
  | extract (e : Exc) (h : (b .extract : Except Exc Unit) = .error e)

section
variable {b : Behaviour} {a : RestoreArgs}

theorem byName_eq_some {m : Manifest} (hn : (m.components.map (·.name)).Nodup) {name : Str}
    {c : Component} : m.byName name = some c ↔ c ∈ m.components ∧ c.name = name := by
  unfold Manifest.byName
  constructor
  · intro h
    have hc := List.find?_some h
    exact ⟨List.mem_reverse.mp (List.mem_of_find?_eq_some h), of_decide_eq_true hc⟩
  · rintro ⟨hc, rfl⟩
    cases hf : m.components.reverse.find? (fun x => decide (x.name = c.name)) with
    | none =>
      have hnot := List.find?_eq_none.mp hf c (List.mem_reverse.mpr hc)
      exact absurd (decide_eq_true rfl) hnot
    | some x =>
      have hx := List.find?_some hf
      have hmem := List.mem_reverse.mp (List.mem_of_find?_eq_some hf)
      rw [List.inj_on_of_nodup_map hn hmem hc (of_decide_eq_true hx)]

theorem restorable_iff {m : Manifest} (hn : (m.components.map (·.name)).Nodup) (name : Str) :
    a.restorable m name = true ↔
      ∃ c ∈ m.components, c.name = name ∧ c.failed = false ∧ (a.spec name).isSome := by
  unfold RestoreArgs.restorable
  cases hb : m.byName name with
  | none =>
    constructor
    · intro h
      cases h
    · rintro ⟨c, hc, hname, -⟩
      rw [(byName_eq_some hn).mpr ⟨hc, hname⟩] at hb
      cases hb
  | some c =>
    obtain ⟨hc, hname⟩ := (byName_eq_some hn).mp hb
    show (!c.failed && (a.spec name).isSome) = true ↔ _
    rw [Bool.and_eq_true, Bool.not_eq_true']
    constructor
    · rintro ⟨h1, h2⟩
      exact ⟨c, hc, hname, h1, h2⟩
    · rintro ⟨c', hc', hname', h1, h2⟩
      rw [List.inj_on_of_nodup_map hn hc hc' (hname.trans hname'.symm)]
      exact ⟨h1, h2⟩

theorem checkSha256_run (x : Str) (m : Manifest) :
    ((checkSha256 x m).run b).1 = .ok true ↔ ∀ recorded, m.archiveSha256 = some recorded →
      recorded ≠ [] → (b (.sha256 x) : Except Exc Str) = .ok recorded := by
  unfold checkSha256
  cases hr : m.archiveSha256 with
  | none => simp
  | some recorded =>
    cases recorded with
    | nil => simp
    | cons c h =>
      show (Except.map (fun y => decide (y = c :: h)) (b (.sha256 x) : Except Exc Str)) = .ok true ↔ _
      cases (b (.sha256 x) : Except Exc Str) with
      | error e => simp [Except.map]
      | ok y =>
        show Except.ok (decide (y = c :: h)) = .ok true ↔ _
        rw [Except.ok.injEq, decide_eq_true_eq]
        constructor
        · rintro rfl recorded he -
          rw [← Option.some.inj he]
        · intro hall
          exact Except.ok.inj (hall _ rfl (by simp))

/-- every gate opens, and lets `m` pass -/
structure Opened (b : Behaviour) (a : RestoreArgs) (m : Manifest) : Prop where
  hydrate : (b .hydrate : Except Exc Unit) = .ok ()
  specs : a.specs = .ok ()
  sidecar : (b .sidecarThere : Bool) = true
  manifest : (b .readManifest : Except Exc Manifest) = .ok m
  selection : a.only ≠ [] → a.onlyIsRestorable m = true
  artifact : ∃ x, (b .findArtifact : Option Str) = some x ∧
    ((checkSha256 x m).run b).1 = .ok true ∧ ((decryptIfNeeded a x).run b).1 = .ok ()
  extract : (b .extract : Except Exc Unit) = .ok ()

theorem Opened.of_gates {m : Manifest} (h : ((gates a).run b).1 = .ok m) : Opened b a m := by
  unfold gates at h
  simp only [Prog.run_bind] at h
  split at h
  · cases h
  · rename_i hhydrate
    simp only [Prog.run_bind] at h
    split at h
    · cases h
    · rename_i x hartifact
      simp only [Prog.run_bind] at h
      split at h
      · cases h
      · rename_i hsidecar
        simp only [Prog.run_bind] at h
        split at h
        · cases h
        · rename_i m' hmanifest
          simp only [Prog.run_bind] at h
          split at h
          · cases h
          · cases h
          · rename_i hsha
            split at h
            · cases h
            · rename_i hspecs
              split at h
              · cases h
              · rename_i hsel
                simp only [Prog.run_bind] at h
                split at h
                · cases h
                · cases h
                · rename_i hdecrypt
                  simp only [Prog.run_bind] at h
                  split at h
                  · cases h
                  · rename_i hextract
                    obtain rfl := Except.ok.inj h
                    refine ⟨hhydrate, hspecs, hsidecar, hmanifest, fun hne => ?_,
                      ⟨x, hartifact, hsha, hdecrypt⟩, hextract⟩
                    by_contra hno
                    exact hsel ⟨hne, hno⟩

theorem Opened.gates {m : Manifest} (h : Opened b a m) : ((gates a).run b).1 = .ok m := by
  obtain ⟨hhydrate, hspecs, hsidecar, hmanifest, hsel, ⟨x, hartifact, hsha, hdecrypt⟩, hextract⟩ := h
  have hnot : ¬ (a.only ≠ [] ∧ ¬ a.onlyIsRestorable m = true) := fun hc => hc.2 (hsel hc.1)
  have h1 : ((Prog.op .hydrate Prog.ret : R (Except Exc Unit)).run b).1 = .ok () := hhydrate
  have h2 : ((Prog.op .findArtifact Prog.ret : R (Option Str)).run b).1 = some x := hartifact
  have h3 : ((Prog.op .sidecarThere Prog.ret : R Bool).run b).1 = true := hsidecar
  have h4 : ((Prog.op .readManifest Prog.ret : R (Except Exc Manifest)).run b).1 = .ok m := hmanifest
  have h5 : ((Prog.op .extract Prog.ret : R (Except Exc Unit)).run b).1 = .ok () := hextract
  unfold BackupHelper.gates
  simp only [Prog.run_bind, h1, h2, h3, h4, hsha, hspecs, hdecrypt, h5, if_neg hnot, Prog.run_pure]

theorem Opened.not_closed {m : Manifest} (hn : (m.components.map (·.name)).Nodup)
    (h : Opened b a m) : ¬ Closed b a := by
  obtain ⟨hhydrate, -, hsidecar, hmanifest, hsel, ⟨x, hartifact, hsha, hdecrypt⟩, hextract⟩ := h
  intro hc
  cases hc with
  | hydrate e h => exact absurd (h.symm.trans hhydrate) (by simp)
  | artifact h => exact absurd (h.symm.trans hartifact) (by simp)
  | sidecar h => exact absurd (h.symm.trans hsidecar) (by simp)
  | manifest e h => exact absurd (h.symm.trans hmanifest) (by simp)
  | sha256 x' m' recorded hx hm hr hne h =>
    obtain rfl := Option.some.inj (hx.symm.trans hartifact)
    obtain rfl := Except.ok.inj (hm.symm.trans hmanifest)
    exact h ((checkSha256_run x' m').mp hsha recorded hr hne)
  | selection m' name hm hname h =>
    obtain rfl := Except.ok.inj (hm.symm.trans hmanifest)
    have hall := hsel (List.ne_nil_of_mem hname)
    obtain ⟨c, hc, hcn, hok, hspec⟩ :=
      (restorable_iff hn name).mp (List.all_eq_true.mp hall name hname)
    rcases h c hc hcn with h | h
    · rw [h] at hok
      cases hok
    · rw [h] at hspec
      cases hspec
  | decrypt x' f hx h =>
    obtain rfl := Option.some.inj (hx.symm.trans hartifact)
    exact absurd (h.symm.trans hdecrypt) (by simp)
  | extract e h => exact absurd (h.symm.trans hextract) (by simp)

theorem opened_of_not_closed (hspecs : a.specs = .ok ())
    (hn : ∀ m, (b .readManifest : Except Exc Manifest) = .ok m → (m.components.map (·.name)).Nodup)
    (h : ¬ Closed b a) : ∃ m, Opened b a m := by
  cases hhydrate : (b .hydrate : Except Exc Unit) with
  | error e => exact absurd (.hydrate e hhydrate) h
  | ok u =>
    cases hartifact : (b .findArtifact : Option Str) with
    | none => exact absurd (.artifact hartifact) h
    | some x =>
      cases hsidecar : (b .sidecarThere : Bool) with
      | false => exact absurd (.sidecar hsidecar) h
      | true =>
        cases hmanifest : (b .readManifest : Except Exc Manifest) with
        | error e => exact absurd (.manifest e hmanifest) h
        | ok m =>
          cases hextract : (b .extract : Except Exc Unit) with
          | error e => exact absurd (.extract e hextract) h
          | ok u =>
            refine ⟨m, hhydrate, hspecs, hsidecar, hmanifest, fun _ => ?_, ⟨x, hartifact, ?_, ?_⟩, hextract⟩
            · refine List.all_eq_true.mpr fun name hname => (restorable_iff (hn m hmanifest) name).mpr ?_
              by_contra hno
              refine h (.selection m name hmanifest hname fun c hc hcn => ?_)
              by_contra hgood
              push Not at hgood
              exact hno ⟨c, hc, hcn, by simpa using hgood.1, Option.ne_none_iff_isSome.mp hgood.2⟩
            · refine (checkSha256_run x m).mpr fun recorded hr hne => ?_
              by_contra hx
              exact h (.sha256 x m recorded hartifact hmanifest hr hne hx)
            · cases hd : ((decryptIfNeeded a x).run b).1 with
              | error f => exact absurd (.decrypt x f hartifact hd) h
              | ok u => rfl

/-- an answer comes out of the gates only where one of them does not open -/
theorem closed_of_answer {m : Bool} (h : ((gates a).run b).1 = .error (.ok m))
    (hn : ∀ m, (b .readManifest : Except Exc Manifest) = .ok m → (m.components.map (·.name)).Nodup) :
    Closed b a := by
  by_contra hno
  cases hspecs : a.specs with
  | ok u =>
    obtain ⟨m', hopen⟩ := opened_of_not_closed hspecs hn hno
    rw [hopen.gates] at h
    cases h
  | error e =>
    -- the table raises before anything else of the selection
    unfold gates at h
    simp only [Prog.run_bind] at h
    split at h
    · cases h
    · simp only [Prog.run_bind] at h
      split at h
      · rename_i hartifact
        exact hno (.artifact hartifact)
      · rename_i x hartifact
        simp only [Prog.run_bind] at h
        split at h
        · rename_i hsidecar
          exact hno (.sidecar hsidecar)
        · simp only [Prog.run_bind] at h
          split at h
          · cases h
          · rename_i m' hmanifest
            simp only [Prog.run_bind] at h
            split at h
            · cases h
            · rename_i hsha
              have hx := (checkSha256_run x m').not.mp (by rw [hsha]; simp)
              push Not at hx
              obtain ⟨recorded, hr, hne, hfound⟩ := hx
              exact hno (.sha256 x m' recorded hartifact hmanifest hr hne hfound)
            · rw [hspecs] at h
              cases h

/-! ## what runs behind the gates -/

/-- an operation that builds a source, unpacks its data or restores into it -/
def RestoreOp.touches : RestoreOp → Bool
  | .build _ => true
  | .extractNested _ => true
  | .restore _ _ => true
  | _ => false

def RestoreOp.isHook : RestoreOp → Bool
  | .hook _ => true
  | _ => false

/-- the components that are replayed, each with its source, in manifest order -/
def due (a : RestoreArgs) (m : Manifest) : List (SourceSpec × Component) :=
  m.components.filterMap (fun c =>
    if a.skips c ∨ c.kind = envKind then none else (a.spec c.name).map (·, c))

/-- what the replay of a component performs -/
def replayOps (b : Behaviour) (p : SourceSpec × Component) : List RestoreOp :=
  .build p.1 ::
    if (b (.build p.1) : Except Thrown Unit).isOk then
      if p.2.kind ∈ nestedTarKinds then
        .extractNested p.2.name ::
          if (b (.extractNested p.2.name) : Except Thrown Unit).isOk then [.restore p.1 p.2.name] else []
      else [.restore p.1 p.2.name]
    else []

/-- the exception that an operation raised -/
def raisedBy : Except Thrown Unit → Option Thrown
  | .error t => some t
  | .ok () => none

/-- the exception that ends the replay of a component -/
def thrownBy (b : Behaviour) (p : SourceSpec × Component) : Option Thrown :=
  (raisedBy (b (.build p.1))).or
    ((if p.2.kind ∈ nestedTarKinds then raisedBy (b (.extractNested p.2.name)) else none).or
      (raisedBy (b (.restore p.1 p.2.name))))

/-- the replay of a component ends without failure, or with an `Exception` whose text can be had -/
def Caught (b : Behaviour) (p : SourceSpec × Component) : Prop :=
  ∀ t, thrownBy b p = some t → t.taken = .described

/-- whether the replay of a component ends without failure -/
def replays (b : Behaviour) (p : SourceSpec × Component) : Bool := (thrownBy b p).isNone

/-- one component after the other, up to an exception that no handler keeps -/
def replayed (b : Behaviour) : List (SourceSpec × Component) → Except Exc Bool × List RestoreOp
  | [] => (.ok true, [])
  | p :: ps =>
    match thrownBy b p with
    | none => ((replayed b ps).1, replayOps b p ++ (replayed b ps).2)
    | some t =>
      match t.handled with
      | .error e => (.error e, replayOps b p)
      | .ok done => ((replayed b ps).1.map (done && ·), replayOps b p ++ (replayed b ps).2)

theorem due_nodup {m : Manifest} (hn : (m.components.map (·.name)).Nodup) :
    ((due a m).map (·.2.name)).Nodup := by
  have hsub : ((due a m).map (·.2.name)).Sublist (m.components.map (·.name)) := by
    unfold due
    induction m.components with
    | nil => exact List.Sublist.refl _
    | cons c cs ih =>
      rw [List.filterMap_cons]
      split
      · exact ih.cons _
      · rename_i p hp
        have hc : p.2 = c := by
          split at hp
          · cases hp
          · obtain ⟨spec, -, rfl⟩ := Option.map_eq_some_iff.mp hp
            rfl
        rw [List.map_cons, List.map_cons, hc]
        exact ih.cons_cons _
  exact hsub.nodup hn

theorem restoreInto_run (spec : SourceSpec) (c : Component) :
    (restoreInto spec c).run b =
      ((thrownBy b (spec, c)).elim (.ok ()) .error, replayOps b (spec, c)) := by
  have h1 : (Prog.op (.build spec) Prog.ret : R (Except Thrown Unit)).run b =
    (b (.build spec), [.build spec]) := rfl
  have h2 : (Prog.op (.extractNested c.name) Prog.ret : R (Except Thrown Unit)).run b =
    (b (.extractNested c.name), [.extractNested c.name]) := rfl
  have h3 : (Prog.op (.restore spec c.name) Prog.ret : R (Except Thrown Unit)).run b =
    (b (.restore spec c.name), [.restore spec c.name]) := rfl
  have hlast : ∀ r : Except Thrown Unit, r = (raisedBy r).elim (.ok ()) .error := by
    intro r
    cases r <;> rfl
  unfold restoreInto thrownBy replayOps
  rw [Prog.run_bind, h1]
  cases hb : (b (.build spec) : Except Thrown Unit) with
  | error t => rfl
  | ok u =>
    by_cases hk : c.kind ∈ nestedTarKinds
    · simp only [if_pos hk, Prog.run_bind, h2]
      cases hn : (b (.extractNested c.name) : Except Thrown Unit) with
      | error t => rfl
      | ok u => exact Prod.ext (hlast _) rfl
    · simp only [if_neg hk, h3]
      exact Prod.ext (hlast _) rfl

theorem restoreComponent_run (spec : SourceSpec) (c : Component) (henv : c.kind ≠ envKind) :
    (restoreComponent spec c).run b =
      ((thrownBy b (spec, c)).elim (.ok true) Thrown.handled, replayOps b (spec, c)) := by
  unfold restoreComponent
  rw [if_neg henv, Prog.run_bind, restoreInto_run]
  cases thrownBy b (spec, c) with
  | none => exact Prod.ext rfl (List.append_nil _)
  | some t => exact Prod.ext rfl (List.append_nil _)

/-- the loop of the command goes over the due components -/
theorem replay_run (m : Manifest) : (replay a m.components).run b = replayed b (due a m) := by
  unfold due
  induction m.components with
  | nil => rfl
  | cons c cs ih =>
    unfold replay
    rw [List.filterMap_cons]
    by_cases hskip : a.skips c = true
    · simp only [hskip, if_true, true_or]
      exact ih
    · rw [if_neg hskip]
      cases hspec : a.spec c.name with
      | none => simpa [hspec] using ih
      | some spec =>
        simp only
        by_cases henv : c.kind = envKind
        · have hdone : restoreComponent spec c = pure (.ok true) := if_pos henv
          rw [if_pos (Or.inr henv), hdone, Prog.run_bind, Prog.run_pure, Prog.run_bind, ih]
          refine Prod.ext ?_ (List.append_nil _)
          show (replayed b _).1.map (true && ·) = _
          cases (replayed b _).1 <;> rfl
        · have hnot : ¬ (a.skips c = true ∨ c.kind = envKind) := not_or.mpr ⟨hskip, henv⟩
          rw [if_neg hnot, Prog.run_bind, restoreComponent_run spec c henv, Option.map_some]
          unfold replayed
          cases thrownBy b (spec, c) with
          | none =>
            show (((replay a cs >>= _).run b).1, _ ++ ((replay a cs >>= _).run b).2) = _
            rw [Prog.run_bind, ih]
            refine Prod.ext ?_ (congrArg (replayOps b (spec, c) ++ ·) (List.append_nil _))
            show (replayed b _).1.map (true && ·) = _
            cases (replayed b _).1 <;> rfl
          | some t =>
            simp only [Option.elim_some]
            cases t.handled with
            | error e => exact Prod.ext rfl (List.append_nil _)
            | ok done =>
              simp only
              rw [Prog.run_bind, ih]
              exact Prod.ext rfl (congrArg (replayOps b (spec, c) ++ ·) (List.append_nil _))

theorem Thrown.handled_ok {t : Thrown} {done : Bool} (h : t.handled = .ok done) :
    done = false ∧ t.taken = .described := by
  unfold Thrown.handled at h
  split at h
  · rename_i ht
    exact ⟨(Except.ok.inj h).symm, ht⟩
  · cases h
  · cases h

/-- **Caught failures stop no other component** -/
theorem replayed_caught {ps : List (SourceSpec × Component)} (h : ∀ p ∈ ps, Caught b p) :
    replayed b ps = (.ok (ps.all (replays b)), ps.flatMap (replayOps b)) := by
  induction ps with
  | nil => rfl
  | cons p ps ih =>
    rw [List.forall_mem_cons] at h
    unfold replayed
    rw [ih h.2, List.all_cons, List.flatMap_cons]
    unfold replays
    cases ht : thrownBy b p with
    | none => rfl
    | some t =>
      have hhandled : t.handled = .ok false := by
        unfold Thrown.handled
        rw [h.1 t ht]
      simp only [hhandled]
      rfl

theorem caught_of_replayed {ps : List (SourceSpec × Component)} {r : Bool}
    (h : (replayed b ps).1 = .ok r) : ∀ p ∈ ps, Caught b p := by
  induction ps generalizing r with
  | nil => exact List.forall_mem_nil _
  | cons p ps ih =>
    unfold replayed at h
    rw [List.forall_mem_cons]
    cases ht : thrownBy b p with
    | none =>
      rw [ht] at h
      exact ⟨fun t htt => absurd (ht.symm.trans htt) (by simp), ih h⟩
    | some t =>
      rw [ht] at h
      simp only at h
      cases hh : t.handled with
      | error e =>
        rw [hh] at h
        cases h
      | ok done =>
        rw [hh] at h
        simp only at h
        cases hr : (replayed b ps).1 with
        | error e =>
          rw [hr] at h
          cases h
        | ok r' =>
          refine ⟨fun t' htt => ?_, ih hr⟩
          rw [← Option.some.inj (ht.symm.trans htt)]
          exact (Thrown.handled_ok hh).2

theorem only_gates (a : RestoreArgs) :
    (gates a).Only (fun o => o.touches = false ∧ o.isHook = false) := by
  have hop : ∀ {o : RestoreOp}, (o.touches = false ∧ o.isHook = false) →
      (Prog.op o Prog.ret : R (RestoreRes o)).Only (fun o => o.touches = false ∧ o.isHook = false) :=
    fun h => Prog.Only.perform h
  have hsha : ∀ x m, (checkSha256 x m).Only (fun o => o.touches = false ∧ o.isHook = false) := by
    intro x m
    unfold checkSha256
    split
    · trivial
    · trivial
    · exact Prog.Only.bind (hop ⟨rfl, rfl⟩) fun _ => trivial
  have hdecrypt : ∀ x, (decryptIfNeeded a x).Only (fun o => o.touches = false ∧ o.isHook = false) := by
    intro x
    unfold decryptIfNeeded
    split
    · split
      · trivial
      · trivial
      · exact hop ⟨rfl, rfl⟩
    · split
      · exact hop ⟨rfl, rfl⟩
      · trivial
  unfold gates
  refine Prog.Only.bind (hop ⟨rfl, rfl⟩) fun r => ?_
  split
  · trivial
  · refine Prog.Only.bind (hop ⟨rfl, rfl⟩) fun r => ?_
    split
    · trivial
    · refine Prog.Only.bind (hop ⟨rfl, rfl⟩) fun r => ?_
      split
      · trivial
      · refine Prog.Only.bind (hop ⟨rfl, rfl⟩) fun r => ?_
        split
        · trivial
        · refine Prog.Only.bind (hsha _ _) fun r => ?_
          split
          · trivial
          · trivial
          · split
            · trivial
            · split
              · trivial
              · refine Prog.Only.bind (hdecrypt _) fun r => ?_
                split
                · trivial
                · trivial
                · refine Prog.Only.bind (hop ⟨rfl, rfl⟩) fun r => ?_
                  split <;> trivial

theorem replayOps_touch (p : SourceSpec × Component) : ∀ o ∈ replayOps b p, o.touches = true := by
  unfold replayOps
  intro o ho
  rcases List.mem_cons.mp ho with rfl | ho
  · rfl
  · split at ho
    · split at ho
      · rcases List.mem_cons.mp ho with rfl | ho
        · rfl
        · split at ho
          · rw [List.mem_singleton.mp ho]
            rfl
          · cases ho
      · rw [List.mem_singleton.mp ho]
        rfl
    · cases ho

theorem replayed_touch (ps : List (SourceSpec × Component)) :
    ∀ o ∈ (replayed b ps).2, o.touches = true := by
  induction ps with
  | nil => exact List.forall_mem_nil _
  | cons p ps ih =>
    unfold replayed
    have hboth : ∀ o ∈ replayOps b p ++ (replayed b ps).2, o.touches = true := by
      intro o ho
      exact (List.mem_append.mp ho).elim (replayOps_touch p o) (ih o)
    split
    · exact hboth
    · split
      · exact replayOps_touch p
      · exact hboth

def hookAnswer (b : Behaviour) (a : RestoreArgs) (phase : Str) : Except Exc Unit :=
  if a.hooks then b (.hook phase) else .ok ()

def hookOps (a : RestoreArgs) (phase : Str) : List RestoreOp := if a.hooks then [.hook phase] else []

theorem restoreHook_run (phase : Str) :
    (restoreHook a phase).run b = (hookAnswer b a phase, hookOps a phase) := by
  unfold restoreHook hookAnswer hookOps
  cases a.hooks <;> rfl

theorem hookAnswer_ok {phase : Str} (h : a.hooks = true → (b (.hook phase) : Except Exc Unit) = .ok ()) :
    hookAnswer b a phase = .ok () := by
  by_cases hh : a.hooks = true
  · exact (if_pos hh).trans (h hh)
  · exact if_neg hh

theorem hookOps_touch (phase : Str) : (hookOps a phase).filter RestoreOp.touches = [] := by
  unfold hookOps
  split <;> rfl

end

def preRestore : RestoreOp := .hook "pre_restore".toList

def postRestore : RestoreOp := .hook "post_restore".toList

section
variable {b : Behaviour} {a : RestoreArgs}

/-- the operations of the gates and of the first hook -/
def before (b : Behaviour) (a : RestoreArgs) : List RestoreOp :=
  ((gates a).run b).2 ++ hookOps a "pre_restore".toList

theorem before_touch : (before b a).filter RestoreOp.touches = [] := by
  unfold before
  rw [List.filter_append, hookOps_touch, List.append_nil]
  refine List.filter_eq_nil_iff.mpr fun o ho => ?_
  rw [((only_gates a).run b o ho).1]
  simp

theorem postRestore_notMem_before : postRestore ∉ before b a := by
  intro h
  rcases List.mem_append.mp h with h | h
  · have hhook := ((only_gates a).run b _ h).2
    cases hhook
  · unfold hookOps at h
    split at h
    · exact absurd (List.mem_singleton.mp h) (by decide)
    · cases h

/-- behind closed gates -/
theorem run_of_refused {r : Except Exc Bool} (h : ((gates a).run b).1 = .error r) :
    (restoreSnapshot a).run b = (r, ((gates a).run b).2) := by
  unfold restoreSnapshot
  rw [Prog.run_bind, h]
  exact Prod.ext rfl (List.append_nil _)

/-- behind a hook that raises -/
theorem run_of_hook_raised {m : Manifest} (h : ((gates a).run b).1 = .ok m) (hh : a.hooks = true) {e : Exc}
    (he : (b preRestore : Except Exc Unit) = .error e) :
    (restoreSnapshot a).run b = (.error e, before b a) := by
  have hpre : ((restoreHook a "pre_restore".toList).run b).1 = .error e := by
    rw [restoreHook_run]
    exact (if_pos hh).trans he
  unfold restoreSnapshot before
  rw [Prog.run_bind, h]
  simp only
  rw [Prog.run_bind, hpre, restoreHook_run]
  exact Prod.ext rfl (congrArg (_ ++ ·) (List.append_nil _))

/-- behind open gates -/
theorem run_of_opened {m : Manifest} (h : ((gates a).run b).1 = .ok m)
    (hpre : a.hooks = true → (b preRestore : Except Exc Unit) = .ok ()) :
    (restoreSnapshot a).run b =
      match (replayed b (due a m)).1 with
      | .error e => (.error e, before b a ++ (replayed b (due a m)).2)
      | .ok ok => ((hookAnswer b a "post_restore".toList).map fun _ => ok,
          before b a ++ ((replayed b (due a m)).2 ++ hookOps a "post_restore".toList)) := by
  have hok : ((restoreHook a "pre_restore".toList).run b).1 = .ok () := by
    rw [restoreHook_run]
    exact hookAnswer_ok hpre
  unfold restoreSnapshot before
  rw [Prog.run_bind, h]
  simp only
  rw [Prog.run_bind, hok, restoreHook_run]
  simp only
  rw [Prog.run_bind, replay_run, List.append_assoc]
  cases (replayed b (due a m)).1 with
  | error e => exact Prod.ext rfl (by simp)
  | ok ok =>
    simp only
    rw [Prog.run_bind, restoreHook_run]
    simp only
    split
    · rename_i e he
      rw [he]
      exact Prod.ext rfl (by simp)
    · rename_i he
      rw [he]
      exact Prod.ext rfl (by simp)

/-- **Restore is gated as a whole, and isolated per component.** -/
structure Gated (b : Behaviour) (a : RestoreArgs) : Prop where
  /-- behind a closed gate nothing runs, no hook either -/
  closed : Closed b a → ∀ o ∈ ((restoreSnapshot a).run b).2, o.touches = false ∧ o.isHook = false
  /-- behind a `pre_restore` hook that raises no source is touched -/
  hook : ∀ e, a.hooks = true → (b preRestore : Except Exc Unit) = .error e →
    ∀ o ∈ ((restoreSnapshot a).run b).2, o.touches = false
  /-- else exactly the due components are replayed, each once and in manifest order, whatever fails
  among them, and unless the `post_restore` hook raises the answer tells whether none failed -/
  replay : ¬ Closed b a → (a.hooks = true → (b preRestore : Except Exc Unit) = .ok ()) →
    ∃ m, (b .readManifest : Except Exc Manifest) = .ok m ∧
      ((restoreSnapshot a).run b).2.filter RestoreOp.touches = (due a m).flatMap (replayOps b) ∧
      ((due a m).map (·.2.name)).Nodup ∧
      ((∀ e, postRestore ∈ ((restoreSnapshot a).run b).2 →
          (b postRestore : Except Exc Unit) ≠ .error e) →
        ((restoreSnapshot a).run b).1 = .ok ((due a m).all (replays b)))

/-- a gate does not open, or the `pre_restore` hook raises -/
def Stopped (b : Behaviour) (a : RestoreArgs) : Prop :=
  Closed b a ∨ a.hooks = true ∧ ∃ e, (b preRestore : Except Exc Unit) = .error e

theorem not_stopped_iff : ¬ Stopped b a ↔
    ¬ Closed b a ∧ (a.hooks = true → (b preRestore : Except Exc Unit) = .ok ()) := by
  unfold Stopped
  rw [not_or]
  refine and_congr_right fun _ => ?_
  constructor
  · intro h hh
    cases he : (b preRestore : Except Exc Unit) with
    | error e => exact absurd ⟨hh, e, he⟩ h
    | ok u => rfl
  · rintro h ⟨hh, e, he⟩
    rw [h hh] at he
    cases he

theorem mem_refused_touch {r : Except Exc Bool} (h : ((gates a).run b).1 = .error r) :
    ∀ o ∈ ((restoreSnapshot a).run b).2, o.touches = false ∧ o.isHook = false := by
  rw [run_of_refused h]
  exact (only_gates a).run b

/-- where something stops the command, the rest of the statement asks for nothing -/
theorem Gated.of_stopped (hnames : ∀ m, (b .readManifest : Except Exc Manifest) = .ok m →
    (m.components.map (·.name)).Nodup) (h : Stopped b a) : Gated b a := by
  have hno : ∀ P : Prop, ¬ Closed b a → (a.hooks = true → (b preRestore : Except Exc Unit) = .ok ()) → P :=
    fun P h1 h2 => absurd h (not_stopped_iff.mpr ⟨h1, h2⟩)
  cases hg : ((gates a).run b).1 with
  | error r =>
    exact ⟨fun _ => mem_refused_touch hg, fun e _ _ o ho => (mem_refused_touch hg o ho).1,
      fun h1 h2 => hno _ h1 h2⟩
  | ok m =>
    have hopen := Opened.of_gates hg
    have hnot := hopen.not_closed (hnames m hopen.manifest)
    refine ⟨fun hc => absurd hc hnot, fun e hh he o ho => ?_, fun h1 h2 => hno _ h1 h2⟩
    rw [run_of_hook_raised hg hh he] at ho
    have htouch := List.filter_eq_nil_iff.mp (before_touch (b := b) (a := a)) o ho
    simpa using htouch

/-- where nothing stops it, the components are told apart by what their exceptions are -/
theorem gated_iff_of_opened {m : Manifest} (hg : ((gates a).run b).1 = .ok m)
    (hn : (m.components.map (·.name)).Nodup) (h : ¬ Stopped b a) :
    Gated b a ↔ ∀ p ∈ due a m, Caught b p := by
  obtain ⟨hclosed, hpre⟩ := not_stopped_iff.mp h
  have hmanifest := (Opened.of_gates hg).manifest
  have hrun := run_of_opened hg hpre
  constructor
  · intro hG
    obtain ⟨m', hm', -, -, hres⟩ := hG.replay hclosed hpre
    cases hr : (replayed b (due a m)).1 with
    | ok r => exact caught_of_replayed hr
    | error e =>
      rw [hr] at hrun
      rw [hrun] at hres
      have hnone : postRestore ∉ before b a ++ (replayed b (due a m)).2 := by
        intro ho
        rcases List.mem_append.mp ho with ho | ho
        · exact postRestore_notMem_before ho
        · exact absurd (replayed_touch _ _ ho) (by decide)
      exact absurd (hres fun e' ho => absurd ho hnone) (by simp)
  · intro hall
    rw [replayed_caught hall] at hrun
    simp only at hrun
    refine ⟨fun hc => absurd hc hclosed, fun e hh he => absurd (hpre hh) (by rw [he]; simp),
      fun _ _ => ⟨m, hmanifest, ?_, due_nodup hn, fun hpost => ?_⟩⟩
    · have htouch : ((due a m).flatMap (replayOps b)).filter RestoreOp.touches =
          (due a m).flatMap (replayOps b) := by
        refine List.filter_eq_self.mpr fun o ho => ?_
        obtain ⟨p, -, ho⟩ := List.mem_flatMap.mp ho
        exact replayOps_touch p o ho
      rw [hrun]
      show List.filter _ (_ ++ (_ ++ _)) = _
      rw [List.filter_append, List.filter_append, before_touch, hookOps_touch, htouch, List.append_nil]
      rfl
    · have hok : hookAnswer b a "post_restore".toList = .ok () := by
        refine hookAnswer_ok fun hh => ?_
        have hmem : postRestore ∈ ((restoreSnapshot a).run b).2 := by
          rw [hrun]
          refine List.mem_append_right _ (List.mem_append_right _ ?_)
          unfold hookOps
          rw [if_pos hh]
          exact List.mem_singleton_self _
        cases hp : (b postRestore : Except Exc Unit) with
        | error e => exact absurd hp (hpost e hmem)
        | ok u => exact hp
      rw [hrun, hok]
      rfl

end

/-- **Restore is gated and isolated** exactly where something stops it as a whole, or where the table of
the sources can be made and every exception of a due component is an `Exception` with a text. -/
theorem restore_is_gated (b : Behaviour) (a : RestoreArgs)
    (hnames : ∀ m, (b .readManifest : Except Exc Manifest) = .ok m →
      (m.components.map (·.name)).Nodup) :
    Gated b a ↔ Stopped b a ∨ a.specs = .ok () ∧
      ∀ m, (b .readManifest : Except Exc Manifest) = .ok m → ∀ p ∈ due a m, Caught b p := by
  by_cases hs : Stopped b a
  · exact iff_of_true (Gated.of_stopped hnames hs) (Or.inl hs)
  · rw [or_iff_right hs]
    cases hg : ((gates a).run b).1 with
    | ok m =>
      have hopen := Opened.of_gates hg
      rw [gated_iff_of_opened hg (hnames m hopen.manifest) hs, and_iff_right hopen.specs]
      refine ⟨fun h m' hm' => ?_, fun h => h m hopen.manifest⟩
      rwa [← Except.ok.inj (hopen.manifest.symm.trans hm')]
    | error r =>
      obtain ⟨hclosed, hpre⟩ := not_stopped_iff.mp hs
      refine iff_of_false (fun hG => ?_) fun h => ?_
      · obtain ⟨m, -, -, -, hres⟩ := hG.replay hclosed hpre
        have hnohook : postRestore ∉ ((restoreSnapshot a).run b).2 := fun ho =>
          absurd (mem_refused_touch hg _ ho).2 (by decide)
        have hr := hres fun e ho => absurd ho hnohook
        rw [run_of_refused hg] at hr
        rw [show r = .ok _ from hr] at hg
        exact hclosed (closed_of_answer hg hnames)
      · obtain ⟨m, hopen⟩ := opened_of_not_closed h.1 hnames hclosed
        rw [hopen.gates] at hg
        cases hg

/-! ## a snapshot of two sources and an env -/

def specOf (type name : Str) : SourceSpec := ⟨type, [("name".toList, .text name)]⟩

def dumpSpec : SourceSpec := specOf "postgres".toList "db".toList

def uploadsSpec : SourceSpec := specOf "filesystem".toList "uploads".toList

def twoSources : RestoreArgs where
  jobName := "main".toList
  sources := [dumpSpec, uploadsSpec]
  identityFile := none
  only := []
  hooks := true
  built spec := .ok spec.fallbackName

def component (name kind : Str) : Component := ⟨name, kind, 1, "00".toList, none, []⟩

def threeComponents : Manifest :=
  Manifest.build "s".toList [] [component "db".toList "postgres".toList,
    component "env".toList envKind, component "uploads".toList "filesystem".toList] [] none

/-- everything returns but the restore of `db`, which raises `t` -/
def failsWith (t : Thrown) : Behaviour
  | .findArtifact => some "s.tar.gz".toList
  | .sidecarThere => true
  | .readManifest => .ok threeComponents
  | .sha256 _ => .ok []
  | .restore _ name => if name = "db".toList then .error t else .ok ()
  | .hydrate | .decrypt _ _ | .extract | .hook _ | .build _ | .extractNested _ => .ok ()

def refused : Thrown := ⟨⟨"RuntimeError".toList, "refused".toList⟩, .described⟩

example : ((restoreSnapshot twoSources).run (failsWith refused)).2.filter RestoreOp.touches =
    [.build dumpSpec, .restore dumpSpec "db".toList, .build uploadsSpec,
      .extractNested "uploads".toList, .restore uploadsSpec "uploads".toList] := by decide

theorem restore_is_gated_twoSources :
    Gated (failsWith refused) twoSources ↔ Stopped (failsWith refused) twoSources ∨
      twoSources.specs = .ok () ∧ ∀ m,
        (failsWith refused .readManifest : Except Exc Manifest) = .ok m →
          ∀ p ∈ due twoSources m, Caught (failsWith refused) p := by
  refine restore_is_gated (failsWith refused) twoSources fun m hm => ?_
  rw [← Except.ok.inj hm]
  decide

/-- an exception whose `__str__` raises -/
def textless : Thrown :=
  ⟨⟨"ApiError".toList, []⟩, .wordless ⟨"AttributeError".toList, "no attribute 'reply'".toList⟩⟩

/-- `sys.exit` in a source -/
def exits : Thrown := ⟨⟨"SystemExit".toList, "no client".toList⟩, .passing⟩

/-- with a source whose name is a list -/
def listNamed : RestoreArgs :=
  { twoSources with
    sources := [dumpSpec, uploadsSpec, ⟨"custom".toList, [("name".toList,
      .unhashable ⟨"TypeError".toList, "unhashable type: 'list'".toList⟩ true)]⟩] }

theorem not_stopped_failsWith (t : Thrown) {a : RestoreArgs} (ha : a.only = []) :
    ¬ Stopped (failsWith t) a := by
  rw [not_stopped_iff]
  refine ⟨fun hc => ?_, fun _ => rfl⟩
  cases hc with
  | hydrate e h => cases h
  | artifact h => cases h
  | sidecar h => cases h
  | manifest e h => cases h
  | sha256 x m recorded hx hm hr hne h =>
    rw [← Except.ok.inj hm] at hr
    cases hr
  | selection m name hm hname h =>
    rw [ha] at hname
    cases hname
  | decrypt x f hx h =>
    rw [← Option.some.inj hx] at h
    cases h
  | extract e h => cases h

/-- **Where a component stops the others**: its exception has no text, or is no `Exception`; and where
the table of the sources cannot be made, nothing is restored. -/
theorem component_stops_others :
    ¬ Gated (failsWith textless) twoSources ∧ ¬ Gated (failsWith exits) twoSources ∧
      ¬ Gated (failsWith refused) listNamed := by
  refine ⟨fun hG => ?_, fun hG => ?_, fun hG => ?_⟩
  · obtain ⟨hclosed, hpre⟩ := not_stopped_iff.mp (not_stopped_failsWith textless (a := twoSources) rfl)
    obtain ⟨m, hm, hops, -⟩ := hG.replay hclosed hpre
    obtain rfl := Except.ok.inj hm
    exact absurd hops (by decide)
  · obtain ⟨hclosed, hpre⟩ := not_stopped_iff.mp (not_stopped_failsWith exits (a := twoSources) rfl)
    obtain ⟨m, hm, hops, -⟩ := hG.replay hclosed hpre
    obtain rfl := Except.ok.inj hm
    exact absurd hops (by decide)
  · obtain ⟨hclosed, hpre⟩ := not_stopped_iff.mp (not_stopped_failsWith refused (a := listNamed) rfl)
    obtain ⟨m, hm, hops, -⟩ := hG.replay hclosed hpre
    obtain rfl := Except.ok.inj hm
    exact absurd hops (by decide)

end BackupHelper
