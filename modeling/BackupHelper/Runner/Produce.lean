import BackupHelper.Lib.Python
import BackupHelper.Runner
import BackupHelper.Sources.Base
import Mathlib.Data.List.TakeWhile

/-!
# From the sources to the archive

`produce` runs every enabled source over one staging directory, `makeBundle` writes the embedded
manifest, bundles and encrypts: what a run delivers (`Made`), or the exception that ends it
(`Raised`).

A source is a plugin: it may change any file, raise, or return anything.  Only its constructor and
its `produce` are called under a guard; what it returned is looked through outside of it.

* `Returned`, `Item`     what `produce` of a source returned;
* `stage`                one source;
* `produce`              all of them, one after the other;
* `makeBundle`           up to the archive.
-/

namespace BackupHelper
open Text Files Disk Python

/-! ## what a source returns -/

inductive Output where
  /-- nothing, or something that counts as false -/
  | absent
  | file (path : Path × List Str)
  /-- not a path -/
  | other

/-- a component as a source built it: its fields are not checked -/
structure PyStaged where
  name : PyVal
  kind : PyVal
  path : Output
  metadata : PyVal := .dict []
  error : PyVal := .none

inductive Item where
  | component (sc : PyStaged)
  /-- something without the attributes of a component -/
  | other

/-- the items that a loop over the result goes through, and how it ends; what is no list at all is
none of them and an exception -/
structure Returned where
  items : List Item
  stop : Option PyExc := none

/-- an entry of the job's `sources` -/
structure SourceRun where
  type : Str
  enabled : PyVal
  bucket : PyVal
  /-- the name of its component, as the engine asks for it where the source raised; only what is no
  `Exception` is raised there -/
  name : Except PyExc PyVal
  /-- constructor and `produce` -/
  run : Disk FileData → Disk FileData × Except PyExc Returned

/-- why the engine itself raises -/
inductive Cause where
  /-- the staging directory cannot be listed -/
  | listing (dir : Path)
  | noComponent
  /-- the text of an exception could not be had -/
  | noText
  /-- a text was expected -/
  | noTextValue (v : PyVal)
  | noPath
  | unreadable (path : Path × List Str)
  /-- a field of a component has the wrong type -/
  | invalid (name kind metadata : PyVal)
  | notIterable (v : PyVal)
  /-- the manifest cannot be written as JSON -/
  | unwritable
  | manifestFile

/-- interpreter, file system and tools -/
structure Host where
  fits : Str → Bool
  /-- a file at this place may be opened -/
  mayRead : Path → Bool
  mayWrite : Path → Bool
  /-- a name at this place may be taken away -/
  mayUnlink : Path → Bool
  /-- the bytes of a file -/
  render : FileData → Bytes
  sha256 : Bytes → Str
  exc : Cause → PyExc
  /-- the text of a value that is none -/
  str : PyVal → PyText
  redact : PyText → PyText
  /-- a bundle as it is written -/
  pack : List (Member FileData) → Except PyExc Bytes
  encrypt : EncryptionMode → Bytes → Except PyExc Bytes

section
variable (h : Host)

def showVal : PyVal → PyText
  | .text t => t
  | v => h.str v

/-- `_describe`: the redacted text of an exception -/
def describe (e : PyExc) : Except PyExc PyText :=
  match e.text with
  | none => .error (h.exc .noText)
  | some t => .ok (h.redact t)

def maxLinks : ℕ := 40

/-- where a path ends that leads over fewer than `n` links -/
def follow (d : Disk FileData) : ℕ → Path × List Str → Option Path
  | 0, _ => none
  | n + 1, (p, segs) =>
    match d.walk h.fits p segs with
    | none => none
    | some q =>
      match d.node q with
      | some (.file (.link target)) => follow d n (at_ q.dropLast target)
      | _ => some q

/-- the file at the end of a path -/
def resolve (d : Disk FileData) (path : Path × List Str) : Option (Path × FileData) :=
  match follow h d (maxLinks + 1) path with
  | none => none
  | some q =>
    match d.node q with
    | some (.file b) => some (q, b)
    | _ => none

/-- what `stat` and the hash read -/
def load (d : Disk FileData) (path : Path × List Str) : Except PyExc Bytes :=
  match resolve h d path with
  | none => .error (h.exc (.unreadable path))
  | some (q, b) => if h.mayRead q then .ok (h.render b) else .error (h.exc (.unreadable path))

/-- write the file at the end of a path, which need not exist -/
def overwrite (d : Disk FileData) (path : Path × List Str) (b : FileData) : Option (Disk FileData) :=
  match follow h d (maxLinks + 1) path with
  | none => none
  | some q => if d.isDir q || !h.mayWrite q then none else some (d.put q (.file b))

/-! ## recording components -/

/-- a component of the manifest before the manifest is written -/
structure PyComponent where
  name : PyText
  kind : PyText
  size : ℕ
  sha256 : Str
  error : Option PyText
  metadata : List (PyText × PyVal)

def buildComponent (name kind : PyVal) (size : ℕ) (sha256 : Str) (error : Option PyText) (metadata : PyVal) :
    Except PyExc PyComponent :=
  match name, kind, metadata with
  | .text n, .text k, .dict m => .ok ⟨n, k, size, sha256, error, m⟩
  | _, _, _ => .error (h.exc (.invalid name kind metadata))

def warningsKey : PyText := lit "warnings".toList

/-- `metadata["warnings"]`, each as text -/
def warningTexts (metadata : List (PyText × PyVal)) : Except PyExc (List PyText) :=
  match metadata.lookup warningsKey with
  | none => .ok []
  | some v =>
    if v.truthy then
      match v.items with
      | none => .error (h.exc (.notIterable v))
      | some l => .ok (l.map (showVal h))
    else .ok []

def joinTexts : List PyText → PyText
  | [] => []
  | [t] => t
  | t :: ts => t ++ lit "; ".toList ++ joinTexts ts

/-- the first five warnings, and how many there are more -/
def warningsShown (warnings : List PyText) : PyText :=
  joinTexts (warnings.take 5) ++
    (if warnings.length > 5 then
      lit (" (+".toList ++ (Nat.repr (warnings.length - 5)).toList ++ " more in the manifest)".toList)
    else [])

/-- `_report_source_warnings` -/
def reportSourceWarnings (name : PyText) (metadata : List (PyText × PyVal)) :
    Except PyExc (List PyText) := do
  let warnings ← warningTexts h metadata
  if warnings = [] then pure []
  else
    pure [name ++ lit ": ".toList ++
      h.redact (lit "incomplete, skipped: ".toList ++ warningsShown warnings)]

/-- what the components and the errors of a run come to; an exception leaves the errors so far -/
abbrev Recorded := Except PyExc (List PyComponent) × List PyText

def noOutput : PyText := lit "no output".toList

/-- the error of a component without a file or with an error text; none for a good one -/
def failure (sc : PyStaged) : Except PyExc (Option PyText) :=
  if sc.error.truthy then
    match sc.error with
    | .text t => .ok (some (h.redact t))
    | v => .error (h.exc (.noTextValue v))
  else
    match sc.path with
    | .absent => .ok (some noOutput)
    | _ => .ok none

def outputFile (d : Disk FileData) : Output → Except PyExc Bytes
  | .file path => load h d path
  | _ => .error (h.exc .noPath)

/-- one returned component -/
def recordComponent (d : Disk FileData) (sc : PyStaged) : Recorded :=
  match failure h sc with
  | .error e => (.error e, [])
  | .ok (some error) =>
    ((buildComponent h sc.name sc.kind 0 [] (some error) sc.metadata).map ([·]),
      [showVal h sc.name ++ lit ": ".toList ++ error])
  | .ok none =>
    match outputFile h d sc.path with
    | .error e => (.error e, [])
    | .ok b =>
      match buildComponent h sc.name sc.kind b.length (h.sha256 b) none sc.metadata with
      | .error e => (.error e, [])
      | .ok c =>
        match reportSourceWarnings h c.name c.metadata with
        | .error e => (.error e, [])
        | .ok errors => (.ok [c], errors)

def recordItem (d : Disk FileData) : Item → Recorded
  | .component sc => recordComponent h d sc
  | .other => (.error (h.exc .noComponent), [])

/-- the loop over what a source returned -/
def recordItems (d : Disk FileData) (stop : Option PyExc) : List Item → Recorded
  | [] => match stop with
    | none => (.ok [], [])
    | some e => (.error e, [])
  | item :: items =>
    match recordItem h d item with
    | (.error e, errors) => (.error e, errors)
    | (.ok cs, errors) =>
      let rest := recordItems d stop items
      (rest.1.map (cs ++ ·), errors ++ rest.2)

/-! ## one source -/

/-- the names right in a directory; none where it is no directory -/
def iterdir (d : Disk FileData) (dir : Path) : Option (List Str) :=
  if d.isDir dir then
    some ((d.below dir).filterMap fun m => match m.1 with
      | [name] => some name
      | _ => none)
  else none

/-- one new entry: a link to a directory stays -/
def removeEntry (d : Disk FileData) (p : Path) : Option (Disk FileData) :=
  match follow h d (maxLinks + 1) (p, []) with
  | some q =>
    if d.isDir q then some (if d.isDir p then d.remove p else d)
    else if h.mayUnlink p then some (d.remove p) else none
  | none => if h.mayUnlink p then some (d.remove p) else none

def removeEntries (dir : Path) : List Str → Disk FileData → Option (Disk FileData)
  | [], d => some d
  | name :: names, d => (removeEntry h d (dir ++ [name])).bind (removeEntries dir names)

/-- `_remove_new_entries`: what is in the directory and was not `before` is gone -/
def removeNewEntries (d : Disk FileData) (dir : Path) (before : List Str) : Option (Disk FileData) :=
  (iterdir d dir).bind fun names => removeEntries h dir (names.filter (· ∉ before)) d

/-- a source that raised -/
def recordRaised (type : Str) (name : PyVal) (e : PyExc) : Recorded :=
  match describe h e with
  | .error e => (.error e, [])
  | .ok reason =>
    let message := lit e.type ++ lit ": ".toList ++ reason
    ((buildComponent h name (.text (lit type)) 0 [] (some message) (.dict [])).map ([·]),
      [showVal h name ++ lit ": ".toList ++ message])

/-- the handler around constructor and `produce` -/
def handleRaised (s : SourceRun) (e : PyExc) : Recorded :=
  if e.passes then (.error e, [])
  else
    match s.name with
    | .error e => (.error e, [])
    | .ok name => recordRaised h s.type name e

theorem handleRaised_ok {s : SourceRun} {e : PyExc} {cs : List PyComponent} {errors : List PyText}
    (hr : handleRaised h s e = (.ok cs, errors)) :
    e.passes = false ∧ ∃ name, s.name = .ok name ∧ recordRaised h s.type name e = (.ok cs, errors) := by
  unfold handleRaised at hr
  cases hp : e.passes with
  | true =>
    rw [hp] at hr
    cases (Prod.mk.inj hr).1
  | false =>
    rw [hp] at hr
    cases hn : s.name with
    | error e' =>
      rw [hn] at hr
      cases (Prod.mk.inj hr).1
    | ok name =>
      rw [hn] at hr
      exact ⟨rfl, name, rfl, hr⟩

def stage (staging : Path) (s : SourceRun) (d : Disk FileData) : Disk FileData × Recorded :=
  match iterdir d staging with
  | none => (d, .error (h.exc (.listing staging)), [])
  | some before =>
    match s.run d with
    | (d, .ok returned) => (d, recordItems h d returned.stop returned.items)
    | (d, .error e) =>
      match handleRaised h s e with
      | (.error e, errors) => (d, .error e, errors)
      | (.ok cs, errors) =>
        match removeNewEntries h d staging before with
        | none => (d, .error (h.exc (.listing staging)), errors)
        | some d => (d, .ok cs, errors)

/-! ## all sources -/

def jsonSpace (c : Char) : Bool := c = ' ' || c = '\t' || c = '\n' || c = '\r'

def natOf (digits : Str) : ℕ := digits.foldl (fun n c => 10 * n + (c.toNat - 48)) 0

/-- a JSON text that is a number: whether it is other than zero.  With a fraction or an exponent it
is read as a binary64 number, where `2 ^ -1075` and less is zero -/
def jsonNumber (s : Str) : Option Bool :=
  let body := ((s.dropWhile jsonSpace).reverse.dropWhile jsonSpace).reverse
  if body ∈ ["NaN".toList, "Infinity".toList, "-Infinity".toList] then some true
  else
    let s := if ['-'].isPrefixOf body then body.tail else body
    let whole := s.takeWhile Char.isDigit
    let s := s.dropWhile Char.isDigit
    if whole = [] ∨ (whole.head? = some '0' ∧ whole.length ≠ 1) then none
    else
      let fraction := if ['.'].isPrefixOf s then some (s.tail.takeWhile Char.isDigit) else none
      let s := if ['.'].isPrefixOf s then s.tail.dropWhile Char.isDigit else s
      if fraction = some [] then none
      else
        match s with
        | [] =>
          match fraction with
          | none => some (natOf whole ≠ 0)
          | some f => some (natOf (whole ++ f) * 2 ^ 1075 > 10 ^ f.length)
        | e :: s =>
          let negative := ['-'].isPrefixOf s
          let digits := if negative || ['+'].isPrefixOf s then s.tail else s
          if (e = 'e' ∨ e = 'E') ∧ digits ≠ [] ∧ digits.all Char.isDigit then
            let m := natOf (whole ++ fraction.getD [])
            let k := (fraction.getD []).length
            if negative then some (m * 2 ^ 1075 > 10 ^ (k + natOf digits))
            else some (m * 10 ^ natOf digits * 2 ^ 1075 > 10 ^ k)
          else none

example : jsonNumber " -0.0 ".toList = some false := by decide +kernel
example : jsonNumber "1e-400".toList = some false := by decide +kernel
example : jsonNumber "no".toList = none := by decide +kernel

/-- `_enabled`: a number given as text counts as that number -/
def enabled : PyVal → Bool
  | .text t =>
    match (encode t).bind jsonNumber with
    | some nonzero => nonzero
    | none => t ≠ []
  | v => v.truthy

/-- the source is run: it is enabled, and an `s3` source has a bucket -/
def active (s : SourceRun) : Bool :=
  enabled s.enabled && !(s.type = "s3".toList && !s.bucket.truthy)

def produce (staging : Path) : List SourceRun → Disk FileData → Disk FileData × Recorded
  | [], d => (d, .ok [], [])
  | s :: sources, d =>
    if active s then
      match stage h staging s d with
      | (d, .error e, errors) => (d, .error e, errors)
      | (d, .ok cs, errors) =>
        let rest := produce staging sources d
        (rest.1, rest.2.1.map (cs ++ ·), errors ++ rest.2.2)
    else produce staging sources d

/-! ## manifest, bundle, encryption -/

/-- as it is written; none where it cannot be -/
def PyComponent.write (c : PyComponent) : Option Component :=
  match encode c.name, encode c.kind, c.error.mapM encode, (PyVal.dict c.metadata).writable with
  | some name, some kind, some error, true =>
    some
      { name := name
        kind := kind
        size := c.size
        sha256 := c.sha256
        error := error
        warnings := match warningTexts h c.metadata with
          | .ok ws => ws.map shown
          | .error _ => [] }
  | _, _, _, _ => none

/-- as the record and the alert of an aborted run show it -/
def PyComponent.show (c : PyComponent) : Component where
  name := shown c.name
  kind := shown c.kind
  size := c.size
  sha256 := c.sha256
  error := c.error.map shown

/-- an exception, as the abort path describes it -/
def raisedExc (e : PyExc) : Exc := ⟨e.type, shown (h.redact (e.text.getD []))⟩

/-- what the abort path makes of it -/
def takenExc (e : PyExc) : Taken :=
  if e.passes then .passing
  else
    match describe h e with
    | .ok _ => .described
    | .error e => .wordless (raisedExc h e)

def EncryptionMode.text : EncryptionMode → Str
  | .none => "none".toList
  | .age => "age".toList
  | .gpg => "gpg".toList

/-- archive, the mode that it is encrypted in, and the error if that failed -/
def maybeEncrypt (mode : EncryptionMode) (archive : Bytes) :
    Except PyExc (Bytes × EncryptionMode × List PyText) :=
  match mode with
  | .none => .ok (archive, .none, [])
  | mode =>
    match h.encrypt mode archive with
    | .ok b => .ok (b, mode, [])
    | .error e =>
      if e.passes then .error e
      else do
        let reason ← describe h e
        .ok (archive, .none, [lit "encryption (".toList ++ lit mode.text ++
          lit ") failed, snapshot stored UNENCRYPTED: ".toList ++ reason])

def manifestFile : Str := "manifest.json".toList

/-- a member that is or leads to a file is opened -/
def opens (d : Disk FileData) (p : Path) : Bool :=
  match resolve h d (p, []) with
  | none => true
  | some (q, _) => h.mayRead q

/-- the bundle of the staging directory -/
def archiveOf (staging : Path) (d : Disk FileData) : Except PyExc Bytes :=
  let members := createBundle d staging
  match members.find? (fun m => !opens h d (staging ++ m.1)) with
  | some m => .error (h.exc (.unreadable (staging, m.1)))
  | none => h.pack members

/-- the steps after the sources: the manifest is written into the staging directory, which is
bundled and encrypted -/
def bundleStaged (a : RunArgs) (staging : Path) (d : Disk FileData) (components : List Component) :
    Except PyExc (Bytes × EncryptionMode × List PyText) :=
  let embedded := Manifest.build a.sid a.instance_ components (isoformat a.now) none
  match overwrite h d (staging, [manifestFile]) (.manifest embedded) with
  | none => .error (h.exc .manifestFile)
  | some d =>
    match archiveOf h staging d with
    | .error e => .error e
    | .ok archive => maybeEncrypt h a.job.encryption archive

/-- what a run comes to before its delivery -/
def makeBundle (a : RunArgs) (staging : Path) (sources : List SourceRun) (d : Disk FileData) :
    Except Raised Made :=
  match produce h staging sources d with
  | (_, .error e, errors) => .error ⟨raisedExc h e, takenExc h e, [], errors.map shown⟩
  | (d, .ok components, errors) =>
    let raised := fun e =>
      Raised.mk (raisedExc h e) (takenExc h e) (components.map PyComponent.show) (errors.map shown)
    match components.mapM (PyComponent.write h) with
    | none => .error (raised (h.exc .unwritable))
    | some written =>
      match bundleStaged h a staging d written with
      | .error e => .error (raised e)
      | .ok (archive, mode, more) => .ok ⟨written, (errors ++ more).map shown, archive, mode⟩

end

/-! ## a host -/

/-- every file is readable, and every tool works -/
def plainHost : Host where
  fits := fits
  mayRead _ := true
  mayWrite _ := true
  mayUnlink _ := true
  render data := match data with
    | .bytes b => b
    | _ => []
  sha256 b := b.map (fun x => Char.ofNat x.toNat)
  exc _ := { type := "OSError".toList, text := some (lit "failed".toList) }
  str _ := lit "?".toList
  redact t := t
  pack _ := .ok [1, 2, 3]
  encrypt _ archive := .ok (0 :: archive)

end BackupHelper
