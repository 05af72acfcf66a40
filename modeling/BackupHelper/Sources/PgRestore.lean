import BackupHelper.Lib.Prog
import BackupHelper.Lib.Utf8
import BackupHelper.Runner
import BackupHelper.Sources.PreludeText

/-!
# Carrying out a restore of PostgreSQL

The tools are called one after the other: the catalog query, the listing of the dump, the script of the
dump into a file, and `psql` with the prelude and the script; or `pg_restore` right on the database.

* `PgCall`, `pgRestore`      the calls of a restore, and what it does with their answers;
* `PgTools`, `PgTools.step`  what a call does to the database and to the files;
* `Documented`               what is relied on of the tools;
* `restore_atomic`           **a dump of the custom format is restored whole or not at all**, and a restore
                             that returns has restored it.
-/

set_option linter.unusedSectionVars false

namespace BackupHelper
open Text Effects

/-! ## the calls -/

/-- what a tool hands back, `rows` the records that it prints for the catalog query -/
structure Completed where
  returncode : ℕ
  rows : List Row
  stdout : Str
  stderr : Str
  /-- PostgreSQL quotes the names -/
  quoted : ∀ o ∈ objectsOf rows, Sql.Closed o.quoted
  /-- no identifier contains a NUL -/
  printed : '\x00' ∉ stdout

inductive PgCall where
  /-- `psql … --command "SET search_path = ''" --command LIVE_OBJECTS_SQL` -/
  | catalog
  /-- `psql … --command "SHOW server_version_num"` -/
  | showVersion
  /-- `pg_restore --list <dump>` -/
  | list
  /-- `pg_restore --clean --if-exists --no-owner --single-transaction --file <script> <dump>` -/
  | generate (script : Str)
  /-- `pg_restore --clean --if-exists --no-owner --single-transaction --dbname <database> <dump>` -/
  | direct
  /-- `psql --quiet --set ON_ERROR_STOP=1`, each file with `--file` -/
  | files (names : List Str)
  /-- `psql --quiet --set ON_ERROR_STOP=1 --file <dump>` -/
  | plain
  /-- the same with a file as its standard input -/
  | stdin (name : Str)

inductive FileOp where
  | makeDir
  | removeDir
  | writeText (name text : Str)
  | commentOut (name : Str) (line : Bytes)
  /-- gunzip or copy the dump -/
  | copy (name : Str)
  | unlink (name : Str)

inductive PgOp where
  | call (c : PgCall)
  | file (o : FileOp)

def PgOp.Res : PgOp → Type
  | .call _ => Except Exc Completed
  | .file _ => Except Exc Unit

abbrev PgM := Prog PgOp PgOp.Res

def run (c : PgCall) : PgM (Except Exc Completed) := .op (PgOp.call c) .ret
def onFile (o : FileOp) : PgM (Except Exc Unit) := .op (PgOp.file o) .ret

def sourceError (text : Str) : Exc := ⟨"SourceError".toList, text⟩

def restoreFailed (text : Str) : Exc := sourceError ("postgres restore failed: ".toList ++ text)

/-- `"".join(dump.suffixes)` -/
def suffixes (name : Str) : Str :=
  if name.getLast? = some '.' then [] else (name.dropWhile (· = '.')).dropWhile (· ≠ '.')

def dumpSuffix : Str := ".dump".toList
def gzSuffix : Str := ".gz".toList

/-- a dump of the custom format -/
def isCustom (dump : Str) : Bool := dumpSuffix.isSuffixOf (suffixes (fileName dump))

def preludeName : Str := "replace.sql".toList
def scriptName : Str := "restore.sql".toList
def plainName : Str := "tmp.sql".toList

/-- `SET transaction_timeout = 0;`, which PostgreSQL 16 and older reject -/
def transactionTimeout : Bytes := Utf8.utf8 "SET transaction_timeout = 0;\n".toList

def isOld (version : ℕ) : Bool := 0 < version ∧ version < 170000

/-- the first place of `sub` -/
def findBytes (sub s : Bytes) : Option ℕ := (List.range (s.length + 1)).find? fun i => sub.isPrefixOf (s.drop i)

def objectComment : Bytes := Utf8.utf8 "\n--\n-- Name: ".toList
def dashes : Bytes := Utf8.utf8 "-- ".toList

/-- a line of the script's header becomes a comment of the same length -/
def commentOutHeaderLine (script line : Bytes) : Bytes :=
  let head := script.take (64 * 1024)
  match findBytes (10 :: line) head with
  | none => script
  | some i =>
    if (findBytes objectComment head).any (· < i) then script
    else
      let comment := dashes ++ line.drop 3
      script.take (i + 1) ++ comment ++ script.drop (i + 1 + comment.length)

/-! ## the program -/

def serverVersionOf (c : Completed) : ℕ :=
  if c.returncode = 0 then (numeral ((strip c.stdout).take 500)).getD 0 else 0

/-- psql's first ERROR or FATAL and what follows it -/
def psqlError (stderr : Str) : Str :=
  let lines := (splitlines (strip stderr)).map strip
  let isError := fun line : Str => "ERROR:".toList <:+: line ∨ "FATAL:".toList <:+: line
  match lines.findIdx? fun line => decide (isError line) with
  | none => (joined ['\n'] lines).drop ((joined ['\n'] lines).length - 500)
  | some i => (joined ['\n'] (lines.drop i)).take 500

def asSourceError {α : Type} : Except Str α → Except Exc α
  | .ok a => .ok a
  | .error text => .error (sourceError text)

/-- with what the listing prints -/
def planListed (dump : Str) (live : Completed) (answer : Except Exc Completed) : Except Exc (Option Replacement) :=
  match answer with
  | .error e => .error e
  | .ok listing =>
    asSourceError (planReplacement (fileName dump) (.ok live.rows)
      (if listing.returncode ≠ 0 then .error listing.stderr else .ok listing.stdout))

/-- with what the catalog query prints; the dump is listed only when the target holds an object -/
def planLive (dump : Str) (answer : Except Exc Completed) : PgM (Except Exc (Option Replacement)) :=
  match answer with
  | .error e => pure (.error e)
  | .ok live =>
    if live.returncode ≠ 0 then
      pure (asSourceError (planReplacement (fileName dump) (.error live.stderr) (.error [])))
    else if objectsOf live.rows = [] then
      pure (asSourceError (planReplacement (fileName dump) (.ok live.rows) (.ok [])))
    else do
      let answer ← run .list
      pure (planListed dump live answer)

def planOfTarget (dump : Str) : PgM (Except Exc (Option Replacement)) := do
  let answer ← run .catalog
  planLive dump answer

/-- go on unless an exception was raised -/
def unlessRaised (o : FileOp) (p : PgM (Except Exc Unit)) : PgM (Except Exc Unit) := do
  match ← onFile o with
  | .error e => pure (.error e)
  | .ok () => p

/-- the temporary directory or file is removed, whatever became of the block -/
def lastly (o : FileOp) (p : PgM (Except Exc Unit)) : PgM (Except Exc Unit) := do
  let r ← p
  match ← onFile o with
  | .error e => pure (.error e)
  | .ok () => pure r

/-- an exit code other than 0 is a failure -/
def orFailed (text : Str → Str) (answer : Except Exc Completed) : Except Exc Unit :=
  match answer with
  | .error e => .error e
  | .ok c => if c.returncode ≠ 0 then .error (restoreFailed (text c.stderr)) else .ok ()

def applyScript : PgM (Except Exc Unit) := do
  let answer ← run (.files [preludeName, scriptName])
  pure (orFailed psqlError answer)

/-- with the script that pg_restore was to write -/
def runScript (plan : Replacement) (answer : Except Exc Completed) : PgM (Except Exc Unit) :=
  match answer with
  | .error e => pure (.error e)
  | .ok generate =>
    if generate.returncode ≠ 0 then pure (.error (restoreFailed (errorText generate.stderr)))
    else if isOld plan.serverVersion then
      unlessRaised (.commentOut scriptName transactionTimeout) applyScript
    else applyScript

/-- drop what `plan` replaces and run the dump's script, in ONE transaction -/
def restoreReplacing (plan : Replacement) : PgM (Except Exc Unit) :=
  unlessRaised .makeDir <|
    lastly .removeDir <|
      unlessRaised (.writeText preludeName (replacementPrelude plan)) do
        let answer ← run (.generate scriptName)
        runScript plan answer

/-- a dump in plain format through psql -/
def restorePlain (dump : Str) : PgM (Except Exc Unit) := do
  match ← run .showVersion with
  | .error e => pure (.error e)
  | .ok shown =>
    let old := isOld (serverVersionOf shown)
    if !gzSuffix.isSuffixOf (fileName dump) && !old then do
      let answer ← run .plain
      pure (orFailed errorText answer)
    else
      unlessRaised (.copy plainName) <|
        lastly (.unlink plainName) <|
          let apply : PgM (Except Exc Unit) := do
            let answer ← run (.stdin plainName)
            pure (orFailed errorText answer)
          if old then unlessRaised (.commentOut plainName transactionTimeout) apply else apply

/-- with the plan of the target -/
def restoreCustom (plan : Except Exc (Option Replacement)) : PgM (Except Exc Unit) :=
  match plan with
  | .error e => pure (.error e)
  | .ok (some plan) => restoreReplacing plan
  | .ok none => do
    let answer ← run .direct
    pure (orFailed errorText answer)

/-- `_pg_restore` -/
def pgRestore (dump : Str) : PgM (Except Exc Unit) :=
  if isCustom dump then do
    let plan ← planOfTarget dump
    restoreCustom plan
  else restorePlain dump

/-! ## the tools -/

/-- the tools on one dump and one server -/
structure PgTools (DB : Type) where
  server : Sql.Server Str DB
  /-- the commands that psql reads in a file -/
  read : Bytes → List (Sql.Command Str)
  /-- the script that `pg_restore --single-transaction --file` writes -/
  script : Bytes
  /-- what `pg_restore --single-transaction --dbname` makes of the database; none where it fails -/
  direct : DB → Option DB
  /-- the dump, unzipped -/
  plain : Bytes

/-- how one call ends -/
structure Ends where
  /-- a timeout, or what the operating system raises -/
  raised : Option Exc
  foreign : ∀ e ∈ raised, e.type ≠ "SourceError".toList
  completed : Completed
  /-- the connection is lost, or psql killed, behind that many commands -/
  lost : Option ℕ
  /-- the file that a call leaves that did not end well -/
  left : Bytes

def Ends.calm : Ends where
  raised := none
  foreign := by simp
  completed := ⟨0, [], [], [], by simp [objectsOf], by simp⟩
  lost := none
  left := []

structure PgTarget (DB : Type) where
  db : DB
  files : Str → Option Bytes
  /-- a connection was lost -/
  lost : Bool

section
variable {DB : Type} (t : PgTools DB)

def PgTarget.write (w : PgTarget DB) (name : Str) (b : Bytes) : PgTarget DB :=
  { w with files := fun n => if n = name then some b else w.files n }

/-- what a tool that changes the database hands back -/
def Ends.answer (f : Ends) (ended : Bool) : Except Exc Completed :=
  match f.raised with
  | some e => .error e
  | none => .ok { f.completed with returncode := if ended && f.lost.isNone then 0 else f.completed.returncode.succ }

/-- psql with these commands -/
def PgTools.psql (cs : List (Sql.Command Str)) (f : Ends) (w : PgTarget DB) : Except Exc Completed × PgTarget DB :=
  let played := t.server.play ((f.lost.map cs.take).getD cs) ⟨w.db, none⟩
  (f.answer played.2, { w with db := played.1.stored, lost := w.lost || f.lost.isSome })

def PgTools.contents (w : PgTarget DB) (names : List Str) : List (Sql.Command Str) :=
  names.flatMap fun n => ((w.files n).map t.read).getD []

def PgTools.onCall (c : PgCall) (f : Ends) (w : PgTarget DB) : Except Exc Completed × PgTarget DB :=
  match c with
  | .generate script =>
    match f.raised with
    | some e => (.error e, w.write script f.left)
    | none => (.ok f.completed, w.write script (if f.completed.returncode = 0 then t.script else f.left))
  | .direct =>
    let db := if f.lost = some 0 then none else t.direct w.db
    (f.answer db.isSome, { w with db := db.getD w.db, lost := w.lost || f.lost.isSome })
  | .files names => t.psql (t.contents w names) f w
  | .plain => t.psql (t.read t.plain) f w
  | .stdin name => t.psql (t.contents w [name]) f w
  | _ =>
    match f.raised with
    | some e => (.error e, w)
    | none => (.ok f.completed, w)

def FileOp.written (t : PgTools DB) (o : FileOp) (w : PgTarget DB) : Option (Str × Bytes) :=
  match o with
  | .writeText name text => some (name, Utf8.utf8 text)
  | .commentOut name line => (w.files name).map fun b => (name, commentOutHeaderLine b line)
  | .copy name => some (name, t.plain)
  | _ => none

def PgTools.onFile (o : FileOp) (f : Ends) (w : PgTarget DB) : Except Exc Unit × PgTarget DB :=
  match f.raised, o.written t w with
  | some e, some (name, _) => (.error e, w.write name f.left)
  | some e, none => (.error e, w)
  | none, some (name, b) => (.ok (), w.write name b)
  | none, none => (.ok (), w)

def PgTools.step : (o : PgOp) → Ends → PgTarget DB → o.Res × PgTarget DB
  | .call c, f, w => t.onCall c f w
  | .file o, f, w => t.onFile o f w

/-! ## what is relied on -/

/-- the script as it is run -/
def PgTools.scriptFor (old : Bool) : Bytes :=
  if old then commentOutHeaderLine t.script transactionTimeout else t.script

/-- psql cuts a file at its semicolons; a setting of the session is not stored; the script of
`--single-transaction` is one transaction, `body` in it -/
structure Documented (body : Bool → List (Sql.Command Str)) : Prop where
  read : CutsAtSemicolons t.read
  settings : ∀ st ∈ preludeSettings, ∀ d d', t.server.exec st.bare d = some d' → d' = d
  script : ∀ old, t.read (t.scriptFor old) = .begin :: (body old ++ [.commit])
  inner : ∀ old, ∀ c ∈ body old, c ≠ .commit

/-- the dump is restored: by `pg_restore`, or by its script behind what the plan drops -/
def PgRestored (body : Bool → List (Sql.Command Str)) (dump : Str) (d d' : DB) : Prop :=
  t.direct d = some d' ∨ ∃ rows listing plan,
    planReplacement (fileName dump) (.ok rows) (.ok listing) = .ok (some plan) ∧
      t.server.work (dropping plan ++ .begin :: body (isOld plan.serverVersion)) d = some d'

structure AllOrNothing (body : Bool → List (Sql.Command Str)) (dump : Str) (d : DB) (r : Except Exc Unit)
    (w : PgTarget DB) : Prop where
  whole : w.db = d ∨ PgRestored t body dump d w.db
  returned : r = .ok () → PgRestored t body dump d w.db
  failed : ∀ text, r = .error (sourceError text) → w.lost = false → w.db = d

/-! ## what a call leaves alone -/

variable {t} {body : Bool → List (Sql.Command Str)} {dump : Str} {d : DB}

/-- an operation on files -/
theorem onFile_db (o : FileOp) (f : Ends) (w : PgTarget DB) :
    (t.onFile o f w).2.db = w.db ∧ (t.onFile o f w).2.lost = w.lost := by
  unfold PgTools.onFile
  cases f.raised <;> cases o.written t w <;> exact ⟨rfl, rfl⟩

theorem onFile_raised {o : FileOp} {f : Ends} {w : PgTarget DB} {e : Exc} (h : (t.onFile o f w).1 = .error e) :
    e.type ≠ "SourceError".toList := by
  have hraised : f.raised = some e := by
    unfold PgTools.onFile at h
    cases hr : f.raised <;> cases hw : o.written t w <;> rw [hr, hw] at h <;> cases h <;> rfl
  exact f.foreign e hraised

theorem onFile_written {o : FileOp} {f : Ends} {w : PgTarget DB} {name : Str} {b : Bytes}
    (hw : o.written t w = some (name, b)) (h : (t.onFile o f w).1 = .ok ()) :
    (t.onFile o f w).2 = w.write name b := by
  unfold PgTools.onFile at h ⊢
  rw [hw] at h ⊢
  cases hraised : f.raised with
  | none => rfl
  | some e =>
    rw [hraised] at h
    cases h

/-- a call that only asks -/
theorem onCall_asks {c : PgCall} (hc : c = .catalog ∨ c = .list ∨ c = .showVersion) (f : Ends) (w : PgTarget DB) :
    (t.onCall c f w).2 = w := by
  rcases hc with rfl | rfl | rfl
  all_goals
    unfold PgTools.onCall
    cases f.raised <;> rfl

theorem onCall_generate (script : Str) (f : Ends) (w : PgTarget DB) :
    (t.onCall (.generate script) f w).2.db = w.db ∧
      ∀ c, (t.onCall (.generate script) f w).1 = .ok c → c.returncode = 0 →
        (t.onCall (.generate script) f w).2 = w.write script t.script := by
  unfold PgTools.onCall
  cases hraised : f.raised with
  | some e =>
    refine ⟨rfl, fun c h => ?_⟩
    cases h
  | none =>
    refine ⟨rfl, fun c h hzero => ?_⟩
    obtain rfl := Except.ok.inj h
    show w.write script (if f.completed.returncode = 0 then t.script else f.left) = _
    rw [if_pos hzero]

theorem answer_cases (f : Ends) (ended : Bool) : (∃ e, f.raised = some e ∧ f.answer ended = .error e) ∨
    ∃ c, f.answer ended = .ok c ∧ (c.returncode = 0 ↔ ended = true ∧ f.lost = none) := by
  unfold Ends.answer
  cases hraised : f.raised with
  | some e => exact Or.inl ⟨e, rfl, rfl⟩
  | none =>
    refine Or.inr ⟨_, rfl, ?_⟩
    cases ended <;> cases f.lost <;> simp

/-! ## one call that changes the database -/

theorem AllOrNothing.of_same {w : PgTarget DB} (h : w.db = d) (e : Exc) :
    AllOrNothing t body dump d (.error e) w where
  whole := Or.inl h
  returned := by
    intro he
    cases he
  failed _ _ _ := h

/-- what a call does that changes the database all at once, or not -/
structure AtOnce (t : PgTools DB) (body : Bool → List (Sql.Command Str)) (dump : Str) (d : DB) (f : Ends)
    (r : Except Exc Completed × PgTarget DB) : Prop where
  answered : ∃ ended, r.1 = f.answer ended ∧ (ended = true → f.lost = none → PgRestored t body dump d r.2.db) ∧
    (ended = false → f.lost = none → r.2.db = d)
  whole : r.2.db = d ∨ PgRestored t body dump d r.2.db
  lost : r.2.lost = false → f.lost = none

theorem AtOnce.told {f : Ends} {r : Except Exc Completed × PgTarget DB} (h : AtOnce t body dump d f r)
    (text : Str → Str) : AllOrNothing t body dump d (orFailed text r.1) r.2 := by
  obtain ⟨ended, hanswer, hended, hnot⟩ := h.answered
  rw [hanswer]
  rcases answer_cases f ended with ⟨e, hraised, he⟩ | ⟨c, hc, hzero⟩
  · rw [he]
    refine ⟨h.whole, fun hok => ?_, fun m hm => ?_⟩
    · cases hok
    · have hforeign := f.foreign e hraised
      rw [Except.error.inj hm] at hforeign
      exact absurd rfl hforeign
  · rw [hc]
    unfold orFailed
    dsimp only
    by_cases hcode : c.returncode = 0
    · rw [if_neg (not_not_intro hcode)]
      obtain ⟨rfl, hlost⟩ := hzero.mp hcode
      refine ⟨h.whole, fun _ => hended rfl hlost, fun m hm => ?_⟩
      cases hm
    · rw [if_pos hcode]
      refine ⟨h.whole, fun hok => ?_, fun m _ hlost => ?_⟩
      · cases hok
      · have hnone := h.lost hlost
        cases ended with
        | true => exact absurd (hzero.mpr ⟨rfl, hnone⟩) hcode
        | false => exact hnot rfl hnone

theorem direct_atOnce {w : PgTarget DB} (hw : w.db = d) (f : Ends) :
    AtOnce t body dump d f (t.onCall .direct f w) := by
  show AtOnce t body dump d f (f.answer (if f.lost = some 0 then none else t.direct w.db).isSome,
    { w with db := (if f.lost = some 0 then none else t.direct w.db).getD w.db, lost := w.lost || f.lost.isSome })
  rw [hw]
  have hlost : (w.lost || f.lost.isSome) = false → f.lost = none := by
    intro h
    rw [Bool.or_eq_false_iff] at h
    exact Option.isSome_eq_false_iff.mp h.2 |> Option.isNone_iff_eq_none.mp
  by_cases hzero : f.lost = some 0
  · rw [if_pos hzero]
    refine ⟨⟨false, rfl, nofun, fun _ _ => rfl⟩, Or.inl rfl, hlost⟩
  · rw [if_neg hzero]
    cases hdirect : t.direct d with
    | none => exact ⟨⟨false, rfl, nofun, fun _ _ => rfl⟩, Or.inl rfl, hlost⟩
    | some d' => exact ⟨⟨true, rfl, fun _ _ => Or.inl hdirect, nofun⟩, Or.inr (Or.inl hdirect), hlost⟩

/-- psql with commands that are one transaction -/
theorem psql_atOnce {cs inner : List (Sql.Command Str)} (hcs : t.server.Transactional cs inner)
    (hinner : ∀ d', t.server.work inner d = some d' → PgRestored t body dump d d') {w : PgTarget DB} (hw : w.db = d)
    (f : Ends) : AtOnce t body dump d f (t.psql cs f w) := by
  have hlost : (w.lost || f.lost.isSome) = false → f.lost = none := by
    intro h
    rw [Bool.or_eq_false_iff] at h
    exact Option.isSome_eq_false_iff.mp h.2 |> Option.isNone_iff_eq_none.mp
  obtain ⟨sent, hsent⟩ : ∃ sent, sent = (f.lost.map cs.take).getD cs := ⟨_, rfl⟩
  have hall : f.lost = none → sent = cs := by
    intro hnone
    rw [hsent, hnone]
    rfl
  have hcut : sent <+: cs := by
    rw [hsent]
    cases f.lost with
    | none => exact List.prefix_rfl
    | some n => exact List.take_prefix n cs
  show AtOnce t body dump d f (f.answer (t.server.play ((f.lost.map cs.take).getD cs) ⟨w.db, none⟩).2,
    { w with db := (t.server.play ((f.lost.map cs.take).getD cs) ⟨w.db, none⟩).1.stored,
             lost := w.lost || f.lost.isSome })
  rw [← hsent, hw]
  refine ⟨⟨_, rfl, fun hended hnone => ?_, fun hended hnone => ?_⟩, ?_, hlost⟩
  · rw [hall hnone] at hended ⊢
    rcases hcs.ended d with hplay | ⟨d', hwork, hplay⟩
    · rw [hplay] at hended
      cases hended
    · rw [hplay]
      exact hinner d' hwork
  · rw [hall hnone] at hended ⊢
    rcases hcs.ended d with hplay | ⟨d', -, hplay⟩
    · rw [hplay]
    · rw [hplay] at hended
      cases hended
  · rcases hcs.atomic hcut d with hsame | ⟨d', hwork, hdone⟩
    · exact Or.inl hsame
    · right
      show PgRestored t body dump d (t.server.play sent ⟨d, none⟩).1.stored
      rw [hdone]
      exact hinner d' hwork

/-- the prelude and the script are one transaction -/
theorem restore_transactional (hdoc : Documented t body) {plan : Replacement} (hquoted : plan.Quoted) (old : Bool) :
    t.server.Transactional (t.read (Utf8.utf8 (replacementPrelude plan)) ++ t.read (t.scriptFor old))
      (dropping plan ++ .begin :: body old) where
  shape := by
    refine ⟨preludeSettings.dropLast.map fun st => .plain st.bare, ?_, ?_⟩
    · rw [hdoc.read _ _ (statements_prelude hquoted), prelude_commands, hdoc.script]
      simp only [List.append_assoc, List.cons_append]
    · intro c hc
      obtain ⟨st, hst, rfl⟩ := List.mem_map.mp hc
      exact ⟨st.bare, rfl, hdoc.settings st (List.dropLast_subset _ hst)⟩
  inner := by
    intro c hc
    rcases List.mem_append.mp hc with hc | hc
    · obtain ⟨st, -, rfl⟩ := List.mem_map.mp hc
      nofun
    · rcases List.mem_cons.mp hc with rfl | hc
      · nofun
      · exact hdoc.inner old c hc

/-! ## the program -/

/-- wherever the restore is stopped -/
def Intact (t : PgTools DB) (body : Bool → List (Sql.Command Str)) (dump : Str) (d : DB) (_ w : PgTarget DB) : Prop :=
  w.db = d ∨ PgRestored t body dump d w.db

theorem wp_unlessRaised {o : FileOp} {p : PgM (Except Exc Unit)} {w : PgTarget DB} (hw : w.db = d)
    (hp : ∀ f, (t.onFile o f w).1 = .ok () → (t.onFile o f w).2.db = d →
      p.wp t.step (Intact t body dump d) (AllOrNothing t body dump d) (t.onFile o f w).2) :
    (unlessRaised o p).wp t.step (Intact t body dump d) (AllOrNothing t body dump d) w := by
  intro f
  have hdb : (t.onFile o f w).2.db = d := (onFile_db o f w).1.trans hw
  refine ⟨Or.inl hdb, ?_⟩
  show Prog.wp t.step (Intact t body dump d) (AllOrNothing t body dump d) (match (t.onFile o f w).1 with
    | .error e => pure (.error e)
    | .ok () => p) (t.onFile o f w).2
  cases hr : (t.onFile o f w).1 with
  | error e => exact AllOrNothing.of_same hdb e
  | ok u => exact hp f hr hdb

/-- what is cleaned up behind a block does not change what became of the database -/
theorem wp_lastly {o : FileOp} {p : PgM (Except Exc Unit)} {w : PgTarget DB}
    (hp : p.wp t.step (Intact t body dump d) (AllOrNothing t body dump d) w) :
    (lastly o p).wp t.step (Intact t body dump d) (AllOrNothing t body dump d) w := by
  apply Prog.wp_seq hp
  intro r w' hr f
  obtain ⟨hdb, hlost⟩ := onFile_db o f w' (t := t)
  refine ⟨?_, ?_⟩
  · show (t.onFile o f w').2.db = d ∨ PgRestored t body dump d (t.onFile o f w').2.db
    rw [hdb]
    exact hr.whole
  · show Prog.wp t.step (Intact t body dump d) (AllOrNothing t body dump d) (match (t.onFile o f w').1 with
      | .error e => pure (.error e)
      | .ok () => pure r) (t.onFile o f w').2
    cases hraised : (t.onFile o f w').1 with
    | error e =>
      show AllOrNothing t body dump d (.error e) (t.onFile o f w').2
      refine ⟨?_, fun hok => ?_, fun text he => ?_⟩
      · rw [hdb]
        exact hr.whole
      · cases hok
      · have hforeign := onFile_raised hraised
        rw [Except.error.inj he] at hforeign
        exact absurd rfl hforeign
    | ok u =>
      show AllOrNothing t body dump d r (t.onFile o f w').2
      refine ⟨?_, fun hok => ?_, fun text he hkept => ?_⟩
      · rw [hdb]
        exact hr.whole
      · rw [hdb]
        exact hr.returned hok
      · rw [hdb]
        exact hr.failed text he (hlost ▸ hkept)

theorem wp_applyScript (hdoc : Documented t body) {rows : List Row} {listing : Str} {plan : Replacement}
    (hplan : planReplacement (fileName dump) (.ok rows) (.ok listing) = .ok (some plan)) (hquoted : plan.Quoted)
    {w : PgTarget DB} (hw : w.db = d) (hprelude : w.files preludeName = some (Utf8.utf8 (replacementPrelude plan)))
    (hscript : w.files scriptName = some (t.scriptFor (isOld plan.serverVersion))) :
    applyScript.wp t.step (Intact t body dump d) (AllOrNothing t body dump d) w := by
  have hcontents : t.contents w [preludeName, scriptName] =
      t.read (Utf8.utf8 (replacementPrelude plan)) ++ t.read (t.scriptFor (isOld plan.serverVersion)) := by
    simp [PgTools.contents, hprelude, hscript]
  intro f
  have honce : AtOnce t body dump d f (t.onCall (.files [preludeName, scriptName]) f w) := by
    show AtOnce t body dump d f (t.psql (t.contents w [preludeName, scriptName]) f w)
    rw [hcontents]
    exact psql_atOnce (restore_transactional hdoc hquoted _)
      (fun d' hwork => Or.inr ⟨rows, listing, plan, hplan, hwork⟩) hw f
  exact ⟨honce.whole, honce.told psqlError⟩

theorem wp_restoreReplacing (hdoc : Documented t body) {rows : List Row} {listing : Str} {plan : Replacement}
    (hplan : planReplacement (fileName dump) (.ok rows) (.ok listing) = .ok (some plan)) (hquoted : plan.Quoted)
    {w : PgTarget DB} (hw : w.db = d) :
    (restoreReplacing plan).wp t.step (Intact t body dump d) (AllOrNothing t body dump d) w := by
  apply wp_unlessRaised hw
  intro f _ hmade
  apply wp_lastly
  apply wp_unlessRaised hmade
  intro f' hok hwrote
  have hprelude := onFile_written (t := t) (o := .writeText preludeName (replacementPrelude plan)) rfl hok
  rw [hprelude] at hwrote ⊢
  intro g
  obtain ⟨hdb, hfiles⟩ := onCall_generate (t := t) scriptName g
    ((t.onFile .makeDir f w).2.write preludeName (Utf8.utf8 (replacementPrelude plan)))
  have hsame := hdb.trans hwrote
  refine ⟨Or.inl hsame, ?_⟩
  show Prog.wp t.step (Intact t body dump d) (AllOrNothing t body dump d) (runScript plan
    (t.onCall (.generate scriptName) g _).1) (t.onCall (.generate scriptName) g _).2
  cases hanswer : (t.onCall (.generate scriptName) g
    ((t.onFile .makeDir f w).2.write preludeName (Utf8.utf8 (replacementPrelude plan)))).1 with
  | error e => exact AllOrNothing.of_same hsame e
  | ok c =>
    unfold runScript
    dsimp only
    by_cases hcode : c.returncode = 0
    · rw [if_neg (not_not_intro hcode)]
      have hgenerated := hfiles c hanswer hcode
      rw [hgenerated] at hsame ⊢
      by_cases hold : isOld plan.serverVersion = true
      · rw [if_pos hold]
        apply wp_unlessRaised hsame
        intro g' hok' hcommented
        -- the line that an old server rejects is gone from the script
        have hscript := onFile_written (t := t) (o := .commentOut scriptName transactionTimeout) rfl hok'
        rw [hscript] at hcommented ⊢
        apply wp_applyScript hdoc hplan hquoted hcommented rfl
        unfold PgTools.scriptFor
        rw [if_pos hold]
        rfl
      · rw [if_neg hold]
        apply wp_applyScript hdoc hplan hquoted hsame rfl
        unfold PgTools.scriptFor
        rw [if_neg hold]
        rfl
    · rw [if_pos hcode]
      exact AllOrNothing.of_same hsame _

/-- a plan that is made of what the tools print -/
def PlanOf (dump : Str) (r : Except Exc (Option Replacement)) : Prop :=
  ∀ plan, r = .ok (some plan) → plan.Quoted ∧ ∃ rows listing,
    planReplacement (fileName dump) (.ok rows) (.ok listing) = .ok (some plan)

theorem PlanOf.error (e : Exc) : PlanOf dump (.error e) := by
  intro plan h
  cases h

theorem PlanOf.printed (c : Completed) {listing : Str} (hnul : '\x00' ∉ listing) :
    PlanOf dump (asSourceError (planReplacement (fileName dump) (.ok c.rows) (.ok listing))) := by
  intro plan h
  cases hplan : planReplacement (fileName dump) (.ok c.rows) (.ok listing) with
  | error text =>
    rw [hplan] at h
    cases h
  | ok made =>
    rw [hplan] at h
    obtain rfl := Except.ok.inj h
    exact ⟨quoted_of_plan c.quoted hnul hplan, _, _, hplan⟩

theorem planListed_planOf (live : Completed) (answer : Except Exc Completed) :
    PlanOf dump (planListed dump live answer) := by
  cases answer with
  | error e => exact PlanOf.error e
  | ok listing =>
    unfold planListed
    dsimp only
    by_cases hcode : listing.returncode = 0
    · rw [if_neg (not_not_intro hcode)]
      exact PlanOf.printed live listing.printed
    · rw [if_pos hcode]
      by_cases hobjects : objectsOf live.rows = []
      · have hunread : planReplacement (fileName dump) (.ok live.rows) (.error listing.stderr) =
            planReplacement (fileName dump) (.ok live.rows) (.ok []) := by
          unfold planReplacement
          simp only [hobjects, ite_true]
        rw [hunread]
        exact PlanOf.printed live (by simp)
      · have hfails : ∃ text,
            planReplacement (fileName dump) (.ok live.rows) (.error listing.stderr) = .error text := by
          unfold planReplacement
          simp only [hobjects, ite_false]
          exact ⟨_, rfl⟩
        obtain ⟨text, htext⟩ := hfails
        rw [htext]
        exact PlanOf.error _

/-- the plan is made without a change -/
theorem wp_planOfTarget (w : PgTarget DB) : (planOfTarget dump).wp t.step (fun _ w' => w' = w)
    (fun plan w' => w' = w ∧ PlanOf dump plan) w := by
  intro f
  have hsame : (t.onCall .catalog f w).2 = w := onCall_asks (Or.inl rfl) f w
  refine ⟨hsame, ?_⟩
  show Prog.wp t.step (fun _ w' => w' = w) (fun plan w' => w' = w ∧ PlanOf dump plan)
    (planLive dump (t.onCall .catalog f w).1) (t.onCall .catalog f w).2
  rw [hsame]
  cases (t.onCall .catalog f w).1 with
  | error e => exact ⟨rfl, PlanOf.error e⟩
  | ok live =>
    unfold planLive
    dsimp only
    split
    · refine ⟨rfl, fun plan h => ?_⟩
      cases h
    · split
      · exact ⟨rfl, PlanOf.printed live (by simp)⟩
      · intro g
        have hlisted : (t.onCall .list g w).2 = w := onCall_asks (Or.inr (Or.inl rfl)) g w
        exact ⟨hlisted, hlisted, planListed_planOf live _⟩

/-- **A dump of the custom format is restored whole or not at all.**  Whatever the tools answer and
wherever the restore is stopped, the database is as it was or the dump is restored; it is restored if
the restore returns, and as it was if a tool reports a failure and no connection was lost. -/
theorem restore_atomic (hdoc : Documented t body) (hcustom : isCustom dump = true) (w : PgTarget DB)
    (fs : List Ends) :
    (∀ m ∈ (pgRestore dump).moves t.step Ends.calm fs w, m.2.db = w.db ∨ PgRestored t body dump w.db m.2.db) ∧
    AllOrNothing t body dump w.db ((pgRestore dump).exec t.step Ends.calm fs w).1
      ((pgRestore dump).exec t.step Ends.calm fs w).2 := by
  have hwp : (pgRestore dump).wp t.step (Intact t body dump w.db) (AllOrNothing t body dump w.db) w := by
    unfold pgRestore
    rw [if_pos hcustom]
    have hplan : (planOfTarget dump).wp t.step (fun _ w' => w' = w) (fun plan w' => w' = w ∧ PlanOf dump plan) w :=
      wp_planOfTarget w
    apply Prog.wp_seq (Prog.wp_mono hplan (fun _ w' hw => Or.inl (congrArg PgTarget.db hw)) fun _ _ h => h)
    rintro plan w' ⟨rfl, hmade⟩
    cases plan with
    | error e => exact AllOrNothing.of_same rfl e
    | ok plan =>
      cases plan with
      | some plan =>
        obtain ⟨hquoted, rows, listing, hplan⟩ := hmade plan rfl
        exact wp_restoreReplacing hdoc hplan hquoted rfl
      | none =>
        intro f
        have honce : AtOnce t body dump w'.db f (t.onCall .direct f w') := direct_atOnce rfl f
        exact ⟨honce.whole, honce.told errorText⟩
  exact (Prog.wp_iff_exec Ends.calm _ _ _).mp hwp fs

end

/-! ## a session that is lost -/

/-- a database that keeps the statements it has carried out -/
def journalTools : PgTools (List Str) where
  server := ⟨fun st d => some (if st ∈ preludeSettings.map (·.bare) then d else d ++ [st]), fun _ => true⟩
  read := fileCommands
  script := Utf8.utf8 "BEGIN;\nCREATE TABLE public.plain (id integer);\nCOMMIT;\n".toList
  direct _ := none
  plain := []

def journalBody (_ : Bool) : List (Sql.Command Str) := [.plain "CREATE TABLE public.plain (id integer)".toList]

theorem journal_documented : Documented journalTools journalBody where
  read := fileCommands_cuts
  settings st hst d d' h := by
    have hmem : st.bare ∈ preludeSettings.map (·.bare) := List.mem_map_of_mem hst
    have hsame : journalTools.server.exec st.bare d = some d := congrArg some (if_pos hmem)
    exact (Option.some.inj (hsame.symm.trans h)).symm
  script old := by
    have hscript : journalTools.scriptFor old = journalTools.script := by
      cases old with
      | false => rfl
      | true =>
        show commentOutHeaderLine journalTools.script transactionTimeout = journalTools.script
        decide +kernel
    have hread : Sql.statements "BEGIN;\nCREATE TABLE public.plain (id integer);\nCOMMIT;\n".toList =
        some ["BEGIN".toList, "CREATE TABLE public.plain (id integer)".toList, "COMMIT".toList] := by decide +kernel
    rw [hscript]
    exact (fileCommands_cuts _ _ hread).trans
      (show _ = Sql.Command.begin :: (journalBody false ++ [.commit]) by decide +kernel)
  inner old c hc := by
    rw [List.mem_singleton.mp hc]
    nofun

/-- the catalog query and the listing are answered, and the connection is lost behind the eighth command -/
def lostSession : List Ends :=
  let printed (rows : List Row) (stdout : Str) (h : ∀ o ∈ objectsOf rows, Sql.Closed o.quoted)
      (hnul : '\x00' ∉ stdout) : Ends := { Ends.calm with completed := ⟨0, rows, stdout, [], h, hnul⟩ }
  [printed migratedRows [] (by
      intro o ho
      have hquoted : ∀ o ∈ objectsOf migratedRows, o.quoted.all Sql.ordinary = true := by decide +kernel
      exact Sql.closed_of_ordinary (hquoted o ho)) (by simp),
    printed [] (listingText listingHeader plainToc) (by simp [objectsOf]) (by decide +kernel),
    .calm, .calm, .calm, { Ends.calm with lost := some 8 }]

theorem restore_atomic_lost :
    let w : PgTarget (List Str) := ⟨["CREATE TABLE public.suggestion (id integer)".toList], fun _ => none, false⟩
    let run := (pgRestore "shop.dump".toList).exec journalTools.step Ends.calm lostSession w
    (∀ m ∈ (pgRestore "shop.dump".toList).moves journalTools.step Ends.calm lostSession w,
      m.2.db = w.db ∨ PgRestored journalTools journalBody "shop.dump".toList w.db m.2.db) ∧
    AllOrNothing journalTools journalBody "shop.dump".toList w.db run.1 run.2 := by
  intro w run
  exact restore_atomic journal_documented (by decide +kernel) w lostSession

end BackupHelper
