import BackupHelper.Lib.Lines
import BackupHelper.Snapshots

/-!
# Restoring a database over what the target holds

`planReplacement` compares the objects of the target with the table of contents of the dump, which it
reads from the text of `pg_restore --list`, and says what to drop before the dump's own script runs.

* `LiveObject`, `Row`        what the catalog query returns;
* `dumpKeys`                 the entries of the listing, each without its owner;
* `planReplacement`          the relations, routines, types and schemas to drop, if any;
* `preludeStatements`        the statements that drop them.
-/

namespace BackupHelper
open Text

/-! ## the objects of the target -/

/-- tables, partitioned tables, views, materialized views, foreign tables and sequences, as in
`relkind`; then types, domains, foreign keys, functions, procedures and aggregates -/
inductive Kind where
  | r | p | v | m | f | S | T | D | F | FN | PR | AG
  deriving DecidableEq

def objectType : Kind → Str
  | .r => "TABLE".toList
  | .p => "TABLE".toList
  | .v => "VIEW".toList
  | .m => "MATERIALIZED VIEW".toList
  | .f => "FOREIGN TABLE".toList
  | .S => "SEQUENCE".toList
  | .T => "TYPE".toList
  | .D => "DOMAIN".toList
  | .F => "FK CONSTRAINT".toList
  | .FN => "FUNCTION".toList
  | .PR => "PROCEDURE".toList
  | .AG => "AGGREGATE".toList

def relationTypes : List Str :=
  ["TABLE".toList, "VIEW".toList, "MATERIALIZED VIEW".toList, "FOREIGN TABLE".toList, "SEQUENCE".toList]

def dropOrder : List Str :=
  ["MATERIALIZED VIEW".toList, "VIEW".toList, "FOREIGN TABLE".toList, "TABLE".toList, "SEQUENCE".toList,
    "AGGREGATE".toList, "PROCEDURE".toList, "FUNCTION".toList, "DOMAIN".toList, "TYPE".toList]

def otherKinds : List Kind := [.AG, .FN, .PR, .D, .T]

structure LiveObject where
  kind : Kind
  schema : Str
  /-- the object, the foreign key's table, or `routine(argument types)` -/
  name : Str
  /-- the foreign key's name, empty otherwise -/
  constraint : Str
  /-- `schema.name` as PostgreSQL quotes it; a routine's DROP signature -/
  quoted : Str
  /-- the schema of the table a foreign key references -/
  refSchema : Str
  /-- no identifier is empty -/
  named : schema ≠ []
  /-- the query fills the last column for foreign keys only -/
  refs : kind ≠ .F → refSchema = []
  deriving DecidableEq

theorem LiveObject.noRef {k : Kind} : k ≠ .F → ([] : Str) = [] := fun _ => rfl

/-- the object as `dumpKeys` lists it -/
def LiveObject.key (o : LiveObject) : Str :=
  let key := objectType o.kind ++ ' ' :: o.schema ++ ' ' :: o.name
  if o.kind = .F then key ++ ' ' :: o.constraint else key

def LiveObject.isRelation (o : LiveObject) : Prop := objectType o.kind ∈ relationTypes

instance (o : LiveObject) : Decidable o.isRelation :=
  inferInstanceAs (Decidable (objectType o.kind ∈ relationTypes))

/-- a row of the catalog query: an object, a role of the cluster or the server's version -/
inductive Row where
  | object (o : LiveObject)
  | role (name : Str)
  | version (num : Str)

def objectsOf (rows : List Row) : List LiveObject :=
  rows.filterMap fun
    | .object o => some o
    | _ => none

def ownersOf (rows : List Row) : List Str :=
  rows.filterMap fun
    | .role name => some name
    | _ => none

/-- `int` of a text of digits -/
def numeral : Str → Option ℕ
  | [] => none
  | s => s.foldlM (fun n c => (decimal c).map (10 * n + ·)) 0

def serverVersion (rows : List Row) : ℕ :=
  ((rows.filterMap fun
    | .version num => numeral num
    | _ => none).head?).getD 0

/-! ## the table of contents of the dump -/

/-- `pg_type`, `pg_proc`, `pg_class`, `pg_constraint` and `pg_namespace` -/
def tocCatalogs : List Str :=
  ["1247".toList, "1255".toList, "1259".toList, "2606".toList, "2615".toList]

def isDecimal (c : Char) : Bool := (decimal c).isSome

def isSpace (c : Char) : Bool := c ∈ spaces

/-- what a line of the listing says of an entry: all that follows its id, catalog and oid -/
def tocEntry (line : Str) : Option Str := do
  match ← skip1 isDecimal line with
  | ';' :: s =>
    let s ← skip1 isSpace s
    if s.take 4 ∈ tocCatalogs then
      let s ← skip1 isSpace (s.drop 4)
      let s ← skip1 isDecimal s
      skip1 isSpace s
    else none
  | _ => none

/-- an entry without its owner: the longest of `owners` that it ends with, else its last word -/
def withoutOwner (owners : List Str) (rest : Str) : Str :=
  let suffixes := (owners.map (' ' :: ·)).insertionSort (fun a b => b.length ≤ a.length)
  match suffixes.find? (·.isSuffixOf rest) with
  | some owner => rest.take (rest.length - owner.length)
  | none => beforeLast ' ' rest

def lineKey (owners : List Str) (line : Str) : Option Str := (tocEntry line).map (withoutOwner owners)

def dumpKeys (listing : Str) (owners : List Str) : List Str :=
  ((splitlines listing).filterMap (lineKey owners)).dedup

/-! ## the plan -/

/-- what a restore drops before the dump's own script, and why -/
structure Replacement where
  /-- every relation of the snapshot's schemas -/
  relations : List LiveObject
  /-- routines, types and domains there that the dump lacks -/
  others : List LiveObject
  /-- the snapshot's schemas -/
  schemas : List Str
  /-- those the dump creates: dropped whole -/
  recreated : List Str
  /-- partitioned tables the dump recreates -/
  partitioned : List LiveObject
  /-- objects of those schemas that the dump does not contain -/
  absent : List LiveObject
  serverVersion : ℕ
  deriving DecidableEq

def createText : Str := "SCHEMA - ".toList

def publicKey : Str := "SCHEMA - public".toList

/-- the schemas of the target that the dump holds relations of, as far as its keys tell -/
def snapshotSchemas (objects : List LiveObject) (keys : List Str) : List Str :=
  sorted (((objects.filter (·.isRelation)).map (·.schema)).dedup.filter fun s =>
    relationTypes.any fun t => keys.any fun k => (t ++ ' ' :: s ++ [' ']).isPrefixOf k)

/-- the schemas the dump creates itself -/
def recreatedSchemas (keys : List Str) : List Str :=
  sorted ((keys.filter fun k => createText.isPrefixOf k ∧ k ≠ publicKey).map (cut createText))

def partitionedTables (objects : List LiveObject) (keys : List Str) : List LiveObject :=
  objects.filter fun o => o.isRelation ∧ o.kind = .p ∧ o.key ∈ keys

def absentObjects (objects : List LiveObject) (keys : List Str) : List LiveObject :=
  let schemas := snapshotSchemas objects keys
  objects.filter fun o => o.key ∉ keys ∧ (o.schema ∈ schemas ∨ o.refSchema ∈ schemas ∨
    (o.kind ∈ otherKinds ∧ o.schema ∈ recreatedSchemas keys))

/-- where a kind stands in the log -/
def logRank (k : Kind) : ℤ :=
  let order := otherKinds ++ [.F]
  if k ∈ order then order.idxOf k else -1

def errorText (stderr : Str) : Str := (strip stderr).take 500

def refusal (dump : Str) (replaced : List LiveObject) (schemas : List Str) : Str :=
  "postgres restore refused: none of the ".toList ++ (toString replaced.length).toList ++
    " relation(s) of schema(s) ".toList ++ joined ", ".toList schemas ++
    " in the target database is in ".toList ++ dump ++
    (" - is it the database the snapshot was taken of? Restore into an empty database, or drop" ++
      " its objects first").toList

/-- no replacement; on an old server a plan that drops nothing, for the sake of its script -/
def plainPlan (version : ℕ) : Option Replacement :=
  if 0 < version ∧ version < 170000 then some ⟨[], [], [], [], [], [], version⟩ else none

/-- the objects that are gone with their relation are not listed once more as its foreign keys -/
def listedAbsent (absent : List LiveObject) : List LiveObject :=
  let gone := (absent.filter (·.kind ≠ .F)).map fun o => (o.schema, o.name)
  (absent.filter fun o => o.kind ≠ .F ∨ (o.schema, o.name) ∉ gone).insertionSort
    fun a b => logRank a.kind ≤ logRank b.kind

/-- `live` and `listing` are what psql and pg_restore print, or what they write to stderr when they
fail; the listing is read only when the target holds an object -/
def planReplacement (dump : Str) (live : Except Str (List Row)) (listing : Except Str Str) :
    Except Str (Option Replacement) :=
  match live with
  | .error stderr =>
    .error (("postgres restore failed: could not list the objects " ++
      "of the target database: ").toList ++ errorText stderr)
  | .ok rows =>
    let version := serverVersion rows
    let objects := objectsOf rows
    if objects = [] then .ok (plainPlan version)
    else match listing with
    | .error stderr =>
      .error ("postgres restore failed: could not read the table of contents of ".toList ++ dump ++
        ": ".toList ++ errorText stderr)
    | .ok stdout =>
      let keys := dumpKeys (strip stdout) (ownersOf rows)
      let schemas := snapshotSchemas objects keys
      let partitioned := partitionedTables objects keys
      let recreated := recreatedSchemas keys
      let absent := absentObjects objects keys
      if partitioned = [] ∧ absent = [] then .ok (plainPlan version)
      else
        let replaced := objects.filter fun o => o.isRelation ∧ o.schema ∈ schemas
        -- nothing in common: another application's database
        if replaced ≠ [] ∧ ¬ replaced.any (·.key ∈ keys) then .error (refusal dump replaced schemas)
        else
          let absent := listedAbsent absent
          .ok (some ⟨replaced, absent.filter (·.kind ∈ otherKinds), schemas, recreated, partitioned,
            absent, version⟩)

/-! ## what is dropped -/

inductive Statement where
  | set (text : Str)
  /-- `DROP <type> IF EXISTS <names> CASCADE;` -/
  | drop (type : Str) (names : List Str)
  deriving DecidableEq

def Statement.text : Statement → Str
  | .set text => text
  | .drop type names =>
    "DROP ".toList ++ type ++ " IF EXISTS ".toList ++ joined ", ".toList names ++ " CASCADE;".toList

/-- a name in double quotes, those within it doubled -/
def quoteIdent (s : Str) : Str := '"' :: s.flatMap (fun c => if c = '"' then ['"', '"'] else [c]) ++ ['"']

def schemaType : Str := "SCHEMA".toList

def preludeSettings : List Statement :=
  [.set "SET client_min_messages = notice;".toList, .set "SET statement_timeout = 0;".toList,
    .set "SET lock_timeout = 0;".toList, .set "SET idle_in_transaction_session_timeout = 0;".toList,
    .set ("SELECT pg_catalog.set_config('transaction_timeout', '0', false) " ++
      "WHERE pg_catalog.current_setting('server_version_num')::int >= 170000;").toList,
    .set "BEGIN;".toList]

def dropsOf (plan : Replacement) (type : Str) : List Statement :=
  let names := ((plan.relations ++ plan.others).filter (objectType ·.kind = type)).map (·.quoted)
  if names = [] then [] else [.drop type names]

def preludeStatements (plan : Replacement) : List Statement :=
  preludeSettings ++ dropOrder.flatMap (dropsOf plan) ++
    (if plan.recreated = [] then [] else [.drop schemaType (plan.recreated.map quoteIdent)]) ++
    [.set "SET client_min_messages = error;".toList]

def replacementPrelude (plan : Replacement) : Str :=
  joined ['\n'] ((preludeStatements plan).map (·.text)) ++ ['\n']

end BackupHelper
