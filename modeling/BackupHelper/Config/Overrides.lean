import BackupHelper.Config.Models
import BackupHelper.Lib.Trees
import Mathlib.Data.List.Infix

/-!
# Discrete overrides

A variable `BACKUP_<A>__<B>__...` sets the value at a path of the config tree, read as the type of the
field that it targets asks.

* `overridePath`      the path that a variable names;
* `overrideKind`, `coerce`   how its value is read;
* `applyOverrides`    the loop over the variables;
* `Discrete`, `Uncontested`   the paths do not get in each other's way;
* `overrides_exact`   **they set exactly what they name**, in any order.

`json.loads` is a parameter: a value, or that the text is not JSON, or another exception.
-/

namespace BackupHelper
open Text Trees

/-- a variable of the environment, with an ASCII name -/
structure EnvVar where
  name : Str
  value : Str
  ascii : name.all (fun c => c.toNat < 128) = true

inductive Scalar where
  | bool (b : Bool)
  | text (s : Str)
  /-- a number, or a date of a YAML file, as it is written -/
  | number (literal : Str)
deriving DecidableEq

abbrev ConfigTree := Doc Str Scalar

abbrev KeyPath := List (Key Str)

def textOf (s : Str) : ConfigTree := .scalar (.text s)

/-! ## the path -/

/-- the variables that select the base config -/
def controlVars : List Str :=
  ["BACKUP_CONFIG_JSON".toList, "BACKUP_CONFIG_JSON_BASE64".toList, "BACKUP_CONFIG_FILE".toList]

def overridePrefix : Str := "BACKUP_".toList

def pathSep : Str := "__".toList

/-- `split` at the separator -/
def splitSep : Str → List Str
  | [] => [[]]
  | '_' :: '_' :: rest => [] :: splitSep rest
  | c :: rest =>
    match splitSep rest with
    | [] => [[c]]
    | seg :: segs => (c :: seg) :: segs

/-- the segments of the path; none if the variable is no override -/
def overridePath (key : Str) : List Str :=
  if ¬ overridePrefix <+: key ∨ key ∈ controlVars then []
  else if ¬ pathSep <:+: key then []
  else ((splitSep (key.drop overridePrefix.length)).filter (· ≠ [])).map (·.map Char.toLower)

def isDigits (seg : Str) : Bool := seg ≠ [] ∧ seg.all (·.isDigit)

def intOf (seg : Str) : ℕ := seg.foldl (fun n c => 10 * n + (c.toNat - 48)) 0

def keyOf (seg : Str) : Key Str := if isDigits seg then .index (intOf seg) else .name seg

/-- `_set_path`: what `put` does along the keys of the segments -/
def setPath (tree : ConfigTree) (path : List Str) (value : ConfigTree) : ConfigTree :=
  tree.put (path.map keyOf) value

/-! ## the type of the field -/

/-- the annotation of a field: `other` is a number or a bool, `literal` some fixed texts -/
inductive Ann where
  | str
  | literal
  | other
  | optional (ann : Ann)
  | list (item : Ann)
  | model (fields : List (Str × Ann))

def sourceSpec : Ann := .model [("type".toList, .str)]

def destinationSpec : Ann := .model [("type".toList, .literal)]

def scheduleConfig : Ann := .model
  [("mode".toList, .literal), ("cron".toList, .str), ("interval_hours".toList, .other),
    ("on_startup".toList, .other), ("hour".toList, .optional .str), ("minute".toList, .optional .str),
    ("day_of_week".toList, .optional .str)]

def gfsConfig : Ann := .model
  [("daily".toList, .other), ("weekly".toList, .other), ("monthly".toList, .other)]

def retentionConfig : Ann := .model
  [("count".toList, .other), ("age_days".toList, .other), ("gfs".toList, gfsConfig),
    ("smart_last".toList, .other)]

def encryptionConfig : Ann := .model
  [("mode".toList, .literal), ("recipient".toList, .optional .str),
    ("identity_file".toList, .optional .str)]

def emailChannelConfig : Ann := .model
  [("host".toList, .optional .str), ("port".toList, .other), ("tls".toList, .other),
    ("implicit_tls".toList, .other), ("username".toList, .optional .str),
    ("password".toList, .optional .str), ("sender".toList, .optional .str),
    ("recipients".toList, .list .str)]

def webhookChannelConfig : Ann := .model
  [("url".toList, .optional .str), ("secret".toList, .optional .str)]

def teamsChannelConfig : Ann := .model [("url".toList, .optional .str), ("format".toList, .literal)]

def simpleUrlChannelConfig : Ann := .model [("url".toList, .optional .str)]

def ntfyChannelConfig : Ann := .model
  [("url".toList, .optional .str), ("topic".toList, .optional .str), ("token".toList, .optional .str)]

def notifyConfig : Ann := .model
  [("channels".toList, .list .str), ("level".toList, .literal), ("email".toList, emailChannelConfig),
    ("webhook".toList, webhookChannelConfig), ("teams".toList, teamsChannelConfig),
    ("slack".toList, simpleUrlChannelConfig), ("discord".toList, simpleUrlChannelConfig),
    ("ntfy".toList, ntfyChannelConfig), ("healthchecks".toList, simpleUrlChannelConfig)]

def jobConfig : Ann := .model
  [("name".toList, .str), ("sources".toList, .list sourceSpec),
    ("destinations".toList, .list destinationSpec), ("keep_local".toList, .other),
    ("schedule".toList, scheduleConfig), ("healthcheck_max_age_hours".toList, .optional .other),
    ("retention".toList, retentionConfig), ("encryption".toList, encryptionConfig),
    ("notifications".toList, notifyConfig)]

def rootConfig : Ann := .model
  [("version".toList, .other), ("instance_name".toList, .str), ("jobs".toList, .list jobConfig)]

def Ann.withoutNone : Ann → Ann
  | .optional ann => ann
  | ann => ann

/-- what a further segment indexes into: a model or a list -/
def Ann.container (ann : Ann) : Option Ann :=
  match ann.withoutNone with
  | .model fields => some (.model fields)
  | .list item => some (.list item)
  | _ => none

def Ann.isText (ann : Ann) : Bool :=
  match ann.withoutNone with
  | .str => true
  | .literal => true
  | _ => false

/-- how an override value is read -/
inductive FieldKind where
  /-- a text field: as written -/
  | text
  /-- a number, bool, list or object field: parsed when it is JSON -/
  | json
  /-- a key that the engine does not type -/
  | open_
deriving DecidableEq

/-- the loop of `_override_kind`, at the annotation `ann`, whose container is `model` -/
def kindBelow : Ann → Option Ann → List Str → FieldKind
  | ann, _, [] => if ann.isText then .text else .json
  | _, some (.model fields), seg :: path =>
    match fields.lookup seg with
    | none => .open_
    | some ann => kindBelow ann ann.container path
  | _, some (.list item), seg :: path =>
    if isDigits seg then kindBelow item item.container path else .open_
  | _, _, _ :: _ => .open_

def overrideKind (path : List Str) : FieldKind := kindBelow rootConfig (some rootConfig) path

/-! ## the value -/

/-- how `json.loads` ends -/
inductive Loaded where
  | value (v : ConfigTree)
  | notJson
  | raised (e : Exc)

def coerce (loads : Str → Loaded) (value : Str) (kind : FieldKind) : Except Exc ConfigTree :=
  match loads value with
  | .notJson => .ok (textOf value)
  | .raised e => .error e
  | .value parsed =>
    match parsed, kind with
    | .null, _ => .ok parsed
    | .scalar (.text _), _ => .ok parsed
    | _, .json => .ok parsed
    | .scalar (.bool _), .open_ => .ok parsed
    | .list _, .open_ => .ok parsed
    | .mapping _, .open_ => .ok parsed
    | _, _ => .ok (textOf value)

/-- `_apply_overrides` -/
def applyOverrides (loads : Str → Loaded) : ConfigTree → List EnvVar → Except Exc ConfigTree
  | base, [] => .ok base
  | base, var :: env =>
    if overridePath var.name = [] then applyOverrides loads base env
    else
      match coerce loads var.value (overrideKind (overridePath var.name)) with
      | .error e => .error e
      | .ok value => applyOverrides loads (setPath base (overridePath var.name) value) env

/-! ## what is asked of it -/

/-- the keys that an override names -/
def EnvVar.keys (var : EnvVar) : KeyPath := (overridePath var.name).map keyOf

def EnvVar.coerced (loads : Str → Loaded) (var : EnvVar) : Except Exc ConfigTree :=
  coerce loads var.value (overrideKind (overridePath var.name))

def overriding (env : List EnvVar) : List EnvVar := env.filter (fun var => overridePath var.name ≠ [])

/-- the paths are pairwise no way to one another, have no two adjacent indexes, and fit the base -/
structure Discrete (base : ConfigTree) (env : List EnvVar) : Prop where
  apart : (overriding env).Pairwise (fun a b => Apart a.keys b.keys)
  spaced : ∀ var ∈ overriding env, Spaced var.keys
  fits : ∀ var ∈ overriding env, Fits base var.keys

/-- no two paths go on from a place where the base has null or nothing, the one by an index and the
other by a name -/
def Uncontested (base : ConfigTree) (env : List EnvVar) : Prop :=
  (overriding env).Pairwise (fun a b => ∀ c x y, c ++ [x] <+: a.keys → c ++ [y] <+: b.keys →
    base.look c = none ∨ base.look c = some .null → x.isIndex = y.isIndex)

/-- from `base` to `tree` the overrides set what they name, and nothing else changes but for the
padding of lists -/
structure ExactlySet (loads : Str → Loaded) (base : ConfigTree) (env : List EnvVar) (tree : ConfigTree) :
    Prop where
  reads : ∀ var ∈ overriding env, ∃ value, var.coerced loads = .ok value ∧
    tree.look var.keys = some value
  way : ∀ var ∈ overriding env, ∀ p k, p ++ [k] <+: var.keys →
    ∃ b, tree.look p = some b ∧ b.takes k = true
  other : ∀ p, (∀ var ∈ overriding env, Apart var.keys p) → tree.look p = base.look p ∨
    Padded ((overriding env).map EnvVar.keys) base tree p

/-- in whatever order the variables come, if every value can be read -/
def SetsWhatTheyName (loads : Str → Loaded) (base : ConfigTree) (env : List EnvVar) : Prop :=
  (∀ var ∈ overriding env, ∃ value, var.coerced loads = .ok value) →
    ∀ env', env'.Perm env → ∃ tree, applyOverrides loads base env' = .ok tree ∧ ExactlySet loads base env tree

/-! ## the loop -/

section
variable {loads : Str → Loaded} {base : ConfigTree} {env env' : List EnvVar}

/-- the assignments of the loop, if every value can be read -/
def assignments (loads : Str → Loaded) (env : List EnvVar) : List (KeyPath × ConfigTree) :=
  (overriding env).filterMap (fun var =>
    match var.coerced loads with
    | .ok value => some (var.keys, value)
    | .error _ => none)

theorem keys_assignments (h : ∀ var ∈ overriding env, ∃ value, var.coerced loads = .ok value) :
    (assignments loads env).map (·.1) = (overriding env).map EnvVar.keys := by
  unfold assignments
  rw [List.map_filterMap, ← List.filterMap_eq_map]
  refine List.filterMap_congr fun var hvar => ?_
  obtain ⟨value, hvalue⟩ := h var hvar
  simp only [hvalue]
  rfl

theorem mem_assignments {var : EnvVar} (hvar : var ∈ overriding env) {value : ConfigTree}
    (hvalue : var.coerced loads = .ok value) : (var.keys, value) ∈ assignments loads env := by
  refine List.mem_filterMap.mpr ⟨var, hvar, ?_⟩
  simp only [hvalue]

theorem overriding_cons (var : EnvVar) (env : List EnvVar) : overriding (var :: env) =
    if overridePath var.name = [] then overriding env else var :: overriding env := by
  unfold overriding
  rw [List.filter_cons]
  by_cases hp : overridePath var.name = [] <;> simp [hp]

/-- **The loop** makes the assignments one after the other. -/
theorem applyOverrides_eq (base : ConfigTree)
    (h : ∀ var ∈ overriding env, ∃ value, var.coerced loads = .ok value) :
    applyOverrides loads base env = .ok (putAll base (assignments loads env)) := by
  induction env generalizing base with
  | nil => rfl
  | cons var env ih =>
    unfold applyOverrides assignments
    rw [overriding_cons] at h ⊢
    by_cases hp : overridePath var.name = []
    · rw [if_pos hp] at h ⊢
      rw [if_pos hp]
      exact ih base h
    · rw [if_neg hp] at h ⊢
      rw [if_neg hp]
      obtain ⟨value, hvalue⟩ := h var List.mem_cons_self
      have hcoerce : coerce loads var.value (overrideKind (overridePath var.name)) = .ok value := hvalue
      rw [hcoerce, List.filterMap_cons]
      simp only [hvalue]
      exact ih _ fun v hv => h v (List.mem_cons_of_mem _ hv)

theorem overriding_perm (h : env'.Perm env) : (overriding env').Perm (overriding env) := h.filter _

/-- where the base has a container, both paths fit it -/
theorem Discrete.alike (h : Discrete base env) (hu : Uncontested base env) :
    (overriding env).Pairwise (fun a b => Alike a.keys b.keys) := by
  refine hu.imp_of_mem fun {a b} ha hb hab c x y hx hy => ?_
  rcases h.fits a ha c x hx with he | he | ⟨t, ht, hta⟩
  · exact hab c x y hx hy (Or.inl he)
  · exact hab c x y hx hy (Or.inr he)
  · rcases h.fits b hb c y hy with he | he | ⟨t', ht', htb⟩
    · exact hab c x y hx hy (Or.inl he)
    · exact hab c x y hx hy (Or.inr he)
    · obtain rfl := Option.some.inj (ht.symm.trans ht')
      exact takes_kind hta htb

theorem Discrete.clear (h : Discrete base env) (hu : Uncontested base env) :
    Clear base ((overriding env).map EnvVar.keys) := by
  refine ⟨List.pairwise_map.mpr h.apart, List.pairwise_map.mpr (h.alike hu), fun p hp => ?_,
    fun p hp => ?_, fun p hp => ?_⟩
  · obtain ⟨var, hvar, rfl⟩ := List.mem_map.mp hp
    exact h.spaced var hvar
  · obtain ⟨var, hvar, rfl⟩ := List.mem_map.mp hp
    exact h.fits var hvar
  · obtain ⟨var, hvar, rfl⟩ := List.mem_map.mp hp
    have hpath := (List.mem_filter.mp hvar).2
    unfold EnvVar.keys
    simpa using hpath

end

/-- **Discrete overrides set exactly what they name**, in whatever order they come: every path reads
its value, and no other path changes but for the padding of lists. -/
theorem overrides_exact (loads : Str → Loaded) (entries : List (Key Str × ConfigTree)) (env : List EnvVar)
    (h : Discrete (.mapping entries) env) (hu : Uncontested (.mapping entries) env) :
    SetsWhatTheyName loads (.mapping entries) env := by
  intro hread env' hperm
  have hread' : ∀ var ∈ overriding env', ∃ value, var.coerced loads = .ok value := fun var hvar =>
    hread var ((overriding_perm hperm).mem_iff.mp hvar)
  have hnull : (.mapping entries : ConfigTree) ≠ .null := by
    intro he
    cases he
  have hclear : Clear (.mapping entries) ((assignments loads env').map (·.1)) := by
    rw [keys_assignments hread']
    exact (h.clear hu).perm ((overriding_perm hperm).map _)
  have hspec := putAll_spec hnull hclear
  refine ⟨_, applyOverrides_eq _ hread', fun var hvar => ?_, fun var hvar p k hp => ?_, fun p hp => ?_⟩
  · have hvar' := (overriding_perm hperm).mem_iff.mpr hvar
    obtain ⟨value, hvalue⟩ := hread var hvar
    exact ⟨value, hvalue, (hspec _ (mem_assignments hvar' hvalue)).1⟩
  · have hvar' := (overriding_perm hperm).mem_iff.mpr hvar
    obtain ⟨value, hvalue⟩ := hread var hvar
    exact (hspec _ (mem_assignments hvar' hvalue)).2 p k hp
  · have hkeys : (assignments loads env').map (·.1) = (overriding env').map EnvVar.keys :=
      keys_assignments hread'
    have happ : ∀ o ∈ assignments loads env', Apart o.1 p := by
      intro o ho
      have hmem : o.1 ∈ (overriding env').map EnvVar.keys := hkeys ▸ List.mem_map_of_mem ho
      obtain ⟨var, hvar, he⟩ := List.mem_map.mp hmem
      rw [← he]
      exact hp var ((overriding_perm hperm).mem_iff.mp hvar)
    refine (look_putAll_other (.mapping entries) (assignments loads env') happ).imp_right fun hpad => ?_
    obtain ⟨hnone, hempty, q, hq, hbelow⟩ := hpad
    rw [hkeys] at hq
    exact ⟨hnone, hempty, q, ((overriding_perm hperm).map _).mem_iff.mp hq, hbelow⟩

/-! ## concrete variables -/

/-- `json.loads` of digits, and of texts that are not JSON -/
def loadDigits (s : Str) : Loaded := if isDigits s then .value (.scalar (.number s)) else .notJson

/-- one job, with a name -/
def oneJob : List (Key Str × ConfigTree) :=
  [(.name "jobs".toList, .list [.mapping [(.name "name".toList, textOf "main".toList)]])]

def jobVars : List EnvVar :=
  [⟨"BACKUP_JOBS__0__RETENTION__COUNT".toList, "30".toList, by decide⟩,
    ⟨"BACKUP_CONFIG_FILE".toList, "/config.yaml".toList, by decide⟩,
    ⟨"BACKUP_JOBS__2__NAME".toList, "db".toList, by decide⟩,
    ⟨"BACKUP_JOBS__0__SOURCES__1__PASSWORD".toList, "20261006".toList, by decide⟩]

theorem overrides_exact_jobs : SetsWhatTheyName loadDigits (.mapping oneJob) jobVars := by
  have hdiscrete : Discrete (.mapping oneJob) jobVars :=
    ⟨by decide +kernel, by decide +kernel, by decide +kernel⟩
  have halike : (overriding jobVars).Pairwise (fun a b => Alike a.keys b.keys) := by decide +kernel
  exact overrides_exact loadDigits oneJob jobVars hdiscrete
    (halike.imp fun h c x y hx hy _ => h c x y hx hy)

/-- the one takes `x` for a list, the other for a mapping -/
def contestedVars : List EnvVar :=
  [⟨"BACKUP_X__0__A".toList, "on".toList, by decide⟩, ⟨"BACKUP_X__B".toList, "off".toList, by decide⟩]

/-- **Where an override is lost**: the base has nothing at `x`. -/
theorem override_lost : Discrete (.mapping []) contestedVars ∧
    (∀ var ∈ overriding contestedVars, ∃ value, var.coerced loadDigits = .ok value) ∧
    ¬ SetsWhatTheyName loadDigits (.mapping []) contestedVars := by
  have hread : ∀ var ∈ overriding contestedVars, ∃ value, var.coerced loadDigits = .ok value := by
    intro var hvar
    have hmem : var ∈ contestedVars := (List.mem_filter.mp hvar).1
    simp only [contestedVars, List.mem_cons, List.not_mem_nil, or_false] at hmem
    rcases hmem with rfl | rfl
    · exact ⟨_, rfl⟩
    · exact ⟨_, rfl⟩
  refine ⟨⟨by decide +kernel, by decide +kernel, by decide +kernel⟩, hread, fun h => ?_⟩
  obtain ⟨tree, hrun, hset⟩ := h hread contestedVars (List.Perm.refl _)
  have hlost : (match applyOverrides loadDigits (.mapping []) contestedVars with
      | .ok tree => (tree.look [.name "x".toList, .name "b".toList]).isSome
      | .error _ => false) = false := by decide +kernel
  rw [hrun] at hlost
  obtain ⟨value, -, hlook⟩ := hset.reads contestedVars[1]
    (List.mem_filter.mpr ⟨by simp [contestedVars], by decide +kernel⟩)
  have hkeys : contestedVars[1].keys = [.name "x".toList, .name "b".toList] := by decide +kernel
  rw [hkeys] at hlook
  have hnone : (tree.look [.name "x".toList, .name "b".toList]).isSome = false := hlost
  rw [hlook] at hnone
  cases hnone

end BackupHelper
