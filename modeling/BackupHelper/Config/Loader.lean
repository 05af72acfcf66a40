import BackupHelper.Config.Overrides
import BackupHelper.Lib.Base64
import BackupHelper.Lib.TreesMerge
import BackupHelper.Lib.Utf8

/-!
# Loading the config

A mounted file is read first, inline JSON goes on top of it, the placeholders in their texts are filled,
and the discrete overrides come last.

* `tokens`, `interpolateStr`    a text with `${VAR}` placeholders, and with their values in place;
* `loadBase`, `loadTree`        the layers, merged, and what is made of them;
* `tokens_untoken`              a text is cut into the characters and placeholders that it was made of;
* `interpolate_exact`           **placeholders are filled where they stand** and nowhere else;
* `config_precedence`           **an override wins over inline JSON, and this over the file**.

`json.loads`, `yaml.safe_load` and the texts of their exceptions are parameters.
-/

set_option linter.unusedSectionVars false

namespace BackupHelper
open Text Trees Doc

/-! ## placeholders -/

inductive Token where
  | char (c : Char)
  /-- `${name}` -/
  | var (name : Str)
deriving DecidableEq

/-- what stands behind `${`: a name, and the text behind its brace -/
def placeholder (s : Str) : Option (Str × Str) :=
  match splitAt1 '}' s with
  | some (c :: name, rest) => some (c :: name, rest)
  | _ => none

/-- the matches of `\$\{([^}]+)\}`, and what is between them -/
def tokensFrom : ℕ → Str → List Token
  | 0, s => s.map .char
  | _ + 1, [] => []
  | fuel + 1, '$' :: '{' :: s =>
    match placeholder s with
    | some (name, rest) => .var name :: tokensFrom fuel rest
    | none => .char '$' :: tokensFrom fuel ('{' :: s)
  | fuel + 1, c :: s => .char c :: tokensFrom fuel s

def tokens (s : Str) : List Token := tokensFrom s.length s

/-- the first name without a value is the one that is raised -/
def fill (env : Str → Option Str) : List Token → Except Str Str
  | [] => .ok []
  | .char c :: ts => (fill env ts).map (c :: ·)
  | .var name :: ts =>
    match env name with
    | none => .error name
    | some value => (fill env ts).map (value ++ ·)

def interpolateStr (env : Str → Option Str) (text : Str) : Except Str Str := fill env (tokens text)

def interpolateScalar (env : Str → Option Str) : Scalar → Except Str Scalar
  | .text s => (interpolateStr env s).map .text
  | a => .ok a

def interpolate (env : Str → Option Str) (tree : ConfigTree) : Except Str ConfigTree :=
  rewrite (interpolateScalar env) tree

/-! ## the layers -/

abbrev Entries := List (Key Str × ConfigTree)

/-- what the loader calls -/
structure Loader where
  /-- `json.loads` -/
  loads : Str → Loaded
  /-- `yaml.safe_load`, or the text of its exception -/
  yaml : Str → Except Str ConfigTree
  /-- the text of a file, if it exists -/
  file : Str → Option Str
  /-- the text of the exception for a text that is not base64, or not JSON -/
  told : Str → Str
  repr : Str → Str

def configError (text : Str) : Exc := ⟨"ConfigError".toList, text⟩

def environ (env : List EnvVar) (name : Str) : Option Str := (env.find? (·.name = name)).map (·.value)

def fileVar : Str := "BACKUP_CONFIG_FILE".toList
def jsonVar : Str := "BACKUP_CONFIG_JSON".toList
def base64Var : Str := "BACKUP_CONFIG_JSON_BASE64".toList

def fromBase64 (text : Str) : Option Str :=
  if text.all (fun c => c.toNat < 128) then (Base64.decode text).bind fun b => Python.encode (Utf8.decode b) else none

/-- the inline text, if there is one -/
def inlineText (ld : Loader) (env : List EnvVar) : Except Exc (Option Str) :=
  match environ env jsonVar with
  | some raw => .ok (some raw)
  | none =>
    match environ env base64Var with
    | none => .ok none
    | some [] => .ok none
    | some (c :: s) =>
      match fromBase64 (c :: s) with
      | some raw => .ok (some raw)
      | none => .error (configError ("BACKUP_CONFIG_JSON_BASE64 is not valid base64: ".toList ++ ld.told (c :: s)))

def readInlineJson (ld : Loader) (env : List EnvVar) : Except Exc (Option Entries) :=
  match inlineText ld env with
  | .error e => .error e
  | .ok none => .ok none
  | .ok (some raw) =>
    match ld.loads raw with
    | .notJson => .error (configError ("BACKUP_CONFIG_JSON is not valid JSON: ".toList ++ ld.told raw))
    | .raised e => .error e
    | .value (.mapping m) => .ok (some m)
    | .value _ => .error (configError "BACKUP_CONFIG_JSON must be a JSON object".toList)

def readConfigFile (ld : Loader) (path : Str) : Except Exc Entries :=
  match ld.file path with
  | none => .error (configError ("BACKUP_CONFIG_FILE not found: ".toList ++ path))
  | some text =>
    match ld.yaml text with
    | .error told => .error (configError ("BACKUP_CONFIG_FILE is not valid JSON/YAML: ".toList ++ told))
    | .ok (.mapping m) => .ok m
    | .ok _ => .error (configError ("BACKUP_CONFIG_FILE must contain a mapping: ".toList ++ path))

/-- the mounted file, if one is named -/
def fileLayer (ld : Loader) (env : List EnvVar) : Except Exc Entries :=
  match environ env fileVar with
  | none => .ok []
  | some [] => .ok []
  | some path => readConfigFile ld path

/-- the file first, then inline JSON on top -/
def loadBase (ld : Loader) (env : List EnvVar) : Except Exc Entries := do
  let file ← fileLayer ld env
  let inline ← readInlineJson ld env
  match inline with
  | none => pure (mergeEntries [] file)
  | some inline => pure (mergeEntries (mergeEntries [] file) inline)

/-- the base, its placeholders filled -/
def readBase (ld : Loader) (env : List EnvVar) : Except Exc ConfigTree := do
  let base ← loadBase ld env
  match interpolate (environ env) (.mapping base) with
  | .ok base => pure base
  | .error name => .error (configError ("config references undefined env var: ".toList ++ ld.repr name))

/-- `load_config` up to the validation of what it has read -/
def loadTree (ld : Loader) (env : List EnvVar) : Except Exc ConfigTree := do
  let base ← readBase ld env
  applyOverrides ld.loads base env

/-! ## how a text is cut -/

def Token.text : Token → Str
  | .char c => [c]
  | .var name => '$' :: '{' :: name ++ ['}']

def untoken (ts : List Token) : Str := ts.flatMap (·.text)

/-- the names are names, and no placeholder is left among the characters -/
structure WellCut (ts : List Token) : Prop where
  names : ∀ name, .var name ∈ ts → name ≠ [] ∧ free '}' name
  chars : ∀ before after, ts = before ++ .char '$' :: .char '{' :: after → placeholder (untoken after) = none

theorem WellCut.tail {t : Token} {ts : List Token} (h : WellCut (t :: ts)) : WellCut ts where
  names name hname := h.names name (List.mem_cons_of_mem t hname)
  chars before after he := h.chars (t :: before) after (by rw [he]; rfl)

theorem placeholder_append {name : Str} (h : name ≠ [] ∧ free '}' name) (s : Str) :
    placeholder (name ++ '}' :: s) = some (name, s) := by
  unfold placeholder
  rw [splitAt1_append h.2]
  cases name with
  | nil => exact absurd rfl h.1
  | cons c name => rfl

theorem tokensFrom_char {c : Char} {s : Str} (fuel : ℕ) (h : c = '$' → ∀ r, s = '{' :: r → placeholder r = none) :
    tokensFrom (fuel + 1) (c :: s) = .char c :: tokensFrom fuel s := by
  rw [tokensFrom.eq_def]
  split
  · rename_i he
    cases he
  · rename_i he
    cases he
  · rename_i f r heq he
    obtain ⟨rfl, rfl⟩ := List.cons.inj he
    obtain rfl := Nat.succ.inj heq
    rw [h rfl r rfl]
  · rename_i f d r hnot heq he
    obtain ⟨rfl, rfl⟩ := List.cons.inj he
    obtain rfl := Nat.succ.inj heq
    rfl

theorem tokensFrom_var {name : Str} (h : name ≠ [] ∧ free '}' name) (fuel : ℕ) (s : Str) :
    tokensFrom (fuel + 1) ('$' :: '{' :: (name ++ '}' :: s)) = .var name :: tokensFrom fuel s := by
  rw [tokensFrom, placeholder_append h]

/-- **A text is cut into what it was made of.** -/
theorem tokens_untoken {ts : List Token} (h : WellCut ts) : tokens (untoken ts) = ts := by
  have hfuel : ∀ fuel, (untoken ts).length ≤ fuel → tokensFrom fuel (untoken ts) = ts := by
    induction ts with
    | nil =>
      intro fuel _
      cases fuel <;> rfl
    | cons t ts ih =>
      intro fuel hlen
      have hsplit : untoken (t :: ts) = t.text ++ untoken ts := rfl
      cases t with
      | char c =>
        rw [hsplit] at hlen ⊢
        cases fuel with
        | zero => exact absurd hlen (by simp [Token.text])
        | succ fuel =>
          have hchar : tokensFrom (fuel + 1) (c :: untoken ts) = .char c :: tokensFrom fuel (untoken ts) := by
            apply tokensFrom_char
            rintro rfl r hr
            -- a brace that comes next is a character too
            cases ts with
            | nil => cases hr
            | cons t₂ ts =>
              cases t₂ with
              | char d =>
                obtain ⟨rfl, rfl⟩ := List.cons.inj hr
                exact h.chars [] ts rfl
              | var name => exact absurd (List.cons.inj hr).1 (by decide)
          show tokensFrom (fuel + 1) (c :: untoken ts) = _
          rw [hchar, ih h.tail fuel (by simpa [Token.text] using hlen)]
      | var name =>
        have hname := h.names name List.mem_cons_self
        have htext : untoken (.var name :: ts) = '$' :: '{' :: (name ++ '}' :: untoken ts) := by
          rw [hsplit]
          simp [Token.text]
        rw [htext] at hlen ⊢
        cases fuel with
        | zero => exact absurd hlen (by simp)
        | succ fuel =>
          rw [tokensFrom_var hname, ih h.tail fuel]
          simp only [List.length_cons, List.length_append] at hlen
          omega
  exact hfuel _ le_rfl

/-! ## what is filled in -/

/-- the text with the values in place -/
def filled (env : Str → Option Str) (ts : List Token) : Str := ts.flatMap fun t =>
  match t with
  | .char c => [c]
  | .var name => (env name).getD []

/-- every placeholder has a value -/
def HasValues (env : Str → Option Str) (ts : List Token) : Prop := ∀ name, .var name ∈ ts → (env name).isSome = true

theorem fill_eq_ok {env : Str → Option Str} {ts : List Token} (h : HasValues env ts) :
    fill env ts = .ok (filled env ts) := by
  induction ts with
  | nil => rfl
  | cons t ts ih =>
    have hts : HasValues env ts := fun name hname => h name (List.mem_cons_of_mem t hname)
    cases t with
    | char c =>
      rw [fill, ih hts]
      rfl
    | var name =>
      obtain ⟨value, hvalue⟩ := Option.isSome_iff_exists.mp (h name List.mem_cons_self)
      rw [fill, ih hts, hvalue]
      show Except.ok (value ++ filled env ts) = .ok ((env name).getD [] ++ filled env ts)
      rw [hvalue]
      rfl

/-- a name that is raised is one of the text's, and has no value -/
theorem fill_eq_error {env : Str → Option Str} {ts : List Token} {name : Str} (h : fill env ts = .error name) :
    .var name ∈ ts ∧ env name = none := by
  induction ts with
  | nil => cases h
  | cons t ts ih =>
    cases t with
    | char c =>
      rw [fill] at h
      exact (ih (map_eq_error.mp h)).imp_left (List.mem_cons_of_mem _)
    | var first =>
      rw [fill] at h
      cases hvalue : env first with
      | none =>
        rw [hvalue] at h
        obtain rfl := Except.error.inj h
        exact ⟨List.mem_cons_self, hvalue⟩
      | some value =>
        rw [hvalue] at h
        exact (ih (map_eq_error.mp h)).imp_left (List.mem_cons_of_mem _)

theorem fill_ok_iff {env : Str → Option Str} {ts : List Token} : (∃ s, fill env ts = .ok s) ↔ HasValues env ts := by
  constructor
  · rintro ⟨s, hs⟩
    intro name hname
    by_contra hnone
    rw [Option.not_isSome_iff_eq_none] at hnone
    -- then the filling would have raised
    have hraised : ∀ ts, .var name ∈ ts → ∀ s, fill env ts ≠ .ok s := by
      intro ts
      induction ts with
      | nil => exact fun h => absurd h List.not_mem_nil
      | cons t ts ih =>
        intro hmem s hok
        cases t with
        | char c =>
          rw [fill] at hok
          obtain ⟨r, hr, -⟩ := map_eq_ok.mp hok
          rcases List.mem_cons.mp hmem with he | hmem
          · cases he
          · exact ih hmem r hr
        | var first =>
          rw [fill] at hok
          cases hvalue : env first with
          | none =>
            rw [hvalue] at hok
            cases hok
          | some value =>
            rw [hvalue] at hok
            obtain ⟨r, hr, -⟩ := map_eq_ok.mp hok
            rcases List.mem_cons.mp hmem with he | hmem
            · obtain rfl := Token.var.inj he
              rw [hnone] at hvalue
              cases hvalue
            · exact ih hmem r hr
    exact hraised ts hname s hs
  · exact fun h => ⟨_, fill_eq_ok h⟩

/-- what a tree is interpolated to: the same tree, and in each text the values where the placeholders stood -/
structure Interpolated (env : Str → Option Str) (tree tree' : ConfigTree) : Prop where
  shape : tree'.shape = tree.shape
  texts : ∀ p s, tree.look p = some (.scalar (.text s)) → tree'.look p = some (.scalar (.text (filled env (tokens s))))
  others : ∀ p a, (∀ s, a ≠ .text s) → tree.look p = some (.scalar a) → tree'.look p = some (.scalar a)

/-- **Placeholders are filled where they stand**: exactly if each of them has a value, with the tree's shape
and all other texts as they were; and what is raised is the name of one that has none. -/
theorem interpolate_exact (env : Str → Option Str) (tree : ConfigTree) (h : tree.Tidy) :
    ((∃ tree', interpolate env tree = .ok tree') ↔
      ∀ p s, tree.look p = some (.scalar (.text s)) → HasValues env (tokens s)) ∧
    (∀ tree', interpolate env tree = .ok tree' → Interpolated env tree tree') ∧
    ∀ name, interpolate env tree = .error name → env name = none ∧
      ∃ p s, tree.look p = some (.scalar (.text s)) ∧ .var name ∈ tokens s := by
  have hscalar : ∀ a : Scalar, (∃ b, interpolateScalar env a = .ok b) ↔
      ∀ s, a = .text s → HasValues env (tokens s) := by
    intro a
    cases a with
    | text s =>
      show (∃ b, (fill env (tokens s)).map Scalar.text = .ok b) ↔ _
      constructor
      · rintro ⟨b, hb⟩ s' he
        obtain rfl := Scalar.text.inj he
        obtain ⟨r, hr, -⟩ := map_eq_ok.mp hb
        exact fill_ok_iff.mp ⟨r, hr⟩
      · intro hvalues
        obtain ⟨r, hr⟩ := fill_ok_iff.mpr (hvalues s rfl)
        exact ⟨.text r, map_eq_ok.mpr ⟨r, hr, rfl⟩⟩
    | _ =>
      refine ⟨fun _ s he => ?_, fun _ => ⟨_, rfl⟩⟩
      cases he
  refine ⟨?_, fun tree' hok => ⟨shape_rewrite tree hok, fun p s hp => ?_, fun p a ha hp => ?_⟩, fun name herr => ?_⟩
  · rw [show (∃ tree', interpolate env tree = .ok tree') ↔ _ from rewrite_ok_iff h]
    constructor
    · exact fun hall p s hp => (hscalar _).mp (hall p _ hp) s rfl
    · intro hall p a hp
      rw [hscalar]
      rintro s rfl
      exact hall p s hp
  · have hread := look_rewrite hok p
    rw [hp] at hread
    obtain ⟨t', ht, hlook⟩ := hread
    rw [rewrite] at ht
    obtain ⟨b, hb, rfl⟩ := map_eq_ok.mp ht
    obtain ⟨r, hr, rfl⟩ := map_eq_ok.mp hb
    have hfilled := fill_eq_ok (fill_ok_iff.mp ⟨r, hr⟩)
    rw [hlook, Except.ok.inj (hr.symm.trans hfilled)]
  · have hread := look_rewrite hok p
    rw [hp] at hread
    obtain ⟨t', ht, hlook⟩ := hread
    have hsame : interpolateScalar env a = .ok a := by
      cases a with
      | text s => exact absurd rfl (ha s)
      | _ => rfl
    rw [rewrite, hsame] at ht
    rw [hlook, ← Except.ok.inj ht]
  · obtain ⟨p, a, hp, ha⟩ := rewrite_error tree h herr
    cases a with
    | text s =>
      obtain ⟨hmem, hnone⟩ := fill_eq_error (map_eq_error.mp ha)
      exact ⟨hnone, p, s, hp, hmem⟩
    | _ => cases ha

/-- a secret that looks like a placeholder -/
def secretEnv (name : Str) : Option Str :=
  if name = "TOKEN".toList then some "$\x7bHOME\x7d\"".toList
  else if name = "HOME".toList then some "/root".toList else none

def secretTree : ConfigTree := mapping [(.name "url".toList, textOf "https://x/$$\x7bTOKEN\x7d?$\x7b\x7d".toList)]

theorem secretTree_tidy : secretTree.Tidy := tidy_sound (by decide +kernel)

theorem interpolate_exact_secret :
    ((∃ tree', interpolate secretEnv secretTree = .ok tree') ↔
      ∀ p s, secretTree.look p = some (.scalar (.text s)) → HasValues secretEnv (tokens s)) ∧
    (∀ tree', interpolate secretEnv secretTree = .ok tree' → Interpolated secretEnv secretTree tree') ∧
    ∀ name, interpolate secretEnv secretTree = .error name → secretEnv name = none ∧
      ∃ p s, secretTree.look p = some (.scalar (.text s)) ∧ .var name ∈ tokens s :=
  interpolate_exact secretEnv secretTree secretTree_tidy

example : interpolateStr secretEnv "https://x/$$\x7bTOKEN\x7d?$\x7b\x7d".toList =
    .ok "https://x/$$\x7bHOME\x7d\"?$\x7b\x7d".toList := by
  decide +kernel

/-! ## which layer wins -/

/-- file and inline JSON, each empty where there is none -/
def layers (ld : Loader) (env : List EnvVar) : Except Exc (Entries × Entries) := do
  let file ← fileLayer ld env
  let inline ← readInlineJson ld env
  pure (file, inline.getD [])

theorem loadBase_eq (ld : Loader) (env : List EnvVar) : loadBase ld env = (layers ld env).map fun l =>
    mergeEntries (mergeEntries [] l.1) l.2 := by
  unfold loadBase layers
  cases fileLayer ld env with
  | error e => rfl
  | ok file =>
    cases readInlineJson ld env with
    | error e => rfl
    | ok inline =>
      cases inline with
      | none =>
        show Except.ok (mergeEntries [] file) = .ok (mergeEntries (mergeEntries [] file) [])
        rw [mergeEntries.eq_1]
      | some inline => rfl

/-- what is loaded at the paths that no override is on the way of -/
structure Precedence (ld : Loader) (env : List EnvVar) (file inline : Entries) (tree : ConfigTree) : Prop where
  /-- an override is read as it stands: its placeholders stay -/
  overrides : ∀ var ∈ overriding env, ∃ value, var.coerced ld.loads = .ok value ∧ tree.look var.keys = some value
  inlined : ∀ p a, (∀ var ∈ overriding env, Apart var.keys p) → (mapping inline).look p = some (.scalar a) →
    ∃ b, interpolateScalar (environ env) a = .ok b ∧ tree.look p = some (.scalar b)
  /-- the file shows where inline JSON has nothing, and neither replaces the other on the way -/
  mounted : ∀ p a, (∀ var ∈ overriding env, Apart var.keys p) → (mapping inline).look p = none →
    Overlaid (mapping file) (mapping inline) p → (mapping file).look p = some (.scalar a) →
    ∃ b, interpolateScalar (environ env) a = .ok b ∧ tree.look p = some (.scalar b)
  /-- what is in neither, or replaced, is not there, but for the padding of lists -/
  absent : ∀ p, (∀ var ∈ overriding env, Apart var.keys p) → (mapping inline).look p = none →
    (Overlaid (mapping file) (mapping inline) p → (mapping file).look p = none) →
    tree.look p = none ∨
      (tree.look p = some (mapping []) ∧ ∃ q ∈ (overriding env).map EnvVar.keys, Below p q)

theorem coerced_of_ok {loads : Str → Loaded} {env : List EnvVar} {base tree : ConfigTree}
    (h : applyOverrides loads base env = .ok tree) :
    ∀ var ∈ overriding env, ∃ value, var.coerced loads = .ok value := by
  induction env generalizing base with
  | nil => exact fun var hvar => absurd hvar List.not_mem_nil
  | cons first env ih =>
    unfold applyOverrides at h
    rw [overriding_cons]
    by_cases hp : overridePath first.name = []
    · rw [if_pos hp] at h ⊢
      exact ih h
    · rw [if_neg hp] at h ⊢
      cases hvalue : coerce loads first.value (overrideKind (overridePath first.name)) with
      | error e =>
        rw [hvalue] at h
        cases h
      | ok value =>
        rw [hvalue] at h
        intro var hvar
        rcases List.mem_cons.mp hvar with rfl | hvar
        · exact ⟨value, hvalue⟩
        · exact ih h var hvar

/-- the keys of a mapping that is read are distinct -/
structure Dicts (ld : Loader) : Prop where
  json : ∀ s m, ld.loads s = .value (mapping m) → (mapping m : ConfigTree).Tidy
  yaml : ∀ s m, ld.yaml s = .ok (mapping m) → (mapping m : ConfigTree).Tidy

theorem tidy_nil : (mapping [] : ConfigTree).Tidy := tidy_sound rfl

theorem fileLayer_tidy {ld : Loader} (h : Dicts ld) {env : List EnvVar} {file : Entries}
    (hl : fileLayer ld env = .ok file) : (mapping file : ConfigTree).Tidy := by
  unfold fileLayer at hl
  split at hl
  · obtain rfl := Except.ok.inj hl
    exact tidy_nil
  · obtain rfl := Except.ok.inj hl
    exact tidy_nil
  · unfold readConfigFile at hl
    split at hl
    · cases hl
    · split at hl
      · cases hl
      · rename_i m hm
        obtain rfl := Except.ok.inj hl
        exact h.yaml _ _ hm
      · cases hl

theorem inline_tidy {ld : Loader} (h : Dicts ld) {env : List EnvVar} {inline : Option Entries}
    (hl : readInlineJson ld env = .ok inline) : (mapping (inline.getD []) : ConfigTree).Tidy := by
  unfold readInlineJson at hl
  split at hl
  · cases hl
  · obtain rfl := Except.ok.inj hl
    exact tidy_nil
  · split at hl
    · cases hl
    · cases hl
    · rename_i m hm
      obtain rfl := Except.ok.inj hl
      exact h.json _ _ hm
    · cases hl

theorem layers_tidy {ld : Loader} (h : Dicts ld) {env : List EnvVar} {file inline : Entries}
    (hl : layers ld env = .ok (file, inline)) :
    (mapping file : ConfigTree).Tidy ∧ (mapping inline : ConfigTree).Tidy := by
  unfold layers at hl
  cases hfile : fileLayer ld env with
  | error e =>
    rw [hfile] at hl
    cases hl
  | ok f =>
    cases hinline : readInlineJson ld env with
    | error e =>
      rw [hfile, hinline] at hl
      cases hl
    | ok i =>
      rw [hfile, hinline] at hl
      obtain ⟨rfl, rfl⟩ := Prod.mk.inj (Except.ok.inj hl)
      exact ⟨fileLayer_tidy h hfile, inline_tidy h hinline⟩

/-- the base is the inline layer over the file, its placeholders filled -/
theorem readBase_layers {ld : Loader} {env : List EnvVar} {base : ConfigTree} (h : readBase ld env = .ok base)
    {file inline : Entries} (hl : layers ld env = .ok (file, inline)) (hnodup : (file.map (·.1)).Nodup) :
    interpolate (environ env) (merge (mapping file) (mapping inline)) = .ok base := by
  unfold readBase at h
  rw [loadBase_eq, hl] at h
  have hmerged : (mapping (mergeEntries (mergeEntries [] file) inline) : ConfigTree) =
      merge (mapping file) (mapping inline) := by
    unfold merge
    rw [mergeItem_mapping, mergeEntries_new (r := []) hnodup, List.nil_append]
  rw [← hmerged]
  cases hread : interpolate (environ env) (mapping (mergeEntries (mergeEntries [] file) inline)) with
  | ok b =>
    have hok : (match interpolate (environ env) (mapping (mergeEntries (mergeEntries [] file) inline)) with
      | .ok base => .ok base
      | .error name => .error (configError ("config references undefined env var: ".toList ++ ld.repr name))) =
        Except.ok base := h
    rw [hread] at hok
    rw [Except.ok.inj hok]
  | error name =>
    have hok : (match interpolate (environ env) (mapping (mergeEntries (mergeEntries [] file) inline)) with
      | .ok base => .ok base
      | .error name => .error (configError ("config references undefined env var: ".toList ++ ld.repr name))) =
        Except.ok base := h
    rw [hread] at hok
    cases hok

/-- **An override wins over inline JSON, and this over the file**; an override's value is read as it stands,
the others with their placeholders filled. -/
theorem config_precedence (ld : Loader) (hdicts : Dicts ld) (env : List EnvVar) {file inline : Entries}
    (hl : layers ld env = .ok (file, inline)) {base tree : ConfigTree} (hbase : readBase ld env = .ok base)
    (h : loadTree ld env = .ok tree) (hd : Discrete base env) (hu : Uncontested base env) :
    Precedence ld env file inline tree := by
  obtain ⟨hfile, hinline⟩ := layers_tidy hdicts hl
  have hmerged := readBase_layers hbase hl (hfile [] file rfl)
  have hlook := fun p => look_merge (b := mapping file) hinline p
  have hread := fun p => look_rewrite hmerged p
  -- the overrides come last
  have happly : applyOverrides ld.loads base env = .ok tree := by
    unfold loadTree at h
    rw [hbase] at h
    exact h
  have hcoerced := coerced_of_ok happly
  have htree : tree = putAll base (assignments ld.loads env) :=
    Except.ok.inj (happly.symm.trans (applyOverrides_eq base hcoerced))
  have hkeys : (assignments ld.loads env).map (·.1) = (overriding env).map EnvVar.keys := keys_assignments hcoerced
  have hother : ∀ p, (∀ var ∈ overriding env, Apart var.keys p) → tree.look p = base.look p ∨
      Padded ((overriding env).map EnvVar.keys) base tree p := by
    intro p hp
    rw [htree, ← hkeys]
    apply look_putAll_other
    intro o ho
    have hmem : o.1 ∈ (overriding env).map EnvVar.keys := hkeys ▸ List.mem_map_of_mem ho
    obtain ⟨var, hvar, he⟩ := List.mem_map.mp hmem
    rw [← he]
    exact hp var hvar
  -- a scalar of the layers is read, and stays
  have hscalar : ∀ p a, (∀ var ∈ overriding env, Apart var.keys p) →
      (merge (mapping file) (mapping inline) : ConfigTree).look p = some (.scalar a) →
      ∃ b, interpolateScalar (environ env) a = .ok b ∧ tree.look p = some (.scalar b) := by
    intro p a hp ha
    have hp' := hread p
    rw [ha] at hp'
    obtain ⟨t', ht, hbasep⟩ := hp'
    rw [rewrite] at ht
    obtain ⟨b, hb, rfl⟩ := map_eq_ok.mp ht
    refine ⟨b, hb, ?_⟩
    rcases hother p hp with hsame | ⟨hnone, -⟩
    · exact hsame.trans hbasep
    · rw [hbasep] at hnone
      cases hnone
  have hnull : base ≠ .null := by
    rintro rfl
    have hroot := hread []
    obtain ⟨t', ht, he⟩ := hroot
    obtain rfl := Option.some.inj he
    unfold merge at ht
    rw [mergeItem_mapping, rewrite] at ht
    obtain ⟨m', -, hm'⟩ := map_eq_ok.mp ht
    cases hm'
  have hclear : Clear base ((assignments ld.loads env).map (·.1)) := by
    rw [hkeys]
    exact hd.clear hu
  refine ⟨fun var hvar => ?_, fun p a hp ha => ?_, fun p a hp hnone hover ha => ?_, fun p hp hnone hmissing => ?_⟩
  · obtain ⟨value, hvalue⟩ := hcoerced var hvar
    refine ⟨value, hvalue, ?_⟩
    rw [htree]
    exact (putAll_spec hnull hclear _ (mem_assignments hvar hvalue)).1
  · apply hscalar p a hp
    by_cases hover : Overlaid (mapping file) (mapping inline) p
    · rw [(hlook p).1 hover, ha]
      show some (mergeItem ((mapping file).look p) (.scalar a)) = _
      rw [mergeItem_other]
      rintro ⟨hmap, -⟩
      cases hmap
    · rw [(hlook p).2 hover, ha]
  · apply hscalar p a hp
    rw [(hlook p).1 hover, hnone]
    exact ha
  · have hbasep : base.look p = none := by
      have hp' := hread p
      have hmergedp : (merge (mapping file) (mapping inline) : ConfigTree).look p = none := by
        by_cases hover : Overlaid (mapping file) (mapping inline) p
        · rw [(hlook p).1 hover, hnone]
          exact hmissing hover
        · rw [(hlook p).2 hover, hnone]
      rw [hmergedp] at hp'
      exact hp'
    rcases hother p hp with hsame | ⟨-, hempty, hbelow⟩
    · exact Or.inl (hsame.trans hbasep)
    · exact Or.inr ⟨hempty, hbelow⟩

/-- a mounted file, inline JSON, and an override -/
def demoFile : ConfigTree := mapping
  [(.name "db".toList, mapping
    [(.name "host".toList, textOf "file".toList), (.name "user".toList, textOf "$\x7bUSER\x7d".toList)])]

def demoInline : ConfigTree := mapping [(.name "db".toList, mapping [(.name "host".toList, textOf "inline".toList)])]

def demoLoader : Loader where
  loads s := if s = "inline".toList then .value demoInline else .notJson
  yaml _ := .ok demoFile
  file path := if path = "/config.yaml".toList then some [] else none
  told _ := []
  repr s := s

def demoEnv : List EnvVar :=
  [⟨fileVar, "/config.yaml".toList, by decide⟩, ⟨jsonVar, "inline".toList, by decide⟩,
    ⟨"BACKUP_DB__PORT".toList, "$\x7bUSER\x7d".toList, by decide⟩, ⟨"USER".toList, "app".toList, by decide⟩]

def demoBase : ConfigTree := mapping
  [(.name "db".toList, mapping
    [(.name "host".toList, textOf "inline".toList), (.name "user".toList, textOf "app".toList)])]

theorem demo_dicts : Dicts demoLoader where
  json s m h := by
    have hloads : demoLoader.loads s = if s = "inline".toList then .value demoInline else .notJson := rfl
    rw [hloads] at h
    split at h
    · rw [← Loaded.value.inj h]
      exact tidy_sound (by decide +kernel)
    · cases h
  yaml s m h := by
    rw [← Except.ok.inj (show Except.ok demoFile = Except.ok (mapping m) from h)]
    exact tidy_sound (by decide +kernel)

theorem config_precedence_demo : ∃ file inline tree, layers demoLoader demoEnv = .ok (file, inline) ∧
    loadTree demoLoader demoEnv = .ok tree ∧ Precedence demoLoader demoEnv file inline tree := by
  have hone : overriding demoEnv = [demoEnv[2]] := rfl
  have hdiscrete : Discrete demoBase demoEnv := by
    refine ⟨?_, by decide +kernel, by decide +kernel⟩
    rw [hone]
    exact List.pairwise_singleton _ _
  have huncontested : Uncontested demoBase demoEnv := by
    unfold Uncontested
    rw [hone]
    exact List.pairwise_singleton _ _
  have hbase : readBase demoLoader demoEnv = .ok demoBase := rfl
  exact ⟨_, _, _, rfl, rfl, config_precedence demoLoader demo_dicts demoEnv rfl hbase rfl hdiscrete huncontested⟩

/-! ## inline JSON as base64 -/

/-- **Base64 and plain JSON are the same inline config**, wherever the base64 was broken into lines. -/
theorem inline_base64 (ld : Loader) (env env' : List EnvVar) (raw wrapped : Str) (hraw : raw ≠ [])
    (hplain : environ env jsonVar = some raw) (hnone : environ env' jsonVar = none)
    (hencoded : environ env' base64Var = some wrapped) (hascii : wrapped.all (fun c => c.toNat < 128) = true)
    (hwrapped : wrapped.filter Base64.known = Base64.encode (Utf8.utf8 raw)) :
    readInlineJson ld env' = readInlineJson ld env := by
  have hdecoded : fromBase64 wrapped = some raw := by
    unfold fromBase64
    rw [if_pos hascii, Base64.decode_wrapped hwrapped]
    show Python.encode (Utf8.decode (Utf8.utf8 raw)) = some raw
    rw [Utf8.decode_utf8, Python.encode_lit]
  have htext : inlineText ld env' = inlineText ld env := by
    unfold inlineText
    rw [hplain, hnone, hencoded]
    cases wrapped with
    | nil =>
      -- an empty text is what nothing is encoded to
      have hempty : fromBase64 [] = some [] := rfl
      exact absurd (Option.some.inj (hdecoded.symm.trans hempty)) hraw
    | cons c s => simp only [hdecoded]
  unfold readInlineJson
  rw [htext]

/-- `{}`, its base64 broken into two lines -/
theorem inline_base64_lines :
    readInlineJson demoLoader [⟨base64Var, "e3\n0=".toList, by decide⟩] =
      readInlineJson demoLoader [⟨jsonVar, "\x7b\x7d".toList, by decide⟩] :=
  inline_base64 demoLoader _ _ "\x7b\x7d".toList "e3\n0=".toList (by decide) (by decide +kernel) (by decide +kernel)
    (by decide +kernel) (by decide +kernel) (by decide +kernel)

end BackupHelper
