import BackupHelper.Redaction
import BackupHelper.Lib.Urlsplit
import Mathlib.Data.List.TakeWhile

/-!
# The redaction of the printed configuration

* `Data`                      a JSON-like structure;
* `redactData`, `redactEntry`, `maskUrl`   its copy with every credential masked;
* `Alike`                     two structures that differ in credentials only;
* `redactData_alike`          the copies of such two are the same, at any path;
* `redactData_hides`          **the printed configuration reveals no credential**.
-/

namespace BackupHelper
namespace Redaction
open Text Urlsplit

/-- a JSON-like structure, with numbers of type `N` -/
inductive Data (N : Type) where
  | null
  | bool (b : Bool)
  | number (n : N)
  | text (s : Str)
  | list (items : List (Data N))
  | mapping (entries : List (Str × Data N))

section
variable {N : Type} (R : HostRules)

/-- `text.strip("/")` -/
def stripSlashes (s : Str) : Str := ((s.dropWhile (· = '/')).reverse.dropWhile (· = '/')).reverse

/-- `_mask_url`; nothing where `urlsplit` raises ValueError -/
def maskUrl (url : Str) : Option Str :=
  (urlsplit R url).map fun parts =>
    let host := hostOf parts.netloc
    if parts.scheme = [] ∨ host = [] then mask
    else if stripSlashes parts.path ≠ [] ∨ parts.query ≠ [] ∨ parts.fragment ≠ [] then
      parts.scheme ++ "://".toList ++ host ++ "/".toList ++ mask
    else parts.scheme ++ "://".toList ++ host

/-- a value that is kept as it is: whether it is set is what one looks at -/
def Data.unset : Data N → Bool
  | .null => true
  | .bool _ => true
  | .text s => s.isEmpty
  | _ => false

/-- `_redact_entry` for the value at `path` and then `key`; `below` is what `redact_data` makes of it -/
def redactEntry (path : List Str) (key : Str) (value : Data N) (below : Option (Data N)) : Option (Data N) :=
  if value.unset then some value
  else if isSensitiveKey key then some (.text mask)
  else match value with
    | .text s =>
      if "notifications".toList ∈ path ∧ key = "url".toList then (maskUrl R s).map .text
      else if "notifications".toList ∈ path ∧ key = "topic".toList then some (.text mask)
      else below
    | _ => below

mutual

/-- `redact_data`; nothing where it raises ValueError -/
def redactData (path : List Str) : Data N → Option (Data N)
  | .mapping m => (redactEntries path m).map .mapping
  | .list l => (redactItems path l).map .list
  | .text s => some (.text (redact s))
  | .null => some .null
  | .bool b => some (.bool b)
  | .number n => some (.number n)

def redactItems (path : List Str) : List (Data N) → Option (List (Data N))
  | [] => some []
  | v :: l => do return (← redactData path v) :: (← redactItems path l)

def redactEntries (path : List Str) : List (Str × Data N) → Option (List (Str × Data N))
  | [] => some []
  | (key, v) :: m => do
    return (key, ← redactEntry R path key v (redactData (path ++ [key]) v)) :: (← redactEntries path m)

end

/-! ## structures that differ in credentials only -/

/-- Two values of `key` at `path`: credentials both, or alike as `below` says.  A credential is what a sensitive key
holds; and below `notifications` a topic, and of a URL all but the scheme and the host. -/
def AlikeEntry (path : List Str) (key : Str) (v v' : Data N) (below : Prop) : Prop :=
  below ∨
  (isSensitiveKey key = true ∧ v.unset = false ∧ v'.unset = false) ∨
  ("notifications".toList ∈ path ∧ key = "topic".toList ∧ ∃ s s', v = .text s ∧ v' = .text s' ∧ s ≠ [] ∧ s' ≠ []) ∨
  ("notifications".toList ∈ path ∧ key = "url".toList ∧ ∃ u u' : Url R, v = .text u.text ∧ v' = .text u'.text ∧
    u.scheme = u'.scheme ∧ u.host = u'.host ∧ u.hidden ∧ u'.hidden)

mutual

/-- two structures of the same shape at `path` that differ in credentials only -/
def Alike (path : List Str) : Data N → Data N → Prop
  | .mapping m, .mapping m' => AlikeEntries path m m'
  | .list l, .list l' => AlikeItems path l l'
  | v, v' => v = v'

def AlikeItems (path : List Str) : List (Data N) → List (Data N) → Prop
  | [], [] => True
  | v :: l, v' :: l' => Alike path v v' ∧ AlikeItems path l l'
  | _, _ => False

def AlikeEntries (path : List Str) : List (Str × Data N) → List (Str × Data N) → Prop
  | [], [] => True
  | (key, v) :: m, (key', v') :: m' =>
    key = key' ∧ AlikeEntry R path key v v' (Alike (path ++ [key]) v v') ∧ AlikeEntries path m m'
  | _, _ => False

end

/-! ## one entry -/

variable {R}

theorem stripSlashes_ne {s : Str} (h : ∃ c ∈ s, c ≠ '/') : stripSlashes s ≠ [] := by
  obtain ⟨c, hc, hne⟩ := h
  have hmem : ∀ {s : Str}, c ∈ s → c ∈ s.dropWhile (· = '/') := by
    intro s hs
    have hwhole := List.takeWhile_append_dropWhile (p := (· = '/')) (l := s)
    rw [← hwhole] at hs
    refine (List.mem_append.mp hs).resolve_left fun htake => hne ?_
    simpa using List.mem_takeWhile_imp htake
  intro hnil
  have hin : c ∈ stripSlashes s := List.mem_reverse.mpr (hmem (List.mem_reverse.mpr (hmem hc)))
  rw [hnil] at hin
  cases hin

theorem maskUrl_hidden (u : Url R) (hu : u.hidden) :
    maskUrl R u.text = some (u.scheme.map Char.toLower ++ "://".toList ++ u.host ++ "/".toList ++ mask) := by
  have hscheme : u.scheme.map Char.toLower ≠ [] := by
    obtain ⟨c, name, hs, -⟩ := u.letter
    simp [hs]
  have hrest : stripSlashes u.path ≠ [] ∨ u.query.getD [] ≠ [] ∨ u.fragment.getD [] ≠ [] :=
    hu.imp_left stripSlashes_ne
  unfold maskUrl
  rw [urlsplit_text]
  simp only [Option.map_some, u.hostOf_netloc]
  rw [if_neg (by simp [hscheme, u.hasHost]), if_pos hrest]

theorem redactEntry_sensitive {path : List Str} {key : Str} {v : Data N} {below : Option (Data N)}
    (hkey : isSensitiveKey key = true) (hv : v.unset = false) : redactEntry R path key v below = some (.text mask) := by
  unfold redactEntry
  rw [hv, hkey]
  rfl

theorem redactEntry_topic {path : List Str} {s : Str} {below : Option (Data N)} (hpath : "notifications".toList ∈ path)
    (hs : s ≠ []) : redactEntry R path "topic".toList (.text s) below = some (.text mask) := by
  have hunset : (Data.text s : Data N).unset = false := by
    cases s with
    | nil => exact absurd rfl hs
    | cons => rfl
  have hkey : isSensitiveKey "topic".toList = false := by decide
  have hurl : "topic".toList ≠ "url".toList := by decide
  unfold redactEntry
  rw [hunset, hkey]
  simp only [Bool.false_eq_true, if_false]
  rw [if_neg (fun h => hurl h.2), if_pos ⟨hpath, trivial⟩]

theorem redactEntry_url {path : List Str} {u : Url R} {below : Option (Data N)} (hpath : "notifications".toList ∈ path)
    (hu : u.hidden) : redactEntry R path "url".toList (.text u.text) below =
      some (.text (u.scheme.map Char.toLower ++ "://".toList ++ u.host ++ "/".toList ++ mask)) := by
  have hunset : (Data.text u.text : Data N).unset = false := by
    obtain ⟨c, name, hs, -⟩ := u.letter
    unfold Url.text
    rw [hs]
    rfl
  have hkey : isSensitiveKey "url".toList = false := by decide
  unfold redactEntry
  rw [hunset, hkey]
  simp only [Bool.false_eq_true, if_false]
  rw [if_pos ⟨hpath, trivial⟩, maskUrl_hidden u hu]
  rfl

/-- an entry that is alike below is the same, if what is made of it below is -/
theorem redactEntry_below {path path' : List Str} {key : Str} {v v' : Data N} {below below' : Option (Data N)}
    (h : Alike R path' v v') (hbelow : below = below') :
    redactEntry R path key v below = redactEntry R path key v' below' := by
  obtain rfl := hbelow
  have hsame : v = v' ∨ (v.unset = false ∧ v'.unset = false ∧ (∀ s, v ≠ .text s) ∧ ∀ s, v' ≠ .text s) := by
    cases v with
    | list l => cases v' <;> first | exact Or.inl h | exact Or.inr ⟨rfl, rfl, by simp, by simp⟩
    | mapping m => cases v' <;> first | exact Or.inl h | exact Or.inr ⟨rfl, rfl, by simp, by simp⟩
    | _ => exact Or.inl (by simpa [Alike] using h)
  rcases hsame with rfl | ⟨hv, hv', htext, htext'⟩
  · rfl
  have hother : ∀ {v : Data N}, (∀ s, v ≠ .text s) → v.unset = false →
      redactEntry R path key v below = if isSensitiveKey key then some (.text mask) else below := by
    intro v htext hv
    unfold redactEntry
    rw [hv]
    cases v with
    | text s => exact absurd rfl (htext s)
    | _ => rfl
  rw [hother htext hv, hother htext' hv']

theorem redactEntry_alike {path : List Str} {key : Str} {v v' : Data N}
    (hbelow : Alike R (path ++ [key]) v v' → redactData R (path ++ [key]) v = redactData R (path ++ [key]) v')
    (h : AlikeEntry R path key v v' (Alike R (path ++ [key]) v v')) :
    redactEntry R path key v (redactData R (path ++ [key]) v) =
      redactEntry R path key v' (redactData R (path ++ [key]) v') := by
  rcases h with h | ⟨hkey, hv, hv'⟩ | ⟨hpath, rfl, s, s', rfl, rfl, hs, hs'⟩ |
    ⟨hpath, rfl, u, u', rfl, rfl, hscheme, hhost, hu, hu'⟩
  · exact redactEntry_below h (hbelow h)
  · rw [redactEntry_sensitive hkey hv, redactEntry_sensitive hkey hv']
  · rw [redactEntry_topic hpath hs, redactEntry_topic hpath hs']
  · rw [redactEntry_url hpath hu, redactEntry_url hpath hu', hscheme, hhost]

/-! ## the whole structure -/

mutual

theorem redactData_alike (path : List Str) (v v' : Data N) (h : Alike R path v v') :
    redactData R path v = redactData R path v' := by
  cases v with
  | list l =>
    cases v' with
    | list l' => rw [redactData, redactData, redactItems_alike path l l' h]
    | _ => cases h
  | mapping m =>
    cases v' with
    | mapping m' => rw [redactData, redactData, redactEntries_alike path m m' h]
    | _ => cases h
  | _ => exact congrArg (redactData R path) (by simpa [Alike] using h)

theorem redactItems_alike (path : List Str) (l l' : List (Data N)) (h : AlikeItems R path l l') :
    redactItems R path l = redactItems R path l' := by
  cases l with
  | nil =>
    cases l' with
    | nil => rfl
    | cons => cases h
  | cons v l =>
    cases l' with
    | nil => cases h
    | cons v' l' => rw [redactItems, redactItems, redactData_alike path v v' h.1, redactItems_alike path l l' h.2]

theorem redactEntries_alike (path : List Str) (m m' : List (Str × Data N)) (h : AlikeEntries R path m m') :
    redactEntries R path m = redactEntries R path m' := by
  cases m with
  | nil =>
    cases m' with
    | nil => rfl
    | cons => cases h
  | cons e m =>
    obtain ⟨key, v⟩ := e
    cases m' with
    | nil => cases h
    | cons e' m' =>
      obtain ⟨key', v'⟩ := e'
      obtain ⟨rfl, hentry, hrest⟩ := h
      rw [redactEntries, redactEntries, redactEntries_alike path m m' hrest,
        redactEntry_alike (redactData_alike (path ++ [key]) v v') hentry]

end

/-- **The printed configuration reveals no credential**: two structures that differ in credentials only give
the same copy. -/
theorem redactData_hides {v v' : Data N} (h : Alike R [] v v') : redactData R [] v = redactData R [] v' :=
  redactData_alike [] v v' h

end

/-- rules for hosts of ASCII letters -/
def asciiHosts : HostRules := ⟨fun _ => false, id⟩

def slack (path : Str) (hhead : path.head? = some '/') (hchars : ∀ c ∈ path, c ∉ ['?', '#'] ∧ c ∉ removed) :
    Url asciiHosts where
  scheme := "https".toList
  userinfo := none
  host := "hooks.slack.com".toList
  path := path
  query := none
  fragment := none
  letter := ⟨'h', "ttps".toList, rfl, by decide⟩
  schemeChars := by decide
  userinfoChars := by simp
  hasHost := by decide
  hostChars := by decide
  hostShape := Or.inl (by decide)
  netlocChars := by decide
  pathHead := Or.inr hhead
  pathChars := fun c hc => (hchars c hc).1
  queryChars := by simp
  clean := by
    have hhost : ∀ c ∈ "hooks.slack.com".toList, c ∉ removed := by decide
    intro c hc
    simp only [Option.getD_none, List.nil_append, List.append_nil] at hc
    exact (List.mem_append.mp hc).elim (hhost c) fun h => (hchars c h).2

/-- a job with a channel and a secret -/
def jobs (url topic secret : Str) : Data ℕ :=
  .mapping [("jobs".toList, .list [.mapping [
    ("notifications".toList, .mapping [
      ("slack".toList, .mapping [("url".toList, .text url)]),
      ("ntfy".toList, .mapping [("topic".toList, .text topic), ("token".toList, .null)])]),
    ("secret_key".toList, .text secret), ("port".toList, .number 9000)]])]

theorem redactData_hides_jobs :
    redactData asciiHosts [] (jobs "https://hooks.slack.com/T0/B0".toList "mine".toList "hunter2".toList) =
      redactData asciiHosts [] (jobs "https://hooks.slack.com/X9".toList "yours".toList "swordfish".toList) := by
  refine redactData_hides ⟨rfl, Or.inl ⟨⟨rfl, Or.inl ⟨rfl, Or.inl ⟨rfl, Or.inr (Or.inr (Or.inr ?_)), trivial⟩,
    rfl, Or.inl ⟨rfl, Or.inr (Or.inr (Or.inl ?_)), rfl, Or.inl rfl, trivial⟩, trivial⟩,
    rfl, Or.inr (Or.inl (by decide)), rfl, Or.inl rfl, trivial⟩, trivial⟩, trivial⟩
  · exact ⟨by decide, rfl, slack "/T0/B0".toList rfl (by decide), slack "/X9".toList rfl (by decide), rfl, rfl, rfl, rfl,
      Or.inl ⟨'T', by decide⟩, Or.inl ⟨'X', by decide⟩⟩
  · exact ⟨by decide, rfl, _, _, rfl, rfl, by decide, by decide⟩

end Redaction
end BackupHelper
