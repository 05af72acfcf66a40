import BackupHelper.Lib.Lines

/-!
# URLs and their parts

`urlsplit` takes a text apart into scheme, network location, path, query and fragment; what it refuses
it refuses with an error.

* `HostRules`        what decides about a host in brackets, and about a host of other scripts;
* `urlsplit`         the parts of a text;
* `Url`, `Url.text`  a well-formed absolute URL with a host, and its text;
* `urlsplit_text`    **a well-formed URL is taken apart into its parts**;
* `Url.hostOf`       the host is what follows the last `@` of the location.
-/

namespace Urlsplit
open Text

/-- whether a host in brackets is an address; and the compatibility form (NFKC) of a text -/
structure HostRules where
  address : Str → Bool
  nfkc : Str → Str

/-- a control character, or a space -/
def c0OrSpace (c : Char) : Bool := c.toNat ≤ 0x20

/-- what is taken out of a URL wherever it stands -/
def removed : Str := ['\t', '\r', '\n']

def schemeChar (c : Char) : Bool := c.isAlphanum || c = '+' || c = '-' || c = '.'

/-- the scheme, if there is one, and what follows it -/
def splitScheme (url : Str) : Str × Str :=
  match splitAt1 ':' url with
  | some (c :: name, rest) =>
    if c.isAlpha && (c :: name).all schemeChar then ((c :: name).map Char.toLower, rest) else ([], url)
  | _ => ([], url)

def endsNetloc (c : Char) : Bool := c = '/' || c = '?' || c = '#'

/-- the network location and what follows it -/
def splitNetloc : Str → Str × Str
  | '/' :: '/' :: s => (s.takeWhile fun c => !endsNetloc c, s.dropWhile fun c => !endsNetloc c)
  | url => ([], url)

/-- the part behind the last `@`, or the whole text -/
def hostOf (netloc : Str) : Str :=
  match splitAt1 '@' netloc.reverse with
  | some (host, _) => host.reverse
  | none => netloc

/-- the part before the first `c`, and the part behind it -/
def partition (c : Char) (s : Str) : Str × Str := (splitAt1 c s).getD (s, [])

def checkBracketedNetloc (R : HostRules) (netloc : Str) : Bool :=
  match splitAt1 '[' (hostOf netloc) with
  | some (before, bracketed) =>
    let (name, port) := partition ']' bracketed
    before.isEmpty && (port.isEmpty || port.head? = some ':') && R.address name
  | none => R.address (partition ':' (hostOf netloc)).1

def checkBrackets (R : HostRules) (netloc : Str) : Bool :=
  if '[' ∈ netloc ∧ ']' ∈ netloc then checkBracketedNetloc R netloc else '[' ∉ netloc ∧ ']' ∉ netloc

/-- no character becomes one that ends or divides the location -/
def checkNetloc (R : HostRules) (netloc : Str) : Bool :=
  let n := netloc.filter fun c => c ∉ ['@', ':', '#', '?']
  netloc.all (fun c => c.toNat < 128) || R.nfkc n = n || ['/', '?', '#', '@', ':'].all fun c => c ∉ R.nfkc n

structure Split where
  scheme : Str
  netloc : Str
  path : Str
  query : Str
  fragment : Str
deriving DecidableEq

/-- `urlsplit`; nothing where it raises ValueError -/
def urlsplit (R : HostRules) (url : Str) : Option Split :=
  let url := (url.dropWhile c0OrSpace).filter fun c => c ∉ removed
  let (scheme, url) := splitScheme url
  let (netloc, url) := splitNetloc url
  let (url, fragment) := partition '#' url
  let (path, query) := partition '?' url
  if checkBrackets R netloc && checkNetloc R netloc then some ⟨scheme, netloc, path, query, fragment⟩ else none

/-! ## well-formed URLs -/

/-- a part of the URL with the character that begins it -/
def part (c : Char) : Option Str → Str
  | none => []
  | some s => c :: s

/-- a name, or an address in brackets with a port behind it -/
def HostShape (R : HostRules) (host : Str) : Prop :=
  ('[' ∉ host ∧ ']' ∉ host) ∨
    ∃ name port, host = '[' :: name ++ ']' :: port ∧ R.address name = true ∧ (port = [] ∨ port.head? = some ':') ∧
      '[' ∉ name ∧ ']' ∉ name

/-- a well-formed absolute URL with a host (and the port, in `host`) -/
structure Url (R : HostRules) where
  scheme : Str
  userinfo : Option Str
  host : Str
  path : Str
  query : Option Str
  fragment : Option Str
  letter : ∃ c name, scheme = c :: name ∧ c.isAlpha = true
  schemeChars : ∀ c ∈ scheme, schemeChar c = true
  userinfoChars : ∀ s ∈ userinfo, ∀ c ∈ s, c ∉ ['/', '?', '#', '[', ']']
  hasHost : host ≠ []
  hostChars : ∀ c ∈ host, c ∉ ['/', '?', '#', '@']
  hostShape : HostShape R host
  netlocChars : checkNetloc R ((userinfo.map (· ++ ['@'])).getD [] ++ host) = true
  pathHead : path = [] ∨ path.head? = some '/'
  pathChars : ∀ c ∈ path, c ∉ ['?', '#']
  queryChars : ∀ s ∈ query, '#' ∉ s
  clean : ∀ c ∈ (userinfo.getD [] ++ host ++ path ++ query.getD [] ++ fragment.getD []), c ∉ removed

variable {R : HostRules}

def Url.netloc (u : Url R) : Str := (u.userinfo.map (· ++ ['@'])).getD [] ++ u.host

def Url.text (u : Url R) : Str :=
  u.scheme ++ ':' :: '/' :: '/' :: (u.netloc ++ (u.path ++ (part '?' u.query ++ part '#' u.fragment)))

/-! ## the parts -/

theorem splitAt1_free {c : Char} {s : Str} (h : free c s) : splitAt1 c s = none := by
  cases hs : splitAt1 c s with
  | none => rfl
  | some r =>
    have he := splitAt1_eq_some (x := r.1) (y := r.2) hs
    exact absurd (he ▸ by simp) h

theorem partition_free {c : Char} {s : Str} (h : free c s) : partition c s = (s, []) := by
  unfold partition
  rw [splitAt1_free h]
  rfl

theorem partition_part {c : Char} {s : Str} (h : free c s) (o : Option Str) :
    partition c (s ++ part c o) = (s, o.getD []) := by
  cases o with
  | none =>
    rw [part, List.append_nil]
    exact partition_free h
  | some t =>
    unfold partition
    rw [part, splitAt1_append h]
    rfl

theorem hostOf_free {s host : Str} (h : '@' ∉ host) : hostOf (s ++ '@' :: host) = host := by
  have hrev : (s ++ '@' :: host).reverse = host.reverse ++ '@' :: s.reverse := by simp
  have hfree : free '@' host.reverse := fun hc => h (List.mem_reverse.mp hc)
  unfold hostOf
  rw [hrev, splitAt1_append hfree]
  exact List.reverse_reverse host

theorem Url.hostOf_netloc (u : Url R) : hostOf u.netloc = u.host := by
  have hno : '@' ∉ u.host := fun hc => u.hostChars '@' hc (by decide)
  unfold Url.netloc
  cases u.userinfo with
  | some s =>
    have hassoc : s ++ ['@'] ++ u.host = s ++ '@' :: u.host := by simp
    show hostOf (s ++ ['@'] ++ u.host) = u.host
    rw [hassoc]
    exact hostOf_free hno
  | none =>
    have hfree : free '@' u.host.reverse := fun hc => hno (List.mem_reverse.mp hc)
    show hostOf u.host = u.host
    unfold hostOf
    rw [splitAt1_free hfree]

theorem Url.netloc_chars (u : Url R) : ∀ c ∈ u.netloc, endsNetloc c = false := by
  have hslash : ∀ c : Char, c ∉ ['/', '?', '#'] → endsNetloc c = false := by
    intro c hc
    simp at hc
    simp [endsNetloc, hc]
  intro c hc
  refine hslash c fun hin => ?_
  unfold Url.netloc at hc
  rcases List.mem_append.mp hc with hc | hc
  · cases hs : u.userinfo with
    | none =>
      rw [hs] at hc
      cases hc
    | some s =>
      rw [hs] at hc
      rcases List.mem_append.mp (show c ∈ s ++ ['@'] from hc) with hc | hc
      · exact u.userinfoChars s hs c hc (List.mem_append_left ['[', ']'] hin)
      · rw [List.mem_singleton.mp hc] at hin
        revert hin
        decide
  · exact u.hostChars c hc (List.mem_append_left ['@'] hin)

theorem splitNetloc_url (u : Url R) (rest : Str) (hrest : ∀ c ∈ rest.head?, endsNetloc c = true) :
    splitNetloc ('/' :: '/' :: (u.netloc ++ rest)) = (u.netloc, rest) := by
  have hall : ∀ c ∈ u.netloc, (!endsNetloc c) = true := fun c hc => by rw [u.netloc_chars c hc]; rfl
  have hstop : rest.takeWhile (fun c => !endsNetloc c) = [] ∧ rest.dropWhile (fun c => !endsNetloc c) = rest := by
    cases rest with
    | nil => exact ⟨rfl, rfl⟩
    | cons c rest =>
      have hc := hrest c rfl
      exact ⟨List.takeWhile_cons_of_neg (by simp [hc]), List.dropWhile_cons_of_neg (by simp [hc])⟩
  show ((u.netloc ++ rest).takeWhile _, (u.netloc ++ rest).dropWhile _) = _
  rw [List.takeWhile_append_of_pos hall, List.dropWhile_append_of_pos hall, hstop.1, hstop.2, List.append_nil]

theorem Url.tail_head (u : Url R) :
    ∀ c ∈ (u.path ++ (part '?' u.query ++ part '#' u.fragment)).head?, endsNetloc c = true := by
  intro c hc
  rcases u.pathHead with hp | hp
  · rw [hp, List.nil_append] at hc
    cases hq : u.query with
    | some q =>
      rw [hq] at hc
      obtain rfl := Option.some.inj hc
      decide
    | none =>
      rw [hq] at hc
      cases hf : u.fragment with
      | some f =>
        rw [hf] at hc
        obtain rfl := Option.some.inj hc
        decide
      | none =>
        rw [hf] at hc
        cases hc
  · obtain ⟨r, hr⟩ : ∃ r, u.path = '/' :: r := by
      cases hpath : u.path with
      | nil =>
        rw [hpath] at hp
        cases hp
      | cons d r =>
        rw [hpath] at hp
        exact ⟨r, by rw [Option.some.inj hp]⟩
    rw [hr] at hc
    obtain rfl := Option.some.inj hc
    decide

theorem splitScheme_url (u : Url R) (rest : Str) :
    splitScheme (u.scheme ++ ':' :: rest) = (u.scheme.map Char.toLower, rest) := by
  obtain ⟨c, name, hs, hc⟩ := u.letter
  have hfree : free ':' u.scheme := fun hmem => by
    have hcol := u.schemeChars ':' hmem
    revert hcol
    decide
  have hall : (c :: name).all schemeChar = true := List.all_eq_true.mpr (hs ▸ u.schemeChars)
  unfold splitScheme
  rw [splitAt1_append hfree, hs]
  simp only [hc, hall, Bool.and_true, if_true]

/-! ## the checks -/

theorem Url.brackets (u : Url R) : checkBrackets R u.netloc = true := by
  have hinfo : ∀ c ∈ ['[', ']'], c ∈ u.netloc ↔ c ∈ u.host := by
    intro c hc
    refine ⟨fun h => ?_, fun h => List.mem_append_right _ h⟩
    unfold Url.netloc at h
    rcases List.mem_append.mp h with h | h
    · cases hs : u.userinfo with
      | none =>
        rw [hs] at h
        cases h
      | some s =>
        rw [hs] at h
        rcases List.mem_append.mp (show c ∈ s ++ ['@'] from h) with h | h
        · exact absurd (List.mem_append_right ['/', '?', '#'] hc) (u.userinfoChars s hs c h)
        · rw [List.mem_singleton.mp h] at hc
          exact absurd hc (by decide)
    · exact h
  have hopen := hinfo '[' (by decide)
  have hclose := hinfo ']' (by decide)
  unfold checkBrackets
  rcases u.hostShape with ⟨h1, h2⟩ | ⟨name, port, hhost, haddress, hport, h1, h2⟩
  · rw [if_neg (fun h => h1 (hopen.mp h.1))]
    simp [hopen, hclose, h1, h2]
  · have hin : '[' ∈ u.netloc ∧ ']' ∈ u.netloc := ⟨hopen.mpr (hhost ▸ by simp), hclose.mpr (hhost ▸ by simp)⟩
    have hsplit : splitAt1 '[' u.host = some ([], name ++ ']' :: port) := by
      rw [hhost]
      exact splitAt1_append (s := []) (by simp [free])
    have hname : partition ']' (name ++ ']' :: port) = (name, port) := by
      unfold partition
      rw [splitAt1_append h2]
      rfl
    rw [if_pos hin]
    unfold checkBracketedNetloc
    rw [u.hostOf_netloc, hsplit]
    simp only [hname, List.isEmpty_nil, Bool.true_and, haddress, Bool.and_true]
    rcases hport with rfl | hport
    · rfl
    · simp [hport]

theorem part_mem {c d : Char} {o : Option Str} (h : d ∈ part c o) : d = c ∨ d ∈ o.getD [] := by
  cases o with
  | none => cases h
  | some s => exact List.mem_cons.mp h

theorem Url.text_clean (u : Url R) : ∀ c ∈ u.text, c ∉ removed := by
  have hsigns : ∀ c ∈ [':', '/', '@', '?', '#'], c ∉ removed := by decide
  have hscheme : ∀ c ∈ u.scheme, c ∉ removed := by
    have hall : ∀ c ∈ removed, schemeChar c = false := by decide
    intro c hc hr
    have hno := hall c hr
    rw [u.schemeChars c hc] at hno
    cases hno
  have hparts := u.clean
  intro c hc
  have hcases : c ∈ u.scheme ∨ c ∈ [':', '/', '@', '?', '#'] ∨
      c ∈ u.userinfo.getD [] ++ u.host ++ u.path ++ u.query.getD [] ++ u.fragment.getD [] := by
    unfold Url.text at hc
    rcases List.mem_append.mp hc with hc | hc
    · exact Or.inl hc
    rcases List.mem_cons.mp hc with rfl | hc
    · exact Or.inr (Or.inl (by decide))
    rcases List.mem_cons.mp hc with rfl | hc
    · exact Or.inr (Or.inl (by decide))
    rcases List.mem_cons.mp hc with rfl | hc
    · exact Or.inr (Or.inl (by decide))
    rcases List.mem_append.mp hc with hc | hc
    · unfold Url.netloc at hc
      rcases List.mem_append.mp hc with hc | hc
      · cases hs : u.userinfo with
        | none =>
          rw [hs] at hc
          cases hc
        | some s =>
          rw [hs] at hc
          rcases List.mem_append.mp (show c ∈ s ++ ['@'] from hc) with hc | hc
          · exact Or.inr (Or.inr (by simp [hc]))
          · exact Or.inr (Or.inl (by rw [List.mem_singleton.mp hc]; decide))
      · exact Or.inr (Or.inr (by simp [hc]))
    rcases List.mem_append.mp hc with hc | hc
    · exact Or.inr (Or.inr (by simp [hc]))
    rcases List.mem_append.mp hc with hc | hc
    · rcases part_mem hc with rfl | hc
      · exact Or.inr (Or.inl (by decide))
      · exact Or.inr (Or.inr (by simp [hc]))
    · rcases part_mem hc with rfl | hc
      · exact Or.inr (Or.inl (by decide))
      · exact Or.inr (Or.inr (by simp [hc]))
  rcases hcases with hc | hc | hc
  · exact hscheme c hc
  · exact hsigns c hc
  · exact hparts c hc

/-- **A well-formed URL is taken apart into its parts.** -/
theorem urlsplit_text (u : Url R) : urlsplit R u.text =
    some ⟨u.scheme.map Char.toLower, u.netloc, u.path, u.query.getD [], u.fragment.getD []⟩ := by
  have hfilter : u.text.filter (fun c => c ∉ removed) = u.text :=
    List.filter_eq_self.mpr fun c hc => by simpa using u.text_clean c hc
  have hstart : u.text.dropWhile c0OrSpace = u.text := by
    obtain ⟨c, name, hs, hc⟩ := u.letter
    unfold Url.text
    rw [hs]
    refine List.dropWhile_cons_of_neg ?_
    have hbig : 0x20 < c.toNat := by
      have hall : ∀ n < 33, (Char.ofNat n).isAlpha = false := by decide
      by_contra hle
      have hno := hall c.toNat (by omega)
      rw [Char.ofNat_toNat, hc] at hno
      cases hno
    simp [c0OrSpace, hbig]
  have hfrag : free '#' (u.path ++ part '?' u.query) := by
    intro hc
    rcases List.mem_append.mp hc with hc | hc
    · exact u.pathChars '#' hc (by decide)
    · rcases part_mem hc with hc | hc
      · revert hc
        decide
      · cases hq : u.query with
        | none =>
          rw [hq] at hc
          cases hc
        | some q =>
          rw [hq] at hc
          exact u.queryChars q hq hc
  have hquery : free '?' u.path := fun hc => u.pathChars '?' hc (by decide)
  unfold urlsplit
  simp only [hstart, hfilter]
  unfold Url.text
  simp only [splitScheme_url, splitNetloc_url u _ u.tail_head]
  rw [← List.append_assoc, partition_part hfrag]
  simp only [partition_part hquery]
  rw [u.brackets, show checkNetloc R u.netloc = true from u.netlocChars]
  rfl

/-- there is something behind the host that is more than slashes -/
def Url.hidden (u : Url R) : Prop := (∃ c ∈ u.path, c ≠ '/') ∨ u.query.getD [] ≠ [] ∨ u.fragment.getD [] ≠ []

end Urlsplit
