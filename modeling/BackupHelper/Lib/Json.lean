import BackupHelper.Lib.Text

/-!
# JSON texts

`dumps` writes a value with sorted keys, two blanks a level and nothing but ASCII; `loads` reads a text.
Numbers are natural numbers, and a text is of characters: what else a text may hold is not read.

* `dict`                    a mapping from pairs, of which a later one replaces an earlier one;
* `escape`, `render`        the text of a character and of a value;
* `Value.sorted`, `dumps`   the value with sorted keys, and its text;
* `loads`                   the value of a text;
* `readValue_render`        a value is read from its own text;
* `loads_dumps`             **a value is read as it was written, with sorted keys**.
-/

namespace Json
open Text

inductive Value where
  | null
  | bool (b : Bool)
  | num (n : ℕ)
  | str (s : Str)
  | arr (items : List Value)
  | obj (entries : List (Str × Value))

/-! ## mappings -/

section
variable {K V : Type} [DecidableEq K]

/-- a new value takes the place of an old one -/
def insert (k : K) (v : V) : List (K × V) → List (K × V)
  | [] => [(k, v)]
  | e :: es => if e.1 = k then (k, v) :: es else e :: insert k v es

/-- `dict(pairs)` -/
def dict (pairs : List (K × V)) : List (K × V) := pairs.foldl (fun d p => insert p.1 p.2 d) []

theorem insert_new {k : K} {v : V} {es : List (K × V)} (h : k ∉ es.map (·.1)) : insert k v es = es ++ [(k, v)] := by
  induction es with
  | nil => rfl
  | cons e es ih =>
    rw [List.map_cons, List.mem_cons, not_or] at h
    rw [insert, if_neg (Ne.symm h.1), ih h.2]
    rfl

/-- pairs of distinct keys are a mapping -/
theorem dict_of_nodup {pairs : List (K × V)} (h : (pairs.map (·.1)).Nodup) : dict pairs = pairs := by
  have hgo : ∀ d : List (K × V), ((d ++ pairs).map (·.1)).Nodup →
      pairs.foldl (fun d p => insert p.1 p.2 d) d = d ++ pairs := by
    clear h
    induction pairs with
    | nil =>
      intro d _
      rw [List.append_nil]
      rfl
    | cons p pairs ih =>
      intro d hd
      rw [List.map_append, List.map_cons] at hd
      have hnew : p.1 ∉ d.map (·.1) := fun hmem =>
        (List.nodup_append.mp hd).2.2 _ hmem _ List.mem_cons_self rfl
      rw [List.foldl_cons, insert_new hnew, ih, List.append_assoc]
      · rfl
      · rw [List.append_assoc, List.map_append]
        exact hd
  exact hgo [] h

end

section
variable {K V : Type} [BEq K] [LawfulBEq K]

theorem lookup_of_mem {es : List (K × V)} (h : (es.map (·.1)).Nodup) {e : K × V} (he : e ∈ es) :
    es.lookup e.1 = some e.2 := by
  induction es with
  | nil => cases he
  | cons d es ih =>
    rw [List.map_cons, List.nodup_cons] at h
    rw [List.lookup_cons]
    rcases List.mem_cons.mp he with rfl | he
    · rw [beq_self_eq_true]
    · have hne : e.1 ≠ d.1 := fun heq => h.1 (heq ▸ List.mem_map_of_mem he)
      rw [beq_eq_false_iff_ne.mpr hne]
      exact ih h.2 he

omit [LawfulBEq K] in
theorem lookup_map {W : Type} (f : V → W) (es : List (K × V)) (k : K) :
    (es.map fun e => (e.1, f e.2)).lookup k = (es.lookup k).map f := by
  induction es with
  | nil => rfl
  | cons e es ih =>
    rw [List.map_cons, List.lookup_cons, List.lookup_cons, ih]
    cases k == e.1 <;> rfl

/-- the order of a mapping does not matter to its reader -/
theorem lookup_perm {es es' : List (K × V)} (h : (es.map (·.1)).Nodup) (hp : es.Perm es') (k : K) :
    es.lookup k = es'.lookup k := by
  have h' : (es'.map (·.1)).Nodup := (hp.map _).nodup_iff.mp h
  cases hk : es'.lookup k with
  | none =>
    rw [List.lookup_eq_none_iff] at hk ⊢
    exact fun e he => hk e (hp.mem_iff.mp he)
  | some v =>
    obtain ⟨l₁, l₂, rfl, -⟩ := List.lookup_eq_some_iff.mp hk
    exact lookup_of_mem h (hp.mem_iff.mpr (List.mem_append_right l₁ List.mem_cons_self))

end

/-! ## writing -/

/-- an escape of four digits -/
def unit (n : ℕ) : Str := '\\' :: 'u' :: [n / 4096, n / 256, n / 16, n].map fun d => Nat.digitChar (d % 16)

def escape (c : Char) : Str :=
  if c = '"' then ['\\', '"']
  else if c = '\\' then ['\\', '\\']
  else if c = '\n' then ['\\', 'n']
  else if c = '\r' then ['\\', 'r']
  else if c = '\t' then ['\\', 't']
  else if c = '\x0c' then ['\\', 'f']
  else if c = '\x08' then ['\\', 'b']
  else if 0x20 ≤ c.toNat ∧ c.toNat ≤ 0x7e then [c]
  else if c.toNat < 0x10000 then unit c.toNat
  else unit (0xd800 + (c.toNat - 0x10000) / 0x400) ++ unit (0xdc00 + (c.toNat - 0x10000) % 0x400)

def literal (s : Str) : Str := '"' :: (s.flatMap escape ++ ['"'])

def newline (level : ℕ) : Str := '\n' :: List.replicate (2 * level) ' '

mutual
def render (level : ℕ) : Value → Str
  | .null => "null".toList
  | .bool b => if b then "true".toList else "false".toList
  | .num n => Nat.toDigits 10 n
  | .str s => literal s
  | .arr [] => ['[', ']']
  | .arr (v :: vs) =>
    '[' :: (newline (level + 1) ++ render (level + 1) v ++ renderItems (level + 1) vs ++ newline level ++ [']'])
  | .obj [] => ['{', '}']
  | .obj ((k, v) :: es) =>
    '{' :: (newline (level + 1) ++ literal k ++ ':' :: ' ' :: render (level + 1) v ++ renderEntries (level + 1) es ++
      newline level ++ ['}'])

def renderItems (level : ℕ) : List Value → Str
  | [] => []
  | v :: vs => ',' :: (newline level ++ render level v ++ renderItems level vs)

def renderEntries (level : ℕ) : List (Str × Value) → Str
  | [] => []
  | (k, v) :: es => ',' :: (newline level ++ literal k ++ ':' :: ' ' :: render level v ++ renderEntries level es)
end

def byKey {V : Type} (es : List (Str × V)) : List (Str × V) := es.insertionSort fun a b => a.1 ≤ b.1

mutual
def Value.sorted : Value → Value
  | .arr vs => .arr (sortedItems vs)
  | .obj es => .obj (byKey (sortedEntries es))
  | v => v

def sortedItems : List Value → List Value
  | [] => []
  | v :: vs => v.sorted :: sortedItems vs

def sortedEntries : List (Str × Value) → List (Str × Value)
  | [] => []
  | (k, v) :: es => (k, v.sorted) :: sortedEntries es
end

/-- `json.dumps(v, indent=2, sort_keys=True)` -/
def dumps (v : Value) : Str := render 0 v.sorted

/-! ## reading -/

def isSpace (c : Char) : Bool := c = ' ' || c = '\t' || c = '\n' || c = '\r'

def skip (s : Str) : Str := s.dropWhile isSpace

def readUnit : Str → Option (ℕ × Str)
  | a :: b :: c :: d :: s => do
    return (4096 * (← hexVal a) + 256 * (← hexVal b) + 16 * (← hexVal c) + (← hexVal d), s)
  | _ => none

/-- the character that a backslash stands for with what follows it; a lone surrogate is no character -/
def unescape : Str → Option (Char × Str)
  | '"' :: s => some ('"', s)
  | '\\' :: s => some ('\\', s)
  | '/' :: s => some ('/', s)
  | 'b' :: s => some ('\x08', s)
  | 'f' :: s => some ('\x0c', s)
  | 'n' :: s => some ('\n', s)
  | 'r' :: s => some ('\r', s)
  | 't' :: s => some ('\t', s)
  | 'u' :: s =>
    match readUnit s with
    | none => none
    | some (n, s) =>
      if n < 0xd800 ∨ 0xdfff < n then some (Char.ofNat n, s)
      else
        match s with
        | '\\' :: 'u' :: s =>
          match readUnit s with
          | none => none
          | some (m, s) =>
            if n < 0xdc00 ∧ 0xdc00 ≤ m ∧ m ≤ 0xdfff then
              some (Char.ofNat (0x10000 + (n - 0xd800) * 0x400 + (m - 0xdc00)), s)
            else none
        | _ => none
  | _ => none

/-- the next character of a string literal -/
def readChar : Str → Option (Char × Str)
  | [] => none
  | '\\' :: s => unescape s
  | c :: s => if c.toNat < 0x20 then none else some (c, s)

/-- a string literal behind its opening quote; every character of it takes one of `fuel` -/
def readString : ℕ → Str → Option (Str × Str)
  | _, '"' :: s => some ([], s)
  | 0, _ => none
  | fuel + 1, s =>
    match readChar s with
    | none => none
    | some (c, s) => (readString fuel s).map fun r => (c :: r.1, r.2)

/-- what makes a number longer, or no natural number -/
def inNumber (c : Char) : Bool := c.isDigit || c = '.' || c = 'e' || c = 'E'

/-- a natural number without leading zeros -/
def readNum (s : Str) : Option (ℕ × Str) :=
  let digits := s.takeWhile inNumber
  if digits ≠ [] ∧ digits.all Char.isDigit ∧ (digits.head? = some '0' → digits = ['0']) then
    some (Nat.ofDigitChars 10 digits 0, s.dropWhile inNumber)
  else none

mutual
def readValue : ℕ → Str → Option (Value × Str)
  | 0, _ => none
  | fuel + 1, s =>
    match s with
    | '"' :: s => (readString s.length s).map fun r => (.str r.1, r.2)
    | '[' :: s =>
      match skip s with
      | ']' :: s => some (.arr [], s)
      | s => (readItems fuel s).map fun r => (.arr r.1, r.2)
    | '{' :: s =>
      match skip s with
      | '}' :: s => some (.obj [], s)
      | s => (readEntries fuel s).map fun r => (.obj (dict r.1), r.2)
    | 'n' :: 'u' :: 'l' :: 'l' :: s => some (.null, s)
    | 't' :: 'r' :: 'u' :: 'e' :: s => some (.bool true, s)
    | 'f' :: 'a' :: 'l' :: 's' :: 'e' :: s => some (.bool false, s)
    | s => (readNum s).map fun r => (.num r.1, r.2)

def readItems : ℕ → Str → Option (List Value × Str)
  | 0, _ => none
  | fuel + 1, s =>
    match readValue fuel s with
    | none => none
    | some (v, s) =>
      match skip s with
      | ',' :: s => (readItems fuel (skip s)).map fun r => (v :: r.1, r.2)
      | ']' :: s => some ([v], s)
      | _ => none

def readEntries : ℕ → Str → Option (List (Str × Value) × Str)
  | 0, _ => none
  | fuel + 1, s =>
    match s with
    | '"' :: s =>
      match readString s.length s with
      | none => none
      | some (k, s) =>
        match skip s with
        | ':' :: s =>
          match readValue fuel (skip s) with
          | none => none
          | some (v, s) =>
            match skip s with
            | ',' :: s => (readEntries fuel (skip s)).map fun r => ((k, v) :: r.1, r.2)
            | '}' :: s => some ([(k, v)], s)
            | _ => none
        | _ => none
    | _ => none
end

/-- `json.loads`: every value takes at most two steps for each character, so `fuel` is enough -/
def loads (s : Str) : Option Value :=
  match readValue (2 * s.length + 1) (skip s) with
  | some (v, s) => if skip s = [] then some v else none
  | none => none

/-- the value in a field of a mapping -/
def Value.get (v : Value) (field : Str) : Option Value :=
  match v with
  | .obj es => es.lookup field
  | _ => none

/-! ## characters and literals -/

theorem skip_newline (level : ℕ) (s : Str) : skip (newline level ++ s) = skip s := by
  have hblanks : ∀ n, skip (List.replicate n ' ' ++ s) = skip s := by
    intro n
    induction n with
    | zero => rfl
    | succ n ih => exact ih
  exact hblanks (2 * level)

theorem skip_cons {c : Char} (s : Str) (h : isSpace c = false) : skip (c :: s) = c :: s := by
  unfold skip
  rw [List.dropWhile_cons_of_neg (by simp [h])]

theorem readUnit_digits {n : ℕ} (hn : n < 0x10000) (s : Str) :
    readUnit (([n / 4096, n / 256, n / 16, n].map fun d => Nat.digitChar (d % 16)) ++ s) = some (n, s) := by
  have hd : ∀ d, hexVal (Nat.digitChar (d % 16)) = some (d % 16) := fun d =>
    hexVal_digitChar _ (Nat.mod_lt _ (by omega))
  simp only [readUnit, List.map_cons, List.map_nil, List.cons_append, List.nil_append, hd, Option.bind_eq_bind,
    Option.bind_some, Option.pure_def, Option.some.injEq, Prod.mk.injEq, and_true]
  omega

/-- no character is a surrogate -/
theorem char_range (c : Char) : c.toNat < 0xd800 ∨ (0xdfff < c.toNat ∧ c.toNat < 0x110000) := c.valid

/-- an escape of one unit -/
theorem unescape_unit {n : ℕ} (hn : n < 0x10000) (hrange : n < 0xd800 ∨ 0xdfff < n) (s : Str) :
    readChar (unit n ++ s) = some (Char.ofNat n, s) := by
  have hread := readUnit_digits hn s
  unfold unit
  rw [List.cons_append, List.cons_append, readChar, unescape, hread]
  exact if_pos hrange

/-- an escape of two units -/
theorem unescape_pair {n m : ℕ} (hn : 0xd800 ≤ n ∧ n < 0xdc00) (hm : 0xdc00 ≤ m ∧ m ≤ 0xdfff) (s : Str) :
    readChar (unit n ++ (unit m ++ s)) = some (Char.ofNat (0x10000 + (n - 0xd800) * 0x400 + (m - 0xdc00)), s) := by
  have hhigh := readUnit_digits (show n < 0x10000 by omega) (unit m ++ s)
  have hlow := readUnit_digits (show m < 0x10000 by omega) s
  have hout : ¬ (n < 0xd800 ∨ 0xdfff < n) := by omega
  have hin : n < 0xdc00 ∧ 0xdc00 ≤ m ∧ m ≤ 0xdfff := ⟨hn.2, hm⟩
  unfold unit at hhigh ⊢
  rw [List.cons_append, List.cons_append, readChar, unescape, hhigh]
  simp only [hout, if_false, List.cons_append, hlow, hin, and_self, if_true]

/-- an escaped character is read, and its escape does not begin with a quote -/
theorem readChar_escape (c : Char) (s : Str) :
    readChar (escape c ++ s) = some (c, s) ∧ (escape c).head? ≠ some '"' := by
  have hrange := char_range c
  unfold escape
  split_ifs with h₁ h₂ h₃ h₄ h₅ h₆ h₇ hplain hshort
  · exact ⟨by rw [h₁]; rfl, by decide⟩
  · exact ⟨by rw [h₂]; rfl, by decide⟩
  · exact ⟨by rw [h₃]; rfl, by decide⟩
  · exact ⟨by rw [h₄]; rfl, by decide⟩
  · exact ⟨by rw [h₅]; rfl, by decide⟩
  · exact ⟨by rw [h₆]; rfl, by decide⟩
  · exact ⟨by rw [h₇]; rfl, by decide⟩
  · refine ⟨?_, by simp [h₁]⟩
    rw [List.singleton_append, readChar, if_neg (by omega)]
    exact h₂
  · refine ⟨?_, by simp [unit]⟩
    rw [unescape_unit hshort (hrange.imp_right And.left), Char.ofNat_toNat]
  · refine ⟨?_, by simp [unit]⟩
    have hvalue : 0x10000 + (0xd800 + (c.toNat - 0x10000) / 0x400 - 0xd800) * 0x400 +
        (0xdc00 + (c.toNat - 0x10000) % 0x400 - 0xdc00) = c.toNat := by omega
    rw [List.append_assoc, unescape_pair ⟨by omega, by omega⟩ ⟨by omega, by omega⟩, hvalue, Char.ofNat_toNat]

theorem escape_length (c : Char) : 0 < (escape c).length := by
  unfold escape
  split_ifs <;> simp [unit]

theorem readString_escaped (s rest : Str) {fuel : ℕ} (hfuel : s.length ≤ fuel) :
    readString fuel (s.flatMap escape ++ '"' :: rest) = some (s, rest) := by
  induction s generalizing fuel with
  | nil => cases fuel <;> rfl
  | cons c s ih =>
    rw [List.length_cons] at hfuel
    obtain ⟨n, rfl⟩ : ∃ n, fuel = n + 1 := Nat.exists_eq_succ_of_ne_zero (by omega)
    obtain ⟨hread, hquote⟩ := readChar_escape c (s.flatMap escape ++ '"' :: rest)
    rw [List.flatMap_cons, List.append_assoc]
    cases hescape : escape c with
    | nil => exact absurd (escape_length c) (by rw [hescape]; decide)
    | cons d l =>
      rw [hescape, List.cons_append] at hread
      have hd : d ≠ '"' := by
        rintro rfl
        rw [hescape] at hquote
        exact hquote rfl
      rw [List.cons_append, readString, hread]
      · simp only [ih (show s.length ≤ n by omega), Option.map_some]
      · exact fun s' h => hd (List.cons.inj h).1

theorem flatMap_escape_length (s : Str) : s.length ≤ (s.flatMap escape).length := by
  induction s with
  | nil => rfl
  | cons c s ih =>
    have hc := escape_length c
    rw [List.flatMap_cons, List.length_append, List.length_cons]
    omega

/-- a literal behind its opening quote -/
theorem readString_literal (s rest : Str) :
    readString (s.flatMap escape ++ '"' :: rest).length (s.flatMap escape ++ '"' :: rest) = some (s, rest) := by
  have hlen := flatMap_escape_length s
  refine readString_escaped s rest ?_
  rw [List.length_append]
  omega

/-! ## numbers -/

/-- nothing that makes a number longer -/
def Stops (s : Str) : Prop := ∀ c ∈ s.head?, inNumber c = false

theorem toDigits_head {n : ℕ} (hn : 0 < n) : (Nat.toDigits 10 n).head? ≠ some '0' := by
  induction n using Nat.strongRecOn with
  | ind n ih =>
    by_cases hlt : n < 10
    · have hdigit : ∀ n < 10, 0 < n → Nat.digitChar n ≠ '0' := by decide
      rw [Nat.toDigits_of_lt_base hlt]
      simpa using hdigit n hlt hn
    · have hdiv : 0 < n / 10 := by omega
      rw [Nat.toDigits_of_base_le (by decide) (by omega)]
      rw [List.head?_append_of_ne_nil _ Nat.toDigits_ne_nil]
      exact ih (n / 10) (by omega) hdiv

theorem readNum_toDigits (n : ℕ) {rest : Str} (hrest : Stops rest) :
    readNum (Nat.toDigits 10 n ++ rest) = some (n, rest) := by
  have hdigits : ∀ c ∈ Nat.toDigits 10 n, c.isDigit = true := fun c hc =>
    Nat.isDigit_of_mem_toDigits (by decide) (by decide) hc
  have hall : ∀ c ∈ Nat.toDigits 10 n, inNumber c = true := fun c hc => by simp [inNumber, hdigits c hc]
  have htake : rest.takeWhile inNumber = [] := by
    cases rest with
    | nil => rfl
    | cons c rest => rw [List.takeWhile_cons_of_neg (by simp [hrest c rfl])]
  have hdrop : rest.dropWhile inNumber = rest := by
    cases rest with
    | nil => rfl
    | cons c rest => rw [List.dropWhile_cons_of_neg (by simp [hrest c rfl])]
  have hzero : (Nat.toDigits 10 n).head? = some '0' → Nat.toDigits 10 n = ['0'] := by
    intro h
    rcases Nat.eq_zero_or_pos n with rfl | hn
    · rfl
    · exact absurd h (toDigits_head hn)
  unfold readNum
  rw [List.takeWhile_append_of_pos hall, List.dropWhile_append_of_pos hall, htake, hdrop, List.append_nil]
  simp only [Nat.ofDigitChars_ten_toDigits]
  rw [if_pos ⟨Nat.toDigits_ne_nil, List.all_eq_true.mpr hdigits, hzero⟩]

/-! ## values -/

mutual
/-- the keys of every mapping are distinct -/
def Value.Distinct : Value → Prop
  | .arr vs => distinctItems vs
  | .obj es => (es.map (·.1)).Nodup ∧ distinctEntries es
  | _ => True

def distinctItems : List Value → Prop
  | [] => True
  | v :: vs => v.Distinct ∧ distinctItems vs

def distinctEntries : List (Str × Value) → Prop
  | [] => True
  | (_, v) :: es => v.Distinct ∧ distinctEntries es
end

/-- the items without the comma in front -/
def items (level : ℕ) : List Value → Str
  | [] => []
  | v :: vs => render level v ++ renderItems level vs

def members (level : ℕ) : List (Str × Value) → Str
  | [] => []
  | (k, v) :: es => literal k ++ ':' :: ' ' :: (render level v ++ renderEntries level es)

theorem renderItems_eq (level : ℕ) {vs : List Value} (h : vs ≠ []) :
    renderItems level vs = ',' :: (newline level ++ items level vs) := by
  cases vs with
  | nil => exact absurd rfl h
  | cons v vs => simp [renderItems, items]

theorem renderEntries_eq (level : ℕ) {es : List (Str × Value)} (h : es ≠ []) :
    renderEntries level es = ',' :: (newline level ++ members level es) := by
  cases es with
  | nil => exact absurd rfl h
  | cons e es =>
    obtain ⟨k, v⟩ := e
    simp [renderEntries, members]

theorem render_arr (level : ℕ) {vs : List Value} (h : vs ≠ []) :
    render level (.arr vs) = '[' :: (newline (level + 1) ++ (items (level + 1) vs ++ (newline level ++ [']']))) := by
  cases vs with
  | nil => exact absurd rfl h
  | cons v vs => simp [render, items]

theorem render_obj (level : ℕ) {es : List (Str × Value)} (h : es ≠ []) :
    render level (.obj es) =
      '\x7b' :: (newline (level + 1) ++ (members (level + 1) es ++ (newline level ++ ['\x7d']))) := by
  cases es with
  | nil => exact absurd rfl h
  | cons e es =>
    obtain ⟨k, v⟩ := e
    simp [render, members]

/-- a value begins with no blank and no closing bracket -/
theorem render_head (level : ℕ) (v : Value) : ∃ c s, render level v = c :: s ∧ isSpace c = false ∧ c ≠ ']' := by
  cases v with
  | null => exact ⟨'n', _, rfl, by decide, by decide⟩
  | bool b => cases b <;> exact ⟨_, _, rfl, by decide, by decide⟩
  | str s => exact ⟨'"', _, rfl, by decide, by decide⟩
  | arr vs =>
    rcases eq_or_ne vs [] with rfl | hvs
    · exact ⟨'[', _, rfl, by decide, by decide⟩
    · exact ⟨'[', _, render_arr level hvs, by decide, by decide⟩
  | obj es =>
    rcases eq_or_ne es [] with rfl | hes
    · exact ⟨'\x7b', _, rfl, by decide, by decide⟩
    · exact ⟨'\x7b', _, render_obj level hes, by decide, by decide⟩
  | num n =>
    cases hdigits : Nat.toDigits 10 n with
    | nil => exact absurd hdigits Nat.toDigits_ne_nil
    | cons c s =>
      have hc : c.isDigit = true :=
        Nat.isDigit_of_mem_toDigits (by decide) (by decide) (hdigits ▸ List.mem_cons_self)
      refine ⟨c, s, hdigits, ?_, ?_⟩
      · by_contra hspace
        simp only [isSpace, Bool.or_eq_true, decide_eq_true_eq, Bool.not_eq_false] at hspace
        rcases hspace with ((rfl | rfl) | rfl) | rfl <;> exact absurd hc (by decide)
      · rintro rfl
        exact absurd hc (by decide)

theorem items_head (level : ℕ) {vs : List Value} (h : vs ≠ []) :
    ∃ c s, items level vs = c :: s ∧ isSpace c = false ∧ c ≠ ']' := by
  obtain ⟨v, vs', rfl⟩ := List.exists_cons_of_ne_nil h
  obtain ⟨c, s, hhead, hspace, hbracket⟩ := render_head level v
  exact ⟨c, s ++ renderItems level vs', by rw [items, hhead]; rfl, hspace, hbracket⟩

theorem members_head (level : ℕ) {es : List (Str × Value)} (h : es ≠ []) : ∃ s, members level es = '"' :: s := by
  obtain ⟨⟨k, v⟩, es', rfl⟩ := List.exists_cons_of_ne_nil h
  exact ⟨_, rfl⟩

theorem skip_newline_cons (level : ℕ) {c : Char} (s : Str) (hc : isSpace c = false) :
    skip (newline level ++ c :: s) = c :: s := by
  rw [skip_newline, skip_cons s hc]

theorem stops_newline (level : ℕ) (s : Str) : Stops (newline level ++ s) := by
  intro c hc
  obtain rfl : '\n' = c := Option.some.inj hc
  rfl

theorem stops_comma (s : Str) : Stops (',' :: s) := by
  intro c hc
  obtain rfl : ',' = c := Option.some.inj hc
  rfl

/-- numbers begin with a digit, and nothing else does -/
theorem readValue_num (n fuel : ℕ) {rest : Str} (hrest : Stops rest) :
    readValue (fuel + 1) (Nat.toDigits 10 n ++ rest) = some (.num n, rest) := by
  have hread := readNum_toDigits n hrest
  cases hdigits : Nat.toDigits 10 n with
  | nil => exact absurd hdigits Nat.toDigits_ne_nil
  | cons c s =>
    have hc : c.isDigit = true :=
      Nat.isDigit_of_mem_toDigits (by decide) (by decide) (hdigits ▸ List.mem_cons_self)
    rw [hdigits] at hread
    have hnot : ∀ d, d.isDigit = false → ∀ u : Str, c :: s ++ rest = d :: u → False := by
      intro d hd u he
      rw [(List.cons.inj he).1, hd] at hc
      cases hc
    rw [readValue]
    · rw [hread]
      rfl
    all_goals exact fun u => hnot _ (by decide) _

/-- a list is read if its items are -/
theorem readValue_arr {vs : List Value} (hvs : vs ≠ []) (level fuel : ℕ) (rest : Str)
    (h : readItems fuel (items (level + 1) vs ++ (newline level ++ ']' :: rest)) = some (vs, rest)) :
    readValue (fuel + 1) (render level (.arr vs) ++ rest) = some (.arr vs, rest) := by
  obtain ⟨c, s, hhead, hspace, hbracket⟩ := items_head (level + 1) hvs
  rw [render_arr level hvs]
  simp only [List.cons_append, List.append_assoc, List.nil_append]
  rw [hhead, List.cons_append] at h ⊢
  rw [readValue, skip_newline_cons _ _ hspace]
  split
  · rename_i s' he
    exact absurd (List.cons.inj he).1 hbracket
  · rw [h]
    rfl

/-- a mapping is read if its entries are -/
theorem readValue_obj {es : List (Str × Value)} (hes : es ≠ []) (hkeys : (es.map (·.1)).Nodup) (level fuel : ℕ)
    (rest : Str)
    (h : readEntries fuel (members (level + 1) es ++ (newline level ++ '\x7d' :: rest)) = some (es, rest)) :
    readValue (fuel + 1) (render level (.obj es) ++ rest) = some (.obj es, rest) := by
  obtain ⟨s, hhead⟩ := members_head (level + 1) hes
  rw [render_obj level hes]
  simp only [List.cons_append, List.append_assoc, List.nil_append]
  rw [hhead, List.cons_append] at h ⊢
  rw [readValue, skip_newline_cons _ _ (by decide)]
  split
  · rename_i s' he
    exact absurd (List.cons.inj he).1 (by decide)
  · rw [h]
    show some (Value.obj (dict es), rest) = _
    rw [dict_of_nodup hkeys]

mutual
theorem readValue_render (v : Value) (hv : v.Distinct) (level fuel : ℕ) (rest : Str) (hrest : Stops rest)
    (hfuel : 2 * (render level v ++ rest).length ≤ fuel) :
    readValue fuel (render level v ++ rest) = some (v, rest) := by
  obtain ⟨c, s, hhead, -, -⟩ := render_head level v
  obtain ⟨n, rfl⟩ : ∃ n, fuel = n + 1 := Nat.exists_eq_succ_of_ne_zero (by
    rw [hhead, List.cons_append, List.length_cons] at hfuel
    omega)
  cases v with
  | null => rfl
  | bool b => cases b <;> rfl
  | num m => exact readValue_num m n hrest
  | str t =>
    have hread := readString_literal t rest
    show readValue (n + 1) ('"' :: (t.flatMap escape ++ ['"']) ++ rest) = _
    rw [List.cons_append, List.append_assoc, readValue]
    exact congrArg (Option.map fun r => (Value.str r.1, r.2)) hread
  | arr vs =>
    rcases eq_or_ne vs [] with rfl | hvs
    · rfl
    · rw [render_arr level hvs] at hfuel
      simp only [List.cons_append, List.append_assoc, List.nil_append, List.length_cons, newline] at hfuel
      refine readValue_arr hvs level n rest (readItems_render vs hvs hv (level + 1) level n rest ?_)
      simp only [List.length_append, List.length_cons, newline, List.length_replicate] at hfuel ⊢
      omega
  | obj es =>
    rcases eq_or_ne es [] with rfl | hes
    · rfl
    · rw [render_obj level hes] at hfuel
      refine readValue_obj hes hv.1 level n rest (readEntries_render es hes hv.2 (level + 1) level n rest ?_)
      simp only [List.length_append, List.length_cons, newline, List.length_replicate, List.length_nil] at hfuel ⊢
      omega

theorem readItems_render (vs : List Value) (hvs : vs ≠ []) (hd : distinctItems vs) (level closing fuel : ℕ) (rest : Str)
    (hfuel : 2 * (items level vs ++ (newline closing ++ ']' :: rest)).length + 1 ≤ fuel) :
    readItems fuel (items level vs ++ (newline closing ++ ']' :: rest)) = some (vs, rest) := by
  obtain ⟨n, rfl⟩ : ∃ n, fuel = n + 1 := Nat.exists_eq_succ_of_ne_zero (by omega)
  cases vs with
  | nil => exact absurd rfl hvs
  | cons v vs =>
    rw [items, List.append_assoc] at hfuel ⊢
    rcases eq_or_ne vs [] with rfl | hne
    · have hv := readValue_render v hd.1 level n (newline closing ++ ']' :: rest) (stops_newline _ _) (by
        simp only [renderItems, List.nil_append] at hfuel
        omega)
      rw [renderItems, List.nil_append, readItems, hv]
      simp only [skip_newline_cons _ _ (show isSpace ']' = false by decide)]
    · rw [renderItems_eq level hne] at hfuel ⊢
      have hv := readValue_render v hd.1 level n (',' :: (newline level ++ items level vs) ++
        (newline closing ++ ']' :: rest)) (stops_comma _) (by omega)
      have hvs := readItems_render vs hne hd.2 level closing n rest (by
        simp only [List.length_append, List.length_cons] at hfuel ⊢
        omega)
      obtain ⟨c, s, hhead, hspace, -⟩ := items_head level hne
      rw [readItems, hv]
      simp only [List.cons_append, List.append_assoc, skip_cons _ (show isSpace ',' = false by decide)]
      rw [hhead, List.cons_append] at hvs ⊢
      rw [skip_newline_cons _ _ hspace, hvs]
      rfl

theorem readEntries_render (es : List (Str × Value)) (hes : es ≠ []) (hd : distinctEntries es) (level closing fuel : ℕ)
    (rest : Str) (hfuel : 2 * (members level es ++ (newline closing ++ '\x7d' :: rest)).length + 1 ≤ fuel) :
    readEntries fuel (members level es ++ (newline closing ++ '\x7d' :: rest)) = some (es, rest) := by
  obtain ⟨n, rfl⟩ : ∃ n, fuel = n + 1 := Nat.exists_eq_succ_of_ne_zero (by omega)
  cases es with
  | nil => exact absurd rfl hes
  | cons e es =>
    obtain ⟨k, v⟩ := e
    obtain ⟨c, s, hhead, hspace, -⟩ := render_head level v
    simp only [members, literal, List.cons_append, List.append_assoc, List.nil_append] at hfuel ⊢
    have hkey := readString_literal k (':' :: ' ' :: (render level v ++ (renderEntries level es ++
      (newline closing ++ '\x7d' :: rest))))
    rw [readEntries, hkey]
    simp only [skip_cons _ (show isSpace ':' = false by decide)]
    have hblank : ∀ s, skip (' ' :: (render level v ++ s)) = render level v ++ s := by
      intro s
      rw [hhead]
      exact skip_cons _ hspace
    rw [hblank]
    simp only [List.length_append, List.length_cons] at hfuel
    rcases eq_or_ne es [] with rfl | hne
    · have hv := readValue_render v hd.1 level n (newline closing ++ '\x7d' :: rest) (stops_newline _ _) (by
        simp only [List.length_append, List.length_cons]
        omega)
      rw [renderEntries, List.nil_append, hv]
      simp only [skip_newline_cons _ _ (show isSpace '\x7d' = false by decide)]
    · rw [renderEntries_eq level hne] at hfuel ⊢
      have hv := readValue_render v hd.1 level n (',' :: (newline level ++ members level es) ++
        (newline closing ++ '\x7d' :: rest)) (stops_comma _) (by
        simp only [List.length_append, List.length_cons] at hfuel ⊢
        omega)
      have hes := readEntries_render es hne hd.2 level closing n rest (by
        simp only [List.length_append, List.length_cons] at hfuel ⊢
        omega)
      obtain ⟨u, hu⟩ := members_head level hne
      rw [hv]
      simp only [List.cons_append, List.append_assoc, skip_cons _ (show isSpace ',' = false by decide)]
      rw [hu, List.cons_append] at hes ⊢
      rw [skip_newline_cons _ _ (show isSpace '"' = false by decide), hes]
      rfl
end

/-! ## sorted keys -/

theorem byKey_perm {V : Type} (es : List (Str × V)) : (byKey es).Perm es := List.perm_insertionSort _ es

theorem byKey_map {V W : Type} (f : V → W) (es : List (Str × V)) :
    byKey (es.map fun e => (e.1, f e.2)) = (byKey es).map fun e => (e.1, f e.2) :=
  (List.map_insertionSort (fun a b : Str × V => a.1 ≤ b.1) (fun a b : Str × W => a.1 ≤ b.1) (fun e => (e.1, f e.2)) es
    fun _ _ _ _ => Iff.rfl).symm

theorem distinctEntries_iff {es : List (Str × Value)} : distinctEntries es ↔ ∀ e ∈ es, e.2.Distinct := by
  induction es with
  | nil => simp [distinctEntries]
  | cons e es ih =>
    obtain ⟨k, v⟩ := e
    simp [distinctEntries, ih]

theorem sortedEntries_eq (es : List (Str × Value)) : sortedEntries es = es.map fun e => (e.1, e.2.sorted) := by
  induction es with
  | nil => rfl
  | cons e es ih =>
    obtain ⟨k, v⟩ := e
    rw [sortedEntries, List.map_cons, ih]

theorem sortedEntries_keys (es : List (Str × Value)) : (sortedEntries es).map (·.1) = es.map (·.1) := by
  rw [sortedEntries_eq, List.map_map]
  rfl

mutual
theorem Value.Distinct.sorted : ∀ v : Value, v.Distinct → v.sorted.Distinct
  | .null, _ => trivial
  | .bool _, _ => trivial
  | .num _, _ => trivial
  | .str _, _ => trivial
  | .arr vs, h => distinctItems_sorted vs h
  | .obj es, h => by
    have hperm := byKey_perm (sortedEntries es)
    refine ⟨?_, distinctEntries_iff.mpr fun e he => ?_⟩
    · rw [(hperm.map _).nodup_iff, sortedEntries_keys]
      exact h.1
    · exact distinctEntries_iff.mp (distinctEntries_sorted es h.2) e (hperm.mem_iff.mp he)

theorem distinctItems_sorted : ∀ vs : List Value, distinctItems vs → distinctItems (sortedItems vs)
  | [], _ => trivial
  | v :: vs, h => ⟨Value.Distinct.sorted v h.1, distinctItems_sorted vs h.2⟩

theorem distinctEntries_sorted : ∀ es : List (Str × Value), distinctEntries es → distinctEntries (sortedEntries es)
  | [], _ => trivial
  | (_, v) :: es, h => ⟨Value.Distinct.sorted v h.1, distinctEntries_sorted es h.2⟩
end

/-- the fields are those of the value, sorted -/
theorem get_sorted {v : Value} (h : v.Distinct) (k : Str) : v.sorted.get k = (v.get k).map Value.sorted := by
  cases v with
  | obj es =>
    have hkeys : ((sortedEntries es).map (·.1)).Nodup := by
      rw [sortedEntries_keys]
      exact h.1
    show (byKey (sortedEntries es)).lookup k = _
    rw [← lookup_perm hkeys (byKey_perm _).symm, sortedEntries_eq, lookup_map]
    rfl
  | _ => rfl

theorem loads_render {v : Value} (h : v.Distinct) : loads (render 0 v) = some v := by
  obtain ⟨c, s, hhead, hspace, -⟩ := render_head 0 v
  have hread := readValue_render v h 0 (2 * (render 0 v).length + 1) [] nofun (by
    rw [List.append_nil]
    omega)
  rw [List.append_nil] at hread
  have hskip : skip (render 0 v) = render 0 v := by
    rw [hhead]
    exact skip_cons s hspace
  unfold loads
  rw [hskip, hread]
  rfl

/-- **A value is read as it was written, with sorted keys.** -/
theorem loads_dumps {v : Value} (h : v.Distinct) : loads (dumps v) = some v.sorted :=
  loads_render (Value.Distinct.sorted v h)

example : dumps (.obj [("b".toList, .num 10), ("a".toList, .arr [.str "x\ny".toList, .null])]) =
    "\x7b\n  \"a\": [\n    \"x\\ny\",\n    null\n  ],\n  \"b\": 10\n\x7d".toList := by decide +kernel

end Json
