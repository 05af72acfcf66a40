import BackupHelper.Lib.Text

/-!
# Values that a plugin hands over

A Python text is a list of code points, and a code point may be a surrogate: that is how a file name
that is not UTF-8 is decoded.  Such a text cannot be encoded.

* `encode`, `shown`     a text as UTF-8 text, and with U+FFFD in place of what cannot be encoded;
* `PyVal`               values, with their truth, their items and whether they can be written as JSON;
* `PyExc`               an exception, whose text may be one or may raise itself, and which a handler may let pass.

A value that JSON writes like one of these (a tuple, a number with a fraction) counts as that one;
`object` is a value that has no JSON form.
-/

namespace Python
open Text

inductive CodePoint where
  | char (c : Char)
  | surrogate (n : ℕ)
deriving DecidableEq

abbrev PyText := List CodePoint

def lit (s : Str) : PyText := s.map .char

def encode : PyText → Option Str
  | [] => some []
  | .char c :: t => (encode t).map (c :: ·)
  | .surrogate _ :: _ => none

def shown (t : PyText) : Str :=
  t.map (fun p => match p with
    | .char c => c
    | .surrogate _ => '\uFFFD')

theorem encode_lit (s : Str) : encode (lit s) = some s := by
  induction s with
  | nil => rfl
  | cons c s ih =>
    show (encode (lit s)).map (c :: ·) = _
    rw [ih]
    rfl

theorem encode_eq_some {t : PyText} {s : Str} : encode t = some s ↔ t = lit s := by
  constructor
  · intro h
    induction t generalizing s with
    | nil => rw [← Option.some.inj h]; rfl
    | cons p t ih =>
      cases p with
      | surrogate n => simp [encode] at h
      | char c =>
        obtain ⟨cs, hcs, hs⟩ := Option.map_eq_some_iff.mp h
        rw [← hs, ih hcs]
        rfl
  · rintro rfl
    exact encode_lit s

theorem lit_append (s t : Str) : lit (s ++ t) = lit s ++ lit t := List.map_append

inductive PyVal where
  | none
  | bool (b : Bool)
  | int (n : ℤ)
  | text (t : PyText)
  | list (items : List PyVal)
  | dict (entries : List (PyText × PyVal))
  | object

namespace PyVal

def truthy : PyVal → Bool
  | none => false
  | bool b => b
  | int n => n ≠ 0
  | text t => t ≠ []
  | list l => !l.isEmpty
  | dict l => !l.isEmpty
  | object => true

/-- what a loop over the value goes through; none where it raises -/
def items : PyVal → Option (List PyVal)
  | text t => some (t.map fun p => text [p])
  | list l => some l
  | dict l => some (l.map fun e => text e.1)
  | _ => Option.none

mutual
/-- the value can be written as JSON in UTF-8 -/
def writable : PyVal → Bool
  | text t => (encode t).isSome
  | list l => writableItems l
  | dict l => writableEntries l
  | object => false
  | _ => true

def writableItems : List PyVal → Bool
  | [] => true
  | v :: l => v.writable && writableItems l

def writableEntries : List (PyText × PyVal) → Bool
  | [] => true
  | (k, v) :: l => (encode k).isSome && v.writable && writableEntries l
end

end PyVal

/-- an exception -/
structure PyExc where
  type : Str
  /-- its text; none where its `__str__` raises -/
  text : Option PyText
  /-- it is no `Exception` (`SystemExit`, `KeyboardInterrupt`): a handler of these lets it pass -/
  passes : Bool := false

end Python
