import BackupHelper.Lib.Text

/-!
# Base64

Read as `base64.b64decode` reads: what is no digit is passed over, and the padding ends the text.

* `encode`            three bytes as four digits, the last group padded;
* `decode`            none where the last group is not whole;
* `decode_wrapped`    **bytes are read from their text**, wherever it was broken into lines.
-/

namespace Base64
open Text

def alphabet : Str := "ABCDEFGHIJKLMNOPQRSTUVWXYZabcdefghijklmnopqrstuvwxyz0123456789+/".toList

def digit (n : ℕ) : Char := alphabet.getD n 'A'

def value (c : Char) : Option ℕ := alphabet.idxOf? c

def encode : List UInt8 → Str
  | a :: b :: c :: s =>
    digit (a.toNat / 4) :: digit (a.toNat % 4 * 16 + b.toNat / 16) ::
      digit (b.toNat % 16 * 4 + c.toNat / 64) :: digit (c.toNat % 64) :: encode s
  | [a, b] =>
    [digit (a.toNat / 4), digit (a.toNat % 4 * 16 + b.toNat / 16), digit (b.toNat % 16 * 4), '=']
  | [a] => [digit (a.toNat / 4), digit (a.toNat % 4 * 16), '=', '=']
  | [] => []

/-- `quad` digits of a group were read, `left` is what they leave over, and `pads` paddings since -/
def decodeFrom : ℕ → ℕ → ℕ → Str → Option (List UInt8)
  | quad, _, _, [] => if quad = 0 then some [] else none
  | quad, left, pads, c :: s =>
    if c = '=' then
      if 2 ≤ quad then if 4 ≤ quad + (pads + 1) then some [] else decodeFrom quad left (pads + 1) s
      else decodeFrom quad left pads s
    else match value c with
      | none => decodeFrom quad left pads s
      | some v =>
        match quad with
        | 0 => decodeFrom 1 v 0 s
        | 1 => (decodeFrom 2 (v % 16) 0 s).map (UInt8.ofNat (left * 4 + v / 16) :: ·)
        | 2 => (decodeFrom 3 (v % 4) 0 s).map (UInt8.ofNat (left * 16 + v / 4) :: ·)
        | _ => (decodeFrom 0 0 0 s).map (UInt8.ofNat (left * 64 + v) :: ·)

def decode (s : Str) : Option (List UInt8) := decodeFrom 0 0 0 s

example : decode "SGVs\nbG8=".toList = some [72, 101, 108, 108, 111] := by decide +kernel

/-- a digit or padding -/
def known (c : Char) : Bool := c = '=' || (value c).isSome

theorem value_digit {n : ℕ} (h : n < 64) : value (digit n) = some n ∧ digit n ≠ '=' := by
  have hall : ∀ m : Fin 64, value (digit m) = some m.1 ∧ digit m ≠ '=' := by decide +kernel
  exact hall ⟨n, h⟩

/-- what is no digit is passed over -/
theorem decodeFrom_filter (quad left pads : ℕ) (s : Str) :
    decodeFrom quad left pads (s.filter known) = decodeFrom quad left pads s := by
  induction s generalizing quad left pads with
  | nil => rfl
  | cons c s ih =>
    by_cases hpad : c = '='
    · have hknown : known c = true := by simp [known, hpad]
      rw [List.filter_cons_of_pos hknown, decodeFrom, decodeFrom, if_pos hpad, if_pos hpad, ih, ih]
    · cases hvalue : value c with
      | none =>
        have hknown : ¬ known c = true := by simp [known, hpad, hvalue]
        rw [List.filter_cons_of_neg hknown, ih, decodeFrom, if_neg hpad]
        simp only [hvalue]
      | some v =>
        have hknown : known c = true := by simp [known, hvalue]
        rw [List.filter_cons_of_pos hknown, decodeFrom, decodeFrom, if_neg hpad, if_neg hpad]
        simp only [hvalue, ih]

section
variable {v : ℕ} (h : v < 64) (left pads : ℕ) (s : Str)
include h

theorem decodeFrom_first : decodeFrom 0 left pads (digit v :: s) = decodeFrom 1 v 0 s := by
  obtain ⟨hvalue, hpad⟩ := value_digit h
  rw [decodeFrom, if_neg hpad]
  simp only [hvalue]

theorem decodeFrom_second : decodeFrom 1 left pads (digit v :: s) =
    (decodeFrom 2 (v % 16) 0 s).map (UInt8.ofNat (left * 4 + v / 16) :: ·) := by
  obtain ⟨hvalue, hpad⟩ := value_digit h
  rw [decodeFrom, if_neg hpad]
  simp only [hvalue]

theorem decodeFrom_third : decodeFrom 2 left pads (digit v :: s) =
    (decodeFrom 3 (v % 4) 0 s).map (UInt8.ofNat (left * 16 + v / 4) :: ·) := by
  obtain ⟨hvalue, hpad⟩ := value_digit h
  rw [decodeFrom, if_neg hpad]
  simp only [hvalue]

theorem decodeFrom_fourth : decodeFrom 3 left pads (digit v :: s) =
    (decodeFrom 0 0 0 s).map (UInt8.ofNat (left * 64 + v) :: ·) := by
  obtain ⟨hvalue, hpad⟩ := value_digit h
  rw [decodeFrom, if_neg hpad]
  simp only [hvalue]

end

theorem ofNat_eq {b : UInt8} {n : ℕ} (h : n = b.toNat) : UInt8.ofNat n = b := by
  rw [h, UInt8.ofNat_toNat]

theorem decode_encode (bs : List UInt8) : decode (encode bs) = some bs := by
  unfold decode
  induction bs using encode.induct with
  | case1 a b c s ih =>
    have ha := a.toNat_lt
    have hb := b.toNat_lt
    have hc := c.toNat_lt
    rw [encode, decodeFrom_first (by omega), decodeFrom_second (by omega), decodeFrom_third (by omega),
      decodeFrom_fourth (by omega), ih]
    rw [ofNat_eq (b := a) (by omega), ofNat_eq (b := b) (by omega), ofNat_eq (b := c) (by omega)]
    rfl
  | case2 a b =>
    have ha := a.toNat_lt
    have hb := b.toNat_lt
    rw [encode, decodeFrom_first (by omega), decodeFrom_second (by omega), decodeFrom_third (by omega)]
    rw [ofNat_eq (b := a) (by omega), ofNat_eq (b := b) (by omega)]
    rfl
  | case3 a =>
    have ha := a.toNat_lt
    rw [encode, decodeFrom_first (by omega), decodeFrom_second (by omega)]
    rw [ofNat_eq (b := a) (by omega)]
    rfl
  | case4 => rfl

/-- **Bytes are read from their text**, whatever else stands between its digits. -/
theorem decode_wrapped {bs : List UInt8} {s : Str} (h : s.filter known = encode bs) : decode s = some bs := by
  rw [← decode_encode bs, ← h]
  exact (decodeFrom_filter 0 0 0 s).symm

end Base64
