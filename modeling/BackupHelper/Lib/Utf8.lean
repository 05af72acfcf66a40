import Mathlib.Data.List.Basic
import BackupHelper.Lib.Python

/-!
# Octets read as UTF-8 text

A byte that does not begin a character is kept as a surrogate of its own, so that no byte is lost.

* `utf8 s`          the bytes of a text;
* `next bs`         the character that the bytes begin with, if they do;
* `decode bs`       the text, with `surrogateescape`;
* `encodeBack t`    the bytes it came from, with `surrogateescape`.

Octets can be cut before a byte that begins a character, and the two parts are decoded on their own
(`decode_append`).  What was decoded is encoded back to the same bytes (`encodeBack_decode`).
-/

namespace Utf8
open Text Python

abbrev Octets := List UInt8

def utf8 (s : Str) : Octets := s.flatMap String.utf8EncodeChar

def next (bs : Octets) : Option Char := bs.toByteArray.utf8DecodeChar? 0

/-- `skip` bytes belong to the character before -/
def decodeFrom : ℕ → Octets → PyText
  | _, [] => []
  | skip + 1, _ :: bs => decodeFrom skip bs
  | 0, b :: bs =>
    match next (b :: bs) with
    | some c => .char c :: decodeFrom (c.utf8Size - 1) bs
    | none => .surrogate (0xDC00 + b.toNat) :: decodeFrom 0 bs

def decode (bs : Octets) : PyText := decodeFrom 0 bs

def encodeBack : PyText → Option Octets
  | [] => some []
  | .char c :: t => (encodeBack t).map (String.utf8EncodeChar c ++ ·)
  | .surrogate n :: t =>
    if 0xDC80 ≤ n ∧ n ≤ 0xDCFF then (encodeBack t).map (UInt8.ofNat (n - 0xDC00) :: ·) else none

example : decode [0x61, 0xC3, 0xA9, 0xE9, 0xC3] =
    lit ['a', 'é'] ++ [.surrogate 0xDCE9, .surrogate 0xDCC3] := by decide +kernel

/-! ## the first character -/

theorem utf8EncodeChar_ne_nil (c : Char) : String.utf8EncodeChar c ≠ [] := by
  intro h
  have hlen := String.length_utf8EncodeChar c
  rw [h] at hlen
  exact absurd hlen.symm c.utf8Size_pos.ne'

theorem toByteArray_append (s t : Octets) :
    (s ++ t).toByteArray = s.toByteArray ++ t.toByteArray := List.toByteArray_append

theorem next_encoded (c : Char) (bs : Octets) : next (String.utf8EncodeChar c ++ bs) = some c := by
  unfold next
  rw [toByteArray_append]
  exact ByteArray.utf8DecodeChar?_utf8EncodeChar_append

/-- a character is read only where its bytes are -/
theorem next_eq_some {bs : Octets} {c : Char} :
    next bs = some c ↔ ∃ t, bs = String.utf8EncodeChar c ++ t := by
  constructor
  · intro h
    obtain ⟨l, hl⟩ := ByteArray.exists_of_utf8DecodeChar?_eq_some h
    refine ⟨l.data.toList, ?_⟩
    have hdata := congrArg (fun b => b.data.toList) hl
    simpa using hdata
  · rintro ⟨t, rfl⟩
    exact next_encoded c t

theorem decodeFrom_skip (s t : Octets) : decodeFrom s.length (s ++ t) = decode t := by
  induction s with
  | nil => rfl
  | cons b s ih => exact ih

theorem decode_encoded (c : Char) (t : Octets) :
    decode (String.utf8EncodeChar c ++ t) = .char c :: decode t := by
  obtain ⟨b, s, hs⟩ := List.exists_cons_of_ne_nil (utf8EncodeChar_ne_nil c)
  have hlen : s.length = c.utf8Size - 1 := by
    rw [← String.length_utf8EncodeChar, hs]
    rfl
  have hnext : next (b :: (s ++ t)) = some c := by
    have henc := next_encoded c t
    rwa [hs] at henc
  rw [hs]
  show decodeFrom 0 (b :: (s ++ t)) = _
  rw [decodeFrom, hnext]
  show CodePoint.char c :: decodeFrom (c.utf8Size - 1) (s ++ t) = _
  rw [← hlen, decodeFrom_skip]

theorem decode_escaped {b : UInt8} {bs : Octets} (h : next (b :: bs) = none) :
    decode (b :: bs) = .surrogate (0xDC00 + b.toNat) :: decode bs := by
  show decodeFrom 0 (b :: bs) = _
  rw [decodeFrom, h]
  rfl

/-- bytes are characters and single bytes that begin none -/
theorem bytes_induct {P : Octets → Prop} (nil : P [])
    (encoded : ∀ c t, P t → P (String.utf8EncodeChar c ++ t))
    (escaped : ∀ b bs, next (b :: bs) = none → P bs → P (b :: bs)) (bs : Octets) : P bs := by
  induction hn : bs.length using Nat.strong_induction_on generalizing bs with
  | _ n ih =>
    cases bs with
    | nil => exact nil
    | cons b bs =>
      cases hnext : next (b :: bs) with
      | none => exact escaped b bs hnext (ih bs.length (by rw [← hn]; simp) bs rfl)
      | some c =>
        obtain ⟨t, ht⟩ := next_eq_some.mp hnext
        have hlt : t.length < n := by
          rw [← hn, ht, List.length_append, String.length_utf8EncodeChar]
          have hpos := c.utf8Size_pos
          omega
        rw [ht]
        exact encoded c t (ih t.length hlt t rfl)

/-! ## back to the bytes -/

theorem utf8EncodeChar_ascii {b : UInt8} (h : b < 0x80) :
    String.utf8EncodeChar (Char.ofNat b.toNat) = [b] := by
  have hb : b.toNat < 0x80 := h
  have hval : (Char.ofNat b.toNat).val.toNat = b.toNat := by
    have hvalid : b.toNat.isValidChar := Or.inl (by omega)
    rw [Char.ofNat, dif_pos hvalid]
    rfl
  unfold String.utf8EncodeChar
  rw [hval, if_pos (by omega)]
  simp

/-- only a byte from 0x80 on begins no character -/
theorem le_of_next_eq_none {b : UInt8} {bs : Octets} (h : next (b :: bs) = none) : 0x80 ≤ b := by
  by_contra hb
  have hsome : next ([b] ++ bs) = some (Char.ofNat b.toNat) := by
    rw [← utf8EncodeChar_ascii (UInt8.not_le.mp hb)]
    exact next_encoded _ bs
  rw [List.singleton_append, h] at hsome
  exact absurd hsome (Option.some_ne_none _).symm

/-- **no byte is lost** -/
theorem encodeBack_decode (bs : Octets) : encodeBack (decode bs) = some bs := by
  induction bs using bytes_induct with
  | nil => rfl
  | encoded c t ih =>
    rw [decode_encoded, encodeBack, ih]
    rfl
  | escaped b bs h ih =>
    have hb : 0x80 ≤ b.toNat := le_of_next_eq_none h
    have hlt : b.toNat < 256 := b.toNat_lt
    rw [decode_escaped h, encodeBack, if_pos (by omega), ih]
    simp

theorem decode_utf8 (s : Str) : decode (utf8 s) = lit s := by
  induction s with
  | nil => rfl
  | cons c s ih =>
    show decode (String.utf8EncodeChar c ++ utf8 s) = _
    rw [decode_encoded, ih]
    rfl

/-! ## bytes in two parts -/

/-- only the first byte of a character begins one -/
theorem first_byte {c : Char} {s t : Octets} {b : UInt8} (hb : b.IsUTF8FirstByte)
    (h : String.utf8EncodeChar c = s ++ b :: t) : s = [] := by
  have hlt : s.length < (String.utf8EncodeChar c).length := by
    rw [h]
    simp
  have hget : (String.utf8EncodeChar c)[s.length] = b := by
    simp [h]
  rw [← hget, UInt8.isUTF8FirstByte_getElem_utf8EncodeChar] at hb
  exact List.eq_nil_of_length_eq_zero hb

/-- a byte that begins no character begins none before more bytes either -/
theorem next_append_eq_none {a b : UInt8} {s t : Octets} (hb : b.IsUTF8FirstByte)
    (h : next (a :: s) = none) : next (a :: s ++ b :: t) = none := by
  cases hnext : next (a :: s ++ b :: t) with
  | none => rfl
  | some c =>
    obtain ⟨u, hu⟩ := next_eq_some.mp hnext
    have hwhole : ∀ v, a :: s ≠ String.utf8EncodeChar c ++ v := by
      intro v hv
      rw [hv, next_encoded] at h
      exact absurd h (Option.some_ne_none c)
    rcases List.append_eq_append_iff.mp hu with ⟨v, hv, hrest⟩ | ⟨v, hv, -⟩
    · cases v with
      | nil => exact absurd (by rw [hv]; simp) (hwhole [])
      | cons b' v =>
        obtain rfl : b = b' := (List.cons.inj hrest).1
        exact absurd (first_byte hb hv) (List.cons_ne_nil a s)
    · exact absurd hv (hwhole v)

/-- **bytes are decoded on their own before and after a byte that begins a character** -/
theorem decode_append {b : UInt8} (hb : b.IsUTF8FirstByte) (s t : Octets) :
    decode (s ++ b :: t) = decode s ++ decode (b :: t) := by
  induction s using bytes_induct with
  | nil => rfl
  | encoded c u ih =>
    rw [List.append_assoc, decode_encoded, decode_encoded, ih]
    rfl
  | escaped a u h ih =>
    have hnone : next (a :: (u ++ b :: t)) = none := next_append_eq_none hb h
    rw [decode_escaped h, List.cons_append, decode_escaped hnone, ih]
    rfl

/-- a character of one byte is in the text only where the byte is -/
theorem mem_of_char_mem {b : UInt8} {c : Char} (hc : String.utf8EncodeChar c = [b]) {bs : Octets}
    (h : .char c ∈ decode bs) : b ∈ bs := by
  induction bs using bytes_induct with
  | nil => exact absurd h List.not_mem_nil
  | encoded d t ih =>
    rw [decode_encoded] at h
    rcases List.mem_cons.mp h with heq | htail
    · rw [← CodePoint.char.inj heq, hc]
      exact List.mem_append_left t (List.mem_singleton_self b)
    · exact List.mem_append_right _ (ih htail)
  | escaped a s hnone ih =>
    rw [decode_escaped hnone] at h
    rcases List.mem_cons.mp h with heq | htail
    · exact CodePoint.noConfusion heq
    · exact List.mem_cons_of_mem a (ih htail)

end Utf8
