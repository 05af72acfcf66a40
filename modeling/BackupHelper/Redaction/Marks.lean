import BackupHelper.Redaction.Standing
import BackupHelper.Redaction.Dsns

/-!
# Marked texts

What the passes do to a text with marks is, without the marks, what they do to the text without them.

* `chars`                           the text without its marks;
* `redact_chars`                    **the marks do not matter**;
* `resume_chars`, `opensDsn_chars`  the same for the standing of a text, and for the part of a match it ends in;
* `scan_from`, `maskDsns_from`      **where the characters of the output come from**;
* `scan_parts`                      the scan of a text in two parts.
-/

namespace BackupHelper
namespace Redaction
open Text

section
variable {α : Type} [Letter α]
open Letter

/-- the characters -/
def chars (s : List α) : Str := s.map char

theorem chars_takeWhile {p : α → Bool} {p' : Char → Bool} (h : ∀ a, p a = p' (char a)) (s : List α) :
    chars (s.takeWhile p) = (chars s).takeWhile p' := by
  unfold chars
  rw [List.takeWhile_map]
  congr 1
  exact congrFun (congrArg _ (funext h)) s

theorem chars_dropWhile {p : α → Bool} {p' : Char → Bool} (h : ∀ a, p a = p' (char a)) (s : List α) :
    chars (s.dropWhile p) = (chars s).dropWhile p' := by
  unfold chars
  rw [List.dropWhile_map]
  congr 1
  exact congrFun (congrArg _ (funext h)) s

theorem chars_append (s t : List α) : chars (s ++ t) = chars s ++ chars t := List.map_append

theorem chars_mask : chars (mask : List α) = mask := by
  unfold chars mask
  rw [List.map_map]
  exact List.map_congr_left fun c _ => char_plain c

theorem chars_isEmpty (s : List α) : (chars s).isEmpty = s.isEmpty := by
  cases s <;> rfl

theorem separator_chars (s : List α) :
    separator (chars s) = (separator s).map fun r => (chars r.1, chars r.2) := by
  have hblank : ∀ a : α, blank a = blank (char a) := fun _ => rfl
  unfold separator
  rw [← chars_dropWhile hblank, ← chars_takeWhile hblank]
  cases s.dropWhile blank with
  | nil => rfl
  | cons c r =>
    show (if isSep (char c) then some (_ ++ char c :: (chars r).takeWhile blank, (chars r).dropWhile blank)
      else none) = Option.map _ (if isSep (char c) then _ else none)
    by_cases hc : isSep (char c) = true
    · rw [if_pos hc, if_pos hc, ← chars_takeWhile hblank, ← chars_dropWhile hblank]
      show _ = some (chars (_ ++ _), _)
      rw [chars_append]
      rfl
    · rw [if_neg hc, if_neg hc]
      rfl

theorem closeQuote_chars (q s : List α) :
    closeQuote (chars q) (chars s) = (closeQuote q s).map fun r => (chars r.1, chars r.2) := by
  cases q with
  | nil => rfl
  | cons c q =>
    cases s with
    | nil => rfl
    | cons d s =>
      show (if char d = char c then _ else none) = Option.map _ (if char d = char c then _ else none)
      split <;> rfl

theorem openQuote_chars (s : List α) :
    openQuote (chars s) = (chars (openQuote s).1, chars (openQuote s).2) := by
  cases s with
  | nil => rfl
  | cons c s =>
    show openQuote (char c :: chars s) = _
    rw [openQuote_cons, openQuote_cons, char_self]
    by_cases hc : isQuote (char c) = true
    · rw [if_pos hc, if_pos hc]
      rfl
    · rw [if_neg hc, if_neg hc]
      rfl

theorem keyAt_chars (s : List α) :
    keyAt (chars s) = (keyAt s).map fun r => (chars r.1, chars r.2.1, chars r.2.2) := by
  have hname : ∀ a : α, inName a = inName (char a) := fun _ => rfl
  unfold keyAt
  rw [openQuote_chars]
  simp only
  rw [← chars_takeWhile hname, ← chars_dropWhile hname, chars_isEmpty, closeQuote_chars]
  by_cases he : ((openQuote s).2.takeWhile inName).isEmpty = true
  · rw [if_pos he, if_pos he]
    rfl
  · rw [if_neg he, if_neg he]
    cases closeQuote (openQuote s).1 ((openQuote s).2.dropWhile inName) with
    | none => rfl
    | some r =>
      simp only [Option.map_some]
      rw [separator_chars]
      cases separator r.2 with
      | none => simp
      | some v => simp [chars_append]

theorem closing_chars (q : Char) (esc : Bool) (s : List α) :
    closing q esc (chars s) = (closing q esc s).map fun r => (chars r.1, chars r.2) := by
  induction s generalizing esc with
  | nil => cases esc <;> rfl
  | cons c s ih =>
    have hmap : ∀ e, (closing q e (chars s)).map (fun r => (char c :: r.1, r.2)) =
        ((closing q e s).map fun r => (c :: r.1, r.2)).map fun r => (chars r.1, chars r.2) := by
      intro e
      rw [ih e, Option.map_map, Option.map_map]
      rfl
    cases esc with
    | true =>
      show (if char c = '\n' then none else _) = Option.map _ (if char c = '\n' then none else _)
      by_cases hc : char c = '\n'
      · rw [if_pos hc, if_pos hc]
        rfl
      · rw [if_neg hc, if_neg hc]
        exact hmap false
    | false =>
      show (if char c = q then some ([char c], chars s) else _) = Option.map _ (if char c = q then _ else _)
      by_cases hc : char c = q
      · rw [if_pos hc, if_pos hc]
        rfl
      · rw [if_neg hc, if_neg hc]
        exact hmap _

theorem unquoted_chars (s : List α) :
    unquoted (chars s) = (unquoted s).map fun r => (chars r.1, chars r.2) := by
  have hnot : ∀ a : α, notBlank a = notBlank (char a) := fun _ => rfl
  unfold unquoted
  rw [← chars_takeWhile hnot, ← chars_dropWhile hnot, chars_isEmpty]
  split <;> rfl

theorem valueAt_chars (s : List α) :
    valueAt (chars s) = (valueAt s).map fun r => (chars r.1, chars r.2) := by
  cases s with
  | nil => rfl
  | cons c s =>
    have hunq : unquoted (char c :: chars s) = _ := unquoted_chars (c :: s)
    show valueAt (char c :: chars s) = _
    rw [valueAt_cons, valueAt_cons, hunq, char_self]
    by_cases hc : isQuote (char c) = true
    · rw [if_pos hc, if_pos hc]
      rw [closing_chars]
      cases closing (char c) false s with
      | none => rfl
      | some r => rfl
    · rw [if_neg hc, if_neg hc]

theorem quoteOf_chars (raw : List α) : chars (quoteOf raw) = quoteOf (chars raw) := by
  cases raw with
  | nil => rfl
  | cons c s =>
    show chars (quoteOf (c :: s)) = quoteOf (char c :: chars s)
    have hlast : (char c :: chars s).getLast? = (c :: s).getLast?.map char := List.getLast?_map (l := c :: s)
    have hlen : (char c :: chars s).length = (c :: s).length := by
      show ((c :: s).map char).length = _
      rw [List.length_map]
    have hquote : chars [(plain (char c) : α)] = [char c] := by
      show [char (plain (char c) : α)] = _
      rw [char_plain]
    unfold quoteOf
    simp only
    rw [hlast, hlen]
    cases (c :: s).getLast? with
    | none => rfl
    | some d =>
      simp only [Option.map_some]
      show chars (if 1 < (c :: s).length ∧ isQuote (char c) ∧ char d = char c then [plain (char c)] else []) =
        if 1 < (c :: s).length ∧ isQuote (char c) ∧ char d = char c then [char c] else []
      split
      · exact hquote
      · rfl

theorem masked_chars (raw : List α) : chars (masked raw) = masked (chars raw) := by
  unfold masked
  rw [chars_append, chars_append, chars_mask, quoteOf_chars]

theorem endsInName_chars (s : List α) : endsInName (chars s) = endsInName s := by
  unfold endsInName chars
  rw [List.getLast?_map, Option.any_map]
  rfl

theorem maskFrom_chars (n : ℕ) (after : Bool) (s : List α) :
    maskFrom n after (chars s) = chars (maskFrom n after s) := by
  induction n generalizing after s with
  | zero => rfl
  | succ n ih =>
    cases s with
    | nil => rfl
    | cons c s =>
      show maskFrom (n + 1) after (char c :: chars s) = _
      rw [maskFrom_succ, maskFrom_succ, chars_append, ← ih]
      have hstep : step after (char c) (chars s) =
          (chars (step after c s).1, (step after c s).2.1, chars (step after c s).2.2) := by
        have hkey : (if after then none else keyAt (char c :: chars s)) =
            (if after then none else keyAt (c :: s)).map fun r => (chars r.1, chars r.2.1, chars r.2.2) := by
          cases after with
          | true => rfl
          | false => exact keyAt_chars (c :: s)
        unfold step
        rw [hkey]
        cases (if after then none else keyAt (c :: s)) with
        | none => rfl
        | some r =>
          obtain ⟨key, name, rest⟩ := r
          have hvalue : valueOf (chars name) (chars rest) =
              (valueOf name rest).map fun r => (chars r.1, chars r.2) := by
            have hname : (chars name).map char = name.map char := List.map_id _
            unfold valueOf
            rw [hname]
            split
            · exact valueAt_chars rest
            · rfl
          simp only [Option.map_some]
          rw [hvalue]
          cases valueOf name rest with
          | none => simp only [Option.map_none, endsInName_chars]
          | some v => simp only [Option.map_some, endsInName_chars, chars_append, masked_chars]
      rw [hstep]

theorem hostAt_chars (before s : List α) : hostAt (chars before) (chars s) =
    (hostAt before s).map fun r => (chars r.1, chars r.2.1, chars r.2.2) := by
  cases s with
  | nil => rfl
  | cons e rest =>
    show (if char e = '@' then some (chars before, [char e], chars rest) else none) =
      Option.map _ (if char e = '@' then some (before, [e], rest) else none)
    split <;> rfl

theorem passwordAt_chars (before s : List α) : passwordAt (chars before) (chars s) =
    (passwordAt before s).map fun r => (chars r.1, chars r.2.1, chars r.2.2) := by
  have hpassword : ∀ a : α, inPassword a = inPassword (char a) := fun _ => rfl
  cases s with
  | nil => rfl
  | cons d s =>
    have hbefore : chars before ++ [char d] = chars (before ++ [d]) := (chars_append before [d]).symm
    show (if char d = ':' ∧ ¬ ((chars s).takeWhile inPassword).isEmpty then
        hostAt (chars before ++ [char d]) ((chars s).dropWhile inPassword) else none) =
      Option.map _ (if char d = ':' ∧ ¬ (s.takeWhile inPassword).isEmpty then
        hostAt (before ++ [d]) (s.dropWhile inPassword) else none)
    rw [← chars_takeWhile hpassword, ← chars_dropWhile hpassword, chars_isEmpty, hbefore, hostAt_chars]
    split <;> rfl

theorem dsnAt_chars (s : List α) :
    dsnAt (chars s) = (dsnAt s).map fun r => (chars r.1, chars r.2.1, chars r.2.2) := by
  have huser : ∀ a : α, inUser a = inUser (char a) := fun _ => rfl
  match s with
  | [] => rfl
  | [_] => rfl
  | [_, _] => rfl
  | a :: b :: c :: s =>
    have hstart := passwordAt_chars (a :: b :: c :: s.takeWhile inUser) (s.dropWhile inUser)
    show dsnAt (char a :: char b :: char c :: chars s) = _
    unfold dsnAt
    simp only [char_self]
    rw [← chars_takeWhile huser, ← chars_dropWhile huser, chars_isEmpty]
    split
    · exact hstart
    · rfl

theorem dsnsFrom_chars (n : ℕ) (s : List α) : dsnsFrom n (chars s) = chars (dsnsFrom n s) := by
  induction n generalizing s with
  | zero => rfl
  | succ n ih =>
    cases s with
    | nil => rfl
    | cons c s =>
      have hat : dsnAt (char c :: chars s) = _ := dsnAt_chars (c :: s)
      show dsnsFrom (n + 1) (char c :: chars s) = _
      unfold dsnsFrom
      rw [hat]
      cases dsnAt (c :: s) with
      | none => exact congrArg (char c :: ·) (ih s)
      | some r =>
        simp only [Option.map_some]
        rw [ih, chars_append, chars_append, chars_append, chars_mask]

theorem scan_chars (after : Bool) (s : List α) : scan after (chars s) = chars (scan after s) := by
  have hlen : (chars s).length = s.length := List.length_map _
  unfold scan
  rw [hlen]
  exact maskFrom_chars _ _ s

/-- **The marks do not matter.** -/
theorem redact_chars (s : List α) : redact (chars s) = chars (redact s) := by
  have hlen : (chars (maskPairs s)).length = (maskPairs s).length := List.length_map _
  unfold redact maskDsns
  rw [maskPairs_eq, scan_chars, ← maskPairs_eq, hlen]
  exact dsnsFrom_chars _ _

theorem opensDsn_chars (s : List α) : opensDsn (chars s) = opensDsn s := by
  have huser : ∀ a : α, inUser a = inUser (char a) := fun _ => rfl
  have hpassword : ∀ s : List α, opensPassword (chars s) = opensPassword s := by
    intro s
    cases s with
    | nil => rfl
    | cons d s =>
      show (decide (char d = ':') && (s.map char).all inPassword) = (decide (char d = ':') && s.all inPassword)
      rw [List.all_map]
      rfl
  have hat : ∀ s : List α, opensAt (chars s) = opensAt s := by
    intro s
    match s with
    | [] => rfl
    | [_] => rfl
    | [_, _] => rfl
    | a :: b :: c :: s =>
      show (decide (char a = ':') && decide (char b = '/') && decide (char c = '/') &&
        !((chars s).takeWhile inUser).isEmpty && opensPassword ((chars s).dropWhile inUser)) = _
      rw [← chars_takeWhile huser, ← chars_dropWhile huser, chars_isEmpty, hpassword]
      rfl
  induction s with
  | nil => rfl
  | cons c s ih =>
    show (opensAt (chars (c :: s)) || opensDsn (chars s)) = _
    rw [hat, ih]
    rfl

theorem meetsHost_chars (s : List α) : meetsHost (chars s) = meetsHost s := by
  have hpassword : ∀ a : α, inPassword a = inPassword (char a) := fun _ => rfl
  unfold meetsHost
  rw [← chars_dropWhile hpassword]
  cases s.dropWhile inPassword <;> rfl

/-! ## the standing of a text -/

theorem openAfter_chars (q : Char) (esc : Bool) (s : List α) : openAfter q esc (chars s) = openAfter q esc s := by
  induction s generalizing esc with
  | nil => rfl
  | cons c s ih =>
    show openAfter q esc (char c :: chars s) = _
    cases esc with
    | true => rw [openAfter_esc, openAfter_esc, ih, char_self]
    | false => rw [openAfter_cons, openAfter_cons, ih, char_self]

theorem closedIn_chars (s : List α) : closedIn (chars s) = (closedIn s).map fun r => (chars r.1, chars r.2) := by
  cases s with
  | nil => rfl
  | cons c s =>
    show (if isQuote (char c) then (closing (char c) false (chars s)).map (fun r => (char c :: r.1, r.2)) else none) =
      (if isQuote (char c) then (closing (char c) false s).map (fun r => (c :: r.1, r.2)) else none).map _
    rw [closing_chars]
    split
    · rw [Option.map_map, Option.map_map]
      rfl
    · rfl

theorem openIn_chars (closes : Char → Bool → Bool) (s : List α) : openIn closes (chars s) = openIn closes s := by
  cases s with
  | nil => rfl
  | cons c s =>
    show openIn closes (char c :: chars s) = _
    unfold openIn
    simp only [char_self]
    rw [openAfter_chars]

def Standing.chars : Standing α → Standing Char
  | .reached out after => .reached (Redaction.chars out) after
  | .within out raw => .within (Redaction.chars out) (Redaction.chars raw)
  | .quoted out raw q esc => .quoted (Redaction.chars out) (Redaction.chars raw) q esc

theorem add_chars (out : List α) (st : Standing α) : (st.add out).chars = st.chars.add (chars out) := by
  cases st with
  | reached out' after => exact congrArg (Standing.reached · after) (chars_append out out')
  | within out' raw => exact congrArg (Standing.within · (chars raw)) (chars_append out out')
  | quoted out' raw q esc => exact congrArg (Standing.quoted · (chars raw) q esc) (chars_append out out')

theorem standingFrom_chars (closes : Char → Bool → Bool) (n : ℕ) (after : Bool) (s : List α) :
    standingFrom closes n after (chars s) = (standingFrom closes n after s).chars := by
  induction n generalizing after s with
  | zero => rfl
  | succ n ih =>
    cases s with
    | nil => rfl
    | cons c s =>
      have hkey : (if after then none else keyAt (char c :: chars s)) =
          (if after then none else keyAt (c :: s)).map fun r => (chars r.1, chars r.2.1, chars r.2.2) := by
        cases after with
        | true => rfl
        | false => exact keyAt_chars (c :: s)
      have hnot : ∀ a : α, notBlank a = notBlank (char a) := fun _ => rfl
      show standingFrom closes (n + 1) after (char c :: chars s) = _
      rw [standingFrom, standingFrom, hkey]
      cases (if after then none else keyAt (c :: s)) with
      | none =>
        rw [Option.map_none]
        simp only
        rw [ih, add_chars]
        rfl
      | some r =>
        obtain ⟨key, name, rest⟩ := r
        have hname : (chars name).map char = name.map char := List.map_id _
        simp only [Option.map_some]
        rw [hname, closedIn_chars, openIn_chars, ← chars_dropWhile hnot, ← chars_takeWhile hnot, chars_isEmpty]
        by_cases hsens : isSensitiveKey (name.map char) = true
        · rw [if_pos hsens, if_pos hsens]
          cases closedIn rest with
          | some v =>
            simp only [Option.map_some]
            rw [endsInName_chars, ih, add_chars, chars_append, masked_chars]
          | none =>
            simp only [Option.map_none]
            cases openIn closes rest with
            | some v => rfl
            | none =>
              simp only
              split
              · rfl
              · rw [endsInName_chars, ih, add_chars, chars_append, masked_chars]
        · rw [if_neg hsens, if_neg hsens, endsInName_chars, ih, add_chars]

theorem standing_chars (closes : Char → Bool → Bool) (after : Bool) (s : List α) :
    standing closes after (chars s) = (standing closes after s).chars := by
  have hlen : (chars s).length = s.length := List.length_map _
  unfold standing
  rw [hlen]
  exact standingFrom_chars closes _ after s

theorem value_chars (t : List α) (st : Standing α) :
    st.chars.value (chars t) = (st.value t).map fun r => (chars r.1, chars r.2) := by
  have hnot : ∀ a : α, notBlank a = notBlank (char a) := fun _ => rfl
  cases st with
  | reached out after => rfl
  | quoted out raw q esc => exact closing_chars q esc t
  | within out raw =>
    cases raw with
    | nil => exact valueAt_chars t
    | cons c raw =>
      show some ((chars t).takeWhile notBlank, (chars t).dropWhile notBlank) = _
      rw [← chars_takeWhile hnot, ← chars_dropWhile hnot]
      rfl

theorem resume_chars (t : List α) (st : Standing α) :
    st.chars.resume (chars t) = (chars (st.resume t).1, chars (st.resume t).2) := by
  have hout : st.chars.out = chars st.out := by cases st <;> rfl
  have hraw : st.chars.raw = chars st.raw := by cases st <;> rfl
  have hafter : st.chars.after = st.after := by cases st <;> rfl
  have hvalue := value_chars t st
  cases hv : st.value t with
  | none =>
    rw [hv] at hvalue
    rw [resume_none hv, resume_none hvalue, hout, hafter, scan_chars]
  | some v =>
    rw [hv] at hvalue
    rw [resume_some hv, resume_some hvalue, hout, hraw, ← chars_append, ← masked_chars, ← chars_append,
      endsInName_chars, scan_chars]

/-! ## where a character comes from -/

/-- a character of a mask, or a quote around one -/
def Stroke (a : α) : Prop := ∃ c ∈ ['*', '"', '\''], a = plain c

/-- one of the text, or one of a mask -/
def From (s : List α) (a : α) : Prop := a ∈ s ∨ Stroke a

theorem From.mono {s s' : List α} (h : ∀ a ∈ s, a ∈ s') {a : α} (ha : From s a) : From s' a :=
  ha.imp_left (h a)

theorem stroke_mask {a : α} (h : a ∈ (mask : List α)) : Stroke a := by
  obtain ⟨c, hc, rfl⟩ := List.mem_map.mp h
  have hall : ∀ c ∈ "***".toList, c ∈ ['*', '"', '\''] := by decide
  exact ⟨c, hall c hc, rfl⟩

theorem stroke_masked {raw : List α} {a : α} (h : a ∈ masked raw) : Stroke a := by
  have hquote : a ∈ quoteOf raw → Stroke a := by
    intro ha
    unfold quoteOf at ha
    split at ha
    · cases ha
    · split at ha
      · split at ha
        · rename_i c s _ d _ hc
          have hor : char c = '"' ∨ char c = '\'' := by simpa [isQuote] using hc.2.1
          exact ⟨char c, by rcases hor with h | h <;> simp [h], List.mem_singleton.mp ha⟩
        · cases ha
      · cases ha
  unfold masked at h
  rcases List.mem_append.mp h with h | h
  · rcases List.mem_append.mp h with h | h
    · exact hquote h
    · exact stroke_mask h
  · exact hquote h

theorem Written.comes {u out : List α} (h : Written u out) : ∀ a ∈ out, From u a := by
  intro a ha
  cases h with
  | copied => exact Or.inl ha
  | value key raw hkey =>
    rcases List.mem_append.mp ha with ha | ha
    · exact Or.inl (List.mem_append_left _ ha)
    · exact Or.inr (stroke_masked ha)

theorem scan_from (after : Bool) (s : List α) : ∀ a ∈ scan after s, From s a := by
  induction hn : s.length using Nat.strong_induction_on generalizing after s with
  | _ n ih =>
    cases s with
    | nil => intro a ha; cases ha
    | cons c s =>
      obtain ⟨u, happ, hout⟩ := step_written after c s
      have hlen := step_length after c s
      rw [List.length_cons] at hn
      intro a ha
      rw [scan_cons] at ha
      rcases List.mem_append.mp ha with ha | ha
      · exact (hout.comes a ha).mono fun b hb => happ ▸ List.mem_append_left _ hb
      · exact (ih _ (by omega) _ _ rfl a ha).mono fun b hb => happ ▸ List.mem_append_right _ hb

/-- what has been written where a text ends comes from the text -/
theorem standingFrom_from (closes : Char → Bool → Bool) (n : ℕ) (after : Bool) (s : List α) :
    ∀ a ∈ (standingFrom closes n after s).out, From s a := by
  induction n generalizing after s with
  | zero => exact fun a ha => Or.inl ha
  | succ n ih =>
    cases s with
    | nil => intro a ha; cases ha
    | cons c s =>
      have hcases := standingFrom_cases closes n after c s
      generalize standingFrom closes (n + 1) after (c :: s) = st at hcases
      intro a ha
      cases hcases with
      | on u rest out happ hout =>
        have hadd : ∀ st : Standing α, (st.add out).out = out ++ st.out := fun st => by cases st <;> rfl
        rw [hadd] at ha
        rcases List.mem_append.mp ha with ha | ha
        · exact (hout.comes a ha).mono fun b hb => happ ▸ List.mem_append_left _ hb
        · exact (ih _ _ a ha).mono fun b hb => happ ▸ List.mem_append_right _ hb
      | quoted key raw q esc happ hopen => exact Or.inl (happ ▸ List.mem_append_left _ ha)
      | within key raw happ => exact Or.inl (happ ▸ List.mem_append_left _ ha)

theorem dsnsFrom_from (n : ℕ) (s : List α) : ∀ a ∈ dsnsFrom n s, From s a := by
  induction n generalizing s with
  | zero => exact fun a ha => Or.inl ha
  | succ n ih =>
    cases s with
    | nil => intro a ha; cases ha
    | cons c s =>
      intro a ha
      cases hat : dsnAt (c :: s) with
      | none =>
        rw [dsnsFrom_none n hat] at ha
        rcases List.mem_cons.mp ha with rfl | ha
        · exact Or.inl List.mem_cons_self
        · exact (ih s a ha).mono fun a ha => List.mem_cons_of_mem _ ha
      | some r =>
        obtain ⟨before, behind, rest⟩ := r
        obtain ⟨password, e, rfl, happ, -⟩ := dsnAt_some hat
        rw [dsnsFrom_some n hat] at ha
        rcases List.mem_append.mp ha with ha | ha
        · rcases List.mem_append.mp ha with ha | ha
          · rcases List.mem_append.mp ha with ha | ha
            · exact Or.inl (happ ▸ List.mem_append_left _ ha)
            · exact Or.inr (stroke_mask ha)
          · obtain rfl := List.mem_singleton.mp ha
            exact Or.inl (by rw [happ]; simp)
        · exact (ih rest a ha).mono fun a ha => by rw [happ]; simp [ha]

theorem maskDsns_from (s : List α) : ∀ a ∈ maskDsns s, From s a := dsnsFrom_from _ _

theorem Written.parts {p t out : List α} (h : Written (p ++ t) out) :
    ∃ w w', out = w ++ w' ∧ (∀ a ∈ w, From p a) ∧ ∀ a ∈ w', From t a := by
  generalize hu : p ++ t = u at h
  cases h with
  | copied => exact ⟨p, t, hu.symm, fun a ha => Or.inl ha, fun a ha => Or.inl ha⟩
  | value key raw hkey =>
    rcases List.append_eq_append_iff.mp hu with ⟨k, hk, ht⟩ | ⟨r, hp, -⟩
    · -- the value begins behind the first part
      refine ⟨p, k ++ masked raw, by rw [hk, List.append_assoc], fun a ha => Or.inl ha, fun a ha => ?_⟩
      rcases List.mem_append.mp ha with ha | ha
      · exact Or.inl (ht ▸ List.mem_append_left _ ha)
      · exact Or.inr (stroke_masked ha)
    · refine ⟨key ++ masked raw, [], (List.append_nil _).symm, fun a ha => ?_, by simp⟩
      rcases List.mem_append.mp ha with ha | ha
      · exact Or.inl (hp ▸ List.mem_append_left _ ha)
      · exact Or.inr (stroke_masked ha)

/-- **The scan of a text in two parts**: what it writes comes from the first of them, and then from the second. -/
theorem scan_parts (after : Bool) (p t : List α) : ∃ w w', scan after (p ++ t) = w ++ w' ∧
    (∀ a ∈ w, From p a) ∧ ∀ a ∈ w', From t a := by
  induction hn : p.length using Nat.strong_induction_on generalizing after p with
  | _ n ih =>
    cases p with
    | nil => exact ⟨[], scan after t, rfl, by simp, scan_from after t⟩
    | cons c p =>
      obtain ⟨u, happ, hout⟩ := step_written after c (p ++ t)
      have hcons : scan after (c :: p ++ t) = _ := scan_cons after c (p ++ t)
      rw [hcons]
      have happ : u ++ (step after c (p ++ t)).2.2 = c :: p ++ t := happ
      have hpos := List.length_pos_iff.mpr hout.ne_nil
      rcases List.append_eq_append_iff.mp happ with ⟨p', hp, hrest⟩ | ⟨t', rfl, ht⟩
      · -- the step ends within the first part
        have hlen := congrArg List.length hp
        rw [List.length_append] at hlen
        obtain ⟨w, w', hscan, hw, hw'⟩ := ih p'.length (by omega) (step after c (p ++ t)).2.1 p' rfl
        refine ⟨(step after c (p ++ t)).1 ++ w, w', by rw [hrest, hscan, List.append_assoc], fun a ha => ?_, hw'⟩
        rcases List.mem_append.mp ha with ha | ha
        · exact (hout.comes a ha).mono fun x hx => hp ▸ List.mem_append_left _ hx
        · exact (hw a ha).mono fun x hx => hp ▸ List.mem_append_right _ hx
      · obtain ⟨w, w', hparts, hw, hw'⟩ := hout.parts
        refine ⟨w, w' ++ scan _ _, by rw [hparts, List.append_assoc], hw, fun a ha => ?_⟩
        rcases List.mem_append.mp ha with ha | ha
        · exact (hw' a ha).mono fun x hx => ht ▸ List.mem_append_left _ hx
        · exact (scan_from _ _ a ha).mono fun x hx => ht ▸ List.mem_append_right _ hx

end
end Redaction
end BackupHelper
