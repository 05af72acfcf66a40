import BackupHelper.Redaction.Scan

/-!
# How the scan stands

* `Standing.Fits`, `standing_fits`            what a standing says of the text it is about;
* `Written`, `step_written`                   what one step of the scan writes;
* `Stands`, `standingFrom_cases`              what it does to the standing;
* `scan_noSep`                                **an unbroken text without separators is copied**;
* `closing_over`                              a value in quotes that goes on over a text;
* `Standing.bare`                             where the scan stands.
-/

namespace BackupHelper
namespace Redaction
open Text

section
variable {α : Type} [Letter α]
open Letter

/-! ## characters -/

theorem blank_char {c : Char} (hc : blank c = true) :
    isKeyChar c = false ∧ isSep c = false ∧ isQuote c = false ∧ c ≠ '\\' := by
  have hall : ∀ c ∈ spaces, isKeyChar c = false ∧ isSep c = false ∧ isQuote c = false ∧ c ≠ '\\' := by decide
  exact hall c (of_decide_eq_true hc)

theorem sep_char {c : Char} (hc : isSep c = true) :
    isKeyChar c = false ∧ blank c = false ∧ isQuote c = false ∧ c ≠ '\\' := by
  have hor : c = '=' ∨ c = ':' := by simpa [isSep] using hc
  rcases hor with rfl | rfl <;> decide

theorem quote_char {c : Char} (hc : isQuote c = true) :
    isKeyChar c = false ∧ isSep c = false ∧ blank c = false ∧ c ≠ '\\' := by
  have hor : c = '"' ∨ c = '\'' := by simpa [isQuote] using hc
  rcases hor with rfl | rfl <;> decide

theorem name_char {c : Char} (hc : isKeyChar c = true) :
    blank c = false ∧ isSep c = false ∧ isQuote c = false ∧ c ≠ '\\' := by
  refine ⟨?_, ?_, ?_, ?_⟩
  · by_contra hb
    rw [(blank_char (Bool.not_eq_false _ ▸ hb)).1] at hc
    cases hc
  · by_contra hb
    rw [(sep_char (Bool.not_eq_false _ ▸ hb)).1] at hc
    cases hc
  · by_contra hb
    rw [(quote_char (Bool.not_eq_false _ ▸ hb)).1] at hc
    cases hc
  · rintro rfl
    revert hc
    decide

theorem keyAt_blank {c : α} (t : List α) (hc : blank c = true) : keyAt (c :: t) = none := by
  obtain ⟨hkey, -, hquote, -⟩ := blank_char (c := char c) hc
  have hopen : openQuote (c :: t) = ([], c :: t) := by
    rw [openQuote_cons, hquote]
    rfl
  have hname : (c :: t).takeWhile inName = [] := List.takeWhile_cons_of_neg (by simp [inName, hkey])
  unfold keyAt
  rw [hopen]
  simp only [hname, List.isEmpty_nil, if_true]

/-- where a blank comes next, it does not matter what precedes -/
theorem scan_blank {t : List α} (ht : ∀ c ∈ t.head?, blank c = true) (after : Bool) : scan after t = scan false t := by
  cases t with
  | nil => rfl
  | cons c t =>
    have hnone := keyAt_blank t (ht c rfl)
    rw [scan_skip (Or.inr hnone), scan_skip (Or.inr hnone)]

/-! ## the shape of a standing -/

/-- what the standing at the end of `s` says of `s` -/
def Standing.Fits (after : Bool) (s : List α) : Standing α → Prop
  | .reached _ b => b = if s.isEmpty then after else endsInName s
  | .within _ _ => True
  | .quoted _ raw q _ => isQuote q = true ∧ ∃ c ∈ raw.head?, char c = q

theorem fits_add {after : Bool} {s : List α} {st : Standing α} (out : List α) (h : st.Fits after s) :
    (st.add out).Fits after s := by
  cases st <;> exact h

theorem endsInName_append (u : List α) {s : List α} (hs : s ≠ []) : endsInName (u ++ s) = endsInName s := by
  unfold endsInName
  rw [List.getLast?_append_of_ne_nil _ hs]

theorem fits_append {u rest : List α} {st : Standing α} (hu : u ≠ []) (after : Bool)
    (h : st.Fits (endsInName u) rest) : st.Fits after (u ++ rest) := by
  cases st with
  | within out raw => exact trivial
  | quoted out raw q esc => exact h
  | reached out b =>
    have hne : (u ++ rest).isEmpty = false := by cases u <;> first | rfl | exact absurd rfl hu
    show b = if (u ++ rest).isEmpty then after else endsInName (u ++ rest)
    rw [hne, if_neg (by simp)]
    cases rest with
    | nil =>
      rw [List.append_nil]
      exact h
    | cons c rest =>
      rw [endsInName_append u (by simp)]
      exact h

theorem openIn_some {closes : Char → Bool → Bool} {rest : List α} {q : Char} {esc : Bool}
    (h : openIn closes rest = some (q, esc)) : isQuote q = true ∧ ∃ c ∈ rest.head?, char c = q := by
  unfold openIn at h
  split at h
  · cases h
  · split at h
    · rename_i c s hc
      split at h
      · split at h
        · obtain ⟨rfl, -⟩ := Prod.mk.inj (Option.some.inj h)
          exact ⟨hc, c, rfl, rfl⟩
        · cases h
      · cases h
    · cases h

theorem closedIn_some {rest raw r : List α} (h : closedIn rest = some (raw, r)) : raw ++ r = rest ∧ raw ≠ [] := by
  have hval := valueAt_closed (t := []) h
  rw [List.append_nil, List.append_nil] at hval
  exact valueAt_some hval

/-! ## one step -/

/-- what one step of the scan writes for the `u` that it takes -/
inductive Written : List α → List α → Prop where
  | copied (u : List α) (hu : u ≠ []) : Written u u
  | value (key raw : List α) (hkey : key ≠ []) : Written (key ++ raw) (key ++ masked raw)

theorem Written.ne_nil {u out : List α} (h : Written u out) : u ≠ [] := by
  cases h with
  | copied _ hu => exact hu
  | value key raw hkey => simp [hkey]

/-- the first character is not masked -/
theorem Written.head {u out : List α} (h : Written u out) : out.head? = u.head? := by
  cases h with
  | copied => rfl
  | value key raw hkey =>
    obtain ⟨c, key, rfl⟩ := List.exists_cons_of_ne_nil hkey
    rfl

theorem step_written (after : Bool) (c : α) (s : List α) :
    ∃ u, u ++ (step after c s).2.2 = c :: s ∧ Written u (step after c s).1 := by
  unfold step
  cases hkey : (if after then none else keyAt (c :: s)) with
  | none => exact ⟨[c], rfl, .copied [c] (by simp)⟩
  | some r =>
    obtain ⟨key, name, rest⟩ := r
    have hk : keyAt (c :: s) = some (key, name, rest) := by
      split at hkey
      · cases hkey
      · exact hkey
    obtain ⟨happ, hend, -⟩ := keyAt_some hk
    simp only
    cases hvalue : valueOf name rest with
    | none => exact ⟨key, happ, .copied key hend.ne_nil⟩
    | some v =>
      have hv : v.1 ++ v.2 = rest := (valueOf_some hvalue).1
      refine ⟨key ++ v.1, ?_, .value key v.1 hend.ne_nil⟩
      show key ++ v.1 ++ v.2 = c :: s
      rw [List.append_assoc, hv, happ]

/-- the first character of a text is not masked -/
theorem scan_first (after : Bool) (c : α) (s : List α) : ∃ w, scan after (c :: s) = c :: w := by
  obtain ⟨u, happ, hout⟩ := step_written after c s
  obtain ⟨d, u, rfl⟩ := List.exists_cons_of_ne_nil hout.ne_nil
  obtain ⟨rfl, -⟩ := List.cons.inj happ
  have hhead := hout.head
  rw [scan_cons]
  cases hw : (step after d s).1 with
  | nil =>
    rw [hw] at hhead
    cases hhead
  | cons e w =>
    rw [hw] at hhead
    obtain rfl : e = d := Option.some.inj hhead
    exact ⟨_, rfl⟩

/-- what can happen at the beginning of `s` -/
inductive Stands (closes : Char → Bool → Bool) (n : ℕ) (s : List α) : Standing α → Prop where
  | on (u rest out : List α) (happ : u ++ rest = s) (hout : Written u out) :
      Stands closes n s ((standingFrom closes n (endsInName u) rest).add out)
  | quoted (key raw : List α) (q : Char) (esc : Bool) (happ : key ++ raw = s)
      (hopen : openIn closes raw = some (q, esc)) : Stands closes n s (.quoted key raw q esc)
  | within (key raw : List α) (happ : key ++ raw = s) : Stands closes n s (.within key raw)

theorem standingFrom_cases (closes : Char → Bool → Bool) (n : ℕ) (after : Bool) (c : α) (s : List α) :
    Stands closes n (c :: s) (standingFrom closes (n + 1) after (c :: s)) := by
  unfold standingFrom
  cases hkey : (if after then none else keyAt (c :: s)) with
  | none => exact .on [c] s [c] rfl (.copied _ (by simp))
  | some r =>
    obtain ⟨key, name, rest⟩ := r
    have hk : keyAt (c :: s) = some (key, name, rest) := by
      cases after with
      | true => cases hkey
      | false => exact hkey
    obtain ⟨happ, hend, hhead⟩ := keyAt_some hk
    have hne := hend.ne_nil
    -- behind a value that is masked
    have hmasked : ∀ {raw r : List α}, raw ++ r = rest → raw ≠ [] → Stands closes n (c :: s)
        ((standingFrom closes n (endsInName raw) r).add (key ++ masked raw)) := by
      intro raw r hraw hraw'
      have hon := @Stands.on α _ closes n (c :: s) (key ++ raw) r _ (by rw [List.append_assoc, hraw, happ])
        (.value key raw hne)
      rw [endsInName_append key hraw'] at hon
      exact hon
    simp only
    by_cases hsens : isSensitiveKey (name.map char) = true
    · rw [if_pos hsens]
      cases hclosed : closedIn rest with
      | some v => exact hmasked (closedIn_some hclosed).1 (closedIn_some hclosed).2
      | none =>
        cases hopen : openIn closes rest with
        | some v => exact .quoted key rest v.1 v.2 happ hopen
        | none =>
          simp only
          by_cases hall : rest.dropWhile notBlank = []
          · rw [if_pos (by rw [hall]; rfl)]
            exact .within key rest happ
          · rw [if_neg (by simpa using hall)]
            refine hmasked List.takeWhile_append_dropWhile ?_
            cases rest with
            | nil => exact absurd rfl hall
            | cons x rest =>
              have hx : blank x = false := hhead x rfl
              rw [List.takeWhile_cons_of_pos (by simp [notBlank, hx])]
              simp
    · rw [if_neg hsens]
      exact .on key rest key happ (.copied key hne)

theorem standingFrom_fits {closes : Char → Bool → Bool} {n : ℕ} {after : Bool} {s : List α} (hn : s.length ≤ n) :
    (standingFrom closes n after s).Fits after s := by
  induction n generalizing after s with
  | zero =>
    obtain rfl := List.length_eq_zero_iff.mp (Nat.le_zero.mp hn)
    rfl
  | succ n ih =>
    cases s with
    | nil => rfl
    | cons c s =>
      have hcases := standingFrom_cases closes n after c s
      generalize standingFrom closes (n + 1) after (c :: s) = st at hcases
      cases hcases with
      | on u rest out happ hout =>
        have hlen := congrArg List.length happ
        have hpos := List.length_pos_iff.mpr hout.ne_nil
        rw [List.length_append, List.length_cons] at hlen
        rw [List.length_cons] at hn
        rw [← happ]
        exact fits_add out (fits_append hout.ne_nil after (ih (by omega)))
      | quoted key raw q esc happ hopen => exact openIn_some hopen
      | within key raw happ => exact trivial

theorem standing_fits (closes : Char → Bool → Bool) (after : Bool) (s : List α) :
    (standing closes after s).Fits after s := standingFrom_fits le_rfl

/-! ## texts without blanks and quotes -/

/-- neither a blank nor a quote -/
def Unbroken (s : List α) : Prop := ∀ a ∈ s, blank a = false ∧ isQuote (char a) = false

theorem separator_unbroken : ∀ s : List α, Unbroken s → separator s =
    match s with
    | [] => none
    | d :: r => if isSep (char d) then some ([d], r) else none := by
  intro s hs
  have hspan : ∀ {r : List α}, Unbroken r → r.takeWhile blank = [] ∧ r.dropWhile blank = r := by
    intro r hr
    cases r with
    | nil => exact ⟨rfl, rfl⟩
    | cons x r =>
      have hx := (hr x List.mem_cons_self).1
      exact ⟨List.takeWhile_cons_of_neg (by simp [hx]), List.dropWhile_cons_of_neg (by simp [hx])⟩
  unfold separator
  rw [(hspan hs).1, (hspan hs).2]
  cases s with
  | nil => rfl
  | cons d r =>
    have hr : Unbroken r := fun a ha => hs a (List.mem_cons_of_mem _ ha)
    simp only [(hspan hr).1, (hspan hr).2, List.nil_append]

theorem keyAt_unbroken {s : List α} (hs : Unbroken s) : keyAt s =
    if (s.takeWhile inName).isEmpty then none
    else match s.dropWhile inName with
      | [] => none
      | d :: r => if isSep (char d) then some (s.takeWhile inName ++ [d], s.takeWhile inName, r) else none := by
  have hopen : openQuote s = ([], s) := by
    cases s with
    | nil => rfl
    | cons c s =>
      rw [openQuote_cons, (hs c List.mem_cons_self).2]
      rfl
  have hdrop : Unbroken (s.dropWhile inName) := fun a ha => hs a ((List.dropWhile_sublist _).mem ha)
  unfold keyAt
  rw [hopen]
  simp only
  by_cases hempty : (s.takeWhile inName).isEmpty = true
  · rw [if_pos hempty, if_pos hempty]
  · rw [if_neg hempty, if_neg hempty]
    have hclose : closeQuote [] (s.dropWhile inName) = some ([], s.dropWhile inName) := rfl
    rw [hclose]
    dsimp only
    rw [separator_unbroken _ hdrop]
    cases s.dropWhile inName with
    | nil => rfl
    | cons d r =>
      dsimp only
      by_cases hd : isSep (char d) = true
      · rw [if_pos hd, if_pos hd]
        simp
      · rw [if_neg hd, if_neg hd]

theorem keyAt_unbroken_some {s key name rest : List α} (hs : Unbroken s) (h : keyAt s = some (key, name, rest)) :
    ∃ d, key = name ++ [d] ∧ s = name ++ d :: rest ∧ isSep (char d) = true ∧ ∀ a ∈ name, inName a = true := by
  rw [keyAt_unbroken hs] at h
  by_cases hempty : (s.takeWhile inName).isEmpty = true
  · rw [if_pos hempty] at h
    cases h
  · rw [if_neg hempty] at h
    have hspan := List.takeWhile_append_dropWhile (p := inName) (l := s)
    cases hd : s.dropWhile inName with
    | nil =>
      rw [hd] at h
      cases h
    | cons d r =>
      rw [hd] at h hspan
      dsimp only at h
      by_cases hsep : isSep (char d) = true
      · rw [if_pos hsep] at h
        obtain ⟨rfl, he⟩ := Prod.mk.inj (Option.some.inj h)
        obtain ⟨rfl, rfl⟩ := Prod.mk.inj he
        exact ⟨d, rfl, hspan.symm, hsep, fun a ha => List.mem_takeWhile_imp ha⟩
      · rw [if_neg hsep] at h
        cases h

/-- no key without a separator -/
theorem keyAt_noSep {s t : List α} {a : α} (hs : Unbroken s) (hsep : ∀ b ∈ s, isSep (char b) = false)
    (hlast : s.getLast? = some a) (hj : Joint a t) : keyAt (s ++ t) = none := by
  rw [keyAt_joint hlast hj]
  cases hk : keyAt s with
  | none => rfl
  | some r =>
    obtain ⟨key, name, rest⟩ := r
    obtain ⟨d, -, he, hd, -⟩ := keyAt_unbroken_some hs hk
    rw [hsep d (by rw [he]; simp)] at hd
    cases hd

/-- up to a character that no match goes over, an unbroken text without separators is copied -/
theorem scan_noSep {w t : List α} {a : α} (hw : Unbroken (w ++ [a])) (hsep : ∀ b ∈ w ++ [a], isSep (char b) = false)
    (hj : Joint a t) (after : Bool) : scan after (w ++ a :: t) = w ++ a :: scan false t := by
  induction w generalizing after with
  | nil =>
    have hnone : keyAt (a :: t) = none := keyAt_noSep hw hsep rfl hj
    rw [List.nil_append, scan_skip (Or.inr hnone), hj.notName]
    rfl
  | cons c w ih =>
    have hlast : (c :: w ++ [a]).getLast? = some a := List.getLast?_concat
    have hnone : keyAt (c :: w ++ [a] ++ t) = none := keyAt_noSep hw hsep hlast hj
    rw [List.append_assoc] at hnone
    have hnone : keyAt (c :: (w ++ a :: t)) = none := hnone
    rw [List.cons_append, scan_skip (Or.inr hnone), ih (fun b hb => hw b (List.mem_cons_of_mem _ hb))
      fun b hb => hsep b (List.mem_cons_of_mem _ hb)]
    rfl

/-- only quotes are closed -/
theorem standingFrom_congr {closes closes' : Char → Bool → Bool}
    (h : ∀ q e, isQuote q = true → closes q e = closes' q e) (n : ℕ) (after : Bool) (s : List α) :
    standingFrom closes n after s = standingFrom closes' n after s := by
  have hopen : ∀ rest : List α, openIn closes rest = openIn closes' rest := by
    intro rest
    cases rest with
    | nil => rfl
    | cons c rest =>
      unfold openIn
      simp only
      split
      · rename_i hc
        cases openAfter (char c) false rest with
        | none => rfl
        | some e => simp only [h _ e hc]
      · rfl
  induction n generalizing after s with
  | zero => rfl
  | succ n ih =>
    cases s with
    | nil => rfl
    | cons c s =>
      rw [standingFrom, standingFrom]
      simp only [hopen, ih]

/-! ## inside a value -/

theorem openAfter_append (q : Char) (esc : Bool) (s t : List α) :
    openAfter q esc (s ++ t) = (openAfter q esc s).bind fun esc => openAfter q esc t := by
  induction s generalizing esc with
  | nil => rfl
  | cons c s ih =>
    rw [List.cons_append]
    cases esc with
    | true =>
      rw [openAfter_esc, openAfter_esc, ih]
      split <;> rfl
    | false =>
      rw [openAfter_cons, openAfter_cons, ih]
      split <;> rfl

theorem closing_none {q : Char} {esc e : Bool} {s : List α} (h : openAfter q esc s = some e) :
    closing q esc s = none := by
  induction s generalizing esc with
  | nil => cases esc <;> rfl
  | cons c s ih =>
    cases esc with
    | true =>
      rw [openAfter_esc] at h
      rw [closing_esc]
      split at h
      · cases h
      · rename_i hc
        rw [if_neg hc, ih h]
        rfl
    | false =>
      rw [openAfter_cons] at h
      rw [closing_cons]
      split at h
      · cases h
      · rename_i hc
        rw [if_neg hc, ih h]
        rfl

/-- a value in quotes goes on over a text that leaves it open -/
theorem closing_over {q : Char} {esc e : Bool} {m : List α} (h : openAfter q esc m = some e) (t : List α) :
    closing q esc (m ++ t) = (closing q e t).map fun r => (m ++ r.1, r.2) := by
  rw [closing_append, closing_none h, h]

/-- a value without quotes goes on to the next blank -/
theorem value_within (out : List α) {raw : List α} {z : α} (t : List α) (hz : blank z = false)
    (hq : raw = [] → isQuote (char z) = false) :
    (Standing.within out raw).value (z :: t) = some ((z :: t).takeWhile notBlank, (z :: t).dropWhile notBlank) := by
  cases raw with
  | cons c raw => rfl
  | nil =>
    show valueAt (z :: t) = _
    rw [valueAt_cons, hq rfl]
    refine unquoted_eq ?_
    rw [List.takeWhile_cons_of_pos (by simp [notBlank, hz])]
    simp

/-- a text without the quote and without a line end -/
theorem openAfter_line {q : Char} {m : List α} (hm : ∀ a ∈ m, char a ≠ q ∧ char a ≠ '\n') (esc : Bool) :
    ∃ e, openAfter q esc m = some e := by
  induction m generalizing esc with
  | nil => exact ⟨esc, rfl⟩
  | cons c m ih =>
    have hm' : ∀ a ∈ m, char a ≠ q ∧ char a ≠ '\n' := fun a ha => hm a (List.mem_cons_of_mem _ ha)
    obtain ⟨hq, hn⟩ := hm c List.mem_cons_self
    cases esc with
    | true =>
      rw [openAfter_esc, if_neg hn]
      exact ih hm' _
    | false =>
      rw [openAfter_cons, if_neg hq]
      exact ih hm' _

/-- a text without the quote and without a backslash -/
theorem openAfter_free {q : Char} {m : List α} (hm : ∀ a ∈ m, char a ≠ q ∧ char a ≠ '\\') :
    openAfter q false m = some false := by
  induction m with
  | nil => rfl
  | cons c m ih =>
    obtain ⟨hq, hb⟩ := hm c List.mem_cons_self
    rw [openAfter_cons, if_neg hq, decide_eq_false hb]
    exact ih fun a ha => hm a (List.mem_cons_of_mem _ ha)

/-- whether `t` closes a value in quotes, where what precedes it does not -/
def closesIn (t : List α) (q : Char) (_ : Bool) : Bool := (closing q false t).isSome

theorem quoteOf_append {raw m body : List α} (hraw : raw ≠ []) (hbody : body ≠ []) :
    quoteOf (raw ++ m ++ body) = quoteOf (raw ++ body) := by
  obtain ⟨c, raw, rfl⟩ := List.exists_cons_of_ne_nil hraw
  have hpos := List.length_pos_iff.mpr hbody
  have hlast : ∀ u : List α, (c :: (u ++ body)).getLast? = body.getLast? := fun u =>
    List.getLast?_append_of_ne_nil (c :: u) hbody
  have hlast' := hlast (raw ++ m)
  have hlast'' := hlast raw
  simp only [List.cons_append, quoteOf, hlast', hlast'', List.length_cons, List.length_append]
  cases body.getLast? with
  | none => rfl
  | some d =>
    have hlong : 1 < raw.length + m.length + body.length + 1 ∧ 1 < raw.length + body.length + 1 := by omega
    simp only [hlong.1, hlong.2, true_and]

theorem quoteOf_unquoted {raw : List α} {a : α} (hlast : raw.getLast? = some a) (ha : isQuote (char a) = false) :
    quoteOf raw = [] := by
  cases raw with
  | nil => rfl
  | cons c raw =>
    unfold quoteOf
    rw [hlast]
    simp only
    rw [if_neg]
    rintro ⟨-, hc, he⟩
    rw [he, hc] at ha
    cases ha

/-- in a value without quotes, of which nothing need be there yet -/
def Standing.bare : Standing α → Bool
  | .within _ _ => true
  | _ => false

end
end Redaction
end BackupHelper
