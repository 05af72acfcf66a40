import BackupHelper.Redaction
import Mathlib.Data.List.TakeWhile

/-!
# The scan, step by step

* `scan`, `scan_cons`    the scan without a bound on its steps;
* `Standing`, `standing` how the scan of a text stands where the text ends;
* `standingFrom_goOn`    **the scan of a text that goes on**.
-/

namespace BackupHelper
namespace Redaction
open Text

section
variable {α : Type}

/-! ## spans -/

theorem span_append {p : α → Bool} {s t : List α} (h : s.dropWhile p ≠ [] ∨ t.takeWhile p = []) :
    (s ++ t).takeWhile p = s.takeWhile p ∧ (s ++ t).dropWhile p = s.dropWhile p ++ t := by
  induction s with
  | nil =>
    have ht := h.resolve_left fun hne => hne rfl
    refine ⟨ht, ?_⟩
    have hwhole := List.takeWhile_append_dropWhile (p := p) (l := t)
    rw [ht] at hwhole
    exact hwhole
  | cons c s ih =>
    by_cases hc : p c = true
    · rw [List.dropWhile_cons_of_pos hc] at h
      obtain ⟨h1, h2⟩ := ih h
      rw [List.cons_append, List.takeWhile_cons_of_pos hc, List.dropWhile_cons_of_pos hc,
        List.takeWhile_cons_of_pos hc, List.dropWhile_cons_of_pos hc, h1, h2]
      exact ⟨rfl, rfl⟩
    · rw [List.cons_append, List.takeWhile_cons_of_neg hc, List.dropWhile_cons_of_neg hc,
        List.takeWhile_cons_of_neg hc, List.dropWhile_cons_of_neg hc]
      exact ⟨rfl, rfl⟩

/-- what stops the span is at the end at the latest -/
theorem dropWhile_last {p : α → Bool} {s : List α} {a : α} (h : s.getLast? = some a) (hp : p a = false) :
    s.dropWhile p ≠ [] ∧ (s.dropWhile p).getLast? = some a := by
  induction s with
  | nil => cases h
  | cons c s ih =>
    by_cases hc : p c = true
    · rw [List.dropWhile_cons_of_pos hc]
      cases s with
      | nil =>
        have he : c = a := by simpa using h
        rw [he, hp] at hc
        cases hc
      | cons d s => exact ih h
    · rw [List.dropWhile_cons_of_neg hc]
      exact ⟨by simp, h⟩

theorem dropWhile_getLast {p : α → Bool} {s : List α} {a : α} (h : s.getLast? = some a)
    (hne : s.dropWhile p ≠ []) : (s.dropWhile p).getLast? = some a := by
  have hwhole := List.takeWhile_append_dropWhile (p := p) (l := s)
  rw [← hwhole, List.getLast?_append_of_ne_nil _ hne] at h
  exact h

theorem takeWhile_all {p : α → Bool} {u w : List α} (hu : ∀ a ∈ u, p a = true)
    (hw : ∀ a ∈ w.head?, p a = false) : (u ++ w).takeWhile p = u ∧ (u ++ w).dropWhile p = w := by
  have hstop : w.takeWhile p = [] ∧ w.dropWhile p = w := by
    cases w with
    | nil => exact ⟨rfl, rfl⟩
    | cons a w =>
      have ha := hw a rfl
      exact ⟨List.takeWhile_cons_of_neg (by simp [ha]), List.dropWhile_cons_of_neg (by simp [ha])⟩
  obtain ⟨htake, hdrop⟩ := span_append (s := u) (Or.inr hstop.1)
  have hall : u.dropWhile p = [] := List.dropWhile_eq_nil_iff.mpr hu
  have hwhole := List.takeWhile_append_dropWhile (p := p) (l := u)
  rw [hall, List.append_nil] at hwhole
  rw [htake, hdrop, hwhole, hall]
  exact ⟨rfl, rfl⟩

end

section
variable {α : Type} [Letter α]
open Letter

theorem char_self (c : Char) : char c = c := rfl

/-! ## what the patterns take -/

/-- the last character is a blank or a separator -/
def EndsInSep (s : List α) : Prop := ∃ a, s.getLast? = some a ∧ (blank a = true ∨ isSep (char a) = true)

theorem separator_some {s sep rest : List α} (h : separator s = some (sep, rest)) :
    sep ++ rest = s ∧ EndsInSep sep ∧ ∀ a ∈ rest.head?, blank a = false := by
  unfold separator at h
  split at h
  · cases h
  · rename_i c r hdrop
    split at h
    · rename_i hc
      obtain ⟨rfl, rfl⟩ := Prod.mk.inj (Option.some.inj h)
      refine ⟨?_, ?_, fun a ha => ?_⟩
      · rw [List.append_assoc, List.cons_append, List.takeWhile_append_dropWhile, ← hdrop,
          List.takeWhile_append_dropWhile]
      · unfold EndsInSep
        rw [List.getLast?_append_of_ne_nil _ (by simp)]
        cases hl : (r.takeWhile blank).getLast? with
        | none =>
          rw [List.getLast?_eq_none_iff.mp hl]
          exact ⟨c, rfl, Or.inr hc⟩
        | some b =>
          have hmem : b ∈ r.takeWhile blank := List.mem_of_getLast? hl
          refine ⟨b, ?_, Or.inl (List.mem_takeWhile_imp hmem)⟩
          rw [List.getLast?_cons, hl]
          rfl
      · have hnot := List.head?_dropWhile_not blank r
        rw [ha] at hnot
        simpa using hnot
    · cases h

theorem closeQuote_some {q s q' rest : List α} (h : closeQuote q s = some (q', rest)) : q' ++ rest = s := by
  unfold closeQuote at h
  split at h
  · obtain ⟨rfl, rfl⟩ := Prod.mk.inj (Option.some.inj h)
    rfl
  · cases h
  · split at h
    · obtain ⟨rfl, rfl⟩ := Prod.mk.inj (Option.some.inj h)
      rfl
    · cases h

theorem openQuote_cons (c : α) (s : List α) :
    openQuote (c :: s) = if isQuote (char c) then ([c], s) else ([], c :: s) := rfl

theorem openQuote_append (s : List α) : (openQuote s).1 ++ (openQuote s).2 = s := by
  unfold openQuote
  split
  · rfl
  · split <;> rfl

theorem EndsInSep.ne_nil {s : List α} (h : EndsInSep s) : s ≠ [] := by
  rintro rfl
  obtain ⟨a, ha, -⟩ := h
  cases ha

theorem keyAt_some {s key name rest : List α} (h : keyAt s = some (key, name, rest)) :
    key ++ rest = s ∧ EndsInSep key ∧ ∀ a ∈ rest.head?, blank a = false := by
  unfold keyAt at h
  simp only at h
  split at h
  · cases h
  · split at h
    · cases h
    · rename_i q' s' hclose
      split at h
      · cases h
      · rename_i sep rest' hsep
        obtain ⟨rfl, he⟩ := Prod.mk.inj (Option.some.inj h)
        obtain ⟨-, rfl⟩ := Prod.mk.inj he
        obtain ⟨happ, hlast, hhead⟩ := separator_some hsep
        refine ⟨?_, ?_, hhead⟩
        · rw [List.append_assoc, happ, List.append_assoc, closeQuote_some hclose, List.append_assoc,
            List.takeWhile_append_dropWhile, openQuote_append]
        · unfold EndsInSep
          rw [List.getLast?_append_of_ne_nil _ hlast.ne_nil]
          exact hlast

theorem unquoted_some {s raw rest : List α} (h : unquoted s = some (raw, rest)) :
    raw = s.takeWhile notBlank ∧ rest = s.dropWhile notBlank ∧ raw ≠ [] := by
  unfold unquoted at h
  split at h
  · cases h
  · rename_i hne
    obtain ⟨rfl, rfl⟩ := Prod.mk.inj (Option.some.inj h)
    exact ⟨rfl, rfl, by simpa using hne⟩

theorem valueAt_cons (c : α) (s : List α) : valueAt (c :: s) =
    if isQuote (char c) then
      match closing (char c) false s with
      | some (body, rest) => some (c :: body, rest)
      | none => unquoted (c :: s)
    else unquoted (c :: s) := rfl

theorem closing_some {q : Char} {esc : Bool} {s body rest : List α} (h : closing q esc s = some (body, rest)) :
    body ++ rest = s ∧ body ≠ [] := by
  induction s generalizing esc body with
  | nil => cases esc <;> cases h
  | cons c s ih =>
    cases esc with
    | true =>
      unfold closing at h
      split at h
      · cases h
      · obtain ⟨⟨b, r⟩, hr, he⟩ := Option.map_eq_some_iff.mp h
        obtain ⟨rfl, rfl⟩ := Prod.mk.inj he
        exact ⟨congrArg (c :: ·) (ih hr).1, by simp⟩
    | false =>
      unfold closing at h
      split at h
      · obtain ⟨rfl, rfl⟩ := Prod.mk.inj (Option.some.inj h)
        exact ⟨rfl, by simp⟩
      · obtain ⟨⟨b, r⟩, hr, he⟩ := Option.map_eq_some_iff.mp h
        obtain ⟨rfl, rfl⟩ := Prod.mk.inj he
        exact ⟨congrArg (c :: ·) (ih hr).1, by simp⟩

theorem valueAt_some {s raw rest : List α} (h : valueAt s = some (raw, rest)) : raw ++ rest = s ∧ raw ≠ [] := by
  have hunquoted : ∀ {s raw rest : List α}, unquoted s = some (raw, rest) → raw ++ rest = s ∧ raw ≠ [] := by
    intro s raw rest h
    obtain ⟨rfl, rfl, hne⟩ := unquoted_some h
    exact ⟨List.takeWhile_append_dropWhile, hne⟩
  unfold valueAt at h
  split at h
  · cases h
  · split at h
    · split at h
      · rename_i body rest' hclose
        obtain ⟨rfl, rfl⟩ := Prod.mk.inj (Option.some.inj h)
        exact ⟨congrArg (_ :: ·) (closing_some hclose).1, by simp⟩
      · exact hunquoted h
    · exact hunquoted h

/-! ## the scan without a bound -/

/-- the value that is masked after a key -/
def valueOf (name rest : List α) : Option (List α × List α) :=
  if isSensitiveKey (name.map char) then valueAt rest else none

theorem valueOf_some {name s raw rest : List α} (h : valueOf name s = some (raw, rest)) :
    raw ++ rest = s ∧ raw ≠ [] := by
  unfold valueOf at h
  split at h
  · exact valueAt_some h
  · cases h

/-- one step: what is written, whether it ends in a character of a name, and what is left -/
def step (after : Bool) (c : α) (s : List α) : List α × Bool × List α :=
  match (if after then none else keyAt (c :: s)) with
  | none => ([c], inName c, s)
  | some (key, name, rest) =>
    match valueOf name rest with
    | none => (key, endsInName key, rest)
    | some (raw, rest) => (key ++ masked raw, endsInName raw, rest)

theorem maskFrom_succ (n : ℕ) (after : Bool) (c : α) (s : List α) : maskFrom (n + 1) after (c :: s) =
    (step after c s).1 ++ maskFrom n (step after c s).2.1 (step after c s).2.2 := by
  have hunfold : maskFrom (n + 1) after (c :: s) =
      match (if after then none else keyAt (c :: s)) with
      | none => c :: maskFrom n (inName c) s
      | some (key, name, rest) =>
        match valueOf name rest with
        | none => key ++ maskFrom n (endsInName key) rest
        | some (raw, rest) => key ++ masked raw ++ maskFrom n (endsInName raw) rest := rfl
  rw [hunfold]
  unfold step
  cases (if after then none else keyAt (c :: s)) with
  | none => rfl
  | some r =>
    obtain ⟨key, name, rest⟩ := r
    simp only
    cases valueOf name rest with
    | none => rfl
    | some v => rfl

theorem step_length (after : Bool) (c : α) (s : List α) : (step after c s).2.2.length ≤ s.length := by
  unfold step
  cases hkey : (if after then none else keyAt (c :: s)) with
  | none => exact le_rfl
  | some r =>
    obtain ⟨key, name, rest⟩ := r
    have hk : keyAt (c :: s) = some (key, name, rest) := by
      split at hkey
      · cases hkey
      · exact hkey
    obtain ⟨happ, hlast, -⟩ := keyAt_some hk
    have hlen : key.length + rest.length = s.length + 1 := by
      rw [← List.length_append, happ, List.length_cons]
    have hpos := List.length_pos_iff.mpr hlast.ne_nil
    simp only
    cases hvalue : valueOf name rest with
    | none =>
      show rest.length ≤ s.length
      omega
    | some v =>
      have hlen' : v.1.length + v.2.length = rest.length := by
        have happ : v.1 ++ v.2 = rest := (valueOf_some hvalue).1
        rw [← List.length_append, happ]
      show v.2.length ≤ s.length
      omega

theorem maskFrom_stable {n m : ℕ} {after : Bool} {s : List α} (hn : s.length ≤ n) (hm : s.length ≤ m) :
    maskFrom n after s = maskFrom m after s := by
  induction n generalizing m after s with
  | zero =>
    obtain rfl := List.length_eq_zero_iff.mp (Nat.le_zero.mp hn)
    cases m <;> rfl
  | succ n ih =>
    cases s with
    | nil => cases m <;> rfl
    | cons c s =>
      cases m with
      | zero => simp at hm
      | succ m =>
        rw [List.length_cons] at hn hm
        have hlen := step_length after c s
        rw [maskFrom_succ, maskFrom_succ, ih (m := m) (by omega) (by omega)]

/-- the scan to the end of the text -/
def scan (after : Bool) (s : List α) : List α := maskFrom s.length after s

theorem maskPairs_eq (s : List α) : maskPairs s = scan false s := rfl

theorem scan_cons (after : Bool) (c : α) (s : List α) :
    scan after (c :: s) = (step after c s).1 ++ scan (step after c s).2.1 (step after c s).2.2 := by
  show maskFrom (s.length + 1) after (c :: s) = _
  rw [maskFrom_succ, maskFrom_stable (step_length after c s) le_rfl]
  rfl

/-- nothing begins here -/
theorem scan_skip {after : Bool} {c : α} {s : List α} (h : after = true ∨ keyAt (c :: s) = none) :
    scan after (c :: s) = c :: scan (inName c) s := by
  have hkey : (if after then none else keyAt (c :: s)) = none := by
    rcases h with rfl | h
    · rfl
    · rw [h]
      split <;> rfl
  rw [scan_cons]
  unfold step
  rw [hkey]
  rfl

theorem scan_key {c : α} {s key name rest : List α} (hkey : keyAt (c :: s) = some (key, name, rest))
    (hvalue : valueOf name rest = none) : scan false (c :: s) = key ++ scan (endsInName key) rest := by
  rw [scan_cons]
  unfold step
  simp only [hkey, hvalue, Bool.false_eq_true, if_false]

theorem scan_value {c : α} {s key name rest raw rest' : List α} (hkey : keyAt (c :: s) = some (key, name, rest))
    (hvalue : valueOf name rest = some (raw, rest')) :
    scan false (c :: s) = key ++ masked raw ++ scan (endsInName raw) rest' := by
  rw [scan_cons]
  unfold step
  simp only [hkey, hvalue, Bool.false_eq_true, if_false]

/-! ## how the scan stands where a text ends -/

/-- the state of a quoted value that `s` does not close: whether a backslash comes last -/
def openAfter (q : Char) : Bool → List α → Option Bool
  | esc, [] => some esc
  | true, c :: s => if char c = '\n' then none else openAfter q false s
  | false, c :: s => if char c = q then none else openAfter q (char c = '\\') s

theorem closing_esc (q : Char) (c : α) (s : List α) : closing q true (c :: s) =
    if char c = '\n' then none else (closing q false s).map (fun r => (c :: r.1, r.2)) := rfl

theorem closing_cons (q : Char) (c : α) (s : List α) : closing q false (c :: s) =
    if char c = q then some ([c], s)
    else (closing q (char c = '\\') s).map (fun r => (c :: r.1, r.2)) := rfl

theorem openAfter_esc (q : Char) (c : α) (s : List α) : openAfter q true (c :: s) =
    if char c = '\n' then none else openAfter q false s := rfl

theorem openAfter_cons (q : Char) (c : α) (s : List α) : openAfter q false (c :: s) =
    if char c = q then none else openAfter q (char c = '\\') s := rfl

theorem closing_append (q : Char) (esc : Bool) (s t : List α) : closing q esc (s ++ t) =
    match closing q esc s with
    | some (body, rest) => some (body, rest ++ t)
    | none =>
      match openAfter q esc s with
      | none => none
      | some esc => (closing q esc t).map fun r => (s ++ r.1, r.2) := by
  induction s generalizing esc with
  | nil =>
    show closing q esc t = _
    cases esc <;> cases hc : closing q _ t <;> simp [closing, openAfter, hc]
  | cons c s ih =>
    have hmap : ∀ e, (closing q e (s ++ t)).map (fun r => (c :: r.1, r.2)) =
        match (closing q e s).map (fun r => (c :: r.1, r.2)) with
        | some (body, rest) => some (body, rest ++ t)
        | none =>
          match openAfter q e s with
          | none => none
          | some e => (closing q e t).map fun r => (c :: s ++ r.1, r.2) := by
      intro e
      rw [ih e]
      cases closing q e s with
      | some r => rfl
      | none =>
        cases openAfter q e s with
        | none => rfl
        | some e' =>
          show Option.map _ (Option.map _ (closing q e' t)) = _
          rw [Option.map_map]
          rfl
    rw [List.cons_append]
    cases esc with
    | true =>
      rw [closing_esc, closing_esc, openAfter_esc]
      by_cases hc : char c = '\n'
      · rw [if_pos hc, if_pos hc, if_pos hc]
      · rw [if_neg hc, if_neg hc, if_neg hc]
        exact hmap false
    | false =>
      rw [closing_cons, closing_cons, openAfter_cons]
      by_cases hc : char c = q
      · rw [if_pos hc, if_pos hc]
      · rw [if_neg hc, if_neg hc, if_neg hc]
        exact hmap _

inductive Standing (α : Type) where
  /-- the end is reached; a key may begin there unless `after` -/
  | reached (out : List α) (after : Bool)
  /-- the end is in a value without quotes, of which there is `raw` -/
  | within (out raw : List α)
  /-- the end is in a value in quotes, of which there is `raw` -/
  | quoted (out raw : List α) (q : Char) (esc : Bool)

def Standing.add (out : List α) : Standing α → Standing α
  | .reached out' after => .reached (out ++ out') after
  | .within out' raw => .within (out ++ out') raw
  | .quoted out' raw q esc => .quoted (out ++ out') raw q esc

/-- a value in quotes that ends in `s` -/
def closedIn : List α → Option (List α × List α)
  | [] => none
  | c :: s => if isQuote (char c) then (closing (char c) false s).map (fun r => (c :: r.1, r.2)) else none

/-- a value in quotes that `s` leaves open, if what follows closes it -/
def openIn (closes : Char → Bool → Bool) : List α → Option (Char × Bool)
  | [] => none
  | c :: s =>
    if isQuote (char c) then
      match openAfter (char c) false s with
      | some esc => if closes (char c) esc then some (char c, esc) else none
      | none => none
    else none

/-- `closes` says whether what follows closes a value in quotes -/
def standingFrom (closes : Char → Bool → Bool) : ℕ → Bool → List α → Standing α
  | 0, after, s => .reached s after
  | _ + 1, after, [] => .reached [] after
  | n + 1, after, c :: s =>
    match (if after then none else keyAt (c :: s)) with
    | none => (standingFrom closes n (inName c) s).add [c]
    | some (key, name, rest) =>
      if isSensitiveKey (name.map char) then
        match closedIn rest with
        | some (raw, rest) => (standingFrom closes n (endsInName raw) rest).add (key ++ masked raw)
        | none =>
          match openIn closes rest with
          | some (q, esc) => .quoted key rest q esc
          | none =>
            if (rest.dropWhile notBlank).isEmpty then .within key rest
            else (standingFrom closes n (endsInName (rest.takeWhile notBlank)) (rest.dropWhile notBlank)).add
              (key ++ masked (rest.takeWhile notBlank))
      else (standingFrom closes n (endsInName key) rest).add key

def standing (closes : Char → Bool → Bool) (after : Bool) (s : List α) : Standing α :=
  standingFrom closes s.length after s

/-- what has been written -/
def Standing.out : Standing α → List α
  | .reached out _ => out
  | .within out _ => out
  | .quoted out _ _ _ => out

/-- what there is of the value -/
def Standing.raw : Standing α → List α
  | .reached _ _ => []
  | .within _ raw => raw
  | .quoted _ raw _ _ => raw

/-- whether a character of a name precedes -/
def Standing.after : Standing α → Bool
  | .reached _ after => after
  | _ => false

/-- what the value goes on over, and what follows; where the end is the beginning of a value, it may be one in
quotes -/
def Standing.value (t : List α) : Standing α → Option (List α × List α)
  | .reached _ _ => none
  | .within _ [] => valueAt t
  | .within _ (_ :: _) => some (t.takeWhile notBlank, t.dropWhile notBlank)
  | .quoted _ _ q esc => closing q esc t

/-- what the scan has written where the value ends, and what it writes for what follows -/
def Standing.resume (t : List α) (st : Standing α) : List α × List α :=
  match st.value t with
  | some (v, rest) => (st.out ++ masked (st.raw ++ v), scan (endsInName (st.raw ++ v)) rest)
  | none => (st.out, scan st.after t)

/-- what the scan of the whole text writes -/
def Standing.goOn (t : List α) (st : Standing α) : List α := (st.resume t).1 ++ (st.resume t).2

theorem resume_none {t : List α} {st : Standing α} (h : st.value t = none) :
    st.resume t = (st.out, scan st.after t) := by
  unfold Standing.resume
  rw [h]

theorem resume_some {t v rest : List α} {st : Standing α} (h : st.value t = some (v, rest)) :
    st.resume t = (st.out ++ masked (st.raw ++ v), scan (endsInName (st.raw ++ v)) rest) := by
  unfold Standing.resume
  rw [h]

theorem goOn_none {t : List α} {st : Standing α} (h : st.value t = none) :
    st.goOn t = st.out ++ scan st.after t := by
  unfold Standing.goOn
  rw [resume_none h]

theorem goOn_some {t v rest : List α} {st : Standing α} (h : st.value t = some (v, rest)) :
    st.goOn t = st.out ++ masked (st.raw ++ v) ++ scan (endsInName (st.raw ++ v)) rest := by
  unfold Standing.goOn
  rw [resume_some h]

theorem value_add (out t : List α) (st : Standing α) : (st.add out).value t = st.value t := by
  cases st with
  | reached out' after => rfl
  | within out' raw => cases raw <;> rfl
  | quoted out' raw q esc => rfl

theorem goOn_add (out t : List α) (st : Standing α) : (st.add out).goOn t = out ++ st.goOn t := by
  have hout : (st.add out).out = out ++ st.out := by cases st <;> rfl
  have hraw : (st.add out).raw = st.raw := by cases st <;> rfl
  have hafter : (st.add out).after = st.after := by cases st <;> rfl
  have hvalue := value_add out t st
  cases hv : st.value t with
  | none =>
    rw [goOn_none hv, goOn_none (hvalue.trans hv), hout, hafter, List.append_assoc]
  | some v =>
    rw [goOn_some hv, goOn_some (hvalue.trans hv), hout, hraw]
    simp only [List.append_assoc]

/-! ## texts that go on -/

/-- no match goes over the place between a text that ends in `a` and `t` -/
structure Joint (a : α) (t : List α) : Prop where
  notName : inName a = false
  notQuote : isQuote (char a) = false
  notSep : blank a = true → ∀ z ∈ t.head?, isSep (char z) = false
  value : blank a = true ∨ isSep (char a) = true → ∃ z t', t = z :: t' ∧ blank z = false

section
variable {a : α} {s t : List α}

theorem openQuote_joint (hs : s.getLast? = some a) (hj : Joint a t) :
    openQuote (s ++ t) = ((openQuote s).1, (openQuote s).2 ++ t) ∧ (openQuote s).2.getLast? = some a := by
  cases s with
  | nil => cases hs
  | cons c s =>
    rw [List.cons_append, openQuote_cons, openQuote_cons]
    by_cases hc : isQuote (char c) = true
    · rw [if_pos hc, if_pos hc]
      refine ⟨rfl, ?_⟩
      cases s with
      | nil =>
        have he : c = a := by simpa using hs
        rw [he, hj.notQuote] at hc
        cases hc
      | cons d s => exact hs
    · rw [if_neg hc, if_neg hc]
      exact ⟨rfl, hs⟩

theorem separator_joint (hs : s.getLast? = some a) (hj : Joint a t) :
    separator (s ++ t) = (separator s).map fun r => (r.1, r.2 ++ t) := by
  unfold separator
  by_cases hall : s.dropWhile blank = []
  · -- only blanks: what follows is no separator
    have hblank : blank a = true := by
      by_contra hb
      exact (dropWhile_last hs (Bool.not_eq_true _ ▸ hb)).1 hall
    obtain ⟨z, t', rfl, hz⟩ := hj.value (Or.inl hblank)
    have hstop : (z :: t').takeWhile blank = [] := List.takeWhile_cons_of_neg (by simp [hz])
    rw [(span_append (Or.inr hstop)).2, hall]
    have hsep := hj.notSep hblank z rfl
    simp [hsep]
  · obtain ⟨htake, hdrop⟩ := span_append (t := t) (Or.inl hall)
    rw [htake, hdrop]
    have hlast := dropWhile_getLast hs hall
    cases hd : s.dropWhile blank with
    | nil => exact absurd hd hall
    | cons c r =>
      rw [hd] at hlast
      show (if isSep (char c) then _ else none) = Option.map _ (if isSep (char c) then _ else none)
      by_cases hc : isSep (char c) = true
      · rw [if_pos hc, if_pos hc]
        have hspan : r.dropWhile blank ≠ [] ∨ t.takeWhile blank = [] := by
          by_cases hr : r.dropWhile blank = []
          · right
            have hend : blank a = true ∨ isSep (char a) = true := by
              cases r with
              | nil =>
                have he : c = a := by simpa using hlast
                exact Or.inr (he ▸ hc)
              | cons d r =>
                left
                by_contra hb
                exact (dropWhile_last (s := d :: r) hlast (Bool.not_eq_true _ ▸ hb)).1 hr
            obtain ⟨z, t', rfl, hz⟩ := hj.value hend
            exact List.takeWhile_cons_of_neg (by simp [hz])
          · exact Or.inl hr
        obtain ⟨htake', hdrop'⟩ := span_append hspan
        show some (_ ++ c :: (r ++ t).takeWhile blank, (r ++ t).dropWhile blank) = _
        rw [htake', hdrop']
        rfl
      · rw [if_neg hc, if_neg hc]
        rfl

theorem closeQuote_joint (q : List α) (hq : ∀ c ∈ q.head?, isQuote (char c) = true) (hs : s.getLast? = some a)
    (hj : Joint a t) : closeQuote q (s ++ t) = (closeQuote q s).map (fun r => (r.1, r.2 ++ t)) ∧
      ∀ q' r, closeQuote q s = some (q', r) → r.getLast? = some a := by
  cases q with
  | nil => exact ⟨rfl, fun q' r h => by rw [← (Prod.mk.inj (Option.some.inj h)).2]; exact hs⟩
  | cons c q =>
    cases s with
    | nil => cases hs
    | cons d s =>
      show (if char d = char c then _ else none) = Option.map _ (if char d = char c then _ else none) ∧
        ∀ q' r, (if char d = char c then _ else none) = some (q', r) → _
      by_cases hd : char d = char c
      · rw [if_pos hd, if_pos hd]
        refine ⟨rfl, fun q' r h => ?_⟩
        obtain ⟨-, rfl⟩ := Prod.mk.inj (Option.some.inj h)
        cases s with
        | nil =>
          have he : d = a := by simpa using hs
          have hquote := hq c rfl
          rw [← hd, he, hj.notQuote] at hquote
          cases hquote
        | cons e s => exact hs
      · rw [if_neg hd, if_neg hd]
        exact ⟨rfl, fun q' r h => by cases h⟩

/-- no key goes over the place -/
theorem keyAt_joint (hs : s.getLast? = some a) (hj : Joint a t) :
    keyAt (s ++ t) = (keyAt s).map fun r => (r.1, r.2.1, r.2.2 ++ t) := by
  obtain ⟨hopen, hlast⟩ := openQuote_joint hs hj
  unfold keyAt
  rw [hopen]
  simp only
  obtain ⟨hne, hlast'⟩ := dropWhile_last hlast hj.notName
  obtain ⟨htake, hdrop⟩ := span_append (t := t) (Or.inl hne)
  rw [htake, hdrop]
  by_cases hname : ((openQuote s).2.takeWhile inName).isEmpty = true
  · rw [if_pos hname, if_pos hname]
    rfl
  · rw [if_neg hname, if_neg hname]
    have hq : ∀ c ∈ (openQuote s).1.head?, isQuote (char c) = true := by
      intro c hc
      unfold openQuote at hc
      split at hc
      · cases hc
      · split at hc
        · rename_i hquote
          obtain rfl := Option.some.inj hc
          exact hquote
        · cases hc
    obtain ⟨hclose, hrest⟩ := closeQuote_joint (openQuote s).1 hq hlast' hj
    rw [hclose]
    cases hcq : closeQuote (openQuote s).1 ((openQuote s).2.dropWhile inName) with
    | none => rfl
    | some r =>
      obtain ⟨q', r⟩ := r
      show (match separator (r ++ t) with
        | none => none
        | some (sep, rest) => some (_, _, rest)) = _
      rw [separator_joint (hrest q' r hcq) hj]
      cases hsep : separator r with
      | none => simp [hsep]
      | some v => simp [hsep]

end

section
variable {closes : Char → Bool → Bool} {rest t : List α}

theorem valueAt_closed {raw r : List α} (h : closedIn rest = some (raw, r)) :
    valueAt (rest ++ t) = some (raw, r ++ t) := by
  cases rest with
  | nil => cases h
  | cons c s =>
    unfold closedIn at h
    simp only at h
    split at h
    · rename_i hc
      obtain ⟨⟨body, r'⟩, hb, he⟩ := Option.map_eq_some_iff.mp h
      obtain ⟨rfl, rfl⟩ := Prod.mk.inj he
      rw [List.cons_append]
      unfold valueAt
      simp only [hc, if_true]
      rw [closing_append, hb]
    · cases h

theorem valueAt_open (hcloses : ∀ q e, isQuote q = true → closes q e = (closing q e t).isSome) {q : Char} {esc : Bool}
    (hclosed : closedIn rest = none) (h : openIn closes rest = some (q, esc)) :
    ∃ body r, closing q esc t = some (body, r) ∧ valueAt (rest ++ t) = some (rest ++ body, r) := by
  cases rest with
  | nil => cases h
  | cons c s =>
    unfold closedIn at hclosed
    unfold openIn at h
    simp only at hclosed h
    split at h
    · rename_i hc
      rw [if_pos hc] at hclosed
      split at h
      · rename_i e he
        split at h
        · rename_i hyes
          obtain ⟨rfl, rfl⟩ := Prod.mk.inj (Option.some.inj h)
          rw [hcloses _ _ hc] at hyes
          obtain ⟨⟨body, r⟩, hb⟩ := Option.isSome_iff_exists.mp hyes
          refine ⟨body, r, hb, ?_⟩
          rw [List.cons_append]
          unfold valueAt
          simp only [hc, if_true]
          rw [closing_append, Option.map_eq_none_iff.mp hclosed, he]
          simp only [hb]
          rfl
        · cases h
      · cases h
    · cases h

theorem valueAt_unquoted (hcloses : ∀ q e, isQuote q = true → closes q e = (closing q e t).isSome)
    (hclosed : closedIn rest = none) (hopen : openIn closes rest = none) (hne : rest ≠ []) :
    valueAt (rest ++ t) = unquoted (rest ++ t) := by
  cases rest with
  | nil => exact absurd rfl hne
  | cons c s =>
    rw [List.cons_append]
    unfold valueAt
    simp only
    split
    · rename_i hc
      unfold closedIn at hclosed
      unfold openIn at hopen
      simp only [hc, if_true] at hclosed hopen
      have hnone : closing (char c) false (s ++ t) = none := by
        rw [closing_append, Option.map_eq_none_iff.mp hclosed]
        cases he : openAfter (char c) false s with
        | none => rfl
        | some e =>
          rw [he] at hopen
          simp only at hopen
          split at hopen
          · cases hopen
          · rename_i hno
            rw [hcloses _ _ hc, Option.not_isSome_iff_eq_none] at hno
            simp only [hno]
            rfl
      rw [hnone]
    · rfl

end

/-- what does not begin with a blank begins with a value -/
theorem valueAt_exists {z : α} (t : List α) (hz : blank z = false) : ∃ v rest, valueAt (z :: t) = some (v, rest) := by
  have hunq : ∃ v rest, unquoted (z :: t) = some (v, rest) := by
    unfold unquoted
    rw [List.takeWhile_cons_of_pos (by simp [notBlank, hz]), if_neg (by simp)]
    exact ⟨_, _, rfl⟩
  rw [valueAt_cons]
  split
  · cases closing (char z) false t with
    | some r => exact ⟨_, _, rfl⟩
    | none => exact hunq
  · exact hunq

theorem unquoted_eq {s : List α} (h : s.takeWhile notBlank ≠ []) :
    unquoted s = some (s.takeWhile notBlank, s.dropWhile notBlank) := by
  unfold unquoted
  rw [if_neg (by simpa using h)]

section
variable {closes : Char → Bool → Bool} {rest t : List α}
  (hcloses : ∀ q e, isQuote q = true → closes q e = (closing q e t).isSome)
  (hclosed : closedIn rest = none) (hopen : openIn closes rest = none)
include hcloses hclosed hopen

/-- a value without quotes that is not over where `rest` ends -/
theorem valueAt_within (hall : rest.dropWhile notBlank = [])
    (hstart : rest = [] → ∃ z t', t = z :: t' ∧ blank z = false) (key : List α) :
    ∃ v r, valueAt (rest ++ t) = some (rest ++ v, r) ∧ (Standing.within key rest).value t = some (v, r) := by
  cases rest with
  | nil =>
    obtain ⟨z, t', rfl, hz⟩ := hstart rfl
    obtain ⟨v, r, hval⟩ := valueAt_exists t' hz
    exact ⟨v, r, hval, hval⟩
  | cons x rest =>
    have hwhole : (x :: rest).takeWhile notBlank = x :: rest := by
      have h := List.takeWhile_append_dropWhile (p := notBlank) (l := x :: rest)
      rwa [hall, List.append_nil] at h
    have htake : (x :: rest ++ t).takeWhile notBlank = x :: rest ++ t.takeWhile notBlank := by
      rw [List.takeWhile_append, hwhole, if_pos rfl]
    have hdrop : (x :: rest ++ t).dropWhile notBlank = t.dropWhile notBlank := by
      rw [List.dropWhile_append, hall]
      rfl
    have hne : (x :: rest ++ t).takeWhile notBlank ≠ [] := by
      rw [htake]
      exact List.cons_ne_nil _ _
    refine ⟨t.takeWhile notBlank, t.dropWhile notBlank, ?_, rfl⟩
    rw [valueAt_unquoted hcloses hclosed hopen (List.cons_ne_nil x rest), unquoted_eq hne, htake, hdrop]

/-- a value without quotes in front of a blank of `rest` -/
theorem valueAt_spaced (hall : rest.dropWhile notBlank ≠ []) (hhead : ∀ x ∈ rest.head?, blank x = false) :
    valueAt (rest ++ t) = some (rest.takeWhile notBlank, rest.dropWhile notBlank ++ t) := by
  obtain ⟨htake, hdrop⟩ := span_append (t := t) (Or.inl hall)
  cases rest with
  | nil => exact absurd rfl hall
  | cons x rest =>
    have hx : blank x = false := hhead x rfl
    have hne : (x :: rest ++ t).takeWhile notBlank ≠ [] := by
      rw [htake, List.takeWhile_cons_of_pos (by simp [notBlank, hx])]
      exact List.cons_ne_nil _ _
    rw [valueAt_unquoted hcloses hclosed hopen (List.cons_ne_nil x rest), unquoted_eq hne, htake, hdrop]

end

/-- what is left of a text ends as it does -/
theorem last_left {s u rest t : List α} (happ : u ++ rest = s) (hs : ∀ a ∈ s.getLast?, Joint a t) :
    ∀ a ∈ rest.getLast?, Joint a t := by
  intro a ha
  have hne : rest ≠ [] := by
    rintro rfl
    cases ha
  refine hs a ?_
  rw [← happ, List.getLast?_append_of_ne_nil _ hne]
  exact ha

/-- **The scan of a text that goes on** -/
theorem standingFrom_goOn {closes : Char → Bool → Bool} {t : List α}
    (hcloses : ∀ q e, isQuote q = true → closes q e = (closing q e t).isSome) {n : ℕ} {after : Bool} {s : List α}
    (hn : s.length ≤ n) (hs : ∀ a ∈ s.getLast?, Joint a t) :
    scan after (s ++ t) = (standingFrom closes n after s).goOn t := by
  induction n generalizing after s with
  | zero =>
    obtain rfl := List.length_eq_zero_iff.mp (Nat.le_zero.mp hn)
    rfl
  | succ n ih =>
    cases s with
    | nil => rfl
    | cons c s =>
      rw [List.length_cons] at hn
      obtain ⟨a, ha⟩ : ∃ a, (c :: s).getLast? = some a := ⟨_, List.getLast?_eq_some_getLast (by simp)⟩
      have hkeyAt := keyAt_joint ha (hs a ha)
      rw [List.cons_append] at hkeyAt ⊢
      unfold standingFrom
      cases hkey : (if after then none else keyAt (c :: s)) with
      | none =>
        have hskip : after = true ∨ keyAt (c :: (s ++ t)) = none := by
          cases after with
          | true => exact Or.inl rfl
          | false =>
            right
            have hnone : keyAt (c :: s) = none := hkey
            rw [hkeyAt, hnone]
            rfl
        rw [scan_skip hskip, ih (by omega) (last_left (u := [c]) rfl hs)]
        exact (goOn_add [c] t _).symm
      | some r =>
        obtain ⟨key, name, rest⟩ := r
        obtain ⟨rfl, hk⟩ : after = false ∧ keyAt (c :: s) = some (key, name, rest) := by
          cases after with
          | true => cases hkey
          | false => exact ⟨rfl, hkey⟩
        obtain ⟨happ, hend, hhead⟩ := keyAt_some hk
        have hpos := List.length_pos_iff.mpr hend.ne_nil
        have hlen : key.length + rest.length = s.length + 1 := by
          rw [← List.length_append, happ, List.length_cons]
        have hrest := last_left happ hs
        rw [hk] at hkeyAt
        have hkeyAt' : keyAt (c :: (s ++ t)) = some (key, name, rest ++ t) := hkeyAt
        simp only
        by_cases hsens : isSensitiveKey (name.map char) = true
        · rw [if_pos hsens]
          have hvalue : valueOf name (rest ++ t) = valueAt (rest ++ t) := by
            unfold valueOf
            rw [if_pos hsens]
          cases hclosed : closedIn rest with
          | some v =>
            obtain ⟨raw, r⟩ := v
            have hval : valueAt rest = some (raw, r) := by
              have h := valueAt_closed (t := []) hclosed
              rwa [List.append_nil, List.append_nil] at h
            have hraw := (valueAt_some hval).1
            have hlen' : raw.length + r.length = rest.length := by
              rw [← List.length_append, hraw]
            rw [scan_value hkeyAt' (hvalue.trans (valueAt_closed hclosed)),
              ih (by omega) (last_left hraw hrest)]
            exact (goOn_add _ t _).symm
          | none =>
            simp only
            cases hopen : openIn closes rest with
            | some v =>
              obtain ⟨q, esc⟩ := v
              obtain ⟨body, r, hclose, hval⟩ := valueAt_open hcloses hclosed hopen
              rw [scan_value hkeyAt' (hvalue.trans hval)]
              have hvalueOn : (Standing.quoted key rest q esc).value t = some (body, r) := hclose
              exact (goOn_some hvalueOn).symm
            | none =>
              simp only
              by_cases hall : rest.dropWhile notBlank = []
              · -- at the end of the key its value begins
                have hstart : rest = [] → ∃ z t', t = z :: t' ∧ blank z = false := by
                  rintro rfl
                  obtain ⟨b, hb, hsep⟩ := hend
                  rw [List.append_nil] at happ
                  exact (hs b (happ ▸ hb)).value hsep
                obtain ⟨v, r, hval, hvalueOn⟩ := valueAt_within hcloses hclosed hopen hall hstart key
                rw [scan_value hkeyAt' (hvalue.trans hval), hall, if_pos List.isEmpty_nil]
                exact (goOn_some hvalueOn).symm
              · have hspan := List.takeWhile_append_dropWhile (p := notBlank) (l := rest)
                have hlen' : (rest.takeWhile notBlank).length + (rest.dropWhile notBlank).length = rest.length := by
                  rw [← List.length_append, hspan]
                rw [scan_value hkeyAt' (hvalue.trans (valueAt_spaced hcloses hclosed hopen hall hhead)),
                  if_neg (by simpa using hall), ih (by omega) (last_left hspan hrest)]
                exact (goOn_add _ t _).symm
        · rw [if_neg hsens]
          have hvalue : valueOf name (rest ++ t) = none := by
            unfold valueOf
            rw [if_neg hsens]
          rw [scan_key hkeyAt' hvalue, ih (by omega) hrest]
          exact (goOn_add key t _).symm

end
end Redaction
end BackupHelper
