import BackupHelper.Redaction.Standing
import BackupHelper.Redaction.Dsns

/-!
# What the redaction of a pair reveals

A pair `k + s + v` of a sensitive key, a separator and a value, with any text before and after it.

* `IsSeparator`, `IsValue`    the separator, and the value;
* `scan_pair`                 outside of values the pair is masked;
* `redact_pair`               **the output tells nothing of the value, but where such a value ends in the name**.
-/

namespace BackupHelper
namespace Redaction
open Text Letter

/-- white space around one `=` or `:` -/
def IsSeparator (s : Str) : Prop :=
  ∃ b c b', s = b ++ c :: b' ∧ (∀ x ∈ b, blank x = true) ∧ isSep c = true ∧ ∀ x ∈ b', blank x = true

/-- a value without white space, quotes and backslashes -/
structure IsValue (v : Str) : Prop where
  ne_nil : v ≠ []
  notBlank : ∀ c ∈ v, blank c = false
  notQuote : ∀ c ∈ v, isQuote c = false
  notBackslash : ∀ c ∈ v, c ≠ '\\'

section
variable {k s v t : Str}

/-! ## outside of values -/

theorem separator_of (hs : IsSeparator s) {r : Str} (hr : ∀ c ∈ r.head?, blank c = false) :
    separator (s ++ r) = some (s, r) := by
  obtain ⟨b, c, b', rfl, hb, hc, hb'⟩ := hs
  have hblank : ∀ a ∈ (c :: (b' ++ r)).head?, blank a = false := by
    intro a ha
    obtain rfl := Option.some.inj ha
    exact (sep_char hc).2.1
  obtain ⟨htake, hdrop⟩ := takeWhile_all hb hblank
  obtain ⟨htake', hdrop'⟩ := takeWhile_all hb' hr
  unfold separator
  rw [List.append_assoc, List.cons_append, htake, hdrop]
  show (if isSep c then _ else none) = _
  rw [if_pos hc, htake', hdrop']

theorem keyAt_pair (hne : k ≠ []) (hk : ∀ c ∈ k, isKeyChar c = true) (hs : IsSeparator s) {r : Str}
    (hr : ∀ c ∈ r.head?, blank c = false) : keyAt (k ++ (s ++ r)) = some (k ++ s, k, r) := by
  have hstop : ∀ a ∈ (s ++ r).head?, inName a = false := by
    obtain ⟨b, c, b', rfl, hb, hc, -⟩ := hs
    intro a ha
    cases b with
    | nil =>
      obtain rfl := Option.some.inj ha
      exact (sep_char hc).1
    | cons x b =>
      obtain rfl := Option.some.inj ha
      exact (blank_char (hb _ List.mem_cons_self)).1
  obtain ⟨htake, hdrop⟩ := takeWhile_all (p := inName) hk hstop
  have hopen : openQuote (k ++ (s ++ r)) = ([], k ++ (s ++ r)) := by
    obtain ⟨c, k, rfl⟩ := List.exists_cons_of_ne_nil hne
    have hquote : isQuote (char c) = false := (name_char (hk c List.mem_cons_self)).2.2.1
    rw [List.cons_append, openQuote_cons, hquote]
    rfl
  unfold keyAt
  rw [hopen]
  simp only
  rw [htake, hdrop, if_neg (by simpa using hne)]
  have hclose : closeQuote [] (s ++ r) = some ([], s ++ r) := rfl
  rw [hclose]
  simp only
  rw [separator_of hs hr]
  simp

theorem IsValue.head (hv : IsValue v) : ∃ c w, v = c :: w ∧ blank c = false ∧ isQuote c = false := by
  obtain ⟨c, w, rfl⟩ := List.exists_cons_of_ne_nil hv.ne_nil
  exact ⟨c, w, rfl, hv.notBlank c List.mem_cons_self, hv.notQuote c List.mem_cons_self⟩

theorem sensitive_ne_nil (hk : isSensitiveKey k = true) : k ≠ [] := by
  rintro rfl
  revert hk
  decide

/-- outside of values the pair is masked -/
theorem scan_pair (hk : ∀ c ∈ k, isKeyChar c = true) (hsens : isSensitiveKey k = true) (hs : IsSeparator s)
    (hv : IsValue v) (ht : ∀ c ∈ t.head?, blank c = true) :
    scan false (k ++ (s ++ (v ++ t))) = k ++ s ++ mask ++ scan false t := by
  obtain ⟨c, w, rfl, hc, hq⟩ := hv.head
  have hkey := keyAt_pair (sensitive_ne_nil hsens) hk hs (r := c :: w ++ t) (by rintro a ⟨⟩; exact hc)
  have hstop : ∀ a ∈ t.head?, notBlank a = false := fun a ha => by simp [notBlank, ht a ha]
  obtain ⟨htake, hdrop⟩ := takeWhile_all (p := notBlank) (u := c :: w) (w := t)
    (fun a ha => by simp [notBlank, hv.notBlank a ha]) hstop
  have hvalue : valueOf k (c :: w ++ t) = some (c :: w, t) := by
    have hname : k.map char = k := List.map_id _
    unfold valueOf
    rw [hname, if_pos hsens, List.cons_append, valueAt_cons, char_self, if_neg (by simpa using hq), ← List.cons_append,
      unquoted_eq (by rw [htake]; simp), htake, hdrop]
  have hquote : quoteOf (c :: w) = [] := by
    obtain ⟨a, ha⟩ : ∃ a, (c :: w).getLast? = some a := ⟨_, List.getLast?_eq_some_getLast (by simp)⟩
    exact quoteOf_unquoted ha (hv.notQuote a (List.mem_of_getLast? ha))
  obtain ⟨x, k', hxk⟩ := List.exists_cons_of_ne_nil (sensitive_ne_nil hsens)
  rw [hxk, List.cons_append] at hkey ⊢
  rw [scan_value hkey (hxk ▸ hvalue), scan_blank ht]
  unfold masked
  rw [hquote, List.append_nil]
  rfl

/-! ## inside of values -/

theorem separator_char {c : Char} (hs : IsSeparator s) (hc : c ∈ s) : blank c = true ∨ isSep c = true := by
  obtain ⟨b, d, b', rfl, hb, hd, hb'⟩ := hs
  rcases List.mem_append.mp hc with hc | hc
  · exact Or.inl (hb c hc)
  · rcases List.mem_cons.mp hc with rfl | hc
    · exact Or.inr hd
    · exact Or.inl (hb' c hc)

/-- a value in quotes goes on over the pair -/
theorem openAfter_pair (hne : k ≠ []) (hk : ∀ c ∈ k, isKeyChar c = true) (hs : IsSeparator s) (hv : IsValue v)
    {q : Char} (hq : isQuote q = true) (esc : Bool) : openAfter q esc (k ++ (s ++ v)) = some false := by
  have hfree : ∀ c ∈ k ++ (s ++ v), c ≠ q ∧ c ≠ '\\' := by
    have hnq : ∀ {c : Char}, isQuote c = false → c ≠ q := by
      rintro c hc rfl
      rw [hq] at hc
      cases hc
    intro c hc
    rcases List.mem_append.mp hc with hc | hc
    · obtain ⟨-, -, hquote, hback⟩ := name_char (hk c hc)
      exact ⟨hnq hquote, hback⟩
    rcases List.mem_append.mp hc with hc | hc
    · rcases separator_char hs hc with hblank | hsep
      · obtain ⟨-, -, hquote, hback⟩ := blank_char hblank
        exact ⟨hnq hquote, hback⟩
      · obtain ⟨-, -, hquote, hback⟩ := sep_char hsep
        exact ⟨hnq hquote, hback⟩
    · exact ⟨hnq (hv.notQuote c hc), hv.notBackslash c hc⟩
  cases esc with
  | false => exact openAfter_free hfree
  | true =>
    -- the first character of the name is what the backslash stands before
    obtain ⟨c, k, rfl⟩ := List.exists_cons_of_ne_nil hne
    have hline : char c ≠ '\n' := by
      rintro hc
      have hkey := hk c List.mem_cons_self
      rw [show c = '\n' from hc] at hkey
      revert hkey
      decide
    rw [List.cons_append, openAfter_esc, if_neg hline]
    exact openAfter_free fun a ha => hfree a (List.mem_cons_of_mem _ ha)

/-- what a value in quotes goes on over does not show -/
theorem masked_over {raw m body : Str} (hraw : raw ≠ []) (hbody : body ≠ []) :
    masked (raw ++ (m ++ body)) = masked (raw ++ body) ∧ endsInName (raw ++ (m ++ body)) = endsInName body := by
  constructor
  · unfold masked
    rw [← List.append_assoc, quoteOf_append hraw hbody]
  · rw [← List.append_assoc, endsInName_append _ hbody]

theorem goOn_pair_quoted (hk : ∀ c ∈ k, isKeyChar c = true) (hsens : isSensitiveKey k = true) (hs : IsSeparator s)
    (ht : ∀ c ∈ t.head?, blank c = true) {v' : Str} (hv : IsValue v) (hv' : IsValue v') {out raw : Str} {q : Char}
    {esc : Bool} (hq : isQuote q = true) (hraw : raw ≠ []) :
    (Standing.quoted out raw q esc).goOn (k ++ (s ++ (v ++ t))) =
      (Standing.quoted out raw q esc).goOn (k ++ (s ++ (v' ++ t))) := by
  have hvalue : ∀ {v : Str}, IsValue v → (Standing.quoted out raw q esc).value (k ++ (s ++ (v ++ t))) =
      (closing q false t).map fun r => (k ++ (s ++ v) ++ r.1, r.2) := by
    intro v hv
    have hassoc : k ++ (s ++ (v ++ t)) = (k ++ (s ++ v)) ++ t := by simp only [List.append_assoc]
    rw [hassoc]
    exact closing_over (openAfter_pair (sensitive_ne_nil hsens) hk hs hv hq esc) t
  have h := hvalue hv
  have h' := hvalue hv'
  cases hc : closing q false t with
  | none =>
    rw [hc] at h h'
    have hafter : (Standing.quoted out raw q esc).after = false := rfl
    rw [goOn_none h, goOn_none h', hafter, scan_pair hk hsens hs hv ht, scan_pair hk hsens hs hv' ht]
  | some r =>
    obtain ⟨body, rest⟩ := r
    have hbody := (closing_some hc).2
    have hrawq : (Standing.quoted out raw q esc).raw = raw := rfl
    rw [hc] at h h'
    rw [goOn_some h, goOn_some h', hrawq, (masked_over hraw hbody).1, (masked_over hraw hbody).1,
      (masked_over hraw hbody).2, (masked_over hraw hbody).2]

/-- a value without quotes goes on over the name at least -/
theorem goOn_within_pair (hne : k ≠ []) (hk : ∀ c ∈ k, isKeyChar c = true) (out raw r : Str) :
    (Standing.within out raw).goOn (k ++ r) = out ++ masked (raw ++ (k ++ r).takeWhile notBlank) ++
      scan (endsInName (raw ++ (k ++ r).takeWhile notBlank)) ((k ++ r).dropWhile notBlank) := by
  obtain ⟨c, k, rfl⟩ := List.exists_cons_of_ne_nil hne
  obtain ⟨hblank, -, hquote, -⟩ := name_char (hk c List.mem_cons_self)
  exact goOn_some (value_within out (k ++ r) hblank fun _ => hquote)

theorem goOn_pair_within (hne : k ≠ []) (hk : ∀ c ∈ k, isKeyChar c = true) (hv : IsValue v)
    (ht : ∀ c ∈ t.head?, blank c = true) (hnb : ∀ c ∈ s, blank c = false) (out raw : Str) :
    (Standing.within out raw).goOn (k ++ (s ++ (v ++ t))) = out ++ mask ++ scan false t := by
  have hassoc : k ++ (s ++ (v ++ t)) = (k ++ (s ++ v)) ++ t := by simp only [List.append_assoc]
  have hall : ∀ a ∈ k ++ (s ++ v), notBlank a = true := by
    intro a ha
    have hfree : blank a = false := by
      rcases List.mem_append.mp ha with ha | ha
      · exact (name_char (hk a ha)).1
      rcases List.mem_append.mp ha with ha | ha
      · exact hnb a ha
      · exact hv.notBlank a ha
    simp [notBlank, hfree]
  have hstop : ∀ a ∈ t.head?, notBlank a = false := fun a ha => by simp [notBlank, ht a ha]
  obtain ⟨htake, hdrop⟩ := takeWhile_all hall hstop
  obtain ⟨a, ha⟩ : ∃ a, v.getLast? = some a := ⟨_, List.getLast?_eq_some_getLast hv.ne_nil⟩
  have hlast : (raw ++ (k ++ (s ++ v))).getLast? = some a := by
    rw [← List.append_assoc, ← List.append_assoc, List.getLast?_append_of_ne_nil _ hv.ne_nil, ha]
  have hquote := quoteOf_unquoted hlast (hv.notQuote a (List.mem_of_getLast? ha))
  rw [goOn_within_pair hne hk, hassoc, htake, hdrop]
  unfold masked
  rw [hquote, scan_blank ht, List.append_nil]
  rfl

/-! ## the name at the end of a value -/

/-- the part of the pair behind a value that ends in the name -/
theorem scan_gap {w : Str} (hw : ∀ c ∈ w, blank c = true ∨ isSep c = true) (hne : w ≠ []) (after : Bool) (r : Str) :
    scan after (w ++ r) = w ++ scan false r := by
  induction w generalizing after with
  | nil => exact absurd rfl hne
  | cons c w ih =>
    have hc : isKeyChar c = false ∧ isQuote c = false := by
      rcases hw c List.mem_cons_self with hb | hsep
      · exact ⟨(blank_char hb).1, (blank_char hb).2.2.1⟩
      · exact ⟨(sep_char hsep).1, (sep_char hsep).2.2.1⟩
    have hname : inName c = false := hc.1
    have hnone : keyAt (c :: (w ++ r)) = none := by
      have hopen : openQuote (c :: (w ++ r)) = ([], c :: (w ++ r)) := by
        rw [openQuote_cons, char_self, hc.2]
        rfl
      have htake : (c :: (w ++ r)).takeWhile inName = [] := List.takeWhile_cons_of_neg (by simp [hname])
      unfold keyAt
      rw [hopen]
      simp only [htake, List.isEmpty_nil, if_true]
    rw [List.cons_append, scan_skip (Or.inr hnone), hname]
    cases w with
    | nil => rfl
    | cons d w =>
      rw [ih (fun x hx => hw x (List.mem_cons_of_mem _ hx)) (by simp)]
      rfl

/-- what follows a value of one letter is the same for every such letter -/
theorem scan_letter {t : Str} (ht : ∀ c ∈ t.head?, blank c = true) : ∃ y : Str, ∀ c ∈ ['a', 'b'],
    scan false (c :: t) = c :: y := by
  refine ⟨match separator t with
    | none => scan true t
    | some (sep, rest) => sep ++ scan (endsInName sep) rest, fun c hc => ?_⟩
  have hchar : isKeyChar c = true ∧ isQuote c = false ∧ isSensitiveKey [c] = false := by
    revert c
    decide
  have hopen : openQuote (c :: t) = ([], c :: t) := by
    rw [openQuote_cons, char_self, hchar.2.1]
    rfl
  have hstop : ∀ a ∈ t.head?, inName a = false := fun a ha => (blank_char (ht a ha)).1
  obtain ⟨htake, hdrop⟩ := takeWhile_all (p := inName) (u := [c]) (w := t)
    (fun a ha => by obtain rfl := List.mem_singleton.mp ha; exact hchar.1) hstop
  have htake' : (c :: t).takeWhile inName = [c] := htake
  have hdrop' : (c :: t).dropWhile inName = t := hdrop
  have hkey : keyAt (c :: t) = (separator t).map fun r => (c :: r.1, [c], r.2) := by
    have hclose : closeQuote [] t = some ([], t) := rfl
    unfold keyAt
    rw [hopen]
    simp only
    rw [htake', hdrop', hclose]
    simp only
    cases separator t with
    | none => rfl
    | some r => rfl
  cases hsep : separator t with
  | none =>
    rw [hsep] at hkey
    have hname : inName c = true := hchar.1
    rw [scan_skip (Or.inr hkey), hname]
  | some r =>
    obtain ⟨sep, rest⟩ := r
    rw [hsep] at hkey
    have hvalue : valueOf [c] rest = none := by
      unfold valueOf
      rw [List.map_singleton, char_self, hchar.2.2]
      rfl
    have hends : endsInName (c :: sep) = endsInName sep := endsInName_append [c] (separator_some hsep).2.1.ne_nil
    rw [scan_key hkey hvalue, hends]
    rfl

/-- the part of a separator with a blank that stands behind a value which ends in the name -/
theorem separator_gap (hk : ∀ c ∈ k, isKeyChar c = true) (hs : IsSeparator s) (hblank : ∃ c ∈ s, blank c = true) :
    ∃ u w b g, (∀ r : Str, (k ++ (s ++ r)).takeWhile notBlank = u ∧
      (k ++ (s ++ r)).dropWhile notBlank = w ++ b :: (g ++ r)) ∧
      (∀ c ∈ w ++ b :: g, blank c = true ∨ isSep c = true) ∧ blank b = true ∧ g.length ≤ 1 := by
  have hchars : ∀ c ∈ s, blank c = true ∨ isSep c = true := fun c hc => separator_char hs hc
  have hkey : ∀ a ∈ k, notBlank a = true := fun a ha => by simp [notBlank, (name_char (hk a ha)).1]
  obtain ⟨b, c, b', rfl, hb, hc, hb'⟩ := hs
  have hcn : notBlank c = true := by simp [notBlank, (sep_char hc).2.1]
  -- the first blank is the beginning of `x`
  have hspan : ∀ {u x : Str}, (∀ a ∈ u, notBlank a = true) → (∀ a ∈ x.head?, notBlank a = false) → x ≠ [] →
      ∀ r, (u ++ (x ++ r)).takeWhile notBlank = u ∧ (u ++ (x ++ r)).dropWhile notBlank = x ++ r := by
    intro u x hu hx hne r
    obtain ⟨d, x, rfl⟩ := List.exists_cons_of_ne_nil hne
    exact takeWhile_all hu hx
  rcases List.eq_nil_or_concat' b' with rfl | ⟨i, l, rfl⟩
  · -- all white space is in front of the sign
    have hne : b ≠ [] := by
      rintro rfl
      obtain ⟨x, hx, hblank⟩ := hblank
      obtain rfl : x = c := by simpa using hx
      rw [(sep_char hc).2.1] at hblank
      cases hblank
    obtain ⟨i, l, rfl⟩ := (List.eq_nil_or_concat' b).resolve_left hne
    have hl : blank l = true := hb l (by simp)
    refine ⟨k, i, l, [c], fun r => ?_, fun x hx => hchars x (by simpa using hx), hl, le_rfl⟩
    have hhead : ∀ a ∈ (i ++ [l] ++ [c]).head?, notBlank a = false := by
      intro a ha
      have hmem : a ∈ i ++ [l] := by
        cases i with
        | nil => simp at ha; simp [ha]
        | cons y i => simp at ha; simp [ha]
      simp [notBlank, hb a hmem]
    obtain ⟨htake, hdrop⟩ := hspan hkey hhead (by simp) r
    refine ⟨htake, ?_⟩
    rw [hdrop]
    simp
  · have hl : blank l = true := hb' l (by simp)
    cases b with
    | nil =>
      have hin : ∀ x ∈ i ++ [l], x ∈ [] ++ c :: (i ++ [l]) := fun x hx => List.mem_cons_of_mem c hx
      refine ⟨k ++ [c], i, l, [], fun r => ?_, fun x hx => hchars x (hin x hx), hl, by simp⟩
      have hall : ∀ a ∈ k ++ [c], notBlank a = true := by
        intro a ha
        rcases List.mem_append.mp ha with ha | ha
        · exact hkey a ha
        · exact List.mem_singleton.mp ha ▸ hcn
      have hhead : ∀ a ∈ (i ++ [l]).head?, notBlank a = false := by
        intro a ha
        have hmem : a ∈ i ++ [l] := List.mem_of_mem_head? ha
        simp [notBlank, hb' a hmem]
      obtain ⟨htake, hdrop⟩ := hspan hall hhead (by simp) r
      have hsame : k ++ ([] ++ c :: (i ++ [l]) ++ r) = k ++ [c] ++ (i ++ [l] ++ r) := by simp
      rw [hsame, htake, hdrop]
      simp
    | cons y b =>
      have hsplit : y :: b ++ c :: (i ++ [l]) = y :: b ++ c :: i ++ [l] := by simp
      refine ⟨k, y :: b ++ c :: i, l, [], fun r => ?_, fun x hx => hchars x (hsplit ▸ hx), hl, by simp⟩
      have hhead : ∀ a ∈ (y :: b ++ c :: (i ++ [l])).head?, notBlank a = false := by
        rintro a ⟨⟩
        simp [notBlank, hb y List.mem_cons_self]
      obtain ⟨htake, hdrop⟩ := hspan hkey hhead (by simp) r
      refine ⟨htake, ?_⟩
      rw [hdrop]
      simp

/-- behind a blank a letter and what precedes it stand as they are -/
theorem maskDsns_letter {x g y : Str} {b c : Char} (hb : blank b = true) (hg : g.length ≤ 1) (hc : c ∈ ['a', 'b']) :
    maskDsns (x ++ b :: (g ++ c :: y)) = maskDsns x ++ b :: (g ++ c :: maskDsns y) := by
  have hcol : ∀ {c : Char} (s : Str), c ≠ ':' → dsnAt (c :: s) = none := by
    intro c s hne
    cases s with
    | nil => rfl
    | cons d s => exact dsnAt_none (Or.inl hne)
  have hblank : b ≠ ':' := by
    rintro rfl
    revert hb
    decide
  have hletter : c ≠ ':' ∧ c ≠ '/' := by
    revert c
    decide
  rw [maskDsns_append (barrier_blank _ hb), maskDsns_cons (hcol _ hblank)]
  match g, hg with
  | [], _ => rw [List.nil_append, List.nil_append, maskDsns_cons (hcol _ hletter.1)]
  | [d], _ =>
    have hd : dsnAt (d :: c :: y) = none := dsnAt_none (Or.inr hletter.2)
    rw [List.cons_append, List.nil_append, maskDsns_cons hd, maskDsns_cons (hcol _ hletter.1)]
    rfl

/-- **What the redaction of a pair reveals.**  The output is the same for all values exactly where the separator
holds no white space, or the scan of what precedes does not stand in a value without quotes: there the name
ends that value, and what follows the separator is not masked. -/
theorem redact_pair {p k s t : Str} (hp : ∀ c ∈ p.getLast?, isKeyChar c = false ∧ isQuote c = false)
    (hk : ∀ c ∈ k, isKeyChar c = true) (hsens : isSensitiveKey k = true) (hs : IsSeparator s)
    (ht : ∀ c ∈ t.head?, blank c = true) :
    (∀ v v', IsValue v → IsValue v' → redact (p ++ k ++ s ++ v ++ t) = redact (p ++ k ++ s ++ v' ++ t)) ↔
      (∀ c ∈ s, blank c = false) ∨ (standing (closesIn t) false p).bare = false := by
  have hne := sensitive_ne_nil hsens
  have hassoc : ∀ v, p ++ k ++ s ++ v ++ t = p ++ (k ++ (s ++ (v ++ t))) := fun v => by simp only [List.append_assoc]
  have hscan : ∀ v, IsValue v →
      maskPairs (p ++ k ++ s ++ v ++ t) = (standing (closesIn t) false p).goOn (k ++ (s ++ (v ++ t))) := by
    intro v hv
    have hcloses : ∀ q e, isQuote q = true → closesIn t q e = (closing q e (k ++ (s ++ (v ++ t)))).isSome := by
      intro q e hq
      have hover := closing_over (openAfter_pair hne hk hs hv hq e) t
      rw [List.append_assoc, List.append_assoc] at hover
      rw [hover, Option.isSome_map]
      rfl
    have hjoint : ∀ a ∈ p.getLast?, Joint a (k ++ (s ++ (v ++ t))) := by
      intro a ha
      obtain ⟨c, k, rfl⟩ := List.exists_cons_of_ne_nil hne
      obtain ⟨hblank, hsep, -⟩ := name_char (hk c List.mem_cons_self)
      refine ⟨(hp a ha).1, (hp a ha).2, fun _ z hz => ?_, fun _ => ⟨c, _, rfl, hblank⟩⟩
      obtain rfl := Option.some.inj hz
      exact hsep
    rw [maskPairs_eq, hassoc]
    exact standingFrom_goOn hcloses le_rfl hjoint
  have hfits := standing_fits (closesIn t) false p
  constructor
  · intro hsame
    by_contra hnot
    push Not at hnot
    obtain ⟨⟨c, hc, hblank⟩, hbare⟩ := hnot
    cases hst : standing (closesIn t) false p with
    | reached out b => rw [hst] at hbare; exact hbare rfl
    | quoted out raw q esc => rw [hst] at hbare; exact hbare rfl
    | within out raw =>
      obtain ⟨u, w, b, g, hspan, hgap, hb, hg⟩ := separator_gap hk hs ⟨c, hc, by simpa using hblank⟩
      obtain ⟨y, hy⟩ := scan_letter ht
      have hletter : ∀ x ∈ ['a', 'b'], IsValue [x] ∧
          redact (p ++ k ++ s ++ [x] ++ t) =
            maskDsns (out ++ masked (raw ++ u) ++ w) ++ b :: (g ++ x :: maskDsns y) := by
        intro x hx
        have hv : IsValue [x] := by
          have hchar : blank x = false ∧ isQuote x = false ∧ x ≠ '\\' := by
            revert x
            decide
          exact ⟨by simp, by simpa using hchar.1, by simpa using hchar.2.1, by simpa using hchar.2.2⟩
        refine ⟨hv, ?_⟩
        have hout : maskPairs (p ++ k ++ s ++ [x] ++ t) = out ++ masked (raw ++ u) ++ w ++ b :: (g ++ x :: y) := by
          have hrest : w ++ b :: (g ++ ([x] ++ t)) = (w ++ b :: g) ++ (x :: t) := by simp
          rw [hscan _ hv, hst, goOn_within_pair hne hk, (hspan _).1, (hspan _).2, hrest,
            scan_gap hgap (by simp), hy x hx]
          simp
        unfold redact
        rw [hout]
        exact maskDsns_letter hb hg hx
      obtain ⟨ha, hra⟩ := hletter 'a' (by decide)
      obtain ⟨hb', hrb⟩ := hletter 'b' (by decide)
      have h := hsame _ _ ha hb'
      rw [hra, hrb] at h
      have h := List.cons.inj (List.append_cancel_left h)
      have h := List.cons.inj (List.append_cancel_left h.2)
      exact absurd h.1 (by decide)
  · intro hcond v v' hv hv'
    unfold redact
    rw [hscan v hv, hscan v' hv']
    congr 1
    cases hst : standing (closesIn t) false p with
    | reached out b =>
      rw [hst] at hfits
      have hfalse : b = false := by
        rw [show b = if p.isEmpty then false else endsInName p from hfits]
        split
        · rfl
        · unfold endsInName
          cases hl : p.getLast? with
          | none => rfl
          | some a => exact (hp a hl).1
      have hgo : ∀ r : Str, (Standing.reached out b).goOn r = out ++ scan b r := fun r => goOn_none rfl
      rw [hgo, hgo, hfalse, scan_pair hk hsens hs hv ht, scan_pair hk hsens hs hv' ht]
    | quoted out raw q esc =>
      rw [hst] at hfits
      obtain ⟨hq, c, hc, -⟩ := hfits
      refine goOn_pair_quoted hk hsens hs ht hv hv' hq ?_
      rintro rfl
      cases hc
    | within out raw =>
      rw [hst] at hcond
      have hnb := hcond.resolve_right (by simp [Standing.bare])
      rw [goOn_pair_within hne hk hv ht hnb, goOn_pair_within hne hk hv' ht hnb]

theorem redact_pair_db :
    redact ("db ".toList ++ "password".toList ++ " = ".toList ++ "hunter2".toList ++ " ok".toList) =
      redact ("db ".toList ++ "password".toList ++ " = ".toList ++ "swordfish".toList ++ " ok".toList) :=
  (redact_pair (by decide) (by decide) (by decide) ⟨[' '], '=', [' '], rfl, by decide, by decide, by decide⟩
    (by decide)).mpr (Or.inr (by decide +kernel)) _ _ ⟨by decide, by decide, by decide, by decide⟩
    ⟨by decide, by decide, by decide, by decide⟩

/-- in `token=password = hunter2` the name is the value of `token`, and the password is not masked -/
theorem redact_pair_token :
    redact "token=password = hunter2".toList = "token=*** = hunter2".toList ∧
    ¬ ∀ p k s v v' t : Str, (∀ c ∈ p.getLast?, isKeyChar c = false ∧ isQuote c = false) →
      (∀ c ∈ k, isKeyChar c = true) → isSensitiveKey k = true → IsSeparator s → IsValue v → IsValue v' →
      (∀ c ∈ t.head?, blank c = true) → redact (p ++ k ++ s ++ v ++ t) = redact (p ++ k ++ s ++ v' ++ t) := by
  refine ⟨by decide +kernel, fun h => ?_⟩
  have heq := h "token=".toList "password".toList " = ".toList "hunter2".toList "swordfish".toList [] (by decide)
    (by decide) (by decide) ⟨[' '], '=', [' '], rfl, by decide, by decide, by decide⟩
    ⟨by decide, by decide, by decide, by decide⟩ ⟨by decide, by decide, by decide, by decide⟩ (by decide)
  revert heq
  decide +kernel

end
end Redaction
end BackupHelper
