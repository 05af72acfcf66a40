import BackupHelper.Redaction.Scan

/-!
# The scan for URLs

* `opensDsn`                               a text that ends in a part of a match;
* `maskDsns_cons`, `maskDsns_match`        one step of the scan;
* `Barrier`, `maskDsns_append`             a place that no match goes over;
* `barrier_blank`, `barrier_scheme`        a blank is one, and `://`;
* `opens_of_masked`, `maskDsns_opened`     **what is masked behind a part of a match**.
-/

namespace BackupHelper
namespace Redaction
open Text

section
variable {α : Type} [Letter α]
open Letter

/-! ## a match up to its password -/

/-- a colon, and only characters of a password behind it -/
def opensPassword : List α → Bool
  | [] => false
  | d :: s => char d = ':' && s.all inPassword

/-- `_DSN` from the beginning of `s` up to a part of its password, with which `s` ends -/
def opensAt : List α → Bool
  | a :: b :: c :: s =>
    char a = ':' && char b = '/' && char c = '/' && !(s.takeWhile inUser).isEmpty && opensPassword (s.dropWhile inUser)
  | _ => false

/-- whether `s` ends in `://`, a user, a colon and a part of a password -/
def opensDsn : List α → Bool
  | [] => false
  | c :: s => opensAt (c :: s) || opensDsn s

/-- whether the first `@`, slash or blank is an `@` -/
def meetsHost (s : List α) : Bool := (s.dropWhile inPassword).head?.any fun a => char a = '@'

theorem opensAt_some {s : List α} (h : opensAt s = true) : ∃ a b c u d p, s = a :: b :: c :: (u ++ d :: p) ∧
    char a = ':' ∧ char b = '/' ∧ char c = '/' ∧ u ≠ [] ∧ (∀ x ∈ u, inUser x = true) ∧ char d = ':' ∧
    ∀ x ∈ p, inPassword x = true := by
  unfold opensAt at h
  split at h
  · rename_i a b c s
    simp only [Bool.and_eq_true, decide_eq_true_eq, Bool.not_eq_true', List.isEmpty_eq_false_iff] at h
    obtain ⟨⟨⟨⟨ha, hb⟩, hc⟩, hne⟩, hpass⟩ := h
    have hspan := List.takeWhile_append_dropWhile (p := inUser) (l := s)
    cases hd : s.dropWhile inUser with
    | nil =>
      rw [hd] at hpass
      cases hpass
    | cons d p =>
      rw [hd] at hpass hspan
      obtain ⟨hd, hp⟩ : char d = ':' ∧ ∀ x ∈ p, inPassword x = true := by simpa [opensPassword] using hpass
      exact ⟨a, b, c, s.takeWhile inUser, d, p, by rw [hspan], ha, hb, hc, hne, fun x hx => List.mem_takeWhile_imp hx,
        hd, hp⟩
  · cases h

/-- the user is what the pattern takes for it -/
theorem user_span {u : List α} (hu : ∀ x ∈ u, inUser x = true) {d : α} (hd : char d = ':') (s : List α) :
    (u ++ d :: s).takeWhile inUser = u ∧ (u ++ d :: s).dropWhile inUser = d :: s := by
  refine takeWhile_all hu fun x hx => ?_
  obtain rfl := Option.some.inj hx
  unfold inUser
  rw [hd]
  rfl

theorem opensAt_of {a b c d : α} {u p : List α} (ha : char a = ':') (hb : char b = '/') (hc : char c = '/')
    (hne : u ≠ [])
    (hu : ∀ x ∈ u, inUser x = true) (hd : char d = ':') (hp : ∀ x ∈ p, inPassword x = true) :
    opensAt (a :: b :: c :: (u ++ d :: p)) = true := by
  obtain ⟨htake, hdrop⟩ := user_span hu hd p
  unfold opensAt
  simp only [htake, hdrop, ha, hb, hc, opensPassword, hd]
  simpa [hne] using hp

theorem opensAt_append {s p : List α} (h : opensAt s = true) (hp : ∀ x ∈ p, inPassword x = true) :
    opensAt (s ++ p) = true := by
  obtain ⟨a, b, c, u, d, p', rfl, ha, hb, hc, hne, hu, hd, hp'⟩ := opensAt_some h
  have hall : ∀ x ∈ p' ++ p, inPassword x = true := fun x hx => (List.mem_append.mp hx).elim (hp' x) (hp x)
  have hassoc : a :: b :: c :: (u ++ d :: p') ++ p = a :: b :: c :: (u ++ d :: (p' ++ p)) := by simp
  rw [hassoc]
  exact opensAt_of ha hb hc hne hu hd hall

theorem opensDsn_of {s : List α} (a : List α) (h : opensAt s = true) : opensDsn (a ++ s) = true := by
  induction a with
  | nil =>
    cases s with
    | nil => cases h
    | cons c s =>
      show (opensAt (c :: s) || opensDsn s) = true
      rw [h, Bool.true_or]
  | cons c a ih =>
    show (opensAt (c :: (a ++ s)) || opensDsn (a ++ s)) = true
    rw [ih, Bool.or_true]

theorem opensDsn_some {s : List α} (h : opensDsn s = true) : ∃ a b, s = a ++ b ∧ opensAt b = true := by
  induction s with
  | nil => cases h
  | cons c s ih =>
    have hor : opensAt (c :: s) = true ∨ opensDsn s = true := by simpa [opensDsn] using h
    rcases hor with hat | hrest
    · exact ⟨[], c :: s, rfl, hat⟩
    · obtain ⟨a, b, rfl, hb⟩ := ih hrest
      exact ⟨c :: a, b, rfl, hb⟩

theorem opensDsn_append {s : List α} (a : List α) (h : opensDsn s = true) : opensDsn (a ++ s) = true := by
  obtain ⟨a', b, rfl, hb⟩ := opensDsn_some h
  rw [← List.append_assoc]
  exact opensDsn_of (a ++ a') hb

/-! ## what a match takes -/

theorem hostAt_some {before s b h rest : List α} (hat : hostAt before s = some (b, h, rest)) :
    b = before ∧ ∃ e, h = [e] ∧ s = e :: rest ∧ char e = '@' := by
  unfold hostAt at hat
  split at hat
  · cases hat
  · rename_i e s
    split at hat
    · rename_i he
      obtain ⟨rfl, hrest⟩ := Prod.mk.inj (Option.some.inj hat)
      obtain ⟨rfl, rfl⟩ := Prod.mk.inj hrest
      exact ⟨rfl, e, rfl, rfl, he⟩
    · cases hat

theorem passwordAt_some {before s b h rest : List α} (hat : passwordAt before s = some (b, h, rest)) :
    ∃ d password e, b = before ++ [d] ∧ h = [e] ∧ s = d :: (password ++ e :: rest) ∧ char d = ':' ∧
      (∀ x ∈ password, inPassword x = true) ∧ char e = '@' := by
  unfold passwordAt at hat
  split at hat
  · cases hat
  · rename_i d s
    split at hat
    · rename_i hd
      obtain ⟨rfl, e, rfl, hrest, he⟩ := hostAt_some hat
      refine ⟨d, s.takeWhile inPassword, e, rfl, rfl, ?_, hd.1, fun x hx => List.mem_takeWhile_imp hx, he⟩
      rw [← hrest, List.takeWhile_append_dropWhile]
    · cases hat

theorem dsnAt_some {s b h rest : List α} (hat : dsnAt s = some (b, h, rest)) :
    ∃ password e, h = [e] ∧ s = b ++ (password ++ e :: rest) ∧ opensAt b = true ∧
      (∀ x ∈ password, inPassword x = true) ∧ char e = '@' := by
  unfold dsnAt at hat
  split at hat
  · split at hat
    · rename_i a b c s hstart
      obtain ⟨d, password, e, rfl, rfl, hrest, hd, hp, he⟩ := passwordAt_some hat
      have hspan := List.takeWhile_append_dropWhile (p := inUser) (l := s)
      refine ⟨password, e, rfl, ?_, ?_, hp, he⟩
      · simp only [List.cons_append, List.append_assoc, List.nil_append]
        rw [← hrest, hspan]
      · exact opensAt_of hstart.1 hstart.2.1 hstart.2.2.1 (by simpa using hstart.2.2.2)
          (fun x hx => List.mem_takeWhile_imp hx) hd (by simp)
    · cases hat
  · cases hat

/-- a match that is open in `s` goes on to the first `@`, slash or blank -/
theorem dsnAt_opened {s : List α} (h : opensAt s = true) : ∃ before p, s = before ++ p ∧
    ∀ z w, inPassword z = true → dsnAt (s ++ z :: w) = hostAt before ((z :: w).dropWhile inPassword) := by
  obtain ⟨a, b, c, u, d, p, rfl, ha, hb, hc, hne, hu, hd, hp⟩ := opensAt_some h
  refine ⟨a :: b :: c :: u ++ [d], p, by simp, fun z w hz => ?_⟩
  obtain ⟨htake, hdrop⟩ := user_span hu hd (p ++ z :: w)
  have hassoc : a :: b :: c :: (u ++ d :: p) ++ z :: w = a :: b :: c :: (u ++ d :: (p ++ z :: w)) := by simp
  have hall : p.takeWhile inPassword = p := List.takeWhile_eq_self_iff.mpr hp
  have hnil : p.dropWhile inPassword = [] := List.dropWhile_eq_nil_iff.mpr hp
  have htake' : ¬ ((p ++ z :: w).takeWhile inPassword).isEmpty = true := by
    rw [List.takeWhile_append, hall, if_pos rfl, List.takeWhile_cons_of_pos hz]
    simp
  have hdrop' : (p ++ z :: w).dropWhile inPassword = (z :: w).dropWhile inPassword := by
    rw [List.dropWhile_append, hnil]
    rfl
  rw [hassoc, dsnAt, if_pos ⟨ha, hb, hc, by rw [htake]; simpa using hne⟩, htake, hdrop, passwordAt, if_pos ⟨hd, htake'⟩,
    hdrop']

/-! ## the scan without a bound -/

theorem dsnsFrom_none (n : ℕ) {c : α} {s : List α} (h : dsnAt (c :: s) = none) :
    dsnsFrom (n + 1) (c :: s) = c :: dsnsFrom n s := by
  rw [dsnsFrom, h]

theorem dsnsFrom_some (n : ℕ) {c : α} {s before behind rest : List α}
    (h : dsnAt (c :: s) = some (before, behind, rest)) :
    dsnsFrom (n + 1) (c :: s) = before ++ mask ++ behind ++ dsnsFrom n rest := by
  rw [dsnsFrom, h]

theorem dsnAt_length {c : α} {s b h rest : List α} (hat : dsnAt (c :: s) = some (b, h, rest)) :
    rest.length ≤ s.length := by
  obtain ⟨password, e, -, happ, -⟩ := dsnAt_some hat
  have hlen := congrArg List.length happ
  simp only [List.length_append, List.length_cons] at hlen
  omega

theorem dsnsFrom_stable {n m : ℕ} {s : List α} (hn : s.length ≤ n) (hm : s.length ≤ m) :
    dsnsFrom n s = dsnsFrom m s := by
  induction n generalizing m s with
  | zero =>
    obtain rfl := List.length_eq_zero_iff.mp (Nat.le_zero.mp hn)
    cases m <;> rfl
  | succ n ih =>
    cases s with
    | nil => cases m <;> rfl
    | cons c s =>
      cases m with
      | zero => simp at hm
      | succ m =>
        rw [List.length_cons] at hn hm
        cases hat : dsnAt (c :: s) with
        | none => rw [dsnsFrom_none n hat, dsnsFrom_none m hat, ih (m := m) (by omega) (by omega)]
        | some r =>
          obtain ⟨before, behind, rest⟩ := r
          have hlen := dsnAt_length hat
          rw [dsnsFrom_some n hat, dsnsFrom_some m hat, ih (m := m) (by omega) (by omega)]

theorem maskDsns_cons {c : α} {s : List α} (h : dsnAt (c :: s) = none) : maskDsns (c :: s) = c :: maskDsns s :=
  dsnsFrom_none _ h

theorem maskDsns_match {c : α} {s before behind rest : List α}
    (h : dsnAt (c :: s) = some (before, behind, rest)) :
    maskDsns (c :: s) = before ++ mask ++ behind ++ maskDsns rest := by
  show dsnsFrom (s.length + 1) (c :: s) = _
  rw [dsnsFrom_some _ h, dsnsFrom_stable (dsnAt_length h) le_rfl]
  rfl

/-- no match begins but at a colon in front of a slash -/
theorem dsnAt_none {a b : α} {s : List α} (h : char a ≠ ':' ∨ char b ≠ '/') : dsnAt (a :: b :: s) = none := by
  cases s with
  | nil => rfl
  | cons c s =>
    rw [dsnAt, if_neg]
    rintro ⟨ha, hb, -⟩
    exact h.elim (· ha) (· hb)

/-! ## barriers -/

/-- no match goes over the beginning of `t` -/
def Barrier (t : List α) : Prop :=
  ∀ s : List α, s ≠ [] → dsnAt (s ++ t) = (dsnAt s).map fun r => (r.1, r.2.1, r.2.2 ++ t)

theorem maskDsns_append {t : List α} (ht : Barrier t) (s : List α) : maskDsns (s ++ t) = maskDsns s ++ maskDsns t := by
  induction hn : s.length using Nat.strong_induction_on generalizing s with
  | _ n ih =>
    cases s with
    | nil => rfl
    | cons c s =>
      have hat := ht (c :: s) (by simp)
      rw [List.cons_append] at hat ⊢
      rw [List.length_cons] at hn
      cases hd : dsnAt (c :: s) with
      | none =>
        rw [hd] at hat
        rw [maskDsns_cons hat, maskDsns_cons hd, ih s.length (by omega) s rfl]
        rfl
      | some r =>
        obtain ⟨before, behind, rest⟩ := r
        rw [hd] at hat
        have hlen := dsnAt_length hd
        rw [maskDsns_match hat, maskDsns_match hd, ih rest.length (by omega) rest rfl]
        simp only [List.append_assoc]

/-- what stops the user and is not the colon, or what stops the password behind it -/
theorem barrier_of {t : List α} (huser : t.takeWhile inUser = [])
    (hpass : ∀ before : List α, passwordAt before t = none)
    (hhost : ∀ (before s : List α), s.dropWhile inPassword = [] →
      hostAt before ((s ++ t).dropWhile inPassword) = none)
    (hstart : ∀ a b : α, dsnAt (a :: t) = none ∧ dsnAt (a :: b :: t) = none) : Barrier t := by
  intro s hs
  match s, hs with
  | [a], _ => exact (hstart a a).1
  | [a, b], _ => exact (hstart a b).2
  | a :: b :: c :: s, _ =>
    obtain ⟨htake, hdrop⟩ := span_append (s := s) (Or.inr huser)
    show dsnAt (a :: b :: c :: (s ++ t)) = _
    unfold dsnAt
    simp only
    rw [htake, hdrop]
    split
    · cases hd : s.dropWhile inUser with
      | nil => exact hpass _
      | cons d r =>
        show (if char d = ':' ∧ ¬ ((r ++ t).takeWhile inPassword).isEmpty then
            hostAt _ ((r ++ t).dropWhile inPassword) else none) =
          Option.map _ (if char d = ':' ∧ ¬ (r.takeWhile inPassword).isEmpty then
            hostAt _ (r.dropWhile inPassword) else none)
        by_cases hall : r.dropWhile inPassword = []
        · rw [hhost _ r hall, hall]
          split <;> split <;> rfl
        · obtain ⟨htake', hdrop'⟩ := span_append (t := t) (Or.inl hall)
          rw [htake', hdrop']
          split
          · obtain ⟨e, r', he⟩ := List.exists_cons_of_ne_nil hall
            rw [he]
            show (if char e = '@' then _ else none) = Option.map _ (if char e = '@' then _ else none)
            split <;> rfl
          · rfl
    · rfl

theorem barrier_blank {b : α} (t : List α) (hb : blank b = true) : Barrier (b :: t) := by
  have hspace : char b ∈ spaces := by simpa [blank] using hb
  have hne : ∀ c : Char, c ∉ spaces → char b ≠ c := fun c hc he => hc (he ▸ hspace)
  have huser : inUser b = false := by simp [inUser, notBlank, hb]
  have hpass : inPassword b = false := by simp [inPassword, notBlank, hb]
  refine barrier_of (List.takeWhile_cons_of_neg (by simp [huser])) (fun before => ?_) (fun before s hs => ?_)
    fun a c => ⟨?_, ?_⟩
  · rw [passwordAt, if_neg]
    rintro ⟨hc, -⟩
    exact hne ':' (by decide) hc
  · rw [(span_append (Or.inr (List.takeWhile_cons_of_neg (by simp [hpass])))).2, hs, List.nil_append, hostAt,
      if_neg (hne '@' (by decide))]
  · exact dsnAt_none (Or.inr (hne '/' (by decide)))
  · cases t with
    | nil =>
      rw [dsnAt, if_neg]
      rintro ⟨-, -, hc, -⟩
      exact hne '/' (by decide) hc
    | cons d t =>
      rw [dsnAt, if_neg]
      rintro ⟨-, -, hc, -⟩
      exact hne '/' (by decide) hc

theorem barrier_scheme {a b : α} (t : List α) (ha : char a = ':') (hb : char b = '/') :
    Barrier (a :: b :: t) := by
  have huser : inUser a = false := by simp [inUser, ha]
  have hpass : inPassword b = false := by simp [inPassword, hb]
  refine barrier_of (List.takeWhile_cons_of_neg (by simp [huser])) (fun before => ?_) (fun before s hs => ?_)
    fun d e => ⟨dsnAt_none (Or.inr (by rw [ha]; decide)), ?_⟩
  · rw [passwordAt, if_neg]
    rintro ⟨-, hne⟩
    rw [List.takeWhile_cons_of_neg (by simp [hpass])] at hne
    exact hne rfl
  · have hstop : (s ++ a :: b :: t).dropWhile inPassword = (a :: b :: t).dropWhile inPassword := by
      rw [List.dropWhile_append, hs]
      rfl
    have ha' : inPassword a = true := by
      have hcolon : notBlank a = true := by
        unfold notBlank blank
        rw [ha]
        decide
      simp [inPassword, ha, hcolon]
    rw [hstop, List.dropWhile_cons_of_pos ha', List.dropWhile_cons_of_neg (by simp [hpass]), hostAt,
      if_neg (by rw [hb]; decide)]
  · rw [dsnAt, if_neg]
    rintro ⟨-, -, hcol, -⟩
    rw [ha] at hcol
    cases hcol

/-! ## what is masked -/

/-- a character that the scan takes away stands in the password of a match -/
theorem opens_of_masked {o w : List α} {z : α} (h : z ∉ maskDsns (o ++ z :: w)) :
    opensDsn o = true ∧ meetsHost (z :: w) = true := by
  induction hn : o.length using Nat.strong_induction_on generalizing o with
  | _ n ih =>
    cases hat : dsnAt (o ++ z :: w) with
    | none =>
      cases o with
      | nil =>
        rw [List.nil_append, maskDsns_cons hat] at h
        exact absurd List.mem_cons_self h
      | cons c o =>
        rw [List.cons_append] at h hat
        rw [maskDsns_cons hat] at h
        rw [List.length_cons] at hn
        obtain ⟨hopens, hmeets⟩ := ih o.length (by omega) (fun hmem => h (List.mem_cons_of_mem _ hmem)) rfl
        exact ⟨opensDsn_append [c] hopens, hmeets⟩
    | some r =>
      obtain ⟨before, behind, rest⟩ := r
      obtain ⟨password, e, rfl, happ, hopens, hp, he⟩ := dsnAt_some hat
      have hout : maskDsns (o ++ z :: w) = before ++ mask ++ [e] ++ maskDsns rest := by
        cases o with
        | nil => exact maskDsns_match hat
        | cons c o => exact maskDsns_match hat
      rw [hout] at h
      have hplace : z ∈ before ∨ ∃ p, o = before ++ p ∧ password ++ e :: rest = p ++ z :: w := by
        rcases List.append_eq_append_iff.mp happ with ⟨b, hb, hz⟩ | ⟨p, hp, hz⟩
        · cases b with
          | nil => exact Or.inr ⟨[], by rw [hb]; simp, hz.symm⟩
          | cons x b =>
            obtain ⟨rfl, -⟩ := List.cons.inj hz
            exact Or.inl (by simp [hb])
        · exact Or.inr ⟨p, hp, hz⟩
      rcases hplace with hmem | ⟨p, rfl, hz⟩
      · exact absurd (by simp [hmem]) h
      rcases List.append_eq_append_iff.mp hz with ⟨o', rfl, hrest⟩ | ⟨q, rfl, hw⟩
      · -- behind the match
        cases o' with
        | nil =>
          obtain ⟨rfl, -⟩ := List.cons.inj hrest
          exact absurd (by simp) h
        | cons x o' =>
          obtain ⟨rfl, rfl⟩ := List.cons.inj hrest
          simp only [List.length_append, List.length_cons] at hn
          obtain ⟨hopens', hmeets⟩ := ih o'.length (by omega) (fun hmem => h (by simp [hmem])) rfl
          refine ⟨?_, hmeets⟩
          rw [← List.append_assoc, ← List.singleton_append, ← List.append_assoc]
          exact opensDsn_append _ hopens'
      · cases q with
        | nil =>
          obtain ⟨rfl, -⟩ := List.cons.inj hw
          exact absurd (by simp) h
        | cons x q =>
          obtain ⟨rfl, rfl⟩ := List.cons.inj hw
          have hleft : ∀ x ∈ p, inPassword x = true := fun x hx => hp x (List.mem_append_left _ hx)
          have hright : ∀ x ∈ z :: q, inPassword x = true := fun x hx => hp x (List.mem_append_right _ hx)
          have hdrop : (z :: q ++ e :: rest).dropWhile inPassword = e :: rest := by
            refine (takeWhile_all hright fun a ha => ?_).2
            obtain rfl := Option.some.inj ha
            unfold inPassword
            rw [he]
            rfl
          refine ⟨opensDsn_of [] (opensAt_append hopens hleft), ?_⟩
          show ((z :: q ++ e :: rest).dropWhile inPassword).head?.any _ = true
          rw [hdrop]
          simp [he]

/-- **What follows an open match is masked up to the `@`.** -/
theorem maskDsns_opened {o : List α} (h : opensDsn o = true) : ∃ a before, (∀ x ∈ a ++ before, x ∈ o) ∧
    ∀ z w e rest, inPassword z = true → (z :: w).dropWhile inPassword = e :: rest → char e = '@' →
      maskDsns (o ++ z :: w) = maskDsns a ++ (before ++ mask ++ [e] ++ maskDsns rest) := by
  obtain ⟨a, s, rfl, hs⟩ := opensDsn_some h
  have hbarrier : ∀ w : List α, Barrier (s ++ w) := by
    obtain ⟨x, y, c, u, d, p, rfl, hx, hy, -⟩ := opensAt_some hs
    exact fun w => barrier_scheme _ hx hy
  obtain ⟨before, p, hp, hat⟩ := dsnAt_opened hs
  refine ⟨a, before, fun x hx => ?_, fun z w e rest hz hdrop he => ?_⟩
  · rcases List.mem_append.mp hx with hx | hx
    · exact List.mem_append_left _ hx
    · exact List.mem_append_right _ (hp ▸ List.mem_append_left _ hx)
  · have hdsn : dsnAt (s ++ z :: w) = some (before, [e], rest) := by
      rw [hat z w hz, hdrop, hostAt, if_pos he]
    rw [List.append_assoc, maskDsns_append (hbarrier _)]
    congr 1
    cases s with
    | nil => cases hs
    | cons c s => exact maskDsns_match hdsn

end
end Redaction
end BackupHelper
