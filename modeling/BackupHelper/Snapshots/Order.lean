import BackupHelper.Snapshots

/-!
# Ids in the order of their times

The fields of a stamp have fixed widths, so stamps compare as the times they name.

* `stamp_lt`      a later second has a greater stamp;
* `engine_upto`   of two ids that the engine wrote, the greater one is not earlier.
-/

namespace BackupHelper
open Text Calendar

/-! ## texts of one length -/

theorem append_lt_append_of_lt {s t : Str} (h : s < t) (hl : s.length = t.length) (x y : Str) :
    s ++ x < t ++ y := by
  induction s generalizing t with
  | nil =>
    cases t with
    | nil => exact absurd h (lt_irrefl _)
    | cons d t => simp at hl
  | cons c s ih =>
    cases t with
    | nil => simp at hl
    | cons d t =>
      rcases List.cons_lt_cons_iff.mp h with hcd | ⟨rfl, hst⟩
      · exact List.Lex.rel hcd
      · exact List.Lex.cons (ih hst (by simpa using hl))

/-- the first of two fields decides, or the second -/
theorem append_lt_append_of_or {s t x y : Str} (hl : s.length = t.length)
    (h : s < t ∨ (s = t ∧ x < y)) : s ++ x < t ++ y := by
  rcases h with h | ⟨rfl, h⟩
  · exact append_lt_append_of_lt h hl x y
  · induction s with
    | nil => exact h
    | cons c s ih => exact List.Lex.cons (ih rfl)

/-! ## numbers -/

theorem digitChar_lt {a b : ℕ} (h : a % 10 < b % 10) : digitChar a < digitChar b := by
  have hd : ∀ j < 10, ∀ i < j, Char.ofNat (48 + i) < Char.ofNat (48 + j) := by decide
  exact hd _ (Nat.mod_lt _ (by omega)) _ h

theorem digitChar_congr {a b : ℕ} (h : a % 10 = b % 10) : digitChar a = digitChar b := by
  unfold digitChar
  rw [h]

theorem pad2_lt {a b : ℕ} (hb : b < 100) (h : a < b) : pad2 a < pad2 b := by
  unfold pad2
  by_cases he : a / 10 = b / 10
  · rw [he]
    exact List.Lex.cons (List.Lex.rel (digitChar_lt (by omega)))
  · exact List.Lex.rel (digitChar_lt (by omega))

theorem pad4_lt {a b : ℕ} (hb : b < 10000) (h : a < b) : pad4 a < pad4 b := by
  have hsplit : ∀ n, pad4 n = pad2 (n / 100) ++ pad2 n := by
    intro n
    show [_, _, _, _] = [_, _, _, _]
    rw [Nat.div_div_eq_div_mul]
  have hmod : ∀ n, pad2 n = pad2 (n % 100) := by
    intro n
    unfold pad2
    rw [digitChar_congr (show n / 10 % 10 = n % 100 / 10 % 10 by omega),
      digitChar_congr (show n % 10 = n % 100 % 10 by omega)]
  rw [hsplit, hsplit]
  refine append_lt_append_of_or rfl ?_
  by_cases he : a / 100 = b / 100
  · rw [he, hmod a, hmod b]
    exact Or.inr ⟨rfl, pad2_lt (Nat.mod_lt _ (by omega)) (by omega)⟩
  · exact Or.inl (pad2_lt (by omega) (by omega))

/-! ## civil dates -/

theorem daysBeforeMonth_mono (y : ℕ) {m n : ℕ} (hmn : m ≤ n) (hn : n ≤ 13) :
    daysBeforeMonth y m ≤ daysBeforeMonth y n := by
  have hl := leapDay_le y
  interval_cases n <;> interval_cases m <;> simp only [daysBeforeMonth] <;> omega

/-- a later day is later in its year, its month or its day -/
theorem civil_lt {d e : ℕ} (hd : 0 < d) (h : d < e) :
    yearOf d < yearOf e ∨ (yearOf d = yearOf e ∧
      (monthOf d < monthOf e ∨ (monthOf d = monthOf e ∧ dayOf d < dayOf e))) := by
  have he : 0 < e := Nat.lt_trans hd h
  obtain ⟨-, h1, -⟩ := yearOf_spec d hd
  obtain ⟨-, -, h2⟩ := yearOf_spec e he
  have hy : yearOf d ≤ yearOf e := by
    by_contra hlt
    have hmono := daysBeforeYear_mono (show yearOf e + 1 ≤ yearOf d by omega)
    omega
  rcases Nat.lt_or_eq_of_le hy with hy | hy
  · exact Or.inl hy
  · refine Or.inr ⟨hy, ?_⟩
    obtain ⟨-, -, h3⟩ := dayOfYear_spec d hd
    obtain ⟨-, -, h4⟩ := dayOfYear_spec e he
    obtain ⟨⟨-, h12⟩, h5, -⟩ := monthOf_spec d hd
    obtain ⟨-, h6, h7⟩ := monthOf_spec e he
    rw [← hy] at h4 h6 h7
    have hm : monthOf d ≤ monthOf e := by
      by_contra hlt
      have hmono := daysBeforeMonth_mono (yearOf d) (show monthOf e + 1 ≤ monthOf d by omega)
        (by omega)
      omega
    rcases Nat.lt_or_eq_of_le hm with hm | hm
    · exact Or.inl hm
    · refine Or.inr ⟨hm, ?_⟩
      unfold dayOf
      rw [← hy, ← hm]
      rw [← hm] at h6
      omega

/-! ## stamps -/

/-- **A later second has a greater stamp.** -/
theorem stamp_lt {s t : Datetime} (h : (toSecond s).Before (toSecond t)) : stamp s < stamp t := by
  have hyear := yearOf_le t.day t.day_pos t.day_le
  have hmonth := (monthOf_spec t.day t.day_pos).1
  have hday := dayOf_spec t.day t.day_pos
  have hlast := daysInMonth_le (yearOf t.day) _ hmonth
  unfold maxYear at hyear
  have hmicro := t.micro_lt
  unfold microsPerDay at hmicro
  have hthen : ∀ {a b x y : Str} {c : Char}, a.length = b.length → (a < b ∨ (a = b ∧ x < y)) →
      a ++ c :: x < b ++ c :: y := by
    intro a b x y c hl h
    exact append_lt_append_of_or hl (h.imp_right fun h => ⟨h.1, List.Lex.cons h.2⟩)
  unfold stamp
  refine hthen rfl ?_
  rcases h with h | ⟨hd, hm⟩
  · have hc := civil_lt s.day_pos (show s.day < t.day from h)
    rcases hc with hy | ⟨hy, hm | ⟨hm, hd⟩⟩
    · exact Or.inl (pad4_lt (by omega) hy)
    · rw [hy]
      exact Or.inr ⟨rfl, hthen rfl (Or.inl (pad2_lt (by omega) hm))⟩
    · rw [hy, hm]
      exact Or.inr ⟨rfl, hthen rfl (Or.inr ⟨rfl, hthen rfl (Or.inl (pad2_lt (by omega) hd))⟩)⟩
  · rw [show s.day = t.day from hd]
    refine Or.inr ⟨rfl, hthen rfl (Or.inr ⟨rfl, hthen rfl (Or.inr ⟨rfl, hthen rfl ?_⟩)⟩)⟩
    have hsec : s.micro / 1000000 < t.micro / 1000000 := by
      have hm' : s.micro / 1000000 * 1000000 < t.micro / 1000000 * 1000000 := hm
      omega
    have hh : t.hour < 100 := by unfold Datetime.hour; omega
    have hmi : t.minute < 100 := by unfold Datetime.minute; omega
    have hse : t.second < 100 := by unfold Datetime.second; omega
    have hcase : s.hour < t.hour ∨ (s.hour = t.hour ∧
        (s.minute < t.minute ∨ (s.minute = t.minute ∧ s.second < t.second))) := by
      unfold Datetime.hour Datetime.minute Datetime.second
      omega
    rcases hcase with h | ⟨he, h | ⟨he', h⟩⟩
    · exact Or.inl (pad2_lt hh h)
    · rw [he]
      exact Or.inr ⟨rfl, hthen rfl (Or.inl (pad2_lt hmi h))⟩
    · rw [he, he']
      exact Or.inr ⟨rfl, hthen rfl (Or.inr ⟨rfl, pad2_lt hse h⟩)⟩

/-- an id that the engine writes -/
def Engine (sid : Str) : Prop := ∃ t job, sid = newSnapshotId t job

theorem Engine.slug {q : Str} (h : Engine q) : q.all isSlugChar = true := by
  obtain ⟨time, job, rfl⟩ := h
  exact newSnapshotId_all time job

theorem Engine.named {sid : Str} (h : Engine sid) :
    ∃ t, (parseSnapshotId sid).1 = some (toSecond t) ∧ ∃ u, sid = stamp t ++ u := by
  obtain ⟨t, job, rfl⟩ := h
  refine ⟨t, by rw [parse_newSnapshotId], ?_⟩
  cases job with
  | none => exact ⟨[], by simp [newSnapshotId]⟩
  | some name => exact ⟨'_' :: jobSlug name, rfl⟩

/-- **Of two engine ids the greater one is not earlier.** -/
theorem engine_upto {s t : Str} (hs : Engine s) (ht : Engine t) (hst : s ≤ t) {ws wt : Datetime}
    (hws : (parseSnapshotId s).1 = some ws) (hwt : (parseSnapshotId t).1 = some wt) : ws.Upto wt := by
  obtain ⟨a, ha, x, rfl⟩ := hs.named
  obtain ⟨b, hb, y, rfl⟩ := ht.named
  obtain rfl := Option.some.inj (ha.symm.trans hws)
  obtain rfl := Option.some.inj (hb.symm.trans hwt)
  intro hlt
  have hl : (stamp b).length = (stamp a).length := by rw [stamp_length, stamp_length]
  exact absurd hst (not_le_of_gt (append_lt_append_of_lt (stamp_lt hlt) hl y x))

end BackupHelper
