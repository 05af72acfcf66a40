import BackupHelper.Sources.Replacement

/-!
# Reading the table of contents

The format is unquoted: `dumpKeys` cuts the owner off the end of an entry by the longest role name
that the entry ends with.

* `ListingLine`        a comment, or an entry of any catalog;
* `OwnerTold`          no role with a longer name than the owner ends the entry;
* `lineKey_iff`        an entry is read as it was written exactly if its owner is told;
* `dumpKeys_exact`     **then exactly the entries of the five catalogs are read.**
-/

namespace BackupHelper
open Text

inductive ListingLine where
  | comment (text : Str)
  | entry (e : TocEntry)
  deriving DecidableEq

def ListingLine.text : ListingLine → Str
  | .comment text => ';' :: text
  | .entry e => e.line

def catalogs : List ℕ := [1247, 1255, 1259, 2606, 2615]

/-- `<type> <schema> <name>` -/
def TocEntry.key (e : TocEntry) : Str := e.type ++ ' ' :: e.schema ++ ' ' :: e.name

/-- texts of one line each, the type beginning with a word -/
structure Printable (e : TocEntry) : Prop where
  type : ∃ c t, e.type = c :: t ∧ isSpace c = false
  typeLine : oneLine e.type
  schemaLine : oneLine e.schema
  nameLine : oneLine e.name
  ownerLine : oneLine e.owner

/-- no longer role name than the owner's ends the entry -/
def OwnerTold (roles : List Str) (e : TocEntry) : Prop :=
  ∀ r ∈ roles, ' ' :: r <:+ e.rest → r.length ≤ e.owner.length

/-! ## numbers -/

theorem isDecimal_digit {c : Char} (h : c.isDigit = true) : isDecimal c = true := by
  have hc : 48 ≤ c.toNat ∧ c.toNat < 58 := by
    simp only [Char.isDigit, Bool.and_eq_true, decide_eq_true_eq] at h
    obtain ⟨h1, h2⟩ := h
    exact ⟨h1, Nat.lt_succ_of_le h2⟩
  unfold isDecimal decimal decimalStarts
  rw [List.find?_cons_of_pos]
  · rfl
  · simp only [Bool.and_eq_true, decide_eq_true_eq]
    omega

theorem isSpace_digit {c : Char} (h : c.isDigit = true) : isSpace c = false := by
  have hall : spaces.all (fun d => !d.isDigit) = true := by decide
  unfold isSpace
  rw [decide_eq_false_iff_not]
  intro hmem
  have hnot := List.all_eq_true.mp hall c hmem
  rw [h] at hnot
  cases hnot

theorem oneLine_digits (n : ℕ) : oneLine (digits n) := by
  have hall : lineBreaks.all (fun d => !d.isDigit) = true := by decide
  intro c hc hmem
  have hdigit : c.isDigit = true := Nat.isDigit_of_mem_toDigits (by decide) (by decide) hc
  have hnot := List.all_eq_true.mp hall c hmem
  rw [hdigit] at hnot
  cases hnot

theorem digit_of_mem {n : ℕ} {c : Char} (h : c ∈ digits n) : c.isDigit = true :=
  Nat.isDigit_of_mem_toDigits (by decide) (by decide) h

theorem digits_inj {m n : ℕ} (h : digits m = digits n) : m = n := by
  have hm : Nat.ofDigitChars 10 (digits m) 0 = m := Nat.ofDigitChars_toDigits (by decide) (by decide)
  have hn : Nat.ofDigitChars 10 (digits n) 0 = n := Nat.ofDigitChars_toDigits (by decide) (by decide)
  rw [← hm, ← hn, h]

theorem tocCatalogs_eq : tocCatalogs = catalogs.map digits := by decide

theorem digits_mem_tocCatalogs {n : ℕ} : digits n ∈ tocCatalogs ↔ n ∈ catalogs := by
  rw [tocCatalogs_eq, List.mem_map]
  constructor
  · rintro ⟨m, hm, he⟩
    rwa [← digits_inj he]
  · exact fun h => ⟨n, h, rfl⟩

/-- the number is consumed up to what follows it -/
theorem skip1_digits (n : ℕ) {t : Str} (ht : ∀ c ∈ t.head?, isDecimal c = false) :
    skip1 isDecimal (digits n ++ t) = some t :=
  skip1_append Nat.toDigits_ne_nil (fun _ hc => isDecimal_digit (digit_of_mem hc)) ht

theorem skip1_space {t : Str} (ht : ∀ c ∈ t.head?, isSpace c = false) : skip1 isSpace (' ' :: t) = some t :=
  skip1_append (List.cons_ne_nil ' ' []) (fun c hc => by rw [List.mem_singleton.mp hc]; decide) ht

theorem head_cons {p : Char → Bool} {c : Char} (h : p c = false) (t : Str) :
    ∀ d ∈ (c :: t).head?, p d = false := by
  intro d hd
  rwa [← Option.some.inj hd]

theorem head_digits (n : ℕ) (t : Str) : ∀ c ∈ (digits n ++ t).head?, isSpace c = false := by
  intro c hc
  cases hd : digits n with
  | nil => exact absurd hd Nat.toDigits_ne_nil
  | cons d s =>
    rw [hd] at hc
    obtain rfl := Option.some.inj hc
    exact isSpace_digit (digit_of_mem (by rw [hd]; exact List.mem_cons_self))

/-! ## one line -/

/-- where the first four characters of another number read as one of the catalogs, a digit follows -/
theorem digit_follows {n : ℕ} (hn : n ∉ catalogs) {t : Str}
    (hin : (digits n ++ ' ' :: t).take 4 ∈ tocCatalogs) :
    ∃ d u, d.isDigit = true ∧ (digits n ++ ' ' :: t).drop 4 = d :: u := by
  have hall : ∀ s ∈ tocCatalogs, s.all (·.isDigit) = true := by decide
  have hdigits : ∀ s ∈ tocCatalogs, ∀ c ∈ s, c.isDigit = true := fun s hs =>
    List.all_eq_true.mp (hall s hs)
  rcases lt_trichotomy (digits n).length 4 with hl | hl | hl
  · have hspace : ' ' ∈ (digits n ++ ' ' :: t).take 4 := by
      rw [List.take_append]
      refine List.mem_append_right _ ?_
      have hm : 4 - (digits n).length = 3 - (digits n).length + 1 := by omega
      rw [hm]
      exact List.mem_cons_self
    exact absurd (hdigits _ hin _ hspace) (by decide)
  · rw [← hl, List.take_left] at hin
    exact absurd (digits_mem_tocCatalogs.mp hin) hn
  · cases hd : (digits n).drop 4 with
    | nil =>
      have := List.drop_eq_nil_iff.mp hd
      omega
    | cons d u =>
      refine ⟨d, u ++ ' ' :: t, ?_, ?_⟩
      · exact digit_of_mem (List.mem_of_mem_drop (by rw [hd]; exact List.mem_cons_self))
      · rw [List.drop_append_of_le_length hl.le, hd]
        rfl

/-- an entry of the five catalogs is read from its type on -/
theorem tocEntry_line (e : TocEntry) (h : Printable e) :
    tocEntry e.line = if e.catalog ∈ catalogs then some e.rest else none := by
  have hrest : ∀ c ∈ e.rest.head?, isSpace c = false := by
    obtain ⟨d, t, ht, hd⟩ := h.type
    intro c hc
    unfold TocEntry.rest at hc
    rw [ht] at hc
    obtain rfl := Option.some.inj hc
    exact hd
  have hid : skip1 isDecimal e.line =
      some (';' :: ' ' :: (digits e.catalog ++ ' ' :: digits e.oid ++ ' ' :: e.rest)) := by
    unfold TocEntry.line
    simp only [List.append_assoc]
    exact skip1_digits e.dumpId (head_cons (by decide) _)
  have hafter : digits e.catalog ++ ' ' :: digits e.oid ++ ' ' :: e.rest =
      digits e.catalog ++ ' ' :: (digits e.oid ++ ' ' :: e.rest) := by simp
  unfold tocEntry
  rw [hid]
  simp only [Option.bind_eq_bind, Option.bind_some]
  rw [skip1_space (by rw [List.append_assoc]; exact head_digits _ _), hafter]
  simp only [Option.bind_some]
  by_cases hmem : e.catalog ∈ catalogs
  · have hin := digits_mem_tocCatalogs.mpr hmem
    have hfour : (digits e.catalog).length = 4 := by
      have hlen : ∀ t ∈ tocCatalogs, t.length = 4 := by decide
      exact hlen _ hin
    rw [if_pos hmem, ← hfour, List.take_left, List.drop_left, if_pos hin, skip1_space (head_digits _ _)]
    simp only [Option.bind_some]
    rw [skip1_digits _ (head_cons (by decide) _)]
    exact skip1_space hrest
  · rw [if_neg hmem]
    split
    · rename_i hin
      obtain ⟨d, u, hd, hdrop⟩ := digit_follows hmem hin
      have hskip : skip1 isSpace (d :: u) = none := by simp [skip1, isSpace_digit hd]
      rw [hdrop, hskip]
      rfl
    · rfl

theorem tocEntry_comment (text : Str) : tocEntry (';' :: text) = none := by
  have hskip : skip1 isDecimal (';' :: text) = none := by
    have hdec : isDecimal ';' = false := by decide
    simp [skip1, hdec]
  unfold tocEntry
  rw [hskip]
  rfl

/-! ## the owner -/

theorem sanitized_oneLine {s : Str} (h : oneLine s) : sanitized s = s := by
  have hall : ∀ c ∈ s, (if c = '\n' ∨ c = '\r' then ' ' else c) = c := by
    intro c hc
    rw [if_neg]
    rintro (rfl | rfl)
    · exact h _ hc (by decide)
    · exact h _ hc (by decide)
  exact (List.map_congr_left hall).trans (List.map_id s)

theorem rest_eq {e : TocEntry} (h : Printable e) : e.rest = e.key ++ ' ' :: e.owner := by
  unfold TocEntry.rest TocEntry.key
  rw [sanitized_oneLine h.schemaLine, sanitized_oneLine h.nameLine, sanitized_oneLine h.ownerLine]

/-- the longest role name that the text ends with is cut off -/
theorem withoutOwner_spec {roles : List Str} {rest owner : Str} (hmem : owner ∈ roles)
    (hend : ' ' :: owner <:+ rest) : ∃ r ∈ roles, ' ' :: r <:+ rest ∧
      (∀ r' ∈ roles, ' ' :: r' <:+ rest → r'.length ≤ r.length) ∧
      withoutOwner roles rest = rest.take (rest.length - (r.length + 1)) := by
  have hsorted : ((roles.map (' ' :: ·)).insertionSort (fun a b => b.length ≤ a.length)).Pairwise
      (fun a b => b.length ≤ a.length) := List.pairwise_insertionSort _ _
  have hin : ∀ s, s ∈ (roles.map (' ' :: ·)).insertionSort (fun a b => b.length ≤ a.length) ↔
      ∃ r ∈ roles, ' ' :: r = s := by
    intro s
    rw [List.mem_insertionSort, List.mem_map]
  unfold withoutOwner
  simp only
  cases hf : ((roles.map (' ' :: ·)).insertionSort (fun a b => b.length ≤ a.length)).find?
      (·.isSuffixOf rest) with
  | none =>
    have hnot := List.find?_eq_none.mp hf _ ((hin _).mpr ⟨owner, hmem, rfl⟩)
    exact absurd (List.isSuffixOf_iff_suffix.mpr hend) hnot
  | some s =>
    obtain ⟨hs, before, after, hsplit, hbefore⟩ := List.find?_eq_some_iff_append.mp hf
    obtain ⟨r, hr, rfl⟩ := (hin s).mp (by rw [hsplit]; simp)
    refine ⟨r, hr, List.isSuffixOf_iff_suffix.mp hs, fun r' hr' hend' => ?_, by simp⟩
    have hr'' := (hin _).mpr ⟨r', hr', rfl⟩
    rw [hsplit] at hr'' hsorted
    rcases List.mem_append.mp hr'' with hb | hb
    · have hno := hbefore _ hb
      rw [List.isSuffixOf_iff_suffix.mpr hend'] at hno
      cases hno
    · have hle : ∀ b ∈ (' ' :: r) :: after, b.length ≤ (' ' :: r).length := by
        intro b hb
        rcases List.mem_cons.mp hb with rfl | hb
        · exact le_rfl
        · exact List.rel_of_pairwise_cons (List.pairwise_append.mp hsorted).2.1 hb
      have := hle _ hb
      simpa using this

/-- **An entry is read as it was written exactly if its owner is told.** -/
theorem lineKey_iff {roles : List Str} {e : TocEntry} (h : Printable e) (hcatalog : e.catalog ∈ catalogs)
    (howner : e.owner ∈ roles) : lineKey roles e.line = some e.key ↔ OwnerTold roles e := by
  have hend : ' ' :: e.owner <:+ e.rest := by
    rw [rest_eq h]
    exact List.suffix_append _ _
  obtain ⟨r, hr, hrend, hlongest, hcut⟩ := withoutOwner_spec howner hend
  have hkey : lineKey roles e.line = some (withoutOwner roles e.rest) := by
    unfold lineKey
    rw [tocEntry_line e h, if_pos hcatalog]
    rfl
  have hle := hlongest _ howner hend
  have hlen : e.rest.length = e.key.length + (e.owner.length + 1) := by
    rw [rest_eq h, List.length_append, List.length_cons]
  have hrlen := hrend.length_le
  rw [List.length_cons] at hrlen
  rw [hkey, Option.some.injEq, hcut]
  constructor
  · intro he r' hr' hend'
    have hl := congrArg List.length he
    rw [List.length_take] at hl
    have := hlongest r' hr' hend'
    omega
  · intro htold
    have := htold r hr hrend
    have hcount : e.rest.length - (r.length + 1) = e.key.length := by omega
    rw [hcount, rest_eq h, List.take_left]

/-! ## the listing -/

/-- what a line of the listing has to be -/
def ListingLine.WellFormed : ListingLine → Prop
  | .comment text => oneLine text
  | .entry e => Printable e

theorem ListingLine.WellFormed.oneLine {l : ListingLine} (h : l.WellFormed) : oneLine l.text := by
  cases l with
  | comment text =>
    intro c hc
    rcases List.mem_cons.mp hc with rfl | hc
    · decide
    · exact h c hc
  | entry e =>
    have hspace : ∀ {s : Str}, Text.oneLine s → Text.oneLine (' ' :: s) := by
      intro s hs c hc
      rcases List.mem_cons.mp hc with rfl | hc
      · decide
      · exact hs c hc
    have hrest : Text.oneLine e.rest := by
      rw [rest_eq h]
      unfold TocEntry.key
      exact oneLine_append (oneLine_append (oneLine_append h.typeLine (hspace h.schemaLine))
        (hspace h.nameLine)) (hspace h.ownerLine)
    show Text.oneLine e.line
    unfold TocEntry.line
    exact oneLine_append (oneLine_append (oneLine_append (oneLine_append (oneLine_digits _) (by decide))
      (oneLine_digits _)) (hspace (oneLine_digits _))) (hspace hrest)

/-- **`dumpKeys` reads the table of contents exactly**, where no longer role name than its owner's ends
an entry. -/
theorem dumpKeys_exact (lines : List ListingLine) (roles : List Str)
    (hlines : ∀ l ∈ lines, l.WellFormed)
    (howners : ∀ e, .entry e ∈ lines → e.owner ∈ roles)
    (htold : ∀ e, .entry e ∈ lines → e.catalog ∈ catalogs → OwnerTold roles e) (k : Str) :
    k ∈ dumpKeys (unlines (lines.map (·.text))) roles ↔
      ∃ e, .entry e ∈ lines ∧ e.catalog ∈ catalogs ∧ k = e.key := by
  have hsplit : splitlines (unlines (lines.map (·.text))) = lines.map (·.text) := by
    apply splitlines_unlines
    intro l hl
    obtain ⟨line, hline, rfl⟩ := List.mem_map.mp hl
    exact (hlines line hline).oneLine
  rw [mem_dumpKeys, hsplit]
  have hread : ∀ e, .entry e ∈ lines → e.catalog ∈ catalogs → lineKey roles e.line = some e.key :=
    fun e he hc => (lineKey_iff (hlines _ he) hc (howners e he)).mpr (htold e he hc)
  constructor
  · rintro ⟨text, htext, hkey⟩
    obtain ⟨line, hline, rfl⟩ := List.mem_map.mp htext
    cases line with
    | comment text =>
      have hnone : lineKey roles (';' :: text) = none := by
        unfold lineKey
        rw [tocEntry_comment]
        rfl
      rw [show (ListingLine.comment text).text = ';' :: text from rfl, hnone] at hkey
      cases hkey
    | entry e =>
      have hkey' : lineKey roles e.line = some k := hkey
      by_cases hc : e.catalog ∈ catalogs
      · rw [hread e hline hc] at hkey'
        exact ⟨e, hline, hc, (Option.some.inj hkey').symm⟩
      · unfold lineKey at hkey'
        rw [tocEntry_line e (hlines _ hline), if_neg hc] at hkey'
        cases hkey'
  · rintro ⟨e, he, hc, rfl⟩
    exact ⟨e.line, List.mem_map.mpr ⟨_, he, rfl⟩, hread e he hc⟩

/-- a table whose name ends in a word, and its schema's data -/
def auditLines : List ListingLine :=
  [.comment " Archive created".toList,
    .entry ⟨7, 1259, 16502, "TABLE".toList, "public".toList, "audit log".toList, "app".toList⟩,
    .entry ⟨9, 0, 16502, "TABLE DATA".toList, "public".toList, "audit log".toList, "app".toList⟩]

theorem auditLines_wellFormed : ∀ l ∈ auditLines, l.WellFormed := by
  have hprint : ∀ e ∈ [(⟨7, 1259, 16502, "TABLE".toList, "public".toList, "audit log".toList,
      "app".toList⟩ : TocEntry), ⟨9, 0, 16502, "TABLE DATA".toList, "public".toList,
        "audit log".toList, "app".toList⟩], Printable e := by
    intro e he
    simp only [List.mem_cons, List.not_mem_nil, or_false] at he
    rcases he with rfl | rfl
    · exact ⟨⟨_, _, rfl, by decide⟩, by decide, by decide, by decide, by decide⟩
    · exact ⟨⟨_, _, rfl, by decide⟩, by decide, by decide, by decide, by decide⟩
  intro l hl
  simp only [auditLines, List.mem_cons, List.not_mem_nil, or_false] at hl
  rcases hl with rfl | rfl | rfl
  · exact (by decide : oneLine " Archive created".toList)
  · exact hprint _ List.mem_cons_self
  · exact hprint _ (List.mem_cons_of_mem _ List.mem_cons_self)

theorem dumpKeys_exact_audit : "TABLE public audit log".toList ∈
    dumpKeys (unlines (auditLines.map (·.text))) ["postgres".toList, "app".toList] := by
  refine (dumpKeys_exact auditLines _ auditLines_wellFormed ?_ ?_ _).mpr
    ⟨_, List.mem_cons_of_mem _ List.mem_cons_self, by decide, by decide⟩
  · intro e he
    simp only [auditLines, List.mem_cons, List.not_mem_nil, or_false, reduceCtorEq, false_or,
      ListingLine.entry.injEq] at he
    rcases he with rfl | rfl <;> decide
  · intro e he _
    simp only [auditLines, List.mem_cons, List.not_mem_nil, or_false, reduceCtorEq, false_or,
      ListingLine.entry.injEq] at he
    unfold OwnerTold
    rcases he with rfl | rfl <;> decide

/-- **Where an owner is not told**: a role `log app` takes the end of the name along. -/
theorem audit_cut :
    let keys := dumpKeys (unlines (auditLines.map (·.text))) ["app".toList, "log app".toList]
    "TABLE public audit".toList ∈ keys ∧ "TABLE public audit log".toList ∉ keys ∧
      (∀ e, .entry e ∈ auditLines → e.owner ∈ ["app".toList, "log app".toList]) := by
  refine ⟨by decide +kernel, by decide +kernel, fun e he => ?_⟩
  simp only [auditLines, List.mem_cons, List.not_mem_nil, or_false, reduceCtorEq, false_or,
    ListingLine.entry.injEq] at he
  rcases he with rfl | rfl <;> decide

end BackupHelper
