import BackupHelper.Lib.Lines
import BackupHelper.Lib.Utf8

/-!
# The rows of the catalog query

psql prints the rows with NUL between the fields and NUL after every record, so the two cannot be
told apart; `nulRows` drops the empty piece after the last NUL and cuts the rest by the number of
columns.  The bytes may be in any encoding: one that is not UTF-8 is kept as a surrogate.

* `printedRows sep rows`     what psql prints, in bytes or in characters;
* `Stdout.raw`               the output as text;
* `nulRows data columns`     the rows that are read from it.

The rows that were printed are read (`nulRows_printed`), whatever their fields hold beside NUL.
-/

namespace BackupHelper
open Text Python Utf8

/-! ## what psql prints -/

section
variable {α : Type}

def printedRow (sep : α) (row : List (List α)) : List α := [sep].intercalate row ++ [sep]

def printedRows (sep : α) (rows : List (List (List α))) : List α := rows.flatMap (printedRow sep)

/-- every field with the separator after it -/
def terminated (sep : α) (fields : List (List α)) : List α := fields.flatMap (· ++ [sep])

theorem printedRow_terminated (sep : α) {row : List (List α)} (h : row ≠ []) :
    printedRow sep row = terminated sep row := by
  induction row with
  | nil => exact absurd rfl h
  | cons f row ih =>
    cases row with
    | nil => simp [printedRow, terminated]
    | cons g row =>
      have htail := ih (List.cons_ne_nil g row)
      calc printedRow sep (f :: g :: row)
          = f ++ [sep] ++ printedRow sep (g :: row) := by
            simp [printedRow, List.intercalate_cons_cons]
        _ = terminated sep (f :: g :: row) := by
            rw [htail]
            rfl

theorem printedRows_terminated (sep : α) {rows : List (List (List α))} (h : ∀ r ∈ rows, r ≠ []) :
    printedRows sep rows = terminated sep rows.flatten := by
  induction rows with
  | nil => rfl
  | cons r rows ih =>
    have hrow := printedRow_terminated sep (h r List.mem_cons_self)
    have hrest := ih fun r' hr' => h r' (List.mem_cons_of_mem r hr')
    calc printedRows sep (r :: rows) = printedRow sep r ++ printedRows sep rows := rfl
      _ = terminated sep r ++ terminated sep rows.flatten := by rw [hrow, hrest]
      _ = terminated sep (r :: rows).flatten := List.flatMap_append.symm

theorem split_terminated [DecidableEq α] {sep : α} {fields : List (List α)}
    (h : ∀ f ∈ fields, sep ∉ f) : (terminated sep fields).splitOn sep = fields ++ [[]] := by
  induction fields with
  | nil => rfl
  | cons f fields ih =>
    have hrest := ih fun g hg => h g (List.mem_cons_of_mem f hg)
    show (f ++ [sep] ++ terminated sep fields).splitOn sep = _
    rw [List.append_assoc, List.singleton_append,
      List.splitOn_append_cons_self_of_not_mem (h f List.mem_cons_self), hrest]
    rfl

end

/-! ## reading it -/

/-- what `subprocess.run` returns as `stdout` -/
inductive Stdout where
  | bytes (b : Octets)
  | text (t : PyText)
  | none

def Stdout.raw : Stdout → PyText
  | .bytes b => decode b
  | .text t => t
  | .none => []

def nul : CodePoint := .char '\x00'

def isSpacePoint : CodePoint → Bool
  | .char c => c ∈ spaces
  | .surrogate _ => false

def stripText (t : PyText) : PyText :=
  ((t.dropWhile isSpacePoint).reverse.dropWhile isSpacePoint).reverse

/-- without the piece after the last separator -/
def withoutLast (fields : List PyText) : List PyText :=
  match fields.getLast? with
  | some f => if stripText f = [] then fields.dropLast else fields
  | none => fields

/-- `range(0, stop, step)` -/
def rangeSteps (stop step : ℕ) : List ℕ := (List.range ((stop + step - 1) / step)).map (step * ·)

/-- none where `range` raises -/
def nulRows (data : Stdout) (columns : ℕ) : Option (List (List PyText)) :=
  if columns = 0 then none
  else
    let fields := withoutLast (data.raw.splitOn nul)
    some ((rangeSteps (fields.length + 1 - columns) columns).map fun i => (fields.drop i).take columns)

example : nulRows (.bytes [0x61, 0, 0xE9, 0, 0x20, 0, 0]) 2 =
    some [[lit ['a'], [.surrogate 0xDCE9]], [lit [' '], []]] := by decide +kernel

/-! ## cut by count -/

theorem withoutLast_empty (fields : List PyText) : withoutLast (fields ++ [[]]) = fields := by
  unfold withoutLast
  rw [List.getLast?_concat]
  exact List.dropLast_concat

theorem length_flatten_rows {α : Type} {n : ℕ} {rows : List (List α)} (h : ∀ r ∈ rows, r.length = n) :
    rows.flatten.length = n * rows.length := by
  induction rows with
  | nil => rfl
  | cons r rows ih =>
    have hr := h r List.mem_cons_self
    have hrest := ih fun r' hr' => h r' (List.mem_cons_of_mem r hr')
    rw [List.flatten_cons, List.length_append, hr, hrest, List.length_cons, Nat.mul_succ, Nat.add_comm]

/-- as many steps as there are whole rows -/
theorem rangeSteps_rows {n : ℕ} (hn : 0 < n) (k : ℕ) :
    rangeSteps (n * k + 1 - n) n = (List.range k).map (n * ·) := by
  have hcount : (n * k + 1 - n + n - 1) / n = k := by
    cases k with
    | zero =>
      have hzero : n * 0 + 1 - n + n - 1 = n - 1 := by omega
      rw [hzero]
      exact Nat.div_eq_of_lt (by omega)
    | succ k =>
      have hwhole : n * (k + 1) + 1 - n + n - 1 = n * (k + 1) := by
        have hle : n ≤ n * (k + 1) := Nat.le_mul_of_pos_right n k.succ_pos
        omega
      rw [hwhole]
      exact Nat.mul_div_cancel_left (k + 1) hn
  unfold rangeSteps
  rw [hcount]

theorem cut_flatten {α : Type} {n : ℕ} {rows : List (List α)} (h : ∀ r ∈ rows, r.length = n) :
    (List.range rows.length).map (fun j => (rows.flatten.drop (n * j)).take n) = rows := by
  induction rows with
  | nil => rfl
  | cons r rows ih =>
    have hr := h r List.mem_cons_self
    have hrest := ih fun r' hr' => h r' (List.mem_cons_of_mem r hr')
    have hfirst : ((r :: rows).flatten.drop (n * 0)).take n = r := by
      rw [List.flatten_cons, Nat.mul_zero, List.drop_zero, ← hr, List.take_left]
    have hlater : ∀ j, (r :: rows).flatten.drop (n * (j + 1)) = rows.flatten.drop (n * j) := by
      intro j
      rw [List.flatten_cons, Nat.mul_succ, Nat.add_comm, ← List.drop_drop, ← hr, List.drop_left]
    rw [List.length_cons, List.range_succ_eq_map, List.map_cons, List.map_map, hfirst]
    refine congrArg (r :: ·) ?_
    calc (List.range rows.length).map
          ((fun j => ((r :: rows).flatten.drop (n * j)).take n) ∘ Nat.succ)
        = (List.range rows.length).map (fun j => (rows.flatten.drop (n * j)).take n) := by
          refine List.map_congr_left fun j _ => ?_
          show ((r :: rows).flatten.drop (n * (j + 1))).take n = _
          rw [hlater]
      _ = rows := hrest

/-- **terminated fields are read as the rows they make up** -/
theorem nulRows_of_raw {n : ℕ} (hn : 0 < n) {data : Stdout} {rows : List (List PyText)}
    (hraw : data.raw = terminated nul rows.flatten)
    (h : ∀ r ∈ rows, r.length = n ∧ ∀ f ∈ r, nul ∉ f) : nulRows data n = some rows := by
  have hlen : ∀ r ∈ rows, r.length = n := fun r hr => (h r hr).1
  have hfree : ∀ f ∈ rows.flatten, nul ∉ f := by
    intro f hf
    obtain ⟨r, hr, hfr⟩ := List.mem_flatten.mp hf
    exact (h r hr).2 f hfr
  have hfields : withoutLast (data.raw.splitOn nul) = rows.flatten := by
    rw [hraw, split_terminated hfree, withoutLast_empty]
  unfold nulRows
  rw [if_neg hn.ne', hfields]
  dsimp only
  rw [length_flatten_rows hlen, rangeSteps_rows hn, List.map_map]
  exact congrArg some (cut_flatten hlen)

/-! ## bytes in any encoding -/

theorem decode_terminated (fields : List Octets) :
    decode (terminated 0 fields) = terminated nul (fields.map decode) := by
  induction fields with
  | nil => rfl
  | cons f fields ih =>
    have hnul : decode (0 :: terminated 0 fields) = nul :: decode (terminated 0 fields) :=
      decode_encoded '\x00' (terminated 0 fields)
    show decode (f ++ [0] ++ terminated 0 fields) = _
    rw [List.append_assoc, List.singleton_append, decode_append (by decide), hnul, ih]
    show _ = decode f ++ [nul] ++ terminated nul (fields.map decode)
    rw [List.append_assoc, List.singleton_append]

theorem nul_free_decode {f : Octets} (h : 0 ∉ f) : nul ∉ decode f := fun hmem =>
  h (mem_of_char_mem (c := '\x00') rfl hmem)

/-- `t` is what a field of these bytes is read as: the bytes can be had back from it, and bytes of
UTF-8 are the text they encode -/
structure Decoded (f : Octets) (t : PyText) : Prop where
  back : encodeBack t = some f
  text : ∀ s, f = utf8 s → t = lit s

theorem decoded_decode (f : Octets) : Decoded f (decode f) where
  back := encodeBack_decode f
  text := by
    intro s hs
    rw [hs, decode_utf8]

theorem decoded_rows (rows : List (List Octets)) :
    List.Forall₂ (List.Forall₂ Decoded) rows (rows.map (·.map decode)) :=
  List.forall₂_map_right_iff.mpr (List.forall₂_same.mpr fun _ _ =>
    List.forall₂_map_right_iff.mpr (List.forall₂_same.mpr fun f _ => decoded_decode f))

theorem row_ne_nil {α : Type} {n : ℕ} (hn : 0 < n) {r : List α} (h : r.length = n) : r ≠ [] := by
  rintro rfl
  exact hn.ne h

theorem nulRows_bytes {n : ℕ} (hn : 0 < n) {rows : List (List Octets)}
    (h : ∀ r ∈ rows, r.length = n ∧ ∀ f ∈ r, 0 ∉ f) :
    nulRows (.bytes (printedRows 0 rows)) n = some (rows.map (·.map decode)) := by
  refine nulRows_of_raw hn ?_ ?_
  · show decode (printedRows 0 rows) = _
    rw [printedRows_terminated 0 fun r hr => row_ne_nil hn (h r hr).1, decode_terminated,
      List.map_flatten]
  · intro r' hr'
    obtain ⟨r, hr, rfl⟩ := List.mem_map.mp hr'
    refine ⟨by rw [List.length_map, (h r hr).1], fun t ht => ?_⟩
    obtain ⟨f, hf, rfl⟩ := List.mem_map.mp ht
    exact nul_free_decode ((h r hr).2 f hf)

/-! ## texts -/

theorem utf8_append (s t : Str) : utf8 (s ++ t) = utf8 s ++ utf8 t := List.flatMap_append

theorem utf8_terminated (fields : List Str) :
    utf8 (terminated '\x00' fields) = terminated 0 (fields.map utf8) := by
  induction fields with
  | nil => rfl
  | cons f fields ih =>
    show utf8 (f ++ ['\x00'] ++ terminated '\x00' fields) = _
    rw [utf8_append, utf8_append, ih]
    rfl

theorem utf8_printedRows {rows : List (List Str)} (h : ∀ r ∈ rows, r ≠ []) :
    utf8 (printedRows '\x00' rows) = printedRows 0 (rows.map (·.map utf8)) := by
  have hmap : ∀ r ∈ rows.map (·.map utf8), r ≠ [] := by
    intro r' hr'
    obtain ⟨r, hr, rfl⟩ := List.mem_map.mp hr'
    exact fun hnil => h r hr (List.map_eq_nil_iff.mp hnil)
  rw [printedRows_terminated _ h, printedRows_terminated _ hmap, utf8_terminated, List.map_flatten]

theorem zero_free_utf8 {s : Str} (h : '\x00' ∉ s) : 0 ∉ utf8 s := by
  intro hmem
  obtain ⟨c, hc, hzero⟩ := List.mem_flatMap.mp hmem
  obtain ⟨u, v, huv⟩ := List.append_of_mem hzero
  have hu : u = [] := first_byte (by decide) huv
  have hnext : next (String.utf8EncodeChar '\x00' ++ v) = some c := by
    have henc := next_encoded c []
    rwa [List.append_nil, huv, hu] at henc
  rw [next_encoded] at hnext
  exact h (Option.some.inj hnext ▸ hc)

/-! ## the rows that were printed -/

/-- **the rows that were printed are read**: texts as they are, texts in UTF-8 as they were, and
bytes of any kind as texts that are encoded back to them -/
theorem nulRows_printed {n : ℕ} (hn : 0 < n) :
    (∀ rows : List (List PyText), (∀ r ∈ rows, r.length = n ∧ ∀ f ∈ r, nul ∉ f) →
      nulRows (.text (printedRows nul rows)) n = some rows) ∧
    (∀ rows : List (List Str), (∀ r ∈ rows, r.length = n ∧ ∀ f ∈ r, '\x00' ∉ f) →
      nulRows (.bytes (utf8 (printedRows '\x00' rows))) n = some (rows.map (·.map lit))) ∧
    ∀ rows : List (List Octets), (∀ r ∈ rows, r.length = n ∧ ∀ f ∈ r, 0 ∉ f) →
      ∃ got, nulRows (.bytes (printedRows 0 rows)) n = some got ∧
        List.Forall₂ (List.Forall₂ Decoded) rows got := by
  refine ⟨fun rows h => ?_, fun rows h => ?_, fun rows h => ?_⟩
  · refine nulRows_of_raw hn ?_ h
    show printedRows nul rows = _
    exact printedRows_terminated nul fun r hr => row_ne_nil hn (h r hr).1
  · have hbytes : ∀ r ∈ rows.map (·.map utf8), r.length = n ∧ ∀ f ∈ r, 0 ∉ f := by
      intro r' hr'
      obtain ⟨r, hr, rfl⟩ := List.mem_map.mp hr'
      refine ⟨by rw [List.length_map, (h r hr).1], fun f hf => ?_⟩
      obtain ⟨s, hs, rfl⟩ := List.mem_map.mp hf
      exact zero_free_utf8 ((h r hr).2 s hs)
    rw [utf8_printedRows fun r hr => row_ne_nil hn (h r hr).1, nulRows_bytes hn hbytes, List.map_map]
    refine congrArg some (List.map_congr_left fun r _ => ?_)
    show (r.map utf8).map decode = r.map lit
    rw [List.map_map]
    exact List.map_congr_left fun s _ => decode_utf8 s
  · exact ⟨rows.map (·.map decode), nulRows_bytes hn h, decoded_rows rows⟩

/-- two rows, the last fields blank and empty, one of them not UTF-8 -/
theorem nulRows_printed_two :
    nulRows (.text (printedRows nul [[lit ['a'], lit [' ']], [[.surrogate 0xDCE9], []]])) 2 =
      some [[lit ['a'], lit [' ']], [[.surrogate 0xDCE9], []]] ∧
    nulRows (.bytes (utf8 (printedRows '\x00' [[['\u00e9'], [' ']], [[], []]]))) 2 =
      some [[lit ['\u00e9'], lit [' ']], [[], []]] ∧
    ∃ got, nulRows (.bytes (printedRows 0 [[[0xE9], [0x20]], [[0xC3], []]])) 2 = some got ∧
      List.Forall₂ (List.Forall₂ Decoded) [[[0xE9], [0x20]], [[0xC3], []]] got :=
  ⟨(nulRows_printed (by decide)).1 _ (by decide), (nulRows_printed (by decide)).2.1 _ (by decide),
    (nulRows_printed (by decide)).2.2 _ (by decide)⟩

end BackupHelper
