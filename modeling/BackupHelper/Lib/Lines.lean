import BackupHelper.Lib.Text

/-!
# Lines and words of a text

* `splitlines`     the lines of a text, without the characters that end them;
* `strip`          the text without the white space around it;
* `skip1 p s`      `s` after one or more characters of `p`, as many as there are;
* `beforeLast c`   the part before the last `c`, or the whole text;
* `pieces c s`     the parts between the `c` of a text;
* `joined sep ss`  texts put together with `sep` between them.

A text whose lines were put together with line feeds is taken apart into the lines of its parts
(`splitlines_unlines`).
-/

namespace Text

def lineBreaks : Str :=
  ['\n', '\r', '\x0b', '\x0c', '\x1c', '\x1d', '\x1e', '\u0085', '\u2028', '\u2029']

def spaces : Str :=
  ['\t', '\n', '\x0b', '\x0c', '\r', '\x1c', '\x1d', '\x1e', '\x1f', ' ', '\u0085', '\u00a0', '\u1680',
    '\u2000', '\u2001', '\u2002', '\u2003', '\u2004', '\u2005', '\u2006', '\u2007', '\u2008', '\u2009',
    '\u200a', '\u2028', '\u2029', '\u202f', '\u205f', '\u3000']

def splitlines : Str → List Str
  | [] => []
  | '\r' :: '\n' :: s => [] :: splitlines s
  | c :: s =>
    if c ∈ lineBreaks then [] :: splitlines s
    else match splitlines s with
      | [] => [[c]]
      | l :: ls => (c :: l) :: ls

def lstrip (s : Str) : Str := s.dropWhile (· ∈ spaces)

def strip (s : Str) : Str := (lstrip (lstrip s).reverse).reverse

def skip1 (p : Char → Bool) : Str → Option Str
  | [] => none
  | c :: s => if p c then some (s.dropWhile p) else none

def beforeLast (c : Char) (s : Str) : Str :=
  match splitAt1 c s.reverse with
  | some (_, t) => t.reverse
  | none => s

example : splitlines "a\r\nb\u0085\n".toList = ["a".toList, "b".toList, []] := by decide
example : strip " a b\n".toList = "a b".toList := by decide
example : beforeLast ' ' "TABLE a t owner".toList = "TABLE a t".toList := by decide

/-! ## a text of one line -/

/-- no character of `s` ends a line -/
def oneLine (s : Str) : Prop := ∀ c ∈ s, c ∉ lineBreaks

instance (s : Str) : Decidable (oneLine s) := List.decidableBAll (fun c => c ∉ lineBreaks) s

theorem oneLine_cons {c : Char} {s : Str} (h : oneLine (c :: s)) : c ∉ lineBreaks ∧ oneLine s :=
  ⟨h c (by simp), fun d hd => h d (List.mem_cons_of_mem _ hd)⟩

theorem oneLine_append {s t : Str} (hs : oneLine s) (ht : oneLine t) : oneLine (s ++ t) :=
  fun c hc => (List.mem_append.mp hc).elim (hs c) (ht c)

theorem splitlines_cons {c : Char} {s : Str} (hc : c ∉ lineBreaks) :
    splitlines (c :: s) = match splitlines s with
      | [] => [[c]]
      | l :: ls => (c :: l) :: ls := by
  have hr : c ≠ '\r' := fun e => hc (by rw [e]; decide)
  rw [splitlines, if_neg hc]
  exact fun t e _ => hr e

/-- a line, its line feed and the rest -/
theorem splitlines_line {l : Str} (h : oneLine l) (s : Str) :
    splitlines (l ++ '\n' :: s) = l :: splitlines s := by
  induction l with
  | nil =>
    show splitlines ('\n' :: s) = _
    rw [splitlines, if_pos (by decide)]
    exact fun t e _ => absurd e (by decide)
  | cons c l ih =>
    obtain ⟨hc, hl⟩ := oneLine_cons h
    rw [List.cons_append, splitlines_cons hc, ih hl]

/-- the lines of a text, each with a line feed at its end -/
def unlines (ls : List Str) : Str := ls.flatMap (· ++ ['\n'])

theorem splitlines_unlines {ls : List Str} (h : ∀ l ∈ ls, oneLine l) : splitlines (unlines ls) = ls := by
  induction ls with
  | nil => rfl
  | cons l ls ih =>
    have hcons : unlines (l :: ls) = l ++ '\n' :: unlines ls := by simp [unlines]
    rw [hcons, splitlines_line (h l (by simp)), ih fun m hm => h m (List.mem_cons_of_mem _ hm)]

/-! ## one or more characters -/

theorem skip1_append {p : Char → Bool} {s t : Str} (hs : s ≠ []) (hp : ∀ c ∈ s, p c = true)
    (ht : ∀ c ∈ t.head?, p c = false) : skip1 p (s ++ t) = some t := by
  cases s with
  | nil => exact absurd rfl hs
  | cons c s =>
    have htail : (s ++ t).dropWhile p = t := by
      rw [List.dropWhile_append_of_pos fun d hd => hp d (List.mem_cons_of_mem _ hd)]
      cases t with
      | nil => rfl
      | cons d t =>
        have hd : p d = false := ht d (by simp)
        simp [hd]
    simp [skip1, hp c (by simp), htail]

/-! ## pieces -/

def pieces (c : Char) : Str → List Str
  | [] => [[]]
  | d :: s =>
    if d = c then [] :: pieces c s
    else match pieces c s with
      | [] => [[d]]
      | p :: ps => (d :: p) :: ps

def joined (sep : Str) : List Str → Str
  | [] => []
  | [s] => s
  | s :: ss => s ++ sep ++ joined sep ss

theorem pieces_ne_nil (c : Char) (s : Str) : pieces c s ≠ [] := by
  cases s with
  | nil => simp [pieces]
  | cons d s =>
    unfold pieces
    split
    · simp
    · split <;> simp

theorem pieces_append (c : Char) (s t : Str) : pieces c (s ++ c :: t) = pieces c s ++ pieces c t := by
  induction s with
  | nil => simp [pieces]
  | cons d s ih =>
    by_cases hd : d = c
    · simp [pieces, hd, ih]
    · simp only [List.cons_append, pieces, hd, if_false, ih]
      cases hp : pieces c s with
      | nil => exact absurd hp (pieces_ne_nil c s)
      | cons p ps => rfl

theorem pieces_free {c : Char} {s : Str} (h : free c s) : pieces c s = [s] := by
  induction s with
  | nil => rfl
  | cons d s ih =>
    have hd : d ≠ c := fun e => h (by simp [e])
    have hs : free c s := fun hc => h (List.mem_cons_of_mem _ hc)
    simp [pieces, hd, ih hs]

/-- the characters of a piece are those of the text -/
theorem mem_of_piece {c d : Char} {s p : Str} (hp : p ∈ pieces c s) (hd : d ∈ p) : d ∈ s := by
  induction s generalizing p with
  | nil =>
    rw [List.mem_singleton.mp hp] at hd
    exact hd
  | cons e s ih =>
    unfold pieces at hp
    split at hp
    · rcases List.mem_cons.mp hp with rfl | hp
      · simp at hd
      · exact List.mem_cons_of_mem _ (ih hp hd)
    · split at hp
      · rw [List.mem_singleton.mp hp] at hd
        rw [List.mem_singleton.mp hd]
        exact List.mem_cons_self
      · rename_i q qs hq
        rcases List.mem_cons.mp hp with rfl | hp
        · rcases List.mem_cons.mp hd with rfl | hd
          · exact List.mem_cons_self
          · exact List.mem_cons_of_mem _ (ih (by rw [hq]; exact List.mem_cons_self) hd)
        · exact List.mem_cons_of_mem _ (ih (by rw [hq]; exact List.mem_cons_of_mem _ hp) hd)

/-- a piece has no separator in it -/
theorem free_of_piece {c : Char} {s p : Str} (hp : p ∈ pieces c s) : free c p := by
  induction s generalizing p with
  | nil =>
    rw [List.mem_singleton.mp hp]
    exact List.not_mem_nil
  | cons d s ih =>
    unfold pieces at hp
    split at hp
    · rcases List.mem_cons.mp hp with rfl | hp
      · exact List.not_mem_nil
      · exact ih hp
    · rename_i hd
      split at hp
      · rename_i hnil
        exact absurd hnil (pieces_ne_nil c s)
      · rename_i q qs hq
        rcases List.mem_cons.mp hp with rfl | hp
        · intro hc
          rcases List.mem_cons.mp hc with rfl | hc
          · exact hd rfl
          · exact ih (by rw [hq]; exact List.mem_cons_self) hc
        · exact ih (by rw [hq]; exact List.mem_cons_of_mem _ hp)

theorem joined_append (sep : Str) {ss ts : List Str} (hs : ss ≠ []) (ht : ts ≠ []) :
    joined sep (ss ++ ts) = joined sep ss ++ sep ++ joined sep ts := by
  induction ss with
  | nil => exact absurd rfl hs
  | cons s ss ih =>
    cases ss with
    | nil =>
      cases ts with
      | nil => exact absurd rfl ht
      | cons t ts => rfl
    | cons s' ss =>
      show s ++ sep ++ joined sep (s' :: ss ++ ts) = s ++ sep ++ joined sep (s' :: ss) ++ sep ++ _
      rw [ih (by simp)]
      simp

end Text
