import BackupHelper.Lib.Text
import Mathlib.Data.List.Infix

/-!
# Shell patterns

`fnmatch pat name` for patterns of `*`, `?` and sets `[..]`: a set holds single characters and
ranges, `!` in front negates it (also behind ranges that hold nothing), a `]` right after the opening
belongs to it, and a `[` that no `]` closes stands for itself.

* `plain s`                       no character of `s` is special;
* `fnmatch_begins`, `fnmatch_ends`   plain text before, or after, one `*`;
* `fnmatch_below`                 what matches `pat` matches `pat/*` together with what is below it.
-/

namespace Glob
open Text

inductive Tok where
  | star
  | one
  | lit (c : Char)
  | set (neg : Bool) (items : List (Char × Char))

/-- the text of a set after its `[`, and what follows its `]` -/
def setText (s : Str) : Option (Str × Str) :=
  let (a, s) := match s with
    | '!' :: s => (['!'], s)
    | _ => ([], s)
  let (b, s) := match s with
    | ']' :: s => ([']'], s)
    | _ => ([], s)
  (splitAt1 ']' s).map (fun r => (a ++ b ++ r.1, r.2))

/-- the ranges of a set, a single character being a range of one -/
def setItems : Str → List (Char × Char)
  | x :: '-' :: y :: rest => (x, y) :: setItems rest
  | x :: rest => (x, x) :: setItems rest
  | [] => []

/-- without the ranges in front that hold nothing -/
def dropEmpty : Str → Str
  | x :: '-' :: y :: rest => if y < x then dropEmpty rest else x :: '-' :: y :: rest
  | s => s

/-- a `!` behind ranges that hold nothing comes first when they are removed -/
def setTok (s : Str) : Tok :=
  match dropEmpty s with
  | '!' :: t => .set true (setItems t)
  | t => .set false (setItems t)

/-- the tokens of a pattern; each takes at least one character, so `n` need not exceed the length -/
def tokens : ℕ → Str → List Tok
  | n + 1, '*' :: s => .star :: tokens n s
  | n + 1, '?' :: s => .one :: tokens n s
  | n + 1, '[' :: s =>
    match setText s with
    | none => .lit '[' :: tokens n s
    | some (t, rest) => setTok t :: tokens n rest
  | n + 1, c :: s => .lit c :: tokens n s
  | _, _ => []

def accepts : List Tok → Str → Bool
  | [], s => s = []
  | .star :: ts, s => s.tails.any (accepts ts)
  | .one :: ts, s =>
    match s with
    | [] => false
    | _ :: s => accepts ts s
  | .lit c :: ts, s =>
    match s with
    | [] => false
    | d :: s => d = c && accepts ts s
  | .set neg items :: ts, s =>
    match s with
    | [] => false
    | d :: s => (items.any (fun r => r.1 ≤ d && d ≤ r.2) != neg) && accepts ts s

def fnmatch (pat name : Str) : Bool := accepts (tokens pat.length pat) name

example : fnmatch "a[!b-d]*.gz".toList "axyz.gz".toList = true := by decide
example : fnmatch "a[b].gz".toList "a[b].gz".toList = false := by decide
example : fnmatch "[b-a!c]".toList "d".toList = true := by decide

/-! ## plain text -/

/-- no character is special in a pattern -/
def plain (s : Str) : Prop := free '*' s ∧ free '?' s ∧ free '[' s

instance (s : Str) : Decidable (plain s) := inferInstanceAs (Decidable (_ ∧ _ ∧ _))

theorem plain_cons {c : Char} {s : Str} (h : plain (c :: s)) :
    (c ≠ '*' ∧ c ≠ '?' ∧ c ≠ '[') ∧ plain s := by
  obtain ⟨h1, h2, h3⟩ := h
  simp only [free, List.mem_cons, not_or] at h1 h2 h3
  exact ⟨⟨Ne.symm h1.1, Ne.symm h2.1, Ne.symm h3.1⟩, h1.2, h2.2, h3.2⟩

theorem plain_append {s t : Str} (hs : plain s) (ht : plain t) : plain (s ++ t) := by
  unfold plain free at *
  simp only [List.mem_append, not_or]
  tauto

theorem tokens_lit {c : Char} (h : c ≠ '*' ∧ c ≠ '?' ∧ c ≠ '[') (n : ℕ) (s : Str) :
    tokens (n + 1) (c :: s) = .lit c :: tokens n s := by
  rw [tokens]
  · exact fun e => h.1 (by simpa using e)
  · exact fun e => h.2.1 (by simpa using e)
  · exact fun e => h.2.2 (by simpa using e)

theorem tokens_plain {s : Str} (h : plain s) (t : Str) :
    tokens (s ++ t).length (s ++ t) = s.map .lit ++ tokens t.length t := by
  induction s with
  | nil => rfl
  | cons c s ih =>
    obtain ⟨hc, hs⟩ := plain_cons h
    show tokens ((s ++ t).length + 1) (c :: (s ++ t)) = _
    rw [tokens_lit hc, ih hs]
    rfl

theorem accepts_lits (s : Str) (ts : List Tok) (name : Str) :
    accepts (s.map .lit ++ ts) name = true ↔ ∃ r, name = s ++ r ∧ accepts ts r = true := by
  induction s generalizing name with
  | nil => simp
  | cons c s ih =>
    cases name with
    | nil => simp [accepts]
    | cons d name =>
      simp only [List.map_cons, List.cons_append, accepts, Bool.and_eq_true, decide_eq_true_eq, ih,
        List.cons.injEq]
      constructor
      · rintro ⟨rfl, r, rfl, hr⟩
        exact ⟨r, ⟨rfl, rfl⟩, hr⟩
      · rintro ⟨r, ⟨rfl, rfl⟩, hr⟩
        exact ⟨rfl, r, rfl, hr⟩

theorem accepts_star_nil (s : Str) : accepts [.star] s = true := by
  simp only [accepts, List.any_eq_true, List.mem_tails]
  exact ⟨[], List.nil_suffix, by simp⟩

theorem fnmatch_begins {s : Str} (h : plain s) (name : Str) :
    fnmatch (s ++ ['*']) name = true ↔ s <+: name := by
  have hstar : tokens ['*'].length ['*'] = [.star] := rfl
  rw [fnmatch, tokens_plain h, hstar, accepts_lits]
  constructor
  · rintro ⟨r, rfl, -⟩
    exact List.prefix_append s r
  · rintro ⟨r, rfl⟩
    exact ⟨r, rfl, accepts_star_nil r⟩

theorem fnmatch_plain {s : Str} (h : plain s) (name : Str) : fnmatch s name = true ↔ name = s := by
  have hs := tokens_plain h []
  rw [List.append_nil] at hs
  rw [fnmatch, hs, accepts_lits]
  constructor
  · rintro ⟨r, rfl, hr⟩
    cases r with
    | nil => exact List.append_nil s
    | cons c r => cases hr
  · intro he
    exact ⟨[], by rw [he, List.append_nil], rfl⟩

theorem fnmatch_ends {s : Str} (h : plain s) (name : Str) :
    fnmatch ('*' :: s) name = true ↔ s <:+ name := by
  have hs := tokens_plain h []
  rw [List.append_nil] at hs
  show accepts (.star :: tokens s.length s) name = true ↔ _
  rw [hs]
  simp only [accepts, List.any_eq_true, List.mem_tails]
  constructor
  · rintro ⟨t, ht, hacc⟩
    obtain ⟨r, rfl, hr⟩ := (accepts_lits _ _ _).mp hacc
    have hnil : r = [] := by cases r with
      | nil => rfl
      | cons c r => simp [tokens, accepts] at hr
    rwa [hnil, List.append_nil] at ht
  · intro hsuf
    exact ⟨s, hsuf, (accepts_lits _ _ _).mpr ⟨[], by simp, rfl⟩⟩

/-- plain text before and after one `*` -/
theorem fnmatch_within {s t : Str} (hs : plain s) (ht : plain t) (name : Str) :
    fnmatch (s ++ '*' :: t) name = true ↔ ∃ r, name = s ++ (r ++ t) := by
  have hstar : accepts (tokens ('*' :: t).length ('*' :: t)) = fnmatch ('*' :: t) := rfl
  rw [fnmatch, tokens_plain hs, accepts_lits]
  constructor
  · rintro ⟨r, rfl, hr⟩
    rw [hstar, fnmatch_ends ht] at hr
    obtain ⟨r, rfl⟩ := hr
    exact ⟨r, rfl⟩
  · rintro ⟨r, rfl⟩
    exact ⟨r ++ t, rfl, by rw [hstar, fnmatch_ends ht]; exact List.suffix_append r t⟩

/-! ## below a match -/

theorem accepts_append {ts us : List Tok} {a b : Str} (h : accepts ts a = true)
    (h' : accepts us b = true) : accepts (ts ++ us) (a ++ b) = true := by
  induction ts generalizing a with
  | nil =>
    obtain rfl : a = [] := by simpa [accepts] using h
    exact h'
  | cons t ts ih =>
    cases t with
    | star =>
      simp only [accepts, List.any_eq_true, List.mem_tails] at h
      obtain ⟨r, ⟨s, rfl⟩, hr⟩ := h
      simp only [List.cons_append, accepts, List.any_eq_true, List.mem_tails]
      exact ⟨r ++ b, ⟨s, by simp⟩, ih hr⟩
    | one =>
      cases a with
      | nil => simp [accepts] at h
      | cons c a => exact ih (by simpa [accepts] using h)
    | lit d =>
      cases a with
      | nil => simp [accepts] at h
      | cons c a =>
        simp only [accepts, Bool.and_eq_true] at h
        show (_ && accepts (ts ++ us) (a ++ b)) = true
        rw [h.1, ih h.2]
        rfl
    | set neg items =>
      cases a with
      | nil => simp [accepts] at h
      | cons c a =>
        simp only [accepts, Bool.and_eq_true] at h
        show (_ && accepts (ts ++ us) (a ++ b)) = true
        rw [h.1, ih h.2]
        rfl

theorem splitAt1_slash (s : Str) : splitAt1 ']' (s ++ ['/', '*']) =
    (splitAt1 ']' s).map (fun r => (r.1, r.2 ++ ['/', '*'])) := by
  induction s with
  | nil => rfl
  | cons d s ih =>
    rw [List.cons_append]
    unfold splitAt1
    split
    · rfl
    · rw [ih, Option.map_map, Option.map_map]
      rfl

/-- the text of a set begins with what may stand before the search for its `]` -/
theorem setText_split (s : Str) : ∃ a t, s = a ++ t ∧
    setText s = (splitAt1 ']' t).map (fun r => (a ++ r.1, r.2)) ∧
    setText (s ++ ['/', '*']) = (splitAt1 ']' (t ++ ['/', '*'])).map (fun r => (a ++ r.1, r.2)) := by
  cases s with
  | nil => exact ⟨[], [], rfl, rfl, rfl⟩
  | cons c s =>
    by_cases hc : c = '!'
    · subst hc
      cases s with
      | nil => exact ⟨['!'], [], rfl, rfl, rfl⟩
      | cons d s =>
        by_cases hd : d = ']'
        · subst hd
          exact ⟨['!', ']'], s, rfl, rfl, rfl⟩
        · exact ⟨['!'], d :: s, rfl, by simp [setText, hd], by simp [setText, hd]⟩
    · by_cases hd : c = ']'
      · subst hd
        exact ⟨[']'], s, rfl, rfl, rfl⟩
      · exact ⟨[], c :: s, rfl, by simp [setText, hc, hd], by simp [setText, hc, hd]⟩

/-- no `]` closes a set within `/*` -/
theorem setText_slash (s : Str) : setText (s ++ ['/', '*']) =
    (setText s).map (fun r => (r.1, r.2 ++ ['/', '*'])) := by
  obtain ⟨a, t, -, hs, hslash⟩ := setText_split s
  rw [hs, hslash, splitAt1_slash, Option.map_map, Option.map_map]
  rfl

theorem setText_length {s t rest : Str} (h : setText s = some (t, rest)) : rest.length < s.length := by
  obtain ⟨a, u, rfl, hs, -⟩ := setText_split s
  rw [hs] at h
  obtain ⟨⟨x, y⟩, hxy, he⟩ := Option.map_eq_some_iff.mp h
  obtain ⟨-, rfl⟩ := Prod.mk.inj he
  rw [splitAt1_eq_some hxy]
  simp only [List.length_append, List.length_cons]
  omega

theorem tokens_slash (n : ℕ) (s : Str) (hn : s.length ≤ n) :
    tokens (n + 2) (s ++ ['/', '*']) = tokens n s ++ [.lit '/', .star] := by
  induction n using Nat.strong_induction_on generalizing s with
  | _ n ih =>
    cases s with
    | nil => cases n <;> rfl
    | cons c s =>
      obtain ⟨m, rfl⟩ : ∃ m, n = m + 1 := ⟨n - 1, by simp at hn; omega⟩
      have hm : s.length ≤ m := by simpa using hn
      by_cases hset : c = '['
      · subst hset
        show (match setText (s ++ ['/', '*']) with
          | none => Tok.lit '[' :: tokens (m + 2) (s ++ ['/', '*'])
          | some (t, rest) => setTok t :: tokens (m + 2) rest) = (match setText s with
          | none => Tok.lit '[' :: tokens m s
          | some (t, rest) => setTok t :: tokens m rest) ++ _
        rw [setText_slash]
        cases hs : setText s with
        | none =>
          show Tok.lit '[' :: tokens (m + 2) (s ++ ['/', '*']) = _
          rw [ih m (by omega) s hm]
          rfl
        | some r =>
          obtain ⟨t, rest⟩ := r
          have hrest : rest.length ≤ m := (setText_length hs).le.trans hm
          show setTok t :: tokens (m + 2) (rest ++ ['/', '*']) = _
          rw [ih m (by omega) rest hrest]
          rfl
      · by_cases hstar : c = '*'
        · subst hstar
          show Tok.star :: tokens (m + 2) (s ++ ['/', '*']) = _
          rw [ih m (by omega) s hm]
          rfl
        · by_cases hone : c = '?'
          · subst hone
            show Tok.one :: tokens (m + 2) (s ++ ['/', '*']) = _
            rw [ih m (by omega) s hm]
            rfl
          · rw [List.cons_append, tokens_lit ⟨hstar, hone, hset⟩, tokens_lit ⟨hstar, hone, hset⟩,
              ih m (by omega) s hm]
            rfl

/-- **What matches `pat` matches `pat/*` together with what is below it.** -/
theorem fnmatch_below {pat name : Str} (h : fnmatch pat name = true) (below : Str) :
    fnmatch (pat ++ ['/', '*']) (name ++ '/' :: below) = true := by
  have htokens : tokens (pat ++ ['/', '*']).length (pat ++ ['/', '*']) =
      tokens pat.length pat ++ [.lit '/', .star] := by
    rw [List.length_append]
    exact tokens_slash _ _ le_rfl
  unfold fnmatch
  rw [htokens]
  apply accepts_append h
  show (decide ('/' = '/') && accepts [.star] below) = true
  rw [accepts_star_nil]
  rfl

end Glob
