import Mathlib.Tactic.Common
import BackupHelper.Lib.Lines

/-!
# SQL scripts and the transactions in them

A script is cut into statements at the semicolons outside quotes and parentheses; the statements are
carried out one after the other, in a transaction from `BEGIN` to `COMMIT`, up to the first that fails.

* `next`, `walk`             a statement, character by character;
* `statements`               the statements of a script;
* `statements_lines`         **a script of whole statements has these statements**;
* `Server`, `Session`        what a statement does to the data, and the transaction that is open;
* `play`                     a session, up to the first command that fails;
* `Transactional.atomic`     **a script in one transaction is carried out whole or not at all**.

A script with meta-commands, dollar quotes, comments, variables or escapes in a text is not read.
-/

namespace Sql
open Text

/-! ## statements -/

inductive Mode where
  | code
  | name
  | text
  /-- after the first colon of a cast -/
  | cast
deriving DecidableEq

structure Place where
  mode : Mode
  /-- the parentheses that are open -/
  depth : ℕ
deriving DecidableEq

def start : Place := ⟨.code, 0⟩

/-- what may begin something else than a part of a statement -/
def foreign (c : Char) : Bool := c ∈ ['\\', '$', '/', '-', '\x00']

/-- one character of a statement; none where the statement ends or is not read -/
def next : Place → Char → Option Place
  | ⟨.code, n⟩, c =>
    if c = '"' then some ⟨.name, n⟩
    else if c = '\'' then some ⟨.text, n⟩
    else if c = '(' then some ⟨.code, n + 1⟩
    else if c = ')' then if n = 0 then none else some ⟨.code, n - 1⟩
    else if c = ':' then some ⟨.cast, n⟩
    else if c = ';' then if n = 0 then none else some ⟨.code, n⟩
    else if foreign c then none else some ⟨.code, n⟩
  | ⟨.name, n⟩, c => if c = '\x00' then none else some ⟨if c = '"' then .code else .name, n⟩
  | ⟨.text, n⟩, c =>
    if c = '\\' || c = '\x00' then none else some ⟨if c = '\'' then .code else .text, n⟩
  | ⟨.cast, n⟩, c => if c = ':' then some ⟨.code, n⟩ else none

def walk (p : Place) (s : Str) : Option Place := s.foldlM next p

def isBlank (c : Char) : Bool := c = ' ' || c = '\t' || c = '\n' || c = '\r'

/-- `acc` is what was read of the statement, the last character first -/
def statementsFrom : Place → Str → Str → Option (List Str)
  | p, acc, [] =>
    if p = start then some (if acc.all isBlank then [] else [acc.reverse.dropWhile isBlank]) else none
  | p, acc, c :: s =>
    if p = start ∧ c = ';' then (statementsFrom start [] s).map (acc.reverse.dropWhile isBlank :: ·)
    else match next p c with
      | none => none
      | some q => statementsFrom q (c :: acc) s

def statements (s : Str) : Option (List Str) := statementsFrom start [] s

example : statements "BEGIN;\nDROP TABLE \"a;b\", f(x, \"y\"\"\"), 1::int CASCADE;\n".toList =
    some ["BEGIN".toList, "DROP TABLE \"a;b\", f(x, \"y\"\"\"), 1::int CASCADE".toList] := by decide +kernel

/-- the text is a part of a statement, from code to code -/
def Closed (s : Str) : Prop := ∀ n, walk ⟨.code, n⟩ s = some ⟨.code, n⟩

theorem walk_cons {p : Place} {c : Char} (s : Str) : walk p (c :: s) = (next p c).bind (walk · s) := rfl

theorem walk_append (p : Place) (s t : Str) : walk p (s ++ t) = (walk p s).bind (walk · t) :=
  List.foldlM_append

theorem Closed.append {s t : Str} (hs : Closed s) (ht : Closed t) : Closed (s ++ t) := by
  intro n
  rw [walk_append, hs n]
  exact ht n

theorem closed_nil : Closed [] := fun _ => rfl

/-- characters that mean nothing but themselves -/
def ordinary (c : Char) : Bool := c ∉ ['"', '\'', '(', ')', ':', ';', '\\', '$', '/', '-', '\x00']

theorem next_ordinary {c : Char} (h : ordinary c = true) (n : ℕ) : next ⟨.code, n⟩ c = some ⟨.code, n⟩ := by
  have hnot := of_decide_eq_true h
  simp only [List.mem_cons, not_or] at hnot
  obtain ⟨h₁, h₂, h₃, h₄, h₅, h₆, h₇, h₈, h₉, h₁₀, h₁₁, -⟩ := hnot
  simp [next, foreign, h₁, h₂, h₃, h₄, h₅, h₆, h₇, h₈, h₉, h₁₀, h₁₁]

theorem closed_of_ordinary {s : Str} (h : s.all ordinary = true) : Closed s := by
  intro n
  induction s with
  | nil => rfl
  | cons c s ih =>
    rw [List.all_cons, Bool.and_eq_true] at h
    rw [walk_cons, next_ordinary h.1]
    exact ih h.2

theorem closed_joined {sep : Str} (hsep : Closed sep) {ss : List Str} (h : ∀ s ∈ ss, Closed s) :
    Closed (joined sep ss) := by
  induction ss with
  | nil => exact closed_nil
  | cons s ss ih =>
    obtain ⟨hs, hss⟩ := List.forall_mem_cons.mp h
    cases ss with
    | nil => exact hs
    | cons t ts => exact (hs.append hsep).append (ih hss)

/-- a name in quotes, those within it doubled -/
theorem closed_quoted {s : Str} (h : '\x00' ∉ s) :
    Closed ('"' :: s.flatMap (fun c => if c = '"' then ['"', '"'] else [c]) ++ ['"']) := by
  intro n
  have hname : walk ⟨.name, n⟩ (s.flatMap fun c => if c = '"' then ['"', '"'] else [c]) = some ⟨.name, n⟩ := by
    induction s with
    | nil => rfl
    | cons c s ih =>
      obtain ⟨hc, hs⟩ := not_or.mp (mt List.mem_cons.mpr h)
      have hfirst : walk ⟨.name, n⟩ (if c = '"' then ['"', '"'] else [c]) = some ⟨.name, n⟩ := by
        by_cases hq : c = '"'
        · rw [if_pos hq]
          rfl
        · simp [hq, walk, next, Ne.symm hc]
      rw [List.flatMap_cons, walk_append, hfirst]
      exact ih hs
  show (next ⟨.code, n⟩ '"').bind (walk · _) = _
  show walk ⟨.name, n⟩ (_ ++ ['"']) = _
  rw [walk_append, hname]
  rfl

/-- a statement is read to its end -/
theorem statementsFrom_walk {p q : Place} {u : Str} (h : walk p u = some q) (acc s : Str) :
    statementsFrom p acc (u ++ s) = statementsFrom q (u.reverse ++ acc) s := by
  induction u generalizing p acc with
  | nil =>
    obtain rfl := Option.some.inj h
    rfl
  | cons c u ih =>
    obtain ⟨p', hnext, hwalk⟩ := Option.bind_eq_some_iff.mp h
    have hon : ¬ (p = start ∧ c = ';') := by
      rintro ⟨rfl, rfl⟩
      cases hnext
    show statementsFrom p acc (c :: (u ++ s)) = _
    rw [statementsFrom, if_neg hon]
    simp only [hnext]
    rw [ih hwalk, List.reverse_cons, List.append_assoc]
    rfl

theorem statementsFrom_end {u : Str} (h : walk start u = some start) (s : Str) :
    statementsFrom start [] (u ++ ';' :: s) = (statementsFrom start [] s).map (u.dropWhile isBlank :: ·) := by
  rw [statementsFrom_walk h, List.append_nil, statementsFrom, if_pos ⟨rfl, rfl⟩, List.reverse_reverse]

/-- a whole statement, its first character no blank -/
structure Whole (s : Str) : Prop where
  read : walk start s = some start
  head : ∃ c t, s = c :: t ∧ isBlank c = false

theorem Whole.strip {s : Str} (h : Whole s) : ('\n' :: s).dropWhile isBlank = s ∧ s.dropWhile isBlank = s := by
  obtain ⟨c, t, rfl, hc⟩ := h.head
  have hs : (c :: t).dropWhile isBlank = c :: t := by rw [List.dropWhile_cons, hc]; rfl
  refine ⟨?_, hs⟩
  rw [List.dropWhile_cons, if_pos (by decide), hs]

/-- **A script of whole statements**, each on lines of its own, has these statements. -/
theorem statements_lines {ss : List Str} (hne : ss ≠ []) (h : ∀ s ∈ ss, Whole s) :
    statements (joined ['\n'] (ss.map (· ++ [';'])) ++ ['\n']) = some ss := by
  -- behind the first statement every other comes after the line break before it
  have hrest : ∀ ss : List Str, (∀ s ∈ ss, Whole s) →
      statementsFrom start [] (ss.flatMap (fun s => '\n' :: s ++ [';']) ++ ['\n']) = some ss := by
    intro ss hss
    induction ss with
    | nil => rfl
    | cons s ss ih =>
      obtain ⟨hs, hss⟩ := List.forall_mem_cons.mp hss
      have hsplit : (s :: ss).flatMap (fun s => '\n' :: s ++ [';']) ++ ['\n'] =
          ('\n' :: s) ++ ';' :: (ss.flatMap (fun s => '\n' :: s ++ [';']) ++ ['\n']) := by simp
      rw [hsplit, statementsFrom_end (show walk start ('\n' :: s) = _ from hs.read), ih hss, hs.strip.1]
      rfl
  have hjoined : ∀ (s : Str) (ss : List Str), joined ['\n'] ((s :: ss).map (· ++ [';'])) =
      s ++ [';'] ++ ss.flatMap (fun s => '\n' :: s ++ [';']) := by
    intro s ss
    induction ss generalizing s with
    | nil => simp [joined]
    | cons t ts ih =>
      have hcons := ih t
      rw [List.map_cons] at hcons ⊢
      show s ++ [';'] ++ ['\n'] ++ joined ['\n'] ((t :: ts).map (· ++ [';'])) = _
      rw [List.map_cons, hcons]
      simp
  cases ss with
  | nil => exact absurd rfl hne
  | cons s ss =>
    obtain ⟨hs, hss⟩ := List.forall_mem_cons.mp h
    have hsplit : s ++ [';'] ++ ss.flatMap (fun s => '\n' :: s ++ [';']) ++ ['\n'] =
        s ++ ';' :: (ss.flatMap (fun s => '\n' :: s ++ [';']) ++ ['\n']) := by simp
    unfold statements
    rw [hjoined, hsplit, statementsFrom_end hs.read, hrest ss hss, hs.strip.2]
    rfl

/-! ## sessions -/

inductive Command (S : Type) where
  | begin
  | commit
  | plain (statement : S)
deriving DecidableEq

/-- what the statements do to the data -/
structure Server (S DB : Type) where
  /-- none where the statement fails -/
  exec : S → DB → Option DB
  /-- what is checked only when a transaction ends -/
  holds : DB → Bool

/-- the data as it is stored, and as the open transaction has it -/
structure Session (DB : Type) where
  stored : DB
  working : Option DB

namespace Server
section
variable {S DB : Type} (sv : Server S DB)

def finish (d : DB) : Option (Session DB) := if sv.holds d then some ⟨d, none⟩ else none

/-- one command; none where it fails -/
def command : Command S → Session DB → Option (Session DB)
  -- in a transaction `BEGIN` is no more than a warning
  | .begin, s => some ⟨s.stored, some (s.working.getD s.stored)⟩
  | .commit, ⟨d, none⟩ => some ⟨d, none⟩
  | .commit, ⟨_, some x⟩ => sv.finish x
  | .plain t, ⟨d, none⟩ => (sv.exec t d).bind sv.finish
  | .plain t, ⟨d, some x⟩ => (sv.exec t x).map fun y => ⟨d, some y⟩

/-- the commands up to the first that fails, which ends the session; whether none failed -/
def play : List (Command S) → Session DB → Session DB × Bool
  | [], s => (s, true)
  | c :: cs, s =>
    match sv.command c s with
    | none => (⟨s.stored, none⟩, false)
    | some s' => play cs s'

/-- what the statements of a transaction make of the data -/
def work : List (Command S) → DB → Option DB
  | [], d => some d
  | .plain t :: cs, d => (sv.exec t d).bind (work cs)
  | _ :: cs, d => work cs d

/-- statements that change nothing that is stored -/
def Still (cs : List (Command S)) : Prop :=
  ∀ c ∈ cs, ∃ t, c = .plain t ∧ ∀ d d', sv.exec t d = some d' → d' = d

/-- settings, then one transaction to the end of the script -/
structure Transactional (cs body : List (Command S)) : Prop where
  shape : ∃ before, cs = before ++ .begin :: (body ++ [.commit]) ∧ sv.Still before
  inner : ∀ c ∈ body, c ≠ .commit

variable {sv}

theorem play_none {c : Command S} {s : Session DB} (h : sv.command c s = none) (cs : List (Command S)) :
    sv.play (c :: cs) s = (⟨s.stored, none⟩, false) := by
  rw [play]
  simp only [h]

theorem play_some {c : Command S} {s s' : Session DB} (h : sv.command c s = some s') (cs : List (Command S)) :
    sv.play (c :: cs) s = sv.play cs s' := by
  rw [play]
  simp only [h]

/-- outside a transaction a statement is stored by itself, and one of these changes nothing -/
theorem command_still {t : S} {d : DB} (h : ∀ d', sv.exec t d = some d' → d' = d) :
    sv.command (.plain t) ⟨d, none⟩ = none ∨ sv.command (.plain t) ⟨d, none⟩ = some ⟨d, none⟩ := by
  show (sv.exec t d).bind sv.finish = none ∨ (sv.exec t d).bind sv.finish = some ⟨d, none⟩
  cases hexec : sv.exec t d with
  | none => exact Or.inl rfl
  | some d' =>
    obtain rfl := h d' hexec
    show sv.finish d' = none ∨ sv.finish d' = _
    unfold finish
    by_cases hholds : sv.holds d' = true
    · exact Or.inr (if_pos hholds)
    · exact Or.inl (if_neg hholds)

/-- in a transaction nothing is stored, up to its end -/
theorem play_open {body rest : List (Command S)} (h : ∀ c ∈ body, c ≠ .commit) (d x : DB) :
    (sv.work body x = none ∧ sv.play (body ++ rest) ⟨d, some x⟩ = (⟨d, none⟩, false)) ∨
      ∃ y, sv.work body x = some y ∧ sv.play (body ++ rest) ⟨d, some x⟩ = sv.play rest ⟨d, some y⟩ := by
  induction body generalizing x with
  | nil => exact Or.inr ⟨x, rfl, rfl⟩
  | cons c body ih =>
    obtain ⟨hc, hbody⟩ := List.forall_mem_cons.mp h
    cases c with
    | commit => exact absurd rfl hc
    | begin =>
      have hplay : sv.play (.begin :: (body ++ rest)) ⟨d, some x⟩ = sv.play (body ++ rest) ⟨d, some x⟩ :=
        play_some rfl (body ++ rest)
      show _ ∧ sv.play (.begin :: (body ++ rest)) _ = _ ∨ ∃ y, _ ∧ sv.play (.begin :: (body ++ rest)) _ = _
      rw [hplay]
      exact ih hbody x
    | plain t =>
      show (sv.exec t x).bind (sv.work body) = _ ∧ sv.play (.plain t :: (body ++ rest)) _ = _ ∨
        ∃ y, (sv.exec t x).bind (sv.work body) = _ ∧ sv.play (.plain t :: (body ++ rest)) _ = _
      cases hexec : sv.exec t x with
      | none =>
        left
        refine ⟨rfl, play_none ?_ _⟩
        show (sv.exec t x).map _ = none
        rw [hexec]
        rfl
      | some y =>
        have hnext : sv.command (.plain t) ⟨d, some x⟩ = some ⟨d, some y⟩ := by
          show (sv.exec t x).map _ = _
          rw [hexec]
          rfl
        rw [play_some hnext]
        exact ih hbody y

theorem play_commit (d x : DB) : sv.play [.commit] ⟨d, some x⟩ = (⟨d, none⟩, false) ∨
    sv.play [.commit] ⟨d, some x⟩ = (⟨x, none⟩, true) := by
  have hcommand : sv.command .commit ⟨d, some x⟩ = if sv.holds x then some ⟨x, none⟩ else none := rfl
  by_cases hholds : sv.holds x = true
  · exact Or.inr (play_some (hcommand.trans (if_pos hholds)) [])
  · exact Or.inl (play_none (hcommand.trans (if_neg hholds)) [])

/-- one transaction, from its begin: all of it -/
theorem play_transaction {body : List (Command S)} (h : ∀ c ∈ body, c ≠ .commit) (d : DB) :
    sv.play (.begin :: (body ++ [.commit])) ⟨d, none⟩ = (⟨d, none⟩, false) ∨
      ∃ d', sv.work body d = some d' ∧ sv.play (.begin :: (body ++ [.commit])) ⟨d, none⟩ = (⟨d', none⟩, true) := by
  have hbegin : sv.play (.begin :: (body ++ [.commit])) ⟨d, none⟩ = sv.play (body ++ [.commit]) ⟨d, some d⟩ :=
    play_some rfl _
  rw [hbegin]
  -- the body is played, and then the commit
  have hopen : _ ∨ ∃ y, sv.work body d = some y ∧
      sv.play (body ++ [.commit]) ⟨d, some d⟩ = sv.play [.commit] ⟨d, some y⟩ := play_open h d d
  rcases hopen with ⟨-, hplay⟩ | ⟨y, hwork, hplay⟩
  · exact Or.inl hplay
  · rw [hplay]
    exact (play_commit d y).imp_right fun hend => ⟨y, hwork, hend⟩

/-- and cut off before its end -/
theorem play_cut {body cut : List (Command S)} (h : ∀ c ∈ body, c ≠ .commit) (hcut : cut <+: body) (d x : DB) :
    (sv.play cut ⟨d, some x⟩).1.stored = d := by
  have hnone : ∀ c ∈ cut, c ≠ .commit := fun c hc => h c (hcut.subset hc)
  have hplay : _ ∨ ∃ y, sv.work cut x = some y ∧
      sv.play (cut ++ []) ⟨d, some x⟩ = sv.play [] ⟨d, some y⟩ := play_open hnone d x
  rw [List.append_nil] at hplay
  rcases hplay with ⟨-, hplay⟩ | ⟨y, -, hplay⟩
  · rw [hplay]
  · rw [hplay]
    rfl

/-- **Whole and told so, or not at all and told so.** -/
theorem Transactional.ended {cs body : List (Command S)} (h : sv.Transactional cs body) (d : DB) :
    sv.play cs ⟨d, none⟩ = (⟨d, none⟩, false) ∨
      ∃ d', sv.work body d = some d' ∧ sv.play cs ⟨d, none⟩ = (⟨d', none⟩, true) := by
  obtain ⟨before, rfl, hstill⟩ := h.shape
  induction before with
  | nil => exact play_transaction h.inner d
  | cons c before ih =>
    obtain ⟨⟨t, rfl, ht⟩, hbefore⟩ := List.forall_mem_cons.mp hstill
    show sv.play (.plain t :: (before ++ _)) _ = _ ∨ ∃ d', _ ∧ sv.play (.plain t :: (before ++ _)) _ = _
    rcases command_still (ht d) with hnext | hnext
    · exact Or.inl (play_none hnext _)
    · rw [play_some hnext]
      exact ih hbefore ⟨⟨before, rfl, hbefore⟩, h.inner⟩

/-- **Whole or not at all**, wherever in the script the session is lost. -/
theorem Transactional.atomic {cs body cut : List (Command S)} (h : sv.Transactional cs body) (hcut : cut <+: cs)
    (d : DB) : (sv.play cut ⟨d, none⟩).1.stored = d ∨
      ∃ d', sv.work body d = some d' ∧ (sv.play cut ⟨d, none⟩).1.stored = d' := by
  obtain ⟨before, rfl, hstill⟩ := h.shape
  induction before generalizing cut with
  | nil =>
    rcases List.prefix_cons_iff.mp hcut with rfl | ⟨rest, rfl, hrest⟩
    · exact Or.inl rfl
    · rcases List.prefix_concat_iff.mp hrest with rfl | hrest
      · rcases play_transaction h.inner d with hplay | ⟨d', hwork, hplay⟩
        · left
          rw [hplay]
        · right
          refine ⟨d', hwork, ?_⟩
          rw [hplay]
      · left
        have hbegin : sv.command .begin ⟨d, none⟩ = some ⟨d, some d⟩ := rfl
        rw [play_some hbegin]
        exact play_cut h.inner hrest d d
  | cons c before ih =>
    obtain ⟨⟨t, rfl, ht⟩, hbefore⟩ := List.forall_mem_cons.mp hstill
    rcases List.prefix_cons_iff.mp hcut with rfl | ⟨rest, rfl, hrest⟩
    · exact Or.inl rfl
    · rcases command_still (ht d) with hnext | hnext
      · left
        rw [play_none hnext]
      · rw [play_some hnext]
        exact ih hbefore ⟨⟨before, rfl, hbefore⟩, h.inner⟩ hrest

end
end Server
end Sql
