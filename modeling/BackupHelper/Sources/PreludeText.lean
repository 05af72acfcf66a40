import BackupHelper.Lib.Sql
import BackupHelper.Lib.Utf8
import BackupHelper.Sources.Prelude

/-!
# The prelude as psql reads it

* `formatIdent`, `formatName`  a name as PostgreSQL quotes it;
* `CutsAtSemicolons`           a reader that cuts a file at its semicolons, as psql does;
* `prelude_read`               **psql reads the statements of the prelude and no others**, whatever the
                               names in it are.
-/

namespace BackupHelper
open Text

/-- the text without its semicolon -/
def Statement.bare (st : Statement) : Str := st.text.dropLast

/-- `format('%I', s)`: a name that is safe as it is, or in quotes -/
def formatIdent (reserved : Str → Bool) (s : Str) : Str :=
  let safe := fun c : Char => ('a' ≤ c && c ≤ 'z') || c = '_'
  if (s.head?.any safe && s.all (fun c => safe c || c.isDigit)) && !reserved s then s else quoteIdent s

/-- `format('%I.%I', schema, name)` -/
def formatName (reserved : Str → Bool) (schema name : Str) : Str :=
  formatIdent reserved schema ++ '.' :: formatIdent reserved name

theorem closed_quoteIdent {s : Str} (h : '\x00' ∉ s) : Sql.Closed (quoteIdent s) := Sql.closed_quoted h

theorem ordinary_of_safe {c : Char} (h : (('a' ≤ c && c ≤ 'z') || c = '_' || c.isDigit) = true) :
    Sql.ordinary c = true := by
  unfold Sql.ordinary
  apply decide_eq_true
  intro hmem
  simp only [List.mem_cons, List.not_mem_nil, or_false] at hmem
  rcases hmem with rfl | rfl | rfl | rfl | rfl | rfl | rfl | rfl | rfl | rfl | rfl
  all_goals exact absurd h (by decide)

theorem closed_formatIdent {reserved : Str → Bool} {s : Str} (h : '\x00' ∉ s) :
    Sql.Closed (formatIdent reserved s) := by
  unfold formatIdent
  by_cases hsafe : (s.head?.any (fun c : Char => ('a' ≤ c && c ≤ 'z') || c = '_') &&
      s.all (fun c => (('a' ≤ c && c ≤ 'z') || c = '_') || c.isDigit)) && !reserved s
  · rw [if_pos hsafe]
    apply Sql.closed_of_ordinary
    rw [Bool.and_eq_true, Bool.and_eq_true] at hsafe
    rw [List.all_eq_true]
    exact fun c hc => ordinary_of_safe (List.all_eq_true.mp hsafe.1.2 c hc)
  · rw [if_neg hsafe]
    exact closed_quoteIdent h

theorem closed_formatName {reserved : Str → Bool} {schema name : Str} (hs : '\x00' ∉ schema) (hn : '\x00' ∉ name) :
    Sql.Closed (formatName reserved schema name) := by
  have hdot : Sql.Closed ['.'] := Sql.closed_of_ordinary (by decide)
  have hschema : Sql.Closed (formatIdent reserved schema) := closed_formatIdent hs
  have hname : Sql.Closed (formatIdent reserved name) := closed_formatIdent hn
  have happ := (hschema.append hdot).append hname
  rw [List.append_assoc] at happ
  exact happ

/-! ## statement by statement -/

/-- a statement that psql reads as it stands -/
structure Statement.Reads (st : Statement) : Prop where
  text : st.text = st.bare ++ [';']
  whole : Sql.Whole st.bare

theorem setting_reads {st : Statement} (h : st ∈ preludeSettings ∨
    st = .set "SET client_min_messages = error;".toList) : st.Reads := by
  have hfixed : ∀ t ∈ preludeSettings.map Statement.text ++ ["SET client_min_messages = error;".toList],
      t = t.dropLast ++ [';'] ∧ Sql.walk Sql.start t.dropLast = some Sql.start ∧
        t.dropLast.head?.any (fun c => !Sql.isBlank c) = true := by decide +kernel
  have hmem : st.text ∈ preludeSettings.map Statement.text ++ ["SET client_min_messages = error;".toList] := by
    rcases h with h | rfl
    · exact List.mem_append_left _ (List.mem_map_of_mem h)
    · exact List.mem_append_right _ List.mem_cons_self
  obtain ⟨htext, hread, hhead⟩ := hfixed _ hmem
  refine ⟨htext, hread, ?_⟩
  show ∃ c t, st.text.dropLast = c :: t ∧ _
  cases hs : st.text.dropLast with
  | nil =>
    rw [hs] at hhead
    cases hhead
  | cons c t =>
    rw [hs] at hhead
    exact ⟨c, t, rfl, by simpa using hhead⟩

theorem drop_bare (type : Str) (names : List Str) : (Statement.drop type names).text =
      (Statement.drop type names).bare ++ [';'] ∧
    (Statement.drop type names).bare = "DROP ".toList ++ type ++ " IF EXISTS ".toList ++ joined ", ".toList names ++
      " CASCADE".toList := by
  have htext : (Statement.drop type names).text = "DROP ".toList ++ type ++ " IF EXISTS ".toList ++
      joined ", ".toList names ++ " CASCADE".toList ++ [';'] := by
    show "DROP ".toList ++ type ++ " IF EXISTS ".toList ++ joined ", ".toList names ++ " CASCADE;".toList = _
    rw [show " CASCADE;".toList = " CASCADE".toList ++ [';'] from rfl, List.append_assoc _ " CASCADE".toList]
  unfold Statement.bare
  rw [htext, List.dropLast_concat]
  exact ⟨rfl, rfl⟩

theorem drop_reads {type : Str} {names : List Str} (htype : Sql.Closed type) (h : ∀ n ∈ names, Sql.Closed n) :
    (Statement.drop type names).Reads := by
  obtain ⟨htext, hbare⟩ := drop_bare type names
  have hordinary : ∀ t ∈ ["DROP ".toList, " IF EXISTS ".toList, ", ".toList, " CASCADE".toList],
      t.all Sql.ordinary = true := by decide
  have hclosed : ∀ t ∈ ["DROP ".toList, " IF EXISTS ".toList, ", ".toList, " CASCADE".toList], Sql.Closed t :=
    fun t ht => Sql.closed_of_ordinary (hordinary t ht)
  have hwalk : Sql.Closed (Statement.drop type names).bare := by
    rw [hbare]
    apply Sql.Closed.append _ (hclosed _ (by simp))
    apply Sql.Closed.append _ (Sql.closed_joined (hclosed _ (by simp)) h)
    apply Sql.Closed.append _ (hclosed _ (by simp))
    exact Sql.Closed.append (hclosed _ (by simp)) htype
  refine ⟨htext, hwalk 0, ?_⟩
  rw [hbare]
  exact ⟨'D', _, rfl, by decide⟩

/-- PostgreSQL quotes the names that a plan drops, and none holds a NUL -/
structure Replacement.Quoted (plan : Replacement) : Prop where
  objects : ∀ o ∈ plan.relations ++ plan.others, Sql.Closed o.quoted
  schemas : ∀ s ∈ plan.recreated, '\x00' ∉ s

theorem statements_read {plan : Replacement} (h : plan.Quoted) : ∀ st ∈ preludeStatements plan, st.Reads := by
  intro st hst
  have hordinary : ∀ t ∈ schemaType :: dropOrder, t.all Sql.ordinary = true := by decide
  have htypes : ∀ t ∈ schemaType :: dropOrder, Sql.Closed t := fun t ht => Sql.closed_of_ordinary (hordinary t ht)
  unfold preludeStatements at hst
  rw [List.mem_append, List.mem_append, List.mem_append] at hst
  rcases hst with ((hst | hst) | hst) | hst
  · exact setting_reads (Or.inl hst)
  · obtain ⟨type, htype, hst⟩ := List.mem_flatMap.mp hst
    unfold dropsOf at hst
    dsimp only at hst
    split at hst
    · cases hst
    · rw [List.mem_singleton.mp hst]
      apply drop_reads (htypes type (List.mem_cons_of_mem _ htype))
      intro n hn
      obtain ⟨o, ho, rfl⟩ := List.mem_map.mp hn
      exact h.objects o (List.mem_filter.mp ho).1
  · split at hst
    · cases hst
    · rw [List.mem_singleton.mp hst]
      apply drop_reads (htypes schemaType List.mem_cons_self)
      intro n hn
      obtain ⟨s, hs, rfl⟩ := List.mem_map.mp hn
      exact closed_quoteIdent (h.schemas s hs)
  · exact setting_reads (Or.inr (List.mem_singleton.mp hst))

theorem statements_prelude {plan : Replacement} (h : plan.Quoted) :
    Sql.statements (replacementPrelude plan) = some ((preludeStatements plan).map (·.bare)) := by
  have hreads := statements_read h
  have htexts : (preludeStatements plan).map (·.text) = ((preludeStatements plan).map (·.bare)).map (· ++ [';']) := by
    rw [List.map_map]
    apply List.map_congr_left
    exact fun st hst => (hreads st hst).text
  unfold replacementPrelude
  rw [htexts]
  apply Sql.statements_lines
  · simp [preludeStatements, preludeSettings]
  · intro s hs
    obtain ⟨st, hst, rfl⟩ := List.mem_map.mp hs
    exact (hreads st hst).whole

/-! ## the commands of a file -/

def commandOf (s : Str) : Sql.Command Str :=
  if s = "BEGIN".toList then .begin else if s = "COMMIT".toList then .commit else .plain s

/-- psql cuts a file at its semicolons, where no semicolon is in doubt -/
def CutsAtSemicolons (read : Utf8.Octets → List (Sql.Command Str)) : Prop :=
  ∀ text ss, Sql.statements text = some ss → read (Utf8.utf8 text) = ss.map commandOf

/-- the statements of a text in UTF-8 -/
def fileCommands (b : Utf8.Octets) : List (Sql.Command Str) :=
  ((Python.encode (Utf8.decode b)).bind Sql.statements).elim [] (·.map commandOf)

theorem fileCommands_cuts : CutsAtSemicolons fileCommands := by
  intro text ss h
  show ((Python.encode (Utf8.decode (Utf8.utf8 text))).bind Sql.statements).elim [] (·.map commandOf) = _
  rw [Utf8.decode_utf8, Python.encode_lit]
  show (Sql.statements text).elim [] (·.map commandOf) = _
  rw [h]
  rfl

/-- the prelude behind its `BEGIN` -/
def dropping (plan : Replacement) : List (Sql.Command Str) :=
  ((preludeStatements plan).drop preludeSettings.length).map fun st => .plain st.bare

theorem commandOf_drop (type : Str) (names : List Str) :
    commandOf (Statement.drop type names).bare = .plain (Statement.drop type names).bare := by
  obtain ⟨-, hbare⟩ := drop_bare type names
  have hhead : (Statement.drop type names).bare.head? = some 'D' := by
    rw [hbare]
    rfl
  unfold commandOf
  rw [if_neg, if_neg]
  all_goals
    intro he
    rw [he] at hhead
    exact absurd hhead (by decide)

/-- the settings come before the `BEGIN` of the prelude, the drops behind it -/
theorem prelude_commands (plan : Replacement) : ((preludeStatements plan).map (·.bare)).map commandOf =
    (preludeSettings.dropLast.map fun st => .plain st.bare) ++ .begin :: dropping plan := by
  have hsettings : (preludeSettings.map (·.bare)).map commandOf =
      (preludeSettings.dropLast.map fun st => .plain st.bare) ++ [Sql.Command.begin] := by decide +kernel
  obtain ⟨rest, hrest⟩ : ∃ rest, rest = dropOrder.flatMap (dropsOf plan) ++
      ((if plan.recreated = [] then [] else [Statement.drop schemaType (plan.recreated.map quoteIdent)]) ++
        [Statement.set "SET client_min_messages = error;".toList]) := ⟨_, rfl⟩
  have hsplit : preludeStatements plan = preludeSettings ++ rest := by
    rw [hrest]
    simp only [preludeStatements, List.append_assoc]
  have hplain : ∀ st ∈ rest, commandOf st.bare = .plain st.bare := by
    intro st hst
    rw [hrest, List.mem_append, List.mem_append] at hst
    rcases hst with hst | hst | hst
    · obtain ⟨type, -, hst⟩ := List.mem_flatMap.mp hst
      unfold dropsOf at hst
      dsimp only at hst
      split at hst
      · cases hst
      · rw [List.mem_singleton.mp hst]
        exact commandOf_drop _ _
    · split at hst
      · cases hst
      · rw [List.mem_singleton.mp hst]
        exact commandOf_drop _ _
    · rw [List.mem_singleton.mp hst]
      decide +kernel
  unfold dropping
  rw [hsplit, List.drop_left, List.map_append, List.map_append, hsettings, List.map_map, List.append_assoc]
  exact congrArg (fun l => _ ++ (.begin :: l)) (List.map_congr_left hplain)

/-! ## the names of a plan -/

theorem mem_of_line {c : Char} {s l : Str} (hl : l ∈ splitlines s) (hc : c ∈ l) : c ∈ s := by
  induction s using splitlines.induct generalizing l with
  | case1 => cases hl
  | case2 s ih =>
    rw [splitlines] at hl
    rcases List.mem_cons.mp hl with rfl | hl
    · cases hc
    · exact List.mem_cons_of_mem _ (List.mem_cons_of_mem _ (ih hl hc))
  | case3 d s hnot hbreak ih =>
    rw [splitlines, if_pos hbreak] at hl
    · rcases List.mem_cons.mp hl with rfl | hl
      · cases hc
      · exact List.mem_cons_of_mem _ (ih hl hc)
    · exact hnot
  | case4 d s hnot hbreak hnil _ =>
    rw [splitlines, if_neg hbreak] at hl
    · simp only [hnil] at hl
      rw [List.mem_singleton.mp hl] at hc
      rw [List.mem_singleton.mp hc]
      exact List.mem_cons_self
    · exact hnot
  | case5 d s hnot hbreak first ls hcons ih =>
    rw [splitlines, if_neg hbreak] at hl
    · simp only [hcons] at hl
      rw [hcons] at ih
      rcases List.mem_cons.mp hl with rfl | hl
      · rcases List.mem_cons.mp hc with rfl | hc
        · exact List.mem_cons_self
        · exact List.mem_cons_of_mem _ (ih List.mem_cons_self hc)
      · exact List.mem_cons_of_mem _ (ih (List.mem_cons_of_mem _ hl) hc)
    · exact hnot

theorem skip1_suffix {p : Char → Bool} {s t : Str} (h : skip1 p s = some t) : t <:+ s := by
  cases s with
  | nil => cases h
  | cons c s =>
    have hskip : skip1 p (c :: s) = if p c then some (s.dropWhile p) else none := rfl
    rw [hskip] at h
    split at h
    · rw [← Option.some.inj h]
      exact (List.dropWhile_suffix p).trans (List.suffix_cons c s)
    · cases h

theorem tocEntry_suffix {line rest : Str} (h : tocEntry line = some rest) : rest <:+ line := by
  unfold tocEntry at h
  obtain ⟨s₁, h₁, h⟩ := Option.bind_eq_some_iff.mp h
  split at h
  · rename_i s₂
    obtain ⟨s₃, h₃, h⟩ := Option.bind_eq_some_iff.mp h
    split at h
    · obtain ⟨s₄, h₄, h⟩ := Option.bind_eq_some_iff.mp h
      obtain ⟨s₅, h₅, h⟩ := Option.bind_eq_some_iff.mp h
      have hoid := (skip1_suffix h).trans ((skip1_suffix h₅).trans (skip1_suffix h₄))
      have hid := hoid.trans ((List.drop_suffix 4 s₃).trans (skip1_suffix h₃))
      exact hid.trans ((List.suffix_cons ';' s₂).trans (skip1_suffix h₁))
    · cases h
  · cases h

theorem mem_of_beforeLast {c d : Char} {s : Str} (h : d ∈ beforeLast c s) : d ∈ s := by
  unfold beforeLast at h
  cases hs : splitAt1 c s.reverse with
  | none =>
    rw [hs] at h
    exact h
  | some r =>
    rw [hs] at h
    have hsplit := splitAt1_eq_some (x := r.1) (y := r.2) hs
    apply List.mem_reverse.mp
    rw [hsplit]
    exact List.mem_append_right _ (List.mem_cons_of_mem _ (List.mem_reverse.mp h))

theorem mem_of_key {c : Char} {owners : List Str} {listing k : Str} (hk : k ∈ dumpKeys listing owners)
    (hc : c ∈ k) : c ∈ listing := by
  obtain ⟨line, hline, hkey⟩ := mem_dumpKeys.mp hk
  obtain ⟨rest, hrest, rfl⟩ := Option.map_eq_some_iff.mp hkey
  apply mem_of_line hline
  apply (tocEntry_suffix hrest).subset
  unfold withoutOwner at hc
  dsimp only at hc
  split at hc
  · exact List.mem_of_mem_take hc
  · exact mem_of_beforeLast hc

theorem mem_of_strip {c : Char} {s : Str} (h : c ∈ strip s) : c ∈ s := by
  unfold strip lstrip at h
  have hback := (List.dropWhile_suffix _).subset (List.mem_reverse.mp h)
  exact (List.dropWhile_suffix _).subset (List.mem_reverse.mp hback)

/-- the names of a plan are the target's and the listing's -/
theorem quoted_of_plan {dump listing : Str} {rows : List Row} {plan : Replacement}
    (hquoted : ∀ o ∈ objectsOf rows, Sql.Closed o.quoted) (hlisting : '\x00' ∉ listing)
    (h : planReplacement dump (.ok rows) (.ok listing) = .ok (some plan)) : plan.Quoted := by
  rcases planReplacement_cases h with ⟨-, rfl⟩ | ⟨-, rfl⟩
  · exact ⟨by simp, by simp⟩
  · refine ⟨fun o ho => hquoted o ?_, fun s hs hnul => hlisting ?_⟩
    · rcases List.mem_append.mp ho with ho | ho
      · exact (mem_relations.mp ho).1
      · exact (mem_others.mp ho).1
    · have hkey := (mem_recreatedSchemas.mp hs).1
      exact mem_of_strip (mem_of_key hkey (List.mem_append_right _ hnul))

/-- **The prelude as psql reads it**: whatever the names are in the target and in the dump, none of them adds
a statement or takes one away, and the one command that bears on transactions is the `BEGIN` in front of
the drops. -/
theorem prelude_read (dump listing : Str) (rows : List Row)
    (hquoted : ∀ o ∈ objectsOf rows, Sql.Closed o.quoted) (hlisting : '\x00' ∉ listing) (plan : Replacement)
    (h : planReplacement dump (.ok rows) (.ok listing) = .ok (some plan)) :
    Sql.statements (replacementPrelude plan) = some ((preludeStatements plan).map (·.bare)) ∧
      ∀ read, CutsAtSemicolons read → read (Utf8.utf8 (replacementPrelude plan)) =
        (preludeSettings.dropLast.map fun st => .plain st.bare) ++ .begin :: dropping plan := by
  have hstatements := statements_prelude (quoted_of_plan hquoted hlisting h)
  refine ⟨hstatements, fun read hread => ?_⟩
  rw [hread _ _ hstatements, prelude_commands]

/-- a table and a schema with names that look like statements -/
def hostileTable : Str := "x\"; COMMIT; --".toList

def hostileSchema : Str := "eu'; DROP DATABASE shop; (".toList

def hostileToc : List TocEntry := plainToc ++ [⟨8, 2615, 16400, schemaType, "-".toList, hostileSchema, "app".toList⟩]

def hostileRows : List Row := migratedRows ++ [relationRow "public".toList hostileTable
  (formatName (fun _ => false) "public".toList hostileTable) public_ne_nil]

theorem prelude_read_hostile :
    let plan := planOf hostileRows (listingText listingHeader hostileToc)
    plan.recreated = [hostileSchema] ∧
      Sql.statements (replacementPrelude plan) = some ((preludeStatements plan).map (·.bare)) ∧
      fileCommands (Utf8.utf8 (replacementPrelude plan)) =
        (preludeSettings.dropLast.map fun st => .plain st.bare) ++ .begin :: dropping plan := by
  have hnames : ∀ o ∈ objectsOf hostileRows, o.quoted.all Sql.ordinary = true ∨
      o.quoted = formatName (fun _ => false) "public".toList hostileTable := by decide +kernel
  have hclosed : ∀ o ∈ objectsOf hostileRows, Sql.Closed o.quoted := by
    intro o ho
    rcases hnames o ho with hplain | hquoted
    · exact Sql.closed_of_ordinary hplain
    · rw [hquoted]
      exact closed_formatName (by decide) (by decide)
  have hread := prelude_read "app.dump".toList (listingText listingHeader hostileToc) hostileRows hclosed
    (by decide +kernel) (planOf hostileRows (listingText listingHeader hostileToc)) (by decide +kernel)
  exact ⟨by decide +kernel, hread.1, hread.2 _ fileCommands_cuts⟩

end BackupHelper
