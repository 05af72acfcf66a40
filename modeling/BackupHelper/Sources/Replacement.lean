import BackupHelper.Sources.Postgres
import Mathlib.Data.List.Dedup
import Mathlib.Tactic.Tauto

/-!
# Whose objects a restore drops

`pg_restore --list` prints each entry of the dump's table of contents on a line of its own, names
unquoted.  A plan recovers from these lines the schemas that it replaces.

* `TocEntry`, `listingText`     the table of contents, and the listing of it;
* `StaysWithin`                      the plan names nothing outside the dump's own schemas;
* `Told`                        every line is told apart from those of the target's other schemas;
* `restore_spares_schemas`      a plan spares them exactly if the lines are told apart, or nothing is
                                replaced.
-/

namespace BackupHelper
open Text

/-! ## the table of contents -/

structure TocEntry where
  dumpId : ℕ
  catalog : ℕ
  oid : ℕ
  type : Str
  /-- `-` for a schema -/
  schema : Str
  name : Str
  owner : Str
  deriving DecidableEq

/-- line feeds and carriage returns are printed as spaces -/
def sanitized (s : Str) : Str := s.map (fun c => if c = '\n' ∨ c = '\r' then ' ' else c)

def digits (n : ℕ) : Str := Nat.toDigits 10 n

def TocEntry.rest (e : TocEntry) : Str :=
  e.type ++ ' ' :: sanitized e.schema ++ ' ' :: sanitized e.name ++ ' ' :: sanitized e.owner

def TocEntry.line (e : TocEntry) : Str :=
  digits e.dumpId ++ "; ".toList ++ digits e.catalog ++ ' ' :: digits e.oid ++ ' ' :: e.rest

/-- the comments at the top, then a line for each entry -/
def listingText (header : List Str) (toc : List TocEntry) : Str :=
  unlines (header ++ toc.map (·.line))

/-- the dump holds a relation of the schema -/
def HoldsRelation (toc : List TocEntry) (s : Str) : Prop :=
  ∃ e ∈ toc, e.type ∈ relationTypes ∧ e.schema = s

/-- the dump creates the schema itself: all but `public` -/
def Creates (toc : List TocEntry) (s : Str) : Prop :=
  s ≠ "public".toList ∧ ∃ e ∈ toc, e.type = schemaType ∧ e.name = s

instance (toc : List TocEntry) (s : Str) : Decidable (HoldsRelation toc s) :=
  inferInstanceAs (Decidable (∃ e ∈ toc, _))

instance (toc : List TocEntry) (s : Str) : Decidable (Creates toc s) :=
  inferInstanceAs (Decidable (_ ∧ ∃ e ∈ toc, _))

/-- what a DROP may name: an object of the plan by its quoted name, or a schema the dump creates -/
def Named (toc : List TocEntry) (plan : Replacement) (type name : Str) : Prop :=
  (type ≠ schemaType ∧ ∃ o ∈ plan.relations ++ plan.others, name = o.quoted) ∨
    (type = schemaType ∧ ∃ s, Creates toc s ∧ name = quoteIdent s)

/-- the plan names nothing outside the schemas that the dump holds or creates -/
structure StaysWithin (toc : List TocEntry) (plan : Replacement) : Prop where
  relations : ∀ o ∈ plan.relations, HoldsRelation toc o.schema
  others : ∀ o ∈ plan.others, HoldsRelation toc o.schema ∨ Creates toc o.schema
  drops : ∀ type names, .drop type names ∈ preludeStatements plan → ∀ name ∈ names,
    Named toc plan type name

/-! ## when it does -/

/-- the target has something to replace: a partitioned table that the dump recreates, or an object
that the dump lacks -/
def Differs (rows : List Row) (listing : Str) : Prop :=
  let keys := dumpKeys (strip listing) (ownersOf rows)
  partitionedTables (objectsOf rows) keys ≠ [] ∨ absentObjects (objectsOf rows) keys ≠ []

instance (rows : List Row) (listing : Str) : Decidable (Differs rows listing) :=
  inferInstanceAs (Decidable (_ ∨ _))

/-- no line of the listing, its owner left off, reads as an entry of a schema that the dump does not
hold: neither as a relation in the schema of one of the target's, nor as the schema itself -/
structure Told (rows : List Row) (toc : List TocEntry) (listing : Str) : Prop where
  relations : ∀ line ∈ splitlines (strip listing), ∀ k, lineKey (ownersOf rows) line = some k →
    ∀ o ∈ objectsOf rows, o.isRelation → ∀ t ∈ relationTypes, t ++ ' ' :: o.schema ++ [' '] <+: k →
      HoldsRelation toc o.schema
  schemas : ∀ line ∈ splitlines (strip listing), ∀ k, lineKey (ownersOf rows) line = some k →
    ∀ s, k = createText ++ s → k ≠ publicKey → Creates toc s

theorem mem_dumpKeys {listing k : Str} {owners : List Str} :
    k ∈ dumpKeys listing owners ↔ ∃ line ∈ splitlines listing, lineKey owners line = some k := by
  unfold dumpKeys
  rw [List.mem_dedup, List.mem_filterMap]

theorem mem_snapshotSchemas {objects : List LiveObject} {keys : List Str} {s : Str} :
    s ∈ snapshotSchemas objects keys ↔ (∃ o ∈ objects, o.isRelation ∧ o.schema = s) ∧
      ∃ t ∈ relationTypes, ∃ k ∈ keys, t ++ ' ' :: s ++ [' '] <+: k := by
  simp only [snapshotSchemas, mem_sorted, List.mem_filter, List.mem_dedup, List.mem_map,
    decide_eq_true_eq, List.any_eq_true, List.isPrefixOf_iff_prefix, and_assoc]

theorem mem_recreatedSchemas {keys : List Str} {s : Str} :
    s ∈ recreatedSchemas keys ↔ createText ++ s ∈ keys ∧ createText ++ s ≠ publicKey := by
  simp only [recreatedSchemas, mem_sorted, List.mem_map, List.mem_filter, Bool.decide_and,
    Bool.and_eq_true, decide_eq_true_eq, List.isPrefixOf_iff_prefix]
  constructor
  · rintro ⟨k, ⟨hk, ⟨s', rfl⟩, hp⟩, rfl⟩
    rw [cut_append]
    exact ⟨hk, hp⟩
  · rintro ⟨hk, hp⟩
    exact ⟨createText ++ s, ⟨hk, List.prefix_append _ _, hp⟩, cut_append _ _⟩

/-- the plan of a target that differs -/
def planOf (rows : List Row) (listing : Str) : Replacement :=
  let objects := objectsOf rows
  let keys := dumpKeys (strip listing) (ownersOf rows)
  let schemas := snapshotSchemas objects keys
  let absent := listedAbsent (absentObjects objects keys)
  ⟨objects.filter fun o => o.isRelation ∧ o.schema ∈ schemas, absent.filter (·.kind ∈ otherKinds),
    schemas, recreatedSchemas keys, partitionedTables objects keys, absent, serverVersion rows⟩

theorem plainPlan_some {version : ℕ} {plan : Replacement} (h : plainPlan version = some plan) :
    plan = ⟨[], [], [], [], [], [], version⟩ := by
  unfold plainPlan at h
  split at h
  · exact (Option.some.inj h).symm
  · simp at h

/-- what a plan is: one that drops nothing, or the plan of a target that differs -/
theorem planReplacement_cases {dump listing : Str} {rows : List Row} {plan : Replacement}
    (h : planReplacement dump (.ok rows) (.ok listing) = .ok (some plan)) :
    (¬ Differs rows listing ∧ plan = ⟨[], [], [], [], [], [], serverVersion rows⟩) ∨
      (Differs rows listing ∧ plan = planOf rows listing) := by
  unfold planReplacement at h
  simp only at h
  split at h
  · rename_i hnone
    left
    refine ⟨?_, plainPlan_some (Except.ok.inj h)⟩
    simp [Differs, hnone, partitionedTables, absentObjects]
  · split at h
    · rename_i hsame
      left
      refine ⟨?_, plainPlan_some (Except.ok.inj h)⟩
      simp only [Differs, hsame.1, hsame.2]
      simp
    · rename_i hdiff
      right
      refine ⟨by unfold Differs; tauto, ?_⟩
      split at h
      · simp at h
      · exact (Option.some.inj (Except.ok.inj h)).symm

/-! ## the statements -/

theorem quoteIdent_inj {s t : Str} (h : quoteIdent s = quoteIdent t) : s = t := by
  have hflat : s.flatMap (fun c => if c = '"' then ['"', '"'] else [c]) =
      t.flatMap (fun c => if c = '"' then ['"', '"'] else [c]) := by
    simpa [quoteIdent] using h
  clear h
  induction s generalizing t with
  | nil =>
    cases t with
    | nil => rfl
    | cons d t => by_cases hd : d = '"' <;> simp [hd] at hflat
  | cons c s ih =>
    cases t with
    | nil => by_cases hc : c = '"' <;> simp [hc] at hflat
    | cons d t =>
      by_cases hc : c = '"' <;> by_cases hd : d = '"'
      · subst hc hd
        rw [ih (by simpa using hflat)]
      · simp only [List.flatMap_cons, if_pos hc, if_neg hd, List.cons_append, List.nil_append,
          List.cons.injEq] at hflat
        exact absurd hflat.1.symm hd
      · simp only [List.flatMap_cons, if_neg hc, if_pos hd, List.cons_append, List.nil_append,
          List.cons.injEq] at hflat
        exact absurd hflat.1 hc
      · simp only [List.flatMap_cons, if_neg hc, if_neg hd, List.cons_append, List.nil_append,
          List.cons.injEq] at hflat
        rw [hflat.1, ih hflat.2]

/-- a DROP statement is one of the plan's objects of one type, or that of the schemas -/
theorem mem_prelude {plan : Replacement} {type : Str} {names : List Str} :
    .drop type names ∈ preludeStatements plan ↔
      (type ∈ dropOrder ∧ .drop type names ∈ dropsOf plan type) ∨
        (plan.recreated ≠ [] ∧ type = schemaType ∧ names = plan.recreated.map quoteIdent) := by
  have hsettings : Statement.drop type names ∉ preludeSettings := by simp [preludeSettings]
  have htype : ∀ t, Statement.drop type names ∈ dropsOf plan t → t = type := by
    intro t ht
    simp only [dropsOf] at ht
    split at ht
    · simp at ht
    · simp only [List.mem_singleton, Statement.drop.injEq] at ht
      exact ht.1.symm
  have hobjects : Statement.drop type names ∈ dropOrder.flatMap (dropsOf plan) ↔
      type ∈ dropOrder ∧ .drop type names ∈ dropsOf plan type := by
    rw [List.mem_flatMap]
    constructor
    · rintro ⟨t, hmem, ht⟩
      rw [htype t ht] at hmem ht
      exact ⟨hmem, ht⟩
    · rintro ⟨hmem, ht⟩
      exact ⟨type, hmem, ht⟩
  have hschemas : Statement.drop type names ∈ (if plan.recreated = [] then []
      else [Statement.drop schemaType (plan.recreated.map quoteIdent)]) ↔
        plan.recreated ≠ [] ∧ type = schemaType ∧ names = plan.recreated.map quoteIdent := by
    by_cases hr : plan.recreated = [] <;> simp [hr]
  unfold preludeStatements
  simp only [List.mem_append, hsettings, hobjects, hschemas, List.mem_singleton, reduceCtorEq,
    false_or, or_false]

theorem named_of_dropsOf {toc : List TocEntry} {plan : Replacement} {type : Str} {names : List Str}
    (htype : type ∈ dropOrder) (h : .drop type names ∈ dropsOf plan type) :
    ∀ name ∈ names, Named toc plan type name := by
  intro name hname
  left
  constructor
  · rintro rfl
    exact absurd htype (by decide)
  · simp only [dropsOf] at h
    split at h
    · simp at h
    · simp only [List.mem_singleton, Statement.drop.injEq] at h
      rw [h.2, List.mem_map] at hname
      obtain ⟨o, ho, rfl⟩ := hname
      exact ⟨o, (List.mem_filter.mp ho).1, rfl⟩

theorem staysWithin_iff {toc : List TocEntry} {plan : Replacement} :
    StaysWithin toc plan ↔ (∀ o ∈ plan.relations, HoldsRelation toc o.schema) ∧
      (∀ o ∈ plan.others, HoldsRelation toc o.schema ∨ Creates toc o.schema) ∧
      ∀ s ∈ plan.recreated, Creates toc s := by
  constructor
  · rintro ⟨hrel, hoth, hdrop⟩
    refine ⟨hrel, hoth, fun s hs => ?_⟩
    have hmem := mem_prelude.mpr (Or.inr ⟨List.ne_nil_of_mem hs, rfl, rfl⟩)
    rcases hdrop _ _ hmem _ (List.mem_map_of_mem hs) with ⟨hne, -⟩ | ⟨-, s', hs', hq⟩
    · exact absurd rfl hne
    · rwa [quoteIdent_inj hq]
  · rintro ⟨hrel, hoth, hcr⟩
    refine ⟨hrel, hoth, fun type names hmem => ?_⟩
    rcases mem_prelude.mp hmem with ⟨htype, hd⟩ | ⟨-, rfl, rfl⟩
    · exact named_of_dropsOf htype hd
    · intro name hname
      obtain ⟨s, hs, rfl⟩ := List.mem_map.mp hname
      exact Or.inr ⟨rfl, s, hcr s hs, rfl⟩

/-! ## the plan of a target that differs -/

theorem mem_relations {rows : List Row} {listing : Str} {o : LiveObject} :
    o ∈ (planOf rows listing).relations ↔ o ∈ objectsOf rows ∧ o.isRelation ∧
      o.schema ∈ (planOf rows listing).schemas := by
  simp only [planOf, List.mem_filter, decide_eq_true_eq]

/-- the relations and the schemas of the plan, in terms of the listing's lines -/
theorem told_iff {rows : List Row} {toc : List TocEntry} {listing : Str} :
    Told rows toc listing ↔ (∀ o ∈ (planOf rows listing).relations, HoldsRelation toc o.schema) ∧
      ∀ s ∈ (planOf rows listing).recreated, Creates toc s := by
  constructor
  · intro h
    constructor
    · intro o ho
      obtain ⟨hmem, hrel, hschema⟩ := mem_relations.mp ho
      obtain ⟨-, t, ht, k, hk, hpre⟩ := mem_snapshotSchemas.mp hschema
      obtain ⟨line, hline, hkey⟩ := mem_dumpKeys.mp hk
      exact h.relations line hline k hkey o hmem hrel t ht hpre
    · intro s hs
      obtain ⟨hk, hp⟩ := mem_recreatedSchemas.mp hs
      obtain ⟨line, hline, hkey⟩ := mem_dumpKeys.mp hk
      exact h.schemas line hline _ hkey s rfl hp
  · rintro ⟨hrel, hcr⟩
    constructor
    · intro line hline k hkey o ho ho' t ht hpre
      refine hrel o (mem_relations.mpr ⟨ho, ho', ?_⟩)
      exact mem_snapshotSchemas.mpr
        ⟨⟨o, ho, ho', rfl⟩, t, ht, k, mem_dumpKeys.mpr ⟨line, hline, hkey⟩, hpre⟩
    · rintro line hline k hkey s rfl hp
      exact hcr s (mem_recreatedSchemas.mpr ⟨mem_dumpKeys.mpr ⟨line, hline, hkey⟩, hp⟩)

/-- an object of another kind that is dropped lies in a schema of the plan -/
theorem schema_of_others {rows : List Row} {listing : Str} {o : LiveObject}
    (h : o ∈ (planOf rows listing).others) :
    o.schema ∈ (planOf rows listing).schemas ∨ o.schema ∈ (planOf rows listing).recreated := by
  simp only [planOf, listedAbsent, absentObjects, List.mem_filter, decide_eq_true_eq,
    List.mem_insertionSort] at h
  obtain ⟨⟨⟨-, -, hwhere⟩, -⟩, hkind⟩ := h
  rcases hwhere with hs | href | ⟨-, hc⟩
  · exact Or.inl hs
  · -- only a foreign key has a referenced schema, and no relation lies in a schema without a name
    have hF : o.kind ≠ .F := by
      intro e
      rw [e] at hkind
      exact absurd hkind (by decide)
    rw [o.refs hF] at href
    obtain ⟨⟨o', -, -, he⟩, -⟩ := mem_snapshotSchemas.mp href
    exact absurd he o'.named
  · exact Or.inr hc

/-- **Whose objects a restore drops.**  A plan names nothing outside the schemas that the dump holds
or creates exactly if nothing differs, or every line of the listing is told apart from those of the
schemas that the dump does not hold. -/
theorem restore_spares_schemas (dump : Str) (rows : List Row) (header : List Str)
    (toc : List TocEntry) (plan : Replacement)
    (h : planReplacement dump (.ok rows) (.ok (listingText header toc)) = .ok (some plan)) :
    StaysWithin toc plan ↔
      (¬ Differs rows (listingText header toc) ∨ Told rows toc (listingText header toc)) := by
  rcases planReplacement_cases h with ⟨hsame, rfl⟩ | ⟨hdiff, rfl⟩
  · refine iff_of_true (staysWithin_iff.mpr ?_) (Or.inl hsame)
    simp
  · rw [staysWithin_iff]
    constructor
    · rintro ⟨hrel, -, hcr⟩
      exact Or.inr (told_iff.mpr ⟨hrel, hcr⟩)
    · rintro (hsame | htold)
      · exact absurd hdiff hsame
      · obtain ⟨hrel, hcr⟩ := told_iff.mp htold
        refine ⟨hrel, fun o ho => ?_, hcr⟩
        rcases schema_of_others ho with hs | hs
        · obtain ⟨⟨o', ho', hr', he⟩, -⟩ := mem_snapshotSchemas.mp hs
          rw [← he]
          exact Or.inl (hrel o' (mem_relations.mpr ⟨ho', hr', by rwa [he]⟩))
        · exact Or.inr (hcr _ hs)

/-! ## an example -/

def listingHeader : List Str := [";".toList, "; Archive created at 2026-10-08 11:46:35 UTC".toList]

def relationRow (schema name quoted : Str) (h : schema ≠ []) : Row :=
  .object ⟨.r, schema, name, [], quoted, [], h, fun _ => rfl⟩

theorem public_ne_nil : "public".toList ≠ [] := by decide

/-- a dump of one table in `public` -/
def plainToc : List TocEntry :=
  [⟨7, 2615, 2200, schemaType, "-".toList, "public".toList, "app".toList⟩,
    ⟨242, 1259, 16502, "TABLE".toList, "public".toList, "plain".toList, "app".toList⟩]

/-- a migration added a table -/
def migratedRows : List Row :=
  [relationRow "public".toList "plain".toList "public.plain".toList (by decide),
    relationRow "public".toList "suggestion".toList "public.suggestion".toList (by decide),
    .role "app".toList, .version "170004".toList]

theorem restore_spares_schemas_migrated :
    let plan := planOf migratedRows (listingText listingHeader plainToc)
    plan.relations.map (·.quoted) = ["public.plain".toList, "public.suggestion".toList] ∧
      StaysWithin plainToc plan := by
  refine ⟨by decide +kernel, ?_⟩
  refine (restore_spares_schemas "app.dump".toList migratedRows listingHeader plainToc _
    (by decide +kernel)).mpr (Or.inr (told_iff.mpr ?_))
  decide +kernel

/-- a dump of one table in the schema `shop eu` -/
def euToc : List TocEntry :=
  [⟨6, 2615, 16390, schemaType, "-".toList, "shop eu".toList, "app".toList⟩,
    ⟨240, 1259, 16500, "TABLE".toList, "shop eu".toList, "orders".toList, "app".toList⟩]

/-- the target also holds a schema `shop`, which the dump knows nothing of -/
def shopRows : List Row :=
  [relationRow "shop".toList "customers".toList "shop.customers".toList (by decide),
    relationRow "shop eu".toList "orders".toList "\"shop eu\".orders".toList (by decide),
    .role "app".toList, .version "170004".toList]

/-- **Where a restore drops another schema's table**: `TABLE shop eu orders` begins with
`TABLE shop `. -/
theorem other_schema_dropped :
    let plan := planOf shopRows (listingText listingHeader euToc)
    planReplacement "app.dump".toList (.ok shopRows) (.ok (listingText listingHeader euToc)) =
        .ok (some plan) ∧
      .drop "TABLE".toList ["shop.customers".toList, "\"shop eu\".orders".toList] ∈
        preludeStatements plan ∧
      ¬ HoldsRelation euToc "shop".toList ∧ ¬ Creates euToc "shop".toList ∧ ¬ StaysWithin euToc plan := by
  refine ⟨by decide +kernel, by decide +kernel, by decide, by decide, fun h => ?_⟩
  exact absurd (staysWithin_iff.mp h).1 (by decide +kernel)

end BackupHelper
