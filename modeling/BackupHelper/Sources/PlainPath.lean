import BackupHelper.Sources.Prelude

/-!
# When nothing is dropped first

On the plain path the dump's own clean phase drops its schemas without CASCADE: an object there that
the dump does not know stops it, and so does a partitioned table that the dump recreates.

* `Contains`, `InTheWay`   what the dump contains, and the objects that stand in its way;
* `Noticed`                an object on account of which something is dropped first;
* `nothing_dropped_iff`    nothing is dropped first exactly if no object is noticed;
* `plain_path_exact`       **no object stands in the way of a plain restore** exactly if one in the way
                           is never the only one, unnoticed;
* `passed_over`            which objects in the way are not noticed when the listing is read rightly.
-/

namespace BackupHelper
open Text

/-- the name of the object's entry in a table of contents -/
def LiveObject.tocName (o : LiveObject) : Str :=
  if o.kind = .F then o.name ++ ' ' :: o.constraint else o.name

def Contains (toc : List TocEntry) (o : LiveObject) : Prop :=
  ∃ e ∈ toc, e.type = objectType o.kind ∧ e.schema = o.schema ∧ e.name = o.tocName

/-- a schema that the clean phase drops, or whose relations it does -/
def Cleaned (toc : List TocEntry) (s : Str) : Prop := Creates toc s ∨ HoldsRelation toc s

inductive InTheWay (toc : List TocEntry) (o : LiveObject) : Prop
  /-- a relation, routine, type or domain that the dump lacks -/
  | lacking (hkind : o.kind ≠ .F) (h : ¬ Contains toc o) (hs : Cleaned toc o.schema)
  /-- a foreign key that the dump lacks -/
  | key (hkind : o.kind = .F) (h : ¬ Contains toc o) (hs : Cleaned toc o.refSchema)
  | partitioned (hkind : o.kind = .p) (h : Contains toc o)

instance (toc : List TocEntry) (o : LiveObject) : Decidable (Contains toc o) :=
  inferInstanceAs (Decidable (∃ e ∈ toc, _))

instance (toc : List TocEntry) (s : Str) : Decidable (Cleaned toc s) :=
  inferInstanceAs (Decidable (_ ∨ _))

/-- a line of the listing reads as the entry `k` -/
def ReadsAs (rows : List Row) (listing k : Str) : Prop :=
  ∃ line ∈ splitlines (strip listing), lineKey (ownersOf rows) line = some k

/-- the target lists a relation of the schema, and a line reads as one of the dump's there -/
def ReadsHeld (rows : List Row) (listing s : Str) : Prop :=
  (∃ o ∈ objectsOf rows, o.isRelation ∧ o.schema = s) ∧
    ∃ t ∈ relationTypes, ∃ u, ReadsAs rows listing (t ++ ' ' :: s ++ ' ' :: u)

/-- a line reads as the creation of the schema, which is not `public` -/
def ReadsCreated (rows : List Row) (listing s : Str) : Prop :=
  s ≠ "public".toList ∧ ReadsAs rows listing (createText ++ s)

inductive Noticed (rows : List Row) (listing : Str) (o : LiveObject) : Prop
  | partitioned (hkind : o.kind = .p) (hkey : ReadsAs rows listing o.key)
  | held (hkey : ¬ ReadsAs rows listing o.key) (hs : ReadsHeld rows listing o.schema)
  | referenced (hkey : ¬ ReadsAs rows listing o.key) (hs : ReadsHeld rows listing o.refSchema)
  | created (hkey : ¬ ReadsAs rows listing o.key) (hkind : o.kind ∈ otherKinds)
      (hs : ReadsCreated rows listing o.schema)

/-- the restore drops nothing before the dump's script -/
def NothingDropped (plan : Option Replacement) : Prop :=
  ∀ p, plan = some p → ∀ type names, .drop type names ∉ preludeStatements p

section
variable {rows : List Row} {listing : Str} {o : LiveObject}

theorem mem_keys {k : Str} : k ∈ dumpKeys (strip listing) (ownersOf rows) ↔ ReadsAs rows listing k :=
  mem_dumpKeys

theorem mem_schemas {s : Str} : s ∈ (planOf rows listing).schemas ↔ ReadsHeld rows listing s := by
  show s ∈ snapshotSchemas _ _ ↔ _
  rw [mem_snapshotSchemas]
  refine and_congr_right fun _ => ?_
  constructor
  · rintro ⟨t, ht, k, hk, ⟨u, rfl⟩⟩
    refine ⟨t, ht, u, ?_⟩
    have hshape : t ++ ' ' :: s ++ [' '] ++ u = t ++ ' ' :: s ++ ' ' :: u := by simp
    rw [hshape] at hk
    exact mem_keys.mp hk
  · rintro ⟨t, ht, u, hk⟩
    exact ⟨t, ht, _, mem_keys.mpr hk, ⟨u, by simp⟩⟩

theorem mem_recreated {s : Str} : s ∈ (planOf rows listing).recreated ↔ ReadsCreated rows listing s := by
  show s ∈ recreatedSchemas _ ↔ _
  have hpublic : createText ++ s ≠ publicKey ↔ s ≠ "public".toList := by
    have hsplit : publicKey = createText ++ "public".toList := by decide
    rw [hsplit, ne_eq, List.append_cancel_left_eq]
  rw [mem_recreatedSchemas, hpublic, mem_keys, and_comm]
  exact Iff.rfl

theorem mem_partitioned : o ∈ (planOf rows listing).partitioned ↔
    o ∈ objectsOf rows ∧ o.kind = .p ∧ ReadsAs rows listing o.key := by
  show o ∈ partitionedTables _ _ ↔ _
  unfold partitionedTables
  simp only [List.mem_filter, decide_eq_true_eq, mem_keys]
  refine and_congr_right fun _ => ⟨fun h => h.2, fun h => ⟨?_, h⟩⟩
  show objectType o.kind ∈ relationTypes
  rw [h.1]
  decide

theorem mem_absentObjects : o ∈ absentObjects (objectsOf rows) (dumpKeys (strip listing) (ownersOf rows)) ↔
    o ∈ objectsOf rows ∧ ¬ ReadsAs rows listing o.key ∧ (ReadsHeld rows listing o.schema ∨
      ReadsHeld rows listing o.refSchema ∨ (o.kind ∈ otherKinds ∧ ReadsCreated rows listing o.schema)) := by
  unfold absentObjects
  simp only [List.mem_filter, decide_eq_true_eq, mem_keys]
  rw [show snapshotSchemas (objectsOf rows) (dumpKeys (strip listing) (ownersOf rows)) =
    (planOf rows listing).schemas from rfl, mem_schemas, mem_schemas,
    show recreatedSchemas (dumpKeys (strip listing) (ownersOf rows)) =
    (planOf rows listing).recreated from rfl, mem_recreated]

/-- the target differs if an object is noticed -/
theorem differs_iff : Differs rows listing ↔ ∃ o ∈ objectsOf rows, Noticed rows listing o := by
  constructor
  · rintro (h | h)
    · obtain ⟨o, ho⟩ := List.exists_mem_of_ne_nil _ h
      obtain ⟨hmem, hkind, hkey⟩ := mem_partitioned.mp ho
      exact ⟨o, hmem, .partitioned hkind hkey⟩
    · obtain ⟨o, ho⟩ := List.exists_mem_of_ne_nil _ h
      obtain ⟨hmem, hkey, hs | hs | ⟨hkind, hs⟩⟩ := mem_absentObjects.mp ho
      · exact ⟨o, hmem, .held hkey hs⟩
      · exact ⟨o, hmem, .referenced hkey hs⟩
      · exact ⟨o, hmem, .created hkey hkind hs⟩
  · rintro ⟨o, hmem, hn⟩
    cases hn with
    | partitioned hkind hkey =>
      exact Or.inl (List.ne_nil_of_mem (mem_partitioned.mpr ⟨hmem, hkind, hkey⟩))
    | held hkey hs =>
      exact Or.inr (List.ne_nil_of_mem (mem_absentObjects.mpr ⟨hmem, hkey, Or.inl hs⟩))
    | referenced hkey hs =>
      exact Or.inr (List.ne_nil_of_mem (mem_absentObjects.mpr ⟨hmem, hkey, Or.inr (Or.inl hs)⟩))
    | created hkey hkind hs =>
      exact Or.inr (List.ne_nil_of_mem (mem_absentObjects.mpr ⟨hmem, hkey, Or.inr (Or.inr ⟨hkind, hs⟩)⟩))

/-- a plan with a relation drops it -/
theorem drops_of_relation {plan : Replacement} (h : o ∈ plan.relations) (hrel : o.isRelation) :
    ∃ type names, .drop type names ∈ preludeStatements plan := by
  let names := ((plan.relations ++ plan.others).filter
    (objectType ·.kind = objectType o.kind)).map (·.quoted)
  have hmem : o.quoted ∈ names :=
    List.mem_map_of_mem (List.mem_filter.mpr ⟨List.mem_append_left _ h, decide_eq_true rfl⟩)
  have hdrop : Statement.drop (objectType o.kind) names ∈ dropsOf plan (objectType o.kind) := by
    simp only [dropsOf]
    rw [if_neg (List.ne_nil_of_mem hmem)]
    exact List.mem_singleton.mpr rfl
  exact ⟨_, _, mem_prelude.mpr (Or.inl ⟨type_of_relation hrel, hdrop⟩)⟩

theorem drops_of_held {s : Str} (h : ReadsHeld rows listing s) :
    ∃ type names, .drop type names ∈ preludeStatements (planOf rows listing) := by
  obtain ⟨o, ho, hrel, rfl⟩ := h.1
  exact drops_of_relation (mem_relations.mpr ⟨ho, hrel, mem_schemas.mpr h⟩) hrel

/-- a target that differs has something dropped first -/
theorem drops_of_differs (h : Differs rows listing) :
    ∃ type names, .drop type names ∈ preludeStatements (planOf rows listing) := by
  obtain ⟨o, hmem, hn⟩ := differs_iff.mp h
  cases hn with
  | partitioned hkind hkey =>
    have hrel : o.isRelation := by
      show objectType o.kind ∈ relationTypes
      rw [hkind]
      decide
    refine drops_of_held ⟨⟨o, hmem, hrel, rfl⟩, objectType o.kind, hrel, o.name, ?_⟩
    have hF : o.kind ≠ .F := by simp [hkind]
    unfold LiveObject.key at hkey
    rwa [if_neg hF] at hkey
  | held hkey hs => exact drops_of_held hs
  | referenced hkey hs => exact drops_of_held hs
  | created hkey hkind hs =>
    exact ⟨_, _, mem_prelude.mpr (Or.inr ⟨List.ne_nil_of_mem (mem_recreated.mpr hs), rfl, rfl⟩)⟩

/-- a target that does not differ is restored plainly -/
theorem plain_of_same (dump : Str) (h : ¬ Differs rows listing) :
    planReplacement dump (.ok rows) (.ok listing) = .ok (plainPlan (serverVersion rows)) := by
  unfold planReplacement
  simp only
  split
  · rfl
  · have hsame := not_or.mp h
    rw [if_pos ⟨not_not.mp hsame.1, not_not.mp hsame.2⟩]

theorem ne_none_of_differs {dump : Str} (h : Differs rows listing) :
    planReplacement dump (.ok rows) (.ok listing) ≠ .ok none := by
  obtain ⟨o, ho, -⟩ := differs_iff.mp h
  unfold planReplacement
  simp only
  rw [if_neg (List.ne_nil_of_mem ho), if_neg fun hsame => h.elim (· hsame.1) (· hsame.2)]
  split
  · exact fun he => by cases he
  · exact fun he => by cases he

theorem nothing_dropped_plain (version : ℕ) : NothingDropped (plainPlan version) := by
  intro p hp type names hmem
  obtain rfl := plainPlan_some hp
  rcases mem_prelude.mp hmem with ⟨-, hm⟩ | ⟨hr, -⟩
  · simp [dropsOf] at hm
  · exact hr rfl

/-- **Nothing is dropped first exactly if no object is noticed.** -/
theorem nothing_dropped_iff {dump : Str} {r : Option Replacement}
    (h : planReplacement dump (.ok rows) (.ok listing) = .ok r) :
    NothingDropped r ↔ ∀ o ∈ objectsOf rows, ¬ Noticed rows listing o := by
  have hdiff : (∀ o ∈ objectsOf rows, ¬ Noticed rows listing o) ↔ ¬ Differs rows listing := by
    rw [differs_iff]
    push Not
    exact Iff.rfl
  rw [hdiff]
  by_cases hd : Differs rows listing
  · refine iff_of_false (fun hnone => ?_) (not_not.mpr hd)
    obtain ⟨type, names, hmem⟩ := drops_of_differs hd
    cases r with
    | none => exact absurd h (ne_none_of_differs hd)
    | some plan =>
      rcases planReplacement_cases h with ⟨hsame, -⟩ | ⟨-, rfl⟩
      · exact hsame hd
      · exact hnone _ rfl _ _ hmem
  · rw [plain_of_same dump hd] at h
    rw [← Except.ok.inj h]
    exact iff_of_true (nothing_dropped_plain _) hd

end

/-- **No object stands in the way of a plain restore** exactly if, where one does, it or another is
noticed. -/
theorem plain_path_exact (dump : Str) (rows : List Row) (header : List Str) (toc : List TocEntry) :
    (∀ r, planReplacement dump (.ok rows) (.ok (listingText header toc)) = .ok r → NothingDropped r →
      ∀ o ∈ objectsOf rows, ¬ InTheWay toc o) ↔
    ((∃ o ∈ objectsOf rows, InTheWay toc o) →
      ∃ o ∈ objectsOf rows, Noticed rows (listingText header toc) o) := by
  constructor
  · intro h
    rintro ⟨o, ho, hway⟩
    by_contra hn
    have hsame : ¬ Differs rows (listingText header toc) := fun hd => hn (differs_iff.mp hd)
    exact h _ (plain_of_same dump hsame) (nothing_dropped_plain _) o ho hway
  · intro h r hr hnone o ho hway
    obtain ⟨o', ho', hn⟩ := h ⟨o, ho, hway⟩
    exact (nothing_dropped_iff hr).mp hnone o' ho' hn

/-! ## what is passed over -/

/-- a line reads as an entry exactly if the dump has it, as far as the target's objects and schemas
are concerned -/
structure ReadRightly (rows : List Row) (toc : List TocEntry) (listing : Str) : Prop where
  keys : ∀ o ∈ objectsOf rows, ReadsAs rows listing o.key ↔ Contains toc o
  held : ∀ s, (∃ t ∈ relationTypes, ∃ u, ReadsAs rows listing (t ++ ' ' :: s ++ ' ' :: u)) ↔
    HoldsRelation toc s
  created : ∀ s, ReadsCreated rows listing s ↔ Creates toc s

/-- an object in a schema that the dump creates without a relation in it, or holds relations of while
the target lists none there -/
def PassedOver (rows : List Row) (toc : List TocEntry) (s : Str) : Prop :=
  (Creates toc s ∧ ¬ HoldsRelation toc s) ∨
    (HoldsRelation toc s ∧ ∀ o ∈ objectsOf rows, o.isRelation → o.schema ≠ s)

/-- **Which objects in the way are not noticed**, although the listing is read rightly: relations in a
schema that is passed over, foreign keys onto one, and routines, types and domains only where the dump
does not create the schema. -/
theorem passed_over {rows : List Row} {toc : List TocEntry} {listing : Str}
    (hread : ReadRightly rows toc listing) {o : LiveObject} (ho : o ∈ objectsOf rows)
    (hway : InTheWay toc o) (hn : ¬ Noticed rows listing o) :
    (o.kind = .F ∧ PassedOver rows toc o.refSchema) ∨
      (o.kind ≠ .F ∧ PassedOver rows toc o.schema ∧ (o.kind ∈ otherKinds → ¬ Creates toc o.schema)) := by
  have hheld : ∀ {s : Str}, Cleaned toc s → ¬ ReadsHeld rows listing s → PassedOver rows toc s := by
    intro s hs hnot
    by_cases hr : HoldsRelation toc s
    · refine Or.inr ⟨hr, fun o' ho' hrel he => hnot ⟨⟨o', ho', hrel, he⟩, ?_⟩⟩
      exact (hread.held s).mpr hr
    · exact Or.inl ⟨hs.resolve_right hr, hr⟩
  cases hway with
  | lacking hkind hlacks hs =>
    have hkey : ¬ ReadsAs rows listing o.key := fun hk => hlacks ((hread.keys o ho).mp hk)
    refine Or.inr ⟨hkind, hheld hs fun hh => hn (.held hkey hh), fun hother hc => ?_⟩
    exact hn (.created hkey hother ((hread.created _).mpr hc))
  | key hkind hlacks hs =>
    have hkey : ¬ ReadsAs rows listing o.key := fun hk => hlacks ((hread.keys o ho).mp hk)
    exact Or.inl ⟨hkind, hheld hs fun hh => hn (.referenced hkey hh)⟩
  | partitioned hkind hcont =>
    exact absurd (.partitioned hkind ((hread.keys o ho).mpr hcont)) hn

/-- a dump of one table, and of a schema that holds one function -/
def functionToc : List TocEntry :=
  plainToc ++ [⟨8, 2615, 16400, schemaType, "-".toList, "tools".toList, "app".toList⟩,
    ⟨220, 1255, 16401, "FUNCTION".toList, "tools".toList, "rank()".toList, "app".toList⟩]

/-- a table that an upgrade added to that schema -/
def addedTable : LiveObject :=
  ⟨.r, "tools".toList, "log".toList, [], "tools.log".toList, [], by decide, LiveObject.noRef⟩

def toolsRows : List Row :=
  [relationRow "public".toList "plain".toList "public.plain".toList public_ne_nil,
    .object ⟨.FN, "tools".toList, "rank()".toList, [], "tools.rank()".toList, [], by decide,
      LiveObject.noRef⟩,
    .object addedTable, .role "app".toList, .version "170004".toList]

/-- **Where a table in the way is overlooked**: the dump creates its schema, with no relation in it. -/
theorem added_table_overlooked :
    planReplacement "app.dump".toList (.ok toolsRows) (.ok (listingText listingHeader functionToc)) =
        .ok none ∧
      addedTable ∈ objectsOf toolsRows ∧ InTheWay functionToc addedTable := by
  refine ⟨by decide +kernel, by decide, .lacking (by decide) (by decide) (Or.inl (by decide))⟩

end BackupHelper
