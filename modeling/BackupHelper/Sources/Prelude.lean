import BackupHelper.Sources.Replacement

/-!
# What the prelude drops

The objects of a plan travel through filters by kind, schema and key; the prelude names what is left.

* `ToDrop`          what a plan has to drop: relations of its schemas, and the routines, types and
                    domains there, or in a schema created anew, that the dump lacks;
* `Drops named`     the prelude names these objects, each once and under its type, then the schemas;
* `prelude_exact`   **a plan drops what it has to, and says of all that is absent what becomes of it.**
-/

namespace BackupHelper
open Text

/-- what a restore with `plan` has to drop before the dump's script, `keys` being those of the dump -/
def ToDrop (plan : Replacement) (keys : List Str) (o : LiveObject) : Prop :=
  (o.isRelation ∧ o.schema ∈ plan.schemas) ∨
    (o.kind ∈ otherKinds ∧ o.key ∉ keys ∧ (o.schema ∈ plan.schemas ∨ o.schema ∈ plan.recreated))

/-- the statement that drops the objects of a type -/
def dropOf (named : List LiveObject) (type : Str) : Statement :=
  .drop type ((named.filter (objectType ·.kind = type)).map (·.quoted))

/-- the DROP statements, of one type each and in the order of the types, name the objects `named` and
no other, each once; that of the schemas created anew follows -/
structure Drops (named : List LiveObject) (plan : Replacement) : Prop where
  nodup : named.Nodup
  typed : ∀ o ∈ named, objectType o.kind ∈ dropOrder
  schemas : plan.recreated.Nodup
  statements : preludeStatements plan = preludeSettings ++
    (dropOrder.filter (fun t => named.any (objectType ·.kind = t))).map (dropOf named) ++
    (if plan.recreated = [] then [] else [.drop schemaType (plan.recreated.map quoteIdent)]) ++
    [.set "SET client_min_messages = error;".toList]

section
variable {plan : Replacement}

theorem dropsOf_flatMap (types : List Str) : types.flatMap (dropsOf plan) =
    (types.filter (fun t => (plan.relations ++ plan.others).any (objectType ·.kind = t))).map
      (dropOf (plan.relations ++ plan.others)) := by
  induction types with
  | nil => rfl
  | cons t types ih =>
    rw [List.flatMap_cons, ih, List.filter_cons]
    by_cases hany : (plan.relations ++ plan.others).any (objectType ·.kind = t) = true
    · have hne : ((plan.relations ++ plan.others).filter (objectType ·.kind = t)).map (·.quoted) ≠ [] := by
        obtain ⟨o, ho, ht⟩ := List.any_eq_true.mp hany
        exact List.ne_nil_of_mem (List.mem_map_of_mem (List.mem_filter.mpr ⟨ho, ht⟩))
      rw [if_pos hany]
      simp only [dropsOf, if_neg hne]
      rfl
    · have hnil : ((plan.relations ++ plan.others).filter (objectType ·.kind = t)).map (·.quoted) = [] := by
        rw [List.map_eq_nil_iff, List.filter_eq_nil_iff]
        intro o ho ht
        exact hany (List.any_eq_true.mpr ⟨o, ho, ht⟩)
      rw [if_neg hany]
      simp only [dropsOf, if_pos hnil]
      rfl

theorem type_of_relation {o : LiveObject} (h : o.isRelation) : objectType o.kind ∈ dropOrder := by
  have hall : ∀ t ∈ relationTypes, t ∈ dropOrder := by decide
  exact hall _ h

theorem type_of_other {o : LiveObject} (h : o.kind ∈ otherKinds) :
    objectType o.kind ∈ dropOrder ∧ ¬ o.isRelation := by
  have hall : ∀ k ∈ otherKinds, objectType k ∈ dropOrder ∧ objectType k ∉ relationTypes := by decide
  exact hall _ h

variable {rows : List Row} {listing : Str}

theorem mem_listedAbsent {absent : List LiveObject} {o : LiveObject} :
    o ∈ listedAbsent absent ↔ o ∈ absent ∧
      (o.kind ≠ .F ∨ (o.schema, o.name) ∉ (absent.filter (·.kind ≠ .F)).map fun o => (o.schema, o.name)) := by
  simp only [listedAbsent, List.mem_insertionSort, List.mem_filter, decide_eq_true_eq]

/-- the schema that a foreign key references is listed for foreign keys only -/
theorem refSchema_of_ne {o : LiveObject} (h : o.kind ≠ .F) {objects : List LiveObject} {keys : List Str} :
    o.refSchema ∉ snapshotSchemas objects keys := by
  rw [o.refs h]
  intro hmem
  obtain ⟨⟨o', -, -, he⟩, -⟩ := mem_snapshotSchemas.mp hmem
  exact o'.named he

theorem other_ne_key {o : LiveObject} (h : o.kind ∈ otherKinds) : o.kind ≠ .F := by
  intro he
  rw [he] at h
  exact absurd h (by decide)

/-- the routines, types and domains of the plan -/
theorem mem_others {o : LiveObject} : o ∈ (planOf rows listing).others ↔ o ∈ objectsOf rows ∧
    o.kind ∈ otherKinds ∧ o.key ∉ dumpKeys (strip listing) (ownersOf rows) ∧
      (o.schema ∈ (planOf rows listing).schemas ∨ o.schema ∈ (planOf rows listing).recreated) := by
  show o ∈ (listedAbsent (absentObjects _ _)).filter _ ↔ _
  rw [List.mem_filter, mem_listedAbsent, decide_eq_true_eq]
  unfold absentObjects
  simp only [List.mem_filter, decide_eq_true_eq]
  constructor
  · rintro ⟨⟨⟨hmem, hkey, hwhere⟩, -⟩, hkind⟩
    refine ⟨hmem, hkind, hkey, ?_⟩
    rcases hwhere with hs | hr | ⟨-, hc⟩
    · exact Or.inl hs
    · exact absurd hr (refSchema_of_ne (other_ne_key hkind))
    · exact Or.inr hc
  · rintro ⟨hmem, hkind, hkey, hwhere⟩
    refine ⟨⟨⟨hmem, hkey, ?_⟩, Or.inl (other_ne_key hkind)⟩, hkind⟩
    exact hwhere.imp_right fun hc => Or.inr ⟨hkind, hc⟩

theorem nodup_listedAbsent {absent : List LiveObject} (h : absent.Nodup) : (listedAbsent absent).Nodup :=
  (List.perm_insertionSort _ _).nodup_iff.mpr (h.filter _)

theorem nodup_recreated : (planOf rows listing).recreated.Nodup := by
  show (recreatedSchemas (dumpKeys (strip listing) (ownersOf rows))).Nodup
  unfold recreatedSchemas
  apply sorted_nodup
  refine List.Nodup.map_on ?_ ((List.nodup_dedup _).filter _)
  intro a ha b hb he
  have hbegin : ∀ k ∈ (dumpKeys (strip listing) (ownersOf rows)).filter
      (fun k => createText.isPrefixOf k ∧ k ≠ publicKey), createText ++ cut createText k = k := by
    intro k hk
    have hk' := (List.mem_filter.mp hk).2
    simp only [Bool.decide_and, Bool.and_eq_true, decide_eq_true_eq, List.isPrefixOf_iff_prefix] at hk'
    obtain ⟨t, rfl⟩ := hk'.1
    rw [cut_append]
  rw [← hbegin a ha, ← hbegin b hb, he]

theorem drops_planOf (h : (objectsOf rows).Nodup) :
    Drops ((planOf rows listing).relations ++ (planOf rows listing).others) (planOf rows listing) where
  nodup := by
    refine List.nodup_append'.mpr ⟨h.filter _, ?_, fun o ho ho' => ?_⟩
    · exact (nodup_listedAbsent (h.filter _)).filter _
    · exact (type_of_other (mem_others.mp ho').2.1).2 (mem_relations.mp ho).2.1
  typed o ho := by
    rcases List.mem_append.mp ho with ho | ho
    · exact type_of_relation (mem_relations.mp ho).2.1
    · exact (type_of_other (mem_others.mp ho).2.1).1
  schemas := nodup_recreated
  statements := by
    unfold preludeStatements
    rw [dropsOf_flatMap]

/-- what becomes of an absent object -/
theorem absent_cases {o : LiveObject} (ho : o ∈ (planOf rows listing).absent) :
    ToDrop (planOf rows listing) (dumpKeys (strip listing) (ownersOf rows)) o ∨
      o.schema ∈ (planOf rows listing).recreated ∨
      (o.kind = .F ∧ (o.refSchema ∈ (planOf rows listing).schemas ∨
        o.schema ∈ (planOf rows listing).schemas)) := by
  obtain ⟨hmem, -⟩ := mem_listedAbsent.mp ho
  unfold absentObjects at hmem
  simp only [List.mem_filter, decide_eq_true_eq] at hmem
  obtain ⟨-, hkey, hwhere⟩ := hmem
  by_cases hF : o.kind = .F
  · refine Or.inr (Or.inr ⟨hF, ?_⟩)
    rcases hwhere with hs | hr | ⟨hk, -⟩
    · exact Or.inr hs
    · exact Or.inl hr
    · exact absurd hF (other_ne_key hk)
  · rcases hwhere with hs | hr | ⟨-, hc⟩
    · left
      -- every kind but a foreign key is a relation or one of the others
      have hkinds : ∀ k : Kind, k ≠ .F → objectType k ∈ relationTypes ∨ k ∈ otherKinds := by
        intro k
        cases k <;> decide
      rcases hkinds o.kind hF with hr | hk
      · exact Or.inl ⟨hr, hs⟩
      · exact Or.inr ⟨hk, hkey, Or.inl hs⟩
    · exact absurd hr (refSchema_of_ne hF)
    · exact Or.inr (Or.inl hc)

end

/-- **What the prelude drops**: all that the plan has to and nothing else, and of every absent object
the plan says what becomes of it. -/
theorem prelude_exact (dump : Str) (rows : List Row) (listing : Str) (plan : Replacement)
    (hdistinct : (objectsOf rows).Nodup)
    (h : planReplacement dump (.ok rows) (.ok listing) = .ok (some plan)) :
    ∃ named : List LiveObject, Drops named plan ∧
      (∀ o, o ∈ named ↔ o ∈ objectsOf rows ∧
        ToDrop plan (dumpKeys (strip listing) (ownersOf rows)) o) ∧
      ∀ o ∈ plan.absent, o ∈ named ∨ o.schema ∈ plan.recreated ∨
        (o.kind = .F ∧ (o.refSchema ∈ plan.schemas ∨ o.schema ∈ plan.schemas)) := by
  rcases planReplacement_cases h with ⟨-, rfl⟩ | ⟨-, rfl⟩
  · refine ⟨[], ⟨List.nodup_nil, by simp, List.nodup_nil, rfl⟩, fun o => ?_, by simp⟩
    simp [ToDrop]
  · have hmem : ∀ o, o ∈ (planOf rows listing).relations ++ (planOf rows listing).others ↔
        o ∈ objectsOf rows ∧
          ToDrop (planOf rows listing) (dumpKeys (strip listing) (ownersOf rows)) o := by
      intro o
      rw [List.mem_append, mem_relations, mem_others]
      unfold ToDrop
      tauto
    refine ⟨_, drops_planOf hdistinct, hmem, fun o ho => ?_⟩
    have hobject : o ∈ objectsOf rows :=
      (List.mem_filter.mp (mem_listedAbsent.mp ho).1).1
    exact (absent_cases ho).imp_left fun hd => (hmem o).mpr ⟨hobject, hd⟩

/-- a migration added a table, a function, and a schema of its own -/
def upgradedRows : List Row :=
  migratedRows ++
    [.object ⟨.FN, "public".toList, "rank(integer)".toList, [], "public.rank(integer)".toList, [],
        public_ne_nil, LiveObject.noRef⟩,
      relationRow "audit".toList "log".toList "audit.log".toList (by decide)]

theorem prelude_exact_upgraded :
    let plan := planOf upgradedRows (listingText listingHeader plainToc)
    ∃ named : List LiveObject, Drops named plan ∧
      (∀ o, o ∈ named ↔ o ∈ objectsOf upgradedRows ∧
        ToDrop plan (dumpKeys (strip (listingText listingHeader plainToc)) (ownersOf upgradedRows)) o) := by
  intro plan
  obtain ⟨named, hdrops, hmem, -⟩ := prelude_exact "app.dump".toList upgradedRows
    (listingText listingHeader plainToc) plan (by decide +kernel) (by decide +kernel)
  exact ⟨named, hdrops, hmem⟩

end BackupHelper
