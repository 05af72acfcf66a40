import BackupHelper.Sources.S3Mirror
import BackupHelper.Lib.Json

/-!
# `metadata.json` of a mirror

The file is written with sorted keys, and `restore` reads it back.

* `S3Manifest.value`          what is written;
* `metadataText`              its text;
* `restoreText`               `restore`, from the text and the files;
* `restoreText_metadata`      **what is restored from what was written**.
-/

namespace BackupHelper
open Text Files Json

/-! ## writing -/

def optional (o : Option Str) : Value :=
  match o with
  | none => .null
  | some s => .str s

/-- a mapping of texts -/
def texts (l : List (Str × Str)) : Value := .obj (l.map fun e => (e.1, .str e.2))

def S3Entry.value (e : S3Entry) : Value :=
  .obj ([("key".toList, .str e.key), ("size".toList, .num e.size), ("metadata".toList, texts e.metadata),
    ("storage_class".toList, optional e.storageClass), ("etag".toList, optional e.etag),
    ("tags".toList, match e.tags with
      | none => .null
      | some l => texts l)] ++ e.fields.map fun f => (f.1, optional f.2))

def S3Manifest.value (m : S3Manifest) : Value :=
  .obj [("bucket".toList, .str m.bucket), ("prefix".toList, .str m.prefix_),
    ("object_count".toList, .num m.objectCount), ("objects".toList, .arr (m.objects.map S3Entry.value))]

def metadataText (m : S3Manifest) : Str := dumps m.value

/-! ## reading -/

/-- a mapping of texts; none for anything else -/
def textsOf : Value → Option (List (Str × Str))
  | .obj es => es.mapM fun e =>
    match e.2 with
    | .str s => some (e.1, s)
    | _ => none
  | _ => none

/-- the text in a field, if it is there and not empty; nothing where the field is no text -/
def textIn (v : Value) (field : Str) : Option (Option Str) :=
  match v.get field with
  | none | some .null => some none
  | some (.str s) => some (if s = [] then none else some s)
  | some _ => none

/-- the mapping in a field; where there is none, one without entries -/
def textsIn (v : Value) (field : Str) : Option (List (Str × Str)) :=
  match v.get field with
  | none | some .null => some []
  | some w => textsOf w

/-- the content headers by their parameters -/
def headersIn (v : Value) : Option (List (Str × Option Str)) :=
  contentHeaders.mapM fun h => (textIn v h.1).map (h.2, ·)

/-- the call for an object; nothing where its record is not one that the engine writes -/
def putOfValue (v : Value) (body : Str → Option FileData) : Option Put :=
  match v.get "key".toList with
  | some (.str key) => do
    let b ← body key
    let headers ← headersIn v
    let metadata ← textsIn v "metadata".toList
    let tags ← textsIn v "tags".toList
    return ⟨key, b, headers.filterMap fun h => h.2.map (h.1, ·), metadata,
      if tags = [] then none else some (urlencode tags)⟩
  | _ => none

/-- `restore`: the calls from the text of `metadata.json` and the contents of the files -/
def restoreText (text : Str) (body : Str → Option FileData) : Option (List Put) :=
  match loads text with
  | none => none
  | some v =>
    match v.get "objects".toList with
    | none => some []
    | some (.arr vs) => vs.mapM fun v => putOfValue v body
    | some _ => none

/-! ## what is read of what was written -/

/-- an entry as `produce` makes it: the content headers are recorded, and mappings have distinct keys -/
structure WellRecorded (e : S3Entry) : Prop where
  fields : e.fields.map (·.1) = contentHeaders.map (·.1)
  metadata : (e.metadata.map (·.1)).Nodup
  tags : ∀ l, e.tags = some l → (l.map (·.1)).Nodup

/-- the entry with sorted mappings -/
def S3Entry.sorted (e : S3Entry) : S3Entry :=
  { e with metadata := Json.byKey e.metadata, tags := e.tags.map Json.byKey }

theorem distinct_texts {l : List (Str × Str)} (h : (l.map (·.1)).Nodup) : (texts l).Distinct := by
  refine ⟨?_, distinctEntries_iff.mpr fun e he => ?_⟩
  · rw [List.map_map]
    exact h
  · obtain ⟨d, -, rfl⟩ := List.mem_map.mp he
    trivial

theorem distinct_optional (o : Option Str) : (optional o).Distinct := by
  cases o <;> trivial

theorem sorted_texts (l : List (Str × Str)) : (texts l).sorted = texts (Json.byKey l) := by
  show Value.obj (Json.byKey (sortedEntries _)) = _
  rw [sortedEntries_eq, List.map_map]
  exact congrArg Value.obj (byKey_map Value.str l)

theorem textsOf_texts (l : List (Str × Str)) : textsOf (texts l) = some l := by
  show (l.map fun e => (e.1, Value.str e.2)).mapM _ = _
  induction l with
  | nil => rfl
  | cons e l ih =>
    rw [List.map_cons, List.mapM_cons, ih]
    rfl

theorem WellRecorded.distinct {e : S3Entry} (h : WellRecorded e) : e.value.Distinct := by
  constructor
  · rw [List.map_append, List.map_map]
    show (_ ++ e.fields.map (·.1)).Nodup
    rw [h.fields]
    simp only [List.map_cons, List.map_nil]
    decide
  · refine distinctEntries_iff.mpr fun d hd => ?_
    rcases List.mem_append.mp hd with hd | hd
    · simp only [List.mem_cons, List.not_mem_nil, or_false] at hd
      rcases hd with rfl | rfl | rfl | rfl | rfl | rfl
      · trivial
      · trivial
      · exact distinct_texts h.metadata
      · exact distinct_optional _
      · exact distinct_optional _
      · show (match e.tags with
          | none => Value.null
          | some l => texts l).Distinct
        cases htags : e.tags with
        | none => trivial
        | some l => exact distinct_texts (h.tags l htags)
    · obtain ⟨f, -, rfl⟩ := List.mem_map.mp hd
      exact distinct_optional _

theorem distinct_manifest {m : S3Manifest} (h : ∀ e ∈ m.objects, WellRecorded e) : m.value.Distinct := by
  have hitems : ∀ es : List S3Entry, (∀ e ∈ es, WellRecorded e) → distinctItems (es.map S3Entry.value) := by
    intro es hes
    induction es with
    | nil => trivial
    | cons e es ih =>
      exact ⟨(hes e List.mem_cons_self).distinct, ih fun d hd => hes d (List.mem_cons_of_mem _ hd)⟩
  refine ⟨?_, trivial, trivial, trivial, hitems _ h, trivial⟩
  simp only [List.map_cons, List.map_nil]
  decide

theorem mapM_congr {A B : Type} {f g : A → Option B} {l : List A} (h : ∀ a ∈ l, f a = g a) : l.mapM f = l.mapM g := by
  induction l with
  | nil => rfl
  | cons a l ih =>
    rw [List.mapM_cons, List.mapM_cons, h a List.mem_cons_self, ih fun b hb => h b (List.mem_cons_of_mem _ hb)]

theorem mapM_eq_map {A B : Type} {f : A → Option B} {g : A → B} {l : List A} (h : ∀ a ∈ l, f a = some (g a)) :
    l.mapM f = some (l.map g) := by
  induction l with
  | nil => rfl
  | cons a l ih =>
    rw [List.mapM_cons, h a List.mem_cons_self, ih fun b hb => h b (List.mem_cons_of_mem _ hb)]
    rfl

/-- a content header is read as it was recorded -/
theorem textIn_field {e : S3Entry} (h : WellRecorded e) {name : Str} (hname : name ∈ contentHeaders.map (·.1)) :
    textIn e.value.sorted name = some (present (e.fields.lookup name)) := by
  have hget : e.value.get name = (e.fields.lookup name).map optional := by
    show List.lookup name (_ ++ e.fields.map fun f => (f.1, optional f.2)) = _
    rw [List.lookup_append, Json.lookup_map]
    simp only [contentHeaders, List.map_cons, List.map_nil, List.mem_cons, List.not_mem_nil, or_false] at hname
    rcases hname with rfl | rfl | rfl | rfl | rfl <;> rfl
  unfold textIn
  rw [get_sorted h.distinct, hget]
  cases e.fields.lookup name with
  | none => rfl
  | some o =>
    cases o with
    | none => rfl
    | some s => rfl

theorem WellRecorded.get_key {e : S3Entry} (h : WellRecorded e) : e.value.sorted.get "key".toList = some (.str e.key) :=
  get_sorted h.distinct _

/-- recorded tags are told from none -/
theorem WellRecorded.get_tags {e : S3Entry} (h : WellRecorded e) :
    e.value.sorted.get "tags".toList = some ((e.tags.map Json.byKey).elim .null texts) := by
  have hget : e.value.sorted.get "tags".toList = some (match e.tags with
      | none => Value.null
      | some l => texts l).sorted := get_sorted h.distinct _
  rw [hget]
  cases e.tags with
  | none => rfl
  | some l => exact congrArg some (sorted_texts l)

/-- no tags and an empty set of them are written alike -/
theorem putOf_tagging (e : S3Entry) (body : FileData) : (putOf e.sorted body).tagging =
    if (e.tags.map Json.byKey).getD [] = [] then none else
      some (urlencode ((e.tags.map Json.byKey).getD [])) := by
  simp only [putOf, S3Entry.sorted]
  cases e.tags with
  | none => rfl
  | some l => rfl

/-- the call for an entry that was recorded -/
theorem putOfValue_recorded {e : S3Entry} (h : WellRecorded e) (body : Str → Option FileData) :
    putOfValue e.value.sorted body = (body e.key).map (putOf e.sorted) := by
  have hmetadata : textsIn e.value.sorted "metadata".toList = some (Json.byKey e.metadata) := by
    have hget : e.value.sorted.get "metadata".toList = some (texts e.metadata).sorted := get_sorted h.distinct _
    unfold textsIn
    rw [hget, sorted_texts]
    exact textsOf_texts _
  have htags : textsIn e.value.sorted "tags".toList = some ((e.tags.map Json.byKey).getD []) := by
    unfold textsIn
    rw [h.get_tags]
    cases e.tags with
    | none => rfl
    | some l => exact textsOf_texts _
  have hheaders : headersIn e.value.sorted =
      some (contentHeaders.map fun x => (x.2, present (e.fields.lookup x.1))) := by
    refine mapM_eq_map fun x hx => ?_
    rw [textIn_field h (List.mem_map_of_mem hx)]
    rfl
  unfold putOfValue
  rw [h.get_key]
  simp only [hheaders, hmetadata, htags, Option.bind_eq_bind, Option.bind_some]
  cases body e.key with
  | none => rfl
  | some b =>
    show some (Put.mk _ _ _ _ _) = some (putOf e.sorted b)
    rw [← putOf_tagging e b, List.filterMap_map]
    rfl

/-- the text is read as what was written, with sorted keys -/
theorem loads_metadata {m : S3Manifest} (h : ∀ e ∈ m.objects, WellRecorded e) :
    ∃ v, loads (metadataText m) = some v ∧
      v.get "objects".toList = some (.arr (m.objects.map fun e => e.value.sorted)) := by
  have hdistinct := distinct_manifest h
  have hobjects : m.value.sorted.get "objects".toList = some (Value.arr (m.objects.map S3Entry.value)).sorted :=
    get_sorted hdistinct _
  have hitems : ∀ es : List S3Entry, sortedItems (es.map S3Entry.value) = es.map fun e => e.value.sorted := by
    intro es
    induction es with
    | nil => rfl
    | cons e es ih => exact congrArg (_ :: ·) ih
  refine ⟨_, loads_dumps hdistinct, ?_⟩
  rw [hobjects, Value.sorted, hitems]

/-- **What is restored from what was written**: every object, with sorted mappings. -/
theorem restoreText_metadata {m : S3Manifest} (h : ∀ e ∈ m.objects, WellRecorded e) (body : Str → Option FileData) :
    restoreText (metadataText m) body = m.objects.mapM fun e => (body e.key).map (putOf e.sorted) := by
  obtain ⟨v, hloads, hobjects⟩ := loads_metadata h
  unfold restoreText
  rw [hloads]
  simp only [hobjects]
  rw [List.mapM_map]
  exact mapM_congr fun e he => putOfValue_recorded (h e he) body

end BackupHelper
