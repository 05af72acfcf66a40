import BackupHelper.Sources.S3RoundTrip
import BackupHelper.Sources.S3Metadata
import BackupHelper.Lib.Query

/-!
# The attributes of a mirrored object

A mirror records content headers, user metadata and the storage class of every object.  A restore puts the headers
that are not empty and the metadata, and no storage class.

* `S3Answers`, `Put.object`   what a store answers for an object that was put;
* `SameAttributes`            two records of the same attributes;
* `Reapplied`                      what a restore keeps of an object's attributes;
* `attributes_return_iff`     **which buckets are mirrored again with the same attributes**.
-/

namespace BackupHelper
open Text Files Json

/-! ## the store -/

/-- what a store answers where a put says nothing, and for a body -/
structure S3Answers where
  header : Str → Option Str
  storageClass : Option Str
  size : FileData → ℕ
  etag : FileData → Option Str

/-- the object that a put makes -/
def Put.object (D : S3Answers) (p : Put) : S3Object where
  body := p.body
  length := D.size p.body
  contentLength := some (D.size p.body)
  headers := contentHeaders.filterMap fun h => ((p.headers.lookup h.2).or (D.header h.2)).map (h.2, ·)
  metadata := p.metadata
  storageClass := D.storageClass
  etag := D.etag p.body
  tagging := match p.tagging with
    | none => .tags []
    | some query =>
      match Query.parse query with
      | some l => .tags l
      | none => .failed "InvalidTag".toList

/-- the bucket that the puts fill -/
def restoredBucket (D : S3Answers) (puts : List Put) : Bucket := puts.map fun p => (p.key, p.object D)

/-! ## attributes -/

/-- the order of user metadata does not count -/
structure SameAttributes (e e' : S3Entry) : Prop where
  fields : e'.fields = e.fields
  metadata : e'.metadata.Perm e.metadata
  storageClass : e'.storageClass = e.storageClass

/-- every object is captured with its attributes when the restored bucket is mirrored again -/
def AttributesReturn (D : S3Answers) (B : Bucket) (puts : List Put) : Prop :=
  ∀ e ∈ B, ∃ e' ∈ entries (restoredBucket D puts), e'.key = e.1 ∧ SameAttributes (e.2.entry e.1) e'

/-- the storage class is the one that the store gives by itself, and every content header has a text or is what the
store answers by itself -/
structure Reapplied (D : S3Answers) (o : S3Object) : Prop where
  storageClass : o.storageClass = D.storageClass
  headers : ∀ h ∈ contentHeaders, (∃ s, s ≠ [] ∧ o.headers.lookup h.2 = some s) ∨ o.headers.lookup h.2 = D.header h.2

theorem lookup_filterMap {hs : List (Str × Str)} (hnodup : (hs.map (·.2)).Nodup) (f : Str × Str → Option Str)
    {h : Str × Str} (hh : h ∈ hs) : (hs.filterMap fun h => (f h).map (h.2, ·)).lookup h.2 = f h := by
  induction hs with
  | nil => cases hh
  | cons d hs ih =>
    rw [List.map_cons, List.nodup_cons] at hnodup
    have hskip : d.2 ∉ ((hs.filterMap fun h => (f h).map (h.2, ·)).map (·.1)) := by
      intro hmem
      obtain ⟨e, he, hed⟩ := List.mem_map.mp hmem
      obtain ⟨c, hc, hce⟩ := List.mem_filterMap.mp he
      obtain ⟨v, -, rfl⟩ := Option.map_eq_some_iff.mp hce
      exact hnodup.1 (hed ▸ List.mem_map_of_mem hc)
    rcases List.mem_cons.mp hh with rfl | hh
    · cases hf : f h with
      | none =>
        rw [List.filterMap_cons_none (by rw [hf]; rfl)]
        exact List.lookup_eq_none_iff.mpr fun e he =>
          bne_iff_ne.mpr fun heq => hskip (List.mem_map.mpr ⟨e, he, heq.symm⟩)
      | some v =>
        rw [List.filterMap_cons_some (by rw [hf]; rfl), List.lookup_cons, beq_self_eq_true]
    · have hne : h.2 ≠ d.2 := fun heq => hnodup.1 (heq ▸ List.mem_map_of_mem hh)
      rw [← ih hnodup.2 hh]
      cases hf : f d with
      | none => rw [List.filterMap_cons_none (by rw [hf]; rfl)]
      | some v =>
        rw [List.filterMap_cons_some (by rw [hf]; rfl), List.lookup_cons, beq_eq_false_iff_ne.mpr hne]

/-- a header of a put that was made from an entry -/
theorem lookup_put (o : S3Object) (key : Str) (b : FileData) {h : Str × Str} (hh : h ∈ contentHeaders) :
    (putOf (o.entry key).sorted b).headers.lookup h.2 = present (some (o.headers.lookup h.2)) := by
  have hfield : (o.entry key).fields.lookup h.1 = some (o.headers.lookup h.2) := by
    show (contentHeaders.map fun h => (h.1, o.headers.lookup h.2)).lookup h.1 = _
    refine lookup_of_mem ?_ (e := (h.1, o.headers.lookup h.2)) (List.mem_map_of_mem hh)
    rw [List.map_map]
    show (contentHeaders.map (·.1)).Nodup
    decide
  show (contentHeaders.filterMap fun h => (present ((o.entry key).fields.lookup h.1)).map (h.2, ·)).lookup h.2 = _
  rw [lookup_filterMap (by decide) (fun h => present ((o.entry key).fields.lookup h.1)) hh, hfield]

/-- what is captured of an object that was restored -/
theorem sameAttributes_iff (D : S3Answers) (o : S3Object) (key : Str) (b : FileData) (key' : Str) :
    SameAttributes (o.entry key) (((putOf (o.entry key).sorted b).object D).entry key') ↔ Reapplied D o := by
  have hheader : ∀ h ∈ contentHeaders, (((putOf (o.entry key).sorted b).object D).headers.lookup h.2 =
      o.headers.lookup h.2 ↔ (∃ s, s ≠ [] ∧ o.headers.lookup h.2 = some s) ∨ o.headers.lookup h.2 = D.header h.2) := by
    intro h hh
    show (contentHeaders.filterMap fun h => (((putOf (o.entry key).sorted b).headers.lookup h.2).or
      (D.header h.2)).map (h.2, ·)).lookup h.2 = _ ↔ _
    rw [lookup_filterMap (by decide) (fun h => ((putOf (o.entry key).sorted b).headers.lookup h.2).or (D.header h.2)) hh,
      lookup_put o key b hh]
    cases o.headers.lookup h.2 with
    | none => simp [present, eq_comm]
    | some s =>
      by_cases hs : s = []
      · simp [present, hs, eq_comm]
      · simp [present, hs]
  have hfields : (((putOf (o.entry key).sorted b).object D).entry key').fields = (o.entry key).fields ↔
      ∀ h ∈ contentHeaders, ((putOf (o.entry key).sorted b).object D).headers.lookup h.2 = o.headers.lookup h.2 := by
    show contentHeaders.map (fun h => (h.1, ((putOf (o.entry key).sorted b).object D).headers.lookup h.2)) =
      contentHeaders.map (fun h => (h.1, o.headers.lookup h.2)) ↔ _
    rw [List.map_inj_left]
    exact forall₂_congr fun h _ => by rw [Prod.mk.injEq, eq_self, true_and]
  constructor
  · rintro ⟨hsame, -, hclass⟩
    exact ⟨hclass.symm, fun h hh => (hheader h hh).mp (hfields.mp hsame h hh)⟩
  · rintro ⟨hclass, hheaders⟩
    exact ⟨hfields.mpr fun h hh => (hheader h hh).mpr (hheaders h hh), byKey_perm _, hclass.symm⟩

/-! ## the way through `metadata.json` -/

/-- user metadata and tags are mappings -/
def Mapped (B : Bucket) : Prop :=
  ∀ e ∈ B, (e.2.metadata.map (·.1)).Nodup ∧ ∀ l, e.2.tagging = .tags l → (l.map (·.1)).Nodup

theorem Mapped.recorded {B : Bucket} (h : Mapped B) {e : Str × S3Object} (he : e ∈ B) :
    WellRecorded (e.2.entry e.1) := by
  obtain ⟨hmetadata, htags⟩ := h e he
  refine ⟨?_, hmetadata, fun l hl => ?_⟩
  · show (contentHeaders.map fun h => (h.1, e.2.headers.lookup h.2)).map (·.1) = _
    rw [List.map_map]
    rfl
  · cases htagging : e.2.tagging with
    | tags l' =>
      simp only [S3Object.entry, htagging] at hl
      exact htags l (htagging.trans (congrArg Tagging.tags (Option.some.inj hl)))
    | unavailable code =>
      simp only [S3Object.entry, htagging] at hl
      cases hl
    | failed reason =>
      simp only [S3Object.entry, htagging] at hl
      cases hl

theorem downloads_entries {objectsDir : Path} {d d' : Disk FileData} {B : Bucket} {es : List S3Entry}
    {untagged : List Str} (h : downloads objectsDir d B = (d', .ok (es, untagged))) : es = entries B := by
  induction B generalizing d es untagged with
  | nil =>
    obtain ⟨-, he⟩ := Prod.mk.inj h
    obtain ⟨rfl, -⟩ := Prod.mk.inj (Except.ok.inj he)
    rfl
  | cons e B ih =>
    obtain ⟨key, o⟩ := e
    obtain ⟨d1, es', untagged', -, hrest, rfl⟩ := downloads_cons h
    rw [ih hrest]
    rfl

/-- what a mirror records -/
theorem downloadAll_entries {stage : Path} {d d' : Disk FileData} {B : Bucket} {objects : List S3Entry}
    {untagged : List Str} (h : downloadAll stage d B = (d', .ok (objects, untagged))) :
    objects = byKey (entries B) := by
  unfold downloadAll at h
  split at h
  · cases (Prod.mk.inj h).2
  · split at h
    · cases (Prod.mk.inj h).2
    · rename_i hd
      obtain ⟨-, he⟩ := Prod.mk.inj h
      obtain ⟨rfl, -⟩ := Prod.mk.inj (Except.ok.inj he)
      rw [downloads_entries hd]

/-- the puts of a restore are those of the captured entries -/
theorem puts_of_restore {cfg : S3SourceConfig} {B : Bucket} (hmapped : Mapped B) {body : Str → Option FileData}
    {puts : List Put} (h : restoreText (metadataText (cfg.manifest (byKey (entries B)))) body = some puts) :
    (∀ e ∈ B, ∃ b, putOf (e.2.entry e.1).sorted b ∈ puts) ∧
      ∀ p ∈ puts, ∃ e ∈ B, ∃ b, p = putOf (e.2.entry e.1).sorted b := by
  have hrecorded : ∀ en ∈ byKey (entries B), WellRecorded en := by
    intro en hen
    obtain ⟨e, he, rfl⟩ := mem_byKey.mp hen
    exact hmapped.recorded he
  have hall := mapM_forall₂ ((restoreText_metadata (m := cfg.manifest (byKey (entries B))) hrecorded body).symm.trans h)
  constructor
  · intro e he
    obtain ⟨p, hp, hput⟩ := exists_of_forall₂_left hall _ (mem_byKey.mpr ⟨e, he, rfl⟩)
    obtain ⟨b, -, rfl⟩ := Option.map_eq_some_iff.mp hput
    exact ⟨b, hp⟩
  · intro p hp
    obtain ⟨en, hen, hput⟩ := exists_of_forall₂ hall p hp
    obtain ⟨e, he, rfl⟩ := mem_byKey.mp hen
    obtain ⟨b, -, rfl⟩ := Option.map_eq_some_iff.mp hput
    exact ⟨e, he, b, rfl⟩

/-- the attributes return if they are kept, and only then -/
theorem attributesReturn_iff (D : S3Answers) {cfg : S3SourceConfig} {B : Bucket} (hnodup : (B.map (·.1)).Nodup)
    (hmapped : Mapped B) {body : Str → Option FileData} {puts : List Put}
    (h : restoreText (metadataText (cfg.manifest (byKey (entries B)))) body = some puts) :
    AttributesReturn D B puts ↔ ∀ e ∈ B, Reapplied D e.2 := by
  obtain ⟨hthere, honly⟩ := puts_of_restore hmapped h
  constructor
  · intro hreturn e he
    obtain ⟨e', he', hkey, hsame⟩ := hreturn e he
    obtain ⟨q, hq, rfl⟩ := List.mem_map.mp he'
    obtain ⟨p, hp, rfl⟩ := List.mem_map.mp hq
    obtain ⟨d, hd, b, rfl⟩ := honly p hp
    obtain rfl : d = e := List.inj_on_of_nodup_map hnodup hd he hkey
    exact (sameAttributes_iff D d.2 d.1 b _).mp hsame
  · intro hkept e he
    obtain ⟨b, hb⟩ := hthere e he
    exact ⟨_, List.mem_map_of_mem (List.mem_map_of_mem hb), rfl, (sameAttributes_iff D e.2 e.1 b _).mpr (hkept e he)⟩

/-- **Which buckets are mirrored again with the same attributes.** -/
theorem attributes_return_iff (D : S3Answers) (cfg : S3SourceConfig) {stage : Path} {d d' : Disk FileData} {B : Bucket}
    {objects : List S3Entry} {untagged : List Str} (hnodup : (B.map (·.1)).Nodup) (hmapped : Mapped B)
    (h : downloadAll stage d B = (d', .ok (objects, untagged))) {body : Str → Option FileData} {puts : List Put}
    (hputs : restoreText (metadataText (cfg.manifest objects)) body = some puts) :
    AttributesReturn D B puts ↔ ∀ e ∈ B, Reapplied D e.2 := by
  obtain rfl := downloadAll_entries h
  exact attributesReturn_iff D hnodup hmapped hputs

/-- a store that answers nothing by itself -/
def bareStore : S3Answers := ⟨fun _ => none, none, fun _ => 1, fun _ => none⟩

/-- an object with a content type and an owner, of the storage class `c` -/
def reportBucket (c : Option Str) : Bucket :=
  [("report".toList, { plainObject [1] with
    headers := [("ContentType".toList, "text/html".toList)]
    metadata := [("owner".toList, "alice".toList)]
    storageClass := c })]

theorem mapped_report (c : Option Str) : Mapped (reportBucket c) := by
  intro e he
  obtain rfl := List.mem_singleton.mp he
  refine ⟨List.nodup_singleton _, fun l hl => ?_⟩
  obtain rfl : [] = l := Tagging.tags.inj hl
  exact List.nodup_nil

/-- the object is captured -/
theorem report_captured (c : Option Str) :
    (downloadAll ["stage".toList] ⟨[(["stage".toList], .dir)]⟩ (reportBucket c)).2 =
      .ok (byKey (entries (reportBucket c)), []) := by
  rfl

/-- and restored -/
theorem report_restored (c : Option Str) : ∃ puts,
    restoreText (metadataText (mediaConfig.manifest (byKey (entries (reportBucket c))))) (fun _ => some (.bytes [1])) =
      some puts := by
  refine ⟨_, restoreText_metadata (fun en hen => ?_) _⟩
  obtain ⟨e, he, rfl⟩ := mem_byKey.mp hen
  exact (mapped_report c).recorded he

theorem attributes_return_report : ∃ puts,
    restoreText (metadataText (mediaConfig.manifest (byKey (entries (reportBucket none)))))
      (fun _ => some (.bytes [1])) = some puts ∧ AttributesReturn bareStore (reportBucket none) puts := by
  obtain ⟨puts, hputs⟩ := report_restored none
  refine ⟨puts, hputs, (attributes_return_iff bareStore mediaConfig (by decide) (mapped_report none)
    (Prod.ext rfl (report_captured none)) hputs).mpr fun e he => ?_⟩
  obtain rfl := List.mem_singleton.mp he
  refine ⟨rfl, fun h hh => ?_⟩
  rcases List.mem_cons.mp hh with rfl | hh
  · exact Or.inl ⟨"text/html".toList, by decide, rfl⟩
  · simp only [List.mem_cons, List.not_mem_nil, or_false] at hh
    rcases hh with rfl | rfl | rfl | rfl <;> exact Or.inr rfl

/-- **Where an attribute is lost**: an object in the class for infrequent access comes back in the store's own. -/
theorem storage_class_lost :
    (downloadAll ["stage".toList] ⟨[(["stage".toList], .dir)]⟩ (reportBucket (some "STANDARD_IA".toList))).2 =
      .ok (byKey (entries (reportBucket (some "STANDARD_IA".toList))), []) ∧ ∃ puts,
    restoreText (metadataText (mediaConfig.manifest (byKey (entries (reportBucket (some "STANDARD_IA".toList))))))
      (fun _ => some (.bytes [1])) = some puts ∧
      ¬ AttributesReturn bareStore (reportBucket (some "STANDARD_IA".toList)) puts := by
  obtain ⟨puts, hputs⟩ := report_restored (some "STANDARD_IA".toList)
  refine ⟨report_captured _, puts, hputs, fun h => ?_⟩
  have hkept := (attributesReturn_iff bareStore (by decide) (mapped_report _) hputs).mp h _ (List.mem_singleton.mpr rfl)
  cases hkept.storageClass

end BackupHelper
