import BackupHelper.Retention.Policies
import BackupHelper.Lib.Keep

/-!
# What the retention policies select

The sorting, the running maximum per bucket and the set algebra of the policies come to the
pointwise rule of `BackupHelper.Lib.Keep`: with `ids` the pairwise distinct ids of the snapshots and
`whenOf` their times, `mem_selectPrunable` says that exactly the ids not `Kept` are pruned.
-/

namespace BackupHelper
open Text Calendar Keep

section
variable (whenOf : Str → Datetime)

/-- the snapshot of an id -/
def snapAt (sid : Str) : Snapshot := ⟨sid, whenOf sid⟩

/-- the policy of a config, over ids -/
def policyOf (cfg : RetentionConfig) : Policy Str BucketKey where
  count := cfg.count.toNat
  tiers := [(Gfs.daily ∘ snapAt whenOf, cfg.gfs.daily), (Gfs.weekly ∘ snapAt whenOf, cfg.gfs.weekly),
    (Gfs.monthly ∘ snapAt whenOf, cfg.gfs.monthly)]
  last := cfg.smartLast

/-- past the age limit at `now` -/
def Old (cfg : RetentionConfig) (now : Datetime) (sid : Str) : Prop :=
  0 < cfg.ageDays ∧ ∃ cutoff, now.subDays cfg.ageDays = some cutoff ∧ (whenOf sid).Before cutoff

theorem Old.mono {cfg : RetentionConfig} {now now' : Datetime} {sid : Str} (hn : now.Upto now')
    (h : Old whenOf cfg now sid) : Old whenOf cfg now' sid := by
  obtain ⟨h0, c, hc0, hb⟩ := h
  obtain ⟨c', hc⟩ := Datetime.subDays_isSome hc0 hn
  exact ⟨h0, c', hc, hb.of_upto (Datetime.subDays_upto hc0 hc hn)⟩

/-! ## ids in decreasing order -/

theorem pairwise_desc {α : Type} [LinearOrder α] {l : List α} (h : l.Nodup) :
    (l.insertionSort (fun a b => b ≤ a)).Pairwise (· > ·) := by
  have hs : (l.insertionSort (fun a b => b ≤ a)).Pairwise (fun a b => b ≤ a) :=
    List.pairwise_insertionSort _ l
  have hn : (l.insertionSort (fun a b => b ≤ a)).Nodup :=
    (List.perm_insertionSort _ l).nodup_iff.mpr h
  exact (hs.and hn).imp fun h => lt_of_le_of_ne h.1 h.2.symm

theorem ofList_desc {α : Type} [LinearOrder α] (l : List α) :
    ofList (l.insertionSort (fun a b => b ≤ a)) = ofList l :=
  ofList_perm (List.perm_insertionSort _ l)

theorem sort_snapAt (ids : List Str) :
    (ids.map (snapAt whenOf)).insertionSort (fun s t => t.id ≤ s.id)
      = (ids.insertionSort (fun a b => b ≤ a)).map (snapAt whenOf) := by
  symm
  exact List.map_insertionSort _ _ (snapAt whenOf) ids fun a _ b _ => Iff.rfl

theorem map_id_snapAt (ids : List Str) : (ids.map (snapAt whenOf)).map (·.id) = ids := by
  rw [List.map_map]
  exact List.map_id' ids

/-! ## the policies one by one -/

theorem mem_count {ids : List Str} (hn : ids.Nodup) (keep : ℤ) (x : Str) :
    x ∈ Count.selectPrunable (ids.map (snapAt whenOf)) keep ↔
      x ∈ ids ∧ 0 < keep.toNat ∧ keep.toNat ≤ above (ofList ids) x := by
  unfold Count.selectPrunable
  split
  · have : keep.toNat = 0 := by omega
    simp [this]
  · have h0 : 0 < keep.toNat := by omega
    rw [sort_snapAt, ← List.map_drop, map_id_snapAt, mem_drop_iff (pairwise_desc hn),
      ofList_desc, List.mem_insertionSort]
    exact ⟨fun h => ⟨h.1, h0, h.2⟩, fun h => ⟨h.1, h.2.2⟩⟩

theorem mem_age {ids out : List Str} {cfg : RetentionConfig} {now : Datetime}
    (h : Age.selectPrunable (ids.map (snapAt whenOf)) cfg.ageDays now = .ok out) (x : Str) :
    x ∈ out ↔ x ∈ ids ∧ Old whenOf cfg now x := by
  unfold Age.selectPrunable at h
  split at h
  · obtain rfl := Except.ok.inj h
    have : ¬ 0 < cfg.ageDays := by omega
    simp [Old, this]
  · rename_i h0
    split at h
    · simp at h
    · rename_i cutoff hc
      obtain rfl := Except.ok.inj h
      have h0' : 0 < cfg.ageDays := by omega
      constructor
      · intro hx
        obtain ⟨s, hs, rfl⟩ := List.mem_map.mp hx
        obtain ⟨hs, hb⟩ := List.mem_filter.mp hs
        obtain ⟨sid, hsid, rfl⟩ := List.mem_map.mp hs
        exact ⟨hsid, h0', cutoff, hc, of_decide_eq_true hb⟩
      · rintro ⟨hx, -, c, hc', hb⟩
        obtain rfl := Option.some.inj (hc.symm.trans hc')
        exact List.mem_map.mpr ⟨snapAt whenOf x, List.mem_filter.mpr
          ⟨List.mem_map_of_mem hx, decide_eq_true hb⟩, rfl⟩

theorem lookup_note_ne {bucket : Snapshot → BucketKey}
    (N : AList (fun _ : BucketKey => Snapshot)) {x : Snapshot} {key : BucketKey}
    (hk : key ≠ bucket x) : (Gfs.note bucket N x).lookup key = N.lookup key := by
  unfold Gfs.note
  split
  · exact AList.lookup_insert_ne hk
  · split
    · exact AList.lookup_insert_ne hk
    · rfl

/-- the bucket of `x` then holds `x`, or an older entry with an id at least as great -/
theorem lookup_note_self (bucket : Snapshot → BucketKey)
    (N : AList (fun _ : BucketKey => Snapshot)) (x : Snapshot) :
    ((Gfs.note bucket N x).lookup (bucket x) = some x ∧
        ∀ m, N.lookup (bucket x) = some m → m.id < x.id) ∨
      ∃ m, (Gfs.note bucket N x).lookup (bucket x) = some m ∧ N.lookup (bucket x) = some m ∧
        x.id ≤ m.id := by
  cases hl : N.lookup (bucket x) with
  | none =>
    have hn : Gfs.note bucket N x = N.insert (bucket x) x := by simp only [Gfs.note, hl]
    exact Or.inl ⟨by rw [hn, AList.lookup_insert], fun m hm => by simp at hm⟩
  | some m =>
    have hn : Gfs.note bucket N x = if m.id < x.id then N.insert (bucket x) x else N := by
      simp only [Gfs.note, hl]
    by_cases hlt : m.id < x.id
    · rw [hn, if_pos hlt, AList.lookup_insert]
      exact Or.inl ⟨rfl, fun m' hm' => by rwa [← Option.some.inj hm']⟩
    · rw [hn, if_neg hlt]
      exact Or.inr ⟨m, hl, rfl, not_lt.mp hlt⟩

/-- what `newest_in_bucket` holds for `key` after the snapshots `snaps` -/
def NewestOf (bucket : Snapshot → BucketKey) (snaps : List Snapshot) (key : BucketKey) :
    Option Snapshot → Prop
  | none => ∀ s ∈ snaps, bucket s ≠ key
  | some m => m ∈ snaps ∧ bucket m = key ∧ ∀ s ∈ snaps, bucket s = key → s.id ≤ m.id

/-- **The running maximum of a bucket is the greatest id seen in it.** -/
theorem lookup_newest (bucket : Snapshot → BucketKey) (snaps : List Snapshot) (key : BucketKey) :
    NewestOf bucket snaps key ((Gfs.newestInBucket bucket snaps).lookup key) := by
  induction snaps using List.reverseRecOn generalizing key with
  | nil => intro s hs; simp at hs
  | append_singleton l x ih =>
    have hstep : Gfs.newestInBucket bucket (l ++ [x])
        = Gfs.note bucket (Gfs.newestInBucket bucket l) x := by
      simp [Gfs.newestInBucket]
    rw [hstep]
    by_cases hk : key = bucket x
    · subst hk
      rcases lookup_note_self bucket (Gfs.newestInBucket bucket l) x with ⟨h, hlt⟩ | ⟨m, h, hm, hle⟩
      · rw [h]
        refine ⟨by simp, rfl, fun s hs hb => ?_⟩
        rcases List.mem_append.mp hs with hs | hs
        · have hi := ih (bucket x)
          cases hl : (Gfs.newestInBucket bucket l).lookup (bucket x) with
          | none => rw [hl] at hi; exact absurd hb (hi s hs)
          | some m => rw [hl] at hi; exact (hi.2.2 s hs hb).trans (hlt m hl).le
        · rw [List.mem_singleton.mp hs]
      · have hi := ih (bucket x)
        rw [hm] at hi
        rw [h]
        refine ⟨List.mem_append_left _ hi.1, hi.2.1, fun s hs hb => ?_⟩
        rcases List.mem_append.mp hs with hs | hs
        · exact hi.2.2 s hs hb
        · rw [List.mem_singleton.mp hs]
          exact hle
    · have hne : ∀ s ∈ l ++ [x], bucket s = key → s ∈ l := by
        intro s hs hb
        rcases List.mem_append.mp hs with hs | hs
        · exact hs
        · exact absurd (by rw [← hb, List.mem_singleton.mp hs]) hk
      have hi := ih key
      rw [lookup_note_ne _ hk]
      cases hl : (Gfs.newestInBucket bucket l).lookup key with
      | none => rw [hl] at hi; exact fun s hs hb => hi s (hne s hs hb) hb
      | some m =>
        rw [hl] at hi
        exact ⟨List.mem_append_left _ hi.1, hi.2.1, fun s hs hb => hi.2.2 s (hne s hs hb) hb⟩

theorem keys_newest (bucket : Snapshot → BucketKey) (ids : List Str) :
    ofList (Gfs.newestInBucket bucket (ids.map (snapAt whenOf))).keys
      = buckets (bucket ∘ snapAt whenOf) (ofList ids) := by
  ext key
  have h := lookup_newest bucket (ids.map (snapAt whenOf)) key
  rw [mem_ofList, ← AList.mem_keys, ← AList.lookup_isSome, mem_buckets]
  cases hl : (Gfs.newestInBucket bucket (ids.map (snapAt whenOf))).lookup key with
  | none =>
    rw [hl] at h
    simp only [Option.isSome_none, Bool.false_eq_true, mem_ofList, false_iff]
    rintro ⟨x, hx, hb⟩
    exact h _ (List.mem_map_of_mem hx) hb
  | some m =>
    rw [hl] at h
    obtain ⟨hm, hb, -⟩ := h
    obtain ⟨x, hx, rfl⟩ := List.mem_map.mp hm
    simp only [Option.isSome_some, true_iff]
    exact ⟨x, mem_ofList.mpr hx, hb⟩

theorem mem_tier (bucket : Snapshot → BucketKey) (ids : List Str) (count : ℕ) (x : Str) :
    x ∈ Gfs.keepForTier (ids.map (snapAt whenOf)) count bucket ↔
      Leads (bucket ∘ snapAt whenOf) count (ofList ids) x := by
  unfold Gfs.keepForTier
  split
  · rename_i h0
    have : count = 0 := by omega
    subst this
    simp only [List.not_mem_nil, false_iff]
    exact fun h => Nat.not_lt_zero _ h.rank
  · set N := Gfs.newestInBucket bucket (ids.map (snapAt whenOf)) with hN
    have hdesc := pairwise_desc N.keys_nodup
    have htake : ∀ key, key ∈ (N.keys.insertionSort (fun a b => b ≤ a)).take count ↔
        key ∈ N.keys ∧ above (buckets (bucket ∘ snapAt whenOf) (ofList ids)) key < count := by
      intro key
      rw [mem_take_iff hdesc, ofList_desc, List.mem_insertionSort, ← keys_newest, ← hN]
    have hlook := lookup_newest bucket (ids.map (snapAt whenOf))
    rw [← hN] at hlook
    simp only [List.mem_filterMap, Option.map_eq_some_iff]
    constructor
    · rintro ⟨key, hkey, m, hm, rfl⟩
      have hk := hlook key
      rw [hm] at hk
      obtain ⟨hmem, hb, hmax⟩ := hk
      obtain ⟨sid, hsid, rfl⟩ := List.mem_map.mp hmem
      refine ⟨mem_ofList.mpr hsid, fun y hy hyb => ?_, ?_⟩
      · exact hmax _ (List.mem_map_of_mem (mem_ofList.mp hy)) (hyb.trans hb)
      · show above _ (bucket (snapAt whenOf sid)) < count
        rw [hb]
        exact ((htake key).mp hkey).2
    · intro hl
      have hx := mem_ofList.mp hl.mem
      have hk := hlook (bucket (snapAt whenOf x))
      cases hm : N.lookup (bucket (snapAt whenOf x)) with
      | none =>
        rw [hm] at hk
        exact absurd rfl (hk _ (List.mem_map_of_mem hx))
      | some m =>
        rw [hm] at hk
        obtain ⟨hmem, hb, hmax⟩ := hk
        obtain ⟨sid, hsid, rfl⟩ := List.mem_map.mp hmem
        refine ⟨bucket (snapAt whenOf x), (htake _).mpr ⟨?_, hl.rank⟩, _, hm, ?_⟩
        · rw [← AList.mem_keys, ← AList.lookup_isSome, hm]
          rfl
        · have h1 : x ≤ sid := hmax _ (List.mem_map_of_mem hx) rfl
          have h2 : sid ≤ x := hl.top sid (mem_ofList.mpr hsid) hb
          exact le_antisymm h2 h1

theorem mem_smart (ids : List Str) (x : Str) :
    x ∈ Smart.protectedLast (ids.map (snapAt whenOf)) ↔ Last (ofList ids) x := by
  unfold Smart.protectedLast
  rw [map_id_snapAt]
  cases hm : ids.max? with
  | none =>
    rw [List.max?_eq_none_iff] at hm
    subst hm
    simp [Last]
  | some m =>
    rw [List.max?_eq_some_iff] at hm
    obtain ⟨hmem, hmax⟩ := hm
    simp only [List.mem_singleton, Last, mem_ofList]
    constructor
    · rintro rfl
      exact ⟨hmem, hmax⟩
    · rintro ⟨hx, hle⟩
      exact le_antisymm (hmax x hx) (hle m hmem)

/-! ## the prune decision -/

/-- **`select_prunable` prunes exactly the ids that the policy does not keep.** -/
theorem mem_selectPrunable {ids out : List Str} (hn : ids.Nodup) {cfg : RetentionConfig}
    {now : Datetime} (h : selectPrunable (ids.map (snapAt whenOf)) cfg now = .ok out) (x : Str) :
    x ∈ out ↔ x ∈ ids ∧ ¬ Kept (policyOf whenOf cfg) (Old whenOf cfg now) (ofList ids) x := by
  unfold selectPrunable at h
  cases ha : Age.selectPrunable (ids.map (snapAt whenOf)) cfg.ageDays now with
  | error e => simp [ha] at h
  | ok age =>
    simp only [ha] at h
    obtain rfl := Except.ok.inj h
    have hsmart : x ∈ (if cfg.smartLast then Smart.protectedLast (ids.map (snapAt whenOf)) else []) ↔
        cfg.smartLast = true ∧ Last (ofList ids) x := by
      cases cfg.smartLast <;> simp [mem_smart]
    have hgfs : x ∈ Gfs.selectKeep (ids.map (snapAt whenOf)) cfg.gfs ↔
        ∃ t ∈ (policyOf whenOf cfg).tiers, Leads t.1 t.2 (ofList ids) x := by
      simp [Gfs.selectKeep, mem_tier, policyOf]
    rw [List.mem_filter, List.mem_dedup, List.mem_append, mem_count whenOf hn, mem_age whenOf ha]
    rw [decide_eq_true_eq, hsmart, hgfs]
    unfold Kept Candidate Protected
    rw [mem_ofList]
    generalize (∃ t ∈ (policyOf whenOf cfg).tiers, Leads t.1 t.2 (ofList ids) x) = G
    simp only [policyOf]
    tauto

theorem selectPrunable_subset {snaps : List Snapshot} {out : List Str} {cfg : RetentionConfig}
    {now : Datetime} (h : selectPrunable snaps cfg now = .ok out) {x : Str} (hx : x ∈ out) :
    x ∈ snaps.map (·.id) := by
  unfold selectPrunable at h
  cases ha : Age.selectPrunable snaps cfg.ageDays now with
  | error e => simp [ha] at h
  | ok age =>
    simp only [ha] at h
    obtain rfl := Except.ok.inj h
    have hmem := List.mem_dedup.mp (List.mem_filter.mp hx).1
    rcases List.mem_append.mp hmem with hc | hc
    · unfold Count.selectPrunable at hc
      split at hc
      · simp at hc
      · obtain ⟨s, hs, rfl⟩ := List.mem_map.mp hc
        exact List.mem_map_of_mem ((List.mem_insertionSort _).mp (List.mem_of_mem_drop hs))
    · unfold Age.selectPrunable at ha
      split at ha
      · obtain rfl := Except.ok.inj ha
        simp at hc
      · split at ha
        · simp at ha
        · obtain rfl := Except.ok.inj ha
          obtain ⟨s, hs, rfl⟩ := List.mem_map.mp hc
          exact List.mem_map_of_mem (List.mem_filter.mp hs).1

/-- the selection succeeds exactly if the age cut-off lies in the calendar -/
theorem selectPrunable_ok_iff (snaps : List Snapshot) (cfg : RetentionConfig) (now : Datetime) :
    (∃ out, selectPrunable snaps cfg now = .ok out) ↔
      cfg.ageDays = 0 ∨ (now.subDays cfg.ageDays).isSome := by
  unfold selectPrunable Age.selectPrunable
  by_cases h0 : cfg.ageDays ≤ 0
  · simp [Nat.le_zero.mp h0]
  · have h1 : cfg.ageDays ≠ 0 := by omega
    cases hs : now.subDays cfg.ageDays <;> simp [h0, h1]

end
end BackupHelper
