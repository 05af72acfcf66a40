import BackupHelper.Retention.Select

/-!
# The policy, snapshot by snapshot

`Expired cfg now snaps s` is the documented rule, read off the list as it is given: no sorting, no
running maximum, no algebra of sets.

* `newer`      how many listed snapshots have a greater id;
* `Heads`      the greatest of its bucket, whose bucket is among the greatest ones present;
* `Expired`    selected by count or age, and protected by no tier and not as the last one;
* `selectPrunable_exact`   `select_prunable` is that rule, whatever the order of the list.
-/

namespace BackupHelper
open Text Calendar Keep

/-- how many of the snapshots have a greater id -/
def newer (snaps : List Snapshot) (s : Snapshot) : ℕ := snaps.countP (fun t => s.id < t.id)

/-- `s` has the greatest id of its bucket, and fewer than `n` of the buckets present are greater -/
def Heads (bucket : Snapshot → BucketKey) (n : ℕ) (snaps : List Snapshot) (s : Snapshot) : Prop :=
  (∀ t ∈ snaps, bucket t = bucket s → t.id ≤ s.id) ∧
    (snaps.map bucket).dedup.countP (fun b => bucket s < b) < n

/-- the documented policy -/
structure Expired (cfg : RetentionConfig) (now : Datetime) (snaps : List Snapshot) (s : Snapshot) :
    Prop where
  due : (0 < cfg.count ∧ cfg.count ≤ newer snaps s) ∨
    (0 < cfg.ageDays ∧ ∃ cutoff, now.subDays cfg.ageDays = some cutoff ∧ s.when_.Before cutoff)
  daily : ¬ Heads Gfs.daily cfg.gfs.daily snaps s
  weekly : ¬ Heads Gfs.weekly cfg.gfs.weekly snaps s
  monthly : ¬ Heads Gfs.monthly cfg.gfs.monthly snaps s
  last : ¬ (cfg.smartLast = true ∧ ∀ t ∈ snaps, t.id ≤ s.id)

section
variable {snaps : List Snapshot}

/-- the time listed with an id -/
def listedTime (snaps : List Snapshot) (now : Datetime) (sid : Str) : Datetime :=
  match snaps.find? (fun s => s.id = sid) with
  | none => now
  | some s => s.when_

theorem snapAt_listed (h : (snaps.map (·.id)).Nodup) (now : Datetime) {s : Snapshot} (hs : s ∈ snaps) :
    snapAt (listedTime snaps now) s.id = s := by
  unfold snapAt listedTime
  cases hf : snaps.find? (fun t => t.id = s.id) with
  | none =>
    rw [List.find?_eq_none] at hf
    exact absurd (decide_eq_true rfl) (hf s hs)
  | some t =>
    have hid : t.id = s.id := by simpa using List.find?_some hf
    have hts : t = s := List.inj_on_of_nodup_map h (List.mem_of_find?_eq_some hf) hs hid
    rw [hts]

theorem map_snapAt_listed (h : (snaps.map (·.id)).Nodup) (now : Datetime) :
    (snaps.map (·.id)).map (snapAt (listedTime snaps now)) = snaps := by
  rw [List.map_map]
  have hall : ∀ s ∈ snaps, (snapAt (listedTime snaps now) ∘ (·.id)) s = id s := fun s hs =>
    snapAt_listed h now hs
  rw [List.map_congr_left hall, List.map_id]

theorem above_ofList {α : Type} [LinearOrder α] {l : List α} (h : l.Nodup) {x : α} {p : α → Bool}
    (hp : ∀ y, p y = true ↔ x < y) : above (ofList l) x = l.countP p := by
  have hset : {y ∈ ofList l | x < y} = (l.filter p).toFinset := by
    ext y
    simp [ofList, hp]
  unfold above
  rw [hset, List.toFinset_card_of_nodup (h.filter p), List.countP_eq_length_filter]

theorem newer_eq (h : (snaps.map (·.id)).Nodup) (s : Snapshot) :
    above (ofList (snaps.map (·.id))) s.id = newer snaps s := by
  have hp : ∀ x : Str, decide (s.id < x) = true ↔ s.id < x := fun x => decide_eq_true_iff
  rw [above_ofList h hp, List.countP_map]
  rfl

theorem leads_iff (h : (snaps.map (·.id)).Nodup) (now : Datetime) (bucket : Snapshot → BucketKey)
    (n : ℕ) {s : Snapshot} (hs : s ∈ snaps) :
    Leads (bucket ∘ snapAt (listedTime snaps now)) n (ofList (snaps.map (·.id))) s.id ↔
      Heads bucket n snaps s := by
  have hbucket : ∀ t ∈ snaps, (bucket ∘ snapAt (listedTime snaps now)) t.id = bucket t := by
    intro t ht
    show bucket _ = _
    rw [snapAt_listed h now ht]
  have hbuckets : buckets (bucket ∘ snapAt (listedTime snaps now)) (ofList (snaps.map (·.id)))
      = ofList (snaps.map bucket).dedup := by
    ext b
    rw [mem_buckets, mem_ofList, List.mem_dedup, List.mem_map]
    constructor
    · rintro ⟨x, hx, rfl⟩
      obtain ⟨t, ht, rfl⟩ := List.mem_map.mp (mem_ofList.mp hx)
      exact ⟨t, ht, (hbucket t ht).symm⟩
    · rintro ⟨t, ht, rfl⟩
      exact ⟨t.id, mem_ofList.mpr (List.mem_map_of_mem ht), hbucket t ht⟩
  have hrank : above (buckets (bucket ∘ snapAt (listedTime snaps now))
      (ofList (snaps.map (·.id)))) (bucket s) = (snaps.map bucket).dedup.countP (bucket s < ·) := by
    rw [hbuckets]
    exact above_ofList (List.nodup_dedup _) fun b => decide_eq_true_iff
  constructor
  · intro hl
    have hlt := hl.rank
    rw [hbucket s hs, hrank] at hlt
    refine ⟨fun t ht hb => ?_, hlt⟩
    apply hl.top _ (mem_ofList.mpr (List.mem_map_of_mem ht))
    rw [hbucket t ht, hbucket s hs, hb]
  · rintro ⟨htop, hlt⟩
    refine ⟨mem_ofList.mpr (List.mem_map_of_mem hs), fun x hx hb => ?_, ?_⟩
    · obtain ⟨t, ht, rfl⟩ := List.mem_map.mp (mem_ofList.mp hx)
      rw [hbucket t ht, hbucket s hs] at hb
      exact htop t ht hb
    · rw [hbucket s hs, hrank]
      exact hlt

/-- what is not kept has expired -/
theorem kept_iff (h : (snaps.map (·.id)).Nodup) (cfg : RetentionConfig) (now : Datetime) {s : Snapshot}
    (hs : s ∈ snaps) :
    ¬ Kept (policyOf (listedTime snaps now) cfg) (Old (listedTime snaps now) cfg now)
      (ofList (snaps.map (·.id))) s.id ↔ Expired cfg now snaps s := by
  have htime : listedTime snaps now s.id = s.when_ := congrArg Snapshot.when_ (snapAt_listed h now hs)
  have hcount : (0 < cfg.count.toNat ∧ cfg.count.toNat ≤ newer snaps s) ↔
      (0 < cfg.count ∧ cfg.count ≤ newer snaps s) := by omega
  have hmem : s.id ∈ ofList (snaps.map (·.id)) := mem_ofList.mpr (List.mem_map_of_mem hs)
  have hlast : Last (ofList (snaps.map (·.id))) s.id ↔ ∀ t ∈ snaps, t.id ≤ s.id := by
    unfold Last
    rw [and_iff_right hmem]
    constructor
    · exact fun hl t ht => hl _ (mem_ofList.mpr (List.mem_map_of_mem ht))
    · intro hl x hx
      obtain ⟨t, ht, rfl⟩ := List.mem_map.mp (mem_ofList.mp hx)
      exact hl t ht
  have htiers : (∃ t ∈ (policyOf (listedTime snaps now) cfg).tiers,
      Leads t.1 t.2 (ofList (snaps.map (·.id))) s.id) ↔
      Heads Gfs.daily cfg.gfs.daily snaps s ∨ Heads Gfs.weekly cfg.gfs.weekly snaps s ∨
        Heads Gfs.monthly cfg.gfs.monthly snaps s := by
    simp only [policyOf, List.mem_cons, List.not_mem_nil, or_false, exists_eq_or_imp,
      exists_eq_left, leads_iff h now _ _ hs]
  unfold Kept Candidate Protected
  rw [and_iff_right hmem, htiers, hlast, newer_eq h]
  unfold Old
  rw [htime]
  constructor
  · intro hk
    rw [not_or, not_not, not_or, not_or, not_or] at hk
    obtain ⟨hc, ⟨hd, hw, hm⟩, hl⟩ := hk
    exact ⟨hc.imp_left hcount.mp, hd, hw, hm, hl⟩
  · rintro ⟨hc, hd, hw, hm, hl⟩ hk
    rcases hk with hk | hk
    · exact hk (hc.imp_left hcount.mpr)
    · rcases hk with (hk | hk | hk) | hk
      · exact hd hk
      · exact hw hk
      · exact hm hk
      · exact hl hk

theorem mem_selectPrunable_expired (h : (snaps.map (·.id)).Nodup) {cfg : RetentionConfig}
    {now : Datetime} {out : List Str} (hout : selectPrunable snaps cfg now = .ok out) (x : Str) :
    x ∈ out ↔ ∃ s ∈ snaps, s.id = x ∧ Expired cfg now snaps s := by
  rw [← map_snapAt_listed h now] at hout
  rw [mem_selectPrunable _ h hout]
  constructor
  · rintro ⟨hx, hk⟩
    obtain ⟨s, hs, rfl⟩ := List.mem_map.mp hx
    exact ⟨s, hs, rfl, (kept_iff h cfg now hs).mp hk⟩
  · rintro ⟨s, hs, rfl, he⟩
    exact ⟨List.mem_map_of_mem hs, (kept_iff h cfg now hs).mpr he⟩

/-- the rule asks only which snapshots are listed -/
theorem Expired.perm {snaps' : List Snapshot} (hp : snaps.Perm snaps') {cfg : RetentionConfig}
    {now : Datetime} {s : Snapshot} (h : Expired cfg now snaps s) : Expired cfg now snaps' s := by
  have hheads : ∀ bucket n, Heads bucket n snaps' s → Heads bucket n snaps s := by
    rintro bucket n ⟨htop, hlt⟩
    refine ⟨fun t ht => htop t (hp.mem_iff.mp ht), ?_⟩
    rw [(hp.map bucket).dedup.countP_eq]
    exact hlt
  obtain ⟨hdue, hd, hw, hm, hl⟩ := h
  have hnewer : newer snaps s = newer snaps' s := hp.countP_eq _
  refine ⟨by rwa [← hnewer], fun hb => hd (hheads _ _ hb), fun hb => hw (hheads _ _ hb),
    fun hb => hm (hheads _ _ hb), fun hb => hl ⟨hb.1, fun t ht => hb.2 t (hp.mem_iff.mp ht)⟩⟩

end

/-- **`select_prunable` is the documented policy**, and the order of the list does not matter. -/
theorem selectPrunable_exact (cfg : RetentionConfig) (now : Datetime) (snaps : List Snapshot)
    (hdistinct : (snaps.map (·.id)).Nodup)
    (hcutoff : cfg.ageDays = 0 ∨ (now.subDays cfg.ageDays).isSome) :
    ∃ out, selectPrunable snaps cfg now = .ok out ∧
      (∀ x, x ∈ out ↔ ∃ s ∈ snaps, s.id = x ∧ Expired cfg now snaps s) ∧
      ∀ snaps', snaps.Perm snaps' → ∃ out', selectPrunable snaps' cfg now = .ok out' ∧
        ∀ x, x ∈ out' ↔ x ∈ out := by
  obtain ⟨out, hout⟩ := (selectPrunable_ok_iff snaps cfg now).mpr hcutoff
  refine ⟨out, hout, mem_selectPrunable_expired hdistinct hout, fun snaps' hp => ?_⟩
  have hdistinct' : (snaps'.map (·.id)).Nodup := (hp.map _).nodup_iff.mp hdistinct
  obtain ⟨out', hout'⟩ := (selectPrunable_ok_iff snaps' cfg now).mpr hcutoff
  refine ⟨out', hout', fun x => ?_⟩
  rw [mem_selectPrunable_expired hdistinct hout, mem_selectPrunable_expired hdistinct' hout']
  constructor
  · rintro ⟨s, hs, hx, he⟩
    exact ⟨s, hp.mem_iff.mpr hs, hx, he.perm hp.symm⟩
  · rintro ⟨s, hs, hx, he⟩
    exact ⟨s, hp.mem_iff.mp hs, hx, he.perm hp⟩

/-- midnight of a day -/
def midnight (day : ℕ) (h : 1 ≤ day ∧ day ≤ maxOrdinal) : Datetime := ⟨day, 0, h.1, h.2, by decide⟩

/-- two of March and one of April, listed out of order -/
def springSnapshots : List Snapshot :=
  [⟨"2024-03-31_00-00-00".toList, midnight 738976 (by decide)⟩,
    ⟨"2024-04-24_00-00-00".toList, midnight 739000 (by decide)⟩,
    ⟨"2024-03-30_00-00-00".toList, midnight 738975 (by decide)⟩]

theorem selectPrunable_exact_spring :
    ∃ out, selectPrunable springSnapshots { count := 1, ageDays := 10, gfs := { monthly := 2 } }
        (midnight 739000 (by decide)) = .ok out ∧
      ∀ x, x ∈ out ↔ ∃ s ∈ springSnapshots, s.id = x ∧
        Expired { count := 1, ageDays := 10, gfs := { monthly := 2 } }
          (midnight 739000 (by decide)) springSnapshots s := by
  obtain ⟨out, hout, hmem, -⟩ := selectPrunable_exact
    { count := 1, ageDays := 10, gfs := { monthly := 2 } } (midnight 739000 (by decide))
    springSnapshots (by decide +kernel) (Or.inr (by decide +kernel))
  exact ⟨out, hout, hmem⟩

end BackupHelper
