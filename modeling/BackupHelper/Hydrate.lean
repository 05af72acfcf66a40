import BackupHelper.Runner.Names

/-!
# Bringing a lost snapshot back

`hydrate` asks the S3 destinations in turn for a snapshot that the data dir no longer holds: one that
cannot be built or listed is passed over, and so is one that does not list archive and manifest; from
the first that does, everything is fetched.

* `Calls`            how the calls to one destination end;
* `Serves`           a destination that holds the snapshot, none of whose calls raises;
* `Recovered`        archive and manifest are in the data dir as one destination holds them;
* `hydrate_exact`    **a snapshot that a destination serves is recovered** exactly if the first
                     destination that lists it serves it too, and the data dir does not seem to hold it.
-/

namespace BackupHelper
open Text Glob

/-- how the calls to one destination end -/
structure Calls where
  build : Fault
  list : Fault
  get : Str → Fault

def Fault.isCalm : Fault → Bool
  | .calm => true
  | .raise _ _ => false

def clientError : Exc := ⟨"ClientError".toList, "Not Found".toList⟩

/-- `get` one key into the file of its name -/
def getKey (env : Env) (c : S3Spec) (get : Str → Fault) (key : Str) (w : World) :
    Except Exc Unit × World :=
  match w.get (Dest.loc env (.s3 c)) (c.prefix_ ++ key) with
  | none => (.error clientError, w)
  | some content => ((get key).answer, w.put .data key content (get key))

def getAll (env : Env) (c : S3Spec) (get : Str → Fault) : List Str → World → Except Exc Unit × World
  | [], w => (.ok (), w)
  | key :: keys, w =>
    match getKey env c get key w with
    | (.error e, w') => (.error e, w')
    | (.ok (), w') => getAll env c get keys w'

def archivesOf (sid : Str) (keys : List Str) : List Str :=
  keys.filter (fun k => (sid ++ tarSuffix).isPrefixOf k)

/-- the keys that a destination lists for a snapshot, the archives first -/
def keysOf (env : Env) (w : World) (c : S3Spec) (sid : Str) : List Str :=
  archivesOf sid (w.listing env (.s3 c) sid) ++ [sid ++ manifestSuffix]

/-- the destination lists an archive and the manifest -/
def ListsBoth (env : Env) (w : World) (c : S3Spec) (sid : Str) : Prop :=
  archivesOf sid (w.listing env (.s3 c) sid) ≠ [] ∧ sid ++ manifestSuffix ∈ w.listing env (.s3 c) sid

instance (env : Env) (w : World) (c : S3Spec) (sid : Str) : Decidable (ListsBoth env w c sid) :=
  inferInstanceAs (Decidable (_ ∧ _))

/-- the destinations in turn, from the first that lists the snapshot -/
def hydrateFrom (env : Env) (sid : Str) : List (DestinationSpec × Calls) → World →
    Except Exc Unit × World
  | [], w => (.ok (), w)
  | (spec, calls) :: rest, w =>
    match spec.offsite? with
    | none => hydrateFrom env sid rest w
    | some c =>
      -- a bad destination must not abort disaster recovery
      if !calls.build.isCalm then hydrateFrom env sid rest w
      else if !calls.list.isCalm then hydrateFrom env sid rest w
      else if ListsBoth env w c sid then getAll env c calls.get (keysOf env w c sid) w
      else hydrateFrom env sid rest w

/-- the files and directories right in the data dir -/
def World.entries (w : World) : List Str := (w.files .data).keys.map (fun k => k.takeWhile (· ≠ '/'))

/-- whether the data dir seems to hold the snapshot: an id, which holds no slash, is taken for a
pattern when its archive is looked for -/
def SeemsThere (w : World) (sid : Str) : Prop :=
  w.entries.any (fnmatch (sid ++ tarSuffix ++ ['*'])) = true ∧
    (w.get .data (sid ++ manifestSuffix)).isSome = true

instance (w : World) (sid : Str) : Decidable (SeemsThere w sid) := inferInstanceAs (Decidable (_ ∧ _))

/-- the destinations of a job, each with how its calls end -/
def tried (job : Job) (calls : ℕ → Calls) : List (DestinationSpec × Calls) :=
  job.destinations.zipIdx.map (fun d => (d.1, calls d.2))

/-- `_hydrate_from_destinations` -/
def hydrate (env : Env) (job : Job) (calls : ℕ → Calls) (sid : Str) (w : World) :
    Except Exc Unit × World :=
  if SeemsThere w sid then (.ok (), w) else hydrateFrom env sid (tried job calls) w

/-! ## what is asked of it -/

/-- the data dir holds an archive of the snapshot and its manifest -/
def InDataDir (w : World) (sid : Str) : Prop :=
  (∃ k, sid ++ tarSuffix <+: k ∧ (w.get .data k).isSome = true) ∧
    (w.get .data (sid ++ manifestSuffix)).isSome = true

/-- the destination can be built and listed, and lists the snapshot -/
structure Lists (env : Env) (w : World) (sid : Str) (d : DestinationSpec × Calls) (c : S3Spec) : Prop where
  offsite : d.1.offsite? = some c
  build : d.2.build.isCalm = true
  list : d.2.list.isCalm = true
  holds : ListsBoth env w c sid

structure Serves (env : Env) (w : World) (sid : Str) (d : DestinationSpec × Calls) (c : S3Spec) : Prop
    extends Lists env w sid d c where
  get : ∀ key ∈ keysOf env w c sid, (d.2.get key).isCalm = true

/-- all that the destination lists of the snapshot is in the data dir at `w'`, as it was there at `w` -/
def Fetched (env : Env) (w w' : World) (c : S3Spec) (sid : Str) : Prop :=
  ∀ key ∈ keysOf env w c sid, (w'.get .data key).isSome = true ∧
    w'.get .data key = w.get (Dest.loc env (.s3 c)) (c.prefix_ ++ key)

/-- the call returned, and archive and manifest are in the data dir as one of `ds` holds them -/
def Recovered (env : Env) (w : World) (sid : Str) (ds : List (DestinationSpec × Calls))
    (r : Except Exc Unit × World) : Prop :=
  r.1 = .ok () ∧ ∃ d ∈ ds, ∃ c, d.1.offsite? = some c ∧ ListsBoth env w c sid ∧ Fetched env w r.2 c sid

/-- of the destinations that list the snapshot the first serves it -/
def FirstServes (env : Env) (w : World) (sid : Str) (ds : List (DestinationSpec × Calls)) : Prop :=
  ∀ before d after c, ds = before ++ d :: after → (∀ d' ∈ before, ∀ c', ¬ Lists env w sid d' c') →
    Lists env w sid d c → Serves env w sid d c

section
variable {env : Env} {w : World} {sid : Str} {c : S3Spec}

theorem fault_isCalm {f : Fault} (h : f.isCalm = true) : f = .calm := by
  cases f with
  | calm => rfl
  | raise e r => cases h

theorem fault_not_calm {f : Fault} (h : ¬ f.isCalm = true) : ∃ e, f.answer = .error e := by
  cases f with
  | calm => exact absurd rfl h
  | raise e r => exact ⟨e, rfl⟩

/-- the files of the bucket stay as they are -/
theorem put_bucket (w : World) (key : Str) (content : Content) (f : Fault) (site : Site) (k : Str) :
    (w.put .data key content f).get (.bucket site) k = w.get (.bucket site) k :=
  get_put_ne w content f (by simp)

theorem isSome_of_keysOf (h : ListsBoth env w c sid) {key : Str} (hkey : key ∈ keysOf env w c sid) :
    (w.get (Dest.loc env (.s3 c)) (c.prefix_ ++ key)).isSome = true := by
  have hlisted : key ∈ w.listing env (.s3 c) sid := by
    rcases List.mem_append.mp hkey with hkey | hkey
    · exact (List.mem_filter.mp hkey).1
    · rw [List.mem_singleton.mp hkey]
      exact h.2
  exact (World.mem_listing.mp hlisted).2

/-- calls that all return fetch every key -/
theorem getAll_calm {get : Str → Fault} (keys : List Str)
    (hsome : ∀ key ∈ keys, (w.get (Dest.loc env (.s3 c)) (c.prefix_ ++ key)).isSome = true)
    (hcalm : ∀ key ∈ keys, (get key).isCalm = true) :
    (getAll env c get keys w).1 = .ok () ∧
      (∀ k, k ∉ keys → (getAll env c get keys w).2.get .data k = w.get .data k) ∧
      ∀ key ∈ keys, (getAll env c get keys w).2.get .data key =
        w.get (Dest.loc env (.s3 c)) (c.prefix_ ++ key) := by
  induction keys generalizing w with
  | nil => exact ⟨rfl, fun _ _ => rfl, fun _ h => by cases h⟩
  | cons key keys ih =>
    obtain ⟨content, hcontent⟩ := Option.isSome_iff_exists.mp (hsome key List.mem_cons_self)
    have hget := fault_isCalm (hcalm key List.mem_cons_self)
    have hone : getKey env c get key w = (.ok (), w.put .data key content .calm) := by
      unfold getKey
      rw [hcontent, hget]
      rfl
    have hbucket : ∀ k, (w.put .data key content .calm).get (Dest.loc env (.s3 c)) k =
        w.get (Dest.loc env (.s3 c)) k := fun k => put_bucket w key content .calm _ k
    obtain ⟨hok, hother, hall⟩ := ih (w := w.put .data key content .calm)
      (fun k hk => by rw [hbucket]; exact hsome k (List.mem_cons_of_mem _ hk))
      fun k hk => hcalm k (List.mem_cons_of_mem _ hk)
    unfold getAll
    rw [hone]
    refine ⟨hok, fun k hk => ?_, fun k hk => ?_⟩
    · rw [List.mem_cons, not_or] at hk
      rw [hother k hk.2]
      exact get_put_ne w content .calm (by simp [hk.1])
    · by_cases hmem : k ∈ keys
      · rw [hall k hmem, hbucket]
      · obtain rfl := (List.mem_cons.mp hk).resolve_right hmem
        rw [hother k hmem, hcontent]
        exact w.get_write .data k content

/-- a call that raises ends it -/
theorem getAll_raises {get : Str → Fault} {keys : List Str} {key : Str} (hkey : key ∈ keys)
    (hraise : ¬ (get key).isCalm = true) : (getAll env c get keys w).1 ≠ .ok () := by
  induction keys generalizing w with
  | nil => cases hkey
  | cons first keys ih =>
    unfold getAll
    cases hone : getKey env c get first w with
    | mk r w' =>
      cases r with
      | error e => exact fun h => by cases h
      | ok u =>
        rcases List.mem_cons.mp hkey with rfl | hkey
        · -- the call that raises cannot have returned
          unfold getKey at hone
          obtain ⟨e, he⟩ := fault_not_calm hraise
          cases hc : w.get (Dest.loc env (.s3 c)) (c.prefix_ ++ key) with
          | none =>
            rw [hc] at hone
            cases hone
          | some content =>
            rw [hc, he] at hone
            cases hone
        · exact ih hkey

/-! ## the destinations in turn -/

/-- the first destination that lists the snapshot decides -/
theorem hydrateFrom_first {before after : List (DestinationSpec × Calls)} {d : DestinationSpec × Calls}
    (hbefore : ∀ d' ∈ before, ∀ c', ¬ Lists env w sid d' c') (hd : Lists env w sid d c) :
    hydrateFrom env sid (before ++ d :: after) w = getAll env c d.2.get (keysOf env w c sid) w := by
  induction before with
  | nil =>
    obtain ⟨spec, calls⟩ := d
    show hydrateFrom env sid ((spec, calls) :: after) w = _
    unfold hydrateFrom
    rw [hd.offsite]
    simp only [hd.build, hd.list, Bool.not_true, Bool.false_eq_true, if_false, if_pos hd.holds]
  | cons first before ih =>
    obtain ⟨spec, calls⟩ := first
    have hskip := hbefore (spec, calls) List.mem_cons_self
    have hrest := ih fun d' hd' => hbefore d' (List.mem_cons_of_mem _ hd')
    rw [List.cons_append]
    unfold hydrateFrom
    cases hspec : spec.offsite? with
    | none => exact hrest
    | some c' =>
      simp only
      split
      · exact hrest
      · rename_i hbuild
        split
        · exact hrest
        · rename_i hlist
          rw [if_neg fun hholds => hskip c' ⟨hspec, by simpa using hbuild, by simpa using hlist, hholds⟩]
          exact hrest

/-- if any destination lists the snapshot, there is a first one -/
theorem exists_first {ds : List (DestinationSpec × Calls)} {d : DestinationSpec × Calls} (hmem : d ∈ ds)
    (hd : Lists env w sid d c) : ∃ before d₁ after c₁, ds = before ++ d₁ :: after ∧
      (∀ d' ∈ before, ∀ c', ¬ Lists env w sid d' c') ∧ Lists env w sid d₁ c₁ := by
  induction ds with
  | nil => cases hmem
  | cons first ds ih =>
    by_cases hfirst : ∃ c', Lists env w sid first c'
    · obtain ⟨c', hc'⟩ := hfirst
      exact ⟨[], first, ds, c', rfl, by simp, hc'⟩
    · have hmem' : d ∈ ds := by
        refine (List.mem_cons.mp hmem).resolve_left ?_
        rintro rfl
        exact hfirst ⟨c, hd⟩
      obtain ⟨before, d₁, after, c₁, rfl, hbefore, hd₁⟩ := ih hmem'
      refine ⟨first :: before, d₁, after, c₁, rfl, fun d' hd' c' hl => ?_, hd₁⟩
      rcases List.mem_cons.mp hd' with rfl | hd'
      · exact hfirst ⟨c', hl⟩
      · exact hbefore d' hd' c' hl

/-- a destination that serves the snapshot gives all of it -/
theorem Serves.fetched {d : DestinationSpec × Calls} (h : Serves env w sid d c) :
    (getAll env c d.2.get (keysOf env w c sid) w).1 = .ok () ∧
      Fetched env w (getAll env c d.2.get (keysOf env w c sid) w).2 c sid := by
  obtain ⟨hok, -, hall⟩ := getAll_calm (keysOf env w c sid)
    (fun _ hkey => isSome_of_keysOf h.holds hkey) h.get
  refine ⟨hok, fun key hkey => ⟨?_, hall key hkey⟩⟩
  rw [hall key hkey]
  exact isSome_of_keysOf h.holds hkey

/-- what a fetched snapshot makes of the data dir -/
theorem Fetched.complete {w' : World} (hf : Fetched env w w' c sid) (hh : ListsBoth env w c sid) :
    InDataDir w' sid := by
  obtain ⟨key, hkey⟩ := List.exists_mem_of_ne_nil _ hh.1
  have hbegin := List.isPrefixOf_iff_prefix.mp (List.mem_filter.mp hkey).2
  exact ⟨⟨key, hbegin, (hf key (List.mem_append_left _ hkey)).1⟩,
    (hf _ (List.mem_append_right _ (List.mem_singleton.mpr rfl))).1⟩

end

/-- **A snapshot that a destination serves is recovered**, from it or one before it, exactly if the
first destination that lists it serves it, and the data dir does not seem to hold it. -/
theorem hydrate_exact (env : Env) (job : Job) (calls : ℕ → Calls) (sid : Str) (w : World)
    (before after : List (DestinationSpec × Calls)) (d : DestinationSpec × Calls) (c : S3Spec)
    (hlost : ¬ InDataDir w sid) (hjob : tried job calls = before ++ d :: after)
    (hserves : Serves env w sid d c) :
    Recovered env w sid (before ++ [d]) (hydrate env job calls sid w) ↔
      ¬ SeemsThere w sid ∧ FirstServes env w sid (tried job calls) := by
  unfold hydrate
  constructor
  · rintro ⟨hok, d', hd', c', hspec, hholds, hfetched⟩
    have hseems : ¬ SeemsThere w sid := by
      intro hs
      rw [if_pos hs] at hfetched
      exact hlost (hfetched.complete hholds)
    refine ⟨hseems, fun before₁ d₁ after₁ c₁ hsplit hnone hlists => ⟨hlists, fun key hkey => ?_⟩⟩
    by_contra hraise
    rw [if_neg hseems, hsplit, hydrateFrom_first hnone hlists] at hok
    exact getAll_raises hkey hraise hok
  · rintro ⟨hseems, hfirst⟩
    obtain ⟨before₁, d₁, after₁, c₁, hsplit, hnone, hlists⟩ :=
      exists_first (List.mem_append_right before List.mem_cons_self) hserves.toLists
    have htried : tried job calls = before₁ ++ d₁ :: (after₁ ++ after) := by
      rw [hjob]
      calc before ++ d :: after = (before ++ [d]) ++ after := by simp
        _ = (before₁ ++ d₁ :: after₁) ++ after := by rw [hsplit]
        _ = before₁ ++ d₁ :: (after₁ ++ after) := by simp
    have hserves₁ := hfirst before₁ d₁ (after₁ ++ after) c₁ htried hnone hlists
    obtain ⟨hok, hfetched⟩ := hserves₁.fetched
    rw [if_neg hseems, htried, hydrateFrom_first hnone hlists]
    refine ⟨hok, d₁, ?_, c₁, hlists.offsite, hlists.holds, hfetched⟩
    rw [hsplit]
    exact List.mem_append_right _ List.mem_cons_self

/-! ## an example -/

/-- the same snapshot in two buckets, and an empty data dir -/
def twoBuckets : World where
  files l := match l with
    | .data => ∅
    | .bucket _ => [(⟨"2024-04-24_12-00-00.tar.gz".toList, .raw [1]⟩ : Sigma fun _ : Str => Content),
        ⟨"2024-04-24_12-00-00.manifest.json".toList, .raw [2]⟩].toAList
  alerts := []
  runs := ∅
  log := []

def lostId : Str := "2024-04-24_12-00-00".toList

def twoBucketJob : Job :=
  { destinations := [.s3 ⟨[], "near".toList, []⟩, .s3 ⟨[], "far".toList, []⟩] }

def calmCalls : Calls := ⟨.calm, .calm, fun _ => .calm⟩

/-- the first bucket can be listed, and its objects cannot be read -/
def brokenFirst : ℕ → Calls
  | 0 => ⟨.calm, .calm, fun _ => .raise ⟨"ClientError".toList, "Access Denied".toList⟩ .untouched⟩
  | _ => calmCalls

/-- the first bucket cannot be listed -/
def unlistedFirst : ℕ → Calls
  | 0 => ⟨.calm, .raise ⟨"EndpointConnectionError".toList, "timed out".toList⟩ .untouched, fun _ => .calm⟩
  | _ => calmCalls

theorem twoBuckets_lost : ¬ InDataDir twoBuckets lostId := by
  rintro ⟨⟨k, -, hk⟩, -⟩
  exact absurd hk (by simp [twoBuckets, World.get])

theorem far_serves (calls : ℕ → Calls) (h : calls 1 = calmCalls) :
    Serves plainEnv twoBuckets lostId (.s3 ⟨[], "far".toList, []⟩, calls 1) ⟨[], "far".toList, []⟩ := by
  rw [h]
  exact ⟨⟨by decide, rfl, rfl, by decide +kernel⟩, fun _ _ => rfl⟩

theorem hydrate_exact_unlisted :
    Recovered plainEnv twoBuckets lostId (tried twoBucketJob unlistedFirst)
      (hydrate plainEnv twoBucketJob unlistedFirst lostId twoBuckets) := by
  refine (hydrate_exact plainEnv twoBucketJob unlistedFirst lostId twoBuckets
    [(.s3 ⟨[], "near".toList, []⟩, unlistedFirst 0)] [] _ _ twoBuckets_lost rfl
    (far_serves unlistedFirst rfl)).mpr ⟨by decide +kernel, ?_⟩
  intro before d after c hsplit _ hlists
  have hmem : d ∈ tried twoBucketJob unlistedFirst := by
    rw [hsplit]
    exact List.mem_append_right _ List.mem_cons_self
  rcases List.mem_cons.mp hmem with rfl | hmem
  · cases hlists.list
  · rw [List.mem_singleton.mp hmem] at hlists ⊢
    obtain rfl : (⟨[], "far".toList, []⟩ : S3Spec) = c := Option.some.inj hlists.offsite
    exact far_serves unlistedFirst rfl

/-- **Where a broken bucket ends the recovery**: the second one, which serves the snapshot, is not
asked. -/
theorem broken_bucket_aborts :
    ¬ InDataDir twoBuckets lostId ∧
    Serves plainEnv twoBuckets lostId (.s3 ⟨[], "far".toList, []⟩, brokenFirst 1) ⟨[], "far".toList, []⟩ ∧
    (hydrate plainEnv twoBucketJob brokenFirst lostId twoBuckets).1 =
      .error ⟨"ClientError".toList, "Access Denied".toList⟩ :=
  ⟨twoBuckets_lost, far_serves brokenFirst rfl, by decide +kernel⟩

end BackupHelper
