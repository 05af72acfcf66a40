import BackupHelper.Destinations.S3Stored
import BackupHelper.Lib.KeyStore
import Mathlib.Data.List.AList

/-!
# The S3 destination

A service holds objects in buckets; of one bucket, the keys with a certain prefix are the destination's.
A call may fail before the service sees it, or when its answer is lost (`Loss`).  A listing comes in
pages.

* `Service`, `lossy`, `reply`        the service, and what becomes of a call;
* `listKeys`, `get`, `delete`, `exists_`   as the engine does, beside the `put` of the uploads;
* `wp_put`                           an upload whose answers may be lost;
* `sound`                            **a prefix of a bucket is a store of bytes under keys**.
-/

namespace BackupHelper
open Text Effects

namespace S3Destination
open S3Upload KeyStore

/-- how a call fails -/
inductive Loss where
  /-- the service does not see it -/
  | refused (e : Err)
  /-- its answer is lost -/
  | lost (e : Err)

def Loss.err : Loss → Err
  | .refused e => e
  | .lost e => e

structure Service where
  objects : AList (fun _ : Place => Bytes)
  uploads : ℕ → Option Upload
  next : ℕ

/-- how listings are cut into pages -/
structure Pager where
  pages : List Str → List (List Str)
  complete : ∀ l, (pages l).flatten.Perm l

section
variable {E : Type} [DecidableEq E] (etag : ℕ → ℕ → Bytes → E) (pg : Pager)

def Service.store (s : Service) : Store E := ⟨fun p => s.objects.lookup p, s.uploads, s.next, []⟩

/-- after calls about the object `p` only -/
def Service.after (s : Service) (p : Place) (t : Store E) : Service where
  objects := match t.objects p with
    | some b => s.objects.insert p b
    | none => s.objects.erase p
  uploads := t.uploads
  next := t.next

/-- a call of an upload -/
def lossy (c : Call E) : Option Loss → Store E → S3Upload.Res c × Store E
  | none, s => serve etag c s
  | some (.refused e), s => (.error e, s)
  | some (.lost e), s => (.error e, (serve etag c s).2)

/-- the other calls -/
inductive Ask where
  | paginate (bucket search : Str)
  | deleteObject (p : Place)
  | downloadFile (p : Place)

def Reply : Ask → Type
  | .paginate _ _ => Except Err (List (List Str))
  | .deleteObject _ => Except Err Unit
  | .downloadFile _ => Except Err Bytes

/-- the keys of a bucket that begin so -/
def Service.keys (s : Service) (bucket search : Str) : List Str :=
  (s.objects.keys.filter (fun p => p.1 = bucket ∧ search.isPrefixOf p.2)).map (·.2)

def reply : (a : Ask) → Option Loss → Service → Reply a × Service
  | .paginate bucket search, none, s => (.ok (pg.pages (s.keys bucket search)), s)
  | .paginate _ _, some l, s => (.error l.err, s)
  | .deleteObject p, none, s => (.ok (), { s with objects := s.objects.erase p })
  | .deleteObject _, some (.refused e), s => (.error e, s)
  | .deleteObject p, some (.lost e), s => (.error e, { s with objects := s.objects.erase p })
  | .downloadFile p, none, s =>
    (match s.objects.lookup p with
      | some b => .ok b
      | none => .error noSuchKey, s)
  | .downloadFile _, some l, s => (.error l.err, s)

theorem reply_downloadFile (p : Place) (s : Service) :
    reply pg (.downloadFile p) none s = ((s.objects.lookup p).elim (.error noSuchKey) .ok, s) := by
  cases hp : s.objects.lookup p with
  | none => simp only [reply, hp, Option.elim]
  | some b => simp only [reply, hp, Option.elim]

end

/-! ## the operations -/

/-- up to `n` more attempts -/
def retrying {α : Type} (fn : Prog Ask Reply (Except Err α)) : ℕ → Prog Ask Reply (Except Err α)
  | 0 => fn
  | n + 1 => fn >>= fun
    | .ok a => pure (.ok a)
    | .error e => if e.sleeps then retrying fn n else pure (.error e)

/-- `call_with_retry`, with its five attempts -/
def callWithRetry {α : Type} (fn : Prog Ask Reply (Except Err α)) : Prog Ask Reply (Except Err α) := retrying fn 4

def collect (cfg : S3DestinationConfig) (pages : List (List Str)) : List Str :=
  pages.flatten.map (fun k => k.drop cfg.prefix_.length)

def listKeys (cfg : S3DestinationConfig) (pfx : Str) : Prog Ask Reply (Except Err (List Str)) := do
  let r ← callWithRetry (Prog.perform (Ask.paginate cfg.bucket (cfg.prefix_ ++ pfx)) >>=
    fun (r : Except Err (List (List Str))) => pure (r.map (collect cfg)))
  pure (r.map sorted)

def get (cfg : S3DestinationConfig) (key : Str) : Prog Ask Reply (Except Err Bytes) :=
  callWithRetry (Prog.perform (Ask.downloadFile (cfg.place key)))

def delete (cfg : S3DestinationConfig) (key : Str) : Prog Ask Reply (Except Err Unit) :=
  Prog.perform (Ask.deleteObject (cfg.place key))

def missingCodes : List Str := ["404".toList, "NoSuchKey".toList]

def found : Except Err ℕ → Except Err Bool
  | .ok _ => .ok true
  | .error e => if e.text ∈ missingCodes then .ok false else .error e

def exists_ {E : Type} (cfg : S3DestinationConfig) (key : Str) : Prog (Call E) S3Upload.Res (Except Err Bool) :=
  Prog.perform (Call.headObject (cfg.place key)) >>= fun (r : Except Err ℕ) => pure (found r)

section
variable {E : Type} [DecidableEq E] (etag : ℕ → ℕ → Bytes → E) (pg : Pager) (cfg : S3DestinationConfig)

def view (s : Service) : Map Bytes := fun k => s.objects.lookup (cfg.place k)

def answer {α : Type} (f : α → Ans Bytes) : Except Err α → Ans Bytes
  | .ok a => f a
  | .error _ => .failed

/-- the calls of an operation fail by a list of losses -/
def machine : Machine Bytes (List (Option Loss)) Service where
  ask r fs s :=
    match r with
    | .put k b =>
      let e := (S3Upload.put cfg b k).exec (lossy etag) none fs (s.store (E := E))
      (answer (fun _ => .done) e.1, s.after (cfg.place k) e.2)
    | .get k =>
      let e := (get cfg k).exec (reply pg) none fs s
      (answer .value e.1, e.2)
    | .list pfx =>
      let e := (listKeys cfg pfx).exec (reply pg) none fs s
      (answer .keys e.1, e.2)
    | .delete k =>
      let e := (delete cfg k).exec (reply pg) none fs s
      (answer (fun _ => .done) e.1, e.2)
    | .holds k => (answer .yes ((exists_ cfg k).exec (lossy etag) none fs (s.store (E := E))).1, s)
  view := view cfg

end

/-! ## an upload whose answers may be lost -/

section
variable {E : Type} [DecidableEq E] (etag : ℕ → ℕ → Bytes → E)

/-- how a call may end that keeps `I` whatever becomes of it -/
def Kept (I : Store E → Prop) (c : Call E) : Except Err (Ret c) → Store E → Prop
  | .ok a, s' => ∃ s, I s ∧ serve etag c s = (.ok a, s')
  | .error _, s' => I s'

theorem kept_lossy {I : Store E → Prop} {c : Call E} (hI : ∀ s, I s → I (serve etag c s).2) {s : Store E} (hs : I s)
    (f : Option Loss) : Kept etag I c (lossy etag c f s).1 (lossy etag c f s).2 := by
  cases f with
  | none =>
    show Kept etag I c (serve etag c s).1 (serve etag c s).2
    cases h : serve etag c s with
    | mk r s' =>
      cases r with
      | ok a => exact ⟨s, hs, h⟩
      | error e =>
        have hkeep := hI s hs
        rw [h] at hkeep
        exact hkeep
  | some l =>
    cases l with
    | refused e => exact hs
    | lost e => exact hI s hs

theorem wp_client {I : Store E → Prop} {c : Call E} (hI : ∀ s, I s → I (serve etag c s).2) {s : Store E} (hs : I s) :
    (client c).wp (lossy etag) (fun _ _ => True) (Kept etag I c) s := by
  have hretry : ∀ n s, I s → (S3Upload.retrying (Prog.perform c) n).wp (lossy etag) (fun _ _ => True)
      (Kept etag I c) s := by
    intro n
    induction n with
    | zero => exact fun s hs f => ⟨trivial, kept_lossy etag hI hs f⟩
    | succ n ih =>
      intro s hs
      refine Prog.wp_seq (R := Kept etag I c) (fun f => ⟨trivial, kept_lossy etag hI hs f⟩) fun r s' h => ?_
      cases r with
      | ok a => exact h
      | error e =>
        show (if e.sleeps then S3Upload.retrying (Prog.perform c) n else pure (.error e)).wp _ _ _ _
        split
        · exact ih s' h
        · exact h
  exact hretry 4 s hs

theorem wp_andThen {α β : Type} {p : Prog (Call E) S3Upload.Res (Except Err α)}
    {k : α → Prog (Call E) S3Upload.Res (Except Err β)} {R : Except Err α → Store E → Prop}
    {Q : Except Err β → Store E → Prop} {s : Store E} (hp : p.wp (lossy etag) (fun _ _ => True) R s)
    (hk : ∀ a s', R (.ok a) s' → (k a).wp (lossy etag) (fun _ _ => True) Q s')
    (herr : ∀ e s', R (.error e) s' → Q (.error e) s') : (andThen p k).wp (lossy etag) (fun _ _ => True) Q s := by
  refine Prog.wp_seq hp fun r s' h => ?_
  cases r with
  | ok a => exact hk a s' h
  | error e => exact herr e s' h

/-- what an upload of `data` to `p` leaves of the objects `O` -/
def Left (data : Bytes) (p : Place) (O : Place → Option Bytes) : Except Err Unit → Store E → Prop
  | .ok _, s' => s'.objects = Function.update O p (some data)
  | .error _, s' => s'.objects = O ∨ s'.objects = Function.update O p (some data)

theorem serve_head (p : Place) (s : Store E) : (serve etag (.headObject p) s).2 = s := by
  show (match s.objects p with
    | some body => ((.ok body.length, s) : Except Err ℕ × Store E)
    | none => (.error noSuchKey, s)).2 = s
  split
  · rfl
  · rfl

/-- to compare the sizes changes nothing -/
theorem wp_verifySize (p : Place) (size : ℕ) {O : Place → Option Bytes} {s : Store E} (hs : s.objects = O) :
    (verifySize p size).wp (lossy etag) (fun _ _ => True) (fun _ s' => s'.objects = O) s := by
  have hkeep : ∀ s : Store E, s.objects = O → (serve etag (.headObject p) s).2.objects = O := by
    intro s hs
    rw [serve_head]
    exact hs
  refine wp_andThen etag (wp_client etag hkeep hs) (fun (remote : ℕ) s' h => ?_) fun e s' h => h
  obtain ⟨s₁, hs₁, hserve⟩ := h
  have hsame : s₁ = s' := by rw [← serve_head etag p s₁, hserve]
  rw [hsame] at hs₁
  exact hs₁

theorem wp_putSingle (p : Place) (data : Bytes) (s : Store E) :
    (putSingle p data).wp (lossy etag) (fun _ _ => True) (Left data p s.objects) s := by
  have hkeep : ∀ s' : Store E, (s'.objects = s.objects ∨ s'.objects = Function.update s.objects p (some data)) →
      (serve etag (.putObject p data) s').2.objects = s.objects ∨
        (serve etag (.putObject p data) s').2.objects = Function.update s.objects p (some data) := by
    intro s' hs'
    refine Or.inr ?_
    show Function.update s'.objects p (some data) = _
    rcases hs' with h | h
    · rw [h]
    · rw [h, Function.update_idem]
  refine wp_andThen etag (wp_client etag hkeep (Or.inl rfl)) (fun _ s' h => ?_) fun e s' h => h
  obtain ⟨s₁, hs₁, hserve⟩ := h
  have hs' : s'.objects = Function.update s.objects p (some data) := by
    rw [← (Prod.mk.inj hserve).2]
    show Function.update s₁.objects p (some data) = _
    rcases hs₁ with h | h
    · rw [h]
    · rw [h, Function.update_idem]
  refine Prog.wp_post (wp_verifySize etag p data.length hs') fun r s'' h => ?_
  cases r with
  | ok u => exact h
  | error e => exact Or.inr h

/-- the loop over the parts: a part that was sent in vain is sent again under its number -/
theorem wp_uploadParts {chunkSize : ℤ} (hsize : 0 < chunkSize) (p : Place) (id : ℕ) {O : Place → Option Bytes}
    (fuel : ℕ) (rest : Bytes) (hfuel : rest.length ≤ fuel) (number : ℕ) (parts : List (S3Upload.Part E))
    (stored : ℕ → Option Bytes) (s : Store E) (hO : s.objects = O) (hs : s.uploads id = some ⟨p, stored⟩) :
    (uploadParts chunkSize p id fuel rest number parts).wp (lossy etag) (fun _ _ => True) (fun r s' =>
      match r with
      | .ok parts' => ∃ chunks : List Bytes, chunks.flatten = rest ∧ parts' = parts ++ partsOf etag id number chunks ∧
          s'.uploads id = some ⟨p, storedAfter stored number chunks⟩ ∧ s'.objects = O
      | .error _ => s'.objects = O) s := by
  have hdone : ∀ {rest : Bytes}, rest = [] → ∃ chunks : List Bytes, chunks.flatten = rest ∧
      parts = parts ++ partsOf etag id number chunks ∧
      s.uploads id = some ⟨p, storedAfter stored number chunks⟩ ∧ s.objects = O := by
    rintro rest rfl
    exact ⟨[], rfl, by rw [partsOf, List.append_nil], hs, hO⟩
  induction fuel generalizing rest number parts stored s with
  | zero => exact hdone (List.length_eq_zero_iff.mp (Nat.le_zero.mp hfuel))
  | succ fuel ih =>
    have hread : S3Upload.read chunkSize rest = rest.take chunkSize.toNat := by
      rw [S3Upload.read, if_neg (by omega)]
    rcases eq_or_ne rest [] with hnil | hrest
    · rw [uploadParts, hread, hnil, List.take_nil]
      exact hdone rfl
    · have hpos := List.length_pos_iff.mpr hrest
      have hchunk : (rest.take chunkSize.toNat).isEmpty = false := by
        rw [List.isEmpty_eq_false_iff, ← List.length_pos_iff, List.length_take]
        omega
      have hdrop : rest.drop (rest.take chunkSize.toNat).length = rest.drop chunkSize.toNat := by
        rw [List.length_take]
        rcases Nat.le_total chunkSize.toNat rest.length with h | h
        · rw [Nat.min_eq_left h]
        · rw [Nat.min_eq_right h, List.drop_length, List.drop_of_length_le h]
      rw [uploadParts, hread]
      simp only [hchunk, Bool.false_eq_true, if_false, hdrop]
      -- the other parts are as they were
      let I : Store E → Prop := fun s' => s'.objects = O ∧ ∃ stored', s'.uploads id = some ⟨p, stored'⟩ ∧
        ∀ m, m ≠ number → stored' m = stored m
      have hserve : ∀ s' : Store E, I s' →
          serve etag (.uploadPart p id number (rest.take chunkSize.toNat)) s' =
            (.ok (etag id number (rest.take chunkSize.toNat)), s'.setUpload id
              (some ⟨p, Function.update stored number (some (rest.take chunkSize.toNat))⟩)) := by
        rintro s' ⟨-, stored', hup, hsame⟩
        have hupdate : Function.update stored' number (some (rest.take chunkSize.toNat)) =
            Function.update stored number (some (rest.take chunkSize.toNat)) := by
          funext m
          by_cases hm : m = number
          · rw [hm, Function.update_self, Function.update_self]
          · rw [Function.update_of_ne hm, Function.update_of_ne hm, hsame m hm]
        simp only [serve, hup, if_true, hupdate]
      have hkeep : ∀ s' : Store E, I s' →
          I (serve etag (.uploadPart p id number (rest.take chunkSize.toNat)) s').2 := by
        intro s' hs'
        rw [hserve s' hs']
        refine ⟨hs'.1, _, Function.update_self .., fun m hm => Function.update_of_ne hm _ _⟩
      refine wp_andThen etag (wp_client etag hkeep ⟨hO, stored, hs, fun m _ => rfl⟩) (fun tag s' h => ?_)
        fun e s' h => h.1
      obtain ⟨s₁, hs₁, hs'⟩ := h
      rw [hserve s₁ hs₁] at hs'
      obtain ⟨htag, rfl⟩ := Prod.mk.inj hs'
      obtain rfl := Except.ok.inj htag
      have hup := Function.update_self id
        (some (⟨p, Function.update stored number (some (rest.take chunkSize.toNat))⟩ : Upload)) s₁.uploads
      refine Prog.wp_post (ih (rest.drop chunkSize.toNat) (by rw [List.length_drop]; omega) (number + 1) _
        (Function.update stored number (some (rest.take chunkSize.toNat))) _ hs₁.1 hup ?_) fun r s' h => ?_
      · rintro rest' rfl
        exact ⟨[], rfl, by rw [partsOf, List.append_nil], hup, hs₁.1⟩
      · cases r with
        | error e => exact h
        | ok parts' =>
          obtain ⟨chunks, hflatten, rfl, hup', hO'⟩ := h
          refine ⟨rest.take chunkSize.toNat :: chunks, ?_, ?_, hup', hO'⟩
          · rw [List.flatten_cons, hflatten, List.take_append_drop]
          · rw [List.append_assoc]
            rfl

/-- the parts and the call that completes the upload, which may take effect and be tried in vain then -/
theorem wp_complete {chunkSize : ℤ} (hsize : 0 < chunkSize) (p : Place) (id : ℕ) (data : Bytes) (s : Store E)
    (hs : s.uploads id = some ⟨p, fun _ => none⟩) :
    (andThen (uploadParts chunkSize p id data.length data 1 []) fun parts =>
        client (.completeMultipartUpload p id parts)).wp (lossy etag) (fun _ _ => True) (Left data p s.objects) s := by
  refine wp_andThen etag (wp_uploadParts etag hsize p id data.length data le_rfl 1 [] _ s rfl hs)
    (fun parts s' h => ?_) fun e s' h => Or.inl h
  obtain ⟨chunks, hflatten, rfl, hup, hO⟩ := h
  rw [List.nil_append]
  let I : Store E → Prop := fun s' => s'.objects = s.objects ∧
    s'.uploads id = some ⟨p, storedAfter (fun _ => none) 1 chunks⟩ ∨
    s'.objects = Function.update s.objects p (some data) ∧ s'.uploads id = none
  have hcomplete := complete_parts etag id (fun _ => none) chunks
  by_cases hnil : chunks = []
  · -- without parts it is refused every time
    rw [if_pos hnil] at hcomplete
    let J : Store E → Prop := fun s' => s'.objects = s.objects ∧
      s'.uploads id = some ⟨p, storedAfter (fun _ => none) 1 chunks⟩
    have hrefused : ∀ s' : Store E, J s' →
        serve etag (.completeMultipartUpload p id (partsOf etag id 1 chunks)) s' = (.error malformedXml, s') := by
      intro s' hs'
      simp only [serve, hs'.2, if_true, hcomplete]
    have hkeep : ∀ s' : Store E, J s' →
        J (serve etag (.completeMultipartUpload p id (partsOf etag id 1 chunks)) s').2 := by
      intro s' hs'
      rw [hrefused s' hs']
      exact hs'
    refine Prog.wp_post (wp_client etag hkeep ⟨hO, hup⟩) fun r s'' h => ?_
    cases r with
    | error e => exact Or.inl h.1
    | ok u =>
      obtain ⟨s₁, hs₁, hserve⟩ := h
      rw [hrefused s₁ hs₁] at hserve
      cases (Prod.mk.inj hserve).1
  rw [if_neg hnil, hflatten] at hcomplete
  have hopen : ∀ s' : Store E, s'.uploads id = some ⟨p, storedAfter (fun _ => none) 1 chunks⟩ →
      serve etag (.completeMultipartUpload p id (partsOf etag id 1 chunks)) s' =
        (.ok (), (s'.setObject p data).setUpload id none) := by
    intro s' hup
    simp only [serve, hup, if_true, hcomplete]
  have hclosed : ∀ s' : Store E, s'.uploads id = none →
      serve etag (.completeMultipartUpload p id (partsOf etag id 1 chunks)) s' = (.error noSuchUpload, s') := by
    intro s' hup
    simp only [serve, hup]
  have hkeep : ∀ s' : Store E, I s' →
      I (serve etag (.completeMultipartUpload p id (partsOf etag id 1 chunks)) s').2 := by
    rintro s' (⟨hobjects, hup⟩ | ⟨hobjects, hup⟩)
    · rw [hopen s' hup]
      refine Or.inr ⟨?_, Function.update_self ..⟩
      show Function.update s'.objects p (some data) = _
      rw [hobjects]
    · rw [hclosed s' hup]
      exact Or.inr ⟨hobjects, hup⟩
  refine Prog.wp_post (wp_client etag hkeep (Or.inl ⟨hO, hup⟩)) fun r s'' h => ?_
  cases r with
  | error e => exact h.imp And.left And.left
  | ok u =>
    obtain ⟨s₁, hs₁ | hs₁, hserve⟩ := h
    · rw [hopen s₁ hs₁.2] at hserve
      rw [← (Prod.mk.inj hserve).2]
      show Function.update s₁.objects p (some data) = _
      rw [hs₁.1]
    · rw [hclosed s₁ hs₁.2] at hserve
      cases (Prod.mk.inj hserve).1

theorem serve_abort (p : Place) (id : ℕ) (s : Store E) :
    (serve etag (.abortMultipartUpload p id) s).2.objects = s.objects := by
  cases hu : s.uploads id with
  | none => simp only [serve, hu]
  | some u => simp only [serve, hu, Store.setUpload]

theorem lossy_abort (p : Place) (id : ℕ) (f : Option Loss) (s : Store E) :
    (lossy etag (.abortMultipartUpload p id) f s).2.objects = s.objects := by
  cases f with
  | none => exact serve_abort etag p id s
  | some l =>
    cases l with
    | refused e => rfl
    | lost e => exact serve_abort etag p id s

theorem wp_putMultipart {chunkSize : ℤ} (hsize : 0 < chunkSize) (p : Place) (data : Bytes) (s : Store E) :
    (putMultipart chunkSize p data).wp (lossy etag) (fun _ _ => True) (Left data p s.objects) s := by
  -- uploads that were begun in vain stay open
  have hkeep : ∀ s' : Store E, s'.objects = s.objects →
      (serve etag (.createMultipartUpload p) s').2.objects = s.objects := fun s' h => h
  refine wp_andThen etag (wp_client etag hkeep rfl) (fun (id : ℕ) s' h => ?_) fun e s' h => Or.inl h
  obtain ⟨s₁, hs₁, hserve⟩ := h
  obtain ⟨hid, rfl⟩ := Prod.mk.inj hserve
  obtain rfl : s₁.next = id := Except.ok.inj hid
  have hup : ({ s₁.setUpload s₁.next (some ⟨p, fun _ => none⟩) with next := s₁.next + 1 } : Store E).uploads s₁.next =
      some ⟨p, fun _ => none⟩ := Function.update_self ..
  refine Prog.wp_seq (wp_complete etag hsize p s₁.next data _ hup) fun r s' h => ?_
  have hsame : Left data p s₁.objects r s' := h
  rw [hs₁] at hsame
  cases r with
  | ok u =>
    refine Prog.wp_post (wp_verifySize etag p data.length hsame) fun r s'' h' => ?_
    cases r with
    | ok u => exact h'
    | error e => exact Or.inr h'
  | error e =>
    intro f
    refine ⟨trivial, ?_⟩
    show (lossy etag (.abortMultipartUpload p s₁.next) f s').2.objects = _ ∨ _ = _
    rw [lossy_abort]
    exact hsame

theorem wp_put (cfg : S3DestinationConfig) (hsize : 0 < cfg.multipartChunkSize) (data : Bytes) (key : Str)
    (s : Store E) :
    (S3Upload.put cfg data key).wp (lossy etag) (fun _ _ => True) (Left data (cfg.place key) s.objects) s := by
  unfold S3Upload.put
  split
  · exact wp_putSingle etag (cfg.place key) data s
  · exact wp_putMultipart etag hsize (cfg.place key) data s

end

/-! ## the store -/

section
variable {E : Type} (cfg : S3DestinationConfig)

theorem place_injective {k k' : Str} (h : cfg.place k = cfg.place k') : k = k' :=
  List.append_cancel_left (Prod.mk.inj h).2

/-- the objects at other places are as they were -/
def OthersKept (s s' : Service) : Prop := ∀ p, (∀ k, p ≠ cfg.place k) → s'.objects.lookup p = s.objects.lookup p

/-- one object of the destination may have changed -/
theorem lookup_after (s : Service) (p q : Place) (t : Store E) :
    (s.after p t).objects.lookup q = if q = p then t.objects p else s.objects.lookup q := by
  show AList.lookup q (match t.objects p with
    | some b => s.objects.insert p b
    | none => s.objects.erase p) = _
  by_cases hq : q = p
  · subst hq
    rw [if_pos rfl]
    split
    · rename_i b hb
      rw [AList.lookup_insert, hb]
    · rename_i hb
      rw [AList.lookup_erase, hb]
  · rw [if_neg hq]
    split
    · rw [AList.lookup_insert_ne hq]
    · rw [AList.lookup_erase_ne hq]

theorem view_after (s : Service) (key : Str) (t : Store E) :
    view cfg (s.after (cfg.place key) t) = Function.update (view cfg s) key (t.objects (cfg.place key)) := by
  funext k
  show (s.after (cfg.place key) t).objects.lookup (cfg.place k) = _
  rw [lookup_after]
  by_cases hk : k = key
  · rw [hk, if_pos rfl, Function.update_self]
  · rw [if_neg fun he => hk (place_injective cfg he), Function.update_of_ne hk]
    rfl

theorem view_erase (s : Service) (key : Str) :
    view cfg { s with objects := s.objects.erase (cfg.place key) } = Function.update (view cfg s) key none := by
  funext k
  show AList.lookup (cfg.place k) (s.objects.erase (cfg.place key)) = _
  by_cases hk : k = key
  · rw [hk, AList.lookup_erase, Function.update_self]
  · rw [AList.lookup_erase_ne fun he => hk (place_injective cfg he), Function.update_of_ne hk]
    rfl

theorem othersKept_after (s : Service) (key : Str) (t : Store E) : OthersKept cfg s (s.after (cfg.place key) t) := by
  intro p hp
  rw [lookup_after, if_neg (hp key)]

theorem othersKept_erase (s : Service) (key : Str) :
    OthersKept cfg s { s with objects := s.objects.erase (cfg.place key) } := fun _ hp => AList.lookup_erase_ne (hp key)

end

/-! ## the other calls -/

section
variable (pg : Pager) (cfg : S3DestinationConfig)

/-- a call that changes nothing, tried again -/
theorem wp_again {α : Type} {fn : Prog Ask Reply (Except Err α)} {P : α → Prop} {s : Service}
    (h : fn.wp (reply pg) (fun _ _ => True) (fun r s' => s' = s ∧ ∀ a, r = .ok a → P a) s) (n : ℕ) :
    (retrying fn n).wp (reply pg) (fun _ _ => True) (fun r s' => s' = s ∧ ∀ a, r = .ok a → P a) s := by
  induction n with
  | zero => exact h
  | succ n ih =>
    refine Prog.wp_seq h fun r s' hr => ?_
    obtain ⟨rfl, hP⟩ := hr
    cases r with
    | ok a => exact ⟨rfl, hP⟩
    | error e =>
      show (if e.sleeps then retrying fn n else pure (.error e)).wp _ _ _ _
      split
      · exact ih
      · exact ⟨rfl, nofun⟩

theorem wp_listKeys (pfx : Str) (s : Service) :
    (listKeys cfg pfx).wp (reply pg) (fun _ _ => True) (fun r s' => s' = s ∧ ∀ l, r = .ok l →
      l = sorted (collect cfg (pg.pages (s.keys cfg.bucket (cfg.prefix_ ++ pfx))))) s := by
  have hone : (Prog.perform (Ask.paginate cfg.bucket (cfg.prefix_ ++ pfx)) >>=
      fun (r : Except Err (List (List Str))) => (pure (r.map (collect cfg)) : Prog Ask Reply _)).wp (reply pg)
        (fun _ _ => True) (fun r s' => s' = s ∧ ∀ l, r = .ok l →
          l = collect cfg (pg.pages (s.keys cfg.bucket (cfg.prefix_ ++ pfx)))) s := by
    intro f
    refine ⟨trivial, ?_⟩
    cases f with
    | none => exact ⟨rfl, fun l hl => (Except.ok.inj hl).symm⟩
    | some l => exact ⟨rfl, fun l hl => by cases hl⟩
  refine Prog.wp_seq (wp_again pg hone 4) fun r s' hr => ?_
  obtain ⟨rfl, hl⟩ := hr
  refine ⟨rfl, fun l he => ?_⟩
  cases r with
  | error e => cases he
  | ok l' =>
    rw [← Except.ok.inj he, hl l' rfl]

theorem wp_get (key : Str) (s : Service) : (get cfg key).wp (reply pg) (fun _ _ => True) (fun r s' => s' = s ∧
    ∀ b, r = .ok b → view cfg s key = some b) s := by
  have hone : (Prog.perform (Ask.downloadFile (cfg.place key)) : Prog Ask Reply (Except Err Bytes)).wp (reply pg)
      (fun _ _ => True) (fun r s' => s' = s ∧ ∀ b, r = .ok b → view cfg s key = some b) s := by
    intro f
    refine ⟨trivial, ?_⟩
    cases f with
    | some l => exact ⟨rfl, fun b hb => by cases hb⟩
    | none =>
      refine ⟨rfl, fun b hb => ?_⟩
      rw [reply_downloadFile] at hb
      have hfound : (view cfg s key).elim (.error noSuchKey) (.ok : Bytes → Except Err Bytes) = .ok b := hb
      cases hv : view cfg s key with
      | none =>
        rw [hv] at hfound
        cases hfound
      | some b' =>
        rw [hv] at hfound
        rw [Except.ok.inj hfound]
  exact wp_again pg hone 4

/-- the keys of the pages, without the prefix -/
theorem collect_pages (pfx : Str) (s : Service) :
    (collect cfg (pg.pages (s.keys cfg.bucket (cfg.prefix_ ++ pfx)))).Perm
      ((s.keys cfg.bucket (cfg.prefix_ ++ pfx)).map (cut cfg.prefix_)) :=
  (pg.complete _).map _

theorem mem_keys {s : Service} {bucket search k : Str} :
    k ∈ s.keys bucket search ↔ search <+: k ∧ s.objects.lookup (bucket, k) ≠ none := by
  unfold Service.keys
  rw [List.mem_map]
  constructor
  · rintro ⟨p, hp, rfl⟩
    obtain ⟨hmem, hcond⟩ := List.mem_filter.mp hp
    obtain ⟨rfl, hpre⟩ := of_decide_eq_true hcond
    refine ⟨List.isPrefixOf_iff_prefix.mp hpre, ?_⟩
    rw [← Option.isSome_iff_ne_none]
    exact AList.lookup_isSome.mpr hmem
  · rintro ⟨hpre, hn⟩
    rw [← Option.isSome_iff_ne_none] at hn
    refine ⟨(bucket, k), List.mem_filter.mpr ⟨AList.lookup_isSome.mp hn, ?_⟩, rfl⟩
    exact decide_eq_true ⟨rfl, List.isPrefixOf_iff_prefix.mpr hpre⟩

theorem nodup_keys (s : Service) (bucket search : Str) : (s.keys bucket search).Nodup := by
  unfold Service.keys
  refine List.Nodup.map_on ?_ (s.objects.nodupKeys.filter _)
  intro p hp q hq he
  have hbucket : ∀ p ∈ s.objects.keys.filter (fun p => p.1 = bucket ∧ search.isPrefixOf p.2), p.1 = bucket :=
    fun p hp => (of_decide_eq_true (List.mem_filter.mp hp).2).1
  exact Prod.ext ((hbucket p hp).trans (hbucket q hq).symm) he

theorem listing (pfx : Str) (s : Service) :
    (sorted (collect cfg (pg.pages (s.keys cfg.bucket (cfg.prefix_ ++ pfx))))).Pairwise (· < ·) ∧
      ∀ x, x ∈ sorted (collect cfg (pg.pages (s.keys cfg.bucket (cfg.prefix_ ++ pfx)))) ↔
        pfx <+: x ∧ view cfg s x ≠ none := by
  have hperm := collect_pages pg cfg pfx s
  have hbelow : ∀ k ∈ s.keys cfg.bucket (cfg.prefix_ ++ pfx), ∃ t, k = cfg.prefix_ ++ (pfx ++ t) := by
    intro k hk
    obtain ⟨t, rfl⟩ := (mem_keys.mp hk).1
    exact ⟨t, List.append_assoc ..⟩
  refine ⟨sorted_strict (hperm.nodup_iff.mpr (List.Nodup.map_on ?_ (nodup_keys s _ _))), fun x => ?_⟩
  · intro k hk k' hk' he
    obtain ⟨t, rfl⟩ := hbelow k hk
    obtain ⟨t', rfl⟩ := hbelow k' hk'
    rw [cut_append, cut_append] at he
    rw [he]
  · rw [mem_sorted, hperm.mem_iff, List.mem_map]
    constructor
    · rintro ⟨k, hk, rfl⟩
      obtain ⟨t, rfl⟩ := hbelow k hk
      rw [cut_append]
      exact ⟨List.prefix_append _ _, (mem_keys.mp hk).2⟩
    · rintro ⟨⟨t, rfl⟩, hn⟩
      refine ⟨cfg.prefix_ ++ (pfx ++ t), mem_keys.mpr ⟨⟨t, List.append_assoc ..⟩, hn⟩, cut_append _ _⟩

end

/-! ## the destination -/

section
variable {E : Type} [DecidableEq E] (etag : ℕ → ℕ → Bytes → E) (pg : Pager) (cfg : S3DestinationConfig)

/-- no failure passes for a missing object where it is asked whether there is one -/
def Honest (q : Req Bytes × List (Option Loss)) : Prop :=
  ∀ k, q.1 = .holds k → ∀ l, some l ∈ q.2 → l.err.text ∉ missingCodes

theorem exec_exists (key : Str) (fs : List (Option Loss)) (s : Service)
    (hfs : ∀ l, some l ∈ fs → l.err.text ∉ missingCodes) :
    answer .yes ((exists_ cfg key).exec (lossy etag) none fs (s.store (E := E))).1 =
      if (fs.headD none).isSome then .failed else .yes (view cfg s key).isSome := by
  have hexec : ((exists_ cfg key).exec (lossy etag) none fs (s.store (E := E))).1 =
      found (lossy etag (.headObject (cfg.place key)) (fs.headD none) (s.store (E := E))).1 := rfl
  rw [hexec]
  cases hf : fs.headD none with
  | none =>
    have hserve : (lossy etag (.headObject (cfg.place key)) none (s.store (E := E))).1 =
        match view cfg s key with
        | some body => .ok body.length
        | none => .error noSuchKey := by
      show (serve etag (.headObject (cfg.place key)) (s.store (E := E))).1 = _
      unfold serve
      show (match view cfg s key with
        | some body => ((.ok body.length, s.store) : Except Err ℕ × Store E)
        | none => (.error noSuchKey, s.store)).1 = _
      cases view cfg s key with
      | none => rfl
      | some body => rfl
    rw [hserve]
    cases view cfg s key with
    | none =>
      have hcode : found (.error noSuchKey) = .ok false := by
        unfold found
        exact if_pos (by decide)
      exact congrArg (answer .yes) hcode
    | some body => rfl
  | some l =>
    have hmem : some l ∈ fs := by
      cases fs with
      | nil => cases hf
      | cons f fs =>
        obtain rfl : f = some l := hf
        exact List.mem_cons_self
    have herr : (lossy etag (.headObject (cfg.place key)) (some l) (s.store (E := E))).1 = .error l.err := by
      cases l with
      | refused e => rfl
      | lost e => rfl
    rw [herr]
    have hcode : found (.error l.err) = .error l.err := by
      unfold found
      exact if_neg (hfs l hmem)
    exact congrArg (answer .yes) hcode

/-- **A prefix of a bucket is a store of bytes under keys.** -/
theorem sound (torn : Bytes → Bytes → Prop) (hsize : 0 < cfg.multipartChunkSize) :
    (machine etag pg cfg).Sound torn (fun _ => True) Honest where
  keeps _ _ _ _ := trivial
  step q s hq _ := by
    obtain ⟨r, fs⟩ := q
    cases r with
    | put k b =>
      have h := Prog.exec_wp none (wp_put etag cfg hsize b k s.store) fs
      show KeyStore.Step torn (view cfg s) (.put k b)
        (answer (fun _ => .done) ((S3Upload.put cfg b k).exec (lossy etag) none fs (s.store (E := E))).1)
        (view cfg (s.after (cfg.place k) ((S3Upload.put cfg b k).exec (lossy etag) none fs (s.store (E := E))).2))
      rw [view_after]
      generalize (S3Upload.put cfg b k).exec (lossy etag) none fs (s.store (E := E)) = e at h
      obtain ⟨r, t⟩ := e
      cases r with
      | ok u =>
        have hO : t.objects = Function.update s.store.objects (cfg.place k) (some b) := h
        rw [hO, Function.update_self]
        exact .put k b
      | error e =>
        rcases (h : t.objects = s.store.objects ∨ _) with hO | hO
        · have hsame : Function.update (view cfg s) k (t.objects (cfg.place k)) = view cfg s := by
            rw [hO]
            exact Function.update_eq_self k (view cfg s)
          rw [hsame]
          exact .failed _
        · rw [hO, Function.update_self]
          exact .putLate k b
    | get k =>
      have h := Prog.exec_wp none (wp_get pg cfg k s) fs
      show KeyStore.Step torn (view cfg s) (.get k) (answer .value ((get cfg k).exec (reply pg) none fs s).1)
        (view cfg ((get cfg k).exec (reply pg) none fs s).2)
      generalize (get cfg k).exec (reply pg) none fs s = e at h
      obtain ⟨r, s'⟩ := e
      obtain ⟨rfl, hb⟩ := h
      cases r with
      | ok b => exact .get (hb b rfl)
      | error e => exact .failed _
    | list pfx =>
      have h := Prog.exec_wp none (wp_listKeys pg cfg pfx s) fs
      show KeyStore.Step torn (view cfg s) (.list pfx) (answer .keys ((listKeys cfg pfx).exec (reply pg) none fs s).1)
        (view cfg ((listKeys cfg pfx).exec (reply pg) none fs s).2)
      generalize (listKeys cfg pfx).exec (reply pg) none fs s = e at h
      obtain ⟨r, s'⟩ := e
      obtain ⟨rfl, hl⟩ := h
      cases r with
      | ok l =>
        obtain ⟨hstrict, hmem⟩ := listing pg cfg pfx s'
        have hl' := hl l rfl
        dsimp only at hl'
        rw [← hl'] at hstrict hmem
        exact .list hstrict hmem
      | error e => exact .failed _
    | delete k =>
      show KeyStore.Step torn (view cfg s) (.delete k)
        (answer (fun _ => .done) (reply pg (.deleteObject (cfg.place k)) (fs.headD none) s).1)
        (view cfg (reply pg (.deleteObject (cfg.place k)) (fs.headD none) s).2)
      cases fs.headD none with
      | none =>
        show KeyStore.Step torn _ _ .done (view cfg { s with objects := s.objects.erase (cfg.place k) })
        rw [view_erase]
        exact .delete k
      | some l =>
        cases l with
        | refused e => exact .failed _
        | lost e =>
          show KeyStore.Step torn _ _ .failed (view cfg { s with objects := s.objects.erase (cfg.place k) })
          rw [view_erase]
          exact .deleteLate k
    | holds k =>
      show KeyStore.Step torn (view cfg s) (.holds k)
        (answer .yes ((exists_ cfg k).exec (lossy etag) none fs (s.store (E := E))).1) (view cfg s)
      rw [exec_exists etag cfg k fs s (hq k rfl)]
      split
      · exact .failed _
      · exact .holds k

/-- no object of another key is touched -/
theorem others_kept (r : Req Bytes) (fs : List (Option Loss)) (s : Service) :
    OthersKept cfg s ((machine etag pg cfg).ask r fs s).2 := by
  cases r with
  | put k b => exact othersKept_after cfg s k _
  | get k =>
    have h := (Prog.exec_wp none (wp_get pg cfg k s) fs).1
    show OthersKept cfg s ((get cfg k).exec (reply pg) none fs s).2
    rw [h]
    exact fun _ _ => rfl
  | list pfx =>
    have h := (Prog.exec_wp none (wp_listKeys pg cfg pfx s) fs).1
    show OthersKept cfg s ((listKeys cfg pfx).exec (reply pg) none fs s).2
    rw [h]
    exact fun _ _ => rfl
  | delete k =>
    show OthersKept cfg s (reply pg (.deleteObject (cfg.place k)) (fs.headD none) s).2
    cases fs.headD none with
    | none => exact othersKept_erase cfg s k
    | some l =>
      cases l with
      | refused e => exact fun _ _ => rfl
      | lost e => exact othersKept_erase cfg s k
  | holds k => exact fun _ _ => rfl

theorem othersKept_run (qs : List (Req Bytes × List (Option Loss))) (s : Service) :
    OthersKept cfg s ((machine etag pg cfg).run qs s).2 := by
  induction qs generalizing s with
  | nil => exact fun _ _ => rfl
  | cons q qs ih => exact fun p hp => (ih _ p hp).trans (others_kept etag pg cfg q.1 q.2 s p hp)

end
end S3Destination
end BackupHelper
