import BackupHelper.Destinations.S3Upload

/-!
# What an upload leaves in the store

* `Called`, `wp_client`       a call that is tried again;
* `Few`                       a log without five failures in a row;
* `partsOf`, `uploadsOf`      the parts of a file as they are uploaded and listed;
* `wp_uploadParts`            the loop over the parts;
* `put_stored`                **what a run of `put` leaves, under every pattern of failing calls**.
-/

namespace BackupHelper
namespace S3Upload
open Text Effects

/-! ## the log -/

section
variable {E : Type}

@[simp] theorem logged_logged (s : Store E) (l l' : List (Call E × Bool)) :
    (s.logged l).logged l' = s.logged (l ++ l') := by
  unfold Store.logged
  simp

@[simp] theorem logged_objects (s : Store E) (l : List (Call E × Bool)) : (s.logged l).objects = s.objects := rfl

@[simp] theorem logged_uploads (s : Store E) (l : List (Call E × Bool)) : (s.logged l).uploads = s.uploads := rfl

@[simp] theorem logged_next (s : Store E) (l : List (Call E × Bool)) : (s.logged l).next = s.next := rfl

/-- the calls `cs` in order, each after at most four failures of its own -/
inductive Tried : List (Call E) → List (Call E × Bool) → Prop where
  | nil : Tried [] []
  | cons (c : Call E) (k : ℕ) {cs : List (Call E)} {l : List (Call E × Bool)} (hk : k ≤ 4) (h : Tried cs l) :
      Tried (c :: cs) (List.replicate k (c, false) ++ [(c, true)] ++ l)

theorem Tried.append {cs cs' : List (Call E)} {l l' : List (Call E × Bool)} (h : Tried cs l) (h' : Tried cs' l') :
    Tried (cs ++ cs') (l ++ l') := by
  induction h with
  | nil => exact h'
  | cons c k hk h ih =>
    rw [List.append_assoc]
    exact .cons c k hk ih

theorem Tried.one (c : Call E) {k : ℕ} (hk : k ≤ 4) : Tried [c] (List.replicate k (c, false) ++ [(c, true)]) := by
  have h := Tried.cons c k hk .nil
  rwa [List.append_nil] at h

theorem Tried.succeeded {cs : List (Call E)} {l : List (Call E × Bool)} (h : Tried cs l) {c : Call E} (hc : c ∈ cs) :
    (c, true) ∈ l := by
  induction h with
  | nil => cases hc
  | cons d k hk h ih =>
    rcases List.mem_cons.mp hc with rfl | hc
    · simp
    · exact List.mem_append_right _ (ih hc)

/-- the calls that succeeded -/
theorem Tried.successes {cs : List (Call E)} {l : List (Call E × Bool)} (h : Tried cs l) :
    (l.filter (·.2)).map (·.1) = cs := by
  induction h with
  | nil => rfl
  | cons c k hk h ih =>
    have hfailed : (List.replicate k ((c, false) : Call E × Bool)).filter (·.2) = [] :=
      List.filter_eq_nil_iff.mpr fun e he => by simp [List.eq_of_mem_replicate he]
    rw [List.filter_append, List.filter_append, hfailed, List.map_append, ih]
    rfl

theorem Tried.mem {cs : List (Call E)} {l : List (Call E × Bool)} (h : Tried cs l) {e : Call E × Bool} (he : e ∈ l) :
    e.1 ∈ cs := by
  induction h with
  | nil => cases he
  | cons c k hk h ih =>
    rcases List.mem_append.mp he with he | he
    · rcases List.mem_append.mp he with he | he
      · rw [List.eq_of_mem_replicate he]
        exact List.mem_cons_self
      · rw [List.mem_singleton.mp he]
        exact List.mem_cons_self
    · exact List.mem_cons_of_mem _ (ih he)

/-- a log without five failures in a row, `n` of them at its end -/
inductive Few : ℕ → List (Call E × Bool) → Prop where
  | nil : Few 0 []
  | succeeded {n : ℕ} {l : List (Call E × Bool)} (h : Few n l) (c : Call E) : Few 0 (l ++ [(c, true)])
  | failed {n : ℕ} {l : List (Call E × Bool)} (h : Few n l) (c : Call E) (hn : n < 4) : Few (n + 1) (l ++ [(c, false)])

theorem Few.replicate {l : List (Call E × Bool)} (h : Few 0 l) (c : Call E) {k : ℕ} (hk : k ≤ 4) :
    Few k (l ++ List.replicate k (c, false)) := by
  induction k with
  | zero =>
    rw [List.replicate_zero, List.append_nil]
    exact h
  | succ k ih =>
    rw [List.replicate_succ', ← List.append_assoc]
    exact (ih (by omega)).failed c (by omega)

theorem Tried.few {cs : List (Call E)} {l : List (Call E × Bool)} (h : Tried cs l) {l₀ : List (Call E × Bool)}
    (h₀ : Few 0 l₀) : Few 0 (l₀ ++ l) := by
  induction h generalizing l₀ with
  | nil =>
    rw [List.append_nil]
    exact h₀
  | cons c k hk h ih =>
    rw [← List.append_assoc, ← List.append_assoc]
    exact ih ((h₀.replicate c hk).succeeded c)

/-- failures in a row in such a log -/
theorem Few.run {n : ℕ} {l : List (Call E × Bool)} (h : Few n l) {a es b : List (Call E × Bool)}
    (hl : l = a ++ es ++ b) (hes : ∀ e ∈ es, e.2 = false) : es.length ≤ 4 ∧ (b = [] → es.length ≤ n) := by
  induction h generalizing a es b with
  | nil =>
    have hnil := hl.symm
    simp only [List.append_eq_nil_iff] at hnil
    simp [hnil.1.2]
  | @succeeded n l h c ih =>
    rcases List.eq_nil_or_concat' b with rfl | ⟨b, e, rfl⟩
    · rw [List.append_nil] at hl
      rcases List.eq_nil_or_concat' es with rfl | ⟨es, e, rfl⟩
      · simp
      · rw [← List.append_assoc] at hl
        obtain ⟨-, he⟩ := List.append_inj' hl rfl
        have hfalse := hes e (by simp)
        rw [← List.singleton_inj.mp he] at hfalse
        cases hfalse
    · rw [← List.append_assoc] at hl
      obtain ⟨hl', -⟩ := List.append_inj' hl rfl
      exact ⟨(ih hl' hes).1, fun hb => absurd hb (by simp)⟩
  | @failed n l h c hn ih =>
    rcases List.eq_nil_or_concat' b with rfl | ⟨b, e, rfl⟩
    · rw [List.append_nil] at hl
      rcases List.eq_nil_or_concat' es with rfl | ⟨es, e, rfl⟩
      · simp
      · rw [← List.append_assoc] at hl
        obtain ⟨hl', -⟩ := List.append_inj' hl rfl
        have hlen := (ih (b := []) (by rw [List.append_nil]; exact hl') fun e he => hes e (by simp [he])).2 rfl
        rw [List.length_append, List.length_singleton]
        exact ⟨by omega, fun _ => by omega⟩
    · rw [← List.append_assoc] at hl
      obtain ⟨hl', -⟩ := List.append_inj' hl rfl
      exact ⟨(ih hl' hes).1, fun hb => absurd hb (by simp)⟩

end

section
variable {E : Type} [DecidableEq E] (etag : ℕ → ℕ → Bytes → E)

/-! ## the store -/

/-- the store does not read the log -/
theorem serve_logged (c : Call E) (s : Store E) (l : List (Call E × Bool)) :
    serve etag c (s.logged l) = ((serve etag c s).1, (serve etag c s).2.logged l) := by
  cases c with
  | putObject p body => rfl
  | createMultipartUpload p => rfl
  | headObject p =>
    simp only [serve, logged_objects]
    cases s.objects p <;> rfl
  | uploadPart p id number body =>
    simp only [serve, logged_uploads]
    cases s.uploads id with
    | none => rfl
    | some u =>
      simp only
      split <;> rfl
  | completeMultipartUpload p id parts =>
    simp only [serve, logged_uploads]
    cases s.uploads id with
    | none => rfl
    | some u =>
      simp only
      split
      · cases complete etag id u.parts parts <;> rfl
      · rfl
  | abortMultipartUpload p id =>
    simp only [serve, logged_uploads]
    cases s.uploads id <;> rfl

/-- a call that the store refuses has no effect -/
theorem serve_error {c : Call E} {s : Store E} {e : Err} (h : (serve etag c s).1 = .error e) :
    (serve etag c s).2 = s := by
  cases c with
  | putObject p body => cases h
  | createMultipartUpload p => cases h
  | headObject p =>
    simp only [serve] at h ⊢
    cases s.objects p <;> rfl
  | uploadPart p id number body =>
    simp only [serve] at h ⊢
    cases hu : s.uploads id with
    | none => rfl
    | some u =>
      rw [hu] at h
      simp only at h ⊢
      split at h
      · cases h
      · rename_i hp
        rw [if_neg hp]
  | completeMultipartUpload p id parts =>
    simp only [serve] at h ⊢
    cases hu : s.uploads id with
    | none => rfl
    | some u =>
      rw [hu] at h
      simp only at h ⊢
      split at h
      · rename_i hp
        rw [if_pos hp]
        cases hc : complete etag id u.parts parts with
        | error e => rfl
        | ok body =>
          rw [hc] at h
          cases h
      · rename_i hp
        rw [if_neg hp]
  | abortMultipartUpload p id =>
    simp only [serve] at h ⊢
    cases hu : s.uploads id with
    | none => rfl
    | some u =>
      rw [hu] at h
      cases h

/-! ## a call that is tried again -/

/-- how a call that is tried up to `n` times more may end -/
def Attempted (etag : ℕ → ℕ → Bytes → E) (n : ℕ) (c : Call E) (s : Store E) : Except Err (Ret c) → Store E → Prop
  | .ok a, s' => ∃ k ≤ n, ∃ s₁, serve etag c s = (.ok a, s₁) ∧
      s' = s₁.logged (List.replicate k (c, false) ++ [(c, true)])
  | .error _, s' => ∃ k, 0 < k ∧ k ≤ n + 1 ∧ s' = s.logged (List.replicate k (c, false))

theorem step_attempted (n : ℕ) (c : Call E) (f : Option Err) (s : Store E) :
    Attempted etag n c s (step etag c f s).1 (step etag c f s).2 := by
  cases f with
  | some e => exact ⟨1, by omega, by omega, rfl⟩
  | none =>
    show Attempted etag n c s (serve etag c s).1 ((serve etag c s).2.logged [(c, (serve etag c s).1.isOk)])
    cases hs : serve etag c s with
    | mk r s₁ =>
      cases r with
      | ok a => exact ⟨0, by omega, s₁, hs, rfl⟩
      | error e =>
        have hsame := serve_error etag (c := c) (s := s) (e := e) (by rw [hs])
        rw [hs] at hsame
        exact ⟨1, by omega, by omega, by rw [show s₁ = s from hsame]; rfl⟩

theorem wp_retrying (n : ℕ) (c : Call E) (s : Store E) :
    (retrying (Prog.perform c) n).wp (step etag) (fun _ _ => True) (Attempted etag n c s) s := by
  induction n generalizing s with
  | zero => exact fun f => ⟨trivial, step_attempted etag 0 c f s⟩
  | succ n ih =>
    refine Prog.wp_seq (R := Attempted etag 0 c s) (fun f => ⟨trivial, step_attempted etag 0 c f s⟩) fun r s' hr => ?_
    cases r with
    | ok a =>
      obtain ⟨k, hk, s₁, hserve, rfl⟩ := hr
      exact ⟨k, by omega, s₁, hserve, rfl⟩
    | error e =>
      obtain ⟨k, hpos, hk, rfl⟩ := hr
      obtain rfl : k = 1 := by omega
      show (if e.sleeps then retrying (Prog.perform c) n else pure (.error e)).wp _ _ _ _
      split
      · refine Prog.wp_post (ih _) fun r' s'' h => ?_
        cases r' with
        | ok a =>
          obtain ⟨k, hk, s₁, hserve, rfl⟩ := h
          rw [serve_logged] at hserve
          obtain ⟨h1, rfl⟩ := Prod.mk.inj hserve
          refine ⟨k + 1, by omega, (serve etag c s).2, Prod.ext h1 rfl, ?_⟩
          rw [logged_logged, List.replicate_succ]
          rfl
        | error e' =>
          obtain ⟨k, hpos, hk, rfl⟩ := h
          refine ⟨k + 1, by omega, by omega, ?_⟩
          rw [logged_logged, List.replicate_succ]
          rfl
      · exact ⟨1, by omega, by omega, rfl⟩

/-- how a call of the client may end -/
def Called (etag : ℕ → ℕ → Bytes → E) (c : Call E) (s : Store E) : Except Err (Ret c) → Store E → Prop
  | .ok a, s' => ∃ l s₁, Tried [c] l ∧ serve etag c s = (.ok a, s₁) ∧ s' = s₁.logged l
  | .error _, s' => ∃ l, (∀ e ∈ l, e = (c, false)) ∧ s' = s.logged l

theorem wp_client (c : Call E) (s : Store E) : (client c).wp (step etag) (fun _ _ => True) (Called etag c s) s := by
  refine Prog.wp_post (wp_retrying etag 4 c s) fun r s' h => ?_
  cases r with
  | ok a =>
    obtain ⟨k, hk, s₁, hserve, rfl⟩ := h
    exact ⟨_, s₁, Tried.one c hk, hserve, rfl⟩
  | error e =>
    obtain ⟨k, -, -, rfl⟩ := h
    exact ⟨_, fun e he => List.eq_of_mem_replicate he, rfl⟩

theorem wp_andThen {α β : Type} {p : Prog (Call E) Res (Except Err α)} {k : α → Prog (Call E) Res (Except Err β)}
    {R : Except Err α → Store E → Prop} {Q : Except Err β → Store E → Prop} {s : Store E}
    (hp : p.wp (step etag) (fun _ _ => True) R s)
    (hk : ∀ a s', R (.ok a) s' → (k a).wp (step etag) (fun _ _ => True) Q s')
    (herr : ∀ e s', R (.error e) s' → Q (.error e) s') : (andThen p k).wp (step etag) (fun _ _ => True) Q s := by
  refine Prog.wp_seq hp fun r s' h => ?_
  cases r with
  | ok a => exact hk a s' h
  | error e => exact herr e s' h

/-! ## the parts -/

/-- `data` cut into pieces of `n` bytes, of which the last one may be shorter -/
structure IsChunks (n : ℕ) (chunks : List Bytes) (data : Bytes) : Prop where
  flatten : chunks.flatten = data
  full : ∀ c ∈ chunks.dropLast, c.length = n
  size : ∀ c ∈ chunks, c ≠ [] ∧ c.length ≤ n

/-- the list that completes the upload, from the part `number` on -/
def partsOf (etag : ℕ → ℕ → Bytes → E) (id : ℕ) : ℕ → List Bytes → List (Part E)
  | _, [] => []
  | number, c :: cs => ⟨etag id number c, number⟩ :: partsOf etag id (number + 1) cs

/-- the calls that upload the parts, from the part `number` on -/
def uploadsOf (p : Place) (id : ℕ) : ℕ → List Bytes → List (Call E)
  | _, [] => []
  | number, c :: cs => .uploadPart p id number c :: uploadsOf p id (number + 1) cs

/-- the parts in the store -/
def storedAfter (stored : ℕ → Option Bytes) : ℕ → List Bytes → ℕ → Option Bytes
  | _, [] => stored
  | number, c :: cs => storedAfter (Function.update stored number (some c)) (number + 1) cs

theorem storedAfter_below (stored : ℕ → Option Bytes) (number : ℕ) (cs : List Bytes) {m : ℕ} (hm : m < number) :
    storedAfter stored number cs m = stored m := by
  induction cs generalizing stored number with
  | nil => rfl
  | cons c cs ih =>
    rw [storedAfter, ih _ _ (by omega), Function.update_of_ne (by omega)]

/-- the parts as they are listed make the file -/
theorem assemble_parts (id : ℕ) (stored : ℕ → Option Bytes) (cs : List Bytes) {number last : ℕ}
    (hlast : last < number) :
    assemble etag id (storedAfter stored number cs) last (partsOf etag id number cs) = some cs.flatten := by
  induction cs generalizing stored number last with
  | nil => rfl
  | cons c cs ih =>
    have hhere : storedAfter (Function.update stored number (some c)) (number + 1) cs number = some c := by
      rw [storedAfter_below _ _ _ (by omega), Function.update_self]
    rw [partsOf, storedAfter, assemble, if_pos hlast, hhere]
    simp only [if_true]
    rw [ih _ (by omega)]
    rfl

/-- an upload is completed if there is a part -/
theorem complete_parts (id : ℕ) (stored : ℕ → Option Bytes) (cs : List Bytes) :
    complete etag id (storedAfter stored 1 cs) (partsOf etag id 1 cs) =
      if cs = [] then .error malformedXml else .ok cs.flatten := by
  have hassemble := assemble_parts etag id stored cs Nat.zero_lt_one
  unfold complete
  rw [hassemble]
  cases cs <;> rfl

theorem isChunks_cons {n : ℕ} {rest : Bytes} {cs : List Bytes} (hn : 0 < n) (hrest : rest ≠ [])
    (h : IsChunks n cs (rest.drop n)) : IsChunks n (rest.take n :: cs) rest := by
  have hpos := List.length_pos_iff.mpr hrest
  refine ⟨?_, fun c hc => ?_, fun c hc => ?_⟩
  · rw [List.flatten_cons, h.flatten, List.take_append_drop]
  · cases cs with
    | nil => simp at hc
    | cons d cs =>
      rw [List.dropLast_cons_cons] at hc
      rcases List.mem_cons.mp hc with rfl | hc
      · -- there is something behind the piece
        have hd := List.length_pos_iff.mpr (h.size d List.mem_cons_self).1
        have hlen := congrArg List.length h.flatten
        rw [List.flatten_cons, List.length_append, List.length_drop] at hlen
        rw [List.length_take]
        omega
      · exact h.full c hc
  · rcases List.mem_cons.mp hc with rfl | hc
    · refine ⟨?_, by rw [List.length_take]; omega⟩
      intro hnil
      have hlen := congrArg List.length hnil
      rw [List.length_take, List.length_nil] at hlen
      omega
    · exact h.size c hc

/-- the loop over the parts, of an upload that is open -/
theorem wp_uploadParts {chunkSize : ℤ} (hsize : 0 < chunkSize) (p : Place) (id : ℕ) (fuel : ℕ) (rest : Bytes)
    (hfuel : rest.length ≤ fuel) (number : ℕ) (parts : List (Part E)) (stored : ℕ → Option Bytes) (s : Store E)
    (hs : s.uploads id = some ⟨p, stored⟩) :
    (uploadParts chunkSize p id fuel rest number parts).wp (step etag) (fun _ _ => True) (fun r s' =>
      match r with
      | .ok parts' => ∃ chunks l, IsChunks chunkSize.toNat chunks rest ∧
          parts' = parts ++ partsOf etag id number chunks ∧
          Tried (uploadsOf p id number chunks) l ∧
          s'.uploads id = some ⟨p, storedAfter stored number chunks⟩ ∧ s'.objects = s.objects ∧
          s'.next = s.next ∧ s'.log = s.log ++ l
      | .error _ => s'.objects = s.objects ∧ ∃ l, s'.log = s.log ++ l) s := by
  induction fuel generalizing rest number parts stored s with
  | zero =>
    obtain rfl := List.length_eq_zero_iff.mp (Nat.le_zero.mp hfuel)
    exact ⟨[], [], ⟨rfl, by simp, by simp⟩, by rw [partsOf, List.append_nil], .nil, hs, rfl, rfl,
      by rw [List.append_nil]⟩
  | succ fuel ih =>
    have hread : read chunkSize rest = rest.take chunkSize.toNat := by
      rw [read, if_neg (by omega)]
    have hn : 0 < chunkSize.toNat := by omega
    rcases eq_or_ne rest [] with rfl | hrest
    · rw [uploadParts, hread, List.take_nil]
      exact ⟨[], [], ⟨rfl, by simp, by simp⟩, by rw [partsOf, List.append_nil], .nil, hs, rfl, rfl,
        by rw [List.append_nil]⟩
    · have hpos := List.length_pos_iff.mpr hrest
      have hchunk : (rest.take chunkSize.toNat).isEmpty = false := by
        rw [List.isEmpty_eq_false_iff, ← List.length_pos_iff, List.length_take]
        omega
      have hdrop : rest.drop (rest.take chunkSize.toNat).length = rest.drop chunkSize.toNat := by
        rw [List.length_take]
        rcases Nat.le_total chunkSize.toNat rest.length with h | h
        · rw [Nat.min_eq_left h]
        · rw [Nat.min_eq_right h, List.drop_length, List.drop_of_length_le h]
      rw [uploadParts, hread]
      simp only [hchunk, Bool.false_eq_true, if_false, hdrop]
      refine wp_andThen etag (wp_client etag _ s) (fun tag s' h => ?_) fun e s' h => ?_
      · obtain ⟨l, s₁, htried, hserve, rfl⟩ := h
        simp only [serve, hs, if_true] at hserve
        obtain ⟨htag, rfl⟩ := Prod.mk.inj hserve
        obtain rfl := Except.ok.inj htag
        refine Prog.wp_post (ih (rest.drop chunkSize.toNat) (by rw [List.length_drop]; omega) (number + 1) _
          (Function.update stored number (some (rest.take chunkSize.toNat))) _ (Function.update_self ..)) ?_
        rintro (e | parts') s' h
        · obtain ⟨hobjects, l', hl'⟩ := h
          exact ⟨hobjects, l ++ l', by rw [hl', ← List.append_assoc]; rfl⟩
        · obtain ⟨chunks, l', hchunks, rfl, htried', hup, hobjects, hnext, hl'⟩ := h
          refine ⟨rest.take chunkSize.toNat :: chunks, l ++ l', isChunks_cons hn hrest hchunks, ?_,
            htried.append htried', hup, hobjects, hnext, ?_⟩
          · rw [List.append_assoc]
            rfl
          · rw [hl', ← List.append_assoc]
            rfl
      · obtain ⟨l, -, rfl⟩ := h
        exact ⟨rfl, l, rfl⟩

/-! ## the upload -/

/-- the comparison of the sizes only asks for the size -/
theorem wp_verifySize (p : Place) (size : ℕ) (s : Store E) :
    (verifySize p size).wp (step etag) (fun _ _ => True) (fun r s' =>
      match r with
      | .ok _ => ∃ l, Tried [.headObject p] l ∧ s' = s.logged l
      | .error _ => ∃ l, (∀ e ∈ l, e.1 = .headObject p) ∧ s' = s.logged l) s := by
  refine wp_andThen etag (wp_client etag _ s) (fun (remote : ℕ) s' h => ?_) fun e s' h => ?_
  · obtain ⟨l, s₁, htried, hserve, rfl⟩ := h
    have hsame : s₁ = s := by
      simp only [serve] at hserve
      split at hserve
      · exact (Prod.mk.inj hserve).2.symm
      · exact (Prod.mk.inj hserve).2.symm
    subst hsame
    by_cases hsize : remote = size
    · rw [if_neg (not_not_intro hsize)]
      exact ⟨l, htried, rfl⟩
    · rw [if_pos hsize]
      exact ⟨l, fun e he => List.mem_singleton.mp (htried.mem he), rfl⟩
  · obtain ⟨l, hl, rfl⟩ := h
    exact ⟨l, fun e he => by rw [hl e he], rfl⟩

/-- how an upload to `p` may end: every call it needs succeeded in time, or it failed, and then an open upload has
been aborted -/
def Ended (data : Bytes) (p : Place) (id : ℕ) (s : Store E) (cs : List (Call E) → Prop) :
    Except Err Unit → Store E → Prop
  | .ok _, s' => ∃ calls l, cs calls ∧ Tried calls l ∧ s'.log = s.log ++ l ∧
      s'.objects = Function.update s.objects p (some data)
  | .error _, s' => ∃ l, s'.log = s.log ++ l ∧ ((.createMultipartUpload p, true) ∈ l →
      (∀ parts, (.completeMultipartUpload p id parts, true) ∉ l) →
      (∃ b, (.abortMultipartUpload p id, b) ∈ l) ∧ s'.objects = s.objects)

theorem wp_putSingle (p : Place) (data : Bytes) (s : Store E) :
    (putSingle p data).wp (step etag) (fun _ _ => True)
      (Ended data p s.next s fun calls => calls = [.putObject p data, .headObject p]) s := by
  refine wp_andThen etag (wp_client etag _ s) (fun _ s' h => ?_) fun e s' h => ?_
  · obtain ⟨l, s₁, htried, hserve, rfl⟩ := h
    obtain ⟨-, rfl⟩ := Prod.mk.inj hserve
    refine Prog.wp_post (wp_verifySize etag p data.length _) ?_
    rintro (e | _) s' h
    · obtain ⟨l', hl', rfl⟩ := h
      refine ⟨l ++ l', (List.append_assoc ..), fun hcreate => ?_⟩
      rcases List.mem_append.mp hcreate with h | h
      · cases List.mem_singleton.mp (htried.mem h)
      · cases hl' _ h
    · obtain ⟨l', htried', rfl⟩ := h
      exact ⟨_, l ++ l', rfl, htried.append htried', List.append_assoc .., rfl⟩
  · obtain ⟨l, hl, rfl⟩ := h
    exact ⟨l, rfl, fun hcreate => by cases hl _ hcreate⟩

/-- the calls of an upload in parts -/
def multipartCalls (etag : ℕ → ℕ → Bytes → E) (p : Place) (id : ℕ) (chunks : List Bytes) : List (Call E) :=
  .createMultipartUpload p :: (uploadsOf p id 1 chunks ++
    [.completeMultipartUpload p id (partsOf etag id 1 chunks), .headObject p])

/-- the parts and the call that completes an upload that is open and empty -/
theorem wp_complete {chunkSize : ℤ} (hsize : 0 < chunkSize) (p : Place) (id : ℕ) (data : Bytes) (s : Store E)
    (hs : s.uploads id = some ⟨p, fun _ => none⟩) :
    (andThen (uploadParts chunkSize p id data.length data 1 []) fun parts =>
        client (.completeMultipartUpload p id parts)).wp (step etag) (fun _ _ => True) (fun r s' =>
      match r with
      | .ok _ => ∃ chunks l, IsChunks chunkSize.toNat chunks data ∧
          Tried (uploadsOf p id 1 chunks ++ [.completeMultipartUpload p id (partsOf etag id 1 chunks)]) l ∧
          s'.objects = Function.update s.objects p (some data) ∧ s'.log = s.log ++ l
      | .error _ => s'.objects = s.objects ∧ ∃ l, s'.log = s.log ++ l) s := by
  refine wp_andThen etag (wp_uploadParts etag hsize p id data.length data le_rfl 1 [] _ s hs)
    (fun parts s' h => ?_) fun e s' h => h
  obtain ⟨chunks, l, hchunks, rfl, htried, hup, hobjects, -, hl⟩ := h
  rw [List.nil_append]
  refine Prog.wp_post (wp_client etag (.completeMultipartUpload p id (partsOf etag id 1 chunks)) s') ?_
  rintro (e | _) s'' h
  · obtain ⟨l', -, rfl⟩ := h
    exact ⟨hobjects, l ++ l', by rw [← List.append_assoc, ← hl]; rfl⟩
  · obtain ⟨l', s₁, htried', hserve, rfl⟩ := h
    have hcomplete := complete_parts etag id (fun _ => none) chunks
    by_cases hnil : chunks = []
    · -- an upload without parts is not completed
      rw [if_pos hnil] at hcomplete
      simp only [serve, hup, if_true, hcomplete] at hserve
      cases (Prod.mk.inj hserve).1
    rw [if_neg hnil, hchunks.flatten] at hcomplete
    simp only [serve, hup, if_true, hcomplete] at hserve
    obtain ⟨-, rfl⟩ := Prod.mk.inj hserve
    refine ⟨chunks, l ++ l', hchunks, htried.append htried', ?_, ?_⟩
    · rw [← hobjects]
      rfl
    · rw [← List.append_assoc, ← hl]
      rfl

theorem step_abort (p : Place) (id : ℕ) (f : Option Err) (s : Store E) :
    ∃ b, (step etag (.abortMultipartUpload p id) f s).2.objects = s.objects ∧
      (step etag (.abortMultipartUpload p id) f s).2.log = s.log ++ [(.abortMultipartUpload p id, b)] := by
  cases f with
  | some e => exact ⟨false, rfl, rfl⟩
  | none =>
    simp only [step, serve]
    cases s.uploads id with
    | none => exact ⟨false, rfl, rfl⟩
    | some u => exact ⟨true, rfl, rfl⟩

theorem wp_putMultipart {chunkSize : ℤ} (hsize : 0 < chunkSize) (p : Place) (data : Bytes) (s : Store E) :
    (putMultipart chunkSize p data).wp (step etag) (fun _ _ => True)
      (Ended data p s.next s fun calls => ∃ chunks, IsChunks chunkSize.toNat chunks data ∧
        calls = multipartCalls etag p s.next chunks) s := by
  refine wp_andThen etag (wp_client etag _ s) (fun (id : ℕ) s' h => ?_) fun e s' h => ?_
  · obtain ⟨l, s₁, hcreate, hserve, rfl⟩ := h
    obtain ⟨hid, rfl⟩ := Prod.mk.inj hserve
    obtain rfl : s.next = id := Except.ok.inj hid
    refine Prog.wp_seq (wp_complete etag hsize p s.next data _ (Function.update_self ..)) ?_
    rintro (e | _) s' h
    · -- the abort, whether it succeeds or not
      obtain ⟨hobjects, l', hl'⟩ := h
      refine fun f => ⟨trivial, ?_⟩
      obtain ⟨b, hsame, hlog⟩ := step_abort etag p s.next f s'
      refine ⟨l ++ l' ++ [(.abortMultipartUpload p s.next, b)], ?_, fun _ _ => ⟨⟨b, by simp⟩, ?_⟩⟩
      · show (step etag (.abortMultipartUpload p s.next) f s').2.log = _
        rw [hlog, hl', ← List.append_assoc, ← List.append_assoc]
        rfl
      · exact hsame.trans hobjects
    · obtain ⟨chunks, l', hchunks, htried, hobjects, hl'⟩ := h
      have hlog : s'.log = s.log ++ l ++ l' := hl'
      refine Prog.wp_post (wp_verifySize etag p data.length _) ?_
      rintro (e | _) s'' h
      · -- the upload is completed
        obtain ⟨l'', -, rfl⟩ := h
        refine ⟨l ++ l' ++ l'', ?_, fun _ hnone => ?_⟩
        · rw [← List.append_assoc, ← List.append_assoc, ← hlog]
          rfl
        · have hcompleted := htried.succeeded
            (c := .completeMultipartUpload p s.next (partsOf etag s.next 1 chunks)) (by simp)
          exact absurd (by simp [hcompleted]) (hnone (partsOf etag s.next 1 chunks))
      · obtain ⟨l'', htried'', rfl⟩ := h
        refine ⟨_, l ++ l' ++ l'', ⟨chunks, hchunks, rfl⟩, ?_, ?_, hobjects⟩
        · have hall := (hcreate.append htried).append htried''
          rwa [List.append_assoc, List.append_assoc] at hall
        · rw [← List.append_assoc, ← List.append_assoc, ← hlog]
          rfl
  · obtain ⟨l, hl, rfl⟩ := h
    exact ⟨l, rfl, fun hcreate => by cases hl _ hcreate⟩

/-- what is known of an upload of `data` that made the calls `l` and ended with `r` in the store `s'` -/
structure Uploaded (cfg : S3DestinationConfig) (data : Bytes) (key : Str) (s : Store E) (l : List (Call E × Bool))
    (r : Except Err Unit) (s' : Store E) : Prop where
  log : s'.log = s.log ++ l
  /-- an upload that returns has stored the file -/
  stored : r = .ok () → s'.objects (cfg.place key) = some data
  /-- the calls of an upload in parts that succeeded -/
  parts : r = .ok () → cfg.multipartThreshold ≤ data.length →
    ∃ chunks, IsChunks cfg.multipartChunkSize.toNat chunks data ∧
    (l.filter (·.2)).map (·.1) = multipartCalls etag (cfg.place key) s.next chunks
  /-- five failures in a row raise -/
  raises : ∀ a es b, l = a ++ es ++ b → (∀ e ∈ es, e.2 = false) → 5 ≤ es.length → r ≠ .ok ()
  /-- an upload that was created and not completed -/
  aborts : (.createMultipartUpload (cfg.place key), true) ∈ l →
    (∀ parts, (.completeMultipartUpload (cfg.place key) s.next parts, true) ∉ l) →
    r ≠ .ok () ∧ (∃ b, (.abortMultipartUpload (cfg.place key) s.next, b) ∈ l) ∧ s'.objects = s.objects

omit [DecidableEq E] in
/-- one way of the upload, with the calls `cs` if it returns -/
theorem uploaded_of_ended {cfg : S3DestinationConfig} {data : Bytes} {key : Str} {s : Store E}
    {cs : List (Call E) → Prop} {r : Except Err Unit} {s' : Store E}
    (h : Ended data (cfg.place key) s.next s cs r s')
    (hparts : ∀ calls, cs calls → cfg.multipartThreshold ≤ data.length →
      ∃ chunks, IsChunks cfg.multipartChunkSize.toNat chunks data ∧
        calls = multipartCalls etag (cfg.place key) s.next chunks)
    (hcreate : ∀ calls, cs calls → .createMultipartUpload (cfg.place key) ∈ calls →
      ∃ parts, .completeMultipartUpload (cfg.place key) s.next parts ∈ calls) :
    ∃ l, Uploaded etag cfg data key s l r s' := by
  cases r with
  | error e =>
    obtain ⟨l, hlog, haborts⟩ := h
    exact ⟨l, hlog, nofun, nofun, fun _ _ _ _ _ _ => nofun, fun h₁ h₂ => ⟨nofun, haborts h₁ h₂⟩⟩
  | ok a =>
    obtain ⟨calls, l, hcs, htried, hlog, hobjects⟩ := h
    refine ⟨l, hlog, fun _ => ?_, fun _ hbig => ?_, fun a es b hl hes hfive => ?_, fun h₁ h₂ => ?_⟩
    · rw [hobjects, Function.update_self]
    · obtain ⟨chunks, hchunks, hcalls⟩ := hparts calls hcs hbig
      exact ⟨chunks, hchunks, by rw [htried.successes, hcalls]⟩
    · have hfew : Few 0 l := by simpa using htried.few .nil
      have hfour := (hfew.run hl hes).1
      omega
    · obtain ⟨parts, hdone⟩ := hcreate calls hcs (htried.mem h₁)
      exact absurd (htried.succeeded hdone) (h₂ parts)

/-- **under every pattern of failing calls** -/
theorem put_stored (cfg : S3DestinationConfig) (hsize : 0 < cfg.multipartChunkSize) (data : Bytes) (key : Str)
    (s : Store E) (fs : List (Option Err)) :
    ∃ l, Uploaded etag cfg data key s l ((put cfg data key).exec (step etag) none fs s).1
      ((put cfg data key).exec (step etag) none fs s).2 := by
  unfold put
  split
  · rename_i hsmall
    have h := ((Prog.wp_iff_exec none _ _ _).mp (wp_putSingle etag (cfg.place key) data s) fs).2
    refine uploaded_of_ended etag h (fun calls _ hbig => absurd hsmall (not_lt.mpr hbig)) fun calls hcalls hmem => ?_
    rw [hcalls] at hmem
    simp at hmem
  · have h := ((Prog.wp_iff_exec none _ _ _).mp
      (wp_putMultipart etag hsize (cfg.place key) data s) fs).2
    refine uploaded_of_ended etag h (fun calls hcalls _ => hcalls) fun calls hcalls _ => ?_
    obtain ⟨chunks, -, rfl⟩ := hcalls
    exact ⟨partsOf etag s.next 1 chunks, by simp [multipartCalls]⟩

/-- two bytes a part -/
theorem put_stored_three :
    (0 : ℤ) < 2 ∧ ∃ l, Uploaded (fun id number _ => (id, number)) ⟨"b".toList, [], 1, 2⟩ "abc".toUTF8.toList "k".toList
      ⟨fun _ => none, fun _ => none, 0, []⟩ l
      ((put ⟨"b".toList, [], 1, 2⟩ "abc".toUTF8.toList "k".toList).exec (step fun id number _ => (id, number)) none
        [none, some ⟨"503".toList, true⟩] ⟨fun _ => none, fun _ => none, 0, []⟩).1
      ((put ⟨"b".toList, [], 1, 2⟩ "abc".toUTF8.toList "k".toList).exec (step fun id number _ => (id, number)) none
        [none, some ⟨"503".toList, true⟩] ⟨fun _ => none, fun _ => none, 0, []⟩).2 :=
  ⟨by decide, put_stored _ _ (by decide) _ _ _ _⟩

end
end S3Upload
end BackupHelper
