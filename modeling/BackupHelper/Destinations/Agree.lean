import BackupHelper.Destinations.Refine

/-!
# The two destinations answer alike

Where nothing fails and no key is another one's directory, a root directory and a prefix of a bucket that
hold the same files answer every sequence of requests alike.

* `calm_put`                  an upload succeeds where no call fails;
* `Apart`, `Roomy`            keys of which none is another one's directory, and a disk with room for them;
* `destinations_agree`        **both destinations give the same answers**.
-/

namespace BackupHelper
open Text Files Disk Effects KeyStore

/-! ## an S3 destination whose calls do not fail -/

namespace S3Destination
open S3Upload

section
variable {E : Type} [DecidableEq E] (etag : ℕ → ℕ → Bytes → E)

theorem calm_retrying {α : Type} {fn : Prog (Call E) S3Upload.Res (Except Err α)} {s s' : Store E} {a : α}
    (h : fn.exec (lossy etag) none [] s = (.ok a, s')) (n : ℕ) :
    (S3Upload.retrying fn n).exec (lossy etag) none [] s = (.ok a, s') := by
  cases n with
  | zero => exact h
  | succ n =>
    unfold S3Upload.retrying
    rw [Prog.exec_bind, h]
    rfl

theorem calm_client {c : Call E} {s s' : Store E} {a : Ret c} (h : serve etag c s = (.ok a, s')) :
    (client c).exec (lossy etag) none [] s = (.ok a, s') := by
  have hperform : (Prog.perform c : Prog (Call E) S3Upload.Res (Except Err (Ret c))).exec (lossy etag) none [] s =
      (.ok a, s') := h
  exact calm_retrying etag hperform 4

theorem calm_andThen {α β : Type} {p : Prog (Call E) S3Upload.Res (Except Err α)}
    {k : α → Prog (Call E) S3Upload.Res (Except Err β)}
    {s s' : Store E} {a : α} (h : p.exec (lossy etag) none [] s = (.ok a, s')) :
    (andThen p k).exec (lossy etag) none [] s = (k a).exec (lossy etag) none [] s' := by
  unfold andThen
  rw [Prog.exec_bind, h]

theorem calm_verifySize {p : Place} {body : Bytes} {s : Store E} (h : s.objects p = some body) :
    (verifySize p body.length).exec (lossy etag) none [] s = (.ok (), s) := by
  have hserve : serve etag (.headObject p) s = (.ok body.length, s) := by
    simp only [serve, h]
  refine (calm_andThen etag (calm_client etag hserve)).trans ?_
  show ((if body.length ≠ body.length then .error sizeMismatch else .ok () : Except Err Unit), s) = _
  rw [if_neg (not_not_intro rfl)]

theorem calm_putSingle (p : Place) (data : Bytes) (s : Store E) :
    ((putSingle p data).exec (lossy etag) none [] s).1 = .ok () := by
  have hserve : serve etag (.putObject p data) s = (.ok (), s.setObject p data) := rfl
  have hobject : (s.setObject p data).objects p = some data := Function.update_self ..
  have hverify := calm_verifySize etag hobject
  have hput := calm_andThen (k := fun _ => verifySize p data.length) etag (calm_client etag hserve)
  exact congrArg Prod.fst (hput.trans hverify)

/-- an open upload takes every part -/
theorem calm_uploadParts (chunkSize : ℤ) (p : Place) (id : ℕ) (fuel : ℕ) (rest : Bytes) (number : ℕ)
    (parts : List (S3Upload.Part E)) (stored : ℕ → Option Bytes) (s : Store E) (hs : s.uploads id = some ⟨p, stored⟩) :
    ∃ parts' s',
      (uploadParts chunkSize p id fuel rest number parts).exec (lossy etag) none [] s = (.ok parts', s') := by
  induction fuel generalizing rest number parts stored s with
  | zero => exact ⟨parts, s, rfl⟩
  | succ fuel ih =>
    unfold uploadParts
    dsimp only
    split
    · exact ⟨parts, s, rfl⟩
    · have hserve : serve etag (.uploadPart p id number (S3Upload.read chunkSize rest)) s =
          (.ok (etag id number (S3Upload.read chunkSize rest)), s.setUpload id
            (some ⟨p, Function.update stored number (some (S3Upload.read chunkSize rest))⟩)) := by
        simp only [serve, hs, if_true]
      obtain ⟨parts', s', hrest⟩ := ih (rest.drop (S3Upload.read chunkSize rest).length) (number + 1)
        (parts ++ [⟨etag id number (S3Upload.read chunkSize rest), number⟩]) _ (s.setUpload id
          (some ⟨p, Function.update stored number (some (S3Upload.read chunkSize rest))⟩)) (Function.update_self ..)
      have hput := calm_andThen (k := fun (tag : E) => uploadParts chunkSize p id fuel
        (rest.drop (S3Upload.read chunkSize rest).length) (number + 1) (parts ++ [⟨tag, number⟩])) etag
        (calm_client etag hserve)
      exact ⟨parts', s', hput.trans hrest⟩

theorem calm_putMultipart {chunkSize : ℤ} (hsize : 0 < chunkSize) (p : Place) {data : Bytes} (hdata : data ≠ [])
    (s : Store E) :
    ((putMultipart chunkSize p data).exec (lossy etag) none [] s).1 = .ok () := by
  let t : Store E := { s.setUpload s.next (some ⟨p, fun _ => none⟩) with next := s.next + 1 }
  have hserve : serve etag (.createMultipartUpload p) s = (.ok s.next, t) := rfl
  have hopen : t.uploads s.next = some ⟨p, fun _ => none⟩ := Function.update_self ..
  -- the parts, and what they are
  obtain ⟨parts, t', hparts⟩ := calm_uploadParts etag chunkSize p s.next data.length data 1 [] _ t hopen
  have hwp := Prog.exec_wp none (wp_uploadParts etag hsize p s.next data.length data le_rfl 1 [] _ t rfl hopen) []
  rw [hparts] at hwp
  obtain ⟨chunks, hflatten, rfl, hup, -⟩ := hwp
  rw [List.nil_append] at hparts
  have hup' : t'.uploads s.next = some ⟨p, storedAfter (fun _ => none) 1 chunks⟩ := hup
  have hcomplete : serve etag (.completeMultipartUpload p s.next (partsOf etag s.next 1 chunks)) t' =
      (.ok (), (t'.setObject p data).setUpload s.next none) := by
    have hcomplete := complete_parts etag s.next (fun _ => none) chunks
    have hne : chunks ≠ [] := by
      rintro rfl
      exact hdata hflatten.symm
    rw [if_neg hne, hflatten] at hcomplete
    simp only [serve, hup', if_true, hcomplete]
  have hobject : ((t'.setObject p data).setUpload s.next none).objects p = some data := Function.update_self ..
  have hdone := (calm_andThen (k := fun parts => client (.completeMultipartUpload p s.next parts)) etag hparts).trans
    (calm_client etag hcomplete)
  refine congrArg Prod.fst ((calm_andThen etag (calm_client etag hserve)).trans ?_ :
    (putMultipart chunkSize p data).exec (lossy etag) none [] s = (.ok (), (t'.setObject p data).setUpload s.next none))
  rw [Prog.exec_bind, hdone]
  exact calm_verifySize etag hobject

/-- a file with nothing in it is below the threshold -/
theorem calm_put (cfg : S3DestinationConfig) (hsize : 0 < cfg.multipartChunkSize)
    (hthreshold : 0 < cfg.multipartThreshold)
    (data : Bytes) (key : Str) (s : Store E) :
    ((S3Upload.put cfg data key).exec (lossy etag) none [] s).1 = .ok () := by
  unfold S3Upload.put
  split
  · exact calm_putSingle etag (cfg.place key) data s
  · rename_i hbig
    have hdata : data ≠ [] := by
      rintro rfl
      exact hbig hthreshold
    exact calm_putMultipart etag hsize (cfg.place key) hdata s

theorem calm_again {pg : Pager} {α : Type} {fn : Prog Ask Reply (Except Err α)} {s s' : Service} {a : α}
    (h : fn.exec (reply pg) none [] s = (.ok a, s')) (n : ℕ) :
    (retrying fn n).exec (reply pg) none [] s = (.ok a, s') := by
  cases n with
  | zero => exact h
  | succ n =>
    unfold retrying
    rw [Prog.exec_bind, h]
    rfl

/-- only to read a missing key fails -/
theorem smoothly (pg : Pager) (cfg : S3DestinationConfig) (hsize : 0 < cfg.multipartChunkSize)
    (hthreshold : 0 < cfg.multipartThreshold) (Inv : Service → Prop) (For : Req Bytes → Prop) :
    (machine etag pg cfg).Smoothly [] Inv For := by
  intro r s _ _ hfailed
  cases r with
  | put k b =>
    have hok := calm_put etag cfg hsize hthreshold b k s.store
    have hdone : answer (fun _ => Ans.done)
        ((S3Upload.put cfg b k).exec (lossy etag) none [] (s.store (E := E))).1 = .failed := hfailed
    rw [hok] at hdone
    cases hdone
  | get k =>
    refine ⟨k, rfl, ?_⟩
    by_contra hn
    obtain ⟨b, hb⟩ := Option.ne_none_iff_exists'.mp hn
    have hfetch : (Prog.perform (Ask.downloadFile (cfg.place k)) : Prog Ask Reply (Except Err Bytes)).exec (reply pg)
        none [] s = (.ok b, s) := by
      have hview : view cfg s k = some b := hb
      show reply pg (.downloadFile (cfg.place k)) none s = (.ok b, s)
      rw [reply_downloadFile]
      show ((view cfg s k).elim (Except.error noSuchKey : Except Err Bytes) Except.ok, s) = _
      rw [hview]
      rfl
    have hvalue : answer Ans.value ((get cfg k).exec (reply pg) none [] s).1 = .failed := hfailed
    unfold get callWithRetry at hvalue
    rw [calm_again hfetch] at hvalue
    cases hvalue
  | list pfx =>
    have hkeys : Ans.keys (sorted (collect cfg (pg.pages (s.keys cfg.bucket (cfg.prefix_ ++ pfx))))) = .failed := hfailed
    cases hkeys
  | delete k => cases (show Ans.done = .failed from hfailed)
  | holds k =>
    have hyes : answer Ans.yes ((exists_ cfg k).exec (lossy etag) none [] (s.store (E := E))).1 = .failed := hfailed
    rw [exec_exists etag cfg k [] s fun l hl => absurd hl List.not_mem_nil] at hyes
    cases hyes

end
end S3Destination

/-! ## a local destination with room for the keys -/

namespace LocalDestination

/-- keys of which none is another one's directory -/
structure Apart (P : Str → Prop) : Prop where
  canonical : ∀ k, P k → canonical k
  fits : ∀ k, P k → ∀ s ∈ parts '/' k, fits s = true
  apart : ∀ k k', P k → P k' → parts '/' k <+: parts '/' k' → k = k'

/-- names without a slash -/
theorem apart_names : Apart fun k => Name k ∧ BackupHelper.fits k = true where
  canonical k hk := canonical_name hk.1
  fits k hk s hs := by
    rw [parts_name hk.1, List.mem_singleton] at hs
    rw [hs]
    exact hk.2
  apart k k' hk hk' hpre := by
    rw [parts_name hk.1, parts_name hk'.1] at hpre
    exact (List.cons_prefix_cons.mp hpre).1

/-- where a key leads there is no directory, and no file on the way -/
structure Roomy (root : Path) (P : Str → Prop) (d : Disk Bytes) : Prop where
  free : ∀ k, P k → d.isDir (root ++ parts '/' k) = false
  way : ∀ k, P k → ∀ q, q <+: root ++ parts '/' k → q ≠ root ++ parts '/' k → contents (d.node q) = none

/-- a request about one of the keys -/
def Asks (P : Str → Prop) : Req Bytes → Prop
  | .put k _ => P k
  | .get k => P k
  | .list _ => True
  | .delete k => P k
  | .holds k => P k

theorem Apart.keyed {P : Str → Prop} (hP : Apart P) {r : Req Bytes} (hr : Asks P r) : Keyed r := by
  cases r with
  | put k b => exact hP.canonical k hr
  | get k => exact hP.canonical k hr
  | list pfx => trivial
  | delete k => exact hP.canonical k hr
  | holds k => exact hP.canonical k hr

section
variable {root : Path} {P : Str → Prop} {d : Disk Bytes}

theorem isDir_eq {d d' : Disk Bytes} {q : Path} (h : d'.node q = d.node q) : d'.isDir q = d.isDir q := by
  unfold Disk.isDir
  rw [h]

/-- a put without a fault -/
theorem calm_put (hroot : ∀ s ∈ root, Name s ∧ fits s = true) (hP : Apart P) (hd : Roomy root P d) {k : Str} (hk : P k)
    (b : Bytes) : ∃ d', Disk.Made (Files.places [] (root ++ parts '/' k).dropLast) d d' ∧
      put root b k .calm d = (true, d'.put (root ++ parts '/' k) (.file b)) := by
  have hcanonical := hP.canonical k hk
  have hpath : path root k = root ++ parts '/' k := hcanonical.path
  have hnames : ∀ s ∈ root ++ parts '/' k, Name s ∧ fits s = true := by
    intro s hs
    rcases List.mem_append.mp hs with h | h
    · exact hroot s h
    · exact ⟨hcanonical.names s h, hP.fits k hk s h⟩
  have hup : up ∉ root ++ parts '/' k := up_notMem_of_names fun s hs => (hnames s hs).1
  have hup' : up ∉ (root ++ parts '/' k).dropLast := fun h => hup (List.mem_of_mem_dropLast h)
  have hne : root ++ parts '/' k ≠ [] := by simp [hcanonical.1]
  have hshort : ¬ root ++ parts '/' k <+: (root ++ parts '/' k).dropLast := by
    intro h
    have hlen := h.length_le
    have hpos := List.length_pos_iff.mpr hne
    rw [List.length_dropLast] at hlen
    omega
  -- the directories can be made
  obtain ⟨d', hmk⟩ : ∃ d', d.mkdirs fits [] (root ++ parts '/' k).dropLast = some d' := by
    refine exists_mkdirs (isDir_nil d) (fun s hs => (hnames s (List.mem_of_mem_dropLast hs)).2) fun q hq b' hn => ?_
    have hpre := (mem_places_plain hup').mp hq
    have hnone := hd.way k hk q (hpre.trans (List.dropLast_prefix _)) fun e => hshort (e ▸ hpre)
    rw [hn] at hnone
    cases hnone
  obtain ⟨hmade, hdirs, -⟩ := mkdirs_spec hmk
  have hfree : d'.isDir (root ++ parts '/' k) = false := by
    rcases hmade.same (root ++ parts '/' k) with he | ⟨hplace, -, -⟩
    · rw [isDir_eq he]
      exact hd.free k hk
    · exact absurd ((mem_places_plain hup').mp hplace) hshort
  have hwrite : d'.write fits [] (root ++ parts '/' k) b = some (d'.put (root ++ parts '/' k) (.file b)) := by
    refine Disk.write_eq_some.mpr ⟨?_, fun s hs => (hnames s hs).2, ?_, ?_⟩
    · rw [trail_dropLast hne]
      exact hdirs
    · rw [reach_plain hup]
      exact hfree
    · rw [reach_plain hup]
      rfl
  refine ⟨d', hmade, ?_⟩
  unfold put mkParent
  rw [hpath]
  dsimp only
  rw [hmk]
  show copyfile (root ++ parts '/' k) b .calm d' = _
  unfold copyfile
  rw [show Fault.copy b .calm = b from rfl, hwrite]
  rfl

/-- with room on the way nothing stands in it -/
theorem calm_find {p : Path} {segs : List Str} (hup : up ∉ segs) (hfits : ∀ s ∈ segs, fits s = true)
    (hway : ∀ q, q <+: segs → q ≠ segs → contents (d.node (p ++ q)) = none) :
    find d p segs = .missing ∨ find d p segs = .here (p ++ segs) := by
  induction segs generalizing p with
  | nil =>
    right
    rw [List.append_nil]
    rfl
  | cons s segs ih =>
    rw [List.forall_mem_cons] at hfits
    have hs : s ≠ up := fun e => hup (e ▸ List.mem_cons_self)
    have hnone := hway [] List.nil_prefix (List.cons_ne_nil s segs).symm
    rw [List.append_nil] at hnone
    have hassoc : p ++ s :: segs = p ++ [s] ++ segs := by simp
    unfold find
    cases hn : d.node p with
    | none => exact Or.inl rfl
    | some n =>
      cases n with
      | file b =>
        rw [hn] at hnone
        cases hnone
      | dir =>
        show (if fits s = true then find d (step p s) segs else .refused) = _ ∨
          (if fits s = true then find d (step p s) segs else .refused) = _
        rw [if_pos hfits.1, step, if_neg hs, hassoc]
        refine ih (fun h => hup (List.mem_cons_of_mem _ h)) hfits.2 fun q hq hne => ?_
        have hnone' := hway (s :: q) (List.cons_prefix_cons.mpr ⟨rfl, hq⟩) fun e => hne (List.cons.inj e).2
        rwa [show p ++ s :: q = p ++ [s] ++ q by simp] at hnone'

/-- a delete without a fault -/
theorem calm_delete (hroot : ∀ s ∈ root, Name s ∧ fits s = true) (hP : Apart P) (hd : Roomy root P d) {k : Str}
    (hk : P k) :
    delete root k .calm d = (true, d) ∨ (∃ b, d.node (root ++ parts '/' k) = some (.file b)) ∧
      delete root k .calm d = (true, d.remove (root ++ parts '/' k)) := by
  have hcanonical := hP.canonical k hk
  have hpath : path root k = root ++ parts '/' k := hcanonical.path
  have hup := up_notMem_of_names (path_names (fun s hs => (hroot s hs).1) hcanonical)
  have hfits : ∀ s ∈ path root k, fits s = true := by
    rw [hpath]
    intro s hs
    rcases List.mem_append.mp hs with h | h
    · exact (hroot s h).2
    · exact hP.fits k hk s h
  have hfind := calm_find (p := []) (d := d) hup hfits fun q hq hne => by
    rw [hpath] at hq hne
    exact hd.way k hk q hq hne
  unfold delete
  rcases hfind with h | h
  · rw [h]
    exact Or.inl rfl
  · rw [h, List.nil_append, hpath]
    dsimp only
    have hfree := hd.free k hk
    cases hn : d.node (root ++ parts '/' k) with
    | none => exact Or.inl rfl
    | some n =>
      cases n with
      | file b => exact Or.inr ⟨⟨b, rfl⟩, rfl⟩
      | dir =>
        rw [isDir_iff.mpr hn] at hfree
        cases hfree

/-- a file where one of the keys leads leaves room for the others -/
theorem Roomy.put (hP : Apart P) (hd : Roomy root P d) {d' : Disk Bytes} {k : Str} (hk : P k)
    (hmade : Disk.Made (Files.places [] (root ++ parts '/' k).dropLast) d d') (hup : up ∉ root ++ parts '/' k)
    (b : Bytes) :
    Roomy root P (d'.put (root ++ parts '/' k) (.file b)) := by
  have hne : root ++ parts '/' k ≠ [] := by simp [(hP.canonical k hk).1]
  have hup' : up ∉ (root ++ parts '/' k).dropLast := fun h => hup (List.mem_of_mem_dropLast h)
  refine ⟨fun k' hk' => ?_, fun k' hk' q hq hqne => ?_⟩
  · by_cases he : root ++ parts '/' k' = root ++ parts '/' k
    · rw [he, Disk.isDir, node_put_self hne]
    · rw [isDir_eq (node_put_ne he)]
      rcases hmade.same (root ++ parts '/' k') with hsame | ⟨hplace, -, -⟩
      · rw [isDir_eq hsame]
        exact hd.free k' hk'
      · -- a directory on the way to the one key is not where the other one leads
        have hpre := ((mem_places_plain hup').mp hplace).trans (List.dropLast_prefix _)
        rw [List.prefix_append_right_inj] at hpre
        exact absurd (by rw [hP.apart k' k hk' hk hpre]) he
  · by_cases he : q = root ++ parts '/' k
    · rw [he, List.prefix_append_right_inj] at hq
      exact absurd (by rw [he, hP.apart k k' hk hk' hq]) hqne
    · rw [node_put_ne he, contents_made hmade]
      exact hd.way k' hk' q hq hqne

theorem Roomy.remove (hd : Roomy root P d) (ht : Tidy d) {p : Path} {b : Bytes} (hp : d.node p = some (.file b)) :
    Roomy root P (d.remove p) := by
  have hnot : d.isDir p = false := by rw [Disk.isDir, hp]
  have hne : p ≠ [] := ne_nil_of_not_dir hnot
  refine ⟨fun k' hk' => ?_, fun k' hk' q hq hqne => ?_⟩
  · by_cases he : root ++ parts '/' k' = p
    · rw [he]
      exact isDir_remove_self hne
    · rw [isDir_eq (node_remove_file ht.closed hnot he)]
      exact hd.free k' hk'
  · by_cases he : q = p
    · rw [he, node_remove_self hne]
      rfl
    · rw [node_remove_file ht.closed hnot he]
      exact hd.way k' hk' q hq hqne

/-- asked without faults there stays room -/
theorem Roomy.ask (hroot : ∀ s ∈ root, Name s ∧ fits s = true) (hP : Apart P) {r : Req Bytes} (hr : Asks P r)
    (ht : Tidy d) (hd : Roomy root P d) : Roomy root P ((machine root).ask r .calm d).2 := by
  cases r with
  | put k b =>
    obtain ⟨d', hmade, he⟩ := calm_put hroot hP hd hr b
    have hnames := path_names (fun s hs => (hroot s hs).1) (hP.canonical k hr)
    rw [(hP.canonical k hr).path] at hnames
    show Roomy root P (LocalDestination.put root b k .calm d).2
    rw [he]
    exact hd.put hP hr hmade (up_notMem_of_names hnames) b
  | get k =>
    rw [machine_get]
    exact hd
  | list pfx => exact hd
  | delete k =>
    show Roomy root P (LocalDestination.delete root k .calm d).2
    rcases calm_delete hroot hP hd hr with he | ⟨⟨b, hb⟩, he⟩
    · rw [he]
      exact hd
    · rw [he]
      exact hd.remove ht hb
  | holds k => exact hd

/-- only to read a missing key fails -/
theorem smoothly (hroot : ∀ s ∈ root, Name s ∧ fits s = true) (hP : Apart P) :
    (machine root).Smoothly .calm (fun d => Tidy d ∧ Roomy root P d) (Asks P) := by
  intro r d hr hd hfailed
  cases r with
  | put k b =>
    obtain ⟨d', -, he⟩ := calm_put hroot hP hd.2 hr b
    have hput : (if (LocalDestination.put root b k .calm d).1 then Ans.done else .failed : Ans Bytes) = .failed :=
      hfailed
    rw [he] at hput
    cases hput
  | get k =>
    refine ⟨k, rfl, ?_⟩
    have hget : LocalDestination.get root k .calm d = view root d k := by
      rw [view_find hd.1 (fun s hs => (hroot s hs).1) (hP.canonical k hr)]
      unfold LocalDestination.get
      cases find d [] (path root k) with
      | here q => rfl
      | missing => rfl
      | refused => rfl
    rw [machine_get, hget] at hfailed
    show view root d k = none
    cases hv : view root d k with
    | none => rfl
    | some b =>
      rw [hv] at hfailed
      cases hfailed
  | list pfx => cases (show Ans.keys (listKeys root pfx d) = .failed from hfailed)
  | delete k =>
    have hdelete : (if (LocalDestination.delete root k .calm d).1 then Ans.done else .failed : Ans Bytes) = .failed :=
      hfailed
    rcases calm_delete hroot hP hd.2 hr with he | ⟨-, he⟩
    · rw [he] at hdelete
      cases hdelete
    · rw [he] at hdelete
      cases hdelete
  | holds k => cases (show Ans.yes (exists_ root k d) = .failed from hfailed)

end
end LocalDestination

/-! ## both -/

/-- **Both destinations give the same answers.**  A root directory and a prefix of a bucket that hold the
same files, asked the same about keys of which none is another one's directory, where nothing fails. -/
theorem destinations_agree {E : Type} [DecidableEq E] (etag : ℕ → ℕ → Bytes → E) (pg : S3Destination.Pager)
    (cfg : S3Upload.S3DestinationConfig) (hsize : 0 < cfg.multipartChunkSize) (hthreshold : 0 < cfg.multipartThreshold)
    {root : Path}
    (hroot : ∀ s ∈ root, LocalDestination.Name s ∧ fits s = true) {P : Str → Prop} (hP : LocalDestination.Apart P)
    (rs : List (Req Bytes)) (hrs : ∀ r ∈ rs, LocalDestination.Asks P r) {disk : Disk Bytes}
    (hdisk : LocalDestination.Tidy disk) (hroom : LocalDestination.Roomy root P disk) (s : S3Destination.Service)
    (hsame : LocalDestination.view root disk = S3Destination.view cfg s) :
    let onDisk := (LocalDestination.machine root).run (rs.map (·, .calm)) disk
    let inBucket := (S3Destination.machine etag pg cfg).run (rs.map (·, [])) s
    onDisk.1 = inBucket.1 ∧ LocalDestination.view root onDisk.2 = S3Destination.view cfg inBucket.2 := by
  have hlocal : (LocalDestination.machine root).Sound (fun b b' => b' <+: b)
      (fun d => LocalDestination.Tidy d ∧ LocalDestination.Roomy root P d)
      (fun q => LocalDestination.Asks P q.1 ∧ q.2 = .calm) := by
    refine (LocalDestination.sound fun s hs => (hroot s hs).1).and (fun q hq => hP.keyed hq.1) fun q d hq ht hd => ?_
    rw [hq.2]
    exact hd.ask hroot hP hq.1 ht
  have hs3 : (S3Destination.machine etag pg cfg).Sound (fun b b' => b' <+: b) (fun _ => True ∧ True)
      (fun q => LocalDestination.Asks P q.1 ∧ q.2 = []) := by
    refine (S3Destination.sound etag pg cfg (fun b b' => b' <+: b) hsize).and (fun q hq k _ l hl => ?_)
      fun _ _ _ _ _ => trivial
    rw [hq.2] at hl
    cases hl
  exact agree hlocal hs3 (LocalDestination.smoothly hroot hP)
    (S3Destination.smoothly etag pg cfg hsize hthreshold (fun _ => True ∧ True) (LocalDestination.Asks P)) hrs
    ⟨hdisk, hroom⟩
    ⟨trivial, trivial⟩ hsame

/-- requests about names without a slash, and the key of none -/
def named : List (Req Bytes) :=
  [.put "b.tar.gz".toList [1, 2, 3], .put "a.tar.gz".toList [4], .list "a".toList, .get "c".toList,
    .get "b.tar.gz".toList, .delete "b.tar.gz".toList, .delete "b.tar.gz".toList, .list []]

theorem named_name : ∀ r ∈ named, LocalDestination.Asks (fun k => LocalDestination.Name k ∧ fits k = true) r := by
  have hname : ∀ k : Str, k ≠ [] ∧ k ≠ ['.'] ∧ k ≠ up ∧ '/' ∉ k ∧ fits k = true →
      LocalDestination.Name k ∧ fits k = true := fun k hk => ⟨⟨hk.1, hk.2.1, hk.2.2.1, hk.2.2.2.1⟩, hk.2.2.2.2⟩
  intro r hr
  unfold named at hr
  simp only [List.mem_cons, List.not_mem_nil, or_false] at hr
  obtain rfl | rfl | rfl | rfl | rfl | rfl | rfl | rfl := hr
  · exact hname "b.tar.gz".toList (by decide)
  · exact hname "a.tar.gz".toList (by decide)
  · trivial
  · exact hname "c".toList (by decide)
  · exact hname "b.tar.gz".toList (by decide)
  · exact hname "b.tar.gz".toList (by decide)
  · exact hname "b.tar.gz".toList (by decide)
  · trivial

theorem roomy_dataDisk (P : Str → Prop) (hP : LocalDestination.Apart P) :
    LocalDestination.Roomy ["data".toList] P dataDisk := by
  have hnode : ∀ q, LocalDestination.contents (dataDisk.node q) = none := by
    intro q
    by_cases hnil : q = []
    · rw [hnil]
      rfl
    · unfold dataDisk Disk.node
      rw [if_neg hnil, List.lookup_cons]
      cases q == ["data".toList] with
      | true => rfl
      | false => rfl
  refine ⟨fun k hk => ?_, fun k hk q _ _ => hnode q⟩
  cases hparts : parts '/' k with
  | nil => exact absurd hparts (hP.canonical k hk).1
  | cons s r => rfl

theorem destinations_agree_named : 0 < prefixed.multipartChunkSize ∧ 0 < prefixed.multipartThreshold ∧
    ((LocalDestination.machine ["data".toList]).run (named.map (·, .calm)) dataDisk).1 =
      ((S3Destination.machine (fun id number _ => (id, number)) onePage prefixed).run (named.map (·, []))
        sharedBucket).1 ∧
    ((LocalDestination.machine ["data".toList]).run (named.map (·, .calm)) dataDisk).1 =
      [.done, .done, .keys ["a.tar.gz".toList], .failed, .value [1, 2, 3], .done, .done,
        .keys ["a.tar.gz".toList]] := by
  have hroot : ∀ s ∈ ["data".toList], LocalDestination.Name s ∧ fits s = true := by
    intro s hs
    refine ⟨name_data s hs, ?_⟩
    rw [List.mem_singleton.mp hs]
    decide
  have hsame : LocalDestination.view ["data".toList] dataDisk = S3Destination.view prefixed sharedBucket := by
    funext k
    rw [nothing_prefixed]
    exact nothing_dataDisk k
  have hagree := destinations_agree (fun id number _ => (id, number)) onePage prefixed (by decide) (by decide) hroot
    LocalDestination.apart_names named named_name tidy_dataDisk (roomy_dataDisk _ LocalDestination.apart_names)
    sharedBucket
    hsame
  exact ⟨by decide, by decide, hagree.1, by decide +kernel⟩

end BackupHelper
