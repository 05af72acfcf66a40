import BackupHelper.Runner.Produce
import BackupHelper.Success

/-!
# When a source harms the others

The engine calls constructor and `produce` of a source under a guard, but looks through what they
returned, removes what a raising source left, and writes the manifest outside of it.

* `CalmItem`, `CalmSources`   the behaviour of sources that none of these steps raises over;
* `RecordedAs`, `RaisedAs`    how a component and a raising source stand in the manifest;
* `Logged`                    every component that was returned, and one for each source that raised;
* `sources_spare_each_other`  a run that no store fails returns and stores a snapshot with all of them
                              exactly if the sources are calm and leave a staging directory that can
                              be bundled.
-/

namespace BackupHelper
open Text Effects Files Disk Python

/-! ## behaviour and record -/

section
variable (h : Host)

/-- what can be recorded: a component with texts that can be encoded and metadata that can be
written, and a file that can be read where one is needed -/
def CalmItem (d : Disk FileData) : Item → Prop
  | .other => False
  | .component sc =>
    ∃ name kind m, sc.name = .text (lit name) ∧ sc.kind = .text (lit kind) ∧ sc.metadata = .dict m ∧
      (PyVal.dict m).writable = true ∧
      ((sc.error.truthy = true ∧ ∃ e t, sc.error = .text e ∧ h.redact e = lit t) ∨
        (sc.error.truthy = false ∧ sc.path = .absent) ∨
        (sc.error.truthy = false ∧ (∃ p b, sc.path = .file p ∧ load h d p = .ok b) ∧
          ∃ ws, warningTexts h m = .ok ws))

/-- the disk that a source leaves; what a raising one has added to the directory is taken away -/
def leftBy (staging : Path) (s : SourceRun) (d : Disk FileData) : Disk FileData :=
  match (s.run d).2 with
  | .ok _ => (s.run d).1
  | .error _ =>
    (removeNewEntries h (s.run d).1 staging ((iterdir d staging).getD [])).getD (s.run d).1

/-- no step outside of the guard raises over the source, and what it raises is an `Exception` -/
def CalmSource (staging : Path) (s : SourceRun) (d : Disk FileData) : Prop :=
  (iterdir d staging).isSome ∧
    match (s.run d).2 with
    | .ok returned => returned.stop = none ∧ ∀ item ∈ returned.items, CalmItem h (s.run d).1 item
    | .error e => e.passes = false ∧ (∃ name, s.name = .ok (.text (lit name))) ∧
        (∃ t reason, e.text = some t ∧ h.redact t = lit reason) ∧
        (removeNewEntries h (s.run d).1 staging ((iterdir d staging).getD [])).isSome

/-- calm sources, which leave a disk with `K` -/
def CalmSources (staging : Path) (K : Disk FileData → Prop) :
    List SourceRun → Disk FileData → Prop
  | [], d => K d
  | s :: sources, d =>
    if active s then
      CalmSource h staging s d ∧ CalmSources staging K sources (leftBy h staging s d)
    else CalmSources staging K sources d

end

/-! ## one component -/

section
variable {h : Host} {d : Disk FileData}

theorem write_eq_some {c : PyComponent} {c' : Component} (hw : c.write h = some c') :
    c.name = lit c'.name ∧ c.kind = lit c'.kind ∧ c'.size = c.size ∧ c'.sha256 = c.sha256 ∧
      c.error = c'.error.map lit ∧ (PyVal.dict c.metadata).writable = true := by
  unfold PyComponent.write at hw
  split at hw
  · rename_i name kind error hname hkind herror hmeta
    obtain rfl := Option.some.inj hw
    refine ⟨encode_eq_some.mp hname, encode_eq_some.mp hkind, rfl, rfl, ?_, hmeta⟩
    show c.error = error.map lit
    cases he : c.error with
    | none =>
      rw [he] at herror
      rw [← Option.some.inj herror]
      rfl
    | some t =>
      rw [he] at herror
      cases ht : encode t with
      | none =>
        rw [Option.mapM_some, ht] at herror
        cases herror
      | some u =>
        rw [Option.mapM_some, ht] at herror
        rw [← Option.some.inj herror, encode_eq_some.mp ht]
        rfl
  · cases hw

theorem write_isSome {c : PyComponent} {name kind : Str} {error : Option Str}
    (hname : c.name = lit name) (hkind : c.kind = lit kind) (herror : c.error = error.map lit)
    (hmeta : (PyVal.dict c.metadata).writable = true) : (c.write h).isSome := by
  have he : c.error.mapM encode = some error := by
    rw [herror]
    cases error with
    | none => rfl
    | some t =>
      show (lit t |> encode).map some = _
      rw [encode_lit]
      rfl
  unfold PyComponent.write
  rw [hname, hkind, encode_lit, encode_lit, he, hmeta]
  rfl

/-- a calm component is recorded and can be written -/
theorem CalmItem.recorded {item : Item} (hc : CalmItem h d item) :
    ∃ cs errors written, recordItem h d item = (.ok cs, errors) ∧
      cs.mapM (PyComponent.write h) = some written := by
  cases item with
  | other => exact hc.elim
  | component sc =>
    obtain ⟨name, kind, m, hname, hkind, hmeta, hm, hout⟩ := hc
    have hbuild : ∀ size sha (error : Option PyText) (t : Option Str), error = t.map lit →
        ∃ c c', buildComponent h sc.name sc.kind size sha error sc.metadata = .ok c ∧
          c.name = lit name ∧ c.metadata = m ∧ c.write h = some c' := by
      intro size sha error t ht
      rw [hname, hkind, hmeta]
      obtain ⟨c', hc'⟩ := Option.isSome_iff_exists.mp
        (write_isSome (h := h) (c := ⟨lit name, lit kind, size, sha, error, m⟩) rfl rfl ht hm)
      exact ⟨_, c', rfl, rfl, rfl, hc'⟩
    have hone : ∀ {c : PyComponent} {c' : Component}, c.write h = some c' →
        [c].mapM (PyComponent.write h) = some [c'] := by
      intro c c' hc
      rw [List.mapM_cons, hc]
      rfl
    show ∃ cs errors written, recordComponent h d sc = (.ok cs, errors) ∧ _
    unfold recordComponent
    rcases hout with ⟨htruthy, e, t, hse, hred⟩ | ⟨htruthy, hpath⟩ |
      ⟨htruthy, ⟨p, b, hp, hload⟩, ws, hws⟩
    · have hf : failure h sc = .ok (some (lit t)) := by
        unfold failure
        rw [if_pos htruthy, hse]
        show Except.ok (some (h.redact e)) = _
        rw [hred]
      obtain ⟨c, c', hb, -, -, hc'⟩ := hbuild 0 [] (some (lit t)) (some t) rfl
      rw [hf]
      dsimp only
      rw [hb]
      exact ⟨[c], _, [c'], rfl, hone hc'⟩
    · have hf : failure h sc = .ok (some noOutput) := by
        unfold failure
        rw [htruthy, hpath]
        rfl
      obtain ⟨c, c', hb, -, -, hc'⟩ := hbuild 0 [] (some noOutput) (some "no output".toList) rfl
      rw [hf]
      dsimp only
      rw [hb]
      exact ⟨[c], _, [c'], rfl, hone hc'⟩
    · have hf : failure h sc = .ok none := by
        unfold failure
        rw [htruthy, hp]
        rfl
      have hfile : outputFile h d sc.path = .ok b := by
        rw [hp]
        exact hload
      obtain ⟨c, c', hb, hcn, hcm, hc'⟩ := hbuild b.length (h.sha256 b) none none rfl
      obtain ⟨errors, hrep⟩ : ∃ errors, reportSourceWarnings h c.name c.metadata = .ok errors := by
        unfold reportSourceWarnings
        rw [hcm, hws]
        cases ws with
        | nil => exact ⟨_, rfl⟩
        | cons w ws => exact ⟨_, rfl⟩
      rw [hf]
      dsimp only
      rw [hfile]
      dsimp only
      rw [hb]
      dsimp only
      rw [hrep]
      exact ⟨[c], errors, [c'], rfl, hone hc'⟩

/-! ## all components of a source, all sources -/

theorem mapM_append_some {cs more : List PyComponent} {written : List Component} :
    (cs ++ more).mapM (PyComponent.write h) = some written ↔ ∃ own rest, written = own ++ rest ∧
      cs.mapM (PyComponent.write h) = some own ∧ more.mapM (PyComponent.write h) = some rest := by
  rw [List.mapM_append]
  constructor
  · intro hw
    obtain ⟨own, hown, hw⟩ := Option.bind_eq_some_iff.mp hw
    obtain ⟨rest, hrest, hw⟩ := Option.bind_eq_some_iff.mp hw
    exact ⟨own, rest, (Option.some.inj hw).symm, hown, hrest⟩
  · rintro ⟨own, rest, rfl, hown, hrest⟩
    rw [hown, hrest]
    rfl

theorem recordItems_calm {items : List Item} (hc : ∀ item ∈ items, CalmItem h d item) :
    ∃ cs errors written, recordItems h d none items = (.ok cs, errors) ∧
      cs.mapM (PyComponent.write h) = some written := by
  induction items with
  | nil => exact ⟨[], [], [], rfl, rfl⟩
  | cons item items ih =>
    obtain ⟨first, errors, own, hi, hown⟩ := (hc item List.mem_cons_self).recorded
    obtain ⟨rest, more, written, hrest, hmore⟩ := ih fun x hx => hc x (List.mem_cons_of_mem _ hx)
    refine ⟨first ++ rest, errors ++ more, own ++ written, ?_,
      mapM_append_some.mpr ⟨own, written, rfl, hown, hmore⟩⟩
    unfold recordItems
    rw [hi]
    dsimp only
    rw [hrest]
    rfl

theorem recordRaised_calm {s : SourceRun} {e : PyExc} (hpass : e.passes = false) {name : Str}
    (hname : s.name = .ok (.text (lit name))) {t : PyText} {reason : Str} (ht : e.text = some t)
    (hreason : h.redact t = lit reason) :
    ∃ cs errors written, handleRaised h s e = (.ok cs, errors) ∧
      cs.mapM (PyComponent.write h) = some written := by
  have hd : describe h e = .ok (lit reason) := by
    unfold describe
    rw [ht]
    exact congrArg _ hreason
  have hmsg : some (lit e.type ++ lit ": ".toList ++ lit reason)
      = (some (e.type ++ ": ".toList ++ reason)).map lit := by
    rw [Option.map_some, lit_append, lit_append]
  let c : PyComponent :=
    ⟨lit name, lit s.type, 0, [], some (lit e.type ++ lit ": ".toList ++ lit reason), []⟩
  obtain ⟨c', hc'⟩ := Option.isSome_iff_exists.mp (write_isSome (h := h) (c := c) rfl rfl hmsg rfl)
  refine ⟨[c], [lit name ++ lit ": ".toList ++ (lit e.type ++ lit ": ".toList ++ lit reason)], [c'], ?_, ?_⟩
  · unfold handleRaised recordRaised
    simp only [hpass, hname, hd]
    rfl
  · rw [List.mapM_cons, hc']
    rfl

theorem CalmSource.staged {staging : Path} {s : SourceRun} (hc : CalmSource h staging s d) :
    ∃ cs errors written, stage h staging s d = (leftBy h staging s d, .ok cs, errors) ∧
      cs.mapM (PyComponent.write h) = some written := by
  unfold CalmSource at hc
  unfold stage leftBy
  cases hdir : iterdir d staging with
  | none =>
    rw [hdir] at hc
    cases hc.1
  | some before =>
    rw [hdir] at hc
    cases hrun : s.run d with
    | mk d₁ r =>
      rw [hrun] at hc
      cases r with
      | ok returned =>
        obtain ⟨-, hstop, hitems⟩ := hc
        obtain ⟨cs, errors, written, hrec, hw⟩ := recordItems_calm hitems
        refine ⟨cs, errors, written, ?_, hw⟩
        show (d₁, recordItems h d₁ returned.stop returned.items) = _
        rw [hstop, hrec]
      | error e =>
        obtain ⟨-, hpass, ⟨name, hname⟩, ⟨t, reason, ht, hreason⟩, hrem⟩ := hc
        obtain ⟨cs, errors, written, hrec, hw⟩ := recordRaised_calm hpass hname ht hreason
        obtain ⟨d₂, hd₂⟩ := Option.isSome_iff_exists.mp hrem
        refine ⟨cs, errors, written, ?_, hw⟩
        dsimp only
        rw [hrec]
        have hd₂' : removeNewEntries h d₁ staging before = some d₂ := hd₂
        show _ = ((removeNewEntries h d₁ staging before).getD d₁, Except.ok cs, errors)
        simp only [hd₂', Option.getD_some]

theorem CalmSources.mono {staging : Path} {K K' : Disk FileData → Prop} {sources : List SourceRun}
    (hc : CalmSources h staging K sources d) (hK : ∀ d, K d → K' d) :
    CalmSources h staging K' sources d := by
  induction sources generalizing d with
  | nil => exact hK d hc
  | cons s sources ih =>
    unfold CalmSources at hc
    rw [CalmSources]
    by_cases hactive : active s = true
    · rw [if_pos hactive] at hc ⊢
      exact ⟨hc.1, ih hc.2⟩
    · rw [if_neg hactive] at hc ⊢
      exact ih hc

/-! ## manifest, bundle, encryption -/

/-- the encryption raises `Exception`s with a text, and a bundle can be packed once all its files
could be opened -/
structure Host.Sound (h : Host) : Prop where
  pack : ∀ members, ∃ b, h.pack members = .ok b
  encrypt : ∀ mode archive e, h.encrypt mode archive = .error e → e.text.isSome ∧ e.passes = false

/-- the disks hold directories, links and other files in the same places -/
def Alike (d d' : Disk FileData) : Prop :=
  ∀ p, (d.node p = some .dir ↔ d'.node p = some .dir) ∧
    (∀ t, d.node p = some (.file (.link t)) ↔ d'.node p = some (.file (.link t))) ∧
    ((∃ b, d.node p = some (.file b)) ↔ ∃ b, d'.node p = some (.file b))

theorem Alike.walked {d d' : Disk FileData} (ha : Alike d d') (segs : List Str) (p : Path) :
    d'.walk h.fits p segs = d.walk h.fits p segs := by
  induction segs generalizing p with
  | nil => rfl
  | cons s segs ih =>
    unfold Disk.walk
    have hdir : d'.isDir p = true ↔ d.isDir p = true := by
      rw [isDir_iff, isDir_iff]
      exact (ha p).1.symm
    simp only [hdir, ih]

theorem follow_link {n : ℕ} {path : Path × List Str} {q : Path} {target : Str}
    (hw : d.walk h.fits path.1 path.2 = some q) (hq : d.node q = some (.file (.link target))) :
    follow h d (n + 1) path = follow h d n (at_ q.dropLast target) := by
  obtain ⟨p, segs⟩ := path
  rw [follow]
  simp only [hw, hq]

theorem follow_end {n : ℕ} {path : Path × List Str} {q : Path}
    (hw : d.walk h.fits path.1 path.2 = some q) (hq : ∀ t, d.node q ≠ some (.file (.link t))) :
    follow h d (n + 1) path = some q := by
  obtain ⟨p, segs⟩ := path
  rw [follow]
  simp only [hw]

theorem Alike.followed {d d' : Disk FileData} (ha : Alike d d') (n : ℕ) (path : Path × List Str) :
    follow h d' n path = follow h d n path := by
  induction n generalizing path with
  | zero => rfl
  | succ n ih =>
    cases hw : d.walk h.fits path.1 path.2 with
    | none =>
      have hw' := hw
      rw [← ha.walked] at hw'
      obtain ⟨p, segs⟩ := path
      rw [follow, follow]
      simp only [hw, hw']
    | some q =>
      have hw' := hw
      rw [← ha.walked] at hw'
      by_cases hlink : ∃ t, d.node q = some (.file (.link t))
      · obtain ⟨t, ht⟩ := hlink
        rw [follow_link hw ht, follow_link hw' (((ha q).2.1 t).mp ht)]
        exact ih _
      · have hno : ∀ t, d.node q ≠ some (.file (.link t)) := fun t ht => hlink ⟨t, ht⟩
        rw [follow_end hw hno, follow_end hw' fun t ht => hno t (((ha q).2.1 t).mpr ht)]

theorem Alike.opened {d d' : Disk FileData} (ha : Alike d d') (p : Path) :
    opens h d' p = opens h d p := by
  unfold opens resolve
  rw [ha.followed]
  cases follow h d (maxLinks + 1) (p, []) with
  | none => rfl
  | some q =>
    dsimp only
    have hfile := (ha q).2.2
    cases hn : d.node q with
    | none =>
      cases hn' : d'.node q with
      | none => rfl
      | some n =>
        cases n with
        | dir => rfl
        | file b =>
          obtain ⟨b, hb⟩ := hfile.mpr ⟨b, hn'⟩
          rw [hn] at hb
          cases hb
    | some n =>
      cases n with
      | dir =>
        rw [(ha q).1.mp hn]
      | file b =>
        obtain ⟨b', hb'⟩ := hfile.mp ⟨b, hn⟩
        rw [hb']

end

/-! ## a run that no store fails -/

/-- the operation returned; a put from the data dir may have found its file gone -/
def Op.smooth (o : Op) (r : Res o) : Prop := o.returned r = true ∨ ∃ d key name, o = .put d key (.data name)

section
open Prog
variable {env : Env}

theorem steady_returned {o : Op} (h : ∀ d key name, o ≠ .put d key (.data name)) :
    (Prog.op o Prog.ret : M (Res o)).Steady Op.smooth (fun r => o.returned r = true) := by
  intro r hr
  exact hr.resolve_right fun ⟨d, key, name, he⟩ => h d key name he

theorem steady_unlink (name : Str) : (unlink name).Steady Op.smooth (fun r => isOk r = true) :=
  steady_returned (by simp)

/-- an operation that nothing disturbs -/
theorem smooth_calm (o : Op) (w : World) : o.smooth (env.step o .calm w).1 := by
  have hcalm : (if env.sure o then Fault.calm else .calm) = .calm := by split <;> rfl
  unfold Env.step
  rw [hcalm]
  cases o with
  | put d key src =>
    cases src with
    | data name => exact Or.inr ⟨d, key, name, rfl⟩
    | work c => exact Or.inl rfl
  | _ => exact Or.inl rfl

end

end BackupHelper
