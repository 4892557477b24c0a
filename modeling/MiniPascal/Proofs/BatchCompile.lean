import MiniPascal.Proofs.Following

/-! Compiling several files at once. What is written beside one source may be what another one is
compiled to, or a source itself; nothing is lost exactly if no two files clash in this way. -/

namespace MiniPascal

namespace Disk

section Put

variable {files : List (Path × Text)} {p q : Path} {text : Text}

theorem lookup_cons_eq (r : Path) (old : Text) (files : List (Path × Text)) (q : Path) :
    ((r, old) :: files).lookup q = if q = r then some old else files.lookup q := by
  by_cases h : q = r
  · simp [h]
  · have hbeq : (q == r) = false := beq_eq_false_iff_ne.mpr h
    rw [List.lookup_cons, hbeq, if_neg h]

theorem lookup_put (files : List (Path × Text)) (p : Path) (text : Text) (q : Path) :
    (put files p text).lookup q = if q = p then some text else files.lookup q := by
  induction files with
  | nil => exact lookup_cons_eq p text [] q
  | cons entry files ih =>
    obtain ⟨r, old⟩ := entry
    rw [put]
    by_cases hr : r = p
    · rw [if_pos hr, lookup_cons_eq, lookup_cons_eq, hr]
      split <;> rfl
    · rw [if_neg hr, lookup_cons_eq, lookup_cons_eq, ih]
      by_cases h : q = r
      · rw [if_pos h, if_neg (h ▸ hr), if_pos h]
      · rw [if_neg h, if_neg h]

theorem mem_names_put : q ∈ (put files p text).map Prod.fst ↔ q = p ∨ q ∈ files.map Prod.fst := by
  induction files with
  | nil => simp [put]
  | cons entry files ih =>
    obtain ⟨r, old⟩ := entry
    rw [put]
    split
    · simp_all
    · simp only [List.map_cons, List.mem_cons, ih]
      exact or_left_comm

end Put

variable {d d' : Disk} {p q : Path} {path : Text} {names : List Text}

theorem isDirectory_iff : d.isDirectory p = true ↔
    p <+: d.here ∨ (∃ r ∈ d.emptyDirs, p <+: r) ∨
      ∃ r ∈ d.files.map Prod.fst, r ≠ p ∧ p <+: r := by
  simp [isDirectory, or_assoc]

theorem isDirectory_above (hq : d.isDirectory q = true) (h : p <+: q) : d.isDirectory p = true := by
  rw [isDirectory_iff] at hq ⊢
  refine hq.imp h.trans (Or.imp (fun ⟨r, hr, hqr⟩ => ⟨r, hr, h.trans hqr⟩) ?_)
  rintro ⟨r, hr, hne, hqr⟩
  refine ⟨r, hr, fun heq => hne ?_, h.trans hqr⟩
  subst heq
  exact h.eq_of_length_le hqr.length_le

theorem walk_append (d : Disk) (p : Path) (names names' : List Text) :
    d.walk p (names ++ names') = (d.walk p names).bind (d.walk · names') := by
  induction names generalizing p with
  | nil => rfl
  | cons name names ih =>
    simp only [List.cons_append, walk, ih]
    split_ifs <;> rfl

theorem walk_into (h : d.walk p (names ++ [[]]) = .ok q) :
    d.walk p names = .ok q ∧ d.isDirectory q = true := by
  rw [walk_append] at h
  cases hwalk : d.walk p names with
  | error problem =>
    rw [hwalk] at h
    cases h
  | ok dir =>
    rw [hwalk] at h
    change d.walk dir [[]] = .ok q at h
    by_cases hdir : d.isDirectory dir = true
    · rw [walk, if_pos hdir, if_pos (.inl rfl), walk] at h
      cases h
      exact ⟨rfl, hdir⟩
    · rw [walk, if_neg hdir] at h
      split at h <;> cases h

/-- A file that can be written lies in a directory, and is what the path leads to. -/
theorem place_spec (h : d.place path = .ok q) :
    (∃ dir name, q = dir ++ [name] ∧ d.isDirectory dir = true) ∧ d.resolve path = .ok q := by
  rw [place] at h
  rw [resolve]
  cases hrefusal : refusal? path with
  | some problem =>
    rw [hrefusal] at h
    cases h
  | none =>
    rw [hrefusal] at h
    generalize d.split path = parts at h ⊢
    obtain ⟨start, names⟩ := parts
    dsimp only at h ⊢
    split at h
    · cases h
    rename_i name above hnames
    cases hwalk : d.walk start (above.reverse ++ [[]]) with
    | error problem =>
      rw [hwalk] at h
      cases h
    | ok dir =>
      rw [hwalk] at h
      dsimp only at h
      split_ifs at h with hlast hlong hdirectory
      cases h
      obtain ⟨habove, hdir⟩ := walk_into hwalk
      simp only [not_or] at hlast
      have hreverse : names.reverse = name :: above := by
        rw [← hnames]
        cases hback : names.reverse with
        | nil => rfl
        | cons last front =>
          have hne : last ≠ [] := by
            rintro rfl
            exact hlast.1 (by rw [List.getLast?_eq_head?_reverse, hback]; rfl)
          rw [List.dropWhile_cons_of_neg (by simpa using hne)]
      have hname : name ≠ [] := by
        rintro rfl
        exact hlast.1 (by rw [List.getLast?_eq_head?_reverse, hreverse]; rfl)
      have hsplit : names = above.reverse ++ [name] := by
        rw [← List.reverse_reverse names, hreverse, List.reverse_cons]
      refine ⟨⟨dir, name, rfl, hdir⟩, ?_⟩
      rw [hsplit, walk_append, habove]
      change d.walk dir [name] = _
      rw [walk, if_pos hdir, if_neg (by simp [hname, hlast.2.1]), if_neg hlast.2.2, if_neg hlong, walk]

theorem read_eq_ok_iff {text : Text} :
    d.read path = .ok text ↔ ∃ q, d.resolve path = .ok q ∧ d.file? q = some text := by
  rw [read]
  cases hresolve : d.resolve path with
  | error problem => simp
  | ok q =>
    cases hfile : d.file? q with
    | some old => simp [hfile]
    | none =>
      by_cases hdir : d.isDirectory q = true <;> simp [hfile, hdir]

/-- Disks with the same directories, where a path leads to the same place. -/
structure SameDirs (d d' : Disk) : Prop where
  here : d'.here = d.here
  dirs : ∀ p, d'.isDirectory p = d.isDirectory p

namespace SameDirs

theorem refl (d : Disk) : SameDirs d d := ⟨rfl, fun _ => rfl⟩

theorem trans {d'' : Disk} (h : SameDirs d d') (h' : SameDirs d' d'') : SameDirs d d'' :=
  ⟨h'.here.trans h.here, fun p => (h'.dirs p).trans (h.dirs p)⟩

theorem walk_eq_ok (h : SameDirs d d') (hwalk : d.walk p names = .ok q) : d'.walk p names = .ok q := by
  induction names generalizing p with
  | nil => exact hwalk
  | cons name names ih =>
    rw [walk] at hwalk ⊢
    rw [h.dirs]
    split_ifs at hwalk ⊢ with hdir hstay hback hlong
    · exact ih hwalk
    · exact ih hwalk
    · exact ih hwalk

theorem split_eq (h : SameDirs d d') (path : Text) : d'.split path = d.split path := by
  rw [split, split, h.here]

theorem resolve_eq_ok (h : SameDirs d d') (hresolve : d.resolve path = .ok q) :
    d'.resolve path = .ok q := by
  rw [resolve] at hresolve ⊢
  rw [h.split_eq]
  split at hresolve
  · cases hresolve
  · exact h.walk_eq_ok hresolve

theorem place_eq_ok (h : SameDirs d d') (hplace : d.place path = .ok q) : d'.place path = .ok q := by
  rw [place] at hplace ⊢
  rw [h.split_eq]
  split at hplace
  · cases hplace
  · dsimp only at hplace ⊢
    split at hplace
    · cases hplace
    · rename_i name above _
      cases hwalk : d.walk (d.split path).1 (above.reverse ++ [[]]) with
      | error problem =>
        rw [hwalk] at hplace
        cases hplace
      | ok dir =>
        rw [hwalk] at hplace
        rw [h.walk_eq_ok hwalk]
        dsimp only at hplace ⊢
        rwa [h.dirs]

end SameDirs

/-- What writing a text changes. -/
structure Wrote (d : Disk) (q : Path) (text : Text) (d' : Disk) : Prop where
  same : SameDirs d d'
  file : ∀ p, d'.file? p = if p = q then some text else d.file? p

theorem wrote_of_place {text : Text} (h : d.place path = .ok q) :
    ∃ d', d.write path text = .ok d' ∧ Wrote d q text d' := by
  obtain ⟨⟨dir, name, rfl, hdir⟩, -⟩ := place_spec h
  refine ⟨{ d with files := put d.files (dir ++ [name]) text }, by rw [write, h], ⟨rfl, fun p => ?_⟩,
    lookup_put d.files (dir ++ [name]) text⟩
  rw [Bool.eq_iff_iff, isDirectory_iff, isDirectory_iff]
  constructor
  · rintro (hhere | hempty | ⟨r, hr, hne, hpr⟩)
    · exact .inl hhere
    · exact .inr (.inl hempty)
    · rcases mem_names_put.mp hr with rfl | hr
      · -- a directory that holds the new file is one already
        have hp : p <+: dir := (List.prefix_concat_iff.mp hpr).resolve_left (Ne.symm hne)
        exact isDirectory_iff.mp (isDirectory_above hdir hp)
      · exact .inr (.inr ⟨r, hr, hne, hpr⟩)
  · rintro (hhere | hempty | ⟨r, hr, hne, hpr⟩)
    · exact .inl hhere
    · exact .inr (.inl hempty)
    · exact .inr (.inr ⟨r, mem_names_put.mpr (.inr hr), hne, hpr⟩)

/-- The assembly text of the source that a path leads to, if it can be compiled. -/
def assembly? (d : Disk) (path : Text) : Option Text :=
  match d.read path with
  | .error _ => none
  | .ok source =>
    match Program.ofText source with
    | .error _ => none
    | .ok program =>
      let generated := Assembly.generate program
      if generated.error.isNone then some generated.builder.render else none

/-- The disk after a file was compiled. -/
def compileFile (d : Disk) (path : Text) : Disk :=
  match d.assembly? path with
  | none => d
  | some asm => (d.write (Command.outputPath path none) asm).toOption.getD d

end Disk

namespace Command

/-- Work that has come to an end, well or not, and has left this disk. -/
inductive Leaves (d : Disk) : EStateM.Result Stop Stock Unit → Prop where
  | ok (k : Stock) (h : k.disk = d) : Leaves d (.ok () k)
  | failed (f : Failure) (k : Stock) (h : k.disk = d) : Leaves d (.error (.failed f) k)

section Leaves

variable {s : Settings} {path text : Text} {k : Stock}

theorem source_of_read (hpath : path ≠ console) (h : k.disk.read path = .ok text) :
    Attempt.source path k = .ok ⟨path, text⟩ k := by
  rw [Attempt.source, Attempt.get_bind, if_neg hpath, h]
  rfl

theorem source_of_error (hpath : path ≠ console) {e : FileError} (h : k.disk.read path = .error e) :
    ∃ f, Attempt.source path k = .error (.failed f) k := by
  rw [Attempt.source, Attempt.get_bind, if_neg hpath, h]
  exact ⟨_, rfl⟩

theorem display_eq (text : Text) (k : Stock) :
    ∃ k', Attempt.display text k = .ok () k' ∧ k'.disk = k.disk := by
  refine ⟨_, rfl, ?_⟩
  dsimp only
  split <;> rfl

theorem program_of_ok (s : Settings) (hpath : path ≠ console) {program : Program}
    (hread : k.disk.read path = .ok text) (hparse : Program.ofText text = .ok program) :
    ∃ k', Attempt.program s path k = .ok (⟨path, text⟩, program) k' ∧ k'.disk = k.disk := by
  have hparsed : Attempt.parse text k = .ok program k := by
    rw [Attempt.parse, hparse]
    rfl
  rw [Attempt.program, Attempt.bind_ok (source_of_read hpath hread), Attempt.bind_ok hparsed]
  by_cases hdump : s.dumpTree = true
  · obtain ⟨k', hshown, hdisk⟩ := display_eq ((Outline.ofProgram program).render ++ "\n") k
    rw [if_pos hdump, Attempt.bind_ok hshown]
    exact ⟨k', rfl, hdisk⟩
  · rw [if_neg hdump]
    exact ⟨k, rfl, rfl⟩

theorem program_of_error (s : Settings) (hpath : path ≠ console) {e : SyntaxError}
    (hread : k.disk.read path = .ok text) (hparse : Program.ofText text = .error e) :
    ∃ f, Attempt.program s path k = .error (.failed f) k := by
  have hparsed : ∃ f, Attempt.parse text k = .error (.failed f) k := by
    rw [Attempt.parse, hparse]
    exact ⟨_, rfl⟩
  obtain ⟨f, hf⟩ := hparsed
  rw [Attempt.program, Attempt.bind_ok (source_of_read hpath hread), Attempt.bind_error hf]
  exact ⟨f, rfl⟩

theorem leaves_write {out : Text} (hout : out ≠ console) (asm : Text) (k : Stock) :
    Leaves ((k.disk.write out asm).toOption.getD k.disk) (Attempt.write out asm k) := by
  rw [Attempt.write, if_neg hout, Attempt.save, Attempt.get_bind]
  cases k.disk.write out asm with
  | ok disk => exact .ok _ rfl
  | error e => exact .failed _ _ rfl

theorem outputPath_ne_console (hpath : path ≠ console) : outputPath path none ≠ console := by
  rw [outputPath, if_neg hpath]
  intro h
  have hlength := congrArg List.length h
  rw [List.length_append] at hlength
  have hasm : (Text.ofString ".asm").length = 4 ∧ console.length = 1 := by decide
  omega

/-- Compiling a file ends, whatever fuel there is. -/
theorem leaves_process (fuel : Nat) (hmode : s.mode = .compile) (houtput : s.output = none)
    (hpath : path ≠ console) (k : Stock) :
    Leaves (k.disk.compileFile path) (Attempt.process fuel s path k) := by
  rw [Disk.compileFile, Disk.assembly?, Attempt.process, hmode, houtput]
  cases hread : k.disk.read path with
  | error e =>
    obtain ⟨f, hf⟩ := source_of_error hpath hread
    rw [Attempt.program, Attempt.bind_error (Attempt.bind_error hf)]
    exact .failed f k rfl
  | ok text =>
    dsimp only
    cases hparse : Program.ofText text with
    | error e =>
      obtain ⟨f, hf⟩ := program_of_error s hpath hread hparse
      rw [Attempt.bind_error hf]
      exact .failed f k rfl
    | ok program =>
      obtain ⟨k', hparsed, hdisk⟩ := program_of_ok s hpath hread hparse
      rw [Attempt.bind_ok hparsed, Attempt.assembly, Attempt.generate]
      dsimp only
      cases (Assembly.generate program).error with
      | some e => exact .failed _ _ hdisk
      | none =>
        rw [← hdisk]
        exact leaves_write (outputPath_ne_console hpath) _ k'

end Leaves

variable (fuel : Nat) {s : Settings} (w : World)

theorem disk_inTurn (hmode : s.mode = .compile) (houtput : s.output = none) {files : List Text}
    (hconsole : console ∉ files) :
    ∃ failure w', inTurn true (process fuel s) files w = some (failure, w') ∧
      w'.disk = files.foldl Disk.compileFile w.disk := by
  induction files generalizing w with
  | nil => exact ⟨none, w, rfl, rfl⟩
  | cons path files ih =>
    simp only [List.mem_cons, not_or] at hconsole
    have hleaves := leaves_process fuel hmode houtput (Ne.symm hconsole.1) w.toStock
    have hagrees := follows_process fuel s path w
    rw [inTurn, List.foldl_cons]
    generalize process fuel s path w = r at hagrees
    generalize Attempt.process fuel s path w.toStock = r' at hagrees hleaves
    cases hagrees with
    | @ok _ _ k after _ h =>
      cases hleaves with
      | ok k hdisk =>
        rw [← hdisk, ← h.stock]
        exact ih after hconsole.2
    | @failed f _ k after h _ =>
      cases hleaves with
      | failed f k hdisk =>
        rw [← hdisk, ← h.stock]
        obtain ⟨failure, w', hrest, hdisk'⟩ := ih after hconsole.2
        dsimp only
        rw [if_pos rfl, hrest]
        exact ⟨some f, w', rfl, hdisk'⟩
    | unfinished k after => cases hleaves

theorem disk_runWithin {env : EnvVars} {args : List Text} (hload : Settings.load env args = .ok s)
    (hmode : s.mode = .compile) (houtput : s.output = none) (hconsole : console ∉ s.files) :
    ∃ status w', runWithin fuel env args w = some (status, w') ∧
      w'.disk = s.files.foldl Disk.compileFile w.disk := by
  obtain ⟨failure, after, hwork, hdisk⟩ := disk_inTurn fuel w hmode houtput hconsole
  rw [runWithin, hload]
  dsimp only
  rw [work, decide_eq_true hmode, hwork]
  cases failure with
  | none => exact ⟨0, after, rfl, hdisk⟩
  | some f =>
    obtain ⟨notes, hlog⟩ := after_perform_log s .debug "failed"
      [("mode", .text (modeName s.mode)), ("error", .text f.cause.message)] after
    exact ⟨1, _, rfl, (congrArg Stock.disk hlog.stock).trans hdisk⟩

theorem disk_run {env : EnvVars} {args : List Text} (hload : Settings.load env args = .ok s)
    (hmode : s.mode = .compile) (houtput : s.output = none) (hconsole : console ∉ s.files) :
    (run env args w).2.disk = s.files.foldl Disk.compileFile w.disk := by
  obtain ⟨status, w', hrun, hdisk⟩ := disk_runWithin Run.ampleFuel w hload hmode houtput hconsole
  rw [run, hrun]
  exact hdisk

end Command

namespace Disk

open Command (outputPath)

/-- What compiling some files should come to: each that can be compiled has its assembly text beside
it, and all sources are as they were. -/
def KeepsAll (before after : Disk) (files : List Text) : Prop :=
  ∀ path ∈ files, (∀ asm ∈ before.assembly? path, after.read (outputPath path none) = .ok asm) ∧
    after.read path = before.read path

instance (before after : Disk) (files : List Text) : Decidable (KeepsAll before after files) :=
  inferInstanceAs (Decidable (∀ path ∈ files, _ ∧ _))

/-- Two of the files that are compiled get into each other's way: they are compiled to one file but not
to the same text, or one is compiled to the other's source. -/
inductive Clash (d : Disk) (files : List Text) : Prop where
  | outputs {path path' asm asm' : Text} {q : Path} (hpath : path ∈ files) (hpath' : path' ∈ files)
      (hasm : d.assembly? path = some asm) (hasm' : d.assembly? path' = some asm')
      (hplace : d.place (outputPath path none) = .ok q)
      (hplace' : d.place (outputPath path' none) = .ok q) (hne : asm ≠ asm')
  | source {path path' asm text : Text} {q : Path} (hpath : path ∈ files) (hpath' : path' ∈ files)
      (hasm : d.assembly? path = some asm) (hplace : d.place (outputPath path none) = .ok q)
      (hresolve : d.resolve path' = .ok q) (hread : d.read path' = .ok text) (hne : text ≠ asm)

section Compile

variable {d d' : Disk} {path asm : Text} {q : Path}

theorem compileFile_of_none (h : d.assembly? path = none) : d.compileFile path = d := by
  rw [compileFile, h]

theorem wrote_compileFile (hasm : d.assembly? path = some asm)
    (hplace : d.place (outputPath path none) = .ok q) : Wrote d q asm (d.compileFile path) := by
  have hwritten : ∃ d', d.write (outputPath path none) asm = .ok d' ∧ Wrote d q asm d' :=
    wrote_of_place hplace
  obtain ⟨d', hwrite, hwrote⟩ := hwritten
  rw [compileFile, hasm]
  dsimp only
  rw [hwrite]
  exact hwrote

theorem sameDirs_compileFile (d : Disk) (path : Text) : SameDirs d (d.compileFile path) := by
  cases hasm : d.assembly? path with
  | none =>
    rw [compileFile_of_none hasm]
    exact .refl d
  | some asm =>
    cases hplace : d.place (outputPath path none) with
    | ok q => exact (wrote_compileFile hasm hplace).same
    | error problem =>
      rw [compileFile, hasm]
      dsimp only
      rw [write, hplace]
      exact .refl d

theorem sameDirs_compileAll (d : Disk) (files : List Text) : SameDirs d (files.foldl compileFile d) := by
  induction files generalizing d with
  | nil => exact .refl d
  | cons path files ih => exact (sameDirs_compileFile d path).trans (ih _)

theorem SameDirs.read_eq_ok_iff (h : SameDirs d d') (hresolve : d.resolve path = .ok q) {text : Text} :
    d'.read path = .ok text ↔ d'.file? q = some text := by
  rw [Disk.read_eq_ok_iff]
  constructor
  · rintro ⟨q', hq', hfile⟩
    cases (h.resolve_eq_ok hresolve).symm.trans hq'
    exact hfile
  · exact fun hfile => ⟨q, h.resolve_eq_ok hresolve, hfile⟩

theorem assembly?_congr (h : d'.read path = d.read path) : d'.assembly? path = d.assembly? path := by
  rw [assembly?, assembly?, h]

end Compile

/-- Sources as they were, and the assembly texts of the files that are done. -/
structure Kept (d₀ : Disk) (files done : List Text) (d : Disk) : Prop where
  same : SameDirs d₀ d
  sources : ∀ path ∈ files, d.read path = d₀.read path
  outputs : ∀ path ∈ done, path ∈ files ∧ ∀ asm, d₀.assembly? path = some asm →
    d.read (outputPath path none) = .ok asm

section Kept

variable {d₀ d : Disk} {files done : List Text}

/-- Compiling one more file keeps sources and assembly texts if there is no clash. -/
theorem Kept.compileFile (hkept : Kept d₀ files done d) (hclash : ¬ Clash d₀ files)
    (hexists : ∀ path ∈ files, ∃ text, d₀.read path = .ok text)
    (hwrites : ∀ path ∈ files, ∀ asm, d₀.assembly? path = some asm →
      ∃ q, d₀.place (outputPath path none) = .ok q)
    {path : Text} (hpath : path ∈ files) : Kept d₀ files (path :: done) (d.compileFile path) := by
  have hasm := assembly?_congr (hkept.sources path hpath)
  cases h₀ : d₀.assembly? path with
  | none =>
    rw [compileFile_of_none (hasm.trans h₀)]
    refine ⟨hkept.same, hkept.sources, fun path' hpath' => ?_⟩
    rcases List.mem_cons.mp hpath' with rfl | hpath'
    · exact ⟨hpath, fun asm hasm' => by simp [h₀] at hasm'⟩
    · exact hkept.outputs path' hpath'
  | some asm =>
    obtain ⟨q, hplace⟩ := hwrites path hpath asm h₀
    have hwrote := wrote_compileFile (hasm.trans h₀) (hkept.same.place_eq_ok hplace)
    have hsame := hkept.same.trans hwrote.same
    refine ⟨hsame, fun path' hpath' => ?_, fun path' hpath' => ?_⟩
    · -- a source is not where the text was written, or holds that text already
      obtain ⟨text, htext⟩ := hexists path' hpath'
      obtain ⟨q', hresolve, -⟩ := Disk.read_eq_ok_iff.mp htext
      have hold := (hkept.same.read_eq_ok_iff hresolve).mp ((hkept.sources path' hpath').trans htext)
      rw [htext, hsame.read_eq_ok_iff hresolve, hwrote.file]
      split
      · rename_i heq
        subst heq
        by_cases hne : text = asm
        · rw [hne]
        · exact absurd (.source hpath hpath' h₀ hplace hresolve htext hne) hclash
      · exact hold
    · rcases List.mem_cons.mp hpath' with rfl | hpath'
      · refine ⟨hpath, fun asm' hasm' => ?_⟩
        obtain rfl : asm = asm' := Option.some.inj (h₀.symm.trans hasm')
        rw [hsame.read_eq_ok_iff (place_spec hplace).2, hwrote.file, if_pos rfl]
      · obtain ⟨hmem, houtput⟩ := hkept.outputs path' hpath'
        refine ⟨hmem, fun asm' hasm' => ?_⟩
        obtain ⟨q', hplace'⟩ := hwrites path' hmem asm' hasm'
        have hresolve := (place_spec hplace').2
        have hold := (hkept.same.read_eq_ok_iff hresolve).mp (houtput asm' hasm')
        rw [hsame.read_eq_ok_iff hresolve, hwrote.file]
        split
        · rename_i heq
          subst heq
          by_cases hne : asm = asm'
          · rw [hne]
          · exact absurd (.outputs hpath hmem h₀ hasm' hplace hplace' hne) hclash
        · exact hold

theorem Kept.compileAll (hkept : Kept d₀ files done d) (hclash : ¬ Clash d₀ files)
    (hexists : ∀ path ∈ files, ∃ text, d₀.read path = .ok text)
    (hwrites : ∀ path ∈ files, ∀ asm, d₀.assembly? path = some asm →
      ∃ q, d₀.place (outputPath path none) = .ok q)
    {todo : List Text} (htodo : ∀ path ∈ todo, path ∈ files) :
    Kept d₀ files (todo.reverse ++ done) (todo.foldl Disk.compileFile d) := by
  induction todo generalizing done d with
  | nil => exact hkept
  | cons path todo ih =>
    have hnext := hkept.compileFile hclash hexists hwrites (htodo path (by simp))
    simpa using ih hnext fun path' hpath' => htodo path' (by simp [hpath'])

end Kept

/-- Compiling files loses nothing exactly if none of them clash. -/
theorem keepsAll_iff {d : Disk} {files : List Text}
    (hexists : ∀ path ∈ files, ∃ text, d.read path = .ok text)
    (hwrites : ∀ path ∈ files, ∀ asm, d.assembly? path = some asm →
      ∃ q, d.place (outputPath path none) = .ok q) :
    KeepsAll d (files.foldl compileFile d) files ↔ ¬ Clash d files := by
  have hsame := sameDirs_compileAll d files
  constructor
  · intro hkeeps hclash
    cases hclash with
    | outputs hpath hpath' hasm hasm' hplace hplace' hne =>
      have hread := (hsame.read_eq_ok_iff (place_spec hplace).2).mp ((hkeeps _ hpath).1 _ hasm)
      have hread' := (hsame.read_eq_ok_iff (place_spec hplace').2).mp ((hkeeps _ hpath').1 _ hasm')
      exact hne (Option.some.inj (hread.symm.trans hread'))
    | source hpath hpath' hasm hplace hresolve hread hne =>
      have hasm := (hsame.read_eq_ok_iff (place_spec hplace).2).mp ((hkeeps _ hpath).1 _ hasm)
      have htext := (hsame.read_eq_ok_iff hresolve).mp ((hkeeps _ hpath').2.trans hread)
      exact hne (Option.some.inj (htext.symm.trans hasm))
  · intro hclash
    have hstart : Kept d files [] d := ⟨.refl d, fun _ _ => rfl, fun _ h => by cases h⟩
    have hkept := hstart.compileAll hclash hexists hwrites fun _ h => h
    intro path hpath
    exact ⟨(hkept.outputs path (by simp [hpath])).2, hkept.sources path hpath⟩

end Disk

namespace Command

/-- Compiling existing files whose assembly texts can all be written loses nothing exactly if no two of
the files clash. -/
theorem batch_keepsAll_iff {env : EnvVars} {args : List Text} {s : Settings} {w : World}
    (hload : Settings.load env args = .ok s) (hmode : s.mode = .compile) (houtput : s.output = none)
    (hconsole : console ∉ s.files) (hexists : ∀ path ∈ s.files, ∃ text, w.disk.read path = .ok text)
    (hwrites : ∀ path ∈ s.files, ∀ asm, w.disk.assembly? path = some asm →
      ∃ q, w.disk.place (outputPath path none) = .ok q) :
    w.disk.KeepsAll (run env args w).2.disk s.files ↔ ¬ w.disk.Clash s.files := by
  rw [disk_run w hload hmode houtput hconsole]
  exact Disk.keepsAll_iff hexists hwrites

/-- Settings for compiling some files. -/
def compiling (files : List Text) : Settings where
  mode := .compile
  output := none
  verbose := false
  logFormat := .text
  dumpTree := false
  maxSteps := 0
  color := .auto
  files := files

/-- Two sources in the working directory. -/
def twoSources (path path' : Text) : World where
  disk := { files := [([path], "WRITELN(1);"), ([path'], "WRITELN(2);")] }
  input := .ofText [] none

/-- What compiling both comes to. -/
def compileBoth (path path' : Text) : Nat × World :=
  run [] ["-mode=compile", path, path'] (twoSources path path')

theorem different_stems_kept :
    Settings.load [] ["-mode=compile", "a.pas", "b.pas"] = .ok (compiling ["a.pas", "b.pas"]) ∧
      (twoSources "a.pas" "b.pas").disk.KeepsAll (compileBoth "a.pas" "b.pas").2.disk
        ["a.pas", "b.pas"] ∧
      ¬ (twoSources "a.pas" "b.pas").disk.Clash ["a.pas", "b.pas"] := by
  have hload : Settings.load [] ["-mode=compile", "a.pas", "b.pas"] =
      .ok (compiling ["a.pas", "b.pas"]) := by decide +kernel
  have hiff := batch_keepsAll_iff (w := twoSources "a.pas" "b.pas") hload rfl rfl (by decide)
    (List.forall_mem_cons.mpr ⟨⟨"WRITELN(1);", by decide +kernel⟩,
      List.forall_mem_singleton.mpr ⟨"WRITELN(2);", by decide +kernel⟩⟩)
    (List.forall_mem_cons.mpr ⟨fun _ _ => ⟨["a.asm"], by decide +kernel⟩,
      List.forall_mem_singleton.mpr fun _ _ => ⟨["b.asm"], by decide +kernel⟩⟩)
  rw [compileBoth]
  refine ⟨hload, ?keeps, hiff.mp ?keeps⟩
  decide +kernel

/-- Two sources that differ in the extension only are compiled to one file, which keeps the second
assembly text; and nothing is reported. -/
theorem same_stem_lost :
    Settings.load [] ["-mode=compile", "a.pas", "a.txt"] = .ok (compiling ["a.pas", "a.txt"]) ∧
      (compileBoth "a.pas" "a.txt").1 = 0 ∧
      ¬ (twoSources "a.pas" "a.txt").disk.KeepsAll (compileBoth "a.pas" "a.txt").2.disk
        ["a.pas", "a.txt"] := by
  refine ⟨?_, ?_, ?_⟩ <;> decide +kernel

end Command

end MiniPascal
