import MiniPascal.Command.Basic
import Mathlib.Data.List.Basic

/-! Work on a file without its log and its reports. What a file comes to is a matter of the steps alone;
the command takes the same steps, with whole lines on standard error between them, and one of these lines
reports a step that fails, unless all that fails is to print an assembly text. -/

namespace MiniPascal

namespace Command

namespace Attempt

/-- The program in a file. -/
def program (s : Settings) (path : Text) : Attempt (SourceFile × Program) := do
  let src ← source path
  let program ← parse src.text
  if s.dumpTree then display ((Outline.ofProgram program).render ++ "\n")
  return (src, program)

def assembly (program : Program) : Attempt Text := do
  let built ← generate program
  return built.render

/-- Writes an assembly text where it belongs. -/
def write (out asm : Text) : Attempt Unit :=
  if out = console then print asm else save out asm

/-- All that is to be done with a file. -/
def process (fuel : Nat) (s : Settings) (path : Text) : Attempt Unit := do
  let parsed ← program s path
  match s.mode with
  | .run => interpret fuel s.maxSteps parsed.2
  | .compile =>
    let asm ← assembly parsed.2
    write (outputPath path s.output) asm
  | .exec =>
    let asm ← assembly parsed.2
    let code ← assemble asm
    let _ ← execute fuel s.maxSteps code
    return

theorem get_bind {α : Type} (f : Stock → Attempt α) (k : Stock) : (get >>= f) k = f k k := rfl

theorem bind_ok {α β : Type} {x : Attempt α} {f : α → Attempt β} {k k' : Stock} {a : α}
    (h : x k = .ok a k') : (x >>= f) k = f a k' := by
  change EStateM.bind x f k = _
  rw [EStateM.bind, h]

theorem bind_error {α β : Type} {x : Attempt α} {f : α → Attempt β} {k k' : Stock} {e : Stop}
    (h : x k = .error e k') : (x >>= f) k = .error e k' := by
  change EStateM.bind x f k = _
  rw [EStateM.bind, h]

end Attempt

/-- The line that reports a failure: the name of the file, the place in it if that is known, and the
first line of the message. -/
def reportLine (color : Bool) (name : Text) (d : Diagnostic) : Text :=
  paint color bold (location name d) ++ ": " ++ paint color red (d.message.before '\n') ++ "\n"

/-- A name for the file at a path. -/
def Names (path name : Text) : Prop := name = path ∨ path = console ∧ name = "<stdin>"

/-- A line of standard error, written between two worlds, reports a failure and names its file. -/
def Reported (color : Bool) (path : Text) (d : Diagnostic) (w w' : World) : Prop :=
  ∃ name before after, Names path name ∧
    w'.errors = w.errors ++ before ++ reportLine color name d ++ after ∧
    (before = [] ∨ before.getLast? = some (.char '\n'))

section Lines

theorem getLast?_newline (t : Text) : (t ++ "\n" : Text).getLast? = some (.char '\n') :=
  List.getLast?_concat

theorem getLast?_record (r : Log.Record) (format : LogFormat) :
    (r.render format).getLast? = some (.char '\n') := by
  cases format with
  | text => exact getLast?_newline _
  | json => exact List.getLast?_append_of_ne_nil _ (by decide)

theorem before_append_of_before_eq_nil {c : Char} {y : Text} (x : Text) (h : y.before c = []) :
    Text.before c (x ++ y) = x.before c := by
  rw [Text.before, List.takeWhile_append, ← Text.before, ← Text.before, h, List.append_nil]
  split
  · rename_i hlength
    exact ((List.takeWhile_prefix _).eq_of_length hlength).symm
  · rfl

/-- The picture of the source begins on a line of its own. -/
theorem before_render (d : Diagnostic) (source : Text) :
    (d.render source).before '\n' = d.message.before '\n' := by
  rw [Diagnostic.render]
  split
  · rfl
  · refine before_append_of_before_eq_nil _ ?_
    rw [Diagnostic.picture]
    split
    · rfl
    · rfl

theorem diagnosis_eq (color : Bool) (name source : Text) (d : Diagnostic) :
    ∃ more : Text, diagnosis color name source d = reportLine color name d ++ more ∧
      (more = [] ∨ more.getLast? = some (.char '\n')) := by
  have hfirst := before_render d source
  rw [diagnosis, reportLine, ← hfirst, Text.cut?]
  cases hrest : (d.render source).dropWhile (· ≠ .char '\n') with
  | nil =>
    have hwhole : (d.render source).before '\n' = d.render source := by
      have hsplit := List.takeWhile_append_dropWhile (p := (· ≠ .char '\n')) (l := d.render source)
      rw [hrest, List.append_nil] at hsplit
      exact hsplit
    exact ⟨[], by rw [hwhole, List.append_nil], .inl rfl⟩
  | cons g rest =>
    refine ⟨if rest = [] then [] else rest ++ "\n", rfl, ?_⟩
    split
    · exact .inl rfl
    · exact .inr (getLast?_newline _)

theorem reportLine_prefix_diagnosis (color : Bool) (name source : Text) (d : Diagnostic) :
    reportLine color name d <+: diagnosis color name source d := by
  obtain ⟨more, hmore, -⟩ := diagnosis_eq color name source d
  exact ⟨more, hmore.symm⟩

theorem getLast?_diagnosis (color : Bool) (name source : Text) (d : Diagnostic) :
    (diagnosis color name source d).getLast? = some (.char '\n') := by
  obtain ⟨more, hmore, rfl | hlast⟩ := diagnosis_eq color name source d
  · rw [hmore, List.append_nil, reportLine]
    exact getLast?_newline _
  · rw [hmore, List.getLast?_append, hlast]
    rfl

end Lines

/-- One of some texts for standard error begins with the report of a failure. -/
def Tells (color : Bool) (path : Text) (d : Diagnostic) (notes : List Text) : Prop :=
  ∃ name, Names path name ∧ ∃ note ∈ notes, reportLine color name d <+: note

/-- What failed is to print the assembly text. -/
def Unprinted (s : Settings) (path : Text) (f : Failure) : Prop :=
  f.phase = .printing ∧ s.mode = .compile ∧ outputPath path s.output = console

/-- From a world to another, whole lines were written to standard error, and the stock is what is left. -/
structure After (w : World) (notes : List Text) (k : Stock) (w' : World) : Prop where
  stock : w'.toStock = k
  stderr : w'.stderr = notes ++ w.stderr
  lines : ∀ note ∈ notes, note.getLast? = some (.char '\n')
  terminal : w'.terminal = w.terminal

theorem Tells.mono {color : Bool} {path : Text} {d : Diagnostic} {notes notes' : List Text}
    (h : Tells color path d notes) (hsub : notes ⊆ notes') : Tells color path d notes' := by
  obtain ⟨name, hname, note, hnote, hline⟩ := h
  exact ⟨name, hname, note, hsub hnote, hline⟩

section After

variable {w w' w'' : World} {notes notes' : List Text} {k k' : Stock}

theorem After.refl (w : World) : After w [] w.toStock w :=
  ⟨rfl, rfl, fun _ h => absurd h List.not_mem_nil, rfl⟩

theorem After.trans (h : After w notes k w') (h' : After w' notes' k' w'') :
    After w (notes' ++ notes) k' w'' := by
  refine ⟨h'.stock, ?_, List.forall_mem_append.mpr ⟨h'.lines, h.lines⟩, h'.terminal.trans h.terminal⟩
  rw [h'.stderr, h.stderr, List.append_assoc]

theorem After.useColor_eq (h : After w notes k w') (s : Settings) : useColor s w' = useColor s w := by
  rw [useColor, useColor, h.terminal]

theorem getLast?_flatten (h : ∀ note ∈ notes, note.getLast? = some (.char '\n')) :
    notes.flatten = [] ∨ notes.flatten.getLast? = some (.char '\n') := by
  rcases List.eq_nil_or_concat notes with rfl | ⟨front, note, rfl⟩
  · exact .inl rfl
  · have hlast : note.getLast? = some (.char '\n') := h note (by simp)
    refine .inr ?_
    rw [List.concat_eq_append, List.flatten_concat, List.getLast?_append, hlast]
    rfl

/-- A report among whole lines is a line. -/
theorem After.reported {color : Bool} {path : Text} {d : Diagnostic} (h : After w notes k w')
    (htells : Tells color path d notes) : Reported color path d w w' := by
  obtain ⟨name, hname, note, hnote, ⟨more, hmore⟩⟩ := htells
  obtain ⟨later, earlier, hnotes⟩ := List.append_of_mem hnote
  refine ⟨name, earlier.reverse.flatten, more ++ later.reverse.flatten, hname, ?_, ?_⟩
  · rw [World.errors, World.errors, h.stderr, hnotes, ← hmore]
    simp only [List.reverse_append, List.reverse_cons, List.flatten_append, List.flatten_cons,
      List.flatten_nil, List.append_nil, List.append_assoc]
  · refine getLast?_flatten fun note hnote => h.lines note ?_
    rw [hnotes]
    exact List.mem_append_right _ (List.mem_cons_of_mem _ (List.mem_reverse.mp hnote))

end After

/-- The command takes the steps that are described: it comes to the same result, with lines on standard
error that report a failure. -/
inductive Agrees {α : Type} (s : Settings) (path : Text) (P : α → Prop) (w : World) :
    EStateM.Result Stop World α → EStateM.Result Stop Stock α → Prop where
  | ok {a : α} {notes : List Text} {k : Stock} {w' : World} (ha : P a) (h : After w notes k w') :
    Agrees s path P w (.ok a w') (.ok a k)
  | failed {f : Failure} {notes : List Text} {k : Stock} {w' : World} (h : After w notes k w')
    (htells : Tells (useColor s w) path f.cause notes ∨ Unprinted s path f) :
    Agrees s path P w (.error (.failed f) w') (.error (.failed f) k)
  | unfinished (k : Stock) (w' : World) :
    Agrees s path P w (.error .unfinished w') (.error .unfinished k)

def Follows {α : Type} (s : Settings) (path : Text) (P : α → Prop) (x : Command α) (y : Attempt α) :
    Prop :=
  ∀ w : World, Agrees s path P w (x w) (y w.toStock)

section Follows

variable {α β : Type} {s : Settings} {path : Text} {P : α → Prop} {Q : β → Prop}

theorem Agrees.of_after {w w' : World} {notes : List Text} {r : EStateM.Result Stop World α}
    {r' : EStateM.Result Stop Stock α} (h : After w notes w'.toStock w')
    (hr : Agrees s path P w' r r') : Agrees s path P w r r' := by
  cases hr with
  | ok ha h' => exact .ok ha (h.trans h')
  | failed h' htells =>
    rw [h.useColor_eq] at htells
    exact .failed (h.trans h') (htells.imp_left fun htells => htells.mono (List.subset_append_left _ _))
  | unfinished k w'' => exact .unfinished k w''

theorem Follows.bind {x : Command α} {y : Attempt α} {f : α → Command β} {g : α → Attempt β}
    (hx : Follows s path P x y) (hf : ∀ a, P a → Follows s path Q (f a) (g a)) :
    Follows s path Q (x >>= f) (y >>= g) := by
  intro w
  have hxw := hx w
  change Agrees s path Q w (EStateM.bind x f w) (EStateM.bind y g w.toStock)
  rw [EStateM.bind, EStateM.bind]
  generalize x w = r at hxw
  generalize y w.toStock = r' at hxw
  cases hxw with
  | @ok a notes k w' ha h =>
    have hrest := hf a ha w'
    rw [h.stock] at hrest
    exact hrest.of_after (h.stock ▸ h)
  | failed h htells => exact .failed h htells
  | unfinished k w' => exact .unfinished k w'

/-- What is only logged is no step. -/
theorem Follows.seq {x : Command Unit} {f : Command β} {y : Attempt β}
    (hx : Follows s path (fun _ => True) x (pure ())) (hf : Follows s path Q f y) :
    Follows s path Q (x >>= fun _ => f) y :=
  hx.bind fun _ _ => hf

theorem Follows.logged {x f : Command Unit} {y : Attempt Unit}
    (hx : Follows s path (fun _ => True) x y) (hf : Follows s path (fun _ => True) f (pure ())) :
    Follows s path (fun _ => True) (x >>= fun _ => f) y := by
  have hboth := hx.bind fun _ _ => hf
  rwa [bind_pure] at hboth

theorem follows_pure {a : α} (ha : P a) : Follows s path P (pure a) (pure a) :=
  fun w => .ok ha (.refl w)

theorem follows_log (level : Log.Level) (message : Text) (fields : List (Text × Log.Value)) :
    Follows s path (fun _ => True) (log s level message fields) (pure ()) := by
  intro w
  rw [log]
  split
  · refine .ok trivial ⟨rfl, List.singleton_append.symm, fun note hnote => ?_, rfl⟩
    rw [List.mem_singleton.mp hnote]
    exact getLast?_record _ _
  · exact .ok trivial (.refl w)

theorem after_stock (w : World) (k : Stock) : After w [] k { w with toStock := k } :=
  ⟨rfl, rfl, fun _ h => absurd h List.not_mem_nil, rfl⟩

/-- A step that is reported if it fails. -/
theorem follows_reporting {name : Text} (hname : Names path name) (source : Text) {step : Attempt α}
    (hP : ∀ k a k', step k = .ok a k' → P a) :
    Follows s path P (reporting s name source step) step := by
  intro w
  rw [reporting, quietly]
  cases hstep : step w.toStock with
  | ok a k => exact .ok (hP _ _ _ hstep) (after_stock w k)
  | error e k =>
    cases e with
    | unfinished => exact .unfinished _ _
    | failed f =>
      have htells : Tells (useColor s w) path f.cause [diagnosis (useColor s w) name source f.cause] :=
        ⟨name, hname, _, List.mem_singleton_self _, reportLine_prefix_diagnosis _ _ _ _⟩
      refine .failed ⟨rfl, List.singleton_append.symm, fun note hnote => ?_, rfl⟩ (.inl htells)
      rw [List.mem_singleton.mp hnote]
      exact getLast?_diagnosis _ _ _ _

theorem follows_reported {name : Text} (hname : Names path name) (source : Text) (step : Attempt α) :
    Follows s path (fun _ => True) (reporting s name source step) step :=
  follows_reporting hname source fun _ _ _ _ => trivial

/-- A step that is not reported fails at nothing but printing. -/
theorem follows_quietly {step : Attempt Unit}
    (hstep : ∀ k f k', step k = .error (.failed f) k' → Unprinted s path f) :
    Follows s path (fun _ => True) (quietly step) step := by
  intro w
  rw [quietly]
  cases h : step w.toStock with
  | ok a k => exact .ok trivial (after_stock w k)
  | error e k =>
    cases e with
    | unfinished => exact .unfinished _ _
    | failed f => exact .failed (after_stock w k) (.inr (hstep _ _ _ h))

theorem names_source (path : Text) (k : Stock) (src : SourceFile) (k' : Stock)
    (h : Attempt.source path k = .ok src k') : Names path src.name := by
  rw [Attempt.source, Attempt.get_bind] at h
  split at h
  · rename_i hpath
    generalize k.input.takeAll = r at h
    obtain ⟨_ | text, input⟩ := r
    · cases h
    · cases h
      exact .inr ⟨hpath, rfl⟩
  · generalize k.disk.read path = r at h
    cases r with
    | error e => cases h
    | ok text =>
      cases h
      exact .inl rfl

theorem follows_display (text : Text) :
    Follows s path (fun _ => True) (quietly (Attempt.display text)) (Attempt.display text) :=
  follows_quietly fun k f k' h => by cases h

theorem follows_parse (s : Settings) (path : Text) :
    Follows s path (fun parsed => Names path parsed.1.name) (parse s path) (Attempt.program s path) := by
  refine (follows_reporting (.inl rfl) _ (names_source path)).bind fun src hname =>
    .seq (follows_log _ _ _) ?_
  refine (follows_reported hname _ _).bind fun program _ =>
    .seq (follows_log _ _ _) ?_
  by_cases hdump : s.dumpTree = true
  · rw [if_pos hdump, if_pos hdump]
    exact (follows_display _).bind fun _ _ => follows_pure hname
  · rw [if_neg hdump, if_neg hdump]
    exact follows_pure hname

theorem follows_warnUnresolved (src : SourceFile) (names : List Text) :
    Follows s path (fun _ => True) (warnUnresolved s src names) (pure ()) := by
  induction names with
  | nil => exact follows_pure trivial
  | cons name names ih => exact .seq (follows_log _ _ _) ih

theorem follows_generate {src : SourceFile} (hname : Names path src.name) (program : Program) :
    Follows s path (fun _ => True) (generate s src program) (Attempt.assembly program) :=
  (follows_reported hname _ _).bind fun _ _ =>
    .seq (follows_warnUnresolved _ _) (.seq (follows_log _ _ _) (follows_pure trivial))

/-- Printing is the only step that fails without a report. -/
theorem follows_writeAssembly (hmode : s.mode = .compile) {src : SourceFile}
    (hname : Names path src.name) (asm : Text) :
    Follows s path (fun _ => True) (writeAssembly s src (outputPath path s.output) asm)
      (Attempt.write (outputPath path s.output) asm) := by
  rw [writeAssembly, Attempt.write]
  by_cases hout : outputPath path s.output = console
  · rw [if_pos hout, if_pos hout]
    refine follows_quietly fun k f k' h => ?_
    rw [Attempt.print, Attempt.get_bind] at h
    generalize k.stdout.write asm.bytes = r at h
    cases r with
    | ok sink => cases h
    | error reason =>
      cases h
      exact ⟨rfl, hmode, hout⟩
  · rw [if_neg hout, if_neg hout]
    exact .logged (follows_reported hname _ _) (follows_log _ _ _)

theorem follows_process (fuel : Nat) (s : Settings) (path : Text) :
    Follows s path (fun _ => True) (process fuel s path) (Attempt.process fuel s path) := by
  rw [process, Attempt.process]
  cases hmode : s.mode with
  | run =>
    refine (follows_parse s path).bind fun parsed hname => ?_
    exact .logged (follows_reported hname _ _) (follows_log _ _ _)
  | compile =>
    refine (follows_parse s path).bind fun parsed hname => ?_
    exact (follows_generate hname _).bind fun asm _ => follows_writeAssembly hmode hname asm
  | exec =>
    refine (follows_parse s path).bind fun parsed hname => ?_
    refine (follows_generate hname _).bind fun asm _ => ?_
    refine (follows_reported hname _ _).bind fun code _ => ?_
    exact (follows_reported hname _ _).bind fun _ _ => follows_log _ _ _

end Follows

theorem after_perform_log (s : Settings) (level : Log.Level) (message : Text)
    (fields : List (Text × Log.Value)) (w : World) :
    ∃ notes, After w notes w.toStock (perform (log s level message fields) w) := by
  have hfollows : Follows s [] (fun _ => True) (log s level message fields) (pure ()) :=
    follows_log level message fields
  have hlog := hfollows w
  rw [perform]
  generalize log s level message fields w = r at hlog
  cases hlog with
  | ok _ h => exact ⟨_, h⟩

end Command

end MiniPascal
