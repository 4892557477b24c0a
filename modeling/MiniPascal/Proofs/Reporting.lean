import MiniPascal.Proofs.BatchCompile
import MiniPascal.Proofs.CutRuns
import MiniPascal.Proofs.Fuel

/-! Failures that are reported. A command that ends has the status that the steps of the work on its files
give it, and names every file that failed on standard error, unless all that failed is to print an assembly
text. What it comes to does not depend on the fuel on which it ended. -/

namespace MiniPascal

namespace Command

/-- The files that are worked on, in turn, each with its failure if it fails. Only compiling goes on behind
a failure. There are none if the work on one of them is not finished. -/
def attempts (fuel : Nat) (s : Settings) : List Text → Stock → Option (List (Text × Option Failure))
  | [], _ => some []
  | path :: paths, k =>
    match Attempt.process fuel s path k with
    | .ok _ k => (attempts fuel s paths k).map ((path, none) :: ·)
    | .error (.failed f) k =>
      if s.mode = .compile then (attempts fuel s paths k).map ((path, some f) :: ·)
      else some [(path, some f)]
    | .error .unfinished _ => none

/-- Whether and how the failures of some files show in the end. -/
structure Accounts (s : Settings) (w : World) (done : List (Text × Option Failure))
    (r : Option Failure × World) : Prop where
  succeeds : r.1 = none ↔ ∀ e ∈ done, e.2 = none
  told : ∃ notes, After w notes r.2.toStock r.2 ∧ ∀ path f, (path, some f) ∈ done →
    Tells (useColor s w) path f.cause notes ∨ Unprinted s path f

/-- The command ends if the work on its files does, and accounts for it. -/
inductive Settled (s : Settings) (w : World) :
    Option (List (Text × Option Failure)) → Option (Option Failure × World) → Prop where
  | ended {done : List (Text × Option Failure)} {r : Option Failure × World}
    (h : Accounts s w done r) : Settled s w (some done) (some r)
  | unfinished : Settled s w none none

section Settled

variable {s : Settings} {w w' : World} {path : Text} {notes : List Text}
  {done : Option (List (Text × Option Failure))} {r : Option (Option Failure × World)}

theorem accounts_nil (s : Settings) (w : World) : Accounts s w [] (none, w) :=
  ⟨by simp, [], .refl w, by simp⟩

theorem Accounts.cons_none {done : List (Text × Option Failure)} {r : Option Failure × World}
    (h : After w notes w'.toStock w') (hr : Accounts s w' done r) :
    Accounts s w ((path, none) :: done) r := by
  obtain ⟨hsucceeds, later, hafter, htold⟩ := hr
  refine ⟨by simpa using hsucceeds, later ++ notes, h.trans hafter, fun other f hmem => ?_⟩
  have hmem' : (other, some f) ∈ done := by simpa using hmem
  rw [h.useColor_eq] at htold
  exact (htold other f hmem').imp_left fun htells => htells.mono (List.subset_append_left _ _)

theorem Accounts.cons_some {done : List (Text × Option Failure)} {r : Option Failure × World}
    {f g : Failure} (h : After w notes w'.toStock w')
    (htells : Tells (useColor s w) path f.cause notes ∨ Unprinted s path f)
    (hr : Accounts s w' done r) : Accounts s w ((path, some f) :: done) (some g, r.2) := by
  obtain ⟨-, later, hafter, htold⟩ := hr
  refine ⟨by simp, later ++ notes, h.trans hafter, fun other g hmem => ?_⟩
  rw [h.useColor_eq] at htold
  rcases List.mem_cons.mp hmem with heq | hmem
  · cases heq
    exact htells.imp_left fun htells => htells.mono (List.subset_append_right _ _)
  · exact (htold other g hmem).imp_left fun htells => htells.mono (List.subset_append_left _ _)

/-- The last note in the log takes nothing back. -/
theorem Accounts.conclude {done : List (Text × Option Failure)} {r : Option Failure × World}
    (h : Accounts s w done r) :
    ((conclude s r).1 = 0 ↔ ∀ e ∈ done, e.2 = none) ∧
      ((conclude s r).1 = 0 ∨ (conclude s r).1 = 1) ∧
      ∀ path f, (path, some f) ∈ done →
        Reported (useColor s w) path f.cause w (conclude s r).2 ∨ Unprinted s path f := by
  obtain ⟨hsucceeds, notes, hafter, htold⟩ := h
  rw [← hsucceeds]
  obtain ⟨_ | f, after⟩ := r
  · exact ⟨iff_of_true rfl rfl, .inl rfl,
      fun path f hmem => (htold path f hmem).imp_left hafter.reported⟩
  · obtain ⟨notes', hlog⟩ := after_perform_log s .debug "failed"
      [("mode", .text (modeName s.mode)), ("error", .text f.cause.message)] after
    refine ⟨iff_of_false Nat.one_ne_zero (Option.some_ne_none f), .inr rfl, fun path g hmem => ?_⟩
    refine (htold path g hmem).imp_left fun htells => (hafter.trans hlog).reported (htells.mono ?_)
    exact List.subset_append_right _ _

theorem Settled.cons_none (h : After w notes w'.toStock w') (hr : Settled s w' done r) :
    Settled s w (done.map ((path, none) :: ·)) r := by
  cases hr with
  | ended hr => exact .ended (hr.cons_none h)
  | unfinished => exact .unfinished

theorem Settled.cons_some {f : Failure} (h : After w notes w'.toStock w')
    (htells : Tells (useColor s w) path f.cause notes ∨ Unprinted s path f)
    (hr : Settled s w' done r) :
    Settled s w (done.map ((path, some f) :: ·)) (r.map fun r => (some f, r.2)) := by
  cases hr with
  | ended hr => exact .ended (hr.cons_some h htells)
  | unfinished => exact .unfinished

theorem Settled.eq_none_iff (h : Settled s w done r) : r = none ↔ done = none := by
  cases h <;> simp

theorem Settled.accounts {r : Option Failure × World} (h : Settled s w done (some r)) :
    ∃ ended, done = some ended ∧ Accounts s w ended r := by
  cases h with
  | ended h => exact ⟨_, rfl, h⟩

theorem settled_inTurn (fuel : Nat) (s : Settings) (paths : List Text) (w : World) :
    Settled s w (attempts fuel s paths w.toStock)
      (inTurn (s.mode = .compile) (process fuel s) paths w) := by
  induction paths generalizing w with
  | nil => exact .ended (accounts_nil s w)
  | cons path paths ih =>
    have hfile := follows_process fuel s path w
    rw [attempts, inTurn]
    generalize process fuel s path w = r at hfile
    generalize Attempt.process fuel s path w.toStock = r' at hfile
    cases hfile with
    | @ok _ _ k w' _ h =>
      obtain rfl := h.stock
      exact (ih w').cons_none h
    | @failed f _ k w' h htells =>
      obtain rfl := h.stock
      dsimp only
      by_cases hmode : s.mode = .compile
      · rw [if_pos hmode, if_pos (decide_eq_true hmode)]
        exact (ih w').cons_some h htells
      · rw [if_neg hmode, if_neg (by simpa using hmode)]
        exact .ended ((accounts_nil s w').cons_some h htells)
    | unfinished => exact .unfinished

end Settled

/-- No file is passed over: the files up to the first failure are worked on, and all files if none fails
or they are compiled. -/
theorem map_fst_attempts {fuel : Nat} {s : Settings} {paths : List Text} {k : Stock}
    {done : List (Text × Option Failure)} (h : attempts fuel s paths k = some done) :
    done.map Prod.fst <+: paths ∧
      ((s.mode = .compile ∨ ∀ e ∈ done, e.2 = none) → done.map Prod.fst = paths) := by
  induction paths generalizing k done with
  | nil =>
    cases h
    exact ⟨List.prefix_rfl, fun _ => rfl⟩
  | cons path paths ih =>
    rw [attempts] at h
    split at h
    · obtain ⟨later, hlater, rfl⟩ := Option.map_eq_some_iff.mp h
      obtain ⟨hfront, hall⟩ := ih hlater
      refine ⟨(List.prefix_cons_inj path).mpr hfront, fun h => congrArg (path :: ·) (hall ?_)⟩
      exact h.imp_right fun h e he => h e (List.mem_cons_of_mem _ he)
    · split at h
      · rename_i hmode
        obtain ⟨later, hlater, rfl⟩ := Option.map_eq_some_iff.mp h
        obtain ⟨hfront, hall⟩ := ih hlater
        exact ⟨(List.prefix_cons_inj path).mpr hfront,
          fun _ => congrArg (path :: ·) (hall (.inl hmode))⟩
      · rename_i hmode
        cases h
        refine ⟨(List.prefix_cons_inj path).mpr List.nil_prefix, fun h => ?_⟩
        simp [hmode] at h
    · cases h

/-- A step that comes to an end, well or not. -/
def Finishes {α : Type} (x : Attempt α) : Prop := ∀ k k', x k ≠ .error .unfinished k'

section Finishes

variable {α β : Type}

theorem Finishes.bind {x : Attempt α} {f : α → Attempt β} (hx : Finishes x) (hf : ∀ a, Finishes (f a)) :
    Finishes (x >>= f) := by
  intro k k'
  cases h : x k with
  | ok a after =>
    rw [Attempt.bind_ok h]
    exact hf a after k'
  | error e after =>
    rw [Attempt.bind_error h]
    rintro ⟨⟩
    exact hx k k' h

theorem finishes_pure (a : α) : Finishes (pure a) := fun _ _ h => by cases h

theorem finishes_fail (phase : Phase) (cause : Diagnostic) :
    Finishes (Attempt.fail phase cause : Attempt α) := fun _ _ h => by cases h

theorem finishes_get : Finishes (get : Attempt Stock) := fun _ _ h => by cases h

theorem finishes_set (k : Stock) : Finishes (set k : Attempt PUnit) := fun _ _ h => by cases h

theorem finishes_program (s : Settings) (path : Text) : Finishes (Attempt.program s path) := by
  have hsource : Finishes (Attempt.source path) := by
    refine .bind finishes_get fun k => ?_
    split
    · refine .bind (finishes_set _) fun _ => ?_
      split
      · exact finishes_pure _
      · exact finishes_fail _ _
    · split
      · exact finishes_pure _
      · exact finishes_fail _ _
  have hparse : ∀ text, Finishes (Attempt.parse text) := by
    intro text
    rw [Attempt.parse]
    split
    · exact finishes_fail _ _
    · exact finishes_pure _
  have hdisplay : ∀ text, Finishes (Attempt.display text) := fun _ _ _ h => by cases h
  refine hsource.bind fun src => (hparse src.text).bind fun program => ?_
  split
  · exact (hdisplay _).bind fun _ => finishes_pure _
  · exact finishes_pure _

theorem finishes_assembly (program : Program) : Finishes (Attempt.assembly program) := by
  refine .bind ?_ fun _ => finishes_pure _
  rw [Attempt.generate]
  split
  · exact finishes_fail _ _
  · exact finishes_pure _

theorem finishes_write (out asm : Text) : Finishes (Attempt.write out asm) := by
  rw [Attempt.write]
  split
  · refine .bind finishes_get fun k => ?_
    split
    · exact finishes_set _
    · exact finishes_fail _ _
  · refine .bind finishes_get fun k => ?_
    split
    · exact finishes_set _
    · exact finishes_fail _ _

/-- Compiling ends on any fuel. -/
theorem attempts_ne_none (fuel : Nat) {s : Settings} (hmode : s.mode = .compile) (paths : List Text)
    (k : Stock) : attempts fuel s paths k ≠ none := by
  have hprocess : ∀ path, Finishes (Attempt.process fuel s path) := by
    intro path
    rw [Attempt.process, hmode]
    exact (finishes_program s path).bind fun parsed =>
      (finishes_assembly parsed.2).bind fun asm => finishes_write _ asm
  induction paths generalizing k with
  | nil => exact Option.some_ne_none _
  | cons path paths ih =>
    rw [attempts]
    split
    · exact fun h => ih _ (Option.map_eq_none_iff.mp h)
    · rw [if_pos hmode]
      exact fun h => ih _ (Option.map_eq_none_iff.mp h)
    · exact absurd (by assumption) (hprocess path k _)

end Finishes

/-- Work on some fuel against the same work on more: the same comes of it, unless it was not finished. -/
def Lasts {σ α : Type} (x y : EStateM Stop σ α) : Prop :=
  ∀ k, x k = y k ∨ ∃ k', x k = .error .unfinished k'

section Lasts

variable {σ α β : Type} {fuel fuel' : Nat} {s : Settings}

theorem Lasts.refl (x : EStateM Stop σ α) : Lasts x x := fun _ => .inl rfl

theorem Lasts.bind {x y : EStateM Stop σ α} {f g : α → EStateM Stop σ β} (hx : Lasts x y)
    (hf : ∀ a, Lasts (f a) (g a)) : Lasts (x >>= f) (y >>= g) := by
  intro k
  change EStateM.bind x f k = EStateM.bind y g k ∨ ∃ k', EStateM.bind x f k = _
  rw [EStateM.bind, EStateM.bind]
  rcases hx k with heq | ⟨k', hshort⟩
  · rw [heq]
    cases y k with
    | ok a k' => exact hf a k'
    | error e k' => exact .inl rfl
  · rw [hshort]
    exact .inr ⟨k', rfl⟩

theorem lasts_reporting {name source : Text} {x y : Attempt α} (h : Lasts x y) :
    Lasts (reporting s name source x) (reporting s name source y) := by
  intro w
  rw [reporting, reporting, quietly, quietly]
  rcases h w.toStock with heq | ⟨k', hshort⟩
  · rw [heq]
    exact .inl rfl
  · rw [hshort]
    exact .inr ⟨_, rfl⟩

theorem lasts_interpret (hle : fuel ≤ fuel') (maxSteps : Int) (program : Program) :
    Lasts (Attempt.interpret fuel maxSteps program) (Attempt.interpret fuel' maxSteps program) := by
  intro k
  rw [Attempt.interpret, Attempt.interpret, Attempt.get_bind, Attempt.get_bind]
  dsimp only
  have hrun : Approximates
      (Run.program (Limits.ofInts maxSteps 0) fuel program { input := some k.input, sink := k.stdout })
      (Run.program (Limits.ofInts maxSteps 0) fuel' program { input := some k.input, sink := k.stdout }) :=
    Run.program_mono hle
  generalize Run.program _ fuel _ _ = short at hrun
  generalize Run.program _ fuel' _ _ = long at hrun
  cases hrun with
  | same => exact .inl rfl
  | short r => exact .inr ⟨_, rfl⟩

theorem lasts_execute (hle : fuel ≤ fuel') (maxSteps : Int) (code : Code) :
    Lasts (Attempt.execute fuel maxSteps code) (Attempt.execute fuel' maxSteps code) := by
  intro k
  rw [Attempt.execute, Attempt.execute, Attempt.get_bind, Attempt.get_bind]
  rcases Machine.run_of_le hle code (stepLimit? maxSteps) (Machine.start code (some k.input) k.stdout)
    with heq | ⟨hshort, -⟩
  · rw [heq]
    exact .inl rfl
  · generalize (Machine.start code (some k.input) k.stdout).run code (stepLimit? maxSteps) fuel = ended
      at hshort
    obtain ⟨error, m⟩ := ended
    cases hshort
    exact .inr ⟨_, rfl⟩

theorem lasts_process (hle : fuel ≤ fuel') (s : Settings) (path : Text) :
    Lasts (process fuel s path) (process fuel' s path) := by
  rw [process, process]
  cases s.mode with
  | run =>
    refine .bind (.refl _) fun parsed => ?_
    exact .bind (lasts_reporting (lasts_interpret hle _ _)) fun _ => .refl _
  | compile => exact .refl _
  | exec =>
    refine .bind (.refl _) fun parsed => .bind (.refl _) fun asm => .bind (.refl _) fun code => ?_
    exact .bind (lasts_reporting (lasts_execute hle _ _)) fun _ => .refl _

variable {one one' : Text → Command Unit}

theorem inTurn_of_lasts {goOn : Bool} (h : ∀ path, Lasts (one path) (one' path)) {paths : List Text}
    {w : World} {r : Option Failure × World} (hr : inTurn goOn one paths w = some r) :
    inTurn goOn one' paths w = some r := by
  induction paths generalizing w r with
  | nil => exact hr
  | cons path paths ih =>
    rw [inTurn] at hr ⊢
    rcases h path w with heq | ⟨w', hshort⟩
    · rw [← heq]
      split at hr
      · exact ih hr
      · split at hr
        · obtain ⟨r', hr', rfl⟩ := Option.map_eq_some_iff.mp hr
          exact (if_pos (by assumption)).trans (Option.map_eq_some_iff.mpr ⟨r', ih hr', rfl⟩)
        · exact (if_neg (by assumption)).trans hr
      · cases hr
    · rw [hshort] at hr
      cases hr

/-- What a command comes to does not depend on the fuel on which it ended. -/
theorem runWithin_of_le (hle : fuel ≤ fuel') {env : EnvVars} {args : List Text} {w : World}
    {r : Nat × World} (h : runWithin fuel env args w = some r) :
    runWithin fuel' env args w = some r := by
  rw [runWithin] at h ⊢
  split at h
  · exact h
  · exact h
  · rename_i s hload
    obtain ⟨ended, hended, rfl⟩ := Option.map_eq_some_iff.mp h
    exact Option.map_eq_some_iff.mpr ⟨ended, inTurn_of_lasts (lasts_process hle s) hended, rfl⟩

end Lasts

/-- A command ends exactly if the work on its files does, as it always does if they are compiled, and then
comes to the same on any more fuel. Its status is 0 exactly if no file fails, and 1 if one does; and each
file that fails is named on standard error with its failure, unless its assembly text could not be
printed. -/
theorem failures_reported {env : EnvVars} {args : List Text} {s : Settings}
    (hload : Settings.load env args = .ok s) (fuel : Nat) (w : World) :
    (runWithin fuel env args w = none ↔ attempts fuel s s.files w.toStock = none) ∧
    (s.mode = .compile → runWithin fuel env args w ≠ none) ∧
    ∀ status w', runWithin fuel env args w = some (status, w') →
      (∀ fuel', fuel ≤ fuel' → runWithin fuel' env args w = some (status, w')) ∧
      ∃ done, attempts fuel s s.files w.toStock = some done ∧
        (status = 0 ↔ ∀ e ∈ done, e.2 = none) ∧ (status = 0 ∨ status = 1) ∧
        (done.map Prod.fst <+: s.files ∧
          ((s.mode = .compile ∨ ∀ e ∈ done, e.2 = none) → done.map Prod.fst = s.files)) ∧
        ∀ path f, (path, some f) ∈ done → Reported (useColor s w) path f.cause w w' ∨
          f.phase = .printing ∧ s.mode = .compile ∧ outputPath path s.output = console := by
  have hrun : runWithin fuel env args w = (work fuel s w).map (conclude s) := by rw [runWithin, hload]
  have hsettled : Settled s w (attempts fuel s s.files w.toStock) (work fuel s w) :=
    settled_inTurn fuel s s.files w
  have hends : runWithin fuel env args w = none ↔ attempts fuel s s.files w.toStock = none := by
    rw [hrun, Option.map_eq_none_iff, hsettled.eq_none_iff]
  refine ⟨hends, fun hmode hnone => attempts_ne_none fuel hmode _ _ (hends.mp hnone),
    fun status w' hended => ⟨fun fuel' hle => runWithin_of_le hle hended, ?_⟩⟩
  rw [hrun] at hended
  obtain ⟨r, hwork, hconclude⟩ := Option.map_eq_some_iff.mp hended
  rw [hwork] at hsettled
  obtain ⟨done, hdone, haccounts⟩ := hsettled.accounts
  obtain ⟨hstatus, hone, hreported⟩ := haccounts.conclude
  rw [hconclude] at hstatus hone hreported
  exact ⟨done, hdone, hstatus, hone, map_fst_attempts hdone, hreported⟩

/-- Two sources, of which the first assigns nothing to a variable. -/
def oneBroken : World where
  disk := { files := [(["a.pas"], "x := ;"), (["b.pas"], "WRITELN(2);")] }
  input := .ofText [] none

/-- What the first one fails with. -/
def missingExpression : Failure :=
  ⟨.parsing, .parse "expected an expression, got \";\"" ⟨1, 6⟩⟩

theorem broken_source_reported :
    Settings.load [] ["-mode=compile", "a.pas", "b.pas"] = .ok (compiling ["a.pas", "b.pas"]) ∧
      ∃ w', runWithin 0 [] ["-mode=compile", "a.pas", "b.pas"] oneBroken = some (1, w') ∧
        Reported false "a.pas" missingExpression.cause oneBroken w' := by
  have hload : Settings.load [] ["-mode=compile", "a.pas", "b.pas"] =
      .ok (compiling ["a.pas", "b.pas"]) := by decide +kernel
  have hattempts : attempts 0 (compiling ["a.pas", "b.pas"]) ["a.pas", "b.pas"] oneBroken.toStock =
      some [(Text.ofString "a.pas", some missingExpression), (Text.ofString "b.pas", none)] := by
    decide +kernel
  obtain ⟨-, hends, hresult⟩ := failures_reported hload 0 oneBroken
  obtain ⟨⟨status, w'⟩, hrun⟩ := Option.ne_none_iff_exists'.mp (hends rfl)
  obtain ⟨-, done, hdone, hstatus, hone, -, hreported⟩ := hresult status w' hrun
  obtain rfl := Option.some.inj (hattempts.symm.trans hdone)
  have hfailed : status ≠ 0 := fun hzero => by cases hstatus.mp hzero _ List.mem_cons_self
  obtain rfl := hone.resolve_left hfailed
  refine ⟨hload, w', hrun, (hreported _ _ List.mem_cons_self).resolve_right fun h => ?_⟩
  cases h.1

/-- A source on the input, and an output that takes nothing. -/
def closedOutput : World where
  input := .ofText "WRITELN(1);" none
  stdout := { room := some 0, reason := "sink closed" }

/-- That an assembly text could not be printed shows in the status alone. -/
theorem lost_assembly_unreported :
    Settings.load [] ["-mode=compile", "-"] = .ok (compiling [console]) ∧
      attempts 0 (compiling [console]) [console] closedOutput.toStock =
        some [(console, some ⟨.printing, .during "write assembly" (.other "sink closed")⟩)] ∧
      (runWithin 0 [] ["-mode=compile", "-"] closedOutput).map (fun r => (r.1, r.2.errors)) =
        some (1, []) := by
  refine ⟨?_, ?_, ?_⟩ <;> decide +kernel

end Command

end MiniPascal
