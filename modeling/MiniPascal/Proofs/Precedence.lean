import Mathlib
import MiniPascal.Command.Settings

/-! Where settings come from. Each field is what the last setting of its flag says, or else what its
environment variable says, or else what it is at first; only then is the whole checked. -/

namespace MiniPascal

/-- A flag, a text for its value, and the setting that they make. -/
inductive Writes : Text → Text → Setting → Prop where
  | mode (v : Text) : Writes "mode" v (.mode v)
  | output (v : Text) : Writes "o" v (.output v)
  | verbose {v : Text} {b : Bool} (h : readBool? v = some b) : Writes "v" v (.verbose b)
  | logFormat (v : Text) : Writes "log-format" v (.logFormat v)
  | dumpTree {v : Text} {b : Bool} (h : readBool? v = some b) : Writes "dump-ast" v (.dumpTree b)
  | maxSteps {v : Text} {n : Int} (h : Numeral.read .detected 64 v = .ok n) :
    Writes "max-steps" v (.maxSteps n)
  | color (v : Text) : Writes "color" v (.color v)

def Setting.isToggle : Setting → Bool
  | .verbose _ => true
  | .dumpTree _ => true
  | _ => false

/-- The arguments that make one setting: a flag with its value behind an equals sign or, unless it is a
toggle, in the next argument; or a toggle that is turned on. -/
inductive Spelled : List Text → Setting → Prop where
  | joined {hyphens name value : Text} {s : Setting} (hh : hyphens = "-" ∨ hyphens = "--")
    (hw : Writes name value s) : Spelled [hyphens ++ name ++ "=" ++ value] s
  | apart {hyphens name value : Text} {s : Setting} (hh : hyphens = "-" ∨ hyphens = "--")
    (hw : Writes name value s) (hs : s.isToggle = false) : Spelled [hyphens ++ name, value] s
  | verbose {hyphens : Text} (hh : hyphens = "-" ∨ hyphens = "--") :
    Spelled [hyphens ++ "v"] (.verbose true)
  | dumpTree {hyphens : Text} (hh : hyphens = "-" ∨ hyphens = "--") :
    Spelled [hyphens ++ "dump-ast"] (.dumpTree true)

/-- The arguments behind the settings, and the files that they name. -/
inductive NamesFiles : List Text → List Text → Prop where
  | none : NamesFiles [] []
  | console (rest : List Text) : NamesFiles ("-" :: rest) ("-" :: rest)
  | file {first : Text} (hfirst : first.head? ≠ some (.char '-')) (rest : List Text) :
    NamesFiles (first :: rest) (first :: rest)
  | marked (files : List Text) : NamesFiles ("--" :: files) files

section Flags

variable {hyphens name value : Text} {s : Setting} {ss : List Setting} {rest tail files : List Text}

theorem Writes.ofText_joined (h : Writes name value s) (hh : hyphens = "-" ∨ hyphens = "--") :
    Argument.ofText (hyphens ++ name ++ "=" ++ value) = .flag name (some value) := by
  rcases hh with rfl | rfl <;> cases h <;> rfl

theorem Writes.ofText_apart (h : Writes name value s) (hh : hyphens = "-" ∨ hyphens = "--") :
    Argument.ofText (hyphens ++ name) = .flag name none := by
  rcases hh with rfl | rfl <;> cases h <;> rfl

theorem Writes.exists_kind (h : Writes name value s) :
    ∃ kind, flagKinds.get? name = some kind ∧ kind.setting name value = .ok s ∧
      (s.isToggle = false → ∀ make, kind ≠ .toggle make) := by
  cases h with
  | mode => exact ⟨_, rfl, rfl, fun _ _ => by simp⟩
  | output => exact ⟨_, rfl, rfl, fun _ _ => by simp⟩
  | verbose h => exact ⟨_, rfl, by simp [FlagKind.setting, h], by simp [Setting.isToggle]⟩
  | logFormat => exact ⟨_, rfl, rfl, fun _ _ => by simp⟩
  | dumpTree h => exact ⟨_, rfl, by simp [FlagKind.setting, h], by simp [Setting.isToggle]⟩
  | maxSteps h => exact ⟨_, rfl, by simp [FlagKind.setting, h], fun _ _ => by simp⟩
  | color => exact ⟨_, rfl, rfl, fun _ _ => by simp⟩

theorem readFlags_joined {arg : Text} {kind : FlagKind}
    (harg : Argument.ofText arg = .flag name (some value)) (hkind : flagKinds.get? name = some kind)
    (hsetting : kind.setting name value = .ok s) (hrest : readFlags rest = .ok (ss, files)) :
    readFlags (arg :: rest) = .ok (s :: ss, files) := by
  rw [readFlags]
  simp only [harg, hkind, hsetting, hrest]
  rfl

theorem readFlags_apart {arg : Text} {kind : FlagKind} (harg : Argument.ofText arg = .flag name none)
    (hkind : flagKinds.get? name = some kind) (hplain : ∀ make, kind ≠ .toggle make)
    (hsetting : kind.setting name value = .ok s) (hrest : readFlags rest = .ok (ss, files)) :
    readFlags (arg :: value :: rest) = .ok (s :: ss, files) := by
  rw [readFlags]
  cases kind with
  | text make =>
    simp only [harg, hkind, hsetting, hrest]
    rfl
  | number make =>
    simp only [harg, hkind, hsetting, hrest]
    rfl
  | toggle make => exact absurd rfl (hplain make)

theorem readFlags_toggle {arg : Text} {make : Bool → Setting}
    (harg : Argument.ofText arg = .flag name none) (hkind : flagKinds.get? name = some (.toggle make))
    (hrest : readFlags rest = .ok (ss, files)) :
    readFlags (arg :: rest) = .ok (make true :: ss, files) := by
  rw [readFlags]
  simp only [harg, hkind, hrest]
  rfl

/-- The arguments of one setting are read as it, whatever follows. -/
theorem Spelled.read {chunk : List Text} (h : Spelled chunk s)
    (hrest : readFlags rest = .ok (ss, files)) : readFlags (chunk ++ rest) = .ok (s :: ss, files) := by
  cases h with
  | joined hh hw =>
    obtain ⟨kind, hkind, hsetting, -⟩ := hw.exists_kind
    exact readFlags_joined (hw.ofText_joined hh) hkind hsetting hrest
  | apart hh hw hs =>
    obtain ⟨kind, hkind, hsetting, hplain⟩ := hw.exists_kind
    exact readFlags_apart (hw.ofText_apart hh) hkind (hplain hs) hsetting hrest
  | verbose hh =>
    have hw : Writes "v" "true" (.verbose true) := .verbose rfl
    exact readFlags_toggle (hw.ofText_apart hh) rfl hrest
  | dumpTree hh =>
    have hw : Writes "dump-ast" "true" (.dumpTree true) := .dumpTree rfl
    exact readFlags_toggle (hw.ofText_apart hh) rfl hrest

theorem NamesFiles.read (h : NamesFiles tail files) : readFlags tail = .ok ([], files) := by
  cases h with
  | none => rfl
  | console rest => rfl
  | @file first hfirst rest =>
    have harg : Argument.ofText first = .file := by
      unfold Argument.ofText
      split <;> first | rfl | simp at hfirst
    rw [readFlags, harg]
  | marked files => rfl

theorem readFlags_of_spelled {chunks : List (List Text)} (h : List.Forall₂ Spelled chunks ss)
    (htail : NamesFiles tail files) : readFlags (chunks.flatten ++ tail) = .ok (ss, files) := by
  induction h with
  | nil => exact htail.read
  | cons hs _ ih =>
    rw [List.flatten_cons, List.append_assoc]
    exact hs.read ih

end Flags

namespace Setting

def mode? : Setting → Option Text
  | .mode v => some v
  | _ => none

def output? : Setting → Option Text
  | .output v => some v
  | _ => none

def verbose? : Setting → Option Bool
  | .verbose b => some b
  | _ => none

def logFormat? : Setting → Option Text
  | .logFormat v => some v
  | _ => none

def dumpTree? : Setting → Option Bool
  | .dumpTree b => some b
  | _ => none

def maxSteps? : Setting → Option Int
  | .maxSteps n => some n
  | _ => none

def color? : Setting → Option Text
  | .color v => some v
  | _ => none

def flag : Setting → Text
  | .mode _ => "mode"
  | .output _ => "o"
  | .verbose _ => "v"
  | .logFormat _ => "log-format"
  | .dumpTree _ => "dump-ast"
  | .maxSteps _ => "max-steps"
  | .color _ => "color"

end Setting

namespace EnvVars

/-- What a variable holds, if it is not empty. -/
def text? (env : EnvVars) (name : Text) : Option Text :=
  if env.value name = [] then none else some (env.value name)

def truth? (env : EnvVars) (name : Text) : Option Bool := readBool? (env.value name)

def number? (env : EnvVars) (name : Text) : Option Int :=
  (Numeral.read .decimal 64 (env.value name)).toOption

/-- Each field as the last setting of its flag says, or else its variable, or else the default. -/
def merge (env : EnvVars) (ss : List Setting) : Draft where
  mode := (ss.filterMap Setting.mode?).getLastD ((env.text? "PASCALC_MODE").getD "run")
  output := (ss.filterMap Setting.output?).getLastD ((env.text? "PASCALC_OUTPUT").getD [])
  verbose := (ss.filterMap Setting.verbose?).getLastD ((env.truth? "PASCALC_VERBOSE").getD false)
  logFormat := (ss.filterMap Setting.logFormat?).getLastD ((env.text? "PASCALC_LOG_FORMAT").getD "text")
  dumpTree := (ss.filterMap Setting.dumpTree?).getLastD ((env.truth? "PASCALC_DUMP_AST").getD false)
  maxSteps := (ss.filterMap Setting.maxSteps?).getLastD ((env.number? "PASCALC_MAX_STEPS").getD 0)
  color := (ss.filterMap Setting.color?).getLastD ((env.text? "PASCALC_COLOR").getD "auto")

/-- The variables that hold truth values and a number hold such values, or nothing. -/
structure Valid (env : EnvVars) : Prop where
  verbose : env.value "PASCALC_VERBOSE" = [] ∨ (env.truth? "PASCALC_VERBOSE").isSome
  dumpTree : env.value "PASCALC_DUMP_AST" = [] ∨ (env.truth? "PASCALC_DUMP_AST").isSome
  maxSteps : env.value "PASCALC_MAX_STEPS" = [] ∨ (env.number? "PASCALC_MAX_STEPS").isSome

variable {env : EnvVars} {name : Text}

theorem textSetting_eq (make : Text → Setting) :
    env.textSetting name make = (env.text? name).toList.map make := by
  rw [textSetting, text?]
  split <;> rfl

theorem boolSetting_eq (h : env.value name = [] ∨ (env.truth? name).isSome) (make : Bool → Setting) :
    env.boolSetting name make = .ok ((env.truth? name).toList.map make) := by
  rw [truth?] at h ⊢
  rw [boolSetting]
  by_cases hempty : env.value name = []
  · rw [if_pos hempty, hempty]
    rfl
  · obtain ⟨b, hb⟩ := Option.isSome_iff_exists.mp (h.resolve_left hempty)
    rw [if_neg hempty, hb]
    rfl

theorem numberSetting_eq (h : env.value name = [] ∨ (env.number? name).isSome)
    (make : Int → Setting) :
    env.numberSetting name make = .ok ((env.number? name).toList.map make) := by
  rw [number?] at h ⊢
  rw [numberSetting]
  by_cases hempty : env.value name = []
  · rw [if_pos hempty, hempty]
    rfl
  · have hsome := h.resolve_left hempty
    rw [if_neg hempty]
    cases hread : Numeral.read .decimal 64 (env.value name) with
    | ok n => rfl
    | error e => simp [hread, Except.toOption] at hsome

def made (env : EnvVars) : List Setting :=
  (env.text? "PASCALC_MODE").toList.map .mode ++ (env.text? "PASCALC_OUTPUT").toList.map .output ++
    (env.text? "PASCALC_LOG_FORMAT").toList.map .logFormat ++
    (env.text? "PASCALC_COLOR").toList.map .color ++
    (env.truth? "PASCALC_VERBOSE").toList.map .verbose ++
    (env.truth? "PASCALC_DUMP_AST").toList.map .dumpTree ++
    (env.number? "PASCALC_MAX_STEPS").toList.map .maxSteps

theorem settings_eq (h : env.Valid) : env.settings = .ok env.made := by
  rw [settings, boolSetting_eq h.verbose, boolSetting_eq h.dumpTree, numberSetting_eq h.maxSteps,
    textSetting_eq, textSetting_eq, textSetting_eq, textSetting_eq]
  rfl

end EnvVars

attribute [ext] Draft

namespace Draft

variable {α : Type} {get : Draft → α} {part : Setting → Option α}

/-- A field that each setting leaves alone or sets has the last value that it is set to. -/
theorem get_applyAll (h : ∀ d s, get (d.apply s) = (part s).getD (get d)) (d : Draft)
    (ss : List Setting) : get (d.applyAll ss) = (ss.filterMap part).getLastD (get d) := by
  induction ss generalizing d with
  | nil => rfl
  | cons s ss ih =>
    have hstep : get (d.applyAll (s :: ss)) = (ss.filterMap part).getLastD (get (d.apply s)) := ih _
    rw [hstep, h]
    cases hs : part s with
    | none => rw [List.filterMap_cons_none hs, Option.getD_none]
    | some v => rw [List.filterMap_cons_some hs, Option.getD_some, List.getLastD_cons]

theorem getLastD_toList (o : Option α) (a : α) : o.toList.getLastD a = o.getD a := by
  cases o <;> rfl

/-- Flags win over variables, and variables over what there is at first. -/
theorem get_applyAll_made (h : ∀ d s, get (d.apply s) = (part s).getD (get d)) {env : EnvVars}
    {o : Option α} (hpart : env.made.filterMap part = o.toList) (ss : List Setting) :
    get (applyAll {} (env.made ++ ss)) = (ss.filterMap part).getLastD (o.getD (get {})) := by
  have happend : applyAll {} (env.made ++ ss) = applyAll (applyAll {} env.made) ss := List.foldl_append
  rw [happend, get_applyAll h, get_applyAll h, hpart, getLastD_toList]

theorem applyAll_made (env : EnvVars) (ss : List Setting) :
    applyAll {} (env.made ++ ss) = env.merge ss := by
  -- Each setting sets one field and leaves the others alone, so the fields are folds of their own.
  apply Draft.ext
  all_goals
    refine get_applyAll_made (fun d s => ?_) ?_ ss
    · cases s <;> rfl
    · simp [EnvVars.made, Function.comp_def, Setting.mode?, Setting.output?, Setting.verbose?,
        Setting.logFormat?, Setting.dumpTree?, Setting.maxSteps?, Setting.color?]

end Draft

section Order

variable {ss ss' : List Setting}

/-- The settings of any one flag are the same and in the same order. -/
def SameOrder (ss ss' : List Setting) : Prop :=
  ∀ name, ss.filter (·.flag = name) = ss'.filter (·.flag = name)

/-- What one flag sets depends on the settings of that flag alone. -/
theorem SameOrder.filterMap_eq {α : Type} (h : SameOrder ss ss') {part : Setting → Option α}
    (hpart : ∀ s s', (part s).isSome = true → (part s').isSome = true → s.flag = s'.flag) :
    ss.filterMap part = ss'.filterMap part := by
  by_cases hnone : ∀ s, part s = none
  · rw [List.filterMap_eq_nil_iff.mpr fun s _ => hnone s, List.filterMap_eq_nil_iff.mpr fun s _ => hnone s]
  · obtain ⟨first, hfirst⟩ := not_forall.mp hnone
    have hfilter : ∀ ss : List Setting,
        (ss.filter (·.flag = first.flag)).filterMap part = ss.filterMap part := by
      intro ss
      rw [List.filterMap_filter]
      refine List.filterMap_congr fun s _ => ?_
      cases hs : part s with
      | none => simp
      | some v =>
        have hflag := hpart s first (by rw [hs]; rfl) (Option.isSome_iff_ne_none.mpr hfirst)
        simp [hflag]
    rw [← hfilter ss, h first.flag, hfilter]

theorem SameOrder.merge_eq (h : SameOrder ss ss') (env : EnvVars) : env.merge ss = env.merge ss' := by
  -- Each field of a draft is the last one that its flag has set.
  apply Draft.ext
  all_goals
    refine congrArg (List.getLastD · _) (h.filterMap_eq fun s s' hs hs' => ?_)
    cases s <;> cases hs
    cases s' <;> cases hs'
    rfl

end Order

def Mode.word : Mode → Text
  | run => "run"
  | compile => "compile"
  | exec => "exec"

def LogFormat.word : LogFormat → Text
  | text => "text"
  | json => "json"

def Color.word : Color → Text
  | auto => "auto"
  | always => "always"
  | never => "never"

namespace Draft

/-- What is wrong with a draft and the files that go with it. -/
inductive Fault (d : Draft) (files : List Text) : UsageError → Prop where
  | mode (h : ∀ m : Mode, m.word ≠ d.mode) : Fault d files (.invalidMode d.mode)
  | logFormat (h : ∀ f : LogFormat, f.word ≠ d.logFormat) : Fault d files (.invalidLogFormat d.logFormat)
  | color (h : ∀ c : Color, c.word ≠ d.color) : Fault d files (.invalidColor d.color)
  | maxSteps (h : d.maxSteps < 0) : Fault d files (.negativeSteps d.maxSteps)
  | noFiles (h : files = []) : Fault d files .noFiles
  | output (h : d.output ≠ []) (hmany : 1 < files.length) : Fault d files (.outputForMany files.length)
  | console (h : 1 < files.count (Text.ofString "-")) : Fault d files .stdinTwice

/-- The settings say what the draft says. -/
structure Yields (d : Draft) (files : List Text) (s : Settings) : Prop where
  mode : s.mode.word = d.mode
  output : s.output = if d.output = [] then none else some d.output
  verbose : s.verbose = d.verbose
  logFormat : s.logFormat.word = d.logFormat
  dumpTree : s.dumpTree = d.dumpTree
  maxSteps : s.maxSteps = d.maxSteps
  color : s.color.word = d.color
  files : s.files = files

end Draft

theorem Table.get?_eq_some_iff_word {β : Type} {names : Table β} {word : β → Text}
    (hwords : ∀ entry ∈ names, word entry.2 = entry.1) (hall : ∀ b, names.get? (word b) = some b)
    {t : Text} {b : β} : names.get? t = some b ↔ word b = t := by
  refine ⟨fun h => ?_, fun h => h ▸ hall b⟩
  obtain ⟨before, after, rfl, -⟩ := List.lookup_eq_some_iff.mp h
  exact hwords (t, b) (by simp)

theorem Mode.get?_names {t : Text} {m : Mode} : Mode.names.get? t = some m ↔ m.word = t :=
  Table.get?_eq_some_iff_word (by decide) fun m => by cases m <;> rfl

theorem LogFormat.get?_names {t : Text} {f : LogFormat} :
    LogFormat.names.get? t = some f ↔ f.word = t :=
  Table.get?_eq_some_iff_word (by decide) fun f => by cases f <;> rfl

theorem Color.get?_names {t : Text} {c : Color} : Color.names.get? t = some c ↔ c.word = t :=
  Table.get?_eq_some_iff_word (by decide) fun c => by cases c <;> rfl

theorem Draft.check_of_words {d : Draft} {files : List Text} {mode : Mode} {format : LogFormat}
    {color : Color} (hmode : Mode.names.get? d.mode = some mode)
    (hformat : LogFormat.names.get? d.logFormat = some format)
    (hcolor : Color.names.get? d.color = some color) :
    (∃ e, d.check files = .error e ∧ d.Fault files e) ∨
      ∃ s, d.check files = .ok s ∧ d.Yields files s ∧ ∀ e, ¬ d.Fault files e := by
  rw [check, hmode, hformat, hcolor]
  dsimp only
  -- What is left is compared in the order of the faults; the first one found is the answer.
  by_cases hsteps : d.maxSteps < 0
  · exact .inl ⟨_, if_pos hsteps, .maxSteps hsteps⟩
  rw [if_neg hsteps]
  by_cases hfiles : files = []
  · exact .inl ⟨_, if_pos hfiles, .noFiles hfiles⟩
  rw [if_neg hfiles]
  by_cases houtput : d.output ≠ [] ∧ 1 < files.length
  · exact .inl ⟨_, if_pos houtput, .output houtput.1 houtput.2⟩
  rw [if_neg houtput]
  by_cases hconsole : 1 < files.count (Text.ofString "-")
  · exact .inl ⟨_, if_pos hconsole, .console hconsole⟩
  rw [if_neg hconsole]
  have hmode := Mode.get?_names.mp hmode
  have hformat := LogFormat.get?_names.mp hformat
  have hcolor := Color.get?_names.mp hcolor
  refine .inr ⟨_, rfl, ⟨hmode, rfl, rfl, hformat, rfl, ?_, hcolor, rfl⟩, fun e he => ?_⟩
  · exact Int.toNat_of_nonneg (Int.not_lt.mp hsteps)
  · cases he with
    | mode h => exact h mode hmode
    | logFormat h => exact h format hformat
    | color h => exact h color hcolor
    | maxSteps h => exact hsteps h
    | noFiles h => exact hfiles h
    | output h hmany => exact houtput ⟨h, hmany⟩
    | console h => exact hconsole h

theorem Draft.check_cases (d : Draft) (files : List Text) :
    (∃ e, d.check files = .error e ∧ d.Fault files e) ∨
      ∃ s, d.check files = .ok s ∧ d.Yields files s ∧ ∀ e, ¬ d.Fault files e := by
  cases hmode : Mode.names.get? d.mode with
  | none =>
    refine .inl ⟨_, by rw [check, hmode], .mode fun m hm => ?_⟩
    cases hmode.symm.trans (Mode.get?_names.mpr hm)
  | some mode =>
    cases hformat : LogFormat.names.get? d.logFormat with
    | none =>
      refine .inl ⟨_, by rw [check, hmode, hformat], .logFormat fun f hf => ?_⟩
      cases hformat.symm.trans (LogFormat.get?_names.mpr hf)
    | some format =>
      cases hcolor : Color.names.get? d.color with
      | none =>
        refine .inl ⟨_, by rw [check, hmode, hformat, hcolor], .color fun c hc => ?_⟩
        cases hcolor.symm.trans (Color.get?_names.mpr hc)
      | some color => exact check_of_words hmode hformat hcolor

section Load

variable {env : EnvVars} {chunks : List (List Text)} {ss : List Setting} {tail files : List Text}

theorem Settings.load_eq (henv : env.Valid) (hflags : List.Forall₂ Spelled chunks ss)
    (hfiles : NamesFiles tail files) :
    Settings.load env (chunks.flatten ++ tail) = ((env.merge ss).check files).mapError .usage := by
  rw [Settings.load, EnvVars.settings_eq henv, readFlags_of_spelled hflags hfiles]
  dsimp only
  rw [Draft.applyAll_made]
  cases (env.merge ss).check files <;> rfl

/-- Settings are what the last flags say, or else the variables, or else the defaults; there is a usage
error exactly if these together have a fault; and the order of different flags does not matter. -/
theorem Settings.load_merges (henv : env.Valid) (hflags : List.Forall₂ Spelled chunks ss)
    (hfiles : NamesFiles tail files) :
    ((∀ e, ¬ (env.merge ss).Fault files e) →
      ∃ s, Settings.load env (chunks.flatten ++ tail) = .ok s ∧ (env.merge ss).Yields files s) ∧
    ((∃ e, Settings.load env (chunks.flatten ++ tail) = .error (.usage e)) ↔
      ∃ e, (env.merge ss).Fault files e) ∧
    (∀ e, Settings.load env (chunks.flatten ++ tail) = .error e →
      ∃ fault, e = .usage fault ∧ (env.merge ss).Fault files fault) ∧
    ∀ chunks' ss', List.Forall₂ Spelled chunks' ss' → SameOrder ss ss' →
      Settings.load env (chunks'.flatten ++ tail) = Settings.load env (chunks.flatten ++ tail) := by
  have hload := load_eq henv hflags hfiles
  have horder : ∀ chunks' ss', List.Forall₂ Spelled chunks' ss' → SameOrder ss ss' →
      Settings.load env (chunks'.flatten ++ tail) = Settings.load env (chunks.flatten ++ tail) := by
    intro chunks' ss' hflags' hsame
    rw [hload, load_eq henv hflags' hfiles, hsame.merge_eq]
  rcases (env.merge ss).check_cases files with ⟨e, hcheck, hfault⟩ | ⟨s, hcheck, hyields, hnone⟩
  · have herror : Settings.load env (chunks.flatten ++ tail) = .error (.usage e) := by
      rw [hload, hcheck]
      rfl
    refine ⟨fun h => absurd hfault (h e), ⟨fun _ => ⟨e, hfault⟩, fun _ => ⟨e, herror⟩⟩, fun e' he' => ?_,
      horder⟩
    exact ⟨e, Except.error.inj (he'.symm.trans herror), hfault⟩
  · have hok : Settings.load env (chunks.flatten ++ tail) = .ok s := by
      rw [hload, hcheck]
      rfl
    refine ⟨fun _ => ⟨s, hok, hyields⟩, ⟨?_, ?_⟩, fun e he => ?_, horder⟩
    · rintro ⟨e, he⟩
      cases he.symm.trans hok
    · rintro ⟨e, he⟩
      exact absurd he (hnone e)
    · cases he.symm.trans hok

/-- Two settings of one flag, a toggle that is turned off against its variable, and a file name that
begins like a flag. -/
theorem Settings.load_exec : ∃ s,
    Settings.load [("PASCALC_MODE", "compile"), ("PASCALC_VERBOSE", "1"), ("PASCALC_COLOR", "never")]
      ["-v=0", "--max-steps", "0x10", "-mode", "run", "--mode=exec", "--", "-x.s"] = .ok s ∧
    s.mode.word = "exec" ∧ s.verbose = false ∧ s.maxSteps = 16 ∧ s.color.word = "never" ∧
    s.files = ["-x.s"] := by
  have henv : EnvVars.Valid
      [("PASCALC_MODE", "compile"), ("PASCALC_VERBOSE", "1"), ("PASCALC_COLOR", "never")] :=
    ⟨by decide +kernel, by decide +kernel, by decide +kernel⟩
  have hflags : List.Forall₂ Spelled
      [["-v=0"], ["--max-steps", "0x10"], ["-mode", "run"], ["--mode=exec"]]
      [.verbose false, .maxSteps 16, .mode "run", .mode "exec"] :=
    .cons (@Spelled.joined "-" "v" "0" _ (.inl rfl) (.verbose rfl)) <|
    .cons (@Spelled.apart "--" "max-steps" "0x10" _ (.inr rfl) (.maxSteps rfl) rfl) <|
    .cons (@Spelled.apart "-" "mode" "run" _ (.inl rfl) (.mode _) rfl) <|
    .cons (@Spelled.joined "--" "mode" "exec" _ (.inr rfl) (.mode _)) .nil
  obtain ⟨s, hload, hyields⟩ := (Settings.load_merges henv hflags (.marked ["-x.s"])).1 fun e he => by
    cases he with
    | mode h => exact h .exec rfl
    | logFormat h => exact h .text rfl
    | color h => exact h .never rfl
    | maxSteps h => exact absurd h (by decide)
    | noFiles h => cases h
    | output h => exact h rfl
    | console h => exact absurd h (by decide)
  exact ⟨s, hload, hyields.mode, hyields.verbose, Int.ofNat.inj hyields.maxSteps, hyields.color,
    hyields.files⟩

end Load

end MiniPascal
