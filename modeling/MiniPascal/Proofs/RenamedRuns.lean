import MiniPascal.Proofs.Fuel
import MiniPascal.Proofs.Renaming

/-! Runs of a program under other names. Step by step the two environments differ in their names only,
so the two runs write and read the same, and if they stop, they stop for the same reason at the same
place. -/

namespace MiniPascal

section Rename

variable (σ : Text → Text)

def Scope.rename (s : Scope) : Scope :=
  ⟨s.vars.rename σ id, s.procs.rename σ (Procedure.rename σ)⟩

def Env.rename (env : Env) : Env := env.map (Scope.rename σ)

def RunState.rename (s : RunState) : RunState := { s with env := Env.rename σ s.env }

end Rename

/-- The reason without the names that its text mentions. -/
def RunCause.nameless : RunCause → RunCause
  | depthLimit limit _ => depthLimit limit []
  | undefinedProcedure _ => undefinedProcedure []
  | arity _ expected found => arity [] expected found
  | operator error _ => operator error []
  | stepLimit limit => stepLimit limit
  | noInput => noInput
  | input error => input error
  | cannotExecute => cannotExecute
  | cannotEvaluate => cannotEvaluate

def RunError.nameless : RunError → RunError
  | stopped cause pos => stopped cause.nameless pos
  | output reason => output reason
  | outOfFuel => outOfFuel

variable {σ : Text → Text}

namespace Env

theorem rename_cons (scope : Scope) (outer : Env) :
    Env.rename σ (scope :: outer) = scope.rename σ :: Env.rename σ outer := rfl

variable (hσ : Function.Injective σ) (env : Env) (name : Text)

include hσ

theorem get?_rename : (Env.rename σ env).get? (σ name) = env.get? name := by
  induction env with
  | nil => rfl
  | cons scope outer ih =>
    have hget := Table.get?_rename hσ id scope.vars name
    rw [Option.map_id_fun, id] at hget
    rw [rename_cons, Env.get?, Env.get?, ih, Scope.rename, hget]

theorem getProc?_rename :
    (Env.rename σ env).getProc? (σ name) = (env.getProc? name).map (Procedure.rename σ) := by
  induction env with
  | nil => rfl
  | cons scope outer ih =>
    have hget := Table.get?_rename hσ (Procedure.rename σ) scope.procs name
    rw [rename_cons, Env.getProc?, Env.getProc?, ih, Scope.rename, hget]
    cases scope.procs.get? name with
    | none => rfl
    | some q => rfl

theorem update?_rename (v : Int32) :
    (Env.rename σ env).update? (σ name) v = (env.update? name v).map (Env.rename σ) := by
  induction env with
  | nil => rfl
  | cons scope outer ih =>
    have hcontains := Table.contains_rename hσ id scope.vars name
    have hset := Table.set_rename hσ id scope.vars name v
    rw [rename_cons, Env.update?, Env.update?, ih, Scope.rename, hcontains]
    by_cases h : scope.vars.contains name = true
    · rw [if_pos h, if_pos h, Option.map_some, rename_cons, Scope.rename, hset]
      rfl
    · rw [if_neg h, if_neg h, Option.map_map, Option.map_map]
      rfl

theorem set_rename (v : Int32) : Env.rename σ (env.set name v) = (Env.rename σ env).set (σ name) v := by
  have hdeclare : Env.rename σ (env.declare name v) = (Env.rename σ env).declare (σ name) v := by
    cases env with
    | nil => rfl
    | cons scope outer =>
      have hset := Table.set_rename hσ id scope.vars name v
      rw [Env.declare, rename_cons, rename_cons, Env.declare, Scope.rename, hset]
      rfl
  rw [Env.set, Env.set, update?_rename hσ]
  cases env.update? name v with
  | none => exact hdeclare
  | some changed => rfl

theorem setProc_rename (q : Procedure) :
    Env.rename σ (env.setProc name q) = (Env.rename σ env).setProc (σ name) (q.rename σ) := by
  cases env with
  | nil => rfl
  | cons scope outer =>
    have hset := Table.set_rename hσ (Procedure.rename σ) scope.procs name q
    rw [Env.setProc, rename_cons, rename_cons, Env.setProc, Scope.rename, hset]
    rfl

end Env

namespace Run

theorem callScope_rename (hσ : Function.Injective σ) (q : Procedure) (values : List Int32) :
    (callScope q values).rename σ = callScope (q.rename σ) values := by
  have hzip : Table.rename σ id ((q.params.map Variable.name).zip values) =
      (((q.params.map (Variable.rename σ)).map Variable.name).zip values) := by
    rw [Variable.names_rename, List.zip_map_left (f := σ)]
    rfl
  have hset := Table.set_rename hσ id
    (Table.setAll [] ((q.params.map Variable.name).zip values)) q.name (0 : Int32)
  rw [Table.setAll_rename hσ, hzip] at hset
  rw [callScope, callScope, Scope.rename, hset]
  rfl

/-- Two results that differ in names only. -/
inductive Same (σ : Text → Text) {α : Type} :
    EStateM.Result RunError RunState α → EStateM.Result RunError RunState α → Prop where
  | ok (a : α) (s : RunState) : Same σ (.ok a s) (.ok a (s.rename σ))
  | error {e e' : RunError} (h : e'.nameless = e.nameless) (s : RunState) :
    Same σ (.error e s) (.error e' (s.rename σ))

/-- Two computations whose results differ in names only where their states do. -/
def Alike (σ : Text → Text) {α : Type} (x y : Run α) : Prop :=
  ∀ s, Same σ (x s) (y (s.rename σ))

variable {α β : Type} {x y : Run α}

theorem Alike.bind {f g : α → Run β} (h : Alike σ x y) (hrest : ∀ a, Alike σ (f a) (g a)) :
    Alike σ (x >>= f) (y >>= g) := by
  intro s
  have hfirst := h s
  change Same σ (EStateM.bind x f s) (EStateM.bind y g (s.rename σ))
  unfold EStateM.bind
  generalize x s = first, y (s.rename σ) = second at hfirst
  cases hfirst with
  | ok a t => exact hrest a t
  | error he t => exact .error he t

theorem alike_pure (a : α) : Alike σ (pure a : Run α) (pure a) := fun s => .ok a s

theorem alike_stop {cause cause' : RunCause} (h : cause'.nameless = cause.nameless) (pos : Position) :
    Alike σ (stop cause pos : Run α) (stop cause' pos) := by
  intro s
  have he : (RunError.stopped cause' pos).nameless = (RunError.stopped cause pos).nameless := by
    rw [RunError.nameless, RunError.nameless, h]
  exact .error he s

theorem alike_step (limits : Limits) (pos : Position) :
    Alike σ (step limits pos) (step limits pos) := by
  unfold step
  refine Alike.bind (fun s => .ok () { s with steps := s.steps + 1 }) fun _ => ?_
  cases limits.steps with
  | none => exact alike_pure ()
  | some limit =>
    intro s
    have hsteps : (s.rename σ).steps = s.steps := rfl
    dsimp only
    rw [get_bind, get_bind, hsteps]
    by_cases h : limit < s.steps
    · rw [if_pos h]
      exact alike_stop rfl pos s
    · rw [if_neg h]
      exact alike_pure () s

theorem alike_assign (hσ : Function.Injective σ) (name : Text) (v : Int32) :
    Alike σ (assign name v) (assign (σ name) v) := by
  intro s
  have hset := Env.set_rename hσ s.env name v
  have hsame := Same.ok (σ := σ) () { s with env := s.env.set name v }
  rw [RunState.rename] at hsame
  dsimp only at hsame
  rw [hset] at hsame
  exact hsame

theorem alike_readVariable (hσ : Function.Injective σ) (name : Text) :
    Alike σ (readVariable name) (readVariable (σ name)) := by
  intro s
  have hget : (s.rename σ).env.get? (σ name) = s.env.get? name := Env.get?_rename hσ s.env name
  unfold readVariable
  rw [get_bind, get_bind, hget]
  cases s.env.get? name with
  | none => exact ((alike_assign hσ name 0).bind fun _ => alike_pure 0) s
  | some v => exact .ok v s

theorem alike_writeLine (v : Int32) : Alike σ (writeLine v) (writeLine v) := by
  intro s
  have hsink : (s.rename σ).sink = s.sink := rfl
  unfold writeLine
  rw [get_bind, get_bind, hsink]
  cases s.sink.write (Text.bytes (Numeral.ofWord v ++ "\n")) with
  | ok sink => exact .ok () { s with sink }
  | error reason => exact .error rfl s

theorem alike_readValue (pos : Position) : Alike σ (readValue pos) (readValue pos) := by
  intro s
  have hinput : (s.rename σ).input = s.input := rfl
  unfold readValue
  rw [get_bind, get_bind, hinput]
  cases s.input with
  | none => exact alike_stop rfl pos s
  | some input =>
    dsimp only
    cases input.next with
    | mk outcome rest =>
      cases outcome with
      | ok v => exact .ok v { s with input := some rest }
      | error e => exact alike_stop rfl pos { s with input := some rest }

theorem Alike.within (hσ : Function.Injective σ) {x y : Run Unit} (h : Alike σ x y) (scope : Scope)
    (name : Text) :
    Alike σ (Run.within scope name x) (Run.within (scope.rename σ) (σ name) y) := by
  intro s
  have hbody := h { s with env := s.env.push scope, depth := s.depth + 1 }
  have hpush : { s.rename σ with
      env := (s.rename σ).env.push (scope.rename σ), depth := (s.rename σ).depth + 1 } =
      RunState.rename σ { s with env := s.env.push scope, depth := s.depth + 1 } := rfl
  unfold Run.within
  rw [hpush]
  generalize x _ = first, y _ = second at hbody ⊢
  cases hbody with
  | ok a t =>
    have hvalue : (t.rename σ).env.get? (σ name) = t.env.get? name := Env.get?_rename hσ t.env name
    have hpop : (t.rename σ).env.pop = Env.rename σ t.env.pop := List.map_tail.symm
    dsimp only
    rw [hvalue, hpop]
    exact .ok _ { t with env := t.env.pop, depth := t.depth - 1 }
  | error he t =>
    have hpop : (t.rename σ).env.pop = Env.rename σ t.env.pop := List.map_tail.symm
    dsimp only
    rw [hpop]
    exact .error he { t with env := t.env.pop, depth := t.depth - 1 }

/-- Every part of the interpreter on a tree against the same part on the tree under other names. -/
structure Renames (σ : Text → Text) (limits : Limits) (n : Nat) : Prop where
  eval : ∀ e, Alike σ (eval limits n e) (eval limits n (e.rename σ))
  evalAll : ∀ es, Alike σ (evalAll limits n es) (evalAll limits n (Expr.renameAll σ es))
  invoke : ∀ token token' name args, token'.pos = token.pos →
    Alike σ (invoke limits n token name args)
      (invoke limits n token' (σ name) (Expr.renameAll σ args))
  exec : ∀ st, Alike σ (exec limits n st) (exec limits n (st.rename σ))
  execAll : ∀ sts, Alike σ (execAll limits n sts) (execAll limits n (Stmt.renameAll σ sts))
  repeatWhile : ∀ cond body, Alike σ (repeatWhile limits n cond body)
    (repeatWhile limits n (cond.rename σ) (body.rename σ))

namespace Renames

variable {limits : Limits} {n : Nat}

theorem zero : Renames σ limits 0 where
  eval _ s := .error rfl s
  evalAll _ s := .error rfl s
  invoke _ _ _ _ _ s := .error rfl s
  exec _ s := .error rfl s
  execAll _ s := .error rfl s
  repeatWhile _ _ s := .error rfl s

theorem eval_succ (h : Renames σ limits n) (hσ : Function.Injective σ) (e : Expr) :
    Alike σ (Run.eval limits (n + 1) e) (Run.eval limits (n + 1) (e.rename σ)) := by
  cases e with
  | literal token value tag isBool => exact alike_pure value
  | var v => exact alike_readVariable hσ v.name
  | binary token op left right =>
    refine (h.eval left).bind fun l => (h.eval right).bind fun r => ?_
    cases op.apply l r with
    | ok v => exact alike_pure v
    | error e =>
      apply alike_stop
      rfl
  | call token name args => exact h.invoke token _ name args rfl
  | missing => exact alike_stop rfl {}

theorem invoke_succ (h : Renames σ limits n) (hσ : Function.Injective σ) (token token' : Token)
    (name : Text) (args : List Expr) (hpos : token'.pos = token.pos) :
    Alike σ (Run.invoke limits (n + 1) token name args)
      (Run.invoke limits (n + 1) token' (σ name) (Expr.renameAll σ args)) := by
  intro s
  have hproc : (s.rename σ).env.getProc? (σ name) =
      (s.env.getProc? name).map (Procedure.rename σ) := Env.getProc?_rename hσ s.env name
  unfold Run.invoke
  rw [get_bind, get_bind, hproc, hpos, Expr.length_renameAll]
  cases s.env.getProc? name with
  | none =>
    refine alike_stop ?_ token.pos s
    rfl
  | some q =>
    have hparams : (q.rename σ).params.length = q.params.length := List.length_map _
    dsimp only [Option.map_some]
    rw [hparams]
    by_cases harity : args.length ≠ q.params.length
    · rw [if_pos harity, if_pos harity]
      refine alike_stop ?_ token.pos s
      rfl
    · rw [if_neg harity, if_neg harity]
      refine ((h.evalAll args).bind fun values t => ?_) s
      have hdepth : (t.rename σ).depth = t.depth := rfl
      rw [get_bind, get_bind, hdepth]
      by_cases hfull : limits.depth ≤ t.depth
      · rw [if_pos hfull, if_pos hfull]
        refine alike_stop ?_ token.pos t
        rfl
      · rw [if_neg hfull, if_neg hfull, ← callScope_rename hσ]
        exact (h.exec q.body).within hσ _ _ t

theorem exec_succ (h : Renames σ limits n) (hσ : Function.Injective σ) (st : Stmt) :
    Alike σ (Run.exec limits (n + 1) st) (Run.exec limits (n + 1) (st.rename σ)) := by
  unfold Run.exec
  rw [Stmt.pos_rename]
  refine (alike_step limits _).bind fun _ => ?_
  cases st with
  | assign token target value => exact (h.eval value).bind fun v => alike_assign hσ target.name v
  | block token body => exact h.execAll body
  | ifThen token cond body =>
    refine (h.eval cond).bind fun c => ?_
    by_cases hc : Word.isTrue c = true
    · simp only [if_pos hc]
      exact h.exec body
    · simp only [if_neg hc]
      exact alike_pure ()
  | ifElse token cond body alternative =>
    refine (h.eval cond).bind fun c => ?_
    by_cases hc : Word.isTrue c = true
    · simp only [if_pos hc]
      exact h.exec body
    · simp only [if_neg hc]
      exact h.exec alternative
  | loop token cond body => exact h.repeatWhile cond body
  | writeLn token value => exact (h.eval value).bind alike_writeLine
  | readLn token target =>
    exact (alike_readValue token.pos).bind fun v => alike_assign hσ target.name v
  | call token name args =>
    exact (h.invoke token { token with literal := σ name } name args rfl).bind fun _ => alike_pure ()
  | declare token name params body =>
    intro s
    have hset := Env.setProc_rename hσ s.env name ⟨name, params, body⟩
    have hsame := Same.ok (σ := σ) () { s with env := s.env.setProc name ⟨name, params, body⟩ }
    rw [RunState.rename] at hsame
    dsimp only at hsame
    rw [hset] at hsame
    exact hsame
  | missing => exact alike_stop rfl {}

theorem repeatWhile_succ (h : Renames σ limits n) (cond : Expr) (body : Stmt) :
    Alike σ (Run.repeatWhile limits (n + 1) cond body)
      (Run.repeatWhile limits (n + 1) (cond.rename σ) (body.rename σ)) := by
  unfold Run.repeatWhile
  refine (h.eval cond).bind fun c => ?_
  by_cases hc : Word.isTrue c = true
  · simp only [if_pos hc]
    exact (h.exec body).bind fun _ => h.repeatWhile cond body
  · simp only [if_neg hc]
    exact alike_pure ()

theorem succ (h : Renames σ limits n) (hσ : Function.Injective σ) : Renames σ limits (n + 1) where
  eval := h.eval_succ hσ
  evalAll es := by
    cases es with
    | nil => exact alike_pure []
    | cons e es =>
      exact (h.eval e).bind fun v => (h.evalAll es).bind fun vs => alike_pure (v :: vs)
  invoke := h.invoke_succ hσ
  exec := h.exec_succ hσ
  execAll sts := by
    cases sts with
    | nil => exact alike_pure ()
    | cons st sts => exact (h.exec st).bind fun _ => h.execAll sts
  repeatWhile := h.repeatWhile_succ

theorem all (hσ : Function.Injective σ) (limits : Limits) (n : Nat) : Renames σ limits n := by
  induction n with
  | zero => exact zero
  | succ n ih => exact ih.succ hσ

end Renames

theorem alike_statements (hσ : Function.Injective σ) (limits : Limits) (n : Nat) (p : Program) :
    Alike σ (statements limits n p) (statements limits n (p.rename σ)) := by
  have h := Renames.all hσ limits n
  have hprocedures := h.execAll (p.procedures.map Declaration.toStmt)
  rw [Stmt.renameAll_toStmt] at hprocedures
  unfold statements
  refine hprocedures.bind fun _ => ?_
  rw [Program.rename]
  cases p.main with
  | none => exact alike_pure ()
  | some st => exact h.exec st

/-- What a run shows: how it ends, what was written and what is left of the input. -/
def shown : EStateM.Result RunError RunState Unit → Option RunError × Sink × Option Input
  | .ok _ s => (none, s.sink, s.input)
  | .error e s => (some e.nameless, s.sink, s.input)

theorem Same.shown_eq {result result' : EStateM.Result RunError RunState Unit}
    (h : Same σ result result') : shown result' = shown result := by
  cases h with
  | ok a s => rfl
  | error he s => rw [shown, shown, he]; rfl

/-- A run of a program under other names shows the same as one of the program. -/
theorem shown_rename (hσ : Function.Injective σ) (limits : Limits) (n : Nat) (p : Program)
    (s : RunState) :
    shown (program limits n (p.rename σ) s) = shown (program limits n p s) := by
  exact (alike_statements hσ limits n p
    { s with env := .root, steps := 0, depth := 0 }).shown_eq

end Run

end MiniPascal
