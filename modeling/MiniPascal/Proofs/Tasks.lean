import Mathlib.Logic.Relation
import MiniPascal.Proofs.Fuel

/-! What the interpreter is at while it runs. A task starts further tasks; a property of tasks that goes
over to the tasks they start, the environments they leave and the faults they stop with is a guard, and
it holds throughout a run. -/

namespace MiniPascal

namespace Env

/-- An update changes the value in the first scope that has the variable, and nothing else. -/
theorem exists_of_update? {env env' : Env} {x : Text} {v : Int32} (h : env.update? x v = some env') :
    ∃ inner scope outer, env = inner ++ scope :: outer ∧
      env' = inner ++ { scope with vars := scope.vars.set x v } :: outer ∧
      scope.vars.contains x = true ∧ ∀ s ∈ inner, s.vars.contains x = false := by
  induction env generalizing env' with
  | nil => cases h
  | cons scope outer ih =>
    rw [update?] at h
    by_cases hx : scope.vars.contains x = true
    · rw [if_pos hx] at h
      cases h
      exact ⟨[], scope, outer, rfl, rfl, hx, fun _ hs => absurd hs List.not_mem_nil⟩
    · rw [if_neg hx] at h
      obtain ⟨outer', houter, rfl⟩ := Option.map_eq_some_iff.mp h
      obtain ⟨inner, found, rest, rfl, rfl, hfound, hinner⟩ := ih houter
      exact ⟨scope :: inner, found, rest, rfl, rfl, hfound,
        List.forall_mem_cons.mpr ⟨Bool.eq_false_iff.mpr hx, hinner⟩⟩

theorem procs_update? {env env' : Env} {x : Text} {v : Int32} (h : env.update? x v = some env') :
    env'.map Scope.procs = env.map Scope.procs := by
  obtain ⟨inner, scope, outer, rfl, rfl, -⟩ := exists_of_update? h
  rw [List.map_append, List.map_append]
  rfl

/-- Setting a variable binds no procedure. -/
theorem procs_set {env : Env} (h : env ≠ []) (x : Text) (v : Int32) :
    (env.set x v).map Scope.procs = env.map Scope.procs := by
  unfold set
  cases hupdate : env.update? x v with
  | some env' => exact procs_update? hupdate
  | none =>
    cases env with
    | nil => exact absurd rfl h
    | cons scope outer => rfl

end Env

namespace Run

variable {limits : Limits} {s : RunState}

theorem step_of_none (h : limits.steps = none) (pos : Position) :
    step limits pos s = .ok () { s with steps := s.steps + 1 } := by
  unfold step
  rw [h]
  rfl

theorem step_of_some {limit : Nat} (h : limits.steps = some limit) (pos : Position) :
    step limits pos s =
      if limit < s.steps + 1 then
        .error (.stopped (.stepLimit limit) pos) { s with steps := s.steps + 1 }
      else .ok () { s with steps := s.steps + 1 } := by
  unfold step
  rw [h]
  by_cases hn : limit < s.steps + 1
  · rw [if_pos hn]
    exact congrFun (if_pos hn) { s with steps := s.steps + 1 }
  · rw [if_neg hn]
    exact congrFun (if_neg hn) { s with steps := s.steps + 1 }

/-- A statement is counted, and a run without a step left stops at it. -/
theorem step_cases (limits : Limits) (pos : Position) (s : RunState) :
    step limits pos s = .ok () { s with steps := s.steps + 1 } ∨
      ∃ limit, step limits pos s =
        .error (.stopped (.stepLimit limit) pos) { s with steps := s.steps + 1 } := by
  cases hsteps : limits.steps with
  | none => exact .inl (step_of_none hsteps pos)
  | some limit =>
    rw [step_of_some hsteps]
    by_cases hlimit : limit < s.steps + 1
    · exact .inr ⟨limit, if_pos hlimit⟩
    · exact .inl (if_neg hlimit)

theorem readVariable_cases (x : Text) (s : RunState) :
    (∃ v, readVariable x s = .ok v s) ∨
      readVariable x s = .ok 0 { s with env := s.env.set x 0 } := by
  unfold readVariable
  rw [get_bind]
  cases s.env.get? x with
  | some v => exact .inl ⟨v, rfl⟩
  | none => exact .inr rfl

theorem writeLine_cases (v : Int32) (s : RunState) :
    (∃ bytes sink, s.sink.write bytes = .ok sink ∧ writeLine v s = .ok () { s with sink }) ∨
      ∃ reason, writeLine v s = .error (.output reason) s := by
  unfold writeLine
  rw [get_bind]
  cases hwrite : s.sink.write (Text.bytes (Numeral.ofWord v ++ Text.ofString "\n")) with
  | ok sink => exact .inl ⟨_, sink, hwrite, rfl⟩
  | error reason => exact .inr ⟨reason, rfl⟩

theorem readValue_cases (pos : Position) (s : RunState) :
    (∃ v input, readValue pos s = .ok v { s with input }) ∨
      ∃ cause input, readValue pos s = .error (.stopped cause pos) { s with input } ∧
        (cause = .noInput ∨ ∃ e, cause = .input e) := by
  unfold readValue
  rw [get_bind]
  cases s.input with
  | none => exact .inr ⟨_, s.input, rfl, .inl rfl⟩
  | some input =>
    dsimp only
    cases input.next with
    | mk outcome rest =>
      cases outcome with
      | ok v => exact .inl ⟨v, some rest, rfl⟩
      | error e => exact .inr ⟨_, some rest, rfl, .inr ⟨e, rfl⟩⟩

end Run

/-- What the interpreter can be at: a part of a program that it evaluates or executes. -/
inductive Task where
  | eval (e : Expr)
  | evalAll (es : List Expr)
  | invoke (token : Token) (name : Text) (args : List Expr)
  | exec (st : Stmt)
  | execAll (sts : List Stmt)
  | repeatWhile (cond : Expr) (body : Stmt)

/-- A task at its start, with the fuel that it gets and the state that it finds. -/
structure Moment where
  fuel : Nat
  task : Task
  state : RunState

section Starts

variable (limits : Limits)

/-- The tasks that a statement starts once it is counted. -/
inductive Stmt.Starts (n : Nat) (s : RunState) : Stmt → Task → RunState → Prop
  | assign {token : Token} {target : Variable} {value : Expr} :
      Starts n s (.assign token target value) (.eval value) s
  | block {token : Token} {body : List Stmt} : Starts n s (.block token body) (.execAll body) s
  | ifThen {token : Token} {cond : Expr} {body : Stmt} :
      Starts n s (.ifThen token cond body) (.eval cond) s
  | thenBody {token : Token} {cond : Expr} {body : Stmt} {v : Int32} {t : RunState}
      (hcond : Run.eval limits n cond s = .ok v t) (hv : Word.isTrue v = true) :
      Starts n s (.ifThen token cond body) (.exec body) t
  | ifElse {token : Token} {cond : Expr} {body alternative : Stmt} :
      Starts n s (.ifElse token cond body alternative) (.eval cond) s
  | ifBody {token : Token} {cond : Expr} {body alternative : Stmt} {v : Int32} {t : RunState}
      (hcond : Run.eval limits n cond s = .ok v t) (hv : Word.isTrue v = true) :
      Starts n s (.ifElse token cond body alternative) (.exec body) t
  | elseBody {token : Token} {cond : Expr} {body alternative : Stmt} {v : Int32} {t : RunState}
      (hcond : Run.eval limits n cond s = .ok v t) (hv : Word.isTrue v = false) :
      Starts n s (.ifElse token cond body alternative) (.exec alternative) t
  | loop {token : Token} {cond : Expr} {body : Stmt} :
      Starts n s (.loop token cond body) (.repeatWhile cond body) s
  | writeLn {token : Token} {value : Expr} : Starts n s (.writeLn token value) (.eval value) s
  | call {token : Token} {name : Text} {args : List Expr} :
      Starts n s (.call token name args) (.invoke token name args) s

/-- The tasks that a task starts itself, each in the state in which it does. -/
inductive Moment.Starts : Moment → Moment → Prop
  | left {n : Nat} {s : RunState} {token : Token} {op : Operator} {left right : Expr} :
      Starts ⟨n + 1, .eval (.binary token op left right), s⟩ ⟨n, .eval left, s⟩
  | right {n : Nat} {s t : RunState} {token : Token} {op : Operator} {left right : Expr} {v : Int32}
      (hleft : Run.eval limits n left s = .ok v t) :
      Starts ⟨n + 1, .eval (.binary token op left right), s⟩ ⟨n, .eval right, t⟩
  | call {n : Nat} {s : RunState} {token : Token} {name : Text} {args : List Expr} :
      Starts ⟨n + 1, .eval (.call token name args), s⟩ ⟨n, .invoke token name args, s⟩
  | first {n : Nat} {s : RunState} {e : Expr} {es : List Expr} :
      Starts ⟨n + 1, .evalAll (e :: es), s⟩ ⟨n, .eval e, s⟩
  | others {n : Nat} {s t : RunState} {e : Expr} {es : List Expr} {v : Int32}
      (hfirst : Run.eval limits n e s = .ok v t) :
      Starts ⟨n + 1, .evalAll (e :: es), s⟩ ⟨n, .evalAll es, t⟩
  | args {n : Nat} {s : RunState} {token : Token} {name : Text} {args : List Expr} {q : Procedure}
      (hq : s.env.getProc? name = some q) (hargs : args.length = q.params.length) :
      Starts ⟨n + 1, .invoke token name args, s⟩ ⟨n, .evalAll args, s⟩
  | body {n : Nat} {s t : RunState} {token : Token} {name : Text} {args : List Expr} {q : Procedure}
      {values : List Int32} (hq : s.env.getProc? name = some q)
      (hargs : args.length = q.params.length) (hvalues : Run.evalAll limits n args s = .ok values t)
      (hdepth : t.depth < limits.depth) :
      Starts ⟨n + 1, .invoke token name args, s⟩
        ⟨n, .exec q.body,
          { t with env := t.env.push (Run.callScope q values), depth := t.depth + 1 }⟩
  | exec {n : Nat} {s t u : RunState} {st : Stmt} {task : Task}
      (hstep : Run.step limits st.token.pos s = .ok () t) (hst : st.Starts limits n t task u) :
      Starts ⟨n + 1, .exec st, s⟩ ⟨n, task, u⟩
  | statement {n : Nat} {s : RunState} {st : Stmt} {sts : List Stmt} :
      Starts ⟨n + 1, .execAll (st :: sts), s⟩ ⟨n, .exec st, s⟩
  | statements {n : Nat} {s t : RunState} {st : Stmt} {sts : List Stmt}
      (hst : Run.exec limits n st s = .ok () t) :
      Starts ⟨n + 1, .execAll (st :: sts), s⟩ ⟨n, .execAll sts, t⟩
  | test {n : Nat} {s : RunState} {cond : Expr} {body : Stmt} :
      Starts ⟨n + 1, .repeatWhile cond body, s⟩ ⟨n, .eval cond, s⟩
  | round {n : Nat} {s t : RunState} {cond : Expr} {body : Stmt} {v : Int32}
      (hcond : Run.eval limits n cond s = .ok v t) (hv : Word.isTrue v = true) :
      Starts ⟨n + 1, .repeatWhile cond body, s⟩ ⟨n, .exec body, t⟩
  | again {n : Nat} {s t u : RunState} {cond : Expr} {body : Stmt} {v : Int32}
      (hcond : Run.eval limits n cond s = .ok v t) (hv : Word.isTrue v = true)
      (hbody : Run.exec limits n body t = .ok () u) :
      Starts ⟨n + 1, .repeatWhile cond body, s⟩ ⟨n, .repeatWhile cond body, u⟩

/-- The moments of a task: its own start and those of all the tasks that it leads to. -/
abbrev Moment.Reaches : Moment → Moment → Prop := Relation.ReflTransGen (Moment.Starts limits)

/-- The state in which a program starts. -/
def RunState.atStart (s : RunState) : RunState := { s with env := .root, steps := 0, depth := 0 }

/-- A moment in the run of a program: while it executes its declarations, or its main statement after
them. -/
inductive Program.Reaches (p : Program) (fuel : Nat) (s : RunState) : Moment → Prop
  | declarations {m : Moment}
      (h : Moment.Reaches limits
        ⟨fuel, .execAll (p.procedures.map Declaration.toStmt), s.atStart⟩ m) : Reaches p fuel s m
  | main {m : Moment} {st : Stmt} {t : RunState} (hmain : p.main = some st)
      (hdeclared :
        Run.execAll limits fuel (p.procedures.map Declaration.toStmt) s.atStart = .ok () t)
      (h : Moment.Reaches limits ⟨fuel, .exec st, t⟩ m) : Reaches p fuel s m

end Starts

/-- A property of the parts of a program, of environments with `k` scopes around the innermost one, and
of faults, such that tasks on guarded parts keep to guarded environments and stop with allowed faults. -/
structure Guard where
  expr : Expr → Prop
  stmt : Stmt → Prop
  env : Nat → Env → Prop
  fault : RunCause → Position → Prop
  binary : ∀ {token op left right}, expr (.binary token op left right) → expr left ∧ expr right
  args : ∀ {token name args}, expr (.call token name args) → ∀ e ∈ args, expr e
  assign : ∀ {token target value}, stmt (.assign token target value) → expr value
  block : ∀ {token body}, stmt (.block token body) → ∀ st ∈ body, stmt st
  ifThen : ∀ {token cond body}, stmt (.ifThen token cond body) → expr cond ∧ stmt body
  ifElse : ∀ {token cond body alternative}, stmt (.ifElse token cond body alternative) →
    expr cond ∧ stmt body ∧ stmt alternative
  loop : ∀ {token cond body}, stmt (.loop token cond body) → expr cond ∧ stmt body
  writeLn : ∀ {token value}, stmt (.writeLn token value) → expr value
  call : ∀ {token name args}, stmt (.call token name args) → expr (.call token name args)
  body : ∀ {k env' token name args q}, expr (.call token name args) → env k env' →
    env'.getProc? name = some q → stmt q.body
  set : ∀ {k env'} (x : Text) (v : Int32), env k env' → env k (env'.set x v)
  push : ∀ {k env'} (q : Procedure) (values : List Int32), env k env' →
    env (k + 1) (env'.push (Run.callScope q values))
  pop : ∀ {k env'}, env (k + 1) env' → env k env'.pop
  declare : ∀ {k env' token name params body}, stmt (.declare token name params body) →
    env k env' → env k (env'.setProc name ⟨name, params, body⟩)
  step : ∀ {st} (limit : Nat), stmt st → fault (.stepLimit limit) st.token.pos
  operator : ∀ {token op left right} {a b : Int32} {e} (text : Text),
    expr (.binary token op left right) → op.apply a b = .error e → fault (.operator e text) token.pos
  undefined : ∀ {k env' token name args}, expr (.call token name args) → env k env' →
    env'.getProc? name = none → fault (.undefinedProcedure name) token.pos
  arity : ∀ {k env' token name args q}, expr (.call token name args) → env k env' →
    env'.getProc? name = some q → args.length ≠ q.params.length →
    fault (.arity q.name q.params.length args.length) token.pos
  depth : ∀ {token name args} (limit : Nat) (called : Text), expr (.call token name args) →
    fault (.depthLimit limit called) token.pos
  noInput : ∀ {token target}, stmt (.readLn token target) → fault .noInput token.pos
  input : ∀ {token target} (e : InputError), stmt (.readLn token target) →
    fault (.input e) token.pos
  noStmt : stmt .missing → fault .cannotExecute {}
  noExpr : expr .missing → fault .cannotEvaluate {}

namespace Guard

variable {α β : Type} {g : Guard} {k n : Nat} {limits : Limits} {s : RunState}

/-- A computation keeps to guarded environments and stops with allowed faults only. -/
def Keeps (g : Guard) (k : Nat) (x : Run α) (s : RunState) : Prop :=
  match x s with
  | .ok _ t => g.env k t.env
  | .error (.stopped cause pos) _ => g.fault cause pos
  | .error (.output _) _ => True
  | .error .outOfFuel _ => True

theorem keeps_stop {cause : RunCause} {pos : Position} (h : g.fault cause pos) :
    g.Keeps k (Run.stop cause pos : Run α) s := h

theorem Keeps.bind {x : Run α} {f : α → Run β} (hx : g.Keeps k x s)
    (hf : ∀ a t, g.env k t.env → g.Keeps k (f a) t) : g.Keeps k (x >>= f) s := by
  unfold Keeps at hx
  change g.Keeps k (EStateM.bind x f) s
  unfold Keeps EStateM.bind
  cases hrun : x s with
  | ok a t =>
    rw [hrun] at hx
    exact hf a t hx
  | error e t =>
    rw [hrun] at hx
    cases e with
    | stopped cause pos => exact hx
    | output reason => trivial
    | outOfFuel => trivial

theorem Keeps.env_of_ok {x : Run α} {a : α} {t : RunState} (h : g.Keeps k x s)
    (hx : x s = .ok a t) : g.env k t.env := by
  unfold Keeps at h
  rw [hx] at h
  exact h

theorem Keeps.fault_of_stopped {x : Run α} {cause : RunCause} {pos : Position} {t : RunState}
    (h : g.Keeps k x s) (hx : x s = .error (.stopped cause pos) t) : g.fault cause pos := by
  unfold Keeps at h
  rw [hx] at h
  exact h

theorem keeps_step {st : Stmt} (hst : g.stmt st) (h : g.env k s.env) :
    g.Keeps k (Run.step limits st.token.pos) s := by
  unfold Keeps
  rcases Run.step_cases limits st.token.pos s with hstep | ⟨limit, hstep⟩
  · rw [hstep]
    exact h
  · rw [hstep]
    exact g.step limit hst

theorem keeps_readVariable (x : Text) (h : g.env k s.env) : g.Keeps k (Run.readVariable x) s := by
  unfold Keeps
  rcases Run.readVariable_cases x s with ⟨v, hread⟩ | hread
  · rw [hread]
    exact h
  · rw [hread]
    exact g.set x 0 h

theorem keeps_assign (x : Text) (v : Int32) (h : g.env k s.env) : g.Keeps k (Run.assign x v) s :=
  g.set x v h

theorem keeps_writeLine (v : Int32) (h : g.env k s.env) : g.Keeps k (Run.writeLine v) s := by
  unfold Keeps
  rcases Run.writeLine_cases v s with ⟨_, sink, -, hwrite⟩ | ⟨reason, hwrite⟩
  · rw [hwrite]
    exact h
  · rw [hwrite]
    trivial

theorem keeps_readValue {token : Token} {target : Variable} (hst : g.stmt (.readLn token target))
    (h : g.env k s.env) : g.Keeps k (Run.readValue token.pos) s := by
  unfold Keeps
  rcases Run.readValue_cases token.pos s with ⟨v, _, hread⟩ | ⟨_, _, hread, rfl | ⟨e, rfl⟩⟩
  · rw [hread]
    exact h
  · rw [hread]
    exact g.noInput hst
  · rw [hread]
    exact g.input e hst

theorem Keeps.within {q : Procedure} {values : List Int32} {x : Run Unit}
    (h : g.Keeps (k + 1) x
      { s with env := s.env.push (Run.callScope q values), depth := s.depth + 1 }) :
    g.Keeps k (Run.within (Run.callScope q values) q.name x) s := by
  unfold Keeps at h ⊢
  unfold Run.within
  cases hrun : x { s with env := s.env.push (Run.callScope q values), depth := s.depth + 1 } with
  | ok a t =>
    rw [hrun] at h
    exact g.pop h
  | error e t =>
    rw [hrun] at h
    cases e with
    | stopped cause pos => exact h
    | output reason => trivial
    | outOfFuel => trivial

/-- Every part of the interpreter keeps to the guard on `n` units of fuel. -/
structure Lasts (g : Guard) (limits : Limits) (n : Nat) : Prop where
  eval : ∀ {k e s}, g.expr e → g.env k s.env → g.Keeps k (Run.eval limits n e) s
  evalAll : ∀ {k es s}, (∀ e ∈ es, g.expr e) → g.env k s.env →
    g.Keeps k (Run.evalAll limits n es) s
  invoke : ∀ {k token name args s}, g.expr (.call token name args) → g.env k s.env →
    g.Keeps k (Run.invoke limits n token name args) s
  exec : ∀ {k st s}, g.stmt st → g.env k s.env → g.Keeps k (Run.exec limits n st) s
  execAll : ∀ {k sts s}, (∀ st ∈ sts, g.stmt st) → g.env k s.env →
    g.Keeps k (Run.execAll limits n sts) s
  repeatWhile : ∀ {k cond body s}, g.expr cond → g.stmt body → g.env k s.env →
    g.Keeps k (Run.repeatWhile limits n cond body) s

namespace Lasts

theorem zero : g.Lasts limits 0 where
  eval _ _ := trivial
  evalAll _ _ := trivial
  invoke _ _ := trivial
  exec _ _ := trivial
  execAll _ _ := trivial
  repeatWhile _ _ _ := trivial

theorem eval_succ (h : g.Lasts limits n) {e : Expr} (he : g.expr e) (hs : g.env k s.env) :
    g.Keeps k (Run.eval limits (n + 1) e) s := by
  cases e with
  | literal token value tag isBool => exact hs
  | var v => exact keeps_readVariable v.name hs
  | binary token op left right =>
    obtain ⟨hleft, hright⟩ := g.binary he
    unfold Run.eval
    refine (h.eval hleft hs).bind fun a t ht => (h.eval hright ht).bind fun b u hu => ?_
    cases hop : op.apply a b with
    | ok v => exact hu
    | error e => exact keeps_stop (g.operator _ he hop)
  | call token name args => exact h.invoke he hs
  | missing => exact keeps_stop (g.noExpr he)

theorem evalAll_succ (h : g.Lasts limits n) {es : List Expr} (hes : ∀ e ∈ es, g.expr e)
    (hs : g.env k s.env) : g.Keeps k (Run.evalAll limits (n + 1) es) s := by
  cases es with
  | nil => exact hs
  | cons e es =>
    obtain ⟨he, hrest⟩ := List.forall_mem_cons.mp hes
    unfold Run.evalAll
    exact (h.eval he hs).bind fun _ t ht => (h.evalAll hrest ht).bind fun _ u hu => hu

theorem invoke_succ (h : g.Lasts limits n) {token : Token} {name : Text} {args : List Expr}
    (hcall : g.expr (.call token name args)) (hs : g.env k s.env) :
    g.Keeps k (Run.invoke limits (n + 1) token name args) s := by
  unfold Run.invoke Keeps
  rw [Run.get_bind]
  cases hq : s.env.getProc? name with
  | none => exact g.undefined hcall hs hq
  | some q =>
    by_cases harity : args.length ≠ q.params.length
    · simp only [if_pos harity]
      exact g.arity hcall hs hq harity
    · simp only [if_neg harity]
      refine (h.evalAll (g.args hcall) hs).bind fun values t ht => ?_
      unfold Keeps
      rw [Run.get_bind]
      by_cases hdepth : limits.depth ≤ t.depth
      · simp only [if_pos hdepth]
        exact g.depth limits.depth q.name hcall
      · simp only [if_neg hdepth]
        exact Keeps.within (h.exec (g.body hcall hs hq) (g.push q values ht))

theorem exec_succ (h : g.Lasts limits n) {st : Stmt} (hst : g.stmt st) (hs : g.env k s.env) :
    g.Keeps k (Run.exec limits (n + 1) st) s := by
  unfold Run.exec
  refine (keeps_step hst hs).bind fun _ t ht => ?_
  cases st with
  | assign token target value =>
    exact (h.eval (g.assign hst) ht).bind fun v u hu => keeps_assign target.name v hu
  | block token body => exact h.execAll (g.block hst) ht
  | ifThen token cond body =>
    obtain ⟨hcond, hbody⟩ := g.ifThen hst
    refine (h.eval hcond ht).bind fun v u hu => ?_
    by_cases hv : Word.isTrue v = true
    · simp only [if_pos hv]
      exact h.exec hbody hu
    · simp only [if_neg hv]
      exact hu
  | ifElse token cond body alternative =>
    obtain ⟨hcond, hbody, halternative⟩ := g.ifElse hst
    refine (h.eval hcond ht).bind fun v u hu => ?_
    by_cases hv : Word.isTrue v = true
    · simp only [if_pos hv]
      exact h.exec hbody hu
    · simp only [if_neg hv]
      exact h.exec halternative hu
  | loop token cond body =>
    obtain ⟨hcond, hbody⟩ := g.loop hst
    exact h.repeatWhile hcond hbody ht
  | writeLn token value =>
    exact (h.eval (g.writeLn hst) ht).bind fun v u hu => keeps_writeLine v hu
  | readLn token target =>
    exact (keeps_readValue hst ht).bind fun v u hu => keeps_assign target.name v hu
  | call token name args => exact (h.invoke (g.call hst) ht).bind fun _ u hu => hu
  | declare token name params body => exact g.declare hst ht
  | missing => exact keeps_stop (g.noStmt hst)

theorem execAll_succ (h : g.Lasts limits n) {sts : List Stmt} (hsts : ∀ st ∈ sts, g.stmt st)
    (hs : g.env k s.env) : g.Keeps k (Run.execAll limits (n + 1) sts) s := by
  cases sts with
  | nil => exact hs
  | cons st sts =>
    obtain ⟨hst, hrest⟩ := List.forall_mem_cons.mp hsts
    unfold Run.execAll
    exact (h.exec hst hs).bind fun _ t ht => h.execAll hrest ht

theorem repeatWhile_succ (h : g.Lasts limits n) {cond : Expr} {body : Stmt} (hcond : g.expr cond)
    (hbody : g.stmt body) (hs : g.env k s.env) :
    g.Keeps k (Run.repeatWhile limits (n + 1) cond body) s := by
  unfold Run.repeatWhile
  refine (h.eval hcond hs).bind fun v t ht => ?_
  by_cases hv : Word.isTrue v = true
  · simp only [if_pos hv]
    exact (h.exec hbody ht).bind fun _ u hu => h.repeatWhile hcond hbody hu
  · simp only [if_neg hv]
    exact ht

end Lasts

theorem lasts (g : Guard) (limits : Limits) (n : Nat) : g.Lasts limits n := by
  induction n with
  | zero => exact .zero
  | succ n ih =>
    exact ⟨ih.eval_succ, ih.evalAll_succ, ih.invoke_succ, ih.exec_succ, ih.execAll_succ,
      ih.repeatWhile_succ⟩

/-- The tasks on guarded parts. -/
def task (g : Guard) : Task → Prop
  | .eval e => g.expr e
  | .evalAll es => ∀ e ∈ es, g.expr e
  | .invoke token name args => g.expr (.call token name args)
  | .exec st => g.stmt st
  | .execAll sts => ∀ st ∈ sts, g.stmt st
  | .repeatWhile cond body => g.expr cond ∧ g.stmt body

/-- A task on guarded parts in a guarded environment. -/
def Covers (g : Guard) (m : Moment) : Prop := g.task m.task ∧ ∃ k, g.env k m.state.env

theorem task_of_starts {st : Stmt} {t u : RunState} {task : Task} (hst : g.stmt st)
    (ht : g.env k t.env) (h : st.Starts limits n t task u) : g.task task ∧ g.env k u.env := by
  have hall := g.lasts limits n
  cases h with
  | assign => exact ⟨g.assign hst, ht⟩
  | block => exact ⟨g.block hst, ht⟩
  | ifThen => exact ⟨(g.ifThen hst).1, ht⟩
  | thenBody hcond hv => exact ⟨(g.ifThen hst).2, (hall.eval (g.ifThen hst).1 ht).env_of_ok hcond⟩
  | ifElse => exact ⟨(g.ifElse hst).1, ht⟩
  | ifBody hcond hv =>
    exact ⟨(g.ifElse hst).2.1, (hall.eval (g.ifElse hst).1 ht).env_of_ok hcond⟩
  | elseBody hcond hv =>
    exact ⟨(g.ifElse hst).2.2, (hall.eval (g.ifElse hst).1 ht).env_of_ok hcond⟩
  | loop => exact ⟨g.loop hst, ht⟩
  | writeLn => exact ⟨g.writeLn hst, ht⟩
  | call => exact ⟨g.call hst, ht⟩

/-- A guarded task starts guarded tasks. -/
theorem Covers.starts {m m' : Moment} (h : g.Covers m) (hm : m.Starts limits m') :
    g.Covers m' := by
  obtain ⟨htask, k, hs⟩ := h
  cases hm with
  | left => exact ⟨(g.binary htask).1, k, hs⟩
  | right hleft =>
    have ht := ((g.lasts limits _).eval (g.binary htask).1 hs).env_of_ok hleft
    exact ⟨(g.binary htask).2, k, ht⟩
  | call => exact ⟨htask, k, hs⟩
  | first => exact ⟨(List.forall_mem_cons.mp htask).1, k, hs⟩
  | others hfirst =>
    obtain ⟨he, hes⟩ := List.forall_mem_cons.mp htask
    exact ⟨hes, k, ((g.lasts limits _).eval he hs).env_of_ok hfirst⟩
  | args hq hargs => exact ⟨g.args htask, k, hs⟩
  | @body n s t token name args q values hq hargs hvalues hdepth =>
    have ht := ((g.lasts limits _).evalAll (g.args htask) hs).env_of_ok hvalues
    exact ⟨g.body htask hs hq, k + 1, g.push q values ht⟩
  | @exec n s t u st task hstep hst =>
    have ht := (keeps_step htask hs).env_of_ok hstep
    obtain ⟨hpart, hu⟩ := task_of_starts htask ht hst
    exact ⟨hpart, k, hu⟩
  | statement => exact ⟨(List.forall_mem_cons.mp htask).1, k, hs⟩
  | statements hst =>
    obtain ⟨hfirst, hrest⟩ := List.forall_mem_cons.mp htask
    exact ⟨hrest, k, ((g.lasts limits _).exec hfirst hs).env_of_ok hst⟩
  | test => exact ⟨htask.1, k, hs⟩
  | round hcond hv => exact ⟨htask.2, k, ((g.lasts limits _).eval htask.1 hs).env_of_ok hcond⟩
  | again hcond hv hbody =>
    have ht := ((g.lasts limits _).eval htask.1 hs).env_of_ok hcond
    exact ⟨htask, k, ((g.lasts limits _).exec htask.2 ht).env_of_ok hbody⟩

/-- A guarded task leads to guarded tasks only. -/
theorem Covers.reaches {m m' : Moment} (h : g.Covers m) (hm : m.Reaches limits m') :
    g.Covers m' := by
  induction hm with
  | refl => exact h
  | tail _ hstart ih => exact ih.starts hstart

end Guard

end MiniPascal
