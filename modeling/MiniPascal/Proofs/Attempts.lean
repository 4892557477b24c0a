import Mathlib.Data.List.Basic
import MiniPascal.Proofs.Coupling

/-! The statements that a run tries to execute, in the order in which it does. A task goes through the
tasks that it starts one after the other, each from where the one before it left the counter of steps,
and it stops with the first that fails. So the statements that a run tries are numbered by the steps
that they find on the counter. -/

namespace MiniPascal

namespace Run

variable {α β : Type} {s t : RunState}

/-- The steps on the counter at the end of a computation, and the error with which it stops. -/
def ends (x : Run α) (s : RunState) : Nat × Option RunError :=
  match x s with
  | .ok _ t => (t.steps, none)
  | .error e t => (t.steps, some e)

theorem ends_of_ok {x : Run α} {a : α} (h : x s = .ok a t) : ends x s = (t.steps, none) := by
  rw [ends, h]

theorem ends_of_error {x : Run α} {e : RunError} (h : x s = .error e t) :
    ends x s = (t.steps, some e) := by
  rw [ends, h]

theorem error_of_ends {x : Run α} {k : Nat} {e : RunError} (h : ends x s = (k, some e)) :
    ∃ t, x s = .error e t := by
  cases hx : x s with
  | ok a t =>
    rw [ends_of_ok hx] at h
    cases h
  | error e' t =>
    rw [ends_of_error hx] at h
    cases h
    exact ⟨t, rfl⟩

theorem ends_get_bind (f : RunState → Run β) : ends (get >>= f) s = ends (f s) s := rfl

theorem ends_bind_of_ok {x : Run α} {a : α} (h : x s = .ok a t) (f : α → Run β) :
    ends (x >>= f) s = ends (f a) t := by
  rw [ends, bind_of_ok h, ends]

/-- The tasks that follow a computation, if it succeeds. -/
def onOk (result : EStateM.Result RunError RunState α) (f : α → RunState → List Moment) :
    List Moment :=
  match result with
  | .ok a t => f a t
  | .error _ _ => []

theorem mem_onOk {result : EStateM.Result RunError RunState α} {f : α → RunState → List Moment}
    {m : Moment} : m ∈ onOk result f ↔ ∃ a t, result = .ok a t ∧ m ∈ f a t := by
  constructor
  · intro h
    cases result with
    | ok a t => exact ⟨a, t, rfl, h⟩
    | error e t => cases h
  · rintro ⟨a, t, rfl, h⟩
    exact h

end Run

section Children

variable (limits : Limits)

/-- The tasks that a statement starts once it is counted, in order. -/
def Stmt.children (n : Nat) (s : RunState) : Stmt → List Moment
  | .assign _ _ value => [⟨n, .eval value, s⟩]
  | .block _ body => [⟨n, .execAll body, s⟩]
  | .ifThen _ cond body =>
    ⟨n, .eval cond, s⟩ :: Run.onOk (Run.eval limits n cond s) fun v t =>
      if Word.isTrue v then [⟨n, .exec body, t⟩] else []
  | .ifElse _ cond body alternative =>
    ⟨n, .eval cond, s⟩ :: Run.onOk (Run.eval limits n cond s) fun v t =>
      if Word.isTrue v then [⟨n, .exec body, t⟩] else [⟨n, .exec alternative, t⟩]
  | .loop _ cond body => [⟨n, .repeatWhile cond body, s⟩]
  | .writeLn _ value => [⟨n, .eval value, s⟩]
  | .readLn _ _ => []
  | .call token name args => [⟨n, .invoke token name args, s⟩]
  | .declare .. => []
  | .missing => []

/-- The tasks that a task starts itself, in order. -/
def Task.children (n : Nat) (s : RunState) : Task → List Moment
  | .eval (.binary _ _ left right) =>
    ⟨n, .eval left, s⟩ :: Run.onOk (Run.eval limits n left s) fun _ t => [⟨n, .eval right, t⟩]
  | .eval (.call token name args) => [⟨n, .invoke token name args, s⟩]
  | .eval _ => []
  | .evalAll [] => []
  | .evalAll (e :: es) =>
    ⟨n, .eval e, s⟩ :: Run.onOk (Run.eval limits n e s) fun _ t => [⟨n, .evalAll es, t⟩]
  | .invoke _ name args =>
    match s.env.getProc? name with
    | none => []
    | some q =>
      if args.length = q.params.length then
        ⟨n, .evalAll args, s⟩ :: Run.onOk (Run.evalAll limits n args s) fun values t =>
          if limits.depth ≤ t.depth then []
          else [⟨n, .exec q.body,
            { t with env := t.env.push (Run.callScope q values), depth := t.depth + 1 }⟩]
      else []
  | .exec st => Run.onOk (Run.step limits st.token.pos s) fun _ t => st.children limits n t
  | .execAll [] => []
  | .execAll (st :: sts) =>
    ⟨n, .exec st, s⟩ :: Run.onOk (Run.exec limits n st s) fun _ t => [⟨n, .execAll sts, t⟩]
  | .repeatWhile cond body =>
    ⟨n, .eval cond, s⟩ :: Run.onOk (Run.eval limits n cond s) fun v t =>
      if Word.isTrue v then
        ⟨n, .exec body, t⟩ :: Run.onOk (Run.exec limits n body t) fun _ u =>
          [⟨n, .repeatWhile cond body, u⟩]
      else []

/-- The steps on the counter at the end of a task, and the error with which it stops. -/
def Moment.ends (m : Moment) : Nat × Option RunError :=
  match m.task with
  | .eval e => Run.ends (Run.eval limits m.fuel e) m.state
  | .evalAll es => Run.ends (Run.evalAll limits m.fuel es) m.state
  | .invoke token name args => Run.ends (Run.invoke limits m.fuel token name args) m.state
  | .exec st => Run.ends (Run.exec limits m.fuel st) m.state
  | .execAll sts => Run.ends (Run.execAll limits m.fuel sts) m.state
  | .repeatWhile cond body => Run.ends (Run.repeatWhile limits m.fuel cond body) m.state

end Children

section Mem

variable {limits : Limits} {n : Nat} {s t : RunState} {st : Stmt} {task : Task} {c : Moment}

theorem Stmt.Starts.mem_children (h : st.Starts limits n s task t) :
    (⟨n, task, t⟩ : Moment) ∈ st.children limits n s := by
  cases h with
  | assign => exact .head _
  | block => exact .head _
  | ifThen => exact .head _
  | thenBody hcond hv =>
    refine .tail _ (Run.mem_onOk.mpr ⟨_, _, hcond, ?_⟩)
    rw [if_pos hv]
    exact .head _
  | ifElse => exact .head _
  | ifBody hcond hv =>
    refine .tail _ (Run.mem_onOk.mpr ⟨_, _, hcond, ?_⟩)
    rw [if_pos hv]
    exact .head _
  | elseBody hcond hv =>
    refine .tail _ (Run.mem_onOk.mpr ⟨_, _, hcond, ?_⟩)
    rw [hv]
    exact .head _
  | loop => exact .head _
  | writeLn => exact .head _
  | call => exact .head _

theorem Stmt.starts_of_mem (h : c ∈ st.children limits n s) :
    c.fuel = n ∧ st.Starts limits n s c.task c.state := by
  cases st with
  | assign token target value =>
    cases List.mem_singleton.mp h
    exact ⟨rfl, .assign⟩
  | block token body =>
    cases List.mem_singleton.mp h
    exact ⟨rfl, .block⟩
  | ifThen token cond body =>
    rcases List.mem_cons.mp h with rfl | h
    · exact ⟨rfl, .ifThen⟩
    · obtain ⟨v, t, hcond, h⟩ := Run.mem_onOk.mp h
      by_cases hv : Word.isTrue v = true
      · rw [if_pos hv] at h
        cases List.mem_singleton.mp h
        exact ⟨rfl, .thenBody hcond hv⟩
      · rw [if_neg hv] at h
        cases h
  | ifElse token cond body alternative =>
    rcases List.mem_cons.mp h with rfl | h
    · exact ⟨rfl, .ifElse⟩
    · obtain ⟨v, t, hcond, h⟩ := Run.mem_onOk.mp h
      by_cases hv : Word.isTrue v = true
      · rw [if_pos hv] at h
        cases List.mem_singleton.mp h
        exact ⟨rfl, .ifBody hcond hv⟩
      · rw [if_neg hv] at h
        cases List.mem_singleton.mp h
        exact ⟨rfl, .elseBody hcond (eq_false_of_ne_true hv)⟩
  | loop token cond body =>
    cases List.mem_singleton.mp h
    exact ⟨rfl, .loop⟩
  | writeLn token value =>
    cases List.mem_singleton.mp h
    exact ⟨rfl, .writeLn⟩
  | readLn token target => cases h
  | call token name args =>
    cases List.mem_singleton.mp h
    exact ⟨rfl, .call⟩
  | declare token name params body => cases h
  | missing => cases h

theorem Moment.Starts.mem_children (h : Moment.Starts limits ⟨n + 1, task, s⟩ c) :
    c ∈ task.children limits n s := by
  cases h with
  | left => exact .head _
  | right hleft => exact .tail _ (Run.mem_onOk.mpr ⟨_, _, hleft, .head _⟩)
  | call => exact .head _
  | first => exact .head _
  | others hfirst => exact .tail _ (Run.mem_onOk.mpr ⟨_, _, hfirst, .head _⟩)
  | args hq hargs =>
    rw [Task.children, hq]
    simp only [if_pos hargs]
    exact .head _
  | body hq hargs hvalues hdepth =>
    rw [Task.children, hq]
    simp only [if_pos hargs]
    refine .tail _ (Run.mem_onOk.mpr ⟨_, _, hvalues, ?_⟩)
    rw [if_neg (Nat.not_le.mpr hdepth)]
    exact .head _
  | exec hstep hst => exact Run.mem_onOk.mpr ⟨_, _, hstep, hst.mem_children⟩
  | statement => exact .head _
  | statements hst => exact .tail _ (Run.mem_onOk.mpr ⟨_, _, hst, .head _⟩)
  | test => exact .head _
  | round hcond hv =>
    refine .tail _ (Run.mem_onOk.mpr ⟨_, _, hcond, ?_⟩)
    rw [if_pos hv]
    exact .head _
  | again hcond hv hbody =>
    refine .tail _ (Run.mem_onOk.mpr ⟨_, _, hcond, ?_⟩)
    rw [if_pos hv]
    exact .tail _ (Run.mem_onOk.mpr ⟨_, _, hbody, .head _⟩)

theorem Task.starts_of_mem (h : c ∈ task.children limits n s) :
    c.fuel = n ∧ Moment.Starts limits ⟨n + 1, task, s⟩ c := by
  cases task with
  | eval e =>
    cases e with
    | literal token value tag isBool => cases h
    | var v => cases h
    | binary token op left right =>
      rcases List.mem_cons.mp h with rfl | h
      · exact ⟨rfl, .left⟩
      · obtain ⟨v, t, hleft, h⟩ := Run.mem_onOk.mp h
        cases List.mem_singleton.mp h
        exact ⟨rfl, .right hleft⟩
    | call token name args =>
      cases List.mem_singleton.mp h
      exact ⟨rfl, .call⟩
    | missing => cases h
  | evalAll es =>
    cases es with
    | nil => cases h
    | cons e es =>
      rcases List.mem_cons.mp h with rfl | h
      · exact ⟨rfl, .first⟩
      · obtain ⟨v, t, hfirst, h⟩ := Run.mem_onOk.mp h
        cases List.mem_singleton.mp h
        exact ⟨rfl, .others hfirst⟩
  | invoke token name args =>
    rw [Task.children] at h
    cases hq : s.env.getProc? name with
    | none =>
      rw [hq] at h
      cases h
    | some q =>
      simp only [hq] at h
      by_cases hargs : args.length = q.params.length
      · rw [if_pos hargs] at h
        rcases List.mem_cons.mp h with rfl | h
        · exact ⟨rfl, .args hq hargs⟩
        · obtain ⟨values, t, hvalues, h⟩ := Run.mem_onOk.mp h
          by_cases hdepth : limits.depth ≤ t.depth
          · rw [if_pos hdepth] at h
            cases h
          · rw [if_neg hdepth] at h
            cases List.mem_singleton.mp h
            exact ⟨rfl, .body hq hargs hvalues (Nat.lt_of_not_le hdepth)⟩
      · rw [if_neg hargs] at h
        cases h
  | exec st =>
    obtain ⟨_, t, hstep, h⟩ := Run.mem_onOk.mp h
    obtain ⟨rfl, hst⟩ := Stmt.starts_of_mem h
    exact ⟨rfl, .exec hstep hst⟩
  | execAll sts =>
    cases sts with
    | nil => cases h
    | cons st sts =>
      rcases List.mem_cons.mp h with rfl | h
      · exact ⟨rfl, .statement⟩
      · obtain ⟨_, t, hst, h⟩ := Run.mem_onOk.mp h
        cases List.mem_singleton.mp h
        exact ⟨rfl, .statements hst⟩
  | repeatWhile cond body =>
    rcases List.mem_cons.mp h with rfl | h
    · exact ⟨rfl, .test⟩
    · obtain ⟨v, t, hcond, h⟩ := Run.mem_onOk.mp h
      by_cases hv : Word.isTrue v = true
      · rw [if_pos hv] at h
        rcases List.mem_cons.mp h with rfl | h
        · exact ⟨rfl, .round hcond hv⟩
        · obtain ⟨_, u, hbody, h⟩ := Run.mem_onOk.mp h
          cases List.mem_singleton.mp h
          exact ⟨rfl, .again hcond hv hbody⟩
      · rw [if_neg hv] at h
        cases h

end Mem

/-- Tasks one after the other, the first with `i` steps on the counter and each other one with those that
the one before it left there. Only the last can fail, and then with the given error. -/
inductive Spans (limits : Limits) : Nat → List Moment → Nat × Option RunError → Prop
  | nil (i : Nat) (e : Option RunError) : Spans limits i [] (i, e)
  | last {c : Moment} {i k : Nat} {e : RunError} (hi : c.state.steps = i)
      (hc : c.ends limits = (k, some e)) : Spans limits i [c] (k, some e)
  | cons {c : Moment} {cs : List Moment} {i k : Nat} {out : Nat × Option RunError}
      (hi : c.state.steps = i) (hc : c.ends limits = (k, none)) (hcs : Spans limits k cs out) :
      Spans limits i (c :: cs) out

namespace Spans

variable {α β : Type} {limits : Limits} {n : Nat} {s : RunState} {c : Moment} {x : Run α}
  {f : α → Run β}

theorem of_quiet (h : (Run.ends x s).1 = s.steps) : Spans limits s.steps [] (Run.ends x s) :=
  h ▸ nil _ _

theorem single (hs : c.state.steps = s.steps) (hc : c.ends limits = Run.ends x s) :
    Spans limits s.steps [c] (Run.ends x s) := by
  cases hx : x s with
  | ok a t =>
    rw [Run.ends_of_ok hx] at hc ⊢
    exact cons hs hc (nil _ _)
  | error e t =>
    rw [Run.ends_of_error hx] at hc ⊢
    exact last hs hc

theorem bind {g : α → RunState → List Moment} (hs : c.state.steps = s.steps)
    (hc : c.ends limits = Run.ends x s)
    (hg : ∀ a t, x s = .ok a t → Spans limits t.steps (g a t) (Run.ends (f a) t)) :
    Spans limits s.steps (c :: Run.onOk (x s) g) (Run.ends (x >>= f) s) := by
  cases hx : x s with
  | ok a t =>
    rw [Run.ends_of_ok hx] at hc
    rw [Run.ends_bind_of_ok hx]
    exact cons hs hc (hg a t hx)
  | error e t =>
    rw [Run.ends_of_error hx] at hc
    rw [Run.ends_of_error (Run.bind_of_error hx f)]
    exact last hs hc

theorem bind_quiet (hs : c.state.steps = s.steps) (hc : c.ends limits = Run.ends x s)
    (hf : ∀ a t, (Run.ends (f a) t).1 = t.steps) : Spans limits s.steps [c] (Run.ends (x >>= f) s) := by
  have h := bind (g := fun _ _ => []) hs hc fun a t _ => of_quiet (hf a t)
  cases hx : x s with
  | ok a t => rwa [hx] at h
  | error e t => rwa [hx] at h

end Spans

namespace Run

theorem ends_readVariable (x : Text) (s : RunState) : (ends (readVariable x) s).1 = s.steps := by
  rcases readVariable_cases x s with ⟨v, hread⟩ | hread
  · rw [ends_of_ok hread]
  · rw [ends_of_ok hread]

theorem ends_writeLine (v : Int32) (s : RunState) : (ends (writeLine v) s).1 = s.steps := by
  rcases writeLine_cases v s with ⟨_, sink, -, hwrite⟩ | ⟨reason, hwrite⟩
  · rw [ends_of_ok hwrite]
  · rw [ends_of_error hwrite]

theorem ends_readLn (pos : Position) (x : Text) (s : RunState) :
    (ends (readValue pos >>= fun v => assign x v) s).1 = s.steps := by
  rcases readValue_cases pos s with ⟨v, input, hread⟩ | ⟨cause, input, hread, -⟩
  · rw [ends_bind_of_ok hread]
    rfl
  · rw [ends_of_error (bind_of_error hread _)]

theorem ends_within {scope : Scope} {name : Text} {x : Run Unit} {s : RunState} :
    ends (within scope name x) s =
      ends x { s with env := s.env.push scope, depth := s.depth + 1 } := by
  unfold ends within
  cases x { s with env := s.env.push scope, depth := s.depth + 1 } with
  | ok a t => rfl
  | error e t => rfl

end Run

section Children

variable {limits : Limits} (n : Nat) (s : RunState)

theorem spans_eval (e : Expr) : Spans limits s.steps (Task.children limits n s (.eval e))
    (Run.ends (Run.eval limits (n + 1) e) s) := by
  cases e with
  | literal token value tag isBool => exact .nil _ _
  | var v => exact .of_quiet (Run.ends_readVariable v.name s)
  | binary token op left right =>
    unfold Run.eval
    refine .bind rfl rfl fun l t _ => .bind_quiet rfl rfl fun r u => ?_
    cases op.apply l r with
    | ok v => rfl
    | error e => rfl
  | call token name args => exact .single rfl rfl
  | missing => exact .nil _ _

theorem spans_evalAll (es : List Expr) : Spans limits s.steps (Task.children limits n s (.evalAll es))
    (Run.ends (Run.evalAll limits (n + 1) es) s) := by
  cases es with
  | nil => exact .nil _ _
  | cons e es => exact .bind rfl rfl fun v t _ => .bind_quiet rfl rfl fun vs u => rfl

theorem spans_invoke (token : Token) (name : Text) (args : List Expr) :
    Spans limits s.steps (Task.children limits n s (.invoke token name args))
      (Run.ends (Run.invoke limits (n + 1) token name args) s) := by
  rw [Run.invoke, Run.ends_get_bind, Task.children]
  cases s.env.getProc? name with
  | none => exact .nil _ _
  | some q =>
    by_cases hargs : args.length = q.params.length
    · simp only [if_pos hargs, if_neg (not_not_intro hargs)]
      refine .bind rfl rfl fun values t _ => ?_
      rw [Run.ends_get_bind]
      by_cases hdepth : limits.depth ≤ t.depth
      · simp only [if_pos hdepth]
        exact .nil _ _
      · simp only [if_neg hdepth]
        exact .single rfl Run.ends_within.symm
    · simp only [if_neg hargs, if_pos hargs]
      exact .nil _ _

theorem spans_execAll (sts : List Stmt) : Spans limits s.steps (Task.children limits n s (.execAll sts))
    (Run.ends (Run.execAll limits (n + 1) sts) s) := by
  cases sts with
  | nil => exact .nil _ _
  | cons st sts => exact .bind rfl rfl fun _ t _ => .single rfl rfl

theorem spans_repeatWhile (cond : Expr) (body : Stmt) :
    Spans limits s.steps (Task.children limits n s (.repeatWhile cond body))
      (Run.ends (Run.repeatWhile limits (n + 1) cond body) s) := by
  unfold Run.repeatWhile
  refine .bind rfl rfl fun v t _ => ?_
  by_cases hv : Word.isTrue v = true
  · simp only [if_pos hv]
    exact .bind rfl rfl fun _ u _ => .single rfl rfl
  · simp only [if_neg hv]
    exact .nil _ _

/-- A statement is counted before the tasks that it starts. -/
theorem spans_exec (st : Stmt) : Spans limits (s.steps + 1) (Task.children limits n s (.exec st))
    (Run.ends (Run.exec limits (n + 1) st) s) := by
  rw [Task.children]
  unfold Run.exec
  rcases Run.step_cases limits st.token.pos s with hstep | ⟨limit, hstep⟩
  · rw [Run.ends_bind_of_ok hstep, hstep, Run.onOk]
    generalize ht : ({ s with steps := s.steps + 1 } : RunState) = t
    have hsteps : s.steps + 1 = t.steps := by rw [← ht]
    rw [hsteps]
    cases st with
    | assign token target value => exact .bind_quiet rfl rfl fun v u => rfl
    | block token body => exact .single rfl rfl
    | ifThen token cond body =>
      refine .bind rfl rfl fun v u _ => ?_
      by_cases hv : Word.isTrue v = true
      · simp only [if_pos hv]
        exact .single rfl rfl
      · simp only [if_neg hv]
        exact .nil _ _
    | ifElse token cond body alternative =>
      refine .bind rfl rfl fun v u _ => ?_
      by_cases hv : Word.isTrue v = true
      · simp only [if_pos hv]
        exact .single rfl rfl
      · simp only [if_neg hv]
        exact .single rfl rfl
    | loop token cond body => exact .single rfl rfl
    | writeLn token value => exact .bind_quiet rfl rfl Run.ends_writeLine
    | readLn token target => exact .of_quiet (Run.ends_readLn token.pos target.name t)
    | call token name args => exact .bind_quiet rfl rfl fun _ u => rfl
    | declare token name params body => exact .nil _ _
    | missing => exact .nil _ _
  · rw [Run.ends_of_error (Run.bind_of_error hstep _), hstep]
    exact .nil _ _

end Children

/-- A moment at which a statement is tried. -/
def Moment.Tries (m : Moment) : Prop := 0 < m.fuel ∧ ∃ st, m.task = .exec st

/-- The statements that are tried at some of the moments of a run, in order, where the first finds `i`
steps on the counter. -/
structure Attempts (limits : Limits) (i : Nat) (reached : Moment → Prop)
    (out : Nat × Option RunError) (attempts : List Moment) : Prop where
  mem : ∀ m, m ∈ attempts ↔ reached m ∧ m.Tries
  steps : attempts.map (fun m => m.state.steps) = List.range' i attempts.length
  count : i + attempts.length = out.1
  fails : ∀ m k e, reached m → m.ends limits = (k, some e) → out = (k, some e)

section Attempts

variable {limits : Limits} {n i : Nat} {s : RunState} {task : Task} {cs : List Moment} {m : Moment}
  {out : Nat × Option RunError}

theorem Spans.attempts (h : Spans limits i cs out)
    (hcs : ∀ c ∈ cs, ∃ l, Attempts limits c.state.steps (c.Reaches limits) (c.ends limits) l) :
    ∃ l, Attempts limits i (fun m => ∃ c ∈ cs, c.Reaches limits m) out l := by
  induction h with
  | nil i e =>
    refine ⟨[], fun m => ⟨fun hm => ?_, fun hm => ?_⟩, rfl, rfl, fun m k e hm => ?_⟩
    · cases hm
    · obtain ⟨⟨c, hc, -⟩, -⟩ := hm
      cases hc
    · obtain ⟨c, hc, -⟩ := hm
      cases hc
  | @last c i k e hi hc =>
    obtain ⟨l, hl⟩ := hcs c (.head _)
    rw [hi, hc] at hl
    simp only [List.mem_singleton, exists_eq_left]
    exact ⟨l, hl⟩
  | @cons c cs i k out hi hc _ ih =>
    obtain ⟨l, hl⟩ := hcs c (.head _)
    obtain ⟨l', hl'⟩ := ih fun c' hc' => hcs c' (.tail _ hc')
    rw [hi, hc] at hl
    -- the others begin where the first has left the counter
    have hk : i + l.length = k := hl.count
    refine ⟨l ++ l', fun m => ?_, ?_, ?_, fun m k' e' hm hfails => ?_⟩
    · rw [List.mem_append, hl.mem, hl'.mem, List.exists_mem_cons_iff, or_and_right]
    · rw [List.map_append, hl.steps, hl'.steps, ← hk, List.range'_append_1, List.length_append]
    · rw [List.length_append, ← Nat.add_assoc, hk, hl'.count]
    · rcases (List.exists_mem_cons_iff _ _ _).mp hm with hm | hm
      -- nothing in the first fails, or it would fail itself
      · cases hl.fails m k' e' hm hfails
      · exact hl'.fails m k' e' hm hfails

theorem Moment.reaches_iff : Moment.Reaches limits ⟨n + 1, task, s⟩ m ↔
    m = ⟨n + 1, task, s⟩ ∨ ∃ c ∈ task.children limits n s, c.Reaches limits m := by
  rw [Moment.Reaches, Relation.ReflTransGen.cases_head_iff]
  refine or_congr eq_comm ⟨?_, ?_⟩
  · rintro ⟨c, hc, hm⟩
    exact ⟨c, hc.mem_children, hm⟩
  · rintro ⟨c, hc, hm⟩
    exact ⟨c, (Task.starts_of_mem hc).2, hm⟩

/-- A task that is no statement tries what the tasks that it starts try. -/
theorem Spans.attempts_of_not_tries
    (h : Spans limits s.steps (task.children limits n s) (Moment.ends limits ⟨n + 1, task, s⟩))
    (hcs : ∀ c ∈ task.children limits n s, ∃ l,
      Attempts limits c.state.steps (c.Reaches limits) (c.ends limits) l)
    (htask : ¬ Moment.Tries ⟨n + 1, task, s⟩) : ∃ l,
      Attempts limits s.steps (Moment.Reaches limits ⟨n + 1, task, s⟩)
        (Moment.ends limits ⟨n + 1, task, s⟩) l := by
  obtain ⟨l, hl⟩ := h.attempts hcs
  refine ⟨l, fun m => ?_, hl.steps, hl.count, fun m k e hm hfails => ?_⟩
  · rw [hl.mem, Moment.reaches_iff, or_and_right, or_iff_right]
    rintro ⟨rfl, hm⟩
    exact htask hm
  · rcases Moment.reaches_iff.mp hm with rfl | hm
    · exact hfails
    · exact hl.fails m k e hm hfails

/-- A statement is tried itself, and then what the tasks that it starts try. -/
theorem Spans.attempts_of_exec {st : Stmt}
    (h : Spans limits (s.steps + 1) (Task.children limits n s (.exec st))
      (Moment.ends limits ⟨n + 1, .exec st, s⟩))
    (hcs : ∀ c ∈ Task.children limits n s (.exec st), ∃ l,
      Attempts limits c.state.steps (c.Reaches limits) (c.ends limits) l) : ∃ l,
      Attempts limits s.steps (Moment.Reaches limits ⟨n + 1, .exec st, s⟩)
        (Moment.ends limits ⟨n + 1, .exec st, s⟩) l := by
  obtain ⟨l, hl⟩ := h.attempts hcs
  refine ⟨⟨n + 1, .exec st, s⟩ :: l, fun m => ?_, ?_, ?_, fun m k e hm hfails => ?_⟩
  · rw [List.mem_cons, hl.mem, Moment.reaches_iff, or_and_right]
    refine or_congr_left ⟨?_, And.left⟩
    rintro rfl
    exact ⟨rfl, Nat.succ_pos n, st, rfl⟩
  · rw [List.map_cons, hl.steps, List.length_cons, List.range'_succ]
  · rw [List.length_cons, ← hl.count]
    omega
  · rcases Moment.reaches_iff.mp hm with rfl | hm
    · exact hfails
    · exact hl.fails m k e hm hfails

theorem Moment.ends_zero (task : Task) (s : RunState) :
    Moment.ends limits ⟨0, task, s⟩ = (s.steps, some .outOfFuel) := by
  cases task <;> rfl

theorem Moment.attempts_of_fuel (n : Nat) (task : Task) (s : RunState) : ∃ l,
    Attempts limits s.steps (Moment.Reaches limits ⟨n, task, s⟩) (Moment.ends limits ⟨n, task, s⟩)
      l := by
  induction n generalizing task s with
  | zero =>
    have hreached {m : Moment} (hm : Moment.Reaches limits ⟨0, task, s⟩ m) : m = ⟨0, task, s⟩ := by
      rcases Relation.ReflTransGen.cases_head hm with rfl | ⟨c, hc, -⟩
      · rfl
      · cases hc
    refine ⟨[], fun m => ⟨fun hm => ?_, fun hm => ?_⟩, rfl, ?_, fun m k e hm hfails => ?_⟩
    · cases hm
    · obtain ⟨hm, hfuel, -⟩ := hm
      cases hreached hm
      cases hfuel
    · rw [Moment.ends_zero]
      rfl
    · cases hreached hm
      exact hfails
  | succ n ih =>
    have hchildren (c : Moment) (hc : c ∈ task.children limits n s) : ∃ l,
        Attempts limits c.state.steps (c.Reaches limits) (c.ends limits) l := by
      obtain ⟨rfl, -⟩ := Task.starts_of_mem hc
      exact ih c.task c.state
    cases task with
    | eval e =>
      refine (spans_eval n s e).attempts_of_not_tries hchildren ?_
      rintro ⟨-, st, h⟩
      cases h
    | evalAll es =>
      refine (spans_evalAll n s es).attempts_of_not_tries hchildren ?_
      rintro ⟨-, st, h⟩
      cases h
    | invoke token name args =>
      refine (spans_invoke n s token name args).attempts_of_not_tries hchildren ?_
      rintro ⟨-, st, h⟩
      cases h
    | exec st => exact (spans_exec n s st).attempts_of_exec hchildren
    | execAll sts =>
      refine (spans_execAll n s sts).attempts_of_not_tries hchildren ?_
      rintro ⟨-, st, h⟩
      cases h
    | repeatWhile cond body =>
      refine (spans_repeatWhile n s cond body).attempts_of_not_tries hchildren ?_
      rintro ⟨-, st, h⟩
      cases h

/-- A run that has a result was never short of fuel. -/
theorem Attempts.fuel_pos {reached : Moment → Prop} {l : List Moment}
    (h : Attempts limits i reached out l) (hdone : ∀ k, out ≠ (k, some .outOfFuel))
    (hm : reached m) : 0 < m.fuel := by
  obtain ⟨n, task, s⟩ := m
  cases n with
  | zero => exact absurd (h.fails _ _ _ hm (Moment.ends_zero task s)) (hdone _)
  | succ n => exact Nat.succ_pos n

end Attempts

namespace Program

variable (limits : Limits) (p : Program) (fuel : Nat) (s : RunState)

/-- The tasks of a program: its declarations, and its main statement if they succeed. -/
def parts : List Moment :=
  ⟨fuel, .execAll (p.procedures.map Declaration.toStmt), s.atStart⟩ ::
    Run.onOk (Run.execAll limits fuel (p.procedures.map Declaration.toStmt) s.atStart) fun _ t =>
      match p.main with
      | none => []
      | some st => [⟨fuel, .exec st, t⟩]

theorem spans_parts :
    Spans limits 0 (p.parts limits fuel s) (Run.ends (Run.program limits fuel p) s) := by
  change Spans limits s.atStart.steps _ (Run.ends (Run.statements limits fuel p) s.atStart)
  unfold Run.statements
  refine .bind rfl rfl fun _ t _ => ?_
  cases p.main with
  | none => exact .nil _ _
  | some st => exact .single rfl rfl

theorem reaches_iff {m : Moment} :
    p.Reaches limits fuel s m ↔ ∃ c ∈ p.parts limits fuel s, c.Reaches limits m := by
  constructor
  · rintro (hm | ⟨hmain, hdeclared, hm⟩)
    · exact ⟨_, .head _, hm⟩
    · refine ⟨_, .tail _ (Run.mem_onOk.mpr ⟨(), _, hdeclared, ?_⟩), hm⟩
      rw [hmain]
      exact .head _
  · rintro ⟨c, hc, hm⟩
    rcases List.mem_cons.mp hc with rfl | hc
    · exact .declarations hm
    · obtain ⟨_, t, hdeclared, hc⟩ := Run.mem_onOk.mp hc
      cases hmain : p.main with
      | none =>
        rw [hmain] at hc
        cases hc
      | some st =>
        rw [hmain] at hc
        cases List.mem_singleton.mp hc
        exact .main hmain hdeclared hm

/-- The statements that a program tries are numbered from zero on, up to the steps on its counter at
the end, and it fails as its last task does. -/
theorem exists_attempts : ∃ l,
    Attempts limits 0 (p.Reaches limits fuel s) (Run.ends (Run.program limits fuel p) s) l := by
  obtain ⟨l, hl⟩ := (spans_parts limits p fuel s).attempts fun c _ =>
    Moment.attempts_of_fuel c.fuel c.task c.state
  refine ⟨l, fun m => ?_, hl.steps, hl.count, fun m k e hm => ?_⟩
  · rw [hl.mem, reaches_iff]
  · exact hl.fails m k e ((reaches_iff limits p fuel s).mp hm)

end Program

end MiniPascal
