import MiniPascal.Proofs.Tasks

/-! Two runs of the interpreter side by side. A coupling relates computations of two runs that may have
different limits and different fuel. What every single step of the interpreter keeps related stays
related through whole runs; what one run does to its state is the case of a run coupled to itself. -/

namespace MiniPascal

namespace Run

variable {α β : Type}

/-- The state that a computation leaves behind, however it ends. -/
def after (x : Run α) (s : RunState) : RunState :=
  match x s with
  | .ok _ t => t
  | .error _ t => t

theorem after_of_ok {x : Run α} {s t : RunState} {a : α} (h : x s = .ok a t) : after x s = t := by
  rw [after, h]

theorem after_of_error {x : Run α} {s t : RunState} {e : RunError} (h : x s = .error e t) :
    after x s = t := by
  rw [after, h]

theorem bind_of_ok {x : Run α} {s t : RunState} {a : α} (h : x s = .ok a t) (f : α → Run β) :
    (x >>= f) s = f a t := by
  change EStateM.bind x f s = f a t
  rw [EStateM.bind, h]

theorem bind_of_error {x : Run α} {s t : RunState} {e : RunError} (h : x s = .error e t)
    (f : α → Run β) : (x >>= f) s = .error e t := by
  change EStateM.bind x f s = .error e t
  rw [EStateM.bind, h]

theorem after_bind_of_ok {x : Run α} {s t : RunState} {a : α} (h : x s = .ok a t)
    (f : α → Run β) : after (x >>= f) s = after (f a) t := by
  rw [after, bind_of_ok h, after]

theorem after_bind_of_error {x : Run α} {s t : RunState} {e : RunError} (h : x s = .error e t)
    (f : α → Run β) : after (x >>= f) s = t := by
  rw [after, bind_of_error h]

/-- Enters a procedure whose arguments are evaluated, unless too many calls are in progress. -/
def enter (limits : Limits) (pos : Position) (q : Procedure) (values : List Int32)
    (body : Run Unit) : Run Int32 := do
  if limits.depth ≤ (← get).depth then stop (.depthLimit limits.depth q.name) pos
  else within (callScope q values) q.name body

end Run

/-- A relation between computations of two runs with limits of their own that the parts of the
interpreter keep. -/
structure Coupling (limits limits' : Limits) where
  rel : {α : Type} → Run α → Run α → Prop
  pure : ∀ {α : Type} (a : α), rel (pure a) (pure a)
  bind : ∀ {α β : Type} {x y : Run α} {f g : α → Run β}, rel x y → (∀ a, rel (f a) (g a)) →
    rel (x >>= f) (y >>= g)
  get : rel get get
  fail : ∀ {α : Type} (e : RunError), rel (throw e : Run α) (throw e)
  step : ∀ pos : Position, rel (Run.step limits pos) (Run.step limits' pos)
  assign : ∀ (x : Text) (v : Int32), rel (Run.assign x v) (Run.assign x v)
  declare : ∀ (name : Text) (q : Procedure),
    rel (modify fun s => { s with env := s.env.setProc name q } : Run Unit)
      (modify fun s => { s with env := s.env.setProc name q })
  writeLine : ∀ v : Int32, rel (Run.writeLine v) (Run.writeLine v)
  readValue : ∀ pos : Position, rel (Run.readValue pos) (Run.readValue pos)
  enter : ∀ {x y : Run Unit} (pos : Position) (q : Procedure) (values : List Int32), rel x y →
    rel (Run.enter limits pos q values x) (Run.enter limits' pos q values y)

namespace Coupling

variable {limits limits' : Limits} {n m : Nat}

theorem readVariable (c : Coupling limits limits') (x : Text) :
    c.rel (Run.readVariable x) (Run.readVariable x) := by
  unfold Run.readVariable
  refine c.bind c.get fun s => ?_
  cases s.env.get? x with
  | some v => exact c.pure v
  | none => exact c.bind (c.assign x 0) fun _ => c.pure 0

/-- Every part of the interpreter on `n` units of fuel is related to the same part on `m`. -/
structure Relates (c : Coupling limits limits') (n m : Nat) : Prop where
  eval : ∀ e, c.rel (Run.eval limits n e) (Run.eval limits' m e)
  evalAll : ∀ es, c.rel (Run.evalAll limits n es) (Run.evalAll limits' m es)
  invoke : ∀ token name args,
    c.rel (Run.invoke limits n token name args) (Run.invoke limits' m token name args)
  exec : ∀ st, c.rel (Run.exec limits n st) (Run.exec limits' m st)
  execAll : ∀ sts, c.rel (Run.execAll limits n sts) (Run.execAll limits' m sts)
  repeatWhile : ∀ cond body,
    c.rel (Run.repeatWhile limits n cond body) (Run.repeatWhile limits' m cond body)

namespace Relates

variable {c : Coupling limits limits'}

theorem zero : c.Relates 0 0 where
  eval _ := c.fail _
  evalAll _ := c.fail _
  invoke _ _ _ := c.fail _
  exec _ := c.fail _
  execAll _ := c.fail _
  repeatWhile _ _ := c.fail _

theorem eval_succ (h : c.Relates n m) (e : Expr) :
    c.rel (Run.eval limits (n + 1) e) (Run.eval limits' (m + 1) e) := by
  cases e with
  | literal token value tag isBool => exact c.pure value
  | var v => exact c.readVariable v.name
  | binary token op left right =>
    unfold Run.eval
    refine c.bind (h.eval left) fun l => c.bind (h.eval right) fun r => ?_
    cases op.apply l r with
    | ok v => exact c.pure v
    | error e => exact c.fail _
  | call token name args => exact h.invoke token name args
  | missing => exact c.fail _

theorem invoke_succ (h : c.Relates n m) (token : Token) (name : Text) (args : List Expr) :
    c.rel (Run.invoke limits (n + 1) token name args) (Run.invoke limits' (m + 1) token name args) := by
  unfold Run.invoke
  refine c.bind c.get fun s => ?_
  cases s.env.getProc? name with
  | none => exact c.fail _
  | some q =>
    by_cases harity : args.length ≠ q.params.length
    · simp only [if_pos harity]
      exact c.fail _
    · simp only [if_neg harity]
      exact c.bind (h.evalAll args) fun values => c.enter token.pos q values (h.exec q.body)

/-- A statement is counted; what it does then is related too. -/
theorem exec_succ_eq (h : c.Relates n m) (st : Stmt) : ∃ x y : Run Unit,
    Run.exec limits (n + 1) st = (Run.step limits st.token.pos >>= fun _ => x) ∧
      Run.exec limits' (m + 1) st = (Run.step limits' st.token.pos >>= fun _ => y) ∧ c.rel x y := by
  unfold Run.exec
  refine ⟨_, _, rfl, rfl, ?_⟩
  cases st with
  | assign token target value => exact c.bind (h.eval value) fun v => c.assign target.name v
  | block token body => exact h.execAll body
  | ifThen token cond body =>
    refine c.bind (h.eval cond) fun v => ?_
    by_cases hv : Word.isTrue v = true
    · simp only [if_pos hv]
      exact h.exec body
    · simp only [if_neg hv]
      exact c.pure ()
  | ifElse token cond body alternative =>
    refine c.bind (h.eval cond) fun v => ?_
    by_cases hv : Word.isTrue v = true
    · simp only [if_pos hv]
      exact h.exec body
    · simp only [if_neg hv]
      exact h.exec alternative
  | loop token cond body => exact h.repeatWhile cond body
  | writeLn token value => exact c.bind (h.eval value) c.writeLine
  | readLn token target => exact c.bind (c.readValue token.pos) fun v => c.assign target.name v
  | call token name args => exact c.bind (h.invoke token name args) fun _ => c.pure ()
  | declare token name params body => exact c.declare name ⟨name, params, body⟩
  | missing => exact c.fail _

theorem exec_succ (h : c.Relates n m) (st : Stmt) :
    c.rel (Run.exec limits (n + 1) st) (Run.exec limits' (m + 1) st) := by
  obtain ⟨x, y, hx, hy, hrel⟩ := h.exec_succ_eq st
  rw [hx, hy]
  exact c.bind (c.step _) fun _ => hrel

theorem repeatWhile_succ (h : c.Relates n m) (cond : Expr) (body : Stmt) :
    c.rel (Run.repeatWhile limits (n + 1) cond body) (Run.repeatWhile limits' (m + 1) cond body) := by
  unfold Run.repeatWhile
  refine c.bind (h.eval cond) fun v => ?_
  by_cases hv : Word.isTrue v = true
  · simp only [if_pos hv]
    exact c.bind (h.exec body) fun _ => h.repeatWhile cond body
  · simp only [if_neg hv]
    exact c.pure ()

theorem succ (h : c.Relates n m) : c.Relates (n + 1) (m + 1) where
  eval := h.eval_succ
  evalAll es := by
    cases es with
    | nil => exact c.pure []
    | cons e es =>
      exact c.bind (h.eval e) fun v => c.bind (h.evalAll es) fun vs => c.pure (v :: vs)
  invoke := h.invoke_succ
  exec := h.exec_succ
  execAll sts := by
    cases sts with
    | nil => exact c.pure ()
    | cons st sts => exact c.bind (h.exec st) fun _ => h.execAll sts
  repeatWhile := h.repeatWhile_succ

/-- If having no fuel left is related to having any, then so is having less to having more. -/
theorem of_le (hzero : ∀ m, c.Relates 0 m) (hle : n ≤ m) : c.Relates n m := by
  induction n generalizing m with
  | zero => exact hzero m
  | succ n ih =>
    obtain ⟨m, rfl⟩ := Nat.exists_eq_add_of_le' (Nat.le_trans (Nat.succ_pos n) hle)
    exact (ih (Nat.le_of_succ_le_succ hle)).succ

theorem statements (h : c.Relates n m) (p : Program) :
    c.rel (Run.statements limits n p) (Run.statements limits' m p) := by
  unfold Run.statements
  refine c.bind (h.execAll _) fun _ => ?_
  cases p.main with
  | none => exact c.pure ()
  | some st => exact h.exec st

end Relates

/-- On the same fuel all parts of the interpreter are related. -/
theorem relates (c : Coupling limits limits') (n : Nat) : c.Relates n n := by
  induction n with
  | zero => exact .zero
  | succ n ih => exact ih.succ

end Coupling

/-- A relation between the state in which a computation starts and the one that it leaves behind, such
that the parts of the interpreter keep to it. -/
structure Course where
  leads : RunState → RunState → Prop
  refl : ∀ s, leads s s
  trans : ∀ {s t u}, leads s t → leads t u → leads s u
  step : ∀ s, leads s { s with steps := s.steps + 1 }
  set : ∀ s x v, leads s { s with env := s.env.set x v }
  setProc : ∀ s name q, leads s { s with env := s.env.setProc name q }
  read : ∀ s input, leads s { s with input }
  write : ∀ s {bytes sink}, s.sink.write bytes = .ok sink → leads s { s with sink }
  call : ∀ {s t} (q : Procedure) (values : List Int32),
    leads { s with env := s.env.push (Run.callScope q values), depth := s.depth + 1 } t →
    leads s { t with env := t.env.pop, depth := t.depth - 1 }

namespace Course

variable {α β : Type}

/-- A computation keeps to a course from every state, whether it succeeds or fails. -/
def Keeps (c : Course) (x : Run α) : Prop := ∀ s, c.leads s (Run.after x s)

variable {c : Course} {limits : Limits}

theorem Keeps.bind {x : Run α} {f : α → Run β} (hx : c.Keeps x) (hf : ∀ a, c.Keeps (f a)) :
    c.Keeps (x >>= f) := by
  intro s
  have hfirst := hx s
  cases hrun : x s with
  | ok a t =>
    rw [Run.after_of_ok hrun] at hfirst
    rw [Run.after_bind_of_ok hrun]
    exact c.trans hfirst (hf a t)
  | error e t =>
    rw [Run.after_of_error hrun] at hfirst
    rw [Run.after_bind_of_error hrun]
    exact hfirst

theorem keeps_step (pos : Position) : c.Keeps (Run.step limits pos) := by
  intro s
  rcases Run.step_cases limits pos s with hstep | ⟨limit, hstep⟩
  · rw [Run.after_of_ok hstep]
    exact c.step s
  · rw [Run.after_of_error hstep]
    exact c.step s

theorem keeps_writeLine (v : Int32) : c.Keeps (Run.writeLine v) := by
  intro s
  rcases Run.writeLine_cases v s with ⟨_, sink, hsink, hwrite⟩ | ⟨reason, hwrite⟩
  · rw [Run.after_of_ok hwrite]
    exact c.write s hsink
  · rw [Run.after_of_error hwrite]
    exact c.refl s

theorem keeps_readValue (pos : Position) : c.Keeps (Run.readValue pos) := by
  intro s
  rcases Run.readValue_cases pos s with ⟨v, input, hread⟩ | ⟨_, input, hread, -⟩
  · rw [Run.after_of_ok hread]
    exact c.read s input
  · rw [Run.after_of_error hread]
    exact c.read s input

theorem Keeps.within {x : Run Unit} (h : c.Keeps x) (q : Procedure) (values : List Int32) :
    c.Keeps (Run.within (Run.callScope q values) q.name x) := by
  intro s
  have hbody := h { s with env := s.env.push (Run.callScope q values), depth := s.depth + 1 }
  unfold Run.after Run.within
  unfold Run.after at hbody
  generalize x _ = result at hbody ⊢
  cases result with
  | ok a t => exact c.call q values hbody
  | error e t => exact c.call q values hbody

theorem Keeps.enter {x : Run Unit} (h : c.Keeps x) (pos : Position) (q : Procedure)
    (values : List Int32) : c.Keeps (Run.enter limits pos q values x) := by
  intro s
  unfold Run.after Run.enter
  rw [Run.get_bind]
  by_cases hdepth : limits.depth ≤ s.depth
  · rw [if_pos hdepth]
    exact c.refl s
  · rw [if_neg hdepth]
    exact h.within q values s

/-- A run coupled to itself. -/
def coupling (c : Course) (limits : Limits) : Coupling limits limits where
  rel x _ := c.Keeps x
  pure _ := c.refl
  bind := Keeps.bind
  get := c.refl
  fail _ := c.refl
  step := keeps_step
  assign x v s := c.set s x v
  declare name q s := c.setProc s name q
  writeLine := keeps_writeLine
  readValue := keeps_readValue
  enter pos q values h := h.enter pos q values

/-- Every part of the interpreter keeps to a course. -/
theorem relates (c : Course) (limits : Limits) (n : Nat) : (c.coupling limits).Relates n n :=
  (c.coupling limits).relates n

theorem exec_succ_eq (c : Course) (limits : Limits) (n : Nat) (st : Stmt) : ∃ x : Run Unit,
    Run.exec limits (n + 1) st = (Run.step limits st.token.pos >>= fun _ => x) ∧ c.Keeps x := by
  obtain ⟨x, _, hx, -, hkeeps⟩ := (c.relates limits n).exec_succ_eq st
  exact ⟨x, hx, hkeeps⟩

theorem Keeps.leads_of_ok {x : Run α} {a : α} {s t : RunState} (h : c.Keeps x)
    (hx : x s = .ok a t) : c.leads s t :=
  Run.after_of_ok hx ▸ h s

end Course

/-- The state that a task leaves behind, however it ends. -/
def Moment.after (limits : Limits) (m : Moment) : RunState :=
  match m.task with
  | .eval e => Run.after (Run.eval limits m.fuel e) m.state
  | .evalAll es => Run.after (Run.evalAll limits m.fuel es) m.state
  | .invoke token name args => Run.after (Run.invoke limits m.fuel token name args) m.state
  | .exec st => Run.after (Run.exec limits m.fuel st) m.state
  | .execAll sts => Run.after (Run.execAll limits m.fuel sts) m.state
  | .repeatWhile cond body => Run.after (Run.repeatWhile limits m.fuel cond body) m.state

/-- The calls that are in progress in the second task and not in the first, which starts it. -/
def Task.enters : Task → Task → Nat
  | .invoke .., .exec _ => 1
  | _, _ => 0

namespace Course

variable {c : Course} {limits : Limits} {n : Nat} {m m' : Moment}

theorem leads_after (c : Course) (limits : Limits) (m : Moment) :
    c.leads m.state (m.after limits) := by
  obtain ⟨n, task, s⟩ := m
  have h := c.relates limits n
  cases task with
  | eval e => exact h.eval e s
  | evalAll es => exact h.evalAll es s
  | invoke token name args => exact h.invoke token name args s
  | exec st => exact h.exec st s
  | execAll sts => exact h.execAll sts s
  | repeatWhile cond body => exact h.repeatWhile cond body s

theorem leads_of_stmt_starts {st : Stmt} {t u : RunState} {task : Task}
    (h : st.Starts limits n t task u) : c.leads t u := by
  have hall := c.relates limits n
  cases h with
  | thenBody hcond hv => exact Keeps.leads_of_ok (hall.eval _) hcond
  | ifBody hcond hv => exact Keeps.leads_of_ok (hall.eval _) hcond
  | elseBody hcond hv => exact Keeps.leads_of_ok (hall.eval _) hcond
  | assign => exact c.refl t
  | block => exact c.refl t
  | ifThen => exact c.refl t
  | ifElse => exact c.refl t
  | loop => exact c.refl t
  | writeLn => exact c.refl t
  | call => exact c.refl t

/-- A task is started in a state to which the course leads, or in a new scope inside such a state. -/
theorem leads_of_starts (h : m.Starts limits m') :
    (m.task.enters m'.task = 0 ∧ c.leads m.state m'.state) ∨
      ∃ t q values, m.task.enters m'.task = 1 ∧ c.leads m.state t ∧ t.depth < limits.depth ∧
        m'.state = { t with env := t.env.push (Run.callScope q values), depth := t.depth + 1 } := by
  have hall := c.relates limits m'.fuel
  cases h with
  | left => exact .inl ⟨rfl, c.refl _⟩
  | right hleft => exact .inl ⟨rfl, Keeps.leads_of_ok (hall.eval _) hleft⟩
  | call => exact .inl ⟨rfl, c.refl _⟩
  | first => exact .inl ⟨rfl, c.refl _⟩
  | others hfirst => exact .inl ⟨rfl, Keeps.leads_of_ok (hall.eval _) hfirst⟩
  | args hq hargs => exact .inl ⟨rfl, c.refl _⟩
  | @body n s t token name args q values hq hargs hvalues hdepth =>
    exact .inr ⟨t, q, values, rfl, Keeps.leads_of_ok (hall.evalAll _) hvalues, hdepth, rfl⟩
  | exec hstep hst =>
    exact .inl ⟨rfl, c.trans (Keeps.leads_of_ok (keeps_step _) hstep) (leads_of_stmt_starts hst)⟩
  | statement => exact .inl ⟨rfl, c.refl _⟩
  | statements hst => exact .inl ⟨rfl, Keeps.leads_of_ok (hall.exec _) hst⟩
  | test => exact .inl ⟨rfl, c.refl _⟩
  | round hcond hv => exact .inl ⟨rfl, Keeps.leads_of_ok (hall.eval _) hcond⟩
  | again hcond hv hbody =>
    exact .inl ⟨rfl, c.trans (Keeps.leads_of_ok (hall.eval _) hcond)
      (Keeps.leads_of_ok (hall.exec _) hbody)⟩

end Course

end MiniPascal
