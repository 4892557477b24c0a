import MiniPascal.Proofs.Fragments
import MiniPascal.Proofs.Lexical
import MiniPascal.Proofs.Linking

/-! Generated code does on the stack machine what the lexical reading does. A run of the lexical reading
that ends is followed to its end, and one that is short of fuel by a number of steps that grows with
the fuel: every unit of fuel beyond the size of the syntax at hand is used up by a round of a loop or
by a call, and both take steps of the machine. -/

namespace MiniPascal

mutual

/-- A bound on the fuel that an expression needs between two calls. -/
def Expr.size : Expr → Nat
  | .literal .. => 1
  | .var _ => 1
  | .binary _ _ left right => left.size + right.size + 1
  | .call _ _ args => Expr.sizeAll args + 2
  | .missing => 1

def Expr.sizeAll : List Expr → Nat
  | [] => 1
  | e :: es => e.size + Expr.sizeAll es + 1

end

mutual

/-- A bound on the fuel that a statement needs between two calls or rounds of loops. -/
def Stmt.size : Stmt → Nat
  | .assign _ _ value => value.size + 1
  | .block _ body => Stmt.sizeAll body + 1
  | .ifThen _ cond body => cond.size + body.size + 1
  | .ifElse _ cond body alternative => cond.size + body.size + alternative.size + 1
  | .loop _ cond body => cond.size + body.size + 2
  | .writeLn _ value => value.size + 1
  | .readLn .. => 1
  | .call _ _ args => Expr.sizeAll args + 2
  | .declare .. => 1
  | .missing => 1

def Stmt.sizeAll : List Stmt → Nat
  | [] => 1
  | s :: ss => s.size + Stmt.sizeAll ss + 1

end

/-- What code for an expression asks of it, given the procedures that there are. -/
structure Expr.Compiled (procs : Table Procedure) (e : Expr) : Prop where
  supported : e.Supported procs
  named : e.Named
  declared : ∀ f ∈ e.calls, f ∈ procs.names

structure Expr.CompiledAll (procs : Table Procedure) (es : List Expr) : Prop where
  supported : Expr.SupportedAll procs es
  named : Expr.NamedAll es
  declared : ∀ f ∈ Expr.callsAll es, f ∈ procs.names

structure Stmt.Compiled (procs : Table Procedure) (s : Stmt) : Prop where
  supported : s.Supported procs
  named : s.Named
  declared : ∀ f ∈ s.calls, f ∈ procs.names

structure Stmt.CompiledAll (procs : Table Procedure) (ss : List Stmt) : Prop where
  supported : Stmt.SupportedAll procs ss
  named : Stmt.NamedAll ss
  declared : ∀ f ∈ Stmt.callsAll ss, f ∈ procs.names

section Compiled

variable {procs : Table Procedure} {token : Token} {cond : Expr} {body : Stmt}

theorem Expr.Compiled.binary {op : Operator} {left right : Expr}
    (h : (Expr.binary token op left right).Compiled procs) :
    (∃ ls, Assembly.operatorLines? op = some ls) ∧ left.Compiled procs ∧ right.Compiled procs := by
  obtain ⟨hsupported, hnamed, hdeclared⟩ := h
  rw [Expr.Supported] at hsupported
  rw [Expr.Named] at hnamed
  rw [Expr.calls] at hdeclared
  obtain ⟨-, -, hop, hleft, hright⟩ := hsupported
  exact ⟨Option.isSome_iff_exists.mp hop,
    ⟨hleft, hnamed.1, fun f hf => hdeclared f (List.mem_append_left _ hf)⟩,
    hright, hnamed.2, fun f hf => hdeclared f (List.mem_append_right _ hf)⟩

/-- A call is to a procedure that there is, with as many arguments as it takes. -/
theorem Expr.Compiled.call {name : Text} {args : List Expr}
    (h : (Expr.call token name args).Compiled procs) :
    (∃ p, procs.get? name = some p ∧ p.params.length = args.length) ∧
      Expr.CompiledAll procs args := by
  obtain ⟨hsupported, hnamed, hdeclared⟩ := h
  rw [Expr.Supported] at hsupported
  rw [Expr.Named] at hnamed
  rw [Expr.calls] at hdeclared
  have hname := hdeclared name List.mem_cons_self
  obtain ⟨p, hp⟩ : ∃ p, procs.get? name = some p :=
    Option.ne_none_iff_exists'.mp fun hnone => Table.get?_eq_none_iff.mp hnone hname
  exact ⟨⟨p, hp, hsupported.1 p hp⟩, hsupported.2, hnamed.2,
    fun f hf => hdeclared f (List.mem_cons_of_mem _ hf)⟩

theorem Expr.CompiledAll.cons {e : Expr} {es : List Expr} (h : Expr.CompiledAll procs (e :: es)) :
    e.Compiled procs ∧ Expr.CompiledAll procs es := by
  obtain ⟨hsupported, hnamed, hdeclared⟩ := h
  rw [Expr.SupportedAll] at hsupported
  rw [Expr.NamedAll] at hnamed
  rw [Expr.callsAll] at hdeclared
  exact ⟨⟨hsupported.1, hnamed.1, fun f hf => hdeclared f (List.mem_append_left _ hf)⟩,
    hsupported.2, hnamed.2, fun f hf => hdeclared f (List.mem_append_right _ hf)⟩

theorem Stmt.CompiledAll.cons {st : Stmt} {ss : List Stmt}
    (h : Stmt.CompiledAll procs (st :: ss)) :
    st.Compiled procs ∧ Stmt.CompiledAll procs ss := by
  obtain ⟨hsupported, hnamed, hdeclared⟩ := h
  rw [Stmt.SupportedAll] at hsupported
  rw [Stmt.NamedAll] at hnamed
  rw [Stmt.callsAll] at hdeclared
  exact ⟨⟨hsupported.1, hnamed.1, fun f hf => hdeclared f (List.mem_append_left _ hf)⟩,
    hsupported.2, hnamed.2, fun f hf => hdeclared f (List.mem_append_right _ hf)⟩

theorem Stmt.Compiled.assign {target : Variable} {value : Expr}
    (h : (Stmt.assign token target value).Compiled procs) :
    target.name.isIdentifier = true ∧ value.Compiled procs := by
  obtain ⟨hsupported, hnamed, hdeclared⟩ := h
  rw [Stmt.Supported] at hsupported
  rw [Stmt.Named] at hnamed
  exact ⟨hnamed.1, hsupported.1, hnamed.2, hdeclared⟩

theorem Stmt.Compiled.loop (h : (Stmt.loop token cond body).Compiled procs) :
    cond.Compiled procs ∧ body.Compiled procs := by
  obtain ⟨hsupported, hnamed, hdeclared⟩ := h
  rw [Stmt.Supported] at hsupported
  rw [Stmt.Named] at hnamed
  rw [Stmt.calls] at hdeclared
  exact ⟨⟨hsupported.1, hnamed.1, fun f hf => hdeclared f (List.mem_append_left _ hf)⟩,
    hsupported.2, hnamed.2, fun f hf => hdeclared f (List.mem_append_right _ hf)⟩

theorem Stmt.Compiled.ifThen (h : (Stmt.ifThen token cond body).Compiled procs) :
    cond.Compiled procs ∧ body.Compiled procs := by
  have hloop : (Stmt.loop token cond body).Compiled procs := ⟨h.supported, h.named, h.declared⟩
  exact hloop.loop

theorem Stmt.Compiled.ifElse {alternative : Stmt}
    (h : (Stmt.ifElse token cond body alternative).Compiled procs) :
    cond.Compiled procs ∧ body.Compiled procs ∧ alternative.Compiled procs := by
  obtain ⟨hsupported, hnamed, hdeclared⟩ := h
  rw [Stmt.Supported] at hsupported
  rw [Stmt.Named] at hnamed
  rw [Stmt.calls] at hdeclared
  simp only [List.mem_append] at hdeclared
  exact ⟨⟨hsupported.1, hnamed.1, fun f hf => hdeclared f (.inl (.inl hf))⟩,
    ⟨hsupported.2.1, hnamed.2.1, fun f hf => hdeclared f (.inl (.inr hf))⟩,
    hsupported.2.2, hnamed.2.2, fun f hf => hdeclared f (.inr hf)⟩

theorem Stmt.Compiled.writeLn {value : Expr} (h : (Stmt.writeLn token value).Compiled procs) :
    value.Compiled procs := by
  obtain ⟨hsupported, hnamed, hdeclared⟩ := h
  rw [Stmt.Supported] at hsupported
  exact ⟨hsupported.1, hnamed, hdeclared⟩

end Compiled

namespace StackMachine

open Assembly

/-- The machine follows a run from `s`, on at least one step for every `cost` units of `fuel` that the
run was short of. -/
def Follows {α : Type} (code : Code) (cost fuel : Nat) (s : State)
    (done : α → RunState → State → Prop) : EStateM.Result RunError RunState α → Prop
  | .ok a r => ∃ k t, Runs code k s t ∧ t.out = r.sink.written ∧ done a r t
  | .error e r => ∃ k t, Runs code k s t ∧ t.out = r.sink.written ∧
      ((e = .outOfFuel ∧ fuel ≤ cost * k) ∨
        ((∃ text pos, e = .stopped (.operator .divisionByZero text) pos) ∧
          step? code t = some .divisionByZero))

section Follows

variable {α β : Type} {code : Code} {cost fuel : Nat} {s t : State} {r : RunState}
  {done done' : α → RunState → State → Prop} {result : EStateM.Result RunError RunState α}

theorem follows_ok {a : α} (hout : s.out = r.sink.written) (hdone : done a r s) :
    Follows code cost fuel s done (.ok a r) := ⟨0, s, .refl s, hout, hdone⟩

theorem follows_outOfFuel (hout : s.out = r.sink.written) (hfuel : fuel = 0) :
    Follows code cost fuel s done (.error .outOfFuel r) :=
  ⟨0, s, .refl s, hout, .inl ⟨rfl, by omega⟩⟩

namespace Follows

/-- The machine may go on where the run has ended. -/
theorem extend (h : Follows code cost fuel s done result)
    (hmore : ∀ a r t, done a r t → t.out = r.sink.written →
      ∃ k u, Runs code k t u ∧ u.out = r.sink.written ∧ done' a r u) :
    Follows code cost fuel s done' result := by
  cases result with
  | ok a r =>
    obtain ⟨k, t, hruns, hout, hdone⟩ := h
    obtain ⟨j, u, hmore, hout, hdone⟩ := hmore a r t hdone hout
    exact ⟨k + j, u, hruns.trans hmore, hout, hdone⟩
  | error e r => exact h

theorem mono (h : Follows code cost fuel s done result) {fuel' : Nat} (hle : fuel' ≤ fuel) :
    Follows code cost fuel' s done result := by
  cases result with
  | ok a r => exact h
  | error e r =>
    obtain ⟨k, t, hruns, hout, hend⟩ := h
    exact ⟨k, t, hruns, hout, hend.imp_left fun hk => ⟨hk.1, hle.trans hk.2⟩⟩

/-- Steps made before pay for fuel. -/
theorem after {k : Nat} (hruns : Runs code k s t)
    (h : Follows code cost (fuel - cost * k) t done result) :
    Follows code cost fuel s done result := by
  cases result with
  | ok a r =>
    obtain ⟨j, u, hj, hout, hdone⟩ := h
    exact ⟨k + j, u, hruns.trans hj, hout, hdone⟩
  | error e r =>
    obtain ⟨j, u, hj, hout, hend⟩ := h
    refine ⟨k + j, u, hruns.trans hj, hout, hend.imp_left ?_⟩
    rintro ⟨he, hfuel⟩
    rw [Nat.mul_add]
    exact ⟨he, by omega⟩

theorem after_mono {k : Nat} (hruns : Runs code k s t)
    (h : Follows code cost fuel t done result) : Follows code cost fuel s done result :=
  after hruns (h.mono (Nat.sub_le _ _))

theorem bind {x : Run α} {f : α → Run β} {next : β → RunState → State → Prop}
    (hx : Follows code cost fuel s done (x r))
    (hf : ∀ a r' t, t.out = r'.sink.written → done a r' t →
      Follows code cost fuel t next (f a r')) :
    Follows code cost fuel s next ((x >>= f) r) := by
  change Follows code cost fuel s next (EStateM.bind x f r)
  unfold EStateM.bind
  cases hr : x r with
  | ok a r' =>
    rw [hr] at hx
    obtain ⟨k, t, hruns, hout, hdone⟩ := hx
    exact after_mono hruns (hf a r' t hout hdone)
  | error e r' =>
    rw [hr] at hx
    exact hx

theorem inScope {body : Run Unit} {done : Unit → RunState → State → Prop}
    (h : Follows code cost fuel s done (body { r with env := r.env.push {} })) :
    Follows code cost fuel s
      (fun _ r' t => ∃ env, done () { r' with env := env } t ∧ r'.env = env.pop)
      (Lexical.inScope body r) := by
  unfold Lexical.inScope
  cases hr : body { r with env := r.env.push {} } with
  | ok a r' =>
    rw [hr] at h
    obtain ⟨k, t, hruns, hout, hdone⟩ := h
    exact ⟨k, t, hruns, hout, r'.env, hdone, rfl⟩
  | error e r' =>
    rw [hr] at h
    exact h

theorem inFrame {scope : Scope} {name : Text} {body : Run Unit}
    {done : Unit → RunState → State → Prop}
    (h : Follows code cost fuel s done (body { r with env := [scope] })) :
    Follows code cost fuel s
      (fun v r' t => ∃ env : Env, done () { r' with env := env } t ∧
        v = (env.get? name).getD 0 ∧ r'.env = r.env)
      (Lexical.inFrame scope name body r) := by
  unfold Lexical.inFrame
  cases hr : body { r with env := [scope] } with
  | ok a r' =>
    rw [hr] at h
    obtain ⟨k, t, hruns, hout, hdone⟩ := h
    exact ⟨k, t, hruns, hout, r'.env, hdone, rfl, rfl⟩
  | error e r' =>
    rw [hr] at h
    exact h

end Follows

end Follows

/-- The machine stands at `pc` in the frame of a run. Below the frame lies `rest`, above it the words
without a name. -/
structure Site (ret : Int32) (nss : List (List Text)) (words : List Int32)
    (parked rest : List (Option Int32)) (pc : Nat) (r : RunState) (s : State) : Prop where
  pc_eq : s.pc = pc
  stack_eq : s.stack = parked ++ (words.map some ++ rest)
  frame : Frame ret nss r.env words
  out_eq : s.out = r.sink.written
  room : r.sink.room = none

section Site

variable {ret : Int32} {nss : List (List Text)} {words : List Int32}
  {parked rest : List (Option Int32)} {pc pc' : Nat} {r : RunState} {s t : State}

theorem Site.moved (h : Site ret nss words parked rest pc r s) (hpc : t.pc = pc')
    (hstack : t.stack = s.stack) (hout : t.out = s.out) :
    Site ret nss words parked rest pc' r t :=
  ⟨hpc, hstack.trans h.stack_eq, h.frame, hout.trans h.out_eq, h.room⟩

theorem Site.parked_cons (h : Site ret nss words parked rest pc r s) {v : Option Int32}
    (hpc : t.pc = pc') (hstack : t.stack = v :: s.stack) (hout : t.out = s.out) :
    Site ret nss words (v :: parked) rest pc' r t :=
  ⟨hpc, by rw [hstack, h.stack_eq]; rfl, h.frame, hout.trans h.out_eq, h.room⟩

theorem Site.unparked {v : Option Int32} (h : Site ret nss words (v :: parked) rest pc r s)
    (hpc : t.pc = pc') (hstack : s.stack = v :: t.stack) (hout : t.out = s.out) :
    Site ret nss words parked rest pc' r t := by
  have htail := hstack.symm.trans h.stack_eq
  rw [List.cons_append, List.cons.injEq] at htail
  exact ⟨hpc, htail.2, h.frame, hout.trans h.out_eq, h.room⟩

end Site

/-- What code does for an expression: it leaves the frame as it was, and the value in the result
register. -/
structure Evaluates (ret : Int32) (nss : List (List Text)) (words : List Int32)
    (parked rest : List (Option Int32)) (pc : Nat) (env : Env) (v : Int32) (r : RunState)
    (s : State) : Prop where
  site : Site ret nss words parked rest pc r s
  env_eq : r.env = env
  value : s.regs Reg.v0 = v

/-- What code does for a call: the frame stays as it was, and the arguments are gone. -/
def Finishes (ret : Int32) (nss : List (List Text)) (rest : List (Option Int32)) (pc : Nat)
    (r : RunState) (s : State) : Prop :=
  ∃ words, Site ret nss words [] rest pc r s

/-- The code for every piece of syntax is right as far as the fuel `n` goes. -/
structure Simulates (code : Code) (procs : Table Procedure) (cost n : Nat) : Prop where
  eval : ∀ {ret nss words parked rest pc r s} (e : Expr), e.Compiled procs →
    code.Holds pc (exprLines nss.flatten parked.length e) →
    Site ret nss words parked rest pc r s →
    Follows code cost (n - e.size) s (Evaluates ret nss words parked rest
      (pc + codeSize (exprLines nss.flatten parked.length e)) r.env) (Lexical.eval procs n e r)
  evalAll : ∀ {ret nss words parked rest pc r s} (es : List Expr), Expr.CompiledAll procs es →
    code.Holds pc (argumentLines nss.flatten parked.length es) →
    Site ret nss words parked rest pc r s →
    Follows code cost (n - Expr.sizeAll es) s
      (fun vs r' t => vs.length = es.length ∧ r'.env = r.env ∧
        Site ret nss words (vs.reverse.map some ++ parked) rest
          (pc + codeSize (argumentLines nss.flatten parked.length es)) r' t)
      (Lexical.evalAll procs n es r)
  invoke : ∀ {ret nss words parked rest pc r s} (token : Token) (name : Text) (args : List Expr),
    (Expr.call token name args).Compiled procs →
    code.Holds pc (exprLines nss.flatten parked.length (.call token name args)) →
    Site ret nss words parked rest pc r s →
    Follows code cost (n - (Expr.sizeAll args + 1)) s (Evaluates ret nss words parked rest
      (pc + codeSize (exprLines nss.flatten parked.length (.call token name args))) r.env)
      (Lexical.invoke procs n token name args r)
  exec : ∀ {ret names outer words rest pc r s} (k : Nat) (st : Stmt), st.Compiled procs →
    code.Holds pc (stmtLines (names ++ outer.flatten) k st) →
    Site ret (names :: outer) words [] rest pc r s →
    Follows code cost (n - st.size) s
      (fun _ => Finishes ret ((st.made (names ++ outer.flatten) ++ names) :: outer) rest
        (pc + codeSize (stmtLines (names ++ outer.flatten) k st)))
      (Lexical.exec procs n st r)
  execAll : ∀ {ret names outer words rest pc r s} (k : Nat) (ss : List Stmt),
    Stmt.CompiledAll procs ss → code.Holds pc (stmtsLines (names ++ outer.flatten) k ss) →
    Site ret (names :: outer) words [] rest pc r s →
    Follows code cost (n - Stmt.sizeAll ss) s
      (fun _ => Finishes ret ((Stmt.madeAll (names ++ outer.flatten) ss ++ names) :: outer) rest
        (pc + codeSize (stmtsLines (names ++ outer.flatten) k ss)))
      (Lexical.execAll procs n ss r)
  repeatWhile : ∀ {ret names outer words rest pc r s} (k : Nat) (token : Token) (cond : Expr)
    (body : Stmt), (Stmt.loop token cond body).Compiled procs →
    code.Holds pc (stmtLines (names ++ outer.flatten) k (.loop token cond body)) →
    Site ret (names :: outer) words [] rest pc r s →
    Follows code cost (n - (cond.size + body.size + 1)) s
      (fun _ => Finishes ret (names :: outer) rest
        (pc + codeSize (stmtLines (names ++ outer.flatten) k (.loop token cond body))))
      (Lexical.repeatWhile procs n cond body r)

section Expressions

variable {code : Code} {procs : Table Procedure} {cost n : Nat} {ret : Int32}
  {nss : List (List Text)} {words : List Int32} {parked rest : List (Option Int32)} {pc : Nat}
  {r : RunState} {s : State}

theorem follows_variable {v : Variable} (hname : v.name.isIdentifier = true)
    (hcode : code.Holds pc (exprLines nss.flatten parked.length (.var v)))
    (hsite : Site ret nss words parked rest pc r s) {fuel : Nat} :
    Follows code cost fuel s (Evaluates ret nss words parked rest (pc + 1) r.env)
      (Lexical.readVariable v.name r) := by
  have hrun := runs_retrieve regName_v0 hcode hsite.pc_eq hsite.stack_eq hsite.frame.length
  have hvalue : (r.env.get? v.name).getD 0 = (wordOf nss.flatten words v.name).getD 0 := by
    rw [hsite.frame.get? (ne_ra_of_isIdentifier hname)]
  refine .after_mono hrun (follows_ok hsite.out_eq ⟨hsite.moved rfl rfl rfl, rfl, ?_⟩)
  rw [hvalue]
  exact Function.update_self Reg.v0 _ s.regs

theorem Evaluates.push {env : Env} {v : Int32}
    (h : Evaluates ret nss words parked rest pc env v r s) (hcode : code.Holds pc (pushLines "$v0")) :
    ∃ t, Runs code 2 s t ∧
      Site ret nss words (some v :: parked) rest (pc + codeSize (pushLines "$v0")) r t := by
  refine ⟨_, runs_push regName_v0 hcode h.site.pc_eq, h.site.parked_cons rfl ?_ rfl⟩
  rw [h.value]

theorem Evaluates.pop {env : Env} {a b : Int32}
    (h : Evaluates ret nss words (some a :: parked) rest pc env b r s)
    (hcode : code.Holds pc (popLines "$t0")) :
    ∃ t, Runs code 2 s t ∧ t.regs Reg.t0 = a ∧
      Evaluates ret nss words parked rest (pc + codeSize (popLines "$t0")) env b r t :=
  ⟨_, runs_pop regName_t0 hcode h.site.pc_eq h.site.stack_eq,
    Function.update_self Reg.t0 a s.regs, h.site.unparked rfl h.site.stack_eq rfl, h.env_eq, h.value⟩

/-- The end of a binary operation: its left operand waits on the stack, its right one is in the result
register. -/
theorem follows_operator {token : Token} {op : Operator} {text : Text} {a b : Int32}
    {ls : List Line} (hls : operatorLines? op = some ls)
    (hpop : code.Holds pc (popLines "$t0"))
    (hop : code.Holds (pc + codeSize (popLines "$t0")) ls) {env : Env}
    (hright : Evaluates ret nss words (some a :: parked) rest pc env b r s) {fuel : Nat} :
    Follows code cost fuel s
      (Evaluates ret nss words parked rest (pc + codeSize (popLines "$t0") + codeSize ls) env)
      ((match op.apply a b with
        | .ok v => return v
        | .error e => Run.stop (.operator e text) token.pos : Run Int32) r) := by
  obtain ⟨t, hruns, hleft, ht⟩ := hright.pop hpop
  refine .after_mono hruns ?_
  cases hv : op.apply a b with
  | ok v =>
    obtain ⟨u, hu⟩ := computes_operator hls hop ht.site.pc_eq hleft ht.value hv
    exact .after_mono hu.runs (follows_ok (hu.out_eq.trans ht.site.out_eq)
      ⟨ht.site.moved hu.pc_eq hu.stack_eq hu.out_eq, ht.env_eq, hu.value⟩)
  | error e =>
    obtain ⟨rfl, hstep⟩ := divides_operator hls hop ht.site.pc_eq ht.value hv
    exact ⟨0, t, .refl t, ht.site.out_eq, .inr ⟨⟨text, token.pos, rfl⟩, hstep⟩⟩

theorem Simulates.eval_succ (ih : Simulates code procs cost n) (e : Expr) (he : e.Compiled procs)
    (hcode : code.Holds pc (exprLines nss.flatten parked.length e))
    (hsite : Site ret nss words parked rest pc r s) :
    Follows code cost (n + 1 - e.size) s (Evaluates ret nss words parked rest
      (pc + codeSize (exprLines nss.flatten parked.length e)) r.env)
      (Lexical.eval procs (n + 1) e r) := by
  cases e with
  | literal token v tag isBool =>
    rw [Lexical.eval]
    have hrun := runs_li regName_v0 (hcode.1.instr?_eq (AsmLine.decodes_li_word v)) hsite.pc_eq
    exact .after_mono hrun (follows_ok hsite.out_eq
      ⟨hsite.moved rfl rfl rfl, rfl, Function.update_self Reg.v0 _ s.regs⟩)
  | var v =>
    rw [Lexical.eval]
    rw [exprLines, codeSize_retrieve]
    exact follows_variable he.named hcode hsite
  | binary token op left right =>
    obtain ⟨⟨ls, hls⟩, hl, hr⟩ := he.binary
    rw [exprLines, hls, Option.getD_some] at hcode ⊢
    simp only [Code.holds_append, codeSize_append, ← Nat.add_assoc] at hcode ⊢
    obtain ⟨⟨⟨⟨hcl, hpush⟩, hcr⟩, hpop⟩, hop⟩ := hcode
    rw [Lexical.eval, Expr.size]
    refine .bind ((ih.eval left hl hcl hsite).mono (by omega)) fun a r₁ t₁ _ h₁ => ?_
    obtain ⟨t, hruns, hpushed⟩ := h₁.push hpush
    refine .after_mono hruns (.bind ((ih.eval right hr hcr hpushed).mono (by omega)) ?_)
    intro b r₂ t₂ _ h₂
    rw [h₁.env_eq] at h₂
    exact follows_operator hls hpop hop h₂
  | call token name args =>
    rw [Lexical.eval]
    exact (ih.invoke token name args he hcode hsite).mono
      (by rw [Expr.size]; omega)
  | missing => exact absurd he.supported (by rw [Expr.Supported]; exact not_false)

theorem Simulates.evalAll_succ (ih : Simulates code procs cost n) (es : List Expr)
    (hes : Expr.CompiledAll procs es)
    (hcode : code.Holds pc (argumentLines nss.flatten parked.length es))
    (hsite : Site ret nss words parked rest pc r s) :
    Follows code cost (n + 1 - Expr.sizeAll es) s
      (fun vs r' t => vs.length = es.length ∧ r'.env = r.env ∧
        Site ret nss words (vs.reverse.map some ++ parked) rest
          (pc + codeSize (argumentLines nss.flatten parked.length es)) r' t)
      (Lexical.evalAll procs (n + 1) es r) := by
  cases es with
  | nil =>
    rw [Lexical.evalAll]
    exact follows_ok hsite.out_eq ⟨rfl, rfl, hsite⟩
  | cons e es =>
    obtain ⟨he, hes⟩ := hes.cons
    rw [argumentLines] at hcode ⊢
    simp only [Code.holds_append, codeSize_append, ← Nat.add_assoc] at hcode ⊢
    obtain ⟨⟨hce, hpush⟩, hces⟩ := hcode
    rw [Lexical.evalAll, Expr.sizeAll]
    refine .bind ((ih.eval e he hce hsite).mono (by omega)) fun v r₁ t₁ _ h₁ => ?_
    obtain ⟨t, hruns, hpushed⟩ := h₁.push hpush
    refine .after_mono hruns (.bind ((ih.evalAll es hes hces hpushed).mono (by omega)) ?_)
    rintro vs r₂ t₂ hout ⟨hlen, henv, h₂⟩
    refine follows_ok hout ⟨by rw [List.length_cons, hlen]; rfl, henv.trans h₁.env_eq, ?_⟩
    rw [List.reverse_cons, List.map_append, List.append_assoc]
    exact h₂

end Expressions

/-- Where the code has a procedure, and what it is. -/
structure Placed (code : Code) (procs : Table Procedure) (cost : Nat) (p : Procedure) : Prop where
  named : p.Named
  body : p.body.Compiled procs
  size : p.body.size < cost
  code : ∃ pc k, code.Holds pc (procedureLines k p)

/-- Code that has every procedure of a table. -/
structure Linked (code : Code) (procs : Table Procedure) (cost : Nat) : Prop where
  small : code.instrs.size < 2 ^ 31
  cost_pos : 0 < cost
  placed : ∀ name p, procs.get? name = some p → p.name = name ∧ Placed code procs cost p

section Calls

variable {code : Code} {procs : Table Procedure} {cost n : Nat} {ret : Int32}
  {nss : List (List Text)} {words : List Int32} {parked rest : List (Option Int32)} {pc : Nat}
  {r : RunState} {s : State}

theorem ra_mem_exitNames (p : Procedure) : Text.ofString "$ra" ∈ exitNames p := by
  refine List.mem_append_right _ ?_
  rw [entryNames, bindName]
  by_cases h : Text.ofString "$ra" ∈ bindName (paramNames p) p.name
  · rw [if_pos h]
    exact h
  · rw [if_neg h]
    exact List.mem_cons_self

/-- The code of a procedure, from its first instruction to its return. -/
theorem Simulates.procedure (ih : Simulates code procs cost n) {p : Procedure} {k : Nat}
    (hn : p.Named) (hbody : p.body.Compiled procs) (hcode : code.Holds pc (procedureLines k p))
    {args : List Int32} (hlen : args.length = p.params.length) (hpc : s.pc = pc)
    (hra : s.regs Reg.ra = ret) (hstack : s.stack = args.reverse.map some ++ rest)
    (hout : s.out = r.sink.written) (hroom : r.sink.room = none) :
    Follows code cost (n - p.body.size) s
      (fun v r' t => t.pc = ret.toInt ∧ t.stack = rest ∧ t.regs Reg.v0 = v ∧ r'.env = r.env ∧
        r'.sink.room = none)
      (Lexical.inFrame (Run.callScope p args) p.name (Lexical.exec procs n p.body) r) := by
  have hname := ne_ra_of_isIdentifier hn.name
  rw [procedureLines] at hcode
  simp only [Code.holds_append, codeSize_append, ← Nat.add_assoc] at hcode
  obtain ⟨⟨⟨⟨⟨⟨⟨-, hli, -⟩, hown⟩, hret⟩, hcbody⟩, hreads⟩, hfree⟩, hjr⟩ := hcode
  obtain ⟨hvalue, hload⟩ := Code.holds_append (a := [_]) (b := [_]).mp hreads
  rw [codeSize_retrieve] at hload
  have hsize : codeSize [retrieveLine (exitNames p) 0 "$v0" p.name,
      retrieveLine (exitNames p) 0 "$ra" "$ra"] = 2 := by
    rw [← List.singleton_append, codeSize_append, codeSize_retrieve, codeSize_retrieve]
  rw [hsize] at hfree hjr
  obtain ⟨j, t, hruns, htpc, htstack, htout⟩ :=
    runs_entry hn hlen ⟨hli, trivial⟩ hown hret hpc hra hstack
  have hsite : Site ret [entryNames p] (entryWords ret p args) [] rest _
      { r with env := [Run.callScope p args] } t :=
    ⟨htpc, htstack, frame_entry hlen hname hn.ra_not_mem_params, htout.trans hout, hroom⟩
  have hexec := ih.exec k p.body hbody (by simpa using hcbody) hsite
  refine .after_mono hruns (hexec.inFrame.extend ?_)
  rintro v r' t' ⟨env, ⟨words, hdone⟩, rfl, henv⟩ ht'
  rw [List.flatten_nil, List.append_nil] at hdone
  have hframe : Frame ret [exitNames p] env words := hdone.frame
  obtain ⟨i, u, hu, hupc, hustack, huout, huv0⟩ := runs_exit hname (ra_mem_exitNames p) hvalue hload
    hfree hjr hframe hdone.pc_eq hdone.stack_eq
  exact ⟨i, u, hu, huout.trans ht', hupc, hustack, huv0, henv, hdone.room⟩

theorem lt_size_of_instr? {i : Instr Int} (h : code.instr? pc = some i) : pc < code.instrs.size := by
  obtain ⟨l, hl, -⟩ := Option.map_eq_some_iff.mp h
  rw [Code.fetch_natCast] at hl
  exact (Array.getElem?_eq_some_iff.mp hl).1

theorem toInt_returnAddress (hsmall : code.instrs.size < 2 ^ 31) (hpc : pc < code.instrs.size) :
    (Int32.ofInt (pc + 1)).toInt = (pc + 1 : Nat) :=
  Int32.toInt_ofInt_of_le (by omega) (by omega)

theorem runs_jal {target : Nat} (h : code.instr? pc = some (.jal target)) (hpc : s.pc = pc) :
    ∃ t, Runs code 1 s t ∧ t.pc = target ∧ t.regs Reg.ra = Int32.ofInt (pc + 1) ∧
      t.stack = s.stack ∧ t.out = s.out := by
  have hi : s.perform? (.jal target) = some (.next { s with
      regs := Function.update s.regs Reg.ra (Int32.ofInt (s.pc + 1)), pc := target }) := by
    rw [State.perform?, State.set?_of_ne (by decide) (by decide)]
    rfl
  rw [hpc] at hi
  exact ⟨_, runs_one hpc h hi, rfl, Function.update_self Reg.ra _ s.regs, rfl, rfl⟩

theorem Simulates.invoke_succ (ih : Simulates code procs cost n) (hlinked : Linked code procs cost)
    (token : Token) (name : Text) (args : List Expr)
    (hcall : (Expr.call token name args).Compiled procs)
    (hcode : code.Holds pc (exprLines nss.flatten parked.length (.call token name args)))
    (hsite : Site ret nss words parked rest pc r s) :
    Follows code cost (n + 1 - (Expr.sizeAll args + 1)) s (Evaluates ret nss words parked rest
      (pc + codeSize (exprLines nss.flatten parked.length (.call token name args))) r.env)
      (Lexical.invoke procs (n + 1) token name args r) := by
  obtain ⟨⟨p, hp, harity⟩, hargs⟩ := hcall.call
  obtain ⟨rfl, hplaced⟩ := hlinked.placed name p hp
  rw [exprLines] at hcode ⊢
  rw [List.cons_append, codeSize_comment, codeSize_append, ← Nat.add_assoc]
  obtain ⟨hcargs, hjal, -⟩ := Code.holds_append.mp hcode
  rw [Lexical.invoke, hp]
  simp only [harity, ne_eq, not_true_eq_false, if_false]
  refine .bind ((ih.evalAll args hargs hcargs hsite).mono (by omega)) ?_
  rintro vs r₁ t₁ hout ⟨hlen, henv, h₁⟩
  obtain ⟨target, htarget, hjal⟩ := hjal.jal
  obtain ⟨start, k, hproc⟩ := hplaced.code
  have hstart : code.labels.get? (procedureLabel p.name) = some start := hproc.1
  obtain rfl : target = start := Option.some.inj (htarget.symm.trans hstart)
  obtain ⟨t, hruns, htpc, htra, htstack, htout⟩ := runs_jal hjal h₁.pc_eq
  have hstack : t.stack = vs.reverse.map some ++ (parked ++ (words.map some ++ rest)) := by
    rw [htstack, h₁.stack_eq, List.append_assoc]
  have hbody := ih.procedure hplaced.named hplaced.body hproc (hlen.trans harity.symm) htpc htra
    hstack (htout.trans hout) h₁.room
  have hsize := hplaced.size
  refine .after hruns ((hbody.mono (by omega)).extend ?_)
  rintro v r₂ t₂ ⟨hpc, hstack, hv, henv₂, hroom⟩ ht₂
  have hreturn := toInt_returnAddress hlinked.small (lt_size_of_instr? hjal)
  refine ⟨0, t₂, .refl t₂, ht₂, ⟨hpc.trans hreturn, hstack, ?_, ht₂, hroom⟩, henv₂.trans henv, hv⟩
  rw [henv₂]
  exact h₁.frame

end Calls

section Statements

variable {code : Code} {procs : Table Procedure} {cost n : Nat} {ret : Int32} {names : List Text}
  {outer nss : List (List Text)} {words : List Int32} {rest : List (Option Int32)}
  {pc target : Nat} {r : RunState} {s : State} {label : Text}

theorem Site.jump (h : Site ret nss words [] rest pc r s) (hcode : code.Has pc "j" [label])
    (hlabel : code.labels.get? label = some target) :
    ∃ t, Runs code 1 s t ∧ Site ret nss words [] rest target r t := by
  obtain ⟨place, hplace, hjump⟩ := hcode.jump
  obtain rfl : place = target := Option.some.inj (hplace.symm.trans hlabel)
  exact ⟨_, runs_one h.pc_eq hjump rfl, h.moved rfl rfl rfl⟩

/-- A condition that is false skips to the label. -/
theorem Evaluates.branch {env : Env} {v : Int32} (h : Evaluates ret nss words [] rest pc env v r s)
    (hcode : code.Has pc "beqz" ["$v0", label]) (hlabel : code.labels.get? label = some target) :
    ∃ t, Runs code 1 s t ∧
      Site ret nss words [] rest (if Word.isTrue v then pc + 1 else target) r t := by
  obtain ⟨place, hplace, hbeqz⟩ := hcode.beqz
  obtain rfl : place = target := Option.some.inj (hplace.symm.trans hlabel)
  have hi : s.perform? (.beqz Reg.v0 place) =
      some (.next (if v = 0 then s.goto place else s.next)) := by
    rw [State.perform?, State.get?_of_ne (by decide) (by decide), h.value]
    rfl
  refine ⟨_, runs_one h.site.pc_eq hbeqz hi, ?_⟩
  by_cases hv : v = 0
  · have hfalse : ¬ Word.isTrue v = true := by simpa [Word.isTrue] using hv
    rw [if_pos hv, if_neg hfalse]
    exact h.site.moved rfl rfl rfl
  · have htrue : Word.isTrue v = true := by simpa [Word.isTrue] using hv
    rw [if_neg hv, if_pos htrue]
    exact h.site.moved (by show s.pc + 1 = _; rw [h.site.pc_eq]; rfl) rfl rfl

/-- A statement in a scope of its own, whose words are freed at its end. -/
theorem Simulates.scope (ih : Simulates code procs cost n) {k : Nat} {body : Stmt}
    (hbody : body.Compiled procs)
    (hcode : code.Holds pc (scopeLines (names ++ outer.flatten) k body))
    (hsite : Site ret (names :: outer) words [] rest pc r s) :
    Follows code cost (n - body.size) s
      (fun _ => Finishes ret (names :: outer) rest
        (pc + codeSize (scopeLines (names ++ outer.flatten) k body)))
      (Lexical.inScope (Lexical.exec procs n body) r) := by
  obtain ⟨hcbody, hfree⟩ := Code.holds_append.mp hcode
  have hinner : Site ret ([] :: names :: outer) words [] rest pc
      { r with env := r.env.push {} } s :=
    ⟨hsite.pc_eq, hsite.stack_eq, hsite.frame.push, hsite.out_eq, hsite.room⟩
  have hcinner : code.Holds pc (stmtLines ([] ++ (names :: outer).flatten) k body) := hcbody
  refine (ih.exec k body hbody hcinner hinner).inScope.extend ?_
  rintro _ r' t ⟨env, ⟨words', hdone⟩, henv⟩ hout
  rw [List.nil_append, List.flatten_cons, List.append_nil] at hdone
  have hlen := hdone.frame.length
  rw [List.flatten_cons, List.length_append] at hlen
  have hstack : t.stack = words'.map some ++ rest := hdone.stack_eq
  have hruns := runs_free hfree hdone.pc_eq (by rw [hstack, List.length_append, List.length_map]; omega)
  rw [scopeLines, codeSize_append, ← Nat.add_assoc]
  refine ⟨_, _, hruns, hout, _, rfl, ?_, henv ▸ hdone.frame.pop, hout, hdone.room⟩
  show t.stack.drop _ = _
  rw [hstack, List.drop_append_of_le_length (by rw [List.length_map]; omega), List.map_drop]
  rfl

theorem Simulates.scope_jump (ih : Simulates code procs cost n) {k : Nat} {body : Stmt}
    (hbody : body.Compiled procs)
    (hcode : code.Holds pc (scopeLines (names ++ outer.flatten) k body))
    (hj : code.Has (pc + codeSize (scopeLines (names ++ outer.flatten) k body)) "j" [label])
    (hlabel : code.labels.get? label = some target)
    (hsite : Site ret (names :: outer) words [] rest pc r s) :
    Follows code cost (n - body.size) s (fun _ => Finishes ret (names :: outer) rest target)
      (Lexical.inScope (Lexical.exec procs n body) r) := by
  refine (ih.scope hbody hcode hsite).extend ?_
  rintro _ r' t ⟨words', hdone⟩ -
  obtain ⟨u, hruns, hu⟩ := hdone.jump hj hlabel
  exact ⟨1, u, hruns, hu.out_eq, words', hu⟩

/-- A sink with room for everything takes a line. -/
theorem writeLine_ok (v : Int32) (hroom : r.sink.room = none) :
    ∃ sink : Sink, Run.writeLine v r = .ok () { r with sink } ∧ sink.room = none ∧
      sink.written = r.sink.written ++ Text.bytes (Numeral.ofWord v ++ Text.ofString "\n") := by
  obtain ⟨sink, hwrite, hsink⟩ : ∃ sink : Sink,
      r.sink.write (Text.bytes (Numeral.ofWord v ++ Text.ofString "\n")) = .ok sink ∧
        sink.room = none := by
    rw [Sink.write, hroom]
    exact ⟨_, rfl, rfl⟩
  refine ⟨sink, ?_, hsink, Sink.written_write hwrite⟩
  unfold Run.writeLine
  simp only [bind, EStateM.bind, get, getThe, MonadStateOf.get, EStateM.get, hwrite]
  rfl

theorem Simulates.assign (ih : Simulates code procs cost n) {value : Expr} {x : Text}
    (hvalue : value.Compiled procs) (hx : x.isIdentifier = true)
    (hcode : code.Holds pc (exprLines (names ++ outer.flatten) 0 value ++
      storeLines (names ++ outer.flatten) "$v0" x))
    (hsite : Site ret (names :: outer) words [] rest pc r s) :
    Follows code cost (n - value.size) s
      (fun _ => Finishes ret
        (((if x ∈ names ++ outer.flatten then [] else [x]) ++ names) :: outer) rest
        (pc + codeSize (exprLines (names ++ outer.flatten) 0 value ++
          storeLines (names ++ outer.flatten) "$v0" x)))
      ((Lexical.eval procs n value >>= Run.assign x) r) := by
  obtain ⟨hcvalue, hstore⟩ := Code.holds_append.mp hcode
  refine .bind (ih.eval value hvalue hcvalue hsite) fun v r₁ t₁ hout h₁ => ?_
  have hstack : t₁.stack = words.map some ++ rest := h₁.site.stack_eq
  have hruns := runs_store regName_v0 hstore h₁.site.pc_eq hstack h₁.site.frame.length
  rw [codeSize_append, ← Nat.add_assoc]
  refine .after_mono hruns (follows_ok hout ⟨_, rfl, rfl, ?_, hout, h₁.site.room⟩)
  rw [h₁.value]
  exact h₁.site.frame.store (ne_ra_of_isIdentifier hx)

theorem Simulates.writeLn (ih : Simulates code procs cost n) {value : Expr}
    (hvalue : value.Compiled procs)
    (hcode : code.Holds pc (exprLines (names ++ outer.flatten) 0 value ++ printLines))
    (hsite : Site ret (names :: outer) words [] rest pc r s) :
    Follows code cost (n - value.size) s
      (fun _ => Finishes ret (names :: outer) rest
        (pc + codeSize (exprLines (names ++ outer.flatten) 0 value ++ printLines)))
      ((Lexical.eval procs n value >>= Run.writeLine) r) := by
  obtain ⟨hcvalue, hprint⟩ := Code.holds_append.mp hcode
  refine .bind (ih.eval value hvalue hcvalue hsite) fun v r₁ t₁ hout h₁ => ?_
  obtain ⟨sink, hwrite, hroom, hwritten⟩ := writeLine_ok v h₁.site.room
  obtain ⟨t, hruns, htpc, htstack, htout⟩ := runs_print hprint h₁.site.pc_eq
  rw [h₁.value, hout, ← hwritten] at htout
  rw [hwrite, codeSize_append, ← Nat.add_assoc]
  exact .after_mono hruns (follows_ok htout
    ⟨words, htpc, htstack.trans h₁.site.stack_eq, h₁.site.frame, htout, hroom⟩)

/-- A condition and the branch behind it, from whose end the code jumps over the `otherwise` part. -/
theorem Simulates.branches (ih : Simulates code procs cost n) {k m place : Nat} {no : Text}
    {cond : Expr} {body : Stmt} {otherwise : Run Unit} (hcond : cond.Compiled procs)
    (hbody : body.Compiled procs) (hm : m ≤ n - (cond.size + body.size))
    (hccond : code.Holds pc (exprLines (names ++ outer.flatten) 0 cond))
    (hbeqz : code.Has (pc + codeSize (exprLines (names ++ outer.flatten) 0 cond)) "beqz" ["$v0", no])
    (hno : code.labels.get? no = some place)
    (hscope : code.Holds (pc + codeSize (exprLines (names ++ outer.flatten) 0 cond) + 1)
      (scopeLines (names ++ outer.flatten) k body))
    (hj : code.Has (pc + codeSize (exprLines (names ++ outer.flatten) 0 cond) + 1 +
      codeSize (scopeLines (names ++ outer.flatten) k body)) "j" [label])
    (hlabel : code.labels.get? label = some target)
    (hotherwise : ∀ r t, Site ret (names :: outer) words [] rest place r t →
      Follows code cost m t (fun _ => Finishes ret (names :: outer) rest target) (otherwise r))
    (hsite : Site ret (names :: outer) words [] rest pc r s) :
    Follows code cost m s (fun _ => Finishes ret (names :: outer) rest target)
      ((do
        let c ← Lexical.eval procs n cond
        if Word.isTrue c then Lexical.inScope (Lexical.exec procs n body) else otherwise : Run Unit)
        r) := by
  refine .bind ((ih.eval cond hcond hccond hsite).mono (by omega)) fun c r₁ t₁ hout h₁ => ?_
  obtain ⟨t, hruns, ht⟩ := h₁.branch hbeqz hno
  refine .after_mono hruns ?_
  by_cases hc : Word.isTrue c = true
  · rw [if_pos hc] at ht ⊢
    exact (ih.scope_jump hbody hscope hj hlabel ht).mono (by omega)
  · rw [if_neg hc] at ht ⊢
    exact hotherwise r₁ t ht

theorem Simulates.ifThen (ih : Simulates code procs cost n) {k : Nat} {token : Token} {cond : Expr}
    {body : Stmt} (hcond : cond.Compiled procs) (hbody : body.Compiled procs)
    (hcode : code.Holds pc (stmtLines (names ++ outer.flatten) k (.ifThen token cond body)))
    (hsite : Site ret (names :: outer) words [] rest pc r s) :
    Follows code cost (n - (cond.size + body.size)) s
      (fun _ => Finishes ret (names :: outer) rest
        (pc + codeSize (stmtLines (names ++ outer.flatten) k (.ifThen token cond body))))
      ((do
        let c ← Lexical.eval procs n cond
        if Word.isTrue c then Lexical.inScope (Lexical.exec procs n body) else return : Run Unit)
        r) := by
  rw [stmtLines] at hcode ⊢
  simp only [Code.holds_append, codeSize_append, ← Nat.add_assoc] at hcode ⊢
  obtain ⟨⟨⟨hccond, hbeqz, -⟩, hcbody, hfree⟩, hj, hfalse, hend, -⟩ := hcode
  have hscope := Code.holds_append.mpr ⟨hcbody, hfree⟩
  rw [Nat.add_assoc _ (codeSize (stmtLines _ _ _)), ← codeSize_append] at hj
  refine ih.branches hcond hbody le_rfl hccond hbeqz hfalse hscope hj hend (fun r₁ t ht => ?_) hsite
  exact follows_ok ht.out_eq ⟨words, ht⟩

theorem Simulates.ifElse (ih : Simulates code procs cost n) {k : Nat} {token : Token} {cond : Expr}
    {body alternative : Stmt} (hcond : cond.Compiled procs) (hbody : body.Compiled procs)
    (halternative : alternative.Compiled procs)
    (hcode : code.Holds pc
      (stmtLines (names ++ outer.flatten) k (.ifElse token cond body alternative)))
    (hsite : Site ret (names :: outer) words [] rest pc r s) :
    Follows code cost (n - (cond.size + body.size + alternative.size)) s
      (fun _ => Finishes ret (names :: outer) rest
        (pc + codeSize (stmtLines (names ++ outer.flatten) k (.ifElse token cond body alternative))))
      ((do
        let c ← Lexical.eval procs n cond
        if Word.isTrue c then Lexical.inScope (Lexical.exec procs n body)
        else Lexical.inScope (Lexical.exec procs n alternative) : Run Unit) r) := by
  rw [stmtLines] at hcode ⊢
  simp only [Code.holds_append, codeSize_append, ← Nat.add_assoc] at hcode ⊢
  obtain ⟨⟨⟨⟨⟨hccond, hbeqz, -⟩, hcbody, hfree⟩, hj, hfalse, -⟩, hcalt, hfree'⟩, hend, -⟩ := hcode
  have hscope := Code.holds_append.mpr ⟨hcbody, hfree⟩
  rw [Nat.add_assoc _ (codeSize (stmtLines _ _ _)), ← codeSize_append] at hj
  refine ih.branches hcond hbody (by omega) hccond hbeqz hfalse hscope hj hend (fun r₁ t ht => ?_) hsite
  have hexec := ih.scope halternative (Code.holds_append.mpr ⟨hcalt, hfree'⟩) ht
  rw [scopeLines, codeSize_append, ← Nat.add_assoc] at hexec
  exact hexec.mono (by omega)

theorem Simulates.repeatWhile_succ (ih : Simulates code procs cost n) (hcost : 0 < cost) (k : Nat)
    (token : Token) (cond : Expr) (body : Stmt) (hloop : (Stmt.loop token cond body).Compiled procs)
    (hcode : code.Holds pc (stmtLines (names ++ outer.flatten) k (.loop token cond body)))
    (hsite : Site ret (names :: outer) words [] rest pc r s) :
    Follows code cost (n + 1 - (cond.size + body.size + 1)) s
      (fun _ => Finishes ret (names :: outer) rest
        (pc + codeSize (stmtLines (names ++ outer.flatten) k (.loop token cond body))))
      (Lexical.repeatWhile procs (n + 1) cond body r) := by
  obtain ⟨hcond, hbody⟩ := hloop.loop
  have hwhole := hcode
  rw [stmtLines] at hcode
  simp only [Code.holds_append, codeSize_append, codeSize_marked, codeSize_nil, Nat.add_zero,
    ← Nat.add_assoc] at hcode
  obtain ⟨⟨⟨⟨⟨hstart, -⟩, hccond⟩, hbeqz, -⟩, hcbody, hfree⟩, hj, hend, -⟩ := hcode
  have hsize : pc + codeSize (stmtLines (names ++ outer.flatten) k (.loop token cond body)) =
      pc + codeSize (exprLines (names ++ outer.flatten) 0 cond) + 1 +
        codeSize (stmtLines (names ++ outer.flatten) (k + 2) body) +
        codeSize (freeLines (body.made (names ++ outer.flatten)).length) + 1 := by
    rw [stmtLines]
    simp only [codeSize_append, codeSize_marked, codeSize_nil, codeSize_instr]
    omega
  rw [Lexical.repeatWhile]
  refine .bind ((ih.eval cond hcond hccond hsite).mono (by omega)) fun c r₁ t₁ hout h₁ => ?_
  obtain ⟨t, hruns, ht⟩ := h₁.branch hbeqz hend
  refine .after_mono hruns ?_
  have hscope := Code.holds_append.mpr ⟨hcbody, hfree⟩
  rw [Nat.add_assoc _ (codeSize (stmtLines _ _ _)), ← codeSize_append] at hj hend
  by_cases hc : Word.isTrue c = true
  · rw [if_pos hc] at ht ⊢
    refine .bind ((ih.scope hbody hscope ht).mono (by omega)) ?_
    rintro _ r₂ t₂ - ⟨words', h₂⟩
    obtain ⟨u, hback, hu⟩ := h₂.jump hj hstart
    have hagain := ih.repeatWhile k token cond body hloop hwhole hu
    exact .after hback (hagain.mono (by omega))
  · rw [if_neg hc] at ht ⊢
    rw [hsize]
    exact follows_ok ht.out_eq ⟨words, ht⟩

theorem Simulates.execAll_succ (ih : Simulates code procs cost n) (k : Nat) (ss : List Stmt)
    (hss : Stmt.CompiledAll procs ss)
    (hcode : code.Holds pc (stmtsLines (names ++ outer.flatten) k ss))
    (hsite : Site ret (names :: outer) words [] rest pc r s) :
    Follows code cost (n + 1 - Stmt.sizeAll ss) s
      (fun _ => Finishes ret ((Stmt.madeAll (names ++ outer.flatten) ss ++ names) :: outer) rest
        (pc + codeSize (stmtsLines (names ++ outer.flatten) k ss)))
      (Lexical.execAll procs (n + 1) ss r) := by
  cases ss with
  | nil =>
    rw [Lexical.execAll]
    exact follows_ok hsite.out_eq ⟨words, hsite⟩
  | cons st ss =>
    obtain ⟨hst, hss⟩ := hss.cons
    rw [stmtsLines] at hcode ⊢
    obtain ⟨hcst, hcss⟩ := Code.holds_append.mp hcode
    rw [codeSize_append, ← Nat.add_assoc, Lexical.execAll, Stmt.sizeAll, Stmt.madeAll]
    refine .bind ((ih.exec k st hst hcst hsite).mono (by omega)) ?_
    rintro _ r₁ t₁ - ⟨words', h₁⟩
    rw [← List.append_assoc] at hcss ⊢
    rw [List.append_assoc _ (st.made _) names]
    exact (ih.execAll _ ss hss hcss h₁).mono (by omega)

theorem Simulates.exec_succ (ih : Simulates code procs cost n) (k : Nat) (st : Stmt)
    (hst : st.Compiled procs) (hcode : code.Holds pc (stmtLines (names ++ outer.flatten) k st))
    (hsite : Site ret (names :: outer) words [] rest pc r s) :
    Follows code cost (n + 1 - st.size) s
      (fun _ => Finishes ret ((st.made (names ++ outer.flatten) ++ names) :: outer) rest
        (pc + codeSize (stmtLines (names ++ outer.flatten) k st)))
      (Lexical.exec procs (n + 1) st r) := by
  cases st with
  | assign token target value =>
    obtain ⟨htarget, hvalue⟩ := hst.assign
    rw [stmtLines] at hcode ⊢
    rw [Lexical.exec, Stmt.size, Stmt.made]
    exact (ih.assign hvalue htarget hcode hsite).mono (by omega)
  | block token body =>
    rw [stmtLines] at hcode ⊢
    rw [Lexical.exec, Stmt.size, Stmt.made]
    exact (ih.execAll k body ⟨hst.supported, hst.named, hst.declared⟩ hcode hsite).mono (by omega)
  | ifThen token cond body =>
    obtain ⟨hcond, hbody⟩ := hst.ifThen
    rw [Lexical.exec, Stmt.size]
    exact (ih.ifThen hcond hbody hcode hsite).mono (by omega)
  | ifElse token cond body alternative =>
    obtain ⟨hcond, hbody, halternative⟩ := hst.ifElse
    rw [Lexical.exec, Stmt.size]
    exact (ih.ifElse hcond hbody halternative hcode hsite).mono (by omega)
  | loop token cond body =>
    rw [Lexical.exec, Stmt.size]
    exact (ih.repeatWhile k token cond body hst hcode hsite).mono (by omega)
  | writeLn token value =>
    rw [stmtLines] at hcode ⊢
    rw [Lexical.exec, Stmt.size]
    exact (ih.writeLn hst.writeLn hcode hsite).mono (by omega)
  | call token name args =>
    rw [stmtLines] at hcode ⊢
    rw [Lexical.exec, Stmt.size]
    have hcall : (Expr.call token name args).Compiled procs :=
      ⟨hst.supported, hst.named, hst.declared⟩
    refine .bind ((ih.invoke token name args hcall hcode hsite).mono (by omega)) ?_
    intro v r₁ t₁ hout h₁
    exact follows_ok hout ⟨words, h₁.site⟩
  | declare token name params body =>
    rw [Lexical.exec]
    exact follows_ok hsite.out_eq ⟨words, hsite⟩
  | readLn token target => exact absurd hst.supported (by rw [Stmt.Supported]; exact not_false)
  | missing => exact absurd hst.supported (by rw [Stmt.Supported]; exact not_false)

end Statements

/-- The code of linked procedures is right for any fuel. -/
theorem simulates {code : Code} {procs : Table Procedure} {cost : Nat}
    (hlinked : Linked code procs cost) (n : Nat) : Simulates code procs cost n := by
  induction n with
  | zero =>
    constructor <;> intros <;> rename_i hsite
    · rw [Lexical.eval]
      exact follows_outOfFuel hsite.out_eq (Nat.zero_sub _)
    · rw [Lexical.evalAll]
      exact follows_outOfFuel hsite.out_eq (Nat.zero_sub _)
    · rw [Lexical.invoke]
      exact follows_outOfFuel hsite.out_eq (Nat.zero_sub _)
    · rw [Lexical.exec]
      exact follows_outOfFuel hsite.out_eq (Nat.zero_sub _)
    · rw [Lexical.execAll]
      exact follows_outOfFuel hsite.out_eq (Nat.zero_sub _)
    · rw [Lexical.repeatWhile]
      exact follows_outOfFuel hsite.out_eq (Nat.zero_sub _)
  | succ n ih =>
    exact ⟨ih.eval_succ, ih.evalAll_succ, ih.invoke_succ hlinked, ih.exec_succ, ih.execAll_succ,
      ih.repeatWhile_succ hlinked.cost_pos⟩

end StackMachine

end MiniPascal
