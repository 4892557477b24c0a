import MiniPascal.Proofs.Linking
import MiniPascal.Proofs.Tasks

/-! What the generator finds out about calls holds of the interpreter. If the procedures of a program are
declared at the top level and the generator has code for it and knows every procedure that is called, then
the interpreter finds that procedure at every call, with as many parameters as the call has arguments. -/

namespace MiniPascal

/-- Procedures are declared at the top level only. -/
structure Program.Flat (p : Program) : Prop where
  procedures : ∀ d ∈ p.procedures, d.procedure.body.declarations = []
  main : ∀ st, p.main = some st → st.declarations = []

theorem Program.Flat.declarations_eq {p : Program} (h : p.Flat) : p.declarations = p.procedures := by
  rw [Program.declarations, Stmt.declarationsAll_toStmt h.procedures]
  cases hmain : p.main with
  | none => exact List.append_nil _
  | some st => exact (congrArg (p.procedures ++ ·) (h.main st hmain)).trans (List.append_nil _)

/-- A call goes wrong: there is no such procedure, or it takes another number of arguments. -/
def RunCause.blamesCall : RunCause → Bool
  | .undefinedProcedure _ => true
  | .arity .. => true
  | _ => false

namespace Env

theorem getProc?_eq_findSome? (env : Env) (name : Text) :
    env.getProc? name = (env.map Scope.procs).findSome? (·.get? name) := by
  induction env with
  | nil => rfl
  | cons scope outer ih =>
    rw [getProc?, List.map_cons, List.findSome?_cons, ih]
    cases scope.procs.get? name <;> rfl

/-- Only the outermost scope binds procedures, those of `procs`. -/
def Holds (procs : Table Procedure) (k : Nat) (env : Env) : Prop :=
  env.map Scope.procs = List.replicate k [] ++ [procs]

variable {procs : Table Procedure} {k : Nat} {env : Env}

theorem Holds.getProc? (h : env.Holds procs k) (name : Text) :
    env.getProc? name = procs.get? name := by
  have hempty : (List.replicate k []).findSome? (fun t : Table Procedure => t.get? name) = none := by
    rw [List.findSome?_eq_none_iff]
    intro t ht
    rw [List.eq_of_mem_replicate ht]
    rfl
  rw [getProc?_eq_findSome?, h, List.findSome?_append, hempty, Option.none_or,
    List.findSome?_singleton]

theorem Holds.set (h : env.Holds procs k) (x : Text) (v : Int32) : (env.set x v).Holds procs k := by
  have hne : env ≠ [] := by
    intro hnil
    rw [Holds, hnil] at h
    simp at h
  rw [Holds, procs_set hne]
  exact h

theorem Holds.push (h : env.Holds procs k) (q : Procedure) (values : List Int32) :
    (env.push (Run.callScope q values)).Holds procs (k + 1) := by
  rw [Holds, Env.push, List.map_cons, h, List.replicate_succ]
  rfl

theorem Holds.pop (h : env.Holds procs (k + 1)) : env.pop.Holds procs k := by
  have htail := congrArg List.tail h
  rw [Holds, Env.pop, List.map_tail, htail, List.replicate_succ]
  rfl

end Env

theorem Expr.SupportedAll.mem {procs : Table Procedure} {es : List Expr}
    (h : Expr.SupportedAll procs es) : ∀ e ∈ es, e.Supported procs := by
  induction es with
  | nil => simp
  | cons e es ih => exact List.forall_mem_cons.mpr ⟨h.1, ih h.2⟩

theorem Stmt.SupportedAll.mem {procs : Table Procedure} {sts : List Stmt}
    (h : Stmt.SupportedAll procs sts) : ∀ st ∈ sts, st.Supported procs := by
  induction sts with
  | nil => simp
  | cons st sts ih => exact List.forall_mem_cons.mpr ⟨h.1, ih h.2⟩

theorem Expr.callsAll_eq_flatMap (es : List Expr) : Expr.callsAll es = es.flatMap Expr.calls := by
  induction es with
  | nil => rfl
  | cons e es ih => rw [Expr.callsAll, ih, List.flatMap_cons]

theorem Stmt.callsAll_eq_flatMap (sts : List Stmt) :
    Stmt.callsAll sts = sts.flatMap Stmt.calls := by
  induction sts with
  | nil => rfl
  | cons st sts ih => rw [Stmt.callsAll, ih, List.flatMap_cons]

theorem Stmt.declarationsAll_eq_flatMap (sts : List Stmt) :
    Stmt.declarationsAll sts = sts.flatMap Stmt.declarations := by
  induction sts with
  | nil => rfl
  | cons st sts ih => rw [Stmt.declarationsAll, ih, List.flatMap_cons]

/-- An expression of a program whose calls the generator has checked. -/
def Expr.Checked (procs : Table Procedure) (e : Expr) : Prop :=
  e.Supported procs ∧ ∀ f ∈ e.calls, procs.contains f = true

/-- A statement without declarations whose calls the generator has checked. -/
def Stmt.Checked (procs : Table Procedure) (st : Stmt) : Prop :=
  st.Supported procs ∧ (∀ f ∈ st.calls, procs.contains f = true) ∧ st.declarations = []

theorem Expr.Checked.binary {procs : Table Procedure} {token : Token} {op : Operator}
    {left right : Expr} (h : (Expr.binary token op left right).Checked procs) :
    left.Checked procs ∧ right.Checked procs := by
  obtain ⟨⟨-, -, -, hleft, hright⟩, hcalls⟩ := h
  simp only [Expr.calls, List.mem_append] at hcalls
  exact ⟨⟨hleft, fun f hf => hcalls f (.inl hf)⟩, hright, fun f hf => hcalls f (.inr hf)⟩

theorem Expr.Checked.args {procs : Table Procedure} {token : Token} {name : Text}
    {args : List Expr} (h : (Expr.call token name args).Checked procs) :
    ∀ e ∈ args, e.Checked procs := by
  intro e he
  obtain ⟨⟨-, hargs⟩, hcalls⟩ := h
  refine ⟨hargs.mem e he, fun f hf => hcalls f (List.mem_cons_of_mem _ ?_)⟩
  rw [Expr.callsAll_eq_flatMap]
  exact List.mem_flatMap.mpr ⟨e, he, hf⟩

/-- The procedure of a checked call is declared, with as many parameters as there are arguments. -/
theorem Expr.Checked.exists_procedure {procs : Table Procedure} {token : Token} {name : Text}
    {args : List Expr} (h : (Expr.call token name args).Checked procs) :
    ∃ q, procs.get? name = some q ∧ args.length = q.params.length := by
  obtain ⟨⟨harity, -⟩, hcalls⟩ := h
  obtain ⟨q, hq⟩ := Option.isSome_iff_exists.mp (hcalls name List.mem_cons_self)
  exact ⟨q, hq, (harity q hq).symm⟩

theorem Stmt.Checked.block {procs : Table Procedure} {token : Token} {body : List Stmt}
    (h : (Stmt.block token body).Checked procs) : ∀ st ∈ body, st.Checked procs := by
  intro st hst
  obtain ⟨hsupported, hcalls, hflat⟩ := h
  simp only [Stmt.calls, Stmt.callsAll_eq_flatMap, List.mem_flatMap] at hcalls
  rw [Stmt.declarations, Stmt.declarationsAll_eq_flatMap, List.flatMap_eq_nil_iff] at hflat
  exact ⟨hsupported.mem st hst, fun f hf => hcalls f ⟨st, hst, hf⟩, hflat st hst⟩

theorem Stmt.Checked.branch {procs : Table Procedure} {cond : Expr} {body : Stmt}
    (hsupported : cond.Supported procs ∧ body.Supported procs)
    (hcalls : ∀ f ∈ cond.calls ++ body.calls, procs.contains f = true)
    (hflat : body.declarations = []) : cond.Checked procs ∧ body.Checked procs := by
  simp only [List.mem_append] at hcalls
  exact ⟨⟨hsupported.1, fun f hf => hcalls f (.inl hf)⟩,
    hsupported.2, fun f hf => hcalls f (.inr hf), hflat⟩

theorem Stmt.Checked.ifElse {procs : Table Procedure} {token : Token} {cond : Expr}
    {body alternative : Stmt} (h : (Stmt.ifElse token cond body alternative).Checked procs) :
    cond.Checked procs ∧ body.Checked procs ∧ alternative.Checked procs := by
  obtain ⟨⟨hcond, hbody, halternative⟩, hcalls, hflat⟩ := h
  simp only [Stmt.calls, List.mem_append] at hcalls
  simp only [Stmt.declarations, List.append_eq_nil_iff] at hflat
  exact ⟨⟨hcond, fun f hf => hcalls f (.inl (.inl hf))⟩,
    ⟨hbody, fun f hf => hcalls f (.inl (.inr hf)), hflat.1⟩,
    halternative, fun f hf => hcalls f (.inr hf), hflat.2⟩

/-- Checked parts find the procedures that they call. -/
def Guard.calls (procs : Table Procedure)
    (hbodies : ∀ name q, procs.get? name = some q → q.body.Checked procs) : Guard where
  expr := Expr.Checked procs
  stmt := Stmt.Checked procs
  env k env := env.Holds procs k
  fault cause _ := cause.blamesCall = false
  binary := Expr.Checked.binary
  args := Expr.Checked.args
  assign h := ⟨h.1.1, h.2.1⟩
  block := Stmt.Checked.block
  ifThen h := Stmt.Checked.branch h.1 h.2.1 h.2.2
  ifElse := Stmt.Checked.ifElse
  loop h := Stmt.Checked.branch h.1 h.2.1 h.2.2
  writeLn h := ⟨h.1.1, h.2.1⟩
  call h := ⟨h.1, h.2.1⟩
  body _ henv hq := hbodies _ _ (henv.getProc? _ ▸ hq)
  set x v henv := henv.set x v
  push q values henv := henv.push q values
  pop henv := henv.pop
  declare h _ := absurd h.2.2 (List.cons_ne_nil _ _)
  step _ _ := rfl
  operator _ _ _ := rfl
  undefined h henv hnone := by
    obtain ⟨q, hq, -⟩ := h.exists_procedure
    rw [henv.getProc?, hq] at hnone
    cases hnone
  arity h henv hq hne := by
    obtain ⟨q', hq', hargs⟩ := h.exists_procedure
    rw [henv.getProc?, hq', Option.some.injEq] at hq
    exact absurd (hq ▸ hargs) hne
  depth _ _ _ := rfl
  noInput _ := rfl
  input _ _ := rfl
  noStmt _ := rfl
  noExpr _ := rfl

/-- Declarations call nothing. -/
def Guard.declares : Guard where
  expr _ := False
  stmt st := ∃ d : Declaration, st = d.toStmt
  env _ _ := True
  fault cause _ := cause.blamesCall = false
  binary h := h.elim
  args h := h.elim
  assign h := by obtain ⟨d, hd⟩ := h; cases hd
  block h := by obtain ⟨d, hd⟩ := h; cases hd
  ifThen h := by obtain ⟨d, hd⟩ := h; cases hd
  ifElse h := by obtain ⟨d, hd⟩ := h; cases hd
  loop h := by obtain ⟨d, hd⟩ := h; cases hd
  writeLn h := by obtain ⟨d, hd⟩ := h; cases hd
  call h := by obtain ⟨d, hd⟩ := h; cases hd
  body h := h.elim
  set _ _ _ := trivial
  push _ _ _ := trivial
  pop _ := trivial
  declare _ _ := trivial
  step _ _ := rfl
  operator _ h := h.elim
  undefined h := h.elim
  arity h := h.elim
  depth _ _ h := h.elim
  noInput _ := rfl
  input _ _ := rfl
  noStmt _ := rfl
  noExpr _ := rfl

namespace Run

variable {limits : Limits} {n : Nat}

theorem exists_of_bind_eq_ok {α β : Type} {x : Run α} {f : α → Run β} {s t : RunState} {b : β}
    (h : (x >>= f) s = .ok b t) : ∃ a u, x s = .ok a u ∧ f a u = .ok b t := by
  change EStateM.bind x f s = .ok b t at h
  unfold EStateM.bind at h
  cases hx : x s with
  | ok a u =>
    rw [hx] at h
    exact ⟨a, u, rfl, h⟩
  | error e u =>
    rw [hx] at h
    cases h

theorem cases_of_bind_eq_error {α β : Type} {x : Run α} {f : α → Run β} {s t : RunState}
    {e : RunError} (h : (x >>= f) s = .error e t) :
    x s = .error e t ∨ ∃ a u, x s = .ok a u ∧ f a u = .error e t := by
  change EStateM.bind x f s = .error e t at h
  unfold EStateM.bind at h
  cases hx : x s with
  | ok a u =>
    rw [hx] at h
    exact .inr ⟨a, u, rfl, h⟩
  | error e' u =>
    rw [hx] at h
    cases h
    exact .inl rfl

theorem env_of_declaration {d : Declaration} {s t : RunState}
    (h : Run.exec limits n d.toStmt s = .ok () t) :
    t.env = s.env.setProc d.procedure.name d.procedure := by
  cases n with
  | zero => cases h
  | succ n =>
    obtain ⟨_, u, hstep, hrest⟩ := exists_of_bind_eq_ok h
    rcases step_cases limits d.toStmt.token.pos s with hok | ⟨limit, hstop⟩
    · rw [hok] at hstep
      cases hstep
      cases hrest
      rfl
    · rw [hstop] at hstep
      cases hstep

/-- Declarations bind their names and have no other effect on the environment. -/
theorem env_of_declarations {ds : List Declaration} {t : Table Procedure} {s s' : RunState}
    (hs : s.env = [{ procs := t }])
    (hnodup : (t.names ++ ds.map fun d => d.procedure.name).Nodup)
    (h : Run.execAll limits n (ds.map Declaration.toStmt) s = .ok () s') :
    s'.env = [{ procs := t ++ ds.map fun d => (d.procedure.name, d.procedure) }] := by
  induction ds generalizing n t s with
  | nil =>
    cases n with
    | zero => cases h
    | succ n =>
      cases h
      rw [hs, List.map_nil, List.append_nil]
  | cons d ds ih =>
    cases n with
    | zero => cases h
    | succ n =>
      obtain ⟨_, u, hfirst, hrest⟩ := exists_of_bind_eq_ok h
      rw [List.map_cons, List.append_cons] at hnodup
      have hnew : t.get? d.procedure.name = none :=
        Table.get?_eq_none_iff.mpr fun hmem =>
          List.disjoint_of_nodup_append (List.nodup_append.mp hnodup).1 hmem
            (List.mem_singleton.mpr rfl)
      have henv : u.env = [{ procs := t ++ [(d.procedure.name, d.procedure)] }] := by
        rw [env_of_declaration hfirst, hs, Env.setProc, Table.set_of_get?_eq_none hnew]
      rw [List.map_cons, List.append_cons]
      exact ih henv (by rw [Table.names, List.map_append]; exact hnodup) hrest

end Run

namespace Assembly

variable {p : Program}

theorem Compiles.contains_of_mem_calls (hcompiles : Compiles p)
    (hresolved : (generate p).builder.unresolved = []) {f : Text} (hf : f ∈ p.calls) :
    p.table.contains f = true := by
  rw [hcompiles.unresolved_eq, unresolvedAfter_eq, List.nil_append] at hresolved
  by_contra hknown
  have hunknown := eq_false_of_ne_true hknown
  have hmem : f ∈ (p.calls.filter fun f => !p.table.contains f && !([] : List Text).contains f) := by
    simp [hf, hunknown]
  rw [← List.mem_eraseDups, hresolved] at hmem
  cases hmem

theorem Compiles.checked_body (hcompiles : Compiles p)
    (hresolved : (generate p).builder.unresolved = []) (hflat : p.Flat) {d : Declaration}
    (hd : d ∈ p.procedures) : d.procedure.body.Checked p.table := by
  rw [← hflat.declarations_eq] at hd
  refine ⟨hcompiles.supported.bodies d hd, fun f hf => ?_, hflat.procedures d ?_⟩
  · apply hcompiles.contains_of_mem_calls hresolved
    exact List.mem_append_right _ (List.mem_flatMap.mpr ⟨d, hd, hf⟩)
  · rw [← hflat.declarations_eq]
    exact hd

theorem Compiles.checked_main (hcompiles : Compiles p)
    (hresolved : (generate p).builder.unresolved = []) (hflat : p.Flat) {st : Stmt}
    (hst : p.main = some st) : st.Checked p.table := by
  refine ⟨hcompiles.supported.main st hst, fun f hf => ?_, hflat.main st hst⟩
  apply hcompiles.contains_of_mem_calls hresolved
  rw [Program.calls, hst]
  exact List.mem_append_left _ hf

/-- A procedure that a name stands for is that of its only declaration. -/
theorem filter_declarations_eq {ds : List Declaration} {name : Text} {q : Procedure}
    (hnodup : (ds.map fun d => d.procedure.name).Nodup)
    (hq : Table.get? (ds.map fun d => (d.procedure.name, d.procedure)) name = some q) :
    ∃ d, ds.filter (fun d => d.procedure.name = name) = [d] ∧ d.procedure = q := by
  induction ds with
  | nil => cases hq
  | cons d ds ih =>
    obtain ⟨hfresh, hrest⟩ := List.nodup_cons.mp hnodup
    rw [List.map_cons, Table.get?_cons] at hq
    by_cases hname : name = d.procedure.name
    · rw [if_pos hname] at hq
      refine ⟨d, ?_, Option.some.inj hq⟩
      have hothers : ds.filter (fun d => d.procedure.name = name) = [] := by
        rw [List.filter_eq_nil_iff]
        intro c hc hsame
        rw [decide_eq_true_eq, hname] at hsame
        exact hfresh (List.mem_map.mpr ⟨c, hc, hsame⟩)
      rw [List.filter_cons_of_pos (by simpa using hname.symm), hothers]
    · rw [if_neg hname] at hq
      rw [List.filter_cons_of_neg (by simpa using Ne.symm hname)]
      exact ih hrest hq

/-- The main statement finds the procedures of the table. -/
theorem Compiles.holds_main (hcompiles : Compiles p) (hflat : p.Flat) {limits : Limits} {fuel : Nat}
    {s t : RunState}
    (h : Run.execAll limits fuel (p.procedures.map Declaration.toStmt) s.atStart = .ok () t) :
    t.env.Holds p.table 0 := by
  have hnodup := hcompiles.supported.nodup
  rw [Program.table, hflat.declarations_eq, Table.names, List.map_map] at hnodup
  have henv := Run.env_of_declarations (t := []) rfl hnodup h
  rw [Env.Holds, henv, Program.table, hflat.declarations_eq]
  rfl

/-- In a program whose procedures are declared at the top level, that has code, and in which every
procedure called is declared, no call goes wrong: each finds the only declaration of the name, with as
many parameters as it has arguments. -/
theorem static_calls_found (hflat : p.Flat) (hcompiles : Compiles p)
    (hresolved : (generate p).builder.unresolved = []) (limits : Limits) (fuel : Nat)
    (s : RunState) :
    (∀ cause pos s', Run.program limits fuel p s = .error (.stopped cause pos) s' →
      cause.blamesCall = false) ∧
    ∀ n token name args t, p.Reaches limits fuel s ⟨n, .invoke token name args, t⟩ →
      ∃ d, p.procedures.filter (fun d => d.procedure.name = name) = [d] ∧
        t.env.getProc? name = some d.procedure ∧ args.length = d.procedure.params.length := by
  have hbodies : ∀ name q, p.table.get? name = some q → q.body.Checked p.table := by
    intro name q hq
    obtain ⟨d, hd, heq⟩ := List.mem_map.mp (Table.mem_of_get? hq)
    cases heq
    exact hcompiles.checked_body hresolved hflat (hflat.declarations_eq ▸ hd)
  have hdeclare : ∀ st ∈ p.procedures.map Declaration.toStmt, Guard.declares.stmt st := by
    intro st hst
    obtain ⟨d, -, rfl⟩ := List.mem_map.mp hst
    exact ⟨d, rfl⟩
  constructor
  · intro cause pos s' h
    change Run.statements limits fuel p s.atStart = _ at h
    rcases Run.cases_of_bind_eq_error h with hdeclarations | ⟨_, t, hdeclared, hmain⟩
    · have hkeeps := (Guard.declares.lasts limits fuel).execAll (k := 0) (s := s.atStart) hdeclare
        trivial
      exact hkeeps.fault_of_stopped hdeclarations
    · cases hst : p.main with
      | none =>
        rw [hst] at hmain
        cases hmain
      | some st =>
        rw [hst] at hmain
        have hkeeps := ((Guard.calls p.table hbodies).lasts limits fuel).exec
          (hcompiles.checked_main hresolved hflat hst) (hcompiles.holds_main hflat hdeclared)
        exact hkeeps.fault_of_stopped hmain
  · intro n token name args t hreach
    cases hreach with
    | declarations h =>
      have hcovers : Guard.declares.Covers
          ⟨fuel, .execAll (p.procedures.map Declaration.toStmt), s.atStart⟩ :=
        ⟨hdeclare, 0, trivial⟩
      exact (hcovers.reaches h).1.elim
    | @main st u hst hdeclared h =>
      have hcovers : (Guard.calls p.table hbodies).Covers ⟨fuel, .exec st, u⟩ :=
        ⟨hcompiles.checked_main hresolved hflat hst, 0, hcompiles.holds_main hflat hdeclared⟩
      obtain ⟨hcall, k, henv⟩ := hcovers.reaches h
      obtain ⟨q, hq, hargs⟩ := Expr.Checked.exists_procedure hcall
      have hnodup := hcompiles.supported.nodup
      have hfound := hq
      rw [Program.table, hflat.declarations_eq] at hnodup hfound
      rw [Table.names, List.map_map] at hnodup
      obtain ⟨d, hd, rfl⟩ := filter_declarations_eq hnodup hfound
      exact ⟨d, hd, (henv.getProc? name).trans hq, hargs⟩

def factorialSource : Text :=
  "PROCEDURE fact(n); IF n THEN fact := n * fact(n - 1); ELSE fact := 1;
  PROCEDURE show(n); WRITELN(n);
  show(fact(3));"

theorem factorial_calls_found :
    ∃ p, Program.ofText factorialSource = .ok p ∧ p.Flat ∧ Compiles p ∧
      (generate p).builder.unresolved = [] ∧
      (Run.program {} 99 p).run' {} = some () ∧
      ∀ n token args t, p.Reaches {} 99 {} ⟨n, .invoke token "fact" args, t⟩ →
        ∃ d, p.procedures.filter (fun d => d.procedure.name = ("fact" : Text)) = [d] ∧
          t.env.getProc? "fact" = some d.procedure ∧ args.length = d.procedure.params.length := by
  obtain ⟨p, hparse, hcheck⟩ : ∃ p, Program.ofText factorialSource = .ok p ∧
      (p.procedures.all (fun d => d.procedure.body.declarations.isEmpty) &&
        p.main.all (fun st => st.declarations.isEmpty) && (generate p).error = none &&
        (generate p).builder.unresolved.isEmpty &&
        (Run.program {} 99 p).run' {} = some ()) = true :=
    Program.exists_of_passes (by decide +kernel)
  simp only [Bool.and_eq_true, List.all_eq_true, Option.all_eq_true_iff_get, List.isEmpty_iff,
    decide_eq_true_eq] at hcheck
  obtain ⟨⟨⟨⟨hprocedures, hmain⟩, hcompiles⟩, hresolved⟩, hrun⟩ := hcheck
  have hflat : p.Flat := by
    refine ⟨hprocedures, fun st hst => ?_⟩
    simpa [hst] using hmain
  have hfound := (static_calls_found hflat hcompiles hresolved {} 99 {}).2
  exact ⟨p, hparse, hflat, hcompiles, hresolved, hrun,
    fun n token args t => hfound n token "fact" args t⟩

end Assembly

end MiniPascal
