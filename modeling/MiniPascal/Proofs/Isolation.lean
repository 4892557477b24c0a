import MiniPascal.Proofs.Coupling
import MiniPascal.Proofs.Scoping

/-! What a call leaves of its caller's environment. Whatever a procedure does and however it ends, the
scopes of its caller are as many as before, in the same order, with the same procedures and the same
names; only values can change, and not those under the names that the procedure binds itself. The
counter of calls is exact: at every moment of a run it says how many calls are in progress. -/

namespace MiniPascal

/-- The names that a scope gives a value. -/
def Scope.names (scope : Scope) : List Text := scope.vars.names

theorem Table.names_set_of_mem {α : Type} {t : Table α} {x : Text} (h : x ∈ t.names) (v : α) :
    (t.set x v).names = t.names := by
  induction t with
  | nil => cases h
  | cons entry rest ih =>
    obtain ⟨y, w⟩ := entry
    by_cases hy : y = x
    · rw [Table.set, if_pos hy, hy]
      rfl
    · have hrest : x ∈ Table.names rest := (List.mem_cons.mp h).resolve_left (Ne.symm hy)
      rw [Table.set, if_neg hy]
      exact congrArg (y :: ·) (ih hrest)

namespace Env

/-- The value that each scope has for a name. -/
def values (env : Env) (x : Text) : List (Option Int32) := env.map fun scope => scope.vars.get? x

/-- Some scope has a value for a name. -/
def Binds (env : Env) (x : Text) : Prop := ∃ names ∈ env.map Scope.names, x ∈ names

/-- What a computation may do to the environment in which it runs: to the innermost scope it may add,
and of the others it changes values only, and none behind a scope that binds the name. -/
structure Evolves (env env' : Env) : Prop where
  procs : env'.tail.map Scope.procs = env.tail.map Scope.procs
  names : env'.tail.map Scope.names = env.tail.map Scope.names
  binds : ∀ i x, Binds (env.take i) x → Binds (env'.take i) x
  hidden : ∀ i x, Binds (env.take i) x → values (env'.drop i) x = values (env.drop i) x

variable {env env' : Env} {scope scope' : Scope} {outer : Env} {x y : Text} {v : Int32}

theorem not_binds_nil : ¬ Binds [] x := by
  rintro ⟨names, hnames, -⟩
  cases hnames

theorem binds_cons : Binds (scope :: outer) x ↔ x ∈ scope.names ∨ outer.Binds x := by
  rw [Binds, List.map_cons, List.exists_mem_cons_iff]
  rfl

theorem names_update? (h : env.update? x v = some env') :
    env'.map Scope.names = env.map Scope.names := by
  obtain ⟨inner, scope, outer, rfl, rfl, hx, -⟩ := exists_of_update? h
  have hnames : Scope.names { scope with vars := scope.vars.set x v } = scope.names :=
    Table.names_set_of_mem (Table.contains_iff.mp hx) v
  rw [List.map_append, List.map_append, List.map_cons, List.map_cons, hnames]

theorem values_update? (h : env.update? x v = some env') (hy : y ≠ x) :
    env'.values y = env.values y := by
  obtain ⟨inner, scope, outer, rfl, rfl, -⟩ := exists_of_update? h
  rw [values, values, List.map_append, List.map_append, List.map_cons, List.map_cons, Table.get?_set,
    if_neg hy]

/-- An update goes no further than the first scope that binds the name. -/
theorem drop_update? {i : Nat} (h : env.update? x v = some env') (hx : Binds (env.take i) x) :
    env'.drop i = env.drop i := by
  obtain ⟨inner, scope, outer, rfl, rfl, -, hinner⟩ := exists_of_update? h
  have hi : inner.length < i := by
    by_contra hle
    rw [List.take_append_of_le_length (Nat.not_lt.mp hle)] at hx
    obtain ⟨names, hnames, hmem⟩ := hx
    obtain ⟨s, hs, rfl⟩ := List.mem_map.mp hnames
    exact Table.contains_eq_false_iff.mp (hinner s (List.mem_of_mem_take hs)) hmem
  obtain ⟨k, rfl⟩ := Nat.exists_eq_add_of_lt hi
  rw [Nat.add_assoc, List.drop_length_add_append, List.drop_length_add_append]
  rfl

namespace Evolves

theorem refl (env : Env) : env.Evolves env := ⟨rfl, rfl, fun _ _ h => h, fun _ _ _ => rfl⟩

theorem trans {env'' : Env} (h : env.Evolves env') (h' : env'.Evolves env'') :
    env.Evolves env'' where
  procs := h'.procs.trans h.procs
  names := h'.names.trans h.names
  binds i x hx := h'.binds i x (h.binds i x hx)
  hidden i x hx := (h'.hidden i x (h.binds i x hx)).trans (h.hidden i x hx)

/-- A change of the innermost scope that keeps its names. -/
theorem of_head (h : ∀ x ∈ scope.names, x ∈ scope'.names) :
    Evolves (scope :: outer) (scope' :: outer) where
  procs := rfl
  names := rfl
  binds i x hx := by
    cases i with
    | zero => exact hx
    | succ i =>
      rw [List.take_succ_cons, binds_cons] at hx ⊢
      exact hx.imp_left (h x)
  hidden i x hx := by
    cases i with
    | zero => exact absurd hx not_binds_nil
    | succ i => rfl

theorem of_nil (scope : Scope) : Evolves [] [scope] where
  procs := rfl
  names := rfl
  binds _ _ hx := absurd (List.take_nil ▸ hx) not_binds_nil
  hidden _ _ hx := absurd (List.take_nil ▸ hx) not_binds_nil

theorem update? (h : env.update? x v = some env') : env.Evolves env' where
  procs := by rw [List.map_tail, List.map_tail, procs_update? h]
  names := by rw [List.map_tail, List.map_tail, names_update? h]
  binds i y hy := by
    rw [Binds, List.map_take, names_update? h, ← List.map_take]
    exact hy
  hidden i y hy := by
    by_cases hname : y = x
    · rw [drop_update? h (hname ▸ hy)]
    · rw [values, values, List.map_drop, List.map_drop]
      exact congrArg (List.drop i) (values_update? h hname)

theorem set (env : Env) (x : Text) (v : Int32) : env.Evolves (env.set x v) := by
  unfold Env.set
  cases h : env.update? x v with
  | some env' => exact update? h
  | none =>
    cases env with
    | nil => exact of_nil _
    | cons scope outer =>
      refine of_head fun y hy => Table.contains_iff.mp ?_
      exact (Table.contains_set ..).mpr (.inr (Table.contains_iff.mpr hy))

theorem setProc (env : Env) (name : Text) (q : Procedure) : env.Evolves (env.setProc name q) := by
  cases env with
  | nil => exact of_nil _
  | cons scope outer => exact of_head fun _ h => h

/-- What is left when the innermost scope is gone has the procedures and names that it had. -/
theorem procs_pop (h : Evolves (env.push scope) env') :
    env'.pop.map Scope.procs = env.map Scope.procs := h.procs

theorem names_pop (h : Evolves (env.push scope) env') :
    env'.pop.map Scope.names = env.map Scope.names := h.names

theorem values_pop (h : Evolves (env.push scope) env') (hx : x ∈ scope.names) :
    env'.pop.values x = env.values x := by
  have hhidden := h.hidden 1 x (binds_cons.mpr (.inl hx))
  rw [List.drop_one] at hhidden
  exact hhidden

theorem pop (h : Evolves (env.push scope) env') : env.Evolves env'.pop where
  procs := by rw [List.map_tail, List.map_tail, h.procs_pop]
  names := by rw [List.map_tail, List.map_tail, h.names_pop]
  binds i x hx := by
    rw [Binds, List.map_take, h.names_pop, ← List.map_take]
    exact hx
  hidden i x hx := by
    have hhidden := h.hidden (i + 1) x (binds_cons.mpr (.inr hx))
    rw [← List.drop_tail] at hhidden
    exact hhidden

end Evolves

end Env

/-- The scopes around the innermost one are kept but for values, and the count of calls is exact. -/
def Course.isolation : Course where
  leads s t := s.env.Evolves t.env ∧ t.depth = s.depth
  refl s := ⟨.refl s.env, rfl⟩
  trans h h' := ⟨h.1.trans h'.1, h'.2.trans h.2⟩
  step s := ⟨.refl s.env, rfl⟩
  set s x v := ⟨.set s.env x v, rfl⟩
  setProc s name q := ⟨.setProc s.env name q, rfl⟩
  read s _ := ⟨.refl s.env, rfl⟩
  write s _ _ _ := ⟨.refl s.env, rfl⟩
  call _ _ h := ⟨h.1.pop, Nat.sub_eq_of_eq_add h.2⟩

section InProgress

variable (limits : Limits)

/-- The moments that a task leads to, with the number of calls that are in progress inside the task. -/
inductive Moment.InProgress (m : Moment) : Nat → Moment → Prop
  | here : InProgress m 0 m
  | inside {k : Nat} {m' m'' : Moment} (h : InProgress m k m') (hstart : m'.Starts limits m'') :
      InProgress m (k + m'.task.enters m''.task) m''

/-- The moments in the run of a program, with the number of calls in progress. -/
inductive Program.InProgress (p : Program) (fuel : Nat) (s : RunState) : Nat → Moment → Prop
  | declarations {k : Nat} {m : Moment}
      (h : Moment.InProgress limits
        ⟨fuel, .execAll (p.procedures.map Declaration.toStmt), s.atStart⟩ k m) :
      InProgress p fuel s k m
  | main {k : Nat} {m : Moment} {st : Stmt} {t : RunState} (hmain : p.main = some st)
      (hdeclared :
        Run.execAll limits fuel (p.procedures.map Declaration.toStmt) s.atStart = .ok () t)
      (h : Moment.InProgress limits ⟨fuel, .exec st, t⟩ k m) : InProgress p fuel s k m

end InProgress

section Depth

variable {limits : Limits} {k n : Nat} {m m' : Moment} {p : Program} {s : RunState}

/-- A task is started with as many calls in progress as there were, and one more if it is the body of
a procedure. -/
theorem Moment.Starts.depth_eq (h : m.Starts limits m') :
    m'.state.depth = m.state.depth + m.task.enters m'.task ∧
      (m.state.depth ≤ limits.depth → m'.state.depth ≤ limits.depth) := by
  rcases Course.isolation.leads_of_starts h with ⟨henters, -, hdepth⟩ |
    ⟨t, q, values, henters, ⟨-, hdepth⟩, hlimit, hstate⟩
  · rw [henters, hdepth]
    exact ⟨rfl, id⟩
  · rw [henters, hstate, ← hdepth]
    exact ⟨rfl, fun _ => hlimit⟩

theorem Moment.InProgress.depth_eq (h : m.InProgress limits k m') :
    m'.state.depth = m.state.depth + k ∧
      (m.state.depth ≤ limits.depth → m'.state.depth ≤ limits.depth) := by
  induction h with
  | here => exact ⟨rfl, id⟩
  | inside _ hstart ih =>
    obtain ⟨hdepth, hlimit⟩ := hstart.depth_eq
    refine ⟨?_, fun hle => hlimit (ih.2 hle)⟩
    rw [hdepth, ih.1, Nat.add_assoc]

theorem Moment.InProgress.reaches (h : m.InProgress limits k m') : m.Reaches limits m' := by
  induction h with
  | here => exact .refl
  | inside _ hstart ih => exact ih.tail hstart

theorem Moment.Reaches.exists_inProgress (h : m.Reaches limits m') :
    ∃ k, m.InProgress limits k m' := by
  induction h with
  | refl => exact ⟨0, .here⟩
  | tail _ hstart ih =>
    obtain ⟨k, hk⟩ := ih
    exact ⟨_, .inside hk hstart⟩

theorem Program.InProgress.reaches (h : p.InProgress limits n s k m) : p.Reaches limits n s m := by
  cases h with
  | declarations h => exact .declarations h.reaches
  | main hmain hdeclared h => exact .main hmain hdeclared h.reaches

theorem Program.Reaches.exists_inProgress (h : p.Reaches limits n s m) :
    ∃ k, p.InProgress limits n s k m := by
  cases h with
  | declarations h =>
    obtain ⟨k, hk⟩ := Moment.Reaches.exists_inProgress h
    exact ⟨k, .declarations hk⟩
  | main hmain hdeclared h =>
    obtain ⟨k, hk⟩ := Moment.Reaches.exists_inProgress h
    exact ⟨k, .main hmain hdeclared hk⟩

theorem Program.InProgress.depth_eq (h : p.InProgress limits n s k m) :
    m.state.depth = k ∧ k ≤ limits.depth := by
  have hbegun : ∀ {m₀ : Moment}, m₀.state.depth = 0 → m₀.InProgress limits k m →
      m.state.depth = k ∧ k ≤ limits.depth := by
    intro m₀ hzero h
    obtain ⟨hdepth, hlimit⟩ := h.depth_eq
    rw [hzero, Nat.zero_add] at hdepth
    exact ⟨hdepth, hdepth ▸ hlimit (hzero ▸ Nat.zero_le _)⟩
  cases h with
  | declarations h => exact hbegun rfl h
  | main hmain hdeclared h =>
    have hdeclarations := (Course.isolation.relates limits n).execAll
      (p.procedures.map Declaration.toStmt)
    exact hbegun (Course.Keeps.leads_of_ok hdeclarations hdeclared).2 h

theorem Program.inProgress_iff :
    p.InProgress limits n s k m ↔ p.Reaches limits n s m ∧ m.state.depth = k := by
  constructor
  · exact fun h => ⟨h.reaches, h.depth_eq.1⟩
  · rintro ⟨h, rfl⟩
    obtain ⟨k, hk⟩ := h.exists_inProgress
    exact hk.depth_eq.1 ▸ hk

end Depth

theorem evolves_of_call (limits : Limits) (n : Nat) (q : Procedure) (values : List Int32)
    (s : RunState) :
    ∃ env, Env.Evolves (s.env.push (Run.callScope q values)) env ∧
      (Run.after (Run.within (Run.callScope q values) q.name (Run.exec limits n q.body)) s).env =
        env.pop := by
  have hbody := (Course.isolation.relates limits n).exec q.body
    { s with env := s.env.push (Run.callScope q values), depth := s.depth + 1 }
  refine ⟨_, hbody.1, ?_⟩
  unfold Run.after Run.within
  generalize Run.exec limits n q.body _ = result
  cases result with
  | ok a t => rfl
  | error e t => rfl

/-- A call whose arguments are evaluated leaves its caller's scopes with the same procedures and the same
names, in the same order, and with the same values under the names that the procedure starts with,
however its body ends. Throughout a run the counter is the number of calls in progress, no task leaves
it changed, and it stays within the limit. -/
theorem call_isolated (limits : Limits) (n : Nat) :
    (∀ (q : Procedure) (values : List Int32) (s : RunState), values.length = q.params.length →
      let t := Run.after (Run.within (Run.callScope q values) q.name (Run.exec limits n q.body)) s
      t.env.map Scope.procs = s.env.map Scope.procs ∧
        t.env.map Scope.names = s.env.map Scope.names ∧
        (∀ x ∈ q.entry, t.env.values x = s.env.values x) ∧ t.depth = s.depth) ∧
    ∀ (p : Program) (s : RunState) (m : Moment),
      (∀ k, p.InProgress limits n s k m ↔ p.Reaches limits n s m ∧ m.state.depth = k) ∧
      (p.Reaches limits n s m →
        m.state.depth ≤ limits.depth ∧ (m.after limits).depth = m.state.depth) := by
  constructor
  · intro q values s hvalues
    obtain ⟨env, hevolves, henv⟩ := evolves_of_call limits n q values s
    have hkeeps : Course.isolation.Keeps (Run.exec limits n q.body) :=
      (Course.isolation.relates limits n).exec q.body
    dsimp only
    rw [henv]
    refine ⟨hevolves.procs_pop, hevolves.names_pop, fun x hx => ?_, (hkeeps.within q values s).2⟩
    exact hevolves.values_pop (Table.contains_iff.mp ((contains_callScope hvalues x).mpr hx))
  · intro p s m
    refine ⟨fun k => Program.inProgress_iff, fun h => ?_⟩
    have hprogress := Program.inProgress_iff.mpr ⟨h, rfl⟩
    exact ⟨hprogress.depth_eq.2, (Course.isolation.leads_after limits m).2⟩

/-- A procedure that assigns its parameter and a name of its caller, and then divides by zero. -/
def dividing : Procedure where
  name := "p"
  params := [{ name := "x" }]
  body := .block {} [
    .assign {} { name := "x" } (.literal {} 7 .int false),
    .assign {} { name := "y" } (.var { name := "x" }),
    .assign {} { name := "p" } (.binary {} .div (.var { name := "x" }) (.literal {} 0 .int false))]

def dividingCaller : RunState := { env := [{ vars := [("x", 1), ("y", 2), ("p", 3)] }] }

theorem dividing_isolated :
    [(5 : Int32)].length = dividing.params.length ∧
      let result := Run.within (Run.callScope dividing [5]) dividing.name
        (Run.exec {} 9 dividing.body) dividingCaller
      let t := Run.after (Run.within (Run.callScope dividing [5]) dividing.name
        (Run.exec {} 9 dividing.body)) dividingCaller
      result = .error (.stopped (.operator .divisionByZero "(x / 0)") {}) t ∧
        t.env.values "y" = [some 7] ∧ t.env.values "x" = [some 1] ∧ t.env.values "p" = [some 3] ∧
        t.env.map Scope.names = dividingCaller.env.map Scope.names ∧ t.depth = 0 := by
  obtain ⟨-, hnames, hvalues, hdepth⟩ := (call_isolated {} 9).1 dividing [5] dividingCaller rfl
  refine ⟨rfl, ?_, ?_, ?_, ?_, ?_, ?_⟩
  · rfl
  · rfl
  · exact hvalues "x" (by decide)
  · exact hvalues "p" (by decide)
  · exact hnames
  · exact hdepth

end MiniPascal
