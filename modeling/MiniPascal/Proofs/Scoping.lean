import Mathlib.Logic.Relation
import MiniPascal.Proofs.Refinement
import MiniPascal.Proofs.Tasks

/-! Programs on which it makes no difference where a name is looked up. The interpreter looks among
the names of the callers and keeps what a branch or a loop binds; the lexical reading does neither. If
the names of a procedure are its own and branches assign only names that have a value, the two go
through the same values, and so the compiled code does what the interpreter does. -/

namespace MiniPascal

mutual

/-- The names that an expression reads. -/
def Expr.vars : Expr → List Text
  | .literal .. => []
  | .var v => [v.name]
  | .binary _ _ left right => left.vars ++ right.vars
  | .call _ _ args => Expr.varsAll args
  | .missing => []

def Expr.varsAll : List Expr → List Text
  | [] => []
  | e :: es => e.vars ++ Expr.varsAll es

end

mutual

/-- The names that a statement reads or assigns, the bodies of declarations aside. -/
def Stmt.vars : Stmt → List Text
  | .assign _ target value => target.name :: value.vars
  | .block _ body => Stmt.varsAll body
  | .ifThen _ cond body => cond.vars ++ body.vars
  | .ifElse _ cond body alternative => cond.vars ++ body.vars ++ alternative.vars
  | .loop _ cond body => cond.vars ++ body.vars
  | .writeLn _ value => value.vars
  | .readLn _ target => [target.name]
  | .call _ _ args => Expr.varsAll args
  | .declare .. => []
  | .missing => []

def Stmt.varsAll : List Stmt → List Text
  | [] => []
  | s :: ss => s.vars ++ Stmt.varsAll ss

end

mutual

/-- The names that a statement surely assigns: those in its branches and loops do not count. -/
def Stmt.assigned : Stmt → List Text
  | .assign _ target _ => [target.name]
  | .readLn _ target => [target.name]
  | .block _ body => Stmt.assignedAll body
  | .ifThen .. => []
  | .ifElse .. => []
  | .loop .. => []
  | .writeLn .. => []
  | .call .. => []
  | .declare .. => []
  | .missing => []

def Stmt.assignedAll : List Stmt → List Text
  | [] => []
  | s :: ss => s.assigned ++ Stmt.assignedAll ss

end

mutual

/-- Whether every assignment in a branch or a loop is to a name that is `known` or was assigned
earlier in the text and outside of them. A `nested` statement is part of one itself. -/
def Stmt.guarded (nested : Bool) (known : List Text) : Stmt → Bool
  | .assign _ target _ => !nested || known.contains target.name
  | .readLn _ target => !nested || known.contains target.name
  | .block _ body => Stmt.guardedAll nested known body
  | .ifThen _ _ body => body.guarded true known
  | .ifElse _ _ body alternative => body.guarded true known && alternative.guarded true known
  | .loop _ _ body => body.guarded true known
  | .writeLn .. => true
  | .call .. => true
  | .declare .. => true
  | .missing => true

def Stmt.guardedAll (nested : Bool) (known : List Text) : List Stmt → Bool
  | [] => true
  | s :: ss => s.guarded nested known && Stmt.guardedAll nested (known ++ s.assigned) ss

end

/-- The names that have a value when a procedure starts. -/
def Procedure.entry (q : Procedure) : List Text := q.params.map Variable.name ++ [q.name]

/-- The names that a procedure uses without having been given them. -/
def Procedure.locals (q : Procedure) : List Text := q.body.vars.filter fun x => !q.entry.contains x

/-- All variables of a procedure. -/
def Procedure.vars (q : Procedure) : List Text := q.entry ++ q.body.vars

/-- One procedure calls another. -/
def Program.Calls (p : Program) (f g : Text) : Prop :=
  ∃ d ∈ p.procedures, d.procedure.name = f ∧ g ∈ d.procedure.body.calls

/-- Procedures are declared at the top level only. A local of a procedure is used nowhere else, and a
procedure that has one is never in progress twice. What a branch or a loop assigns had a value. -/
structure Program.StaticallyScoped (p : Program) : Prop where
  flat : ∀ d ∈ p.procedures, d.procedure.body.declarations = []
  flat_main : p.main.elim [] Stmt.declarations = []
  apart_main : ∀ d ∈ p.procedures, ∀ x ∈ d.procedure.locals, x ∉ p.main.elim [] Stmt.vars
  apart : ∀ d ∈ p.procedures, ∀ e ∈ p.procedures, e.procedure.name ≠ d.procedure.name →
    ∀ x ∈ d.procedure.locals, x ∉ e.procedure.vars
  acyclic : ∀ d ∈ p.procedures, d.procedure.locals ≠ [] →
    ¬ Relation.TransGen p.Calls d.procedure.name d.procedure.name
  guarded : ∀ d ∈ p.procedures, d.procedure.body.guarded false d.procedure.entry = true
  guarded_main : p.main.elim true (Stmt.guarded false []) = true

section Test

def Program.callees (p : Program) (f : Text) : List Text :=
  (p.procedures.filter fun d => d.procedure.name = f).flatMap fun d => d.procedure.body.calls

/-- The procedures that are called in at most `n` steps from those of `fs`. -/
def Program.reach (p : Program) : Nat → List Text → List Text
  | 0, fs => fs
  | n + 1, fs => reach p n (fs ++ fs.flatMap p.callees).dedup

/-- A set of procedures that has those called by `f` and by its members, and does not have `f`. -/
def Program.Excludes (p : Program) (f : Text) (fs : List Text) : Prop :=
  (∀ g ∈ f :: fs, ∀ h ∈ p.callees g, h ∈ fs) ∧ f ∉ fs

instance (p : Program) (f : Text) (fs : List Text) : Decidable (p.Excludes f fs) :=
  inferInstanceAs (Decidable (_ ∧ _))

variable {p : Program} {f g : Text}

theorem Program.mem_callees (h : p.Calls f g) : g ∈ p.callees f := by
  obtain ⟨d, hd, hname, hg⟩ := h
  exact List.mem_flatMap.mpr ⟨d, List.mem_filter.mpr ⟨hd, decide_eq_true hname⟩, hg⟩

theorem Program.Excludes.not_transGen {fs : List Text} (h : p.Excludes f fs) :
    ¬ Relation.TransGen p.Calls f f := by
  have hmem : ∀ g, Relation.TransGen p.Calls f g → g ∈ fs := by
    intro g hreach
    induction hreach with
    | single hcall => exact h.1 f List.mem_cons_self _ (mem_callees hcall)
    | tail _ hcall ih => exact h.1 _ (List.mem_cons_of_mem _ ih) _ (mem_callees hcall)
  exact fun hcycle => h.2 (hmem f hcycle)

/-- A test for static scoping. -/
def Program.scopesStatically (p : Program) : Bool :=
  p.procedures.all (fun d => d.procedure.body.declarations.isEmpty &&
    d.procedure.body.guarded false d.procedure.entry &&
    d.procedure.locals.all (fun x => !(p.main.elim [] Stmt.vars).contains x) &&
    p.procedures.all (fun e => e.procedure.name == d.procedure.name ||
      d.procedure.locals.all fun x => !e.procedure.vars.contains x) &&
    (d.procedure.locals.isEmpty || p.Excludes d.procedure.name
      (p.reach p.procedures.length (p.callees d.procedure.name)))) &&
  (p.main.elim [] Stmt.declarations).isEmpty && p.main.elim true (Stmt.guarded false [])

theorem Program.staticallyScoped_of_test (h : p.scopesStatically = true) : p.StaticallyScoped := by
  simp only [Program.scopesStatically, Bool.and_eq_true, Bool.or_eq_true, List.all_eq_true,
    List.isEmpty_iff, decide_eq_true_eq, beq_iff_eq, Bool.not_eq_true', List.contains_eq_mem,
    decide_eq_false_iff_not] at h
  obtain ⟨⟨hprocedures, hflatMain⟩, hguardedMain⟩ := h
  refine ⟨fun d hd => ?_, hflatMain, fun d hd => ?_, fun d hd e he hne => ?_, fun d hd hlocals => ?_,
    fun d hd => ?_, hguardedMain⟩ <;>
    obtain ⟨⟨⟨⟨hflat, hguarded⟩, hapartMain⟩, hapart⟩, hacyclic⟩ := hprocedures d hd
  · exact hflat
  · exact hapartMain
  · exact (hapart e he).resolve_left hne
  · exact (hacyclic.resolve_left hlocals).not_transGen
  · exact hguarded

end Test

/-- A local of a procedure within reach of some calls. -/
def Program.Hides (p : Program) (calls : List Text) (x : Text) : Prop :=
  ∃ f ∈ calls, ∃ d ∈ p.procedures,
    Relation.ReflTransGen p.Calls f d.procedure.name ∧ x ∈ d.procedure.locals

/-- The code that runs in one frame: the variables that it uses and the procedures that it calls,
with no variable of theirs among its own. -/
structure Region (p : Program) where
  vars : List Text
  calls : List Text
  apart : ∀ x ∈ vars, ¬ p.Hides calls x

section Regions

variable {p : Program} {d : Declaration} {x : Text}

theorem Procedure.mem_entry_or_mem_locals {q : Procedure} (hx : x ∈ q.vars) :
    x ∈ q.entry ∨ x ∈ q.locals := by
  by_cases hentry : x ∈ q.entry
  · exact .inl hentry
  · exact .inr (List.mem_filter.mpr
      ⟨(List.mem_append.mp hx).resolve_left hentry, by simpa using hentry⟩)

/-- The locals of a called procedure are hidden, and so are those within its reach. -/
theorem Program.hides_of_call {calls : List Text} (hd : d ∈ p.procedures)
    (hcall : d.procedure.name ∈ calls) (hx : p.Hides d.procedure.body.calls x) :
    p.Hides calls x := by
  obtain ⟨f, hf, e, he, hreach, hlocal⟩ := hx
  exact ⟨_, hcall, e, he, .head ⟨d, hd, rfl, hf⟩ hreach, hlocal⟩

variable (h : p.StaticallyScoped)

/-- The main statement as a region. -/
def Program.StaticallyScoped.mainRegion : Region p where
  vars := p.main.elim [] Stmt.vars
  calls := p.main.elim [] Stmt.calls
  apart x hx hhides := by
    obtain ⟨f, hf, d, hd, hreach, hlocal⟩ := hhides
    exact h.apart_main d hd x hlocal hx

/-- The body of a procedure as a region. -/
def Program.StaticallyScoped.region (hd : d ∈ p.procedures) : Region p where
  vars := d.procedure.vars
  calls := d.procedure.body.calls
  apart x hx hhides := by
    obtain ⟨f, hf, e, he, hreach, hlocal⟩ := hhides
    by_cases hname : d.procedure.name = e.procedure.name
    · have hcycle : Relation.TransGen p.Calls e.procedure.name e.procedure.name :=
        .head' ⟨d, hd, hname, hf⟩ hreach
      exact h.acyclic e he (List.ne_nil_of_mem hlocal) hcycle
    · exact h.apart e he d hd hname x hlocal hx

end Regions

namespace Env

variable {x : Text} {v : Int32} {outer : Env} {scope : Scope}

theorem get?_cons (scope : Scope) (outer : Env) (x : Text) :
    Env.get? (scope :: outer) x = (scope.vars.get? x).or (outer.get? x) := by
  rw [Env.get?]
  cases scope.vars.get? x <;> rfl

theorem update?_eq_none (h : outer.get? x = none) : outer.update? x v = none := by
  induction outer with
  | nil => rfl
  | cons scope outer ih =>
    rw [get?_cons, Option.or_eq_none_iff] at h
    rw [Env.update?, Table.contains, h.1, ih h.2]
    rfl

/-- A name that no outer scope binds is assigned in the innermost one. -/
theorem set_cons (h : scope.vars.contains x = true ∨ outer.get? x = none) :
    Env.set (scope :: outer) x v = { scope with vars := scope.vars.set x v } :: outer := by
  rw [Env.set, Env.update?]
  by_cases hscope : scope.vars.contains x = true
  · rw [if_pos hscope]
  · rw [if_neg hscope, update?_eq_none (h.resolve_left hscope)]
    rfl

theorem get?_cons_set (scope : Scope) (outer : Env) (x y : Text) (v : Int32) :
    Env.get? ({ scope with vars := scope.vars.set x v } :: outer) y =
      if y = x then some v else Env.get? (scope :: outer) y := by
  rw [get?_cons, get?_cons, Table.get?_set]
  by_cases hy : y = x
  · rw [if_pos hy, if_pos hy, Option.some_or]
  · rw [if_neg hy, if_neg hy]

theorem get?_append (inner outer : Env) (x : Text) :
    Env.get? (inner ++ outer) x = (inner.get? x).or (outer.get? x) := by
  induction inner with
  | nil => rfl
  | cons scope inner ih => rw [List.cons_append, get?_cons, get?_cons, ih, Option.or_assoc]

theorem get?_eq_none (h : ∀ scope ∈ outer, scope.vars.contains x = false) : outer.get? x = none := by
  induction outer with
  | nil => rfl
  | cons scope outer ih =>
    obtain ⟨hscope, houter⟩ := List.forall_mem_cons.mp h
    have hnone : scope.vars.get? x = none := by simpa [Table.contains] using hscope
    rw [get?_cons, hnone, ih houter]
    rfl

theorem get?_update? {env env' : Env} (h : env.update? x v = some env') (y : Text) :
    env'.get? y = if y = x then some v else env.get? y := by
  obtain ⟨inner, scope, outer, rfl, rfl, -, hinner⟩ := exists_of_update? h
  rw [get?_append, get?_append, get?_cons_set]
  by_cases hy : y = x
  · rw [if_pos hy, if_pos hy, hy, get?_eq_none hinner, Option.none_or]
  · rw [if_neg hy, if_neg hy]

/-- A variable has the value that it was set to, and the others have the values that they had. -/
theorem get?_set (env : Env) (x y : Text) (v : Int32) :
    (env.set x v).get? y = if y = x then some v else env.get? y := by
  unfold set
  cases hupdate : env.update? x v with
  | some env' => exact get?_update? hupdate y
  | none =>
    cases env with
    | nil => exact get?_cons_set {} [] x y v
    | cons scope outer => exact get?_cons_set scope outer x y v

/-- A scope inside which `k` scopes without names are open. -/
def under : Nat → Scope → Env
  | 0, scope => [scope]
  | k + 1, scope => {} :: under k scope

theorem get?_under (k : Nat) (scope : Scope) (x : Text) :
    (under k scope).get? x = scope.vars.get? x := by
  induction k with
  | zero => rw [under, get?_cons, Env.get?, Option.or_none]
  | succ k ih => rw [under, get?_cons, ih, Table.get?_nil, Option.none_or]

theorem update?_under (k : Nat) (h : scope.vars.contains x = true) :
    (under k scope).update? x v = some (under k { scope with vars := scope.vars.set x v }) := by
  induction k with
  | zero => rw [under, Env.update?, if_pos h, under]
  | succ k ih =>
    rw [under, Env.update?, ih]
    rfl

theorem set_under {k : Nat} (h : k = 0 ∨ scope.vars.contains x = true) :
    (under k scope).set x v = under k { scope with vars := scope.vars.set x v } := by
  rcases h with rfl | h
  · exact set_cons (.inr rfl)
  · rw [Env.set, update?_under k h]

end Env

/-- What the interpreter's environment has to be while a region runs. A variable of the region is
bound by its own scope if by any, and the locals of the procedures in reach are not bound yet. -/
structure Region.Owns {p : Program} (g : Region p) (outer : Env) (scope : Scope) : Prop where
  own : ∀ x ∈ g.vars, scope.vars.contains x = true ∨ outer.get? x = none
  hidden : ∀ x, p.Hides g.calls x → Env.get? (scope :: outer) x = none
  procs : ∀ name, Env.getProc? (scope :: outer) name = p.table.get? name

/-- The interpreter's scope of a region and the scope of the lexical reading. -/
structure Alike {p : Program} (g : Region p) (outer : Env) (known : List Text) (scope base : Scope) :
    Prop where
  owns : g.Owns outer scope
  value : ∀ x, (scope.vars.get? x).getD 0 = (base.vars.get? x).getD 0
  bound : ∀ x ∈ known, base.vars.contains x = true

/-- The states of the two readings while a region runs. The lexical reading has `k` scopes open for
branches and loops. -/
structure Twins {p : Program} (g : Region p) (outer : Env) (k : Nat) (known : List Text)
    (r s : RunState) : Prop where
  sink : r.sink = s.sink
  input : r.input = s.input
  scopes : ∃ scope base, r.env = scope :: outer ∧ s.env = Env.under k base ∧
    Alike g outer known scope base

section Twins

variable {p : Program} {g : Region p} {outer : Env} {k : Nat} {known : List Text} {x : Text}
  {v : Int32}

theorem Table.contains_set {α : Type} (t : Table α) (x y : Text) (v : α) :
    (t.set x v).contains y = true ↔ y = x ∨ t.contains y = true := by
  rw [Table.contains, Table.get?_set]
  by_cases hy : y = x
  · simp [hy]
  · simp [hy, Table.contains]

theorem Region.Owns.set {scope : Scope} (h : g.Owns outer scope) (hx : x ∈ g.vars) :
    g.Owns outer { scope with vars := scope.vars.set x v } where
  own y hy := (h.own y hy).imp_left fun hbound => (Table.contains_set ..).mpr (.inr hbound)
  hidden y hy := by
    have hne : y ≠ x := fun heq => g.apart x hx (heq ▸ hy)
    have hnone := h.hidden y hy
    rw [Env.get?_cons] at hnone ⊢
    rw [Table.get?_set, if_neg hne, hnone]
  procs := h.procs

theorem Region.Owns.getD_get? {scope : Scope} (h : g.Owns outer scope) (hx : x ∈ g.vars) :
    (Env.get? (scope :: outer) x).getD 0 = (scope.vars.get? x).getD 0 := by
  rw [Env.get?_cons]
  rcases h.own x hx with hbound | hnone
  · obtain ⟨v, hv⟩ := Option.isSome_iff_exists.mp hbound
    rw [hv, Option.some_or]
  · rw [hnone, Option.or_none]

namespace Alike

variable {scope base : Scope}

theorem set (h : Alike g outer known scope base) (hx : x ∈ g.vars) :
    Alike g outer (known ++ [x]) { scope with vars := scope.vars.set x v }
      { base with vars := base.vars.set x v } where
  owns := h.owns.set hx
  value y := by
    rw [Table.get?_set, Table.get?_set]
    by_cases hy : y = x
    · rw [if_pos hy, if_pos hy]
    · rw [if_neg hy, if_neg hy, h.value y]
  bound y hy := by
    rw [Table.contains_set]
    rcases List.mem_append.mp hy with hy | hy
    · exact .inr (h.bound y hy)
    · exact .inl (List.mem_singleton.mp hy)

/-- A name without a value may as well have the value zero. -/
theorem set_zero (h : Alike g outer known scope base) (hx : x ∈ g.vars)
    (hnone : scope.vars.get? x = none) :
    Alike g outer known { scope with vars := scope.vars.set x 0 } base where
  owns := h.owns.set hx
  value y := by
    rw [Table.get?_set]
    by_cases hy : y = x
    · rw [if_pos hy, ← h.value y, hy, hnone]
      rfl
    · rw [if_neg hy, h.value y]
  bound := h.bound

end Alike

end Twins

/-- The results of the two readings. They are the same, unless the interpreter met its limit on calls. -/
inductive Matches {α : Type} (done : α → RunState → RunState → Prop) :
    EStateM.Result RunError RunState α → EStateM.Result RunError RunState α → Prop where
  | ok {r s : RunState} (a : α) (h : done a r s) : Matches done (.ok a r) (.ok a s)
  | error {r s : RunState} (e : RunError) (h : r.sink = s.sink) :
    Matches done (.error e r) (.error e s)
  | tooDeep (limit : Nat) (name : Text) (pos : Position) (r : RunState) (result) :
    Matches done (.error (.stopped (.depthLimit limit name) pos) r) result

namespace Matches

variable {α β : Type} {done done' : α → RunState → RunState → Prop}
  {result result' : EStateM.Result RunError RunState α} {r s : RunState}

theorem mono (h : Matches done result result') (hdone : ∀ a r s, done a r s → done' a r s) :
    Matches done' result result' := by
  cases h with
  | ok a h => exact .ok a (hdone _ _ _ h)
  | error e h => exact .error e h
  | tooDeep limit name pos r => exact .tooDeep limit name pos r _

theorem bind {x y : Run α} {f g : α → Run β} {next : β → RunState → RunState → Prop}
    (h : Matches done (x r) (y s))
    (hrest : ∀ a r' s', done a r' s' → Matches next (f a r') (g a s')) :
    Matches next ((x >>= f) r) ((y >>= g) s) := by
  change Matches next (EStateM.bind x f r) (EStateM.bind y g s)
  unfold EStateM.bind
  generalize x r = first, y s = second at h
  cases h with
  | ok a h => exact hrest a _ _ h
  | error e h => exact .error e h
  | tooDeep limit name pos r => exact .tooDeep limit name pos r _

section Primitives

variable {p : Program} {g : Region p} {outer : Env} {k : Nat} {known : List Text} {x : Text}

theorem readVariable (h : Twins g outer k known r s) (hx : x ∈ g.vars) :
    Matches (fun _ => Twins g outer k known) (Run.readVariable x r) (Lexical.readVariable x s) := by
  obtain ⟨scope, base, hr, hs, halike⟩ := h.scopes
  have hvalue : (r.env.get? x).getD 0 = (s.env.get? x).getD 0 := by
    rw [hr, hs, halike.owns.getD_get? hx, Env.get?_under, halike.value]
  unfold Run.readVariable Lexical.readVariable
  rw [Run.get_bind, ← hvalue]
  cases hget : r.env.get? x with
  | some v => exact .ok v h
  | none =>
    rw [hr, Env.get?_cons, Option.or_eq_none_iff] at hget
    refine .ok 0 ⟨h.sink, h.input, _, base, ?_, hs, halike.set_zero hx hget.1⟩
    exact (congrArg (Env.set · x 0) hr).trans (Env.set_cons (.inr hget.2))

theorem assign (h : Twins g outer k known r s) (hx : x ∈ g.vars) (hk : k = 0 ∨ x ∈ known)
    (v : Int32) :
    Matches (fun _ => Twins g outer k (known ++ [x])) (Run.assign x v r) (Run.assign x v s) := by
  obtain ⟨scope, base, hr, hs, halike⟩ := h.scopes
  have hset : r.env.set x v = _ := hr ▸ Env.set_cons (halike.owns.own x hx)
  have hset' : s.env.set x v = _ := hs ▸ Env.set_under (hk.imp_right (halike.bound x))
  exact .ok () ⟨h.sink, h.input, _, _, hset, hset', halike.set hx⟩

theorem writeLine (h : Twins g outer k known r s) (v : Int32) :
    Matches (fun _ => Twins g outer k known) (Run.writeLine v r) (Run.writeLine v s) := by
  unfold Run.writeLine
  rw [Run.get_bind, Run.get_bind, ← h.sink]
  cases r.sink.write (Text.bytes (Numeral.ofWord v ++ Text.ofString "\n")) with
  | ok sink => exact .ok () ⟨rfl, h.input, h.scopes⟩
  | error reason => exact .error _ h.sink

theorem readValue (h : Twins g outer k known r s) (pos : Position) :
    Matches (fun _ => Twins g outer k known) (Run.readValue pos r) (Run.readValue pos s) := by
  unfold Run.readValue
  rw [Run.get_bind, Run.get_bind, ← h.input]
  cases r.input with
  | none => exact .error _ h.sink
  | some input =>
    dsimp only
    cases input.next with
    | mk outcome rest =>
      cases outcome with
      | ok v => exact .ok v ⟨h.sink, rfl, h.scopes⟩
      | error e => exact .error _ h.sink

/-- The scope that the lexical reading opens for a branch has no names when it is left. -/
theorem inScope {x y : Run Unit}
    (h : Matches (fun _ => Twins g outer (k + 1) known) (x r) (y { s with env := s.env.push {} })) :
    Matches (fun _ => Twins g outer k known) (x r) (Lexical.inScope y s) := by
  unfold Lexical.inScope
  generalize x r = first, y _ = second at h ⊢
  cases h with
  | ok a h =>
    obtain ⟨scope, base, hr, hs, halike⟩ := h.scopes
    exact .ok () ⟨h.sink, h.input, scope, base, hr, congrArg Env.pop hs, halike⟩
  | error e h => exact .error e h
  | tooDeep limit name pos r => exact .tooDeep limit name pos r _

/-- A call leaves the environments as they were. -/
theorem within {callee : Region p} {params : List Text} {scope : Scope} {name : Text}
    {x y : Run Unit} (hcaller : Twins g outer k known r s) (hname : name ∈ callee.vars)
    (h : Matches (fun _ => Twins callee r.env 0 params)
      (x { r with env := r.env.push scope, depth := r.depth + 1 }) (y { s with env := [scope] })) :
    Matches (fun _ => Twins g outer k known) (Run.within scope name x r)
      (Lexical.inFrame scope name y s) := by
  unfold Run.within Lexical.inFrame
  generalize x _ = first, y _ = second at h ⊢
  cases h with
  | @ok r' s' a h =>
    obtain ⟨final, base, hr', hs', halike⟩ := h.scopes
    have hvalue : (r'.env.get? name).getD 0 = (s'.env.get? name).getD 0 := by
      rw [hr', hs', halike.owns.getD_get? hname, Env.get?_under, halike.value]
    obtain ⟨scope, base, hr, hs, halike⟩ := hcaller.scopes
    dsimp only
    rw [hvalue]
    exact .ok _ ⟨h.sink, h.input, scope, base, (congrArg Env.pop hr').trans hr, hs, halike⟩
  | error e h => exact .error e h
  | tooDeep limit name pos r => exact .tooDeep limit name pos _ _

end Primitives

end Matches

section Calls

theorem Table.contains_setAll (entries : List (Text × Int32)) (t : Table Int32) (x : Text) :
    (t.setAll entries).contains x = true ↔ x ∈ entries.map Prod.fst ∨ t.contains x = true := by
  induction entries generalizing t with
  | nil => simp [Table.setAll]
  | cons entry entries ih =>
    obtain ⟨name, v⟩ := entry
    rw [Table.setAll, ih, Table.contains_set, List.map_cons, List.mem_cons]
    tauto

theorem contains_callScope {q : Procedure} {args : List Int32}
    (hlen : args.length = q.params.length) (x : Text) :
    (Run.callScope q args).vars.contains x = true ↔ x ∈ q.entry := by
  have hnames : ((q.params.map Variable.name).zip args).map Prod.fst = q.params.map Variable.name :=
    List.map_fst_zip (by rw [List.length_map, hlen])
  rw [Run.callScope, Table.contains_set, Table.contains_setAll, hnames, Procedure.entry,
    List.mem_append, List.mem_singleton]
  simp [Table.contains, or_comm]

variable {p : Program} {g : Region p} {outer : Env} {k : Nat} {known : List Text} {r s : RunState}
  {d : Declaration}

/-- A procedure starts with the same variables in the two readings, whoever calls it. -/
theorem Twins.entry (h : Twins g outer k known r s) (hp : p.StaticallyScoped)
    (hd : d ∈ p.procedures) (hcall : d.procedure.name ∈ g.calls) {args : List Int32}
    (hlen : args.length = d.procedure.params.length) (depth : Nat) :
    Twins (hp.region hd) r.env 0 d.procedure.entry
      { r with env := r.env.push (Run.callScope d.procedure args), depth := depth }
      { s with env := [Run.callScope d.procedure args] } := by
  obtain ⟨scope, base, hr, -, halike⟩ := h.scopes
  have hbound := contains_callScope hlen
  have hhidden : ∀ x, p.Hides g.calls x → r.env.get? x = none := hr ▸ halike.owns.hidden
  have howns : (hp.region hd).Owns r.env (Run.callScope d.procedure args) := by
    refine ⟨fun x hx => ?_, fun x hx => ?_, hr ▸ halike.owns.procs⟩
    · rcases Procedure.mem_entry_or_mem_locals hx with hentry | hlocal
      · exact .inl ((hbound x).mpr hentry)
      · exact .inr (hhidden x ⟨_, hcall, d, hd, .refl, hlocal⟩)
    · have hfree : x ∉ d.procedure.entry := fun hentry =>
        (hp.region hd).apart x (List.mem_append_left _ hentry) hx
      have hnone : (Run.callScope d.procedure args).vars.get? x = none := by
        rw [← hbound x, Table.contains, Option.isSome_iff_ne_none, not_not] at hfree
        exact hfree
      rw [Env.get?_cons, hnone, Option.none_or]
      exact hhidden x (Program.hides_of_call hd hcall hx)
  exact ⟨h.sink, h.input, _, _, rfl, rfl, howns, fun _ => rfl, fun x hx => (hbound x).mpr hx⟩

end Calls

/-- Code with these variables and calls is part of a region. -/
structure Region.Covers {p : Program} (g : Region p) (vars calls : List Text) : Prop where
  vars_subset : vars ⊆ g.vars
  calls_subset : calls ⊆ g.calls

/-- A statement of a region, inside `k` branches and loops. -/
structure Stmt.Fits {p : Program} (g : Region p) (k : Nat) (known : List Text) (st : Stmt) :
    Prop where
  covers : g.Covers st.vars st.calls
  flat : st.declarations = []
  guarded : st.guarded (k != 0) known = true

structure Stmt.FitsAll {p : Program} (g : Region p) (k : Nat) (known : List Text)
    (sts : List Stmt) : Prop where
  covers : g.Covers (Stmt.varsAll sts) (Stmt.callsAll sts)
  flat : Stmt.declarationsAll sts = []
  guarded : Stmt.guardedAll (k != 0) known sts = true

section Fits

variable {p : Program} {g : Region p} {outer : Env} {k : Nat} {known : List Text}
  {r s : RunState} {token : Token} {cond : Expr} {body : Stmt}

theorem Region.Covers.append {vars vars' calls calls' : List Text}
    (h : g.Covers (vars ++ vars') (calls ++ calls')) : g.Covers vars calls ∧ g.Covers vars' calls' := by
  obtain ⟨hvars, hvars'⟩ := List.append_subset.mp h.vars_subset
  obtain ⟨hcalls, hcalls'⟩ := List.append_subset.mp h.calls_subset
  exact ⟨⟨hvars, hcalls⟩, hvars', hcalls'⟩

theorem Stmt.FitsAll.cons {st : Stmt} {sts : List Stmt} (h : Stmt.FitsAll g k known (st :: sts)) :
    st.Fits g k known ∧ Stmt.FitsAll g k (known ++ st.assigned) sts := by
  obtain ⟨hcovers, hflat, hguarded⟩ := h
  rw [Stmt.declarationsAll, List.append_eq_nil_iff] at hflat
  rw [Stmt.guardedAll, Bool.and_eq_true] at hguarded
  have hparts := Region.Covers.append hcovers
  exact ⟨⟨hparts.1, hflat.1, hguarded.1⟩, hparts.2, hflat.2, hguarded.2⟩

theorem Stmt.Fits.loop (h : (Stmt.loop token cond body).Fits g k known) :
    g.Covers cond.vars cond.calls ∧ body.Fits g (k + 1) known := by
  have hparts := Region.Covers.append h.covers
  exact ⟨hparts.1, hparts.2, h.flat, h.guarded⟩

theorem Stmt.Fits.ifThen (h : (Stmt.ifThen token cond body).Fits g k known) :
    g.Covers cond.vars cond.calls ∧ body.Fits g (k + 1) known := by
  have hparts := Region.Covers.append h.covers
  exact ⟨hparts.1, hparts.2, h.flat, h.guarded⟩

theorem Stmt.Fits.ifElse {alternative : Stmt}
    (h : (Stmt.ifElse token cond body alternative).Fits g k known) :
    g.Covers cond.vars cond.calls ∧ body.Fits g (k + 1) known ∧ alternative.Fits g (k + 1) known := by
  obtain ⟨hcovers, hflat, hguarded⟩ := h
  rw [Stmt.declarations, List.append_eq_nil_iff] at hflat
  rw [Stmt.guarded, Bool.and_eq_true] at hguarded
  obtain ⟨hfirst, halternative⟩ := Region.Covers.append hcovers
  have hparts := hfirst.append
  exact ⟨hparts.1, ⟨hparts.2, hflat.1, hguarded.1⟩, halternative, hflat.2, hguarded.2⟩

theorem Stmt.Fits.assign {target : Variable} {value : Expr}
    (h : (Stmt.assign token target value).Fits g k known) :
    g.Covers value.vars value.calls ∧ target.name ∈ g.vars ∧ (k = 0 ∨ target.name ∈ known) := by
  obtain ⟨htarget, hvalue⟩ := List.cons_subset.mp h.covers.vars_subset
  have hguarded := h.guarded
  rw [Stmt.guarded] at hguarded
  exact ⟨⟨hvalue, h.covers.calls_subset⟩, htarget, by simpa using hguarded⟩

theorem Twins.mono {known' : List Text} (h : Twins g outer k known r s) (hsub : known' ⊆ known) :
    Twins g outer k known' r s := by
  obtain ⟨scope, base, hr, hs, halike⟩ := h.scopes
  exact ⟨h.sink, h.input, scope, base, hr, hs, halike.owns, halike.value,
    fun x hx => halike.bound x (hsub hx)⟩

theorem Twins.push (h : Twins g outer k known r s) :
    Twins g outer (k + 1) known r { s with env := s.env.push {} } := by
  obtain ⟨scope, base, hr, hs, halike⟩ := h.scopes
  exact ⟨h.sink, h.input, scope, base, hr, congrArg (Env.push · {}) hs, halike⟩

end Fits

/-- On `n` units of fuel every part of the interpreter does what the lexical reading does. -/
structure Mirrors (p : Program) (depth n : Nat) : Prop where
  eval : ∀ {g : Region p} {outer k known r s} (e : Expr), g.Covers e.vars e.calls →
    Twins g outer k known r s → Matches (fun _ => Twins g outer k known)
      (Run.eval { depth := depth } n e r) (Lexical.eval p.table n e s)
  evalAll : ∀ {g : Region p} {outer k known r s} (es : List Expr),
    g.Covers (Expr.varsAll es) (Expr.callsAll es) →
    Twins g outer k known r s →
      Matches (fun vs r' s' => vs.length = es.length ∧ Twins g outer k known r' s')
        (Run.evalAll { depth := depth } n es r) (Lexical.evalAll p.table n es s)
  invoke : ∀ {g : Region p} {outer k known r s} (token : Token) (name : Text) (args : List Expr),
    g.Covers (Expr.varsAll args) (name :: Expr.callsAll args) →
    Twins g outer k known r s → Matches (fun _ => Twins g outer k known)
      (Run.invoke { depth := depth } n token name args r) (Lexical.invoke p.table n token name args s)
  exec : ∀ {g : Region p} {outer k known r s} (st : Stmt), st.Fits g k known →
    Twins g outer k known r s → Matches (fun _ => Twins g outer k (known ++ st.assigned))
      (Run.exec { depth := depth } n st r) (Lexical.exec p.table n st s)
  execAll : ∀ {g : Region p} {outer k known r s} (sts : List Stmt), Stmt.FitsAll g k known sts →
    Twins g outer k known r s → Matches (fun _ => Twins g outer k (known ++ Stmt.assignedAll sts))
      (Run.execAll { depth := depth } n sts r) (Lexical.execAll p.table n sts s)
  repeatWhile : ∀ {g : Region p} {outer k known r s} (cond : Expr) (body : Stmt),
    g.Covers cond.vars cond.calls → body.Fits g (k + 1) known →
    Twins g outer k known r s → Matches (fun _ => Twins g outer k known)
      (Run.repeatWhile { depth := depth } n cond body r) (Lexical.repeatWhile p.table n cond body s)

namespace Program.StaticallyScoped

variable {p : Program} (hp : p.StaticallyScoped)

include hp in
theorem declarations_eq : p.declarations = p.procedures := by
  have hmain := hp.flat_main
  rw [Program.declarations, Stmt.declarationsAll_toStmt hp.flat]
  cases hst : p.main with
  | none => exact List.append_nil _
  | some st =>
    rw [hst] at hmain
    exact (congrArg (p.procedures ++ ·) hmain).trans (List.append_nil _)

include hp in
theorem exists_declaration {name : Text} {q : Procedure} (h : p.table.get? name = some q) :
    ∃ d ∈ p.procedures, d.procedure = q ∧ d.procedure.name = name := by
  obtain ⟨d, hd, heq⟩ := List.mem_map.mp (Table.mem_of_get? h)
  cases heq
  exact ⟨d, hp.declarations_eq ▸ hd, rfl, rfl⟩

theorem fits_body {d : Declaration} (hd : d ∈ p.procedures) :
    d.procedure.body.Fits (hp.region hd) 0 d.procedure.entry :=
  ⟨⟨List.subset_append_right _ _, List.Subset.refl _⟩, hp.flat d hd, hp.guarded d hd⟩

end Program.StaticallyScoped

namespace Mirrors

variable {p : Program} {depth n : Nat} {g : Region p} {outer : Env} {k : Nat} {known : List Text}
  {r s : RunState}

theorem zero : Mirrors p depth 0 where
  eval _ _ h := .error _ h.sink
  evalAll _ _ h := .error _ h.sink
  invoke _ _ _ _ h := .error _ h.sink
  exec _ _ h := .error _ h.sink
  execAll _ _ h := .error _ h.sink
  repeatWhile _ _ _ _ h := .error _ h.sink

theorem eval_succ (ih : Mirrors p depth n) (e : Expr) (hcovers : g.Covers e.vars e.calls)
    (h : Twins g outer k known r s) : Matches (fun _ => Twins g outer k known)
      (Run.eval { depth := depth } (n + 1) e r) (Lexical.eval p.table (n + 1) e s) := by
  cases e with
  | literal token value tag isBool => exact .ok value h
  | var v => exact .readVariable h (hcovers.vars_subset List.mem_cons_self)
  | binary token op left right =>
    obtain ⟨hleft, hright⟩ := Region.Covers.append hcovers
    refine .bind (ih.eval left hleft h) fun l r s h => .bind (ih.eval right hright h) fun v r s h => ?_
    cases op.apply l v with
    | ok value => exact .ok value h
    | error e => exact .error _ h.sink
  | call token name args => exact ih.invoke token name args hcovers h
  | missing => exact .error _ h.sink

theorem evalAll_succ (ih : Mirrors p depth n) (es : List Expr)
    (hcovers : g.Covers (Expr.varsAll es) (Expr.callsAll es)) (h : Twins g outer k known r s) :
    Matches (fun vs r' s' => vs.length = es.length ∧ Twins g outer k known r' s')
      (Run.evalAll { depth := depth } (n + 1) es r) (Lexical.evalAll p.table (n + 1) es s) := by
  cases es with
  | nil => exact .ok [] ⟨rfl, h⟩
  | cons e es =>
    obtain ⟨hfirst, hrest⟩ := Region.Covers.append hcovers
    refine .bind (ih.eval e hfirst h) fun v r s h => .bind (ih.evalAll es hrest h) fun vs r s h => ?_
    exact .ok (v :: vs) ⟨congrArg (· + 1) h.1, h.2⟩

theorem invoke_succ (hp : p.StaticallyScoped) (ih : Mirrors p depth n) (token : Token)
    (name : Text) (args : List Expr)
    (hcovers : g.Covers (Expr.varsAll args) (name :: Expr.callsAll args))
    (h : Twins g outer k known r s) : Matches (fun _ => Twins g outer k known)
      (Run.invoke { depth := depth } (n + 1) token name args r)
      (Lexical.invoke p.table (n + 1) token name args s) := by
  have hprocs : r.env.getProc? name = p.table.get? name := by
    obtain ⟨scope, base, hr, -, halike⟩ := h.scopes
    rw [hr]
    exact halike.owns.procs name
  obtain ⟨hcall, hargs⟩ := List.cons_subset.mp hcovers.calls_subset
  unfold Run.invoke Lexical.invoke
  rw [Run.get_bind, hprocs]
  cases hq : p.table.get? name with
  | none => exact .error _ h.sink
  | some q =>
    obtain ⟨d, hd, rfl, rfl⟩ := hp.exists_declaration hq
    dsimp only
    by_cases harity : args.length ≠ d.procedure.params.length
    · rw [if_pos harity, if_pos harity]
      exact .error _ h.sink
    · rw [if_neg harity, if_neg harity]
      refine .bind (ih.evalAll args ⟨hcovers.vars_subset, hargs⟩ h) fun vs r s h => ?_
      obtain ⟨hlen, h⟩ := h
      rw [Run.get_bind]
      by_cases hdepth : depth ≤ r.depth
      · rw [if_pos hdepth]
        exact .tooDeep _ _ _ _ _
      · rw [if_neg hdepth]
        have hentry := h.entry hp hd hcall (hlen.trans (not_not.mp harity)) (r.depth + 1)
        have hname : d.procedure.name ∈ (hp.region hd).vars :=
          List.mem_append_left _ (List.mem_append_right _ (List.mem_singleton.mpr rfl))
        exact .within h hname (ih.exec d.procedure.body (hp.fits_body hd) hentry)

theorem branch (ih : Mirrors p depth n) {body : Stmt} (hbody : body.Fits g (k + 1) known)
    (h : Twins g outer k known r s) : Matches (fun _ => Twins g outer k known)
      (Run.exec { depth := depth } n body r)
      (Lexical.inScope (Lexical.exec p.table n body) s) :=
  .inScope ((ih.exec body hbody h.push).mono fun _ _ _ h => h.mono (List.subset_append_left _ _))

theorem exec_succ (ih : Mirrors p depth n) (st : Stmt) (hfits : st.Fits g k known)
    (h : Twins g outer k known r s) : Matches (fun _ => Twins g outer k (known ++ st.assigned))
      (Run.exec { depth := depth } (n + 1) st r) (Lexical.exec p.table (n + 1) st s) := by
  -- without a limit on steps, counting one has no effect on the rest
  have h : Twins g outer k known { r with steps := r.steps + 1 } s := ⟨h.sink, h.input, h.scopes⟩
  have hsame : ∀ r s, Twins g outer k known r s → Twins g outer k (known ++ []) r s :=
    fun r s h => (List.append_nil known).symm ▸ h
  cases st with
  | assign token target value =>
    obtain ⟨hvalue, htarget, hk⟩ := hfits.assign
    exact .bind (ih.eval value hvalue h) fun v r s h => .assign h htarget hk v
  | block token body => exact ih.execAll body ⟨hfits.covers, hfits.flat, hfits.guarded⟩ h
  | ifThen token cond body =>
    obtain ⟨hcond, hbody⟩ := hfits.ifThen
    refine .bind (ih.eval cond hcond h) fun c r s h => ?_
    by_cases hc : Word.isTrue c = true
    · rw [if_pos hc, if_pos hc]
      exact (ih.branch hbody h).mono fun _ => hsame
    · rw [if_neg hc, if_neg hc]
      exact .ok () (hsame _ _ h)
  | ifElse token cond body alternative =>
    obtain ⟨hcond, hbody, halternative⟩ := hfits.ifElse
    refine .bind (ih.eval cond hcond h) fun c r s h => ?_
    by_cases hc : Word.isTrue c = true
    · rw [if_pos hc, if_pos hc]
      exact (ih.branch hbody h).mono fun _ => hsame
    · rw [if_neg hc, if_neg hc]
      exact (ih.branch halternative h).mono fun _ => hsame
  | loop token cond body =>
    obtain ⟨hcond, hbody⟩ := hfits.loop
    exact (ih.repeatWhile cond body hcond hbody h).mono fun _ => hsame
  | writeLn token value =>
    refine .bind (ih.eval value ⟨hfits.covers.vars_subset, hfits.covers.calls_subset⟩ h) ?_
    exact fun v r s h => (Matches.writeLine h v).mono fun _ => hsame
  | readLn token target =>
    have hguarded := hfits.guarded
    rw [Stmt.guarded] at hguarded
    have hk : k = 0 ∨ target.name ∈ known := by simpa using hguarded
    have htarget := hfits.covers.vars_subset (List.mem_singleton.mpr rfl)
    exact .bind (.readValue h token.pos) fun v r s h => .assign h htarget hk v
  | call token name args =>
    refine .bind (ih.invoke token name args ⟨hfits.covers.vars_subset, hfits.covers.calls_subset⟩ h) ?_
    exact fun v r s h => .ok () (hsame _ _ h)
  | declare token name params body => exact absurd hfits.flat (List.cons_ne_nil _ _)
  | missing => exact .error _ h.sink

theorem execAll_succ (ih : Mirrors p depth n) (sts : List Stmt) (hfits : Stmt.FitsAll g k known sts)
    (h : Twins g outer k known r s) :
    Matches (fun _ => Twins g outer k (known ++ Stmt.assignedAll sts))
      (Run.execAll { depth := depth } (n + 1) sts r) (Lexical.execAll p.table (n + 1) sts s) := by
  cases sts with
  | nil => exact .ok () ((List.append_nil known).symm ▸ h)
  | cons st sts =>
    obtain ⟨hfirst, hrest⟩ := hfits.cons
    rw [Stmt.assignedAll, ← List.append_assoc]
    exact .bind (ih.exec st hfirst h) fun _ r s h => ih.execAll sts hrest h

theorem repeatWhile_succ (ih : Mirrors p depth n) (cond : Expr) (body : Stmt)
    (hcond : g.Covers cond.vars cond.calls) (hbody : body.Fits g (k + 1) known)
    (h : Twins g outer k known r s) : Matches (fun _ => Twins g outer k known)
      (Run.repeatWhile { depth := depth } (n + 1) cond body r)
      (Lexical.repeatWhile p.table (n + 1) cond body s) := by
  refine .bind (ih.eval cond hcond h) fun c r s h => ?_
  by_cases hc : Word.isTrue c = true
  · rw [if_pos hc, if_pos hc]
    exact .bind (ih.branch hbody h) fun _ r s h => ih.repeatWhile cond body hcond hbody h
  · rw [if_neg hc, if_neg hc]
    exact .ok () h

theorem of_staticallyScoped (hp : p.StaticallyScoped) (depth n : Nat) : Mirrors p depth n := by
  induction n with
  | zero => exact zero
  | succ n ih =>
    exact ⟨ih.eval_succ, ih.evalAll_succ, ih.invoke_succ hp, ih.exec_succ, ih.execAll_succ,
      ih.repeatWhile_succ⟩

end Mirrors

section Programs

variable {p : Program} {r s : RunState}

/-- Executing declarations binds their names in the interpreter's scope and has no other effect. -/
theorem matches_declarations (procs : Table Procedure) (depth n : Nat) (ds : List Declaration)
    (t : Table Procedure) (hsink : r.sink = s.sink) (hinput : r.input = s.input)
    (hnodup : (t.names ++ ds.map fun d => d.procedure.name).Nodup)
    (hr : r.env = [{ procs := t }]) (hs : s.env = .root) :
    Matches (fun _ r' s' => r'.sink = s'.sink ∧ r'.input = s'.input ∧ s'.env = .root ∧
        r'.env = [{ procs := t ++ ds.map fun d => (d.procedure.name, d.procedure) }])
      (Run.execAll { depth := depth } n (ds.map Declaration.toStmt) r)
      (Lexical.execAll procs n (ds.map Declaration.toStmt) s) := by
  induction ds generalizing n t r with
  | nil =>
    cases n with
    | zero => exact .error _ hsink
    | succ n => exact .ok () ⟨hsink, hinput, hs, hr.trans (by rw [List.map_nil, List.append_nil])⟩
  | cons d ds ih =>
    cases n with
    | zero => exact .error _ hsink
    | succ n =>
      cases n with
      | zero => exact .error _ hsink
      | succ n =>
        rw [List.map_cons, List.append_cons] at hnodup
        have hnew : t.get? d.procedure.name = none :=
          Table.get?_eq_none_iff.mpr fun hmem =>
            List.disjoint_of_nodup_append (List.nodup_append.mp hnodup).1 hmem
              (List.mem_singleton.mpr rfl)
        have henv : r.env.setProc d.procedure.name d.procedure =
            [{ procs := t ++ [(d.procedure.name, d.procedure)] }] := by
          rw [hr, Env.setProc, Table.set_of_get?_eq_none hnew]
        have hrest := ih (n + 1) (t ++ [(d.procedure.name, d.procedure)])
          (r := { r with steps := r.steps + 1, env := r.env.setProc d.procedure.name d.procedure })
          hsink hinput (by rw [Table.names, List.map_append]; exact hnodup) henv
        rw [List.map_cons, List.map_cons, List.append_cons]
        exact hrest

theorem twins_main (hp : p.StaticallyScoped) (hsink : r.sink = s.sink) (hinput : r.input = s.input)
    (hr : r.env = [{ procs := p.table }]) (hs : s.env = .root) :
    Twins hp.mainRegion [] 0 [] r s := by
  refine ⟨hsink, hinput, _, {}, hr, hs, ⟨fun _ _ => .inr rfl, fun _ _ => rfl, fun name => ?_⟩,
    fun _ => rfl, fun x hx => absurd hx List.not_mem_nil⟩
  rw [Env.getProc?]
  cases p.table.get? name with
  | none => rfl
  | some q => rfl

/-- The interpreter and the lexical reading of a program go the same way. -/
theorem matches_program (hp : p.StaticallyScoped) (hnodup : p.table.names.Nodup) (depth n : Nat) :
    Matches (fun _ r' s' => r'.sink = s'.sink) (Run.program { depth := depth } n p r)
      (Lexical.program n p r) := by
  have htable : p.table = p.procedures.map fun d => (d.procedure.name, d.procedure) :=
    congrArg (List.map _) hp.declarations_eq
  have hnames : p.table.names = p.procedures.map fun d => d.procedure.name := by
    rw [htable, Table.names, List.map_map]
    rfl
  rw [StackMachine.lexicalProgram_eq]
  change Matches _ (Run.statements { depth := depth } n p
    { r with env := .root, steps := 0, depth := 0 }) _
  refine .bind (matches_declarations p.table depth n p.procedures [] rfl rfl (hnames ▸ hnodup) rfl
    rfl) fun _ r s h => ?_
  obtain ⟨hsink, hinput, hs, hr⟩ := h
  have htwins := twins_main hp hsink hinput (hr.trans (by rw [List.nil_append, htable])) hs
  have hflat := hp.flat_main
  have hguarded := hp.guarded_main
  cases hst : p.main with
  | none => exact .ok () hsink
  | some st =>
    rw [hst] at hflat hguarded
    have hcovers : hp.mainRegion.Covers st.vars st.calls := by
      constructor <;> simp [Program.StaticallyScoped.mainRegion, hst]
    have hfits : st.Fits hp.mainRegion 0 [] := ⟨hcovers, hflat, hguarded⟩
    exact ((Mirrors.of_staticallyScoped hp depth n).exec st hfits htwins).mono fun _ _ _ h => h.sink

end Programs

theorem Report.ofRun_error (e : RunError) {r s : RunState} (h : r.sink = s.sink) :
    Report.ofRun (.error e r) = .ofRun (.error e s) := by
  cases e with
  | stopped cause pos =>
    cases cause with
    | operator error => cases error <;> simp only [Report.ofRun, h]
    | _ => simp only [Report.ofRun, h]
  | output reason => simp only [Report.ofRun, h]
  | outOfFuel => simp only [Report.ofRun, h]

theorem Matches.ofRun_eq {result result' : EStateM.Result RunError RunState Unit}
    (h : Matches (fun _ r s => r.sink = s.sink) result result')
    (hdepth : ∀ limit name pos r, result ≠ .error (.stopped (.depthLimit limit name) pos) r) :
    Report.ofRun result = .ofRun result' := by
  cases h with
  | ok a h => simp only [Report.ofRun, h]
  | error e h => exact Report.ofRun_error e h
  | tooDeep limit name pos r => exact absurd rfl (hdepth limit name pos r)

theorem Report.exists_ok_of_exited {result : EStateM.Result RunError RunState Unit}
    (h : (Report.ofRun result).outcome = .exited) : ∃ r, result = .ok () r := by
  cases result with
  | ok a r => exact ⟨r, rfl⟩
  | error e r =>
    unfold Report.ofRun at h
    split at h
    · contradiction
    all_goals cases h

/-- A run that exits with some fuel does not stop for any reason with less or more. -/
theorem Run.program_ne_stopped {limits : Limits} {m : Nat} {p : Program} {r : RunState}
    (h : (Report.ofRun (Run.program limits m p r)).outcome = .exited) (n : Nat) (cause : RunCause)
    (pos : Position) (r' : RunState) : Run.program limits n p r ≠ .error (.stopped cause pos) r' := by
  intro hstopped
  obtain ⟨r'', hok⟩ := Report.exists_ok_of_exited h
  have heq : Run.program limits n p r = Run.program limits m p r := by
    refine Run.program_eq_of_done (fun t ht => ?_) (fun t ht => ?_)
    · rw [hstopped] at ht
      cases ht
    · rw [hok] at ht
      cases ht
  rw [hstopped, hok] at heq
  cases heq

namespace Assembly

open StackMachine

/-- The code of a statically scoped program behaves as the interpreter does if that does not meet its
limit on calls, whatever input either is given, and it never fails. -/
theorem sameBehaviour_interpreted {source : Text} {p : Program} {code : Code}
    (hparse : Program.ofText source = .ok p) (hcompiles : Compiles p)
    (hcode : Code.ofText (generate p).builder.render = .ok code)
    (hsmall : code.instrs.size < 2 ^ 31) (hscoped : p.StaticallyScoped) (depth : Nat)
    (input given : Option Input)
    (hdepth : ∀ n limit name pos r, Run.program { depth := depth } n p { input := given } ≠
      .error (.stopped (.depthLimit limit name) pos) r)
    (hstack : ∀ n, Machine.stackUse code n (.start code input {}) < 2 ^ 32) :
    SameBehaviour (fun n => .ofRun (Run.program { depth := depth } n p { input := given }))
      (fun n => .ofMachine ((Machine.start code input {}).run code none n)) ∧
    ∀ n, (Report.ofMachine ((Machine.start code input {}).run code none n)).outcome ≠ .failed := by
  have hbuilds := hcompiles.builds hparse hcode hsmall
  have hrun := ofMachine_run_eq_report hbuilds input hstack
  have hlexical : ∀ n, Report.ofRun (Run.program { depth := depth } n p { input := given }) =
      .ofRun (Lexical.program n p { input := given }) := fun n =>
    (matches_program hscoped hbuilds.supported.nodup depth n).ofRun_eq (hdepth n)
  refine ⟨?_, fun n => by rw [hrun n]; exact report_ne_failed hbuilds (.refl _) n⟩
  rw [funext hlexical, funext hrun]
  exact sameBehaviour_lexical hbuilds rfl rfl

/-- A program in which `sq` has a local and `sum`, which calls it, is recursive. -/
def squaresSource : Text :=
  "PROCEDURE sq(n); BEGIN t := n * n; sq := t; END;
  PROCEDURE sum(n); IF n THEN sum := sq(n) + sum(n - 1);
  WRITELN(sum(1));"

theorem squares_run_as_interpreted :
    ∃ p code, Program.ofText squaresSource = .ok p ∧ Compiles p ∧
      Code.ofText (generate p).builder.render = .ok code ∧ p.StaticallyScoped ∧
      (∀ n, Machine.stackUse code n (.start code none {}) < 2 ^ 32) ∧
      ∃ n, Report.ofMachine ((Machine.start code none {}).run code none n) =
        ⟨.exited, Text.bytes "1\n"⟩ := by
  obtain ⟨p, hparse, hcheck⟩ : ∃ p, Program.ofText squaresSource = .ok p ∧
      ((generate p).error = none && p.scopesStatically &&
        Report.ofRun (Run.program { depth := 9 } 99 p {}) = ⟨.exited, Text.bytes "1\n"⟩ &&
        Code.passes (generate p).builder.render fun code =>
          code.instrs.size < 2 ^ 31 && Machine.haltsWithin code 999 0 (.start code none {})) = true :=
    Program.exists_of_passes (by decide +kernel)
  simp only [Bool.and_eq_true, decide_eq_true_eq] at hcheck
  obtain ⟨⟨⟨hcompiles, htest⟩, hreport⟩, hpasses⟩ := hcheck
  obtain ⟨code, hcode, hrun⟩ := Code.exists_of_passes hpasses
  simp only [Bool.and_eq_true, decide_eq_true_eq] at hrun
  have hscoped := Program.staticallyScoped_of_test htest
  have hstack : ∀ n, Machine.stackUse code n (.start code none {}) < 2 ^ 32 := fun n => by
    simpa using Machine.stackUse_lt_of_haltsWithin hrun.2 n
  have hdepth := Run.program_ne_stopped (congrArg Report.outcome hreport)
  have hsame := sameBehaviour_interpreted hparse hcompiles hcode hrun.1 hscoped 9 none none
    (fun n limit name => hdepth n (.depthLimit limit name)) hstack
  exact ⟨p, code, hparse, hcompiles, hcode, hscoped, hstack,
    (hsame.1.ends _ (by decide)).mp ⟨99, hreport⟩⟩

end Assembly

end MiniPascal
