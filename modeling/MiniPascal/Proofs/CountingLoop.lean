import MiniPascal.Proofs.Coupling
import MiniPascal.Proofs.Scoping

/-! How often loops go round. The rounds of a WHILE loop are a relation on states, and a loop that goes
round forever is one that needs more fuel than any amount. A counting loop between two constants whose
body succeeds and leaves the counter alone goes through the numbers in turn and stops behind the last
one, unless there is no number behind it. -/

namespace MiniPascal

namespace Run

variable {limits : Limits} {cond : Expr} {body : Stmt} {k n : Nat} {s t u : RunState} {v : Int32}

/-- A WHILE loop that tests its condition in the first state goes round `k` times and then tests it
again in the second. -/
inductive Rounds (limits : Limits) (cond : Expr) (body : Stmt) (s : RunState) :
    Nat → RunState → Prop
  | start : Rounds limits cond body s 0 s
  | round {k n : Nat} {t u w : RunState} {v : Int32} (h : Rounds limits cond body s k t)
      (hcond : eval limits n cond t = .ok v u) (hv : Word.isTrue v = true)
      (hbody : exec limits n body u = .ok () w) : Rounds limits cond body s (k + 1) w

theorem repeatWhile_true (hcond : eval limits n cond s = .ok v t) (hv : Word.isTrue v = true)
    (hbody : exec limits n body t = .ok () u) :
    repeatWhile limits (n + 1) cond body s = repeatWhile limits n cond body u := by
  rw [repeatWhile, bind_of_ok hcond, if_pos hv, bind_of_ok hbody]

theorem repeatWhile_false (hcond : eval limits n cond s = .ok v t) (hv : Word.isTrue v = false) :
    repeatWhile limits (n + 1) cond body s = .ok () t := by
  rw [repeatWhile, bind_of_ok hcond, hv]
  rfl

/-- After its rounds a loop goes on from the state that they lead to. -/
theorem Rounds.run (h : Rounds limits cond body s k u) : ∃ N, ∀ n, N ≤ n →
    repeatWhile limits (n + k) cond body s = repeatWhile limits n cond body u ∧
      Moment.Reaches limits ⟨n + k, .repeatWhile cond body, s⟩ ⟨n, .repeatWhile cond body, u⟩ := by
  induction h with
  | start => exact ⟨0, fun n _ => ⟨rfl, .refl⟩⟩
  | @round k l t u w v _ hcond hv hbody ih =>
    obtain ⟨N, hN⟩ := ih
    refine ⟨max N l, fun n hn => ?_⟩
    obtain ⟨heq, hreach⟩ := hN (n + 1) (by omega)
    have hcond' := Approximates.ok_of_le (eval_mono limits cond t) hcond (by omega : l ≤ n)
    have hbody' := Approximates.ok_of_le (exec_mono limits body u) hbody (by omega : l ≤ n)
    rw [show n + (k + 1) = n + 1 + k by omega, heq]
    exact ⟨repeatWhile_true hcond' hv hbody', hreach.tail (.again hcond' hv hbody')⟩

/-- A loop that can always go round once more uses up any fuel. -/
theorem repeatWhile_outOfFuel {P : RunState → Prop}
    (h : ∀ s, P s → ∃ n v t u, eval limits n cond s = .ok v t ∧ Word.isTrue v = true ∧
      exec limits n body t = .ok () u ∧ P u) (hs : P s) (n : Nat) :
    ∃ t, repeatWhile limits n cond body s = .error .outOfFuel t := by
  induction n generalizing s with
  | zero => exact ⟨s, rfl⟩
  | succ n ih =>
    obtain ⟨l, v, t, u, hcond, hv, hbody, hu⟩ := h s hs
    rw [repeatWhile]
    -- the round may need more fuel than is left, and then it is the round that runs out of it
    rcases Approximates.ok_or_short (eval_mono limits cond s) hcond n with hcond | ⟨w, hcond⟩
    · rw [bind_of_ok hcond, if_pos hv]
      rcases Approximates.ok_or_short (exec_mono limits body t) hbody n with hbody | ⟨w, hbody⟩
      · rw [bind_of_ok hbody]
        exact ih hu
      · exact ⟨w, bind_of_error hbody _⟩
    · exact ⟨w, bind_of_error hcond _⟩

end Run

/-- An expression that stands for a number. -/
def Expr.IsConstant (e : Expr) (a : Int32) : Prop :=
  ∃ token tag isBool, e = .literal token a tag isBool

section ForLoop

-- the parts of a counting loop: its test, its step to the next number, and a round
variable (token : Token) (v : Variable) (last : Expr) (body : Stmt)

def Stmt.forTest : Expr := .binary { kind := .operator, literal := "<=" } .le (.var v) last

def Stmt.forNext : Stmt :=
  .assign token v (.binary { kind := .operator, literal := "+" } .add (.var v)
    (.literal { kind := .number, literal := "1" } 1 .int false))

def Stmt.forLap : Stmt := .block token [body, forNext token v]

theorem Stmt.forLoop_eq (first : Expr) : Stmt.forLoop token v first last body =
    .block token [.assign token v first,
      .loop token (forTest v last) (forLap token v body)] := rfl

end ForLoop

namespace Run

/-- The execution of the body in `r` is the one in round `k`, counted from zero, of a counting loop
that is executed in `s`. -/
inductive ForRound (limits : Limits) (token : Token) (v : Variable) (first last : Expr) (body : Stmt)
    (s : RunState) (k : Nat) (r : RunState) : Prop
  | intro {n : Nat} {s₁ s₂ s₃ t u : RunState} {w : Int32}
      (hblock : step limits token.pos s = .ok () s₁)
      (hfirst : exec limits n (.assign token v first) s₁ = .ok () s₂)
      (hloop : step limits token.pos s₂ = .ok () s₃)
      (hrounds : Rounds limits (Stmt.forTest v last) (Stmt.forLap token v body) s₃ k t)
      (htest : eval limits n (Stmt.forTest v last) t = .ok w u) (hw : Word.isTrue w = true)
      (hlap : step limits token.pos u = .ok () r)

section Unique

variable {limits : Limits} {k : Nat} {s : RunState}

theorem Rounds.unique {cond : Expr} {body : Stmt} {t t' : RunState}
    (h : Rounds limits cond body s k t) (h' : Rounds limits cond body s k t') : t = t' := by
  induction h generalizing t' with
  | start =>
    cases h' with
    | start => rfl
  | @round k n t u w v h hcond hv hbody ih =>
    cases h' with
    | @round _ _ _ u' _ _ h' hcond' hv' hbody' =>
      cases ih h'
      obtain ⟨-, rfl⟩ := Approximates.ok_unique (eval_mono limits cond t) hcond hcond'
      exact (Approximates.ok_unique (exec_mono limits body u) hbody hbody').2

variable {token : Token} {v : Variable} {first last : Expr} {body : Stmt} {r r' : RunState}

theorem ForRound.unique (h : ForRound limits token v first last body s k r)
    (h' : ForRound limits token v first last body s k r') : r = r' := by
  obtain ⟨hblock, hfirst, hloop, hrounds, htest, -, hlap⟩ := h
  obtain ⟨hblock', hfirst', hloop', hrounds', htest', -, hlap'⟩ := h'
  cases hblock.symm.trans hblock'
  obtain ⟨-, rfl⟩ := Approximates.ok_unique (exec_mono limits _ _) hfirst hfirst'
  cases hloop.symm.trans hloop'
  cases hrounds.unique hrounds'
  obtain ⟨-, rfl⟩ := Approximates.ok_unique (eval_mono limits _ _) htest htest'
  cases hlap.symm.trans hlap'
  rfl

/-- Every round of a counting loop is a moment of its execution. -/
theorem ForRound.reaches (h : ForRound limits token v first last body s k r) : ∃ n m,
    Moment.Reaches limits ⟨n, .exec (.forLoop token v first last body), s⟩
      ⟨m, .exec body, r⟩ := by
  obtain @⟨l, s₁, s₂, s₃, t, u, w, hblock, hfirst, hloop, hrounds, htest, hw, hlap⟩ := h
  obtain ⟨N, hN⟩ := hrounds.run
  obtain ⟨n, hn⟩ : ∃ n, n = max N l := ⟨_, rfl⟩
  have hfirst' := Approximates.ok_of_le (exec_mono limits _ _) hfirst
    (by omega : l ≤ n + 3 + k + 2)
  have htest' := Approximates.ok_of_le (eval_mono limits _ _) htest (by omega : l ≤ n + 2)
  refine ⟨n + 3 + k + 4, n, .head (.exec hblock .block) ?_⟩
  refine .head (.statements hfirst') (.head .statement (.head (.exec hloop .loop) ?_))
  refine (hN (n + 3) (by omega)).2.trans (.head (.round htest' hw) ?_)
  exact .head (.exec hlap .block) (.single .statement)

end Unique

section Counting

variable {limits : Limits} {token : Token} {v : Variable} {body : Stmt} {s t : RunState}
  {a b x : Int32} {last : Expr}

theorem eval_var (n : Nat) (h : s.env.get? v.name = some x) :
    eval limits (n + 1) (.var v) s = .ok x s := by
  rw [eval, readVariable, get_bind, h]
  rfl

theorem eval_binary {op : Operator} {left right : Expr} {n : Nat} {x y z : Int32}
    (hleft : eval limits n left s = .ok x s) (hright : eval limits n right s = .ok y s)
    (hop : op.apply x y = .ok z) : eval limits (n + 1) (.binary token op left right) s = .ok z s := by
  rw [eval, bind_of_ok hleft, bind_of_ok hright, hop]
  rfl

theorem eval_constant {e : Expr} (n : Nat) (h : e.IsConstant a) :
    eval limits (n + 1) e s = .ok a s := by
  obtain ⟨_, _, _, rfl⟩ := h
  rfl

theorem eval_forTest (hlast : last.IsConstant b) (n : Nat) (h : s.env.get? v.name = some x) :
    eval limits (n + 2) (Stmt.forTest v last) s = .ok (Word.ofBool (x ≤ b)) s :=
  eval_binary (eval_var n h) (eval_constant n hlast) rfl

theorem isTrue_ofBool (c : Bool) : Word.isTrue (Word.ofBool c) = c := by
  cases c <;> rfl

theorem exec_assign {value : Expr} {n : Nat} (hsteps : limits.steps = none)
    (hvalue : eval limits n value { s with steps := s.steps + 1 } =
      .ok x { s with steps := s.steps + 1 }) :
    exec limits (n + 1) (.assign token v value) s =
      .ok () { s with env := s.env.set v.name x, steps := s.steps + 1 } := by
  rw [exec, bind_of_ok (step_of_none hsteps _)]
  exact bind_of_ok hvalue _

theorem exec_forNext (hsteps : limits.steps = none) (n : Nat) (h : s.env.get? v.name = some x) :
    exec limits (n + 3) (Stmt.forNext token v) s =
      .ok () { s with env := s.env.set v.name (x + 1), steps := s.steps + 1 } :=
  exec_assign hsteps (eval_binary (eval_var n h) rfl rfl)

/-- A round in which the body leaves the counter alone makes it one more. -/
theorem exec_forLap (hsteps : limits.steps = none) {n : Nat}
    (hbody : exec limits (n + 4) body { s with steps := s.steps + 1 } = .ok () t)
    (h : t.env.get? v.name = some x) :
    exec limits (n + 6) (Stmt.forLap token v body) s =
      .ok () { t with env := t.env.set v.name (x + 1), steps := t.steps + 1 } := by
  have hnext : exec limits (n + 3) (Stmt.forNext token v) t =
      .ok () { t with env := t.env.set v.name (x + 1), steps := t.steps + 1 } :=
    exec_forNext hsteps n h
  rw [Stmt.forLap, exec, bind_of_ok (step_of_none hsteps _)]
  change execAll limits (n + 5) [body, Stmt.forNext token v] _ = _
  rw [execAll, bind_of_ok hbody, execAll, bind_of_ok hnext]
  rfl

end Counting

end Run

/-- The state in which a counting loop makes its first test. -/
def RunState.counting (s : RunState) (v : Variable) (a : Int32) : RunState :=
  { s with env := s.env.set v.name a, steps := s.steps + 3 }

/-- A counting loop from `a` to `b` that is executed in `s` without a limit on steps. In every round
its body succeeds and leaves the counter alone. -/
structure Counts (limits : Limits) (token : Token) (v : Variable) (first last : Expr) (body : Stmt)
    (s : RunState) (a b : Int32) : Prop where
  steps : limits.steps = none
  start : first.IsConstant a
  bound : last.IsConstant b
  keeps : ∀ k r, Run.ForRound limits token v first last body s k r →
    ∃ n t, Run.exec limits n body r = .ok () t ∧ t.env.get? v.name = r.env.get? v.name

namespace Counts

open Run

variable {limits : Limits} {token : Token} {v : Variable} {first last : Expr} {body : Stmt}
  {s t r : RunState} {a b x : Int32} {k : Nat}

theorem exec_first (h : Counts limits token v first last body s a b) (n : Nat) :
    exec limits (n + 2) (.assign token v first) { s with steps := s.steps + 1 } =
      .ok () { s with env := s.env.set v.name a, steps := s.steps + 2 } :=
  exec_assign h.steps (eval_constant n h.start)

theorem exec_forLoop (h : Counts limits token v first last body s a b) (n : Nat) :
    exec limits (n + 4) (.forLoop token v first last body) s =
      repeatWhile limits n (Stmt.forTest v last) (Stmt.forLap token v body) (s.counting v a) := by
  rw [Stmt.forLoop_eq, exec, bind_of_ok (step_of_none h.steps _)]
  rw [execAll, bind_of_ok (h.exec_first n), execAll]
  change (exec limits (n + 1) _ >>= fun _ => pure ()) _ = _
  rw [bind_pure_unit, exec, bind_of_ok (step_of_none h.steps _)]
  rfl

theorem forRound_iff (h : Counts limits token v first last body s a b) :
    ForRound limits token v first last body s k r ↔
      ∃ n t u w, Rounds limits (Stmt.forTest v last) (Stmt.forLap token v body)
        (s.counting v a) k t ∧ eval limits n (Stmt.forTest v last) t = .ok w u ∧
        Word.isTrue w = true ∧ r = { u with steps := u.steps + 1 } := by
  constructor
  · rintro ⟨hblock, hinit, hloop, hrounds, htest, hw, hlap⟩
    cases (step_of_none h.steps _).symm.trans hblock
    obtain ⟨-, rfl⟩ := Approximates.ok_unique (exec_mono limits _ _) (h.exec_first 0) hinit
    cases (step_of_none h.steps _).symm.trans hloop
    cases (step_of_none h.steps _).symm.trans hlap
    exact ⟨_, _, _, _, hrounds, htest, hw, rfl⟩
  · rintro ⟨n, t, u, w, hrounds, htest, hw, rfl⟩
    exact ⟨step_of_none h.steps _, h.exec_first n, step_of_none h.steps _, hrounds,
      Approximates.ok_of_le (eval_mono limits _ _) htest (Nat.le_add_right n 2), hw,
      step_of_none h.steps _⟩

/-- At a number that is not behind the last one the loop goes round once more. -/
theorem goes_round (h : Counts limits token v first last body s a b)
    (hrounds : Rounds limits (Stmt.forTest v last) (Stmt.forLap token v body) (s.counting v a) k t)
    (hx : t.env.get? v.name = some x) (hle : x ≤ b) : ∃ n u,
      eval limits n (Stmt.forTest v last) t = .ok 1 t ∧
      exec limits n (Stmt.forLap token v body) t = .ok () u ∧
      u.env.get? v.name = some (x + 1) := by
  have htest (n : Nat) : eval limits (n + 2) (Stmt.forTest v last) t = .ok 1 t := by
    rw [eval_forTest h.bound n hx, decide_eq_true hle]
    rfl
  obtain ⟨n, u, hbody, hkept⟩ := h.keeps k _ (h.forRound_iff.mpr
    ⟨2, t, t, 1, hrounds, htest 0, rfl, rfl⟩)
  have hbody' := Approximates.ok_of_le (exec_mono limits body _) hbody (Nat.le_add_right n 4)
  have hlap : exec limits (n + 6) (Stmt.forLap token v body) t = _ :=
    exec_forLap h.steps hbody' (hkept.trans hx)
  refine ⟨n + 6, _, htest (n + 4), hlap, ?_⟩
  rw [Env.get?_set, if_pos rfl]

theorem counter_succ (a : Int32) (k : Nat) :
    Int32.ofInt (a.toInt + k) + 1 = Int32.ofInt (a.toInt + (k + 1 : Nat)) := by
  rw [Nat.cast_succ, ← add_assoc, Int32.ofInt_add _ 1]
  rfl

/-- After `k` rounds the counter has the `k`-th number, and none before it was behind the last one. -/
theorem counter (h : Counts limits token v first last body s a b)
    (hrounds : Rounds limits (Stmt.forTest v last) (Stmt.forLap token v body) (s.counting v a) k t) :
    t.env.get? v.name = some (Int32.ofInt (a.toInt + k)) ∧
      ∀ j < k, Int32.ofInt (a.toInt + j) ≤ b := by
  induction hrounds with
  | start =>
    rw [Nat.cast_zero, add_zero, Int32.ofInt_toInt, RunState.counting, Env.get?_set, if_pos rfl]
    exact ⟨rfl, fun j hj => absurd hj (Nat.not_lt_zero j)⟩
  | @round k n t u w c hrounds htest hc hlap ih =>
    obtain ⟨hx, hbefore⟩ := ih
    obtain ⟨rfl, rfl⟩ := Approximates.ok_unique (eval_mono limits _ _)
      (eval_forTest h.bound 0 hx) htest
    rw [isTrue_ofBool, decide_eq_true_iff] at hc
    -- the round that the body's success promises is this one, since results do not depend on the fuel
    obtain ⟨n', w', -, hlap', hx'⟩ := h.goes_round hrounds hx hc
    obtain ⟨-, rfl⟩ := Approximates.ok_unique (exec_mono limits _ _) hlap' hlap
    rw [hx', counter_succ]
    refine ⟨rfl, fun j hj => ?_⟩
    rcases Nat.lt_succ_iff_lt_or_eq.mp hj with hj | rfl
    · exact hbefore j hj
    · exact hc

theorem exists_rounds (h : Counts limits token v first last body s a b)
    (hall : ∀ j < k, Int32.ofInt (a.toInt + j) ≤ b) : ∃ t,
      Rounds limits (Stmt.forTest v last) (Stmt.forLap token v body) (s.counting v a) k t := by
  induction k with
  | zero => exact ⟨_, .start⟩
  | succ k ih =>
    obtain ⟨t, hrounds⟩ := ih fun j hj => hall j (Nat.lt_succ_of_lt hj)
    obtain ⟨n, u, htest, hlap, -⟩ :=
      h.goes_round hrounds (h.counter hrounds).1 (hall k (Nat.lt_succ_self k))
    exact ⟨u, hrounds.round htest rfl hlap⟩

theorem value_of_forRound (h : Counts limits token v first last body s a b)
    (hround : ForRound limits token v first last body s k r) :
    r.env.get? v.name = some (Int32.ofInt (a.toInt + k)) ∧
      ∀ j < k + 1, Int32.ofInt (a.toInt + j) ≤ b := by
  obtain ⟨n, t, u, c, hrounds, htest, hc, rfl⟩ := h.forRound_iff.mp hround
  obtain ⟨hx, hbefore⟩ := h.counter hrounds
  obtain ⟨rfl, rfl⟩ := Approximates.ok_unique (eval_mono limits _ _)
    (eval_forTest h.bound 0 hx) htest
  rw [isTrue_ofBool, decide_eq_true_iff] at hc
  refine ⟨hx, fun j hj => ?_⟩
  rcases Nat.lt_succ_iff_lt_or_eq.mp hj with hj | rfl
  · exact hbefore j hj
  · exact hc

theorem exists_forRound_iff (h : Counts limits token v first last body s a b) :
    (∃ r, ForRound limits token v first last body s k r) ↔
      ∀ j < k + 1, Int32.ofInt (a.toInt + j) ≤ b := by
  constructor
  · rintro ⟨r, hround⟩
    exact (h.value_of_forRound hround).2
  · intro hall
    obtain ⟨t, hrounds⟩ := h.exists_rounds fun j hj => hall j (Nat.lt_succ_of_lt hj)
    obtain ⟨n, -, htest, -⟩ :=
      h.goes_round hrounds (h.counter hrounds).1 (hall k (Nat.lt_succ_self k))
    exact ⟨_, h.forRound_iff.mpr ⟨n, t, t, 1, hrounds, htest, rfl, rfl⟩⟩

/-- With a number behind the last one, the numbers that are not behind it are so many. -/
theorem not_behind_iff (hb : b < 2147483647) :
    (∀ j < k, Int32.ofInt (a.toInt + j) ≤ b) ↔ k ≤ (b.toInt - a.toInt + 1).toNat := by
  have ha := a.le_toInt
  have ha' := a.toInt_lt
  have hb' : b.toInt < 2147483647 := Int32.lt_iff_toInt_lt.mp hb
  constructor
  · intro hall
    induction k with
    | zero => exact Nat.zero_le _
    | succ k ih =>
      have hk := ih fun j hj => hall j (Nat.lt_succ_of_lt hj)
      have hle := Int32.le_iff_toInt_le.mp (hall k (Nat.lt_succ_self k))
      rw [Int32.toInt_ofInt_of_le (by omega) (by omega)] at hle
      omega
  · intro hk j hj
    rw [Int32.le_iff_toInt_le, Int32.toInt_ofInt_of_le (by omega) (by omega)]
    omega

theorem ends (h : Counts limits token v first last body s a b) (hb : b < 2147483647) : ∃ N t,
    (∀ n, N ≤ n → exec limits n (.forLoop token v first last body) s = .ok () t) ∧
      t.env.get? v.name = some (Int32.ofInt (max a.toInt (b.toInt + 1))) := by
  obtain ⟨t, hrounds⟩ := h.exists_rounds ((not_behind_iff (a := a) hb).mpr le_rfl)
  obtain ⟨N, hN⟩ := hrounds.run
  have hx := (h.counter hrounds).1
  have hlast : a.toInt + ((b.toInt - a.toInt + 1).toNat : Nat) = max a.toInt (b.toInt + 1) := by
    omega
  rw [hlast] at hx
  have ha := a.le_toInt
  have ha' := a.toInt_lt
  have hb' : b.toInt < 2147483647 := Int32.lt_iff_toInt_lt.mp hb
  have hbehind : ¬ Int32.ofInt (max a.toInt (b.toInt + 1)) ≤ b := by
    rw [Int32.le_iff_toInt_le, Int32.toInt_ofInt_of_le (by omega) (by omega)]
    omega
  have hend : repeatWhile limits (N + 3) (Stmt.forTest v last) (Stmt.forLap token v body) t =
      .ok () t := by
    refine repeatWhile_false (eval_forTest h.bound N hx) ?_
    rw [isTrue_ofBool, decide_eq_false hbehind]
  have hrun := h.exec_forLoop (N + 3 + (b.toInt - a.toInt + 1).toNat)
  rw [(hN (N + 3) (by omega)).1, hend] at hrun
  exact ⟨_, t, fun n hn => Approximates.ok_of_le (exec_mono limits _ _) hrun hn, hx⟩

theorem never_ends (h : Counts limits token v first last body s a b)
    (hall : ∀ x : Int32, x ≤ b) (n : Nat) :
    ∃ t, exec limits n (.forLoop token v first last body) s = .error .outOfFuel t := by
  have hloop : ∃ t, repeatWhile limits n (Stmt.forTest v last) (Stmt.forLap token v body)
      (s.counting v a) = .error .outOfFuel t := by
    refine repeatWhile_outOfFuel (P := fun t => ∃ k, Rounds limits (Stmt.forTest v last)
      (Stmt.forLap token v body) (s.counting v a) k t) ?_ ⟨0, .start⟩ n
    rintro t ⟨k, hrounds⟩
    obtain ⟨n, u, htest, hlap, -⟩ := h.goes_round hrounds (h.counter hrounds).1 (hall _)
    exact ⟨n, 1, t, u, htest, rfl, hlap, k + 1, hrounds.round htest rfl hlap⟩
  obtain ⟨t, ht⟩ := hloop
  have hmore := exec_mono limits (.forLoop token v first last body) s n (n + 4) (by omega)
  rw [h.exec_forLoop n, ht] at hmore
  generalize exec limits n _ s = result at hmore ⊢
  cases hmore with
  | same => exact ⟨_, rfl⟩
  | short u => exact ⟨u, rfl⟩

end Counts

/-- A counting loop from `a` to `b` has its numbers in turn as the values of its counter. It executes its
body once for each of them and ends behind the last one; if there is no number behind it, then the
counter goes on at the least one and the loop never ends. -/
theorem forLoop_counts_through {limits : Limits} {token : Token} {v : Variable} {first last : Expr}
    {body : Stmt} {s : RunState} {a b : Int32}
    (h : Counts limits token v first last body s a b) :
    let loop := Stmt.forLoop token v first last body
    let round := Run.ForRound limits token v first last body s
    (∀ k r, round k r → (∀ r', round k r' → r' = r) ∧
      r.env.get? v.name = some (Int32.ofInt (a.toInt + k)) ∧
      ∃ n m, Moment.Reaches limits ⟨n, .exec loop, s⟩ ⟨m, .exec body, r⟩) ∧
    (b < 2147483647 →
      (∀ k, (∃ r, round k r) ↔ k < (b.toInt - a.toInt + 1).toNat) ∧
      ∃ N t, (∀ n, N ≤ n → Run.exec limits n loop s = .ok () t) ∧
        t.env.get? v.name = some (Int32.ofInt (max a.toInt (b.toInt + 1)))) ∧
    (b = 2147483647 →
      (∀ k, ∃ r, round k r) ∧
      (∀ k r r', round k r → round (k + 1) r' → r.env.get? v.name = some 2147483647 →
        r'.env.get? v.name = some (-2147483648)) ∧
      ∀ n, ∃ t, Run.exec limits n loop s = .error .outOfFuel t) := by
  refine ⟨fun k r hr => ?_, fun hb => ?_, fun hb => ?_⟩
  · exact ⟨fun r' hr' => hr'.unique hr, (h.value_of_forRound hr).1, hr.reaches⟩
  · refine ⟨fun k => ?_, h.ends hb⟩
    rw [h.exists_forRound_iff, Counts.not_behind_iff hb, Nat.succ_le_iff]
  · have hall (x : Int32) : x ≤ b := hb ▸ x.le_maxValue
    refine ⟨fun k => h.exists_forRound_iff.mpr fun j _ => hall _, ?_, h.never_ends hall⟩
    intro k r r' hr hr' hx
    rw [(h.value_of_forRound hr).1, Option.some.injEq] at hx
    rw [(h.value_of_forRound hr').1, ← Counts.counter_succ, hx]
    rfl

/-- A body that gives a variable other than the counter a value. -/
def marking : Stmt := .assign {} { name := "mark" } (.literal {} 9 .int false)

theorem marking_counts (a b : Int32) :
    Counts {} {} { name := "i" } (.literal {} a .int false) (.literal {} b .int false) marking {}
      a b where
  steps := rfl
  start := ⟨_, _, _, rfl⟩
  bound := ⟨_, _, _, rfl⟩
  keeps k r _ := by
    refine ⟨2, _, rfl, ?_⟩
    rw [Env.get?_set, if_neg (by decide)]

theorem marking_counts_through :
    (∃ N t, (∀ n, N ≤ n → Run.exec {} n (.forLoop {} { name := "i" } (.literal {} 1 .int false)
        (.literal {} 3 .int false) marking) {} = .ok () t) ∧ t.env.get? "i" = some 4) ∧
      (∀ n, ∃ t, Run.exec {} n (.forLoop {} { name := "i" } (.literal {} 2147483647 .int false)
        (.literal {} 2147483647 .int false) marking) {} = .error .outOfFuel t) ∧
      ∃ r, Run.ForRound {} {} { name := "i" } (.literal {} 2147483647 .int false)
        (.literal {} 2147483647 .int false) marking {} 1 r ∧
        r.env.get? "i" = some (-2147483648) := by
  obtain ⟨-, hends, -⟩ := forLoop_counts_through (marking_counts 1 3)
  obtain ⟨hrounds, -, hnever⟩ := forLoop_counts_through (marking_counts 2147483647 2147483647)
  obtain ⟨hall, -, hforever⟩ := hnever rfl
  obtain ⟨r, hr⟩ := hall 1
  exact ⟨(hends (by decide)).2, hforever, r, hr, (hrounds 1 r hr).2.1⟩

end MiniPascal
