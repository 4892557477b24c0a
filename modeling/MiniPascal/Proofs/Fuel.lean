import MiniPascal.Interpreter

/-! Fuel bounds a run of the interpreter and does nothing else: two runs that do not run out of it
have the same result. -/

namespace MiniPascal

theorem Run.get_bind {α : Type} (f : RunState → Run α) (r : RunState) :
    (get >>= f) r = f r r := rfl

/-- What a run is to the same run with more fuel: equal to it, unless it was short. -/
inductive Approximates {α : Type} :
    EStateM.Result RunError RunState α → EStateM.Result RunError RunState α → Prop where
  | same (result) : Approximates result result
  | short (r : RunState) (result) : Approximates (.error .outOfFuel r) result

namespace Approximates

variable {α β : Type} {r : RunState}

theorem bind {x y : Run α} {f g : α → Run β} (h : Approximates (x r) (y r))
    (hrest : ∀ a r', Approximates (f a r') (g a r')) :
    Approximates ((x >>= f) r) ((y >>= g) r) := by
  change Approximates (EStateM.bind x f r) (EStateM.bind y g r)
  unfold EStateM.bind
  generalize x r = first, y r = second at h
  cases h with
  | same =>
    cases first with
    | ok a r' => exact hrest a r'
    | error e r' => exact .same _
  | short r' => exact .short r' _

theorem within {scope : Scope} {name : Text} {x y : Run Unit}
    (h : Approximates (x { r with env := r.env.push scope, depth := r.depth + 1 })
      (y { r with env := r.env.push scope, depth := r.depth + 1 })) :
    Approximates (Run.within scope name x r) (Run.within scope name y r) := by
  unfold Run.within
  generalize x _ = first, y _ = second at h ⊢
  cases h with
  | same => exact .same _
  | short => exact .short _ _

theorem eq {result result' : EStateM.Result RunError RunState α} (h : Approximates result result')
    (hdone : ∀ r, result ≠ .error .outOfFuel r) : result = result' := by
  cases h with
  | same => rfl
  | short r => exact absurd rfl (hdone r)

section Grows

variable {f : Nat → EStateM.Result RunError RunState α} {n m : Nat} {a b : α}
  {t u : RunState}

theorem ok_of_le (hf : ∀ n m, n ≤ m → Approximates (f n) (f m)) (h : f n = .ok a t) (hle : n ≤ m) :
    f m = .ok a t := by
  have hdone (r : RunState) : f n ≠ .error .outOfFuel r := by
    rw [h]
    intro herror
    cases herror
  exact ((hf n m hle).eq hdone).symm.trans h

theorem ok_or_short (hf : ∀ n m, n ≤ m → Approximates (f n) (f m)) (h : f n = .ok a t) (m : Nat) :
    f m = .ok a t ∨ ∃ u, f m = .error .outOfFuel u := by
  rcases Nat.le_total n m with hle | hle
  · exact .inl (ok_of_le hf h hle)
  · have hmn := hf m n hle
    rw [h] at hmn
    generalize f m = result at hmn ⊢
    cases hmn with
    | same => exact .inl rfl
    | short u => exact .inr ⟨u, rfl⟩

theorem ok_unique (hf : ∀ n m, n ≤ m → Approximates (f n) (f m)) (h : f n = .ok a t)
    (h' : f m = .ok b u) : a = b ∧ t = u := by
  rcases ok_or_short hf h m with hm | ⟨w, hm⟩
  · rw [h'] at hm
    cases hm
    exact ⟨rfl, rfl⟩
  · rw [h'] at hm
    cases hm

end Grows

end Approximates

/-- Every part of the interpreter on `n` units of fuel against the same part on `m`. -/
structure FuelGrows (limits : Limits) (n m : Nat) : Prop where
  eval : ∀ e r, Approximates (Run.eval limits n e r) (Run.eval limits m e r)
  evalAll : ∀ es r, Approximates (Run.evalAll limits n es r) (Run.evalAll limits m es r)
  invoke : ∀ token name args r,
    Approximates (Run.invoke limits n token name args r) (Run.invoke limits m token name args r)
  exec : ∀ st r, Approximates (Run.exec limits n st r) (Run.exec limits m st r)
  execAll : ∀ sts r, Approximates (Run.execAll limits n sts r) (Run.execAll limits m sts r)
  repeatWhile : ∀ cond body r,
    Approximates (Run.repeatWhile limits n cond body r) (Run.repeatWhile limits m cond body r)

namespace FuelGrows

variable {limits : Limits} {n m : Nat}

theorem zero (m : Nat) : FuelGrows limits 0 m where
  eval _ r := .short r _
  evalAll _ r := .short r _
  invoke _ _ _ r := .short r _
  exec _ r := .short r _
  execAll _ r := .short r _
  repeatWhile _ _ r := .short r _

theorem eval_succ (h : FuelGrows limits n m) (e : Expr) (r : RunState) :
    Approximates (Run.eval limits (n + 1) e r) (Run.eval limits (m + 1) e r) := by
  cases e with
  | literal token value tag isBool => exact .same _
  | var v => exact .same _
  | binary token op left right =>
    exact .bind (h.eval left r) fun _ r => .bind (h.eval right r) fun _ _ => .same _
  | call token name args => exact h.invoke token name args r
  | missing => exact .same _

theorem invoke_succ (h : FuelGrows limits n m) (token : Token) (name : Text) (args : List Expr)
    (r : RunState) : Approximates (Run.invoke limits (n + 1) token name args r)
      (Run.invoke limits (m + 1) token name args r) := by
  unfold Run.invoke
  refine .bind (.same _) fun s r => ?_
  cases s.env.getProc? name with
  | none => exact .same _
  | some p =>
    by_cases harity : args.length ≠ p.params.length
    · simp only [if_pos harity]
      exact .same _
    · simp only [if_neg harity]
      refine .bind (h.evalAll args r) fun values r => .bind (.same _) fun s r => ?_
      by_cases hdepth : limits.depth ≤ s.depth
      · simp only [if_pos hdepth]
        exact .same _
      · simp only [if_neg hdepth]
        exact .within (h.exec p.body _)

theorem exec_succ (h : FuelGrows limits n m) (st : Stmt) (r : RunState) :
    Approximates (Run.exec limits (n + 1) st r) (Run.exec limits (m + 1) st r) := by
  unfold Run.exec
  refine .bind (.same _) fun _ r => ?_
  cases st with
  | assign token target value => exact .bind (h.eval value r) fun _ _ => .same _
  | block token body => exact h.execAll body r
  | ifThen token cond body =>
    refine .bind (h.eval cond r) fun c r => ?_
    by_cases hc : Word.isTrue c = true
    · simp only [if_pos hc]
      exact h.exec body r
    · simp only [if_neg hc]
      exact .same _
  | ifElse token cond body alternative =>
    refine .bind (h.eval cond r) fun c r => ?_
    by_cases hc : Word.isTrue c = true
    · simp only [if_pos hc]
      exact h.exec body r
    · simp only [if_neg hc]
      exact h.exec alternative r
  | loop token cond body => exact h.repeatWhile cond body r
  | writeLn token value => exact .bind (h.eval value r) fun _ _ => .same _
  | readLn token target => exact .same _
  | call token name args => exact .bind (h.invoke token name args r) fun _ _ => .same _
  | declare token name params body => exact .same _
  | missing => exact .same _

theorem repeatWhile_succ (h : FuelGrows limits n m) (cond : Expr) (body : Stmt) (r : RunState) :
    Approximates (Run.repeatWhile limits (n + 1) cond body r)
      (Run.repeatWhile limits (m + 1) cond body r) := by
  unfold Run.repeatWhile
  refine .bind (h.eval cond r) fun c r => ?_
  by_cases hc : Word.isTrue c = true
  · simp only [if_pos hc]
    exact .bind (h.exec body r) fun _ r => h.repeatWhile cond body r
  · simp only [if_neg hc]
    exact .same _

theorem succ (h : FuelGrows limits n m) : FuelGrows limits (n + 1) (m + 1) where
  eval := h.eval_succ
  evalAll es r := by
    cases es with
    | nil => exact .same _
    | cons e es => exact .bind (h.eval e r) fun _ r => .bind (h.evalAll es r) fun _ _ => .same _
  invoke := h.invoke_succ
  exec := h.exec_succ
  execAll sts r := by
    cases sts with
    | nil => exact .same _
    | cons st sts => exact .bind (h.exec st r) fun _ r => h.execAll sts r
  repeatWhile := h.repeatWhile_succ

theorem of_le (hle : n ≤ m) : FuelGrows limits n m := by
  induction n generalizing m with
  | zero => exact zero m
  | succ n ih =>
    obtain ⟨m, rfl⟩ := Nat.exists_eq_add_of_le' (Nat.le_trans (Nat.succ_pos n) hle)
    exact (ih (Nat.le_of_succ_le_succ hle)).succ

end FuelGrows

namespace Run

theorem eval_mono (limits : Limits) (e : Expr) (r : RunState) (n m : Nat) (hle : n ≤ m) :
    Approximates (eval limits n e r) (eval limits m e r) := (FuelGrows.of_le hle).eval e r

theorem exec_mono (limits : Limits) (st : Stmt) (r : RunState) (n m : Nat) (hle : n ≤ m) :
    Approximates (exec limits n st r) (exec limits m st r) := (FuelGrows.of_le hle).exec st r

variable {limits : Limits} {n m : Nat} {p : Program} {r : RunState}

theorem program_mono (hle : n ≤ m) :
    Approximates (program limits n p r) (program limits m p r) := by
  have h : FuelGrows limits n m := .of_le hle
  refine .bind (.same _) fun _ r => .bind (h.execAll _ r) fun _ r => ?_
  cases p.main with
  | none => exact .same _
  | some st => exact h.exec st r

/-- However much fuel two finished runs had, they have the same result. -/
theorem program_eq_of_done (hn : ∀ r', program limits n p r ≠ .error .outOfFuel r')
    (hm : ∀ r', program limits m p r ≠ .error .outOfFuel r') :
    program limits n p r = program limits m p r :=
  ((program_mono (Nat.le_max_left n m)).eq hn).trans
    ((program_mono (Nat.le_max_right n m)).eq hm).symm

end Run

end MiniPascal
