import MiniPascal.Proofs.Attempts

/-! A limit on steps stops every run. Each statement uses up a step, and between two statements a run
only goes down into the syntax, so that with enough fuel it has a result. The statements that it tries
to execute find different numbers of steps on the counter, none above the limit, and the one that finds
the limit there is where the run stops. -/

namespace MiniPascal

namespace Run

variable {α β : Type} {s t : RunState}

/-- With enough fuel a computation has a result, whatever more it gets. -/
def Halts (f : Nat → Run α) (s : RunState) : Prop :=
  ∃ N result, (∀ t, result ≠ .error .outOfFuel t) ∧ ∀ n, N ≤ n → f n s = result

namespace Halts

theorem of_ok {x : Run α} {a : α} (h : x s = .ok a t) : Halts (fun _ => x) s := by
  refine ⟨0, .ok a t, fun u h => ?_, fun _ _ => h⟩
  cases h

theorem of_error {x : Run α} {e : RunError} (h : x s = .error e t) (he : e ≠ .outOfFuel) :
    Halts (fun _ => x) s := by
  refine ⟨0, .error e t, fun u h => ?_, fun _ _ => h⟩
  cases h
  exact he rfl

theorem pure (a : α) : Halts (fun _ => Pure.pure a) s := of_ok rfl

theorem stop (cause : RunCause) (pos : Position) : Halts (fun _ => (Run.stop cause pos : Run α)) s :=
  of_error rfl fun h => by cases h

theorem step (limits : Limits) (pos : Position) : Halts (fun _ => Run.step limits pos) s := by
  rcases step_cases limits pos s with hstep | ⟨_, hstep⟩
  · exact of_ok hstep
  · exact of_error hstep fun h => by cases h

theorem readVariable (x : Text) : Halts (fun _ => Run.readVariable x) s := by
  rcases readVariable_cases x s with ⟨v, hread⟩ | hread
  · exact of_ok hread
  · exact of_ok hread

theorem writeLine (v : Int32) : Halts (fun _ => Run.writeLine v) s := by
  rcases writeLine_cases v s with ⟨_, sink, -, hwrite⟩ | ⟨reason, hwrite⟩
  · exact of_ok hwrite
  · exact of_error hwrite fun h => by cases h

theorem readValue (pos : Position) : Halts (fun _ => Run.readValue pos) s := by
  rcases readValue_cases pos s with ⟨v, input, hread⟩ | ⟨cause, input, hread, -⟩
  · exact of_ok hread
  · exact of_error hread fun h => by cases h

theorem of_succ {f : Nat → Run α} (h : Halts (fun n => f (n + 1)) s) : Halts f s := by
  obtain ⟨N, result, hdone, hN⟩ := h
  refine ⟨N + 1, result, hdone, fun n hn => ?_⟩
  obtain ⟨m, rfl⟩ := Nat.exists_eq_add_of_le' (Nat.le_trans (Nat.succ_pos N) hn)
  exact hN m (Nat.le_of_succ_le_succ hn)

theorem get_bind {f : RunState → Nat → Run α} (h : Halts (f s) s) :
    Halts (fun n => get >>= fun r => f r n) s := h

theorem bind {f : Nat → Run α} {g : α → Nat → Run β} (hf : Halts f s)
    (hg : ∀ n a t, f n s = .ok a t → Halts (g a) t) : Halts (fun n => f n >>= fun a => g a n) s := by
  obtain ⟨N, result, hdone, hN⟩ := hf
  cases result with
  | ok a t =>
    obtain ⟨N', result', hdone', hN'⟩ := hg N a t (hN N (Nat.le_refl N))
    refine ⟨max N N', result', hdone', fun n hn => ?_⟩
    dsimp only
    rw [bind_of_ok (hN n (by omega)), hN' n (by omega)]
  | error e t =>
    refine ⟨N, .error e t, ?_, fun n hn => bind_of_error (hN n hn) _⟩
    intro u h
    cases h
    exact hdone t rfl

theorem within {f : Nat → Run Unit} {scope : Scope} {name : Text}
    (h : Halts f { s with env := s.env.push scope, depth := s.depth + 1 }) :
    Halts (fun n => Run.within scope name (f n)) s := by
  obtain ⟨N, result, hdone, hN⟩ := h
  refine ⟨N, Run.within scope name (fun _ => result) s, ?_, fun n hn => ?_⟩
  · intro t h
    cases result with
    | ok a u => cases h
    | error e u =>
      cases h
      exact hdone u rfl
  · dsimp only
    unfold Run.within
    rw [hN n hn]

end Halts

end Run

/-- The counter of steps is never set back. -/
def Course.steps : Course where
  leads s t := s.steps ≤ t.steps
  refl _ := Nat.le_refl _
  trans h h' := Nat.le_trans h h'
  step _ := Nat.le_succ _
  set _ _ _ := Nat.le_refl _
  setProc _ _ _ := Nat.le_refl _
  read _ _ := Nat.le_refl _
  write _ _ _ _ := Nat.le_refl _
  call _ _ h := h

namespace Run

variable {limits : Limits} {limit k n : Nat} {s t : RunState}

theorem step_eq_ok_iff (hlimit : limits.steps = some limit) {pos : Position} :
    step limits pos s = .ok () t ↔ s.steps < limit ∧ t = { s with steps := s.steps + 1 } := by
  rw [step_of_some hlimit]
  by_cases hn : limit < s.steps + 1
  · rw [if_pos hn]
    refine ⟨fun h => ?_, fun h => ?_⟩
    · cases h
    · omega
  · rw [if_neg hn]
    refine ⟨fun h => ?_, fun h => h.2 ▸ rfl⟩
    cases h
    exact ⟨by omega, rfl⟩

theorem steps_of_exec (hlimit : limits.steps = some limit) {st : Stmt}
    (h : exec limits n st s = .ok () t) : s.steps < limit ∧ s.steps < t.steps := by
  cases n with
  | zero => cases h
  | succ n =>
    obtain ⟨x, hx, hkeeps⟩ := Course.steps.exec_succ_eq limits n st
    rw [hx] at h
    cases hstep : step limits st.token.pos s with
    | ok _ u =>
      rw [bind_of_ok hstep] at h
      obtain ⟨hs, rfl⟩ := (step_eq_ok_iff hlimit).mp hstep
      exact ⟨hs, hkeeps.leads_of_ok h⟩
    | error e u =>
      rw [bind_of_error hstep] at h
      cases h

/-- Every task that finds at least `k` steps on the counter has a result. -/
structure HaltFrom (limits : Limits) (k : Nat) : Prop where
  eval : ∀ e s, k ≤ s.steps → Halts (fun n => eval limits n e) s
  evalAll : ∀ es s, k ≤ s.steps → Halts (fun n => evalAll limits n es) s
  invoke : ∀ token name args s, k ≤ s.steps → Halts (fun n => invoke limits n token name args) s
  exec : ∀ st s, k ≤ s.steps → Halts (fun n => exec limits n st) s
  execAll : ∀ sts s, k ≤ s.steps → Halts (fun n => execAll limits n sts) s
  repeatWhile : ∀ cond body s, k ≤ s.steps → Halts (fun n => repeatWhile limits n cond body) s

namespace HaltFrom

theorem steps_of_eval {e : Expr} {v : Int32} (h : Run.eval limits n e s = .ok v t) (hk : k ≤ s.steps) :
    k ≤ t.steps :=
  Nat.le_trans hk (Course.Keeps.leads_of_ok ((Course.steps.relates limits n).eval e) h)

/-- A statement uses up a step, so the tasks that it starts are later ones. -/
theorem exec_of_later (hlimit : limits.steps = some limit)
    (hlater : k < limit → HaltFrom limits (k + 1)) (st : Stmt) (s : RunState) (hk : k ≤ s.steps) :
    Halts (fun n => Run.exec limits n st) s := by
  apply Halts.of_succ
  unfold Run.exec
  refine (Halts.step limits st.token.pos).bind fun _ _ t ht => ?_
  obtain ⟨hs, rfl⟩ := (step_eq_ok_iff hlimit).mp ht
  have h := hlater (by omega)
  have hk' : k + 1 ≤ s.steps + 1 := by omega
  cases st with
  | assign token target value => exact (h.eval value _ hk').bind fun _ _ _ _ => .of_ok rfl
  | block token body => exact h.execAll body _ hk'
  | ifThen token cond body =>
    refine (h.eval cond _ hk').bind fun _ v u hu => ?_
    by_cases hv : Word.isTrue v = true
    · simp only [if_pos hv]
      exact h.exec body u (steps_of_eval hu hk')
    · simp only [if_neg hv]
      exact .pure ()
  | ifElse token cond body alternative =>
    refine (h.eval cond _ hk').bind fun _ v u hu => ?_
    by_cases hv : Word.isTrue v = true
    · simp only [if_pos hv]
      exact h.exec body u (steps_of_eval hu hk')
    · simp only [if_neg hv]
      exact h.exec alternative u (steps_of_eval hu hk')
  | loop token cond body => exact h.repeatWhile cond body _ hk'
  | writeLn token value => exact (h.eval value _ hk').bind fun _ v _ _ => .writeLine v
  | readLn token target => exact (Halts.readValue token.pos).bind fun _ _ _ _ => .of_ok rfl
  | call token name args => exact (h.invoke token name args _ hk').bind fun _ _ _ _ => .pure ()
  | declare token name params body => exact .of_ok rfl
  | missing => exact .stop _ _

theorem invoke_of_exec (hexec : ∀ st s, k ≤ s.steps → Halts (fun n => Run.exec limits n st) s)
    {args : List Expr} (hargs : ∀ s, k ≤ s.steps → Halts (fun n => Run.evalAll limits n args) s)
    (token : Token) (name : Text) (s : RunState) (hk : k ≤ s.steps) :
    Halts (fun n => Run.invoke limits n token name args) s := by
  apply Halts.of_succ
  unfold Run.invoke
  refine .get_bind ?_
  cases s.env.getProc? name with
  | none => exact .stop _ _
  | some q =>
    by_cases harity : args.length ≠ q.params.length
    · simp only [if_pos harity]
      exact .stop _ _
    · simp only [if_neg harity]
      refine (hargs s hk).bind fun n values t ht => ?_
      have ht' := Course.Keeps.leads_of_ok ((Course.steps.relates limits n).evalAll args) ht
      refine .get_bind ?_
      by_cases hdepth : limits.depth ≤ t.depth
      · simp only [if_pos hdepth]
        exact .stop _ _
      · simp only [if_neg hdepth]
        exact .within (hexec q.body _ (Nat.le_trans hk ht'))

mutual

theorem eval_of_exec (hexec : ∀ st s, k ≤ s.steps → Halts (fun n => Run.exec limits n st) s)
    (e : Expr) (s : RunState) (hk : k ≤ s.steps) : Halts (fun n => Run.eval limits n e) s := by
  apply Halts.of_succ
  cases e with
  | literal token value tag isBool => exact .pure value
  | var v => exact .readVariable v.name
  | binary token op left right =>
    unfold Run.eval
    refine (eval_of_exec hexec left s hk).bind fun _ l t ht => ?_
    refine (eval_of_exec hexec right t (steps_of_eval ht hk)).bind fun _ r u _ => ?_
    cases op.apply l r with
    | ok v => exact .pure v
    | error e => exact .stop _ _
  | call token name args =>
    exact invoke_of_exec hexec (evalAll_of_exec hexec args) token name s hk
  | missing => exact .stop _ _

theorem evalAll_of_exec (hexec : ∀ st s, k ≤ s.steps → Halts (fun n => Run.exec limits n st) s)
    (es : List Expr) (s : RunState) (hk : k ≤ s.steps) : Halts (fun n => Run.evalAll limits n es) s := by
  apply Halts.of_succ
  cases es with
  | nil => exact .pure []
  | cons e es =>
    refine (eval_of_exec hexec e s hk).bind fun _ v t ht => ?_
    exact (evalAll_of_exec hexec es t (steps_of_eval ht hk)).bind fun _ vs _ _ => .pure (v :: vs)

end

theorem execAll_of_exec (hexec : ∀ st s, k ≤ s.steps → Halts (fun n => Run.exec limits n st) s)
    (sts : List Stmt) (s : RunState) (hk : k ≤ s.steps) : Halts (fun n => Run.execAll limits n sts) s := by
  induction sts generalizing s with
  | nil => exact .of_succ (.pure ())
  | cons st sts ih =>
    apply Halts.of_succ
    refine (hexec st s hk).bind fun n _ t ht => ih t (Nat.le_trans hk ?_)
    exact Course.Keeps.leads_of_ok ((Course.steps.relates limits n).exec st) ht

theorem repeatWhile_of_later (hlimit : limits.steps = some limit)
    (hlater : k < limit → HaltFrom limits (k + 1)) (cond : Expr) (body : Stmt) (s : RunState)
    (hk : k ≤ s.steps) : Halts (fun n => Run.repeatWhile limits n cond body) s := by
  have hexec := exec_of_later hlimit hlater
  apply Halts.of_succ
  unfold Run.repeatWhile
  refine (eval_of_exec hexec cond s hk).bind fun _ v t ht => ?_
  by_cases hv : Word.isTrue v = true
  · simp only [if_pos hv]
    refine (hexec body t (steps_of_eval ht hk)).bind fun _ _ u hu => ?_
    -- the body has used up a step, so the loop goes on as a later task
    have ht' := steps_of_eval ht hk
    obtain ⟨hlt, hup⟩ := steps_of_exec hlimit hu
    exact (hlater (by omega)).repeatWhile cond body u (by omega)
  · simp only [if_neg hv]
    exact .pure ()

theorem of_later (hlimit : limits.steps = some limit)
    (hlater : k < limit → HaltFrom limits (k + 1)) : HaltFrom limits k := by
  have hexec := exec_of_later hlimit hlater
  exact {
    eval := eval_of_exec hexec
    evalAll := evalAll_of_exec hexec
    invoke := fun token name args => invoke_of_exec hexec (evalAll_of_exec hexec args) token name
    exec := hexec
    execAll := execAll_of_exec hexec
    repeatWhile := repeatWhile_of_later hlimit hlater }

end HaltFrom

theorem haltFrom (hlimit : limits.steps = some limit) (k : Nat) : HaltFrom limits k := by
  -- by induction on the steps that are left; inside one step the syntax gets smaller
  obtain ⟨r, hr⟩ : ∃ r, limit ≤ k + r := ⟨limit, Nat.le_add_left limit k⟩
  induction r generalizing k with
  | zero => exact .of_later hlimit fun hk => by omega
  | succ r ih => exact .of_later hlimit fun _ => ih (k + 1) (by omega)

theorem program_halts (hlimit : limits.steps = some limit) (p : Program) (s : RunState) :
    Halts (fun n => program limits n p) s := by
  have h := haltFrom hlimit 0
  change Halts (fun n => statements limits n p) s.atStart
  unfold statements
  refine (h.execAll _ _ (Nat.zero_le _)).bind fun _ _ u _ => ?_
  cases p.main with
  | none => exact .pure ()
  | some st => exact h.exec st u (Nat.zero_le _)

end Run

section Limit

variable {limits : Limits} {limit : Nat} {m : Moment} {attempts : List Moment}
  {out : Nat × Option RunError} {reached : Moment → Prop}

theorem Moment.ends_of_limit (hlimit : limits.steps = some limit) {st : Stmt} (hm : m.Tries)
    (hst : m.task = .exec st) (hsteps : m.state.steps = limit) :
    m.ends limits = (limit + 1, some (.stopped (.stepLimit limit) st.token.pos)) := by
  obtain ⟨n, task, s⟩ := m
  obtain ⟨hfuel, -⟩ := hm
  subst hst hsteps
  obtain ⟨n, rfl⟩ := Nat.exists_eq_add_of_le' hfuel
  have hstep := Run.step_of_some hlimit (s := s) st.token.pos
  rw [if_pos (Nat.lt_succ_self _)] at hstep
  unfold Moment.ends Run.exec
  exact Run.ends_of_error (Run.bind_of_error hstep _)

namespace Attempts

theorem steps_of_getElem? (h : Attempts limits 0 reached out attempts) {j : Nat}
    (hm : attempts[j]? = some m) : m.state.steps = j := by
  have hj := congrArg (fun l => l[j]?) h.steps
  simp only [List.getElem?_map, hm, Option.map_some] at hj
  obtain ⟨hlt, -⟩ := List.getElem?_eq_some_iff.mp hm
  rw [List.getElem?_range' hlt, Option.some.injEq] at hj
  omega

/-- The attempt after the last one that the limit allows stops the run. -/
theorem out_of_limit (h : Attempts limits 0 reached out attempts)
    (hlimit : limits.steps = some limit) {st : Stmt} (hm : attempts[limit]? = some m)
    (hst : m.task = .exec st) :
    out = (limit + 1, some (.stopped (.stepLimit limit) st.token.pos)) := by
  obtain ⟨hreached, htries⟩ := (h.mem m).mp (List.mem_of_getElem? hm)
  exact h.fails m _ _ hreached (Moment.ends_of_limit hlimit htries hst (h.steps_of_getElem? hm))

theorem length_le (h : Attempts limits 0 reached out attempts) (hlimit : limits.steps = some limit) :
    attempts.length ≤ limit + 1 := by
  by_cases hlt : limit < attempts.length
  -- the attempt at the limit ends the run with one step more on the counter, which counts all attempts
  · have hm : attempts[limit]? = some attempts[limit] := List.getElem?_eq_getElem hlt
    obtain ⟨-, -, st, hst⟩ := (h.mem _).mp (List.mem_of_getElem? hm)
    have hout := h.out_of_limit hlimit hm hst
    have hcount := h.count
    rw [hout] at hcount
    omega
  · omega

end Attempts

end Limit

/-- A positive limit on steps stops every run. With enough fuel the run has a result. The statements that
it tries find the numbers from zero on on the counter, in order; they are at most one more than the
limit, and the one more is where the run stops with the error that says so. -/
theorem step_limit_stops {steps : Int} (hsteps : 0 < steps) (depth : Int) (p : Program)
    (s : RunState) :
    let limits := Limits.ofInts steps depth
    ∃ N result, (∀ t, result ≠ .error .outOfFuel t) ∧ ∀ fuel, N ≤ fuel →
      Run.program limits fuel p s = result ∧
      ∃ attempts : List Moment,
        (∀ m, m ∈ attempts ↔ p.Reaches limits fuel s m ∧ ∃ st, m.task = .exec st) ∧
        attempts.map (fun m => m.state.steps) = List.range attempts.length ∧
        attempts.length ≤ steps.toNat + 1 ∧
        ∀ m st, attempts[steps.toNat]? = some m → m.task = .exec st →
          ∃ t, result = .error (.stopped (.stepLimit steps.toNat) st.token.pos) t := by
  intro limits
  have hlimit : limits.steps = some steps.toNat := if_pos hsteps
  obtain ⟨N, result, hdone, hN⟩ := Run.program_halts hlimit p s
  refine ⟨N, result, hdone, fun fuel hfuel => ⟨hN fuel hfuel, ?_⟩⟩
  obtain ⟨attempts, h⟩ := p.exists_attempts limits fuel s
  refine ⟨attempts, fun m => ?_, ?_, h.length_le hlimit, fun m st hm hst => ?_⟩
  · rw [h.mem]
    refine and_congr_right fun hreached => and_iff_right (h.fuel_pos (fun k hk => ?_) hreached)
    obtain ⟨t, ht⟩ := Run.error_of_ends hk
    exact hdone t ((hN fuel hfuel).symm.trans ht)
  · rw [h.steps, List.range_eq_range']
  · obtain ⟨t, ht⟩ := Run.error_of_ends (h.out_of_limit hlimit hm hst)
    exact ⟨t, (hN fuel hfuel).symm.trans ht⟩

/-- A procedure that calls itself in the condition and in the body of a loop, and a call of it. -/
def spiral : Program where
  procedures := [⟨{}, ⟨"f", [], .loop {} (.call {} "f" []) (.call {} "f" [])⟩⟩]
  main := some (.call {} "f" [])

theorem spiral_stops : (0 : Int) < 7 ∧ ∃ N, ∀ fuel, N ≤ fuel →
    (∃ t, Run.program (Limits.ofInts 7 (-1)) fuel spiral {} =
      .error (.stopped (.stepLimit 7) {}) t) ∧
    ∃ attempts : List Moment, attempts.length ≤ 8 ∧
      ∀ m, m ∈ attempts ↔
        spiral.Reaches (Limits.ofInts 7 (-1)) fuel {} m ∧ ∃ st, m.task = .exec st := by
  have hseven : (0 : Int) < 7 := by decide
  obtain ⟨N, result, hdone, hN⟩ := step_limit_stops hseven (-1) spiral {}
  obtain ⟨t, ht⟩ : ∃ t, Run.program (Limits.ofInts 7 (-1)) 40 spiral {} =
      .error (.stopped (.stepLimit 7) {}) t := ⟨_, rfl⟩
  refine ⟨hseven, N, fun fuel hfuel => ?_⟩
  obtain ⟨hrun, attempts, hmem, -, hlength, -⟩ := hN fuel hfuel
  refine ⟨⟨t, ?_⟩, attempts, hlength, hmem⟩
  rw [← ht]
  refine Run.program_eq_of_done (fun u hu => hdone u (hrun.symm.trans hu)) fun u hu => ?_
  rw [ht] at hu
  cases hu

end MiniPascal
