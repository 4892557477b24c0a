import MiniPascal.Proofs.Coupling
import MiniPascal.Proofs.Refinement

/-! Limits only cut runs short. A run with a tighter limit on steps or on calls, and a run of the machine
with a tighter limit on instructions, is the same as the longer run until the limit stops it, and what
it has written by then is the beginning of what the longer run writes. -/

namespace MiniPascal

/-- What was written is never taken back. -/
def Course.output : Course where
  leads s t := s.sink.written <+: t.sink.written
  refl _ := List.prefix_refl _
  trans h h' := h.trans h'
  step _ := List.prefix_refl _
  set _ _ _ := List.prefix_refl _
  setProc _ _ _ := List.prefix_refl _
  read _ _ := List.prefix_refl _
  write _ _ _ h := Sink.written_write h ▸ List.prefix_append _ _
  call _ _ h := h

namespace Run

variable {α β : Type} {cut : RunError → Prop} {s : RunState}

/-- The first computation is the second, or stops early with one of the errors in `cut`; what it has
written then is the beginning of what the second writes. -/
def CutAt (cut : RunError → Prop) (x y : Run α) (s : RunState) : Prop :=
  x s = y s ∨ ∃ e t, x s = .error e t ∧ cut e ∧ t.sink.written <+: (after y s).sink.written

theorem CutAt.bind {x y : Run α} {f g : α → Run β} (h : CutAt cut x y s)
    (hrest : ∀ a t, CutAt cut (f a) (g a) t) (hkeeps : ∀ a, Course.output.Keeps (g a)) :
    CutAt cut (x >>= f) (y >>= g) s := by
  rcases h with heq | ⟨e, t, hx, he, hwritten⟩
  · cases hy : y s with
    | ok a t =>
      have hfirst := hrest a t
      rw [CutAt, after] at hfirst ⊢
      rw [bind_of_ok (heq.trans hy), bind_of_ok hy]
      exact hfirst
    | error e t => exact .inl ((bind_of_error (heq.trans hy) f).trans (bind_of_error hy g).symm)
  · refine .inr ⟨e, t, bind_of_error hx f, he, hwritten.trans ?_⟩
    cases hy : y s with
    | ok a u =>
      rw [after_of_ok hy, after_bind_of_ok hy]
      exact hkeeps a u
    | error e u => rw [after_of_error hy, after_bind_of_error hy]

theorem CutAt.within {x y : Run Unit} {scope : Scope} {name : Text}
    (h : CutAt cut x y { s with env := s.env.push scope, depth := s.depth + 1 }) :
    CutAt cut (Run.within scope name x) (Run.within scope name y) s := by
  rcases h with heq | ⟨e, t, hx, he, hwritten⟩
  · left
    unfold Run.within
    rw [heq]
  · refine .inr ⟨e, { t with env := t.env.pop, depth := t.depth - 1 }, ?_, he, ?_⟩
    · unfold Run.within
      rw [hx]
    · unfold after at hwritten ⊢
      unfold Run.within
      generalize y _ = result at hwritten ⊢
      cases result with
      | ok a u => exact hwritten
      | error e u => exact hwritten

end Run

/-- The first limits are the second, or tighter ones that stop a run with the errors in `cut`. -/
structure Limits.Tightens (cut : RunError → Prop) (limits limits' : Limits) : Prop where
  steps : ∀ pos s, Run.CutAt cut (Run.step limits pos) (Run.step limits' pos) s
  depth : limits.depth = limits'.depth ∨
    limits.depth ≤ limits'.depth ∧ ∀ name pos, cut (.stopped (.depthLimit limits.depth name) pos)

namespace Limits.Tightens

variable {cut : RunError → Prop} {limits limits' : Limits}

theorem enter (h : Tightens cut limits limits') {x y : Run Unit} (pos : Position) (q : Procedure)
    (values : List Int32) (hcut : ∀ s, Run.CutAt cut x y s) (hkeeps : Course.output.Keeps y)
    (s : RunState) :
    Run.CutAt cut (Run.enter limits pos q values x) (Run.enter limits' pos q values y) s := by
  have henter : Course.output.Keeps (Run.enter limits' pos q values y) := hkeeps.enter pos q values
  have hsame (l : Limits) (z : Run Unit) (hdepth : ¬ l.depth ≤ s.depth) :
      Run.enter l pos q values z s = Run.within (Run.callScope q values) q.name z s := by
    unfold Run.enter
    rw [Run.get_bind, if_neg hdepth]
  by_cases hdepth : limits.depth ≤ s.depth
  · have hstop : Run.enter limits pos q values x s =
        .error (.stopped (.depthLimit limits.depth q.name) pos) s := by
      unfold Run.enter
      rw [Run.get_bind, if_pos hdepth]
      rfl
    rcases h.depth with heq | ⟨-, hhits⟩
    · left
      rw [hstop]
      unfold Run.enter
      rw [Run.get_bind, if_pos (heq ▸ hdepth), heq]
      rfl
    · exact .inr ⟨_, s, hstop, hhits q.name pos, henter s⟩
  · have hle : limits.depth ≤ limits'.depth := h.depth.elim Nat.le_of_eq And.left
    have hdepth' : ¬ limits'.depth ≤ s.depth := fun hd => hdepth (hle.trans hd)
    have hwithin : Run.CutAt cut (Run.within (Run.callScope q values) q.name x)
        (Run.within (Run.callScope q values) q.name y) s := (hcut _).within
    rw [Run.CutAt, Run.after] at hwithin ⊢
    rw [hsame limits x hdepth, hsame limits' y hdepth']
    exact hwithin

/-- A run with the tighter limits next to one with the others. -/
def coupling (h : Tightens cut limits limits') : Coupling limits limits' where
  rel x y := (∀ s, Run.CutAt cut x y s) ∧ Course.output.Keeps y
  pure _ := ⟨fun _ => .inl rfl, Course.output.refl⟩
  bind hx hf := ⟨fun s => (hx.1 s).bind (fun a => (hf a).1) fun a => (hf a).2, hx.2.bind fun a => (hf a).2⟩
  get := ⟨fun _ => .inl rfl, Course.output.refl⟩
  fail _ := ⟨fun _ => .inl rfl, Course.output.refl⟩
  step pos := ⟨h.steps pos, Course.keeps_step pos⟩
  assign x v := ⟨fun _ => .inl rfl, fun s => Course.output.set s x v⟩
  declare name q := ⟨fun _ => .inl rfl, fun s => Course.output.setProc s name q⟩
  writeLine v := ⟨fun _ => .inl rfl, Course.keeps_writeLine v⟩
  readValue pos := ⟨fun _ => .inl rfl, Course.keeps_readValue pos⟩
  enter pos q values hx := ⟨h.enter pos q values hx.1 hx.2, hx.2.enter pos q values⟩

theorem cutAt_program (h : Tightens cut limits limits') (n : Nat) (p : Program) (s : RunState) :
    Run.CutAt cut (Run.program limits n p) (Run.program limits' n p) s :=
  ((h.coupling.relates n).statements p).1 s.atStart

end Limits.Tightens

/-- A limit of `n` steps was reached. -/
def RunError.AtSteps (n : Nat) (e : RunError) : Prop := ∃ pos, e = .stopped (.stepLimit n) pos

/-- A limit of `d` calls in progress was reached. -/
def RunError.AtDepth (d : Nat) (e : RunError) : Prop := ∃ name pos, e = .stopped (.depthLimit d name) pos

namespace Limits

variable {limits : Limits}

theorem tightens_steps {n : Nat} {bound : Option Nat} (h : ∀ k ∈ bound, n < k) :
    Tightens (RunError.AtSteps n) { limits with steps := some n } { limits with steps := bound } where
  depth := .inl rfl
  steps pos s := by
    by_cases hn : n < s.steps + 1
    · refine .inr ⟨_, _, (Run.step_of_some rfl pos).trans (if_pos hn), ⟨pos, rfl⟩, ?_⟩
      exact Course.keeps_step (c := .output) pos s
    · left
      rw [Run.step_of_some rfl pos, if_neg hn]
      cases bound with
      | none => rw [Run.step_of_none rfl]
      | some k =>
        have hk : ¬ k < s.steps + 1 := fun hk => hn ((h k rfl).trans hk)
        rw [Run.step_of_some rfl, if_neg hk]

theorem tightens_depth {d d' : Nat} (h : d ≤ d') :
    Tightens (RunError.AtDepth d) { limits with depth := d } { limits with depth := d' } where
  depth := .inr ⟨h, fun name pos => ⟨name, pos, rfl⟩⟩
  steps _ _ := .inl rfl

theorem tightens_self (limits : Limits) : Tightens (· = .outOfFuel) limits limits where
  depth := .inl rfl
  steps _ _ := .inl rfl

end Limits

/-- A run next to a longer one, when both are watched for any length of time. They are the same as long
as the short one has not hit its limit, and if it ends before that, so does the long one. If it hits the
limit, what it has written is the beginning of what the long one has written by then or later. -/
structure CutsShort {ρ : Type} (ended hits : ρ → Prop) (written : ρ → List UInt8)
    (short long : Nat → ρ) : Prop where
  same : ∀ n, ¬ hits (short n) → long n = short n
  ends : ∀ n m, n ≤ m → ended (short n) → ¬ hits (short n) → long m = short n
  begins : ∀ n m, n ≤ m → hits (short n) → written (short n) <+: written (long m)

namespace Run

/-- What a run of the interpreter has written when it stops. -/
def written : EStateM.Result RunError RunState Unit → List UInt8
  | .ok _ s => s.sink.written
  | .error _ s => s.sink.written

/-- A run that has ended, not one that was short of fuel. -/
def Ended (result : EStateM.Result RunError RunState Unit) : Prop :=
  ∀ s, result ≠ .error .outOfFuel s

/-- A run that was stopped by one of some errors. -/
def Hits (cut : RunError → Prop) (result : EStateM.Result RunError RunState Unit) : Prop :=
  ∃ e s, result = .error e s ∧ cut e

variable {limits limits' : Limits} {n m : Nat} {cut : RunError → Prop}

theorem written_eq (x : Run Unit) (s : RunState) : written (x s) = (after x s).sink.written := by
  unfold written after
  cases x s with
  | ok a t => rfl
  | error e t => rfl

theorem CutAt.prefix_written {x y : Run Unit} {s : RunState} (h : CutAt cut x y s) :
    written (x s) <+: written (y s) := by
  rcases h with heq | ⟨e, t, hx, -, hwritten⟩
  · rw [heq]
  · rw [hx, written_eq]
    exact hwritten

/-- With more fuel a run writes at least as much. -/
theorem written_mono (hle : n ≤ m) (p : Program) (s : RunState) :
    written (program limits n p s) <+: written (program limits m p s) := by
  let c := (Limits.tightens_self limits).coupling
  have hshort {α : Type} {y : Run α} (hy : Course.output.Keeps y) : c.rel (throw .outOfFuel) y :=
    ⟨fun s => .inr ⟨.outOfFuel, s, rfl, rfl, hy s⟩, hy⟩
  have hzero (m : Nat) : c.Relates 0 m := by
    have h := Course.output.relates limits m
    exact ⟨fun e => hshort (h.eval e), fun es => hshort (h.evalAll es),
      fun token name args => hshort (h.invoke token name args), fun st => hshort (h.exec st),
      fun sts => hshort (h.execAll sts), fun cond body => hshort (h.repeatWhile cond body)⟩
  exact (((Coupling.Relates.of_le hzero hle).statements p).1 s.atStart).prefix_written

theorem cutsShort_program (h : Limits.Tightens cut limits limits') (p : Program) (s : RunState) :
    CutsShort Ended (Hits cut) written (fun n => program limits n p s)
      (fun n => program limits' n p s) := by
  have hsame (n : Nat) (hhits : ¬ Hits cut (program limits n p s)) :
      program limits' n p s = program limits n p s := by
    rcases h.cutAt_program n p s with heq | ⟨e, t, hx, he, -⟩
    · exact heq.symm
    · exact absurd ⟨e, t, hx, he⟩ hhits
  refine ⟨hsame, fun n m hle hended hhits => ?_, fun n m hle _ => ?_⟩
  · rw [← hsame n hhits] at hended ⊢
    exact ((program_mono hle).eq hended).symm
  · exact (h.cutAt_program n p s).prefix_written.trans (written_mono hle p s)

end Run

namespace Machine

variable {m m' : Machine} {n : Nat}

theorem sink_of_emit {bytes : List UInt8} (h : m.emit bytes = .ok m') :
    m.sink.write bytes = .ok m'.sink := by
  unfold emit at h
  cases hwrite : m.sink.write bytes with
  | ok sink =>
    rw [hwrite] at h
    cases h
    rfl
  | error reason =>
    rw [hwrite] at h
    cases h

theorem sink_of_readInt (h : m.readInt = .ok m') : m'.sink = m.sink := by
  unfold readInt at h
  split at h
  · cases h
  · split at h
    · cases h
      exact sink_setReg _ _ _
    · cases h

theorem sink_of_syscall (h : m.syscall = .ok m') :
    (∃ bytes, m.sink.write bytes = .ok m'.sink) ∨ m'.sink = m.sink := by
  unfold syscall at h
  dsimp only at h
  split at h
  · exact .inl ⟨_, sink_of_emit h⟩
  · split at h
    · exact .inl ⟨_, sink_of_emit h⟩
    · split at h
      · exact .inr (sink_of_readInt h)
      · split at h
        · cases h
          exact .inr rfl
        · cases h

/-- Only a service writes. -/
theorem sink_of_perform {i : Instr Int} (h : m.perform i = .ok m') :
    (∃ bytes, m.sink.write bytes = .ok m'.sink) ∨ m'.sink = m.sink := by
  rcases perform_cases h with ⟨r, v, pc, rfl⟩ | ⟨rt, offset, base, -, -, rfl⟩ | ⟨lo, hi, rfl⟩ |
    ⟨pc, rfl⟩ | ⟨-, hservice⟩
  · exact .inr (sink_setReg m r v)
  · exact .inr rfl
  · exact .inr rfl
  · exact .inr rfl
  · exact sink_of_syscall hservice

theorem written_of_advance (limit : Option Nat) (m : Machine) (l : Located) :
    m.sink.written <+: (m.advance limit l).2.sink.written := by
  rcases m.advance_cases limit l with ⟨n, hlimit⟩ | hnone
  · rw [hlimit]
  · rcases hm : perform { m with steps := m.steps + 1 } l.instr with ⟨⟨cause | reason, input⟩⟩ | ⟨m'⟩
    · rw [hnone, advance_fault hm]
    · rw [hnone, advance_output hm]
    · rw [hnone, advance_ok hm]
      rcases sink_of_perform hm with ⟨bytes, hwrite⟩ | hsink
      · rw [Sink.written_write hwrite]
        exact List.prefix_append _ _
      · rw [hsink]

theorem written_of_step (code : Code) (limit : Option Nat) (m : Machine) :
    m.sink.written <+: (m.step code limit).2.sink.written := by
  rw [step]
  split
  · exact List.prefix_refl _
  · split
    · exact List.prefix_refl _
    · exact written_of_advance limit m _

/-- A tighter limit stops a step or does not matter. -/
theorem step_of_limit {bound : Option Nat} (h : ∀ k ∈ bound, n < k) (code : Code) (m : Machine) :
    m.step code (some n) = m.step code bound ∨
      m.step code (some n) = (some (.stepLimit n), { m with steps := m.steps + 1 }) := by
  rw [step, step]
  by_cases hhalted : m.halted = true
  · rw [if_pos hhalted, if_pos hhalted]
    exact .inl rfl
  · rw [if_neg hhalted, if_neg hhalted]
    cases code.fetch m.pc with
    | none => exact .inl rfl
    | some l =>
      by_cases hn : n < m.steps + 1
      · right
        dsimp only
        rw [advance, Option.filter_some_pos (by simpa using hn)]
      · left
        have hbound : bound.filter (· < m.steps + 1) = none := by
          rw [Option.filter_eq_none_iff]
          intro k hk
          have := h k hk
          simp only [decide_eq_true_eq]
          omega
        dsimp only
        rw [advance, Option.filter_some_neg (by simpa using hn), advance, hbound]

theorem written_of_run (code : Code) (limit : Option Nat) (fuel : Nat) (m : Machine) :
    m.sink.written <+: (m.run code limit fuel).2.sink.written := by
  induction fuel generalizing m with
  | zero => exact List.prefix_refl _
  | succ fuel ih =>
    have hstep := written_of_step code limit m
    rw [run]
    split
    · exact List.prefix_refl _
    · split
      · rename_i after hafter
        rw [hafter] at hstep
        exact hstep.trans (ih after)
      · rename_i e after hafter
        rw [hafter] at hstep
        exact hstep

/-- A run that is watched for longer goes on only if it had not ended. -/
theorem run_of_le {fuel fuel' : Nat} (hle : fuel ≤ fuel') (code : Code) (limit : Option Nat)
    (m : Machine) :
    m.run code limit fuel' = m.run code limit fuel ∨
      (m.run code limit fuel).1 = some .outOfFuel ∧
        (m.run code limit fuel).2.sink.written <+: (m.run code limit fuel').2.sink.written := by
  induction fuel generalizing m fuel' with
  | zero =>
    by_cases hhalted : m.halted = true
    · rw [run_halted hhalted, run_halted hhalted]
      exact .inl rfl
    · refine .inr ⟨?_, written_of_run code limit fuel' m⟩
      rw [run, if_neg hhalted]
  | succ fuel ih =>
    obtain ⟨fuel', rfl⟩ := Nat.exists_eq_add_of_le' (Nat.le_trans (Nat.succ_pos fuel) hle)
    rw [run, run]
    split
    · exact .inl rfl
    · split
      · exact ih (Nat.le_of_succ_le_succ hle) _
      · exact .inl rfl

/-- A run with a tighter limit is the longer one or is stopped by the limit. -/
theorem run_of_limit {bound : Option Nat} (h : ∀ k ∈ bound, n < k) (code : Code) (fuel : Nat)
    (m : Machine) :
    m.run code bound fuel = m.run code (some n) fuel ∨
      (m.run code (some n) fuel).1 = some (.stepLimit n) ∧
        (m.run code (some n) fuel).2.sink.written <+: (m.run code bound fuel).2.sink.written := by
  induction fuel generalizing m with
  | zero => exact .inl rfl
  | succ fuel ih =>
    by_cases hhalted : m.halted = true
    · rw [run_halted hhalted, run_halted hhalted]
      exact .inl rfl
    · have hlong := written_of_run code bound (fuel + 1) m
      rw [run, if_neg hhalted] at hlong
      rw [run, run, if_neg hhalted, if_neg hhalted]
      rcases step_of_limit h code m with heq | hlimit
      · rw [heq]
        cases m.step code bound with
        | mk e after =>
          cases e with
          | none => exact ih after
          | some e => exact .inl rfl
      · rw [hlimit]
        exact .inr ⟨rfl, hlong⟩

/-- A run of the machine that has ended, not one that was short of fuel. -/
def Ended (result : Option MachineError × Machine) : Prop := result.1 ≠ some .outOfFuel

/-- A run of the machine that was stopped by its limit. -/
def Hits (n : Nat) (result : Option MachineError × Machine) : Prop := result.1 = some (.stepLimit n)

/-- What a run of the machine has written when it stops. -/
def written (result : Option MachineError × Machine) : List UInt8 := result.2.sink.written

theorem cutsShort_run {bound : Option Nat} (h : ∀ k ∈ bound, n < k) (code : Code) (m : Machine) :
    CutsShort Ended (Hits n) written (fun fuel => m.run code (some n) fuel)
      (fun fuel => m.run code bound fuel) := by
  have hsame (fuel : Nat) (hhits : ¬ Hits n (m.run code (some n) fuel)) :
      m.run code bound fuel = m.run code (some n) fuel :=
    (run_of_limit h code fuel m).resolve_right fun hlimit => hhits hlimit.1
  refine ⟨hsame, fun fuel fuel' hle hended hhits => ?_, fun fuel fuel' hle _ => ?_⟩
  · rw [← hsame fuel hhits] at hended ⊢
    exact (run_of_le hle code bound m).resolve_right fun hfuel => hended hfuel.1
  · have hshort : written (m.run code (some n) fuel) <+: written (m.run code bound fuel) := by
      rcases run_of_limit h code fuel m with heq | ⟨-, hwritten⟩
      · rw [heq]
      · exact hwritten
    rcases run_of_le hle code bound m with heq | ⟨-, hwritten⟩
    · rw [heq]
      exact hshort
    · exact hshort.trans hwritten

end Machine

/-- A limit only cuts runs short: a limit on the statements of a run, a limit on its calls in progress,
and a limit on the instructions of a run of the machine, each against any greater one. -/
theorem limits_cut_short (limits : Limits) (p : Program) (s : RunState) (code : Code)
    (m : Machine) :
    (∀ (n : Nat) (bound : Option Nat), (∀ k ∈ bound, n < k) →
      CutsShort Run.Ended (Run.Hits (RunError.AtSteps n)) Run.written
        (fun fuel => Run.program { limits with steps := some n } fuel p s)
        (fun fuel => Run.program { limits with steps := bound } fuel p s)) ∧
    (∀ d d' : Nat, d < d' →
      CutsShort Run.Ended (Run.Hits (RunError.AtDepth d)) Run.written
        (fun fuel => Run.program { limits with depth := d } fuel p s)
        (fun fuel => Run.program { limits with depth := d' } fuel p s)) ∧
    ∀ (n : Nat) (bound : Option Nat), (∀ k ∈ bound, n < k) →
      CutsShort Machine.Ended (Machine.Hits n) Machine.written
        (fun fuel => m.run code (some n) fuel) (fun fuel => m.run code bound fuel) :=
  ⟨fun _ _ h => Run.cutsShort_program (Limits.tightens_steps h) p s,
    fun _ _ h => Run.cutsShort_program (Limits.tightens_depth (Nat.le_of_lt h)) p s,
    fun _ _ h => Machine.cutsShort_run h code m⟩

/-- Prints a one again and again. -/
def endless : Program where
  procedures := []
  main := some (.loop {} (.literal {} 1 .int false) (.writeLn {} (.literal {} 1 .int false)))

theorem endless_cut_short :
    (∀ k ∈ some 5, 3 < k) ∧
      (∃ e t, Run.program { steps := some 3 } 20 endless {} = .error e t ∧ e.AtSteps 3 ∧
        t.sink.written = Text.bytes "1\n1\n") ∧
      Run.written (Run.program { steps := some 3 } 20 endless {}) <+:
        Run.written (Run.program { steps := some 5 } 30 endless {}) := by
  have hlt : ∀ k ∈ some 5, 3 < k := by decide
  obtain ⟨e, t, hrun, he, hwritten⟩ : ∃ e t,
      Run.program { steps := some 3 } 20 endless {} = .error e t ∧ e.AtSteps 3 ∧
        t.sink.written = Text.bytes "1\n1\n" := ⟨_, _, rfl, ⟨_, rfl⟩, rfl⟩
  have hcut := (limits_cut_short {} endless {} { instrs := #[], entry := 0 }
    { regs := Machine.freshRegs, pc := 0 }).1 3 (some 5) hlt
  exact ⟨hlt, ⟨e, t, hrun, he, hwritten⟩, hcut.begins 20 30 (by decide) ⟨e, t, hrun, he⟩⟩

end MiniPascal
