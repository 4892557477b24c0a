import MiniPascal.Proofs.Progress

/-! What can be seen of a run from outside. A system that is observed for a while reports what it has
written so far, and whether it still runs or how it has ended. Two systems behave the same if they
end the same way after the same output, or both run forever with the same output. -/

namespace MiniPascal

inductive Outcome where
  | running
  | exited
  | divisionByZero
  | failed
  deriving DecidableEq

structure Report where
  outcome : Outcome
  output : List UInt8
  deriving DecidableEq

/-- Two systems that are observed for any length of time and cannot be told apart. -/
structure SameBehaviour (a b : Nat → Report) : Prop where
  ends : ∀ r : Report, r.outcome ≠ .running → ((∃ n, a n = r) ↔ ∃ n, b n = r)
  forever : (∀ n, (a n).outcome = .running) ↔ ∀ n, (b n).outcome = .running
  output : ∀ bytes, (∃ n, bytes <+: (a n).output) ↔ ∃ n, bytes <+: (b n).output

namespace SameBehaviour

variable {a b : Nat → Report}

theorem forever_of_ends (h : ∀ r : Report, r.outcome ≠ .running → (∃ n, b n = r) → ∃ n, a n = r)
    (ha : ∀ n, (a n).outcome = .running) (n : Nat) : (b n).outcome = .running := by
  by_contra hn
  obtain ⟨m, hm⟩ := h (b n) hn ⟨n, rfl⟩
  exact hn (hm ▸ ha m)

/-- Two systems that end alike run forever alike. -/
theorem of_ends_of_output
    (hends : ∀ r : Report, r.outcome ≠ .running → ((∃ n, a n = r) ↔ ∃ n, b n = r))
    (houtput : ∀ bytes, (∃ n, bytes <+: (a n).output) ↔ ∃ n, bytes <+: (b n).output) :
    SameBehaviour a b :=
  ⟨hends, ⟨forever_of_ends fun r hr => (hends r hr).mpr, forever_of_ends fun r hr => (hends r hr).mp⟩,
    houtput⟩

end SameBehaviour

/-- What is seen of a run of the interpreter or of the lexical reading. -/
def Report.ofRun : EStateM.Result RunError RunState Unit → Report
  | .ok _ r => ⟨.exited, r.sink.written⟩
  | .error .outOfFuel r => ⟨.running, r.sink.written⟩
  | .error (.stopped (.operator .divisionByZero _) _) r => ⟨.divisionByZero, r.sink.written⟩
  | .error _ r => ⟨.failed, r.sink.written⟩

/-- What is seen of a run of the machine. -/
def Report.ofMachine : Option MachineError × Machine → Report
  | (none, m) => ⟨.exited, m.sink.written⟩
  | (some .outOfFuel, m) => ⟨.running, m.sink.written⟩
  | (some (.fault .divisionByZero _ _), m) => ⟨.divisionByZero, m.sink.written⟩
  | (some _, m) => ⟨.failed, m.sink.written⟩

namespace StackMachine

/-- What is seen of the stack machine within a number of steps. It has failed where it is stuck. -/
def report (code : Code) : Nat → State → Report
  | 0, s => ⟨.running, s.out⟩
  | n + 1, s =>
    match step? code s with
    | some (.next t) => report code n t
    | some .exit => ⟨.exited, s.out⟩
    | some .divisionByZero => ⟨.divisionByZero, s.out⟩
    | none => ⟨.failed, s.out⟩

variable {code : Code} {s t : State} {k n m : Nat}

theorem report_of_runs (h : Runs code k s t) (n : Nat) : report code (k + n) s = report code n t := by
  induction h with
  | refl s => rw [Nat.zero_add]
  | head hstep rest ih =>
    rw [Nat.add_right_comm, report, hstep]
    exact ih

theorem report_running (h : Runs code k s t) : report code k s = ⟨.running, t.out⟩ :=
  report_of_runs h 0

/-- A report on an end is final. -/
theorem report_mono (hends : (report code n s).outcome ≠ .running) (hle : n ≤ m) :
    report code m s = report code n s := by
  induction n generalizing s m with
  | zero => exact absurd rfl hends
  | succ n ih =>
    obtain ⟨m, rfl⟩ := Nat.exists_eq_add_of_le' (Nat.le_trans (Nat.succ_pos n) hle)
    rw [report] at hends ⊢
    rw [report]
    split
    · rename_i t ht
      rw [ht] at hends
      exact ih hends (by omega)
    · rfl
    · rfl
    · rfl

theorem out_prefix_report (s : State) (n : Nat) : s.out <+: (report code n s).output := by
  induction n generalizing s with
  | zero => exact List.prefix_refl _
  | succ n ih =>
    rw [report]
    split
    · rename_i t ht
      exact (Runs.single ht).prefix_out.trans (ih t)
    · exact List.prefix_refl _
    · exact List.prefix_refl _
    · exact List.prefix_refl _

/-- What was written stays written. -/
theorem prefix_output (s : State) (hle : n ≤ m) :
    (report code n s).output <+: (report code m s).output := by
  induction n generalizing s m with
  | zero => exact out_prefix_report s m
  | succ n ih =>
    obtain ⟨m, rfl⟩ := Nat.exists_eq_add_of_le' (Nat.le_trans (Nat.succ_pos n) hle)
    rw [report, report]
    split
    · exact ih _ (by omega)
    · exact List.prefix_refl _
    · exact List.prefix_refl _
    · exact List.prefix_refl _

variable {p : Program} {r : RunState}

/-- The code of a program never fails. -/
theorem report_ne_failed (h : p.Builds code) (hs : Runs code k (start code) s) (n : Nat) :
    (report code n s).outcome ≠ .failed := by
  induction n generalizing k s with
  | zero => exact fun hrunning => by cases hrunning
  | succ n ih =>
    obtain ⟨turn, hturn⟩ := exists_turn h hs
    rw [report, hturn]
    cases turn with
    | next t => exact ih (hs.trans (.single hturn))
    | exit => exact fun hexited => by cases hexited
    | divisionByZero => exact fun hdivided => by cases hdivided

/-- A report on the lexical reading is one on the code, unless the reading was short of fuel; then
the code has come at least as far. -/
theorem report_lexical (h : p.Builds code) (hroom : r.sink.room = none)
    (hempty : r.sink.written = []) (n : Nat) :
    ∃ k t, Runs code k (start code) t ∧
      t.out = (Report.ofRun (Lexical.program n p r)).output ∧
      (((Report.ofRun (Lexical.program n p r)).outcome = .running ∧ n - p.size ≤ p.cost * k) ∨
        (report code (k + 1) (start code) = Report.ofRun (Lexical.program n p r) ∧
          (report code (k + 1) (start code)).outcome ≠ .running)) := by
  have hfollows := follows_program h hroom hempty n
  cases hresult : Lexical.program n p r with
  | ok a r' =>
    rw [hresult] at hfollows
    obtain ⟨k, t, hruns, hout, hexit⟩ := hfollows
    have hreport : report code (k + 1) (start code) = ⟨.exited, t.out⟩ := by
      rw [report_of_runs hruns, report, hexit]
    refine ⟨k, t, hruns, hout, .inr ⟨?_, ?_⟩⟩
    · rw [hreport, hout, Report.ofRun]
    · rw [hreport]
      exact fun hrunning => by cases hrunning
  | error e r' =>
    rw [hresult] at hfollows
    obtain ⟨k, t, hruns, hout, ⟨rfl, hfuel⟩ | ⟨⟨text, pos, rfl⟩, hdivides⟩⟩ := hfollows
    · exact ⟨k, t, hruns, hout, .inl ⟨rfl, hfuel⟩⟩
    · have hreport : report code (k + 1) (start code) = ⟨.divisionByZero, t.out⟩ := by
        rw [report_of_runs hruns, report, hdivides]
      refine ⟨k, t, hruns, hout, .inr ⟨?_, ?_⟩⟩
      · rw [hreport, hout, Report.ofRun]
      · rw [hreport]
        exact fun hrunning => by cases hrunning

/-- With enough fuel the lexical reading comes as far as the code in any number of steps. -/
theorem exists_lexical_report (h : p.Builds code) (hroom : r.sink.room = none)
    (hempty : r.sink.written = []) (m : Nat) :
    ∃ n, (∃ t, Runs code m (start code) t ∧
        t.out <+: (Report.ofRun (Lexical.program n p r)).output) ∨
      ∃ k, report code k (start code) = Report.ofRun (Lexical.program n p r) ∧
        (report code k (start code)).outcome ≠ .running := by
  obtain ⟨k, t, hruns, hout, ⟨-, hfuel⟩ | ⟨hreport, hends⟩⟩ :=
    report_lexical h hroom hempty (p.size + p.cost * m)
  · rw [Nat.add_sub_cancel_left] at hfuel
    obtain ⟨j, rfl⟩ := Nat.exists_eq_add_of_le (Nat.le_of_mul_le_mul_left hfuel (Nat.succ_pos _))
    obtain ⟨t', hfirst, hlast⟩ := hruns.split
    exact ⟨_, .inl ⟨t', hfirst, hout ▸ hlast.prefix_out⟩⟩
  · exact ⟨_, .inr ⟨k + 1, hreport, hends⟩⟩

/-- On the stack machine the code of a program behaves as its lexical reading. -/
theorem sameBehaviour_lexical (h : p.Builds code) (hroom : r.sink.room = none)
    (hempty : r.sink.written = []) :
    SameBehaviour (fun n => .ofRun (Lexical.program n p r))
      (fun n => report code n (start code)) := by
  refine .of_ends_of_output (fun rep hrep => ⟨?_, ?_⟩) (fun bytes => ⟨?_, ?_⟩)
  · rintro ⟨n, rfl⟩
    obtain ⟨k, t, -, -, ⟨hrunning, -⟩ | ⟨hreport, -⟩⟩ := report_lexical h hroom hempty n
    · exact absurd hrunning hrep
    · exact ⟨k + 1, hreport⟩
  · rintro ⟨m, rfl⟩
    obtain ⟨n, ⟨t, hruns, -⟩ | ⟨k, hreport, hends⟩⟩ := exists_lexical_report h hroom hempty m
    · rw [report_running hruns] at hrep
      exact absurd rfl hrep
    · refine ⟨n, hreport.symm.trans ?_⟩
      -- both reports are final
      rw [← report_mono hends (Nat.le_max_right m k), ← report_mono hrep (Nat.le_max_left m k)]
  · rintro ⟨n, hbytes⟩
    obtain ⟨k, t, hruns, hout, -⟩ := report_lexical h hroom hempty n
    refine ⟨k, hbytes.trans ?_⟩
    rw [report_running hruns, hout]
  · rintro ⟨m, hbytes⟩
    obtain ⟨n, ⟨t, hruns, hout⟩ | ⟨k, hreport, hends⟩⟩ := exists_lexical_report h hroom hempty m
    · rw [report_running hruns] at hbytes
      exact ⟨n, hbytes.trans hout⟩
    · refine ⟨n, hbytes.trans ?_⟩
      rw [← hreport, ← report_mono hends (Nat.le_max_right m k)]
      exact prefix_output _ (Nat.le_max_left m k)

end StackMachine

end MiniPascal
