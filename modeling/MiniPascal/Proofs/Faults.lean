import MiniPascal.Proofs.AssembledCode
import MiniPascal.Proofs.CutRuns

/-! Steps that fail, and runs that go on afterwards. A step that fails changes nothing but the count of
steps and, on a bad read, the input; so a run that its limit has stopped can be taken up again, and
ends as if it had never been stopped. -/

namespace MiniPascal

namespace Input

/-- A text from which a first word can be taken, and what stands around that word. -/
structure FirstWord (t blanks word after : Text) : Prop where
  text : t = blanks ++ word ++ after
  blanks : ∀ g ∈ blanks, g.isBlank = true
  word : word ≠ [] ∧ ∀ g ∈ word, g.isBlank = false
  after : ∀ g, after.head? = some g → g.isBlank = true

/-- A request for an integer that fails, and what it leaves of the input: a word that is no integer is
taken, one that is too long is not. -/
inductive Misses (i : Input) : InputError → Input → Prop where
  | atEnd (hblank : ∀ g ∈ i.rest, g.isBlank = true) :
    Misses i i.ending.error { i with rest := [], buffer := i.buffer.drain }
  | overlong {blanks word after held beyond : Text} (hfirst : FirstWord i.rest blanks word after)
      (hlong : isOverlong word after = true) (hcut : Text.cutAt window (word ++ after) = (held, beyond))
      {left : Input} (hleft : left.rest = held ∧ left.ending = .overlong beyond) :
    Misses i (Ending.overlong beyond).error left
  | word {blanks word after : Text} (hfirst : FirstWord i.rest blanks word after)
      (hread : Numeral.readWord? .decimal word = none) {left : Input}
      (hleft : left.rest = after.tail ∧ left.ending = i.ending) : Misses i (.notInteger word) left

theorem misses_of_next {i left : Input} {e : InputError} (h : i.next = (.error e, left)) :
    i.Misses e left := by
  rw [next] at h
  dsimp only at h
  by_cases hword : i.rest.trimLeft.takeWhile (!·.isBlank) = []
  · rw [if_pos hword] at h
    cases h
    refine .atEnd ?_
    cases htrim : i.rest.dropWhile Glyph.isBlank with
    | nil => exact List.dropWhile_eq_nil_iff.mp htrim
    | cons g rest =>
      have hhead := List.head?_dropWhile_not Glyph.isBlank i.rest
      rw [htrim] at hhead
      rw [Text.trimLeft, htrim, List.takeWhile_cons_of_pos (by simpa using hhead)] at hword
      cases hword
  rw [if_neg hword] at h
  have hfirst : FirstWord i.rest (i.rest.takeWhile Glyph.isBlank)
      (i.rest.trimLeft.takeWhile (!·.isBlank)) (i.rest.trimLeft.dropWhile (!·.isBlank)) := by
    refine ⟨?_, fun g hg => List.mem_takeWhile_imp hg, ⟨hword, fun g hg => ?_⟩, fun g hg => ?_⟩
    · rw [List.append_assoc, List.takeWhile_append_dropWhile, Text.trimLeft,
        List.takeWhile_append_dropWhile]
    · simpa using List.mem_takeWhile_imp hg
    · have hhead := List.head?_dropWhile_not (!Glyph.isBlank ·) i.rest.trimLeft
      rw [hg] at hhead
      simpa using hhead
  split at h
  · cases h
    rename_i hlong
    exact .overlong hfirst hlong.2 rfl ⟨rfl, rfl⟩
  · split at h
    · cases h
    · cases h
      exact .word hfirst (by assumption) ⟨rfl, rfl⟩

end Input

/-- The error that the refusal of an instruction comes to. -/
def Refusal.toError (l : Located) : Refusal → MachineError
  | .fault cause => .fault cause l.line l.text
  | .output reason => .output reason

namespace Machine

/-- Why a step fails on the way to execute `l`, and what it leaves of the input. -/
inductive Fails (limit : Option Nat) (m : Machine) (l : Located) :
    MachineError → Option Input → Prop where
  | stepLimit {n : Nat} (hlimit : limit = some n) (hn : n ≤ m.steps) :
    Fails limit m l (.stepLimit n) m.input
  | divisionByZero {rs rt : Reg} (hinstr : l.instr = .divmod rs rt ∨ ∃ rd, l.instr = .div rd rs rt)
      (hzero : m.reg rt = 0) : Fails limit m l (.fault .divisionByZero l.line l.text) m.input
  | unaligned {rt base : Reg} {offset : Int32}
      (hinstr : l.instr = .lw rt offset base ∨ l.instr = .sw rt offset base)
      (haddress : (m.address offset base).toNat % 4 ≠ 0) :
    Fails limit m l (.fault (.unaligned (m.address offset base)) l.line l.text) m.input
  | unknownSyscall (hinstr : l.instr = .syscall) (hcode : m.reg Reg.v0 ∉ [1, 5, 10, 11]) :
    Fails limit m l (.fault (.unknownSyscall (m.reg Reg.v0)) l.line l.text) m.input
  | noInput (hinstr : l.instr = .syscall) (hcode : m.reg Reg.v0 = 5) (hinput : m.input = none) :
    Fails limit m l (.fault .noInput l.line l.text) m.input
  | badRead {input rest : Input} {e : InputError} (hinstr : l.instr = .syscall)
      (hcode : m.reg Reg.v0 = 5) (hinput : m.input = some input) (hmisses : input.Misses e rest) :
    Fails limit m l (.fault (.input e) l.line l.text) (some rest)
  | output {bytes : List UInt8} {reason : Text} (hinstr : l.instr = .syscall)
      (hcode : m.reg Reg.v0 = 1 ∨ m.reg Reg.v0 = 11) (hwrite : m.sink.write bytes = .error reason) :
    Fails limit m l (.output reason) m.input

section Refused

variable {m : Machine} {l : Located} {limit : Option Nat} {input : Option Input} {refusal : Refusal}

theorem fails_of_emit {bytes : List UInt8} (hinstr : l.instr = .syscall)
    (hcode : m.reg Reg.v0 = 1 ∨ m.reg Reg.v0 = 11) (h : m.emit bytes = .error (refusal, input)) :
    Fails limit m l (refusal.toError l) input := by
  rw [emit] at h
  cases hwrite : m.sink.write bytes with
  | ok sink =>
    rw [hwrite] at h
    cases h
  | error reason =>
    rw [hwrite] at h
    cases h
    exact .output hinstr hcode hwrite

theorem fails_of_readInt (hinstr : l.instr = .syscall) (hcode : m.reg Reg.v0 = 5)
    (h : m.readInt = .error (refusal, input)) : Fails limit m l (refusal.toError l) input := by
  rw [readInt] at h
  cases hinput : m.input with
  | none =>
    rw [hinput] at h
    cases h
    exact .noInput hinstr hcode hinput
  | some i =>
    rw [hinput] at h
    dsimp only at h
    cases hnext : i.next with
    | mk result rest =>
      rw [hnext] at h
      cases result with
      | ok v => cases h
      | error e =>
        cases h
        exact .badRead hinstr hcode hinput (Input.misses_of_next hnext)

theorem fails_of_syscall (hinstr : l.instr = .syscall) (h : m.syscall = .error (refusal, input)) :
    Fails limit m l (refusal.toError l) input := by
  rw [syscall] at h
  split at h
  · exact fails_of_emit hinstr (.inl (by assumption)) h
  split at h
  · exact fails_of_emit hinstr (.inr (by assumption)) h
  split at h
  · exact fails_of_readInt hinstr (by assumption) h
  split at h
  · cases h
  · cases h
    exact .unknownSyscall hinstr (by simp [*])

theorem isAligned_iff {a : UInt32} : isAligned a = true ↔ a.toNat % 4 = 0 := by
  simp [isAligned, ← UInt32.toNat_inj]

theorem fails_of_address {rt base : Reg} {offset : Int32} {after : Machine}
    (hinstr : l.instr = .lw rt offset base ∨ l.instr = .sw rt offset base)
    (h : (if isAligned (m.address offset base) then .ok after
      else m.refuse (.unaligned (m.address offset base))) = (.error (refusal, input) : Effect)) :
    Fails limit m l (refusal.toError l) input := by
  split at h
  · cases h
  · rename_i haligned
    cases h
    exact .unaligned hinstr fun hmod => haligned (isAligned_iff.mpr hmod)

theorem fails_of_divisor {rs rt : Reg} {after : Machine}
    (hinstr : l.instr = .divmod rs rt ∨ ∃ rd, l.instr = .div rd rs rt)
    (h : (if m.reg rt = 0 then m.refuse .divisionByZero else .ok after) =
      (.error (refusal, input) : Effect)) : Fails limit m l (refusal.toError l) input := by
  split at h
  · cases h
    exact .divisionByZero hinstr (by assumption)
  · cases h

/-- An instruction is refused for one of the reasons above. -/
theorem fails_of_perform (hlegal : l.instr ≠ .illegal)
    (h : m.perform l.instr = .error (refusal, input)) : Fails limit m l (refusal.toError l) input := by
  cases hinstr : l.instr <;> rw [hinstr, perform] at h
  case lw rt offset base => exact fails_of_address (.inl hinstr) h
  case sw rt offset base => exact fails_of_address (.inr hinstr) h
  case div rd rs rt => exact fails_of_divisor (.inr ⟨rd, hinstr⟩) h
  case divmod rs rt => exact fails_of_divisor (.inl hinstr) h
  case syscall => exact fails_of_syscall hinstr h
  case illegal => exact absurd hinstr hlegal
  all_goals cases h

end Refused

/-- A reason other than the limit does not depend on the count of steps. -/
theorem Fails.of_counted {m : Machine} {k : Nat} {l : Located} {limit : Option Nat} {e : MachineError}
    {input : Option Input} (h : Fails limit { m with steps := k } l e input)
    (hlimit : ∀ n, e ≠ .stepLimit n) : Fails limit m l e input := by
  cases h with
  | stepLimit => exact absurd rfl (hlimit _)
  | divisionByZero hinstr hzero => exact .divisionByZero hinstr hzero
  | unaligned hinstr haddress => exact .unaligned hinstr haddress
  | unknownSyscall hinstr hcode => exact .unknownSyscall hinstr hcode
  | noInput hinstr hcode hinput => exact .noInput hinstr hcode hinput
  | badRead hinstr hcode hinput hmisses => exact .badRead hinstr hcode hinput hmisses
  | output hinstr hcode hwrite => exact .output hinstr hcode hwrite

theorem advance_refused {m : Machine} {l : Located} {refusal : Refusal} {input : Option Input}
    (h : perform { m with steps := m.steps + 1 } l.instr = .error (refusal, input)) :
    m.advance none l = (some (refusal.toError l), { m with steps := m.steps + 1, input }) := by
  cases refusal with
  | fault cause => exact advance_fault h
  | output reason => exact advance_output h

/-- What a step can come to. -/
inductive Stepped (code : Code) (limit : Option Nat) (m : Machine) :
    Option MachineError × Machine → Prop where
  | halted (hhalted : m.halted = true) : Stepped code limit m (none, m)
  | outside (hhalted : m.halted = false) (hfetch : code.fetch m.pc = none) :
    Stepped code limit m (none, { m with halted := true })
  | stopped {l : Located} {n : Nat} (hfetch : code.fetch m.pc = some l) (hlimit : limit = some n)
      (hn : n ≤ m.steps) : Stepped code limit m (some (.stepLimit n), { m with steps := m.steps + 1 })
  | done {l : Located} {after : Machine} (hhalted : m.halted = false) (hfetch : code.fetch m.pc = some l)
      (hperform : perform { m with steps := m.steps + 1 } l.instr = .ok after) :
    Stepped code limit m (none, after)
  | refused {l : Located} {refusal : Refusal} {input : Option Input} (hfetch : code.fetch m.pc = some l)
      (hperform : perform { m with steps := m.steps + 1 } l.instr = .error (refusal, input)) :
    Stepped code limit m (some (refusal.toError l), { m with steps := m.steps + 1, input })

/-- A limit stops a step that has an instruction to execute, or does not matter. -/
theorem step_of_fetch {code : Code} {m : Machine} {l : Located} (hhalted : m.halted = false)
    (hfetch : code.fetch m.pc = some l) (limit : Option Nat) :
    (∃ n, limit = some n ∧ n ≤ m.steps ∧
      m.step code limit = (some (.stepLimit n), { m with steps := m.steps + 1 })) ∨
    m.step code limit = m.advance none l := by
  have hstep : m.step code limit = m.advance limit l := by
    rw [step, hhalted, if_neg Bool.false_ne_true, hfetch]
  rw [hstep]
  cases limit with
  | none => exact .inr rfl
  | some n =>
    by_cases hn : n < m.steps + 1
    · refine .inl ⟨n, rfl, Nat.lt_succ_iff.mp hn, ?_⟩
      rw [advance, Option.filter_some_pos (by simpa using hn)]
    · right
      rw [advance, Option.filter_some_neg (by simpa using hn), advance, Option.filter_none]

theorem stepped_step (code : Code) (limit : Option Nat) (m : Machine) :
    Stepped code limit m (m.step code limit) := by
  by_cases hhalted : m.halted = true
  · rw [step, if_pos hhalted]
    exact .halted hhalted
  have hrunning : m.halted = false := Bool.eq_false_iff.mpr hhalted
  cases hfetch : code.fetch m.pc with
  | none =>
    rw [step, if_neg hhalted, hfetch]
    exact .outside hrunning hfetch
  | some l =>
    rcases step_of_fetch hrunning hfetch limit with ⟨n, hlimit, hn, hstep⟩ | hstep
    · rw [hstep]
      exact .stopped hfetch hlimit hn
    · rw [hstep]
      cases hperform : perform { m with steps := m.steps + 1 } l.instr with
      | ok after =>
        rw [advance_ok hperform]
        exact .done hrunning hfetch hperform
      | error result =>
        rw [advance_refused hperform]
        exact .refused hfetch hperform

/-- A step that fails has counted, and perhaps read; nothing else has changed. -/
theorem fails_of_step {code : Code} {limit : Option Nat} {m m' : Machine} {e : MachineError}
    (hlegal : ∀ {pc : Int} {l : Located}, code.fetch pc = some l → l.instr ≠ .illegal)
    (h : m.step code limit = (some e, m')) :
    ∃ l input, code.fetch m.pc = some l ∧ Fails limit m l e input ∧
      m' = { m with steps := m.steps + 1, input } := by
  have hstepped := stepped_step code limit m
  rw [h] at hstepped
  cases hstepped with
  | stopped hfetch hlimit hn => exact ⟨_, m.input, hfetch, .stepLimit hlimit hn, rfl⟩
  | @refused l refusal input hfetch hperform =>
    have hfails : Fails limit { m with steps := m.steps + 1 } l (refusal.toError l) input :=
      fails_of_perform (hlegal hfetch) hperform
    refine ⟨l, input, hfetch, hfails.of_counted fun n => ?_, rfl⟩
    cases refusal <;> simp [Refusal.toError]

/-- The machine with a higher count of steps. -/
def delayed (k : Nat) (m : Machine) : Machine := { m with steps := m.steps + k }

section Delayed

variable (k : Nat) (m : Machine)

theorem setReg_delayed (r : Reg) (v : Int32) :
    (m.delayed k).setReg r v = (m.setReg r v).delayed k := by
  unfold setReg
  split <;> rfl

theorem emit_delayed (bytes : List UInt8) :
    (m.delayed k).emit bytes = (m.emit bytes).map (delayed k) := by
  have hsink : (m.delayed k).sink = m.sink := rfl
  rw [emit, emit, hsink]
  cases m.sink.write bytes <;> rfl

theorem readInt_delayed : (m.delayed k).readInt = m.readInt.map (delayed k) := by
  have hinput : (m.delayed k).input = m.input := rfl
  rw [readInt, readInt, hinput]
  cases m.input with
  | none => rfl
  | some i =>
    dsimp only
    rcases i.next with ⟨e | v, rest⟩
    · rfl
    · have hset := setReg_delayed k { m with input := some rest } Reg.v0 v
      change Except.ok ((delayed k { m with input := some rest }).setReg Reg.v0 v).next = _
      rw [hset]
      rfl

theorem syscall_delayed : (m.delayed k).syscall = m.syscall.map (delayed k) := by
  have hreg (r : Reg) : (m.delayed k).reg r = m.reg r := rfl
  simp only [syscall, hreg, emit_delayed, readInt_delayed, apply_ite (Except.map (delayed k))]
  rfl

theorem perform_delayed (i : Instr Int) :
    (m.delayed k).perform i = (m.perform i).map (delayed k) := by
  have hreg (r : Reg) : (m.delayed k).reg r = m.reg r := rfl
  have haddress (offset : Int32) (base : Reg) :
      (m.delayed k).address offset base = m.address offset base := rfl
  cases i with
  | li rd v => simp only [perform, setReg_delayed]; rfl
  | move rd rs => simp only [perform, hreg, setReg_delayed]; rfl
  | alu op rd rs src =>
    have hoperand : (m.delayed k).operand src = m.operand src := by cases src <;> rfl
    simp only [perform, hreg, hoperand, setReg_delayed]
    rfl
  | mfhi rd => simp only [perform, setReg_delayed]; rfl
  | mflo rd => simp only [perform, setReg_delayed]; rfl
  | jal target => simp only [perform, setReg_delayed]; rfl
  | jump target => rfl
  | jr rs => rfl
  | illegal => rfl
  | syscall => exact syscall_delayed k m
  | lw rt offset base =>
    have hload (a : UInt32) : (m.delayed k).load a = m.load a := rfl
    simp only [perform, haddress, hload, setReg_delayed, apply_ite (Except.map (delayed k))]
    rfl
  | sw rt offset base =>
    simp only [perform, haddress, hreg, apply_ite (Except.map (delayed k))]
    rfl
  | div rd rs rt =>
    simp only [perform, hreg, setReg_delayed, apply_ite (Except.map (delayed k))]
    rfl
  | divmod rs rt =>
    simp only [perform, hreg, apply_ite (Except.map (delayed k))]
    rfl
  | beqz rs target =>
    rw [perform, perform, hreg]
    split <;> rfl
  | bnez rs target =>
    rw [perform, perform, hreg]
    split <;> rfl

/-- Without a limit, a step does not depend on the count of steps. -/
theorem step_delayed (code : Code) :
    (m.delayed k).step code none = ((m.step code none).1, (m.step code none).2.delayed k) := by
  have hhalted : (m.delayed k).halted = m.halted := rfl
  have hpc : (m.delayed k).pc = m.pc := rfl
  rw [step, step, hhalted, hpc]
  split
  · rfl
  cases code.fetch m.pc with
  | none => rfl
  | some l =>
    have hcounted : { m.delayed k with steps := (m.delayed k).steps + 1 } =
        delayed k { m with steps := m.steps + 1 } := by
      simp only [delayed, Nat.add_right_comm]
    have hperform := perform_delayed k { m with steps := m.steps + 1 } l.instr
    dsimp only
    cases hm : perform { m with steps := m.steps + 1 } l.instr with
    | ok after =>
      rw [hm, ← hcounted] at hperform
      rw [advance_ok hm, advance_ok hperform]
    | error result =>
      obtain ⟨refusal, input⟩ := result
      rw [hm, ← hcounted] at hperform
      rw [advance_refused hm, advance_refused hperform]
      exact congrArg (Prod.mk _ { · with input }) hcounted

theorem run_delayed (code : Code) (fuel : Nat) :
    (m.delayed k).run code none fuel =
      ((m.run code none fuel).1, (m.run code none fuel).2.delayed k) := by
  have hhalted (m : Machine) : (m.delayed k).halted = m.halted := rfl
  induction fuel generalizing m with
  | zero => rfl
  | succ fuel ih =>
    rw [run, run, hhalted, step_delayed]
    split
    · rfl
    · rcases m.step code none with ⟨_ | e, after⟩
      · exact ih after
      · rfl

end Delayed

section Resume

variable {code : Code} {m m' : Machine} {fuel fuel' n : Nat} {e : Option MachineError}

theorem ne_stepLimit_of_step (h : m.step code none = (e, m')) : e ≠ some (.stepLimit n) := by
  have hstepped := stepped_step code none m
  rw [h] at hstepped
  cases hstepped with
  | halted => simp
  | outside => simp
  | stopped hfetch hlimit => cases hlimit
  | done => simp
  | @refused l refusal => cases refusal <;> simp [Refusal.toError]

theorem ne_stepLimit_of_run (h : m.run code none fuel = (e, m')) : e ≠ some (.stepLimit n) := by
  induction fuel generalizing m with
  | zero =>
    rw [run] at h
    cases h
    split <;> simp
  | succ fuel ih =>
    rw [run] at h
    split at h
    · cases h
      simp
    · rcases hstep : m.step code none with ⟨_ | error, after⟩
      · rw [hstep] at h
        exact ih h
      · rw [hstep] at h
        cases h
        exact ne_stepLimit_of_step hstep

theorem run_eq_of_le (hle : fuel ≤ fuel') {limit : Option Nat} (h : m.run code limit fuel = (e, m'))
    (hended : e ≠ some .outOfFuel) : m.run code limit fuel' = (e, m') := by
  rw [← h]
  refine (run_of_le hle code limit m).resolve_right fun hfuel => hended ?_
  rw [← hfuel.1, h]

/-- A limit does not matter to a run, or stops it where it can be taken up again: what is left of it
then ends in the same way, one step late. -/
theorem run_stopped (n : Nat) (h : m.run code none fuel = (e, m')) (hended : e ≠ some .outOfFuel) :
    m.run code (some n) fuel = (e, m') ∨
      ∃ stopped, m.run code (some n) fuel = (some (.stepLimit n), stopped) ∧
        stopped.run code none fuel = (e, m'.delayed 1) := by
  induction fuel generalizing m with
  | zero => exact .inl h
  | succ fuel ih =>
    have hlong := h
    rw [run] at h
    rw [run]
    split at h
    · rename_i hhalted
      rw [if_pos hhalted]
      exact .inl h
    · rename_i hhalted
      rw [if_neg hhalted]
      have hcases : m.step code (some n) = m.step code none ∨
          m.step code (some n) = (some (.stepLimit n), m.delayed 1) :=
        step_of_limit (by simp) code m
      rcases hcases with hsame | hlimit
      · rw [hsame]
        rcases hstep : m.step code none with ⟨_ | error, after⟩
        · rw [hstep] at h
          refine (ih h).imp_right ?_
          rintro ⟨stopped, hstopped, hrest⟩
          exact ⟨stopped, hstopped, run_eq_of_le (Nat.le_succ fuel) hrest hended⟩
        · rw [hstep] at h
          exact .inl h
      · -- the machine that was stopped is the one before the step, delayed by one
        rw [hlimit]
        refine .inr ⟨m.delayed 1, rfl, ?_⟩
        rw [run_delayed, hlong]

/-- Runs under one limit after another, each time from where the last limit has stopped the machine,
and in the end without a limit. Says how often a limit has stopped it. -/
def resume (code : Code) (fuel : Nat) : List Nat → Machine → Nat × Option MachineError × Machine
  | [], m => (0, m.run code none fuel)
  | n :: limits, m =>
    match m.run code (some n) fuel with
    | (some (.stepLimit _), stopped) =>
      let (k, result) := resume code fuel limits stopped
      (k + 1, result)
    | result => (0, result)

theorem resume_of_run (limits : List Nat) (h : m.run code none fuel = (e, m'))
    (hended : e ≠ some .outOfFuel) :
    ∃ k ≤ limits.length, ∀ fuel' ≥ fuel, m.resume code fuel' limits = (k, e, m'.delayed k) := by
  induction limits generalizing m m' with
  | nil =>
    refine ⟨0, Nat.le_refl 0, fun fuel' hle => ?_⟩
    rw [resume, run_eq_of_le hle h hended]
    rfl
  | cons n limits ih =>
    rcases run_stopped n h hended with hsame | ⟨stopped, hstopped, hrest⟩
    · refine ⟨0, Nat.zero_le _, fun fuel' hle => ?_⟩
      rw [resume, run_eq_of_le hle hsame hended]
      split
      · rename_i hlimit
        cases hlimit
        exact absurd rfl (ne_stepLimit_of_run h)
      · rfl
    · obtain ⟨k, hk, hresume⟩ := ih hrest
      refine ⟨k + 1, Nat.succ_le_succ hk, fun fuel' hle => ?_⟩
      rw [resume, run_eq_of_le hle hstopped (by simp)]
      dsimp only
      rw [hresume fuel' hle]
      simp only [delayed, Nat.add_assoc, Nat.add_comm 1 k]

end Resume

/-- A step that fails is undone but for the count, and a run may be stopped by limits and taken up again
any number of times. -/
theorem step_atomic_run_resumable {text : Text} {code : Code} (h : Code.ofText text = .ok code)
    (m : Machine) :
    (∀ limit e m', m.step code limit = (some e, m') →
      ∃ l input, code.fetch m.pc = some l ∧ Fails limit m l e input ∧
        m' = { m with steps := m.steps + 1, input }) ∧
    ∀ fuel e m', m.run code none fuel = (e, m') → e ≠ some .outOfFuel → ∀ limits : List Nat,
      ∃ k ≤ limits.length, ∀ fuel' ≥ fuel,
        m.resume code fuel' limits = (k, e, { m' with steps := m'.steps + k }) :=
  ⟨fun _ _ _ => fails_of_step (Code.ne_illegal_of_ofText h), fun _ _ _ hrun hended limits =>
    resume_of_run limits hrun hended⟩

/-- Prints a number and then divides by zero. -/
def printThenDivide : Text :=
  "main: li $a0 7\nli $v0 1\nsyscall\ndiv $t0 $a0 $zero\n"

theorem printThenDivide_resumed :
    ∃ code m', Code.ofText printThenDivide = .ok code ∧
      (start code none {}).run code none 9 = (some (.fault .divisionByZero 4 "div $t0 $a0 $zero"), m') ∧
      (start code none {}).resume code 9 [1, 3] =
        (2, some (.fault .divisionByZero 4 "div $t0 $a0 $zero"), { m' with steps := m'.steps + 2 }) := by
  obtain ⟨code, hcode, hcheck⟩ : ∃ code, Code.ofText printThenDivide = .ok code ∧
      (((start code none {}).run code none 9).1 = some (.fault .divisionByZero 4 "div $t0 $a0 $zero") &&
        ((start code none {}).resume code 9 [1, 3]).1 = 2) = true :=
    Code.exists_of_passes (by decide +kernel)
  simp only [Bool.and_eq_true, decide_eq_true_eq] at hcheck
  obtain ⟨herror, hstops⟩ := hcheck
  refine ⟨code, ((start code none {}).run code none 9).2, hcode, Prod.ext herror rfl, ?_⟩
  obtain ⟨k, -, hresume⟩ := (step_atomic_run_resumable hcode (start code none {})).2 9 _ _
    (Prod.ext herror rfl) (by simp) [1, 3]
  have hk : k = 2 := by
    rw [← hstops, hresume 9 (Nat.le_refl 9)]
  rw [hresume 9 (Nat.le_refl 9), hk]

end Machine

end MiniPascal
