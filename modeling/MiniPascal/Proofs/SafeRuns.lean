import MiniPascal.Proofs.Faults
import MiniPascal.Proofs.Safety

/-! Assembled code is safe to run, whatever it does. The machine fetches instructions of the code only,
never changes the zero register or a register that has no name, stores whole words at addresses of
whole words, and answers every division that has no quotient with a fault. -/

namespace MiniPascal

namespace Machine

/-- The machines that steps lead to from the start of the code. Steps may fail, and the limit need not
be the same all the time. -/
inductive Attained (code : Code) : Machine → Prop where
  | start (input : Option Input) (sink : Sink) : Attained code (.start code input sink)
  | step {m : Machine} (h : Attained code m) (limit : Option Nat) : Attained code (m.step code limit).2

section Registers

variable {m m' : Machine}

theorem reg_of_emit {bytes : List UInt8} (h : m.emit bytes = .ok m') (r : Reg) : m'.reg r = m.reg r := by
  unfold emit at h
  split at h
  · cases h
    rfl
  · cases h

theorem reg_of_syscall (h : m.syscall = .ok m') {r : Reg} (hr : r ≠ Reg.v0) : m'.reg r = m.reg r := by
  unfold syscall at h
  dsimp only at h
  split at h
  · exact reg_of_emit h r
  · split at h
    · exact reg_of_emit h r
    · split at h
      · unfold readInt at h
        split at h
        · cases h
        · split at h
          · cases h
            exact reg_setReg_of_ne _ _ _ hr
          · cases h
      · split at h
        · cases h
          rfl
        · cases h

/-- An instruction changes registers that it names, and those of results and of return addresses. -/
theorem reg_of_perform {i : Instr Int} (h : m.perform i = .ok m') {r : Reg} (hr : r ∉ i.registers)
    (hv0 : r ≠ Reg.v0) (hra : r ≠ Reg.ra) : m'.reg r = m.reg r := by
  have hset {rd : Reg} {v : Int32} {pc : Int} (hrd : r ≠ rd)
      (h : Except.ok ((m.setReg rd v).goto pc) = (.ok m' : Effect)) : m'.reg r = m.reg r := by
    cases h
    exact reg_setReg_of_ne m rd v hrd
  have hne {rd : Reg} (hrd : rd ∈ i.registers) : r ≠ rd := fun heq => hr (heq ▸ hrd)
  cases i with
  | li rd v => exact hset (hne (by simp [Instr.registers])) h
  | lw rt offset base =>
    rw [perform] at h
    split at h
    · exact hset (hne (by simp [Instr.registers])) h
    · cases h
  | sw rt offset base =>
    rw [perform] at h
    split at h <;> cases h
    rfl
  | move rd rs => exact hset (hne (by simp [Instr.registers])) h
  | alu op rd rs src =>
    refine hset (hne ?_) h
    cases src <;> simp [Instr.registers]
  | div rd rs rt =>
    rw [perform] at h
    split at h
    · cases h
    · exact hset (hne (by simp [Instr.registers])) h
  | divmod rs rt =>
    rw [perform] at h
    split at h <;> cases h
    rfl
  | mfhi rd => exact hset (hne (by simp [Instr.registers])) h
  | mflo rd => exact hset (hne (by simp [Instr.registers])) h
  | beqz rs target =>
    cases h
    split <;> rfl
  | bnez rs target =>
    cases h
    split <;> rfl
  | jump target =>
    cases h
    rfl
  | jal target => exact hset hra h
  | jr rs =>
    cases h
    rfl
  | syscall => exact reg_of_syscall h hv0
  | illegal => cases h

theorem reg_zero_of_perform {i : Instr Int} (h : m.perform i = .ok m') :
    m'.reg Reg.zero = m.reg Reg.zero := by
  rcases perform_cases h with ⟨r, v, pc, rfl⟩ | ⟨rt, offset, base, -, -, rfl⟩ | ⟨lo, hi, rfl⟩ |
    ⟨pc, rfl⟩ | ⟨-, hservice⟩
  · have hkeeps : (m.setReg r v).reg Reg.zero = m.reg Reg.zero := by
      rw [reg_setReg, if_neg fun hr => hr.2 hr.1.symm]
    exact hkeeps
  · rfl
  · rfl
  · rfl
  · exact reg_of_syscall hservice (by decide)

end Registers

/-- A step goes through with an instruction, or leaves registers and memory alone. -/
theorem performs_or_keeps (code : Code) (limit : Option Nat) (m : Machine) :
    (∃ l, code.fetch m.pc = some l ∧
      perform { m with steps := m.steps + 1 } l.instr = .ok (m.step code limit).2) ∨
    (m.step code limit).2.regs = m.regs ∧ (m.step code limit).2.mem = m.mem := by
  have hstepped := stepped_step code limit m
  generalize m.step code limit = result at hstepped
  cases hstepped with
  | halted => exact .inr ⟨rfl, rfl⟩
  | outside => exact .inr ⟨rfl, rfl⟩
  | stopped => exact .inr ⟨rfl, rfl⟩
  | done _ hfetch hperform => exact .inl ⟨_, hfetch, hperform⟩
  | refused => exact .inr ⟨rfl, rfl⟩

theorem reg_zero_step (code : Code) (limit : Option Nat) (m : Machine) :
    (m.step code limit).2.reg Reg.zero = m.reg Reg.zero := by
  rcases performs_or_keeps code limit m with ⟨l, -, hperform⟩ | ⟨hregs, -⟩
  · exact (reg_zero_of_perform hperform :)
  · rw [reg, hregs, reg]

/-- Code all of whose registers have names leaves alone those that have none. -/
theorem reg_step_of_not_named {code : Code} {r : Reg} (hr : ¬ Reg.Named r)
    (hnamed : ∀ {pc : Int} {l : Located}, code.fetch pc = some l →
      ∀ r ∈ l.instr.registers, Reg.Named r)
    (limit : Option Nat) (m : Machine) : (m.step code limit).2.reg r = m.reg r := by
  have hv0 : r ≠ Reg.v0 := fun h => hr ⟨"$v0", h ▸ by decide +kernel⟩
  have hra : r ≠ Reg.ra := fun h => hr ⟨"$ra", h ▸ by decide +kernel⟩
  rcases performs_or_keeps code limit m with ⟨l, hfetch, hperform⟩ | ⟨hregs, -⟩
  · exact (reg_of_perform hperform (fun hmem => hr (hnamed hfetch r hmem)) hv0 hra :)
  · rw [reg, hregs, reg]

/-- A step stores one word at most, and at the address of a whole word. -/
theorem mem_step_cases (code : Code) (limit : Option Nat) (m : Machine) :
    (m.step code limit).2.mem = m.mem ∨
      ∃ a v, a.toNat % 4 = 0 ∧ (m.step code limit).2.mem = m.mem.insert a v := by
  rcases performs_or_keeps code limit m with ⟨l, -, hperform⟩ | ⟨-, hmem⟩
  · rcases perform_cases hperform with ⟨r, v, pc, hm⟩ | ⟨rt, offset, base, -, haligned, hm⟩ |
      ⟨lo, hi, hm⟩ | ⟨pc, hm⟩ | ⟨-, hservice⟩
    · rw [hm]
      exact .inl (mem_setReg _ r v)
    · rw [hm]
      exact .inr ⟨_, _, isAligned_iff.mp haligned, rfl⟩
    · rw [hm]
      exact .inl rfl
    · rw [hm]
      exact .inl rfl
    · exact .inl (mem_of_syscall hservice :)
  · exact .inl hmem

/-- What a step that divides comes to. The quotient of the least word by -1 does not fit a word, and
wraps. -/
inductive Divided (limit : Option Nat) (m : Machine) (l : Located) (rs rt : Reg) :
    Option MachineError × Machine → Prop where
  | stopped {n : Nat} (hlimit : limit = some n) (hn : n ≤ m.steps) :
    Divided limit m l rs rt (some (.stepLimit n), { m with steps := m.steps + 1 })
  | byZero (hzero : m.reg rt = 0) :
    Divided limit m l rs rt
      (some (.fault .divisionByZero l.line l.text), { m with steps := m.steps + 1 })
  | quotient {q r : Int32} (hne : m.reg rt ≠ 0)
      (hq : q.toInt = ((m.reg rs).toInt.tdiv (m.reg rt).toInt).bmod (2 ^ 32))
      (hr : r.toInt = (m.reg rs).toInt.tmod (m.reg rt).toInt) {m' : Machine}
      (hm' : (l.instr = .divmod rs rt ∧
          m' = { m with steps := m.steps + 1, pc := m.pc + 1, lo := q, hi := r }) ∨
        ∃ rd, l.instr = .div rd rs rt ∧
          m' = (setReg { m with steps := m.steps + 1 } rd q).next) :
    Divided limit m l rs rt (none, m')

example : ((Int32.minValue).toInt.tdiv (-1 : Int32).toInt).bmod (2 ^ 32) = Int32.minValue.toInt := by
  decide

theorem divided_step {code : Code} {m : Machine} {l : Located} {rs rt : Reg} (hhalted : m.halted = false)
    (hfetch : code.fetch m.pc = some l) (hl : l.instr = .divmod rs rt ∨ ∃ rd, l.instr = .div rd rs rt)
    (limit : Option Nat) : Divided limit m l rs rt (m.step code limit) := by
  have hquotient := Int32.toInt_div (m.reg rs) (m.reg rt)
  have hremainder := Int32.toInt_mod (m.reg rs) (m.reg rt)
  rcases step_of_fetch hhalted hfetch limit with ⟨n, hlimit, hn, hstep⟩ | hstep
  · rw [hstep]
    exact .stopped hlimit hn
  rw [hstep]
  by_cases hzero : m.reg rt = 0
  · have hperform : perform { m with steps := m.steps + 1 } l.instr =
        .error (.fault .divisionByZero, m.input) := by
      rcases hl with hi | ⟨rd, hi⟩
      · rw [hi]
        exact if_pos hzero
      · rw [hi]
        exact if_pos hzero
    rw [advance_refused hperform]
    exact .byZero hzero
  · rcases hl with hi | ⟨rd, hi⟩
    · have hperform : perform { m with steps := m.steps + 1 } l.instr =
          .ok { m with
            steps := m.steps + 1, pc := m.pc + 1, lo := m.reg rs / m.reg rt, hi := m.reg rs % m.reg rt } := by
        rw [hi]
        exact if_neg hzero
      rw [advance_ok hperform]
      exact .quotient hzero hquotient hremainder (.inl ⟨hi, rfl⟩)
    · have hperform : perform { m with steps := m.steps + 1 } l.instr =
          .ok (setReg { m with steps := m.steps + 1 } rd (m.reg rs / m.reg rt)).next := by
        rw [hi]
        exact if_neg hzero
      rw [advance_ok hperform]
      exact .quotient hzero hquotient hremainder (.inr ⟨rd, hi, rfl⟩)

/-- What is safe about a machine. -/
structure Safe (code : Code) (m : Machine) : Prop where
  zero : m.reg Reg.zero = 0
  unnamed : ∀ r, ¬ Reg.Named r → m.reg r = 0
  aligned : ∀ a ∈ m.mem, a.toNat % 4 = 0
  stores : ∀ limit, (m.step code limit).2.mem = m.mem ∨
    ∃ a v, a.toNat % 4 = 0 ∧ (m.step code limit).2.mem = m.mem.insert a v
  halted : m.halted = true → ∀ limit, m.step code limit = (none, m)
  inside : ∀ k : Nat, m.halted = false → m.pc = k → ∀ h : k < code.instrs.size, ∀ limit,
    m.step code limit = m.advance limit code.instrs[k]
  outside : m.halted = false → m.pc < 0 ∨ code.instrs.size ≤ m.pc → ∀ limit,
    m.step code limit = (none, { m with halted := true })
  faults : ∀ limit e m', m.step code limit = (some e, m') →
    ∃ l input, code.fetch m.pc = some l ∧ Fails limit m l e input ∧
      m' = { m with steps := m.steps + 1, input }
  divides : ∀ l rs rt, m.halted = false → code.fetch m.pc = some l →
    (l.instr = .divmod rs rt ∨ ∃ rd, l.instr = .div rd rs rt) →
    ∀ limit, Divided limit m l rs rt (m.step code limit)

namespace Attained

variable {code : Code} {m : Machine}

theorem run (h : Attained code m) (limit : Option Nat) (fuel : Nat) :
    Attained code (m.run code limit fuel).2 := by
  induction fuel generalizing m with
  | zero => exact h
  | succ fuel ih =>
    have hstep := h.step limit
    rw [Machine.run]
    split
    · exact h
    · generalize m.step code limit = result at hstep ⊢
      rcases result with ⟨_ | e, after⟩
      · exact ih hstep
      · exact hstep

theorem reg_zero (h : Attained code m) : m.reg Reg.zero = 0 := by
  induction h with
  | start input sink => exact reg_start code input sink Reg.zero
  | step _ limit ih => rw [reg_zero_step, ih]

theorem reg_of_not_named (h : Attained code m)
    (hnamed : ∀ {pc : Int} {l : Located}, code.fetch pc = some l →
      ∀ r ∈ l.instr.registers, Reg.Named r)
    {r : Reg} (hr : ¬ Reg.Named r) : m.reg r = 0 := by
  induction h with
  | start input sink =>
    have hsp : r ≠ Reg.sp := fun h => hr ⟨"$sp", h ▸ by decide +kernel⟩
    rw [reg_start, if_neg hsp]
  | step _ limit ih => rw [reg_step_of_not_named hr hnamed, ih]

theorem aligned (h : Attained code m) {a : UInt32} (ha : a ∈ m.mem) : a.toNat % 4 = 0 := by
  induction h with
  | start => exact absurd ha Std.TreeMap.not_mem_emptyc
  | @step m _ limit ih =>
    rcases mem_step_cases code limit m with hmem | ⟨b, v, hb, hmem⟩
    · exact ih (hmem ▸ ha)
    · rw [hmem, Std.TreeMap.mem_insert, Std.compare_eq_iff_eq] at ha
      rcases ha with rfl | ha
      · exact hb
      · exact ih ha

end Attained

theorem assembled_wellFormed_safe {text : Text} {code : Code} (h : Code.ofText text = .ok code) :
    Code.WellFormed text code ∧ ∀ m, Attained code m → Safe code m := by
  have hwell := Code.wellFormed_of_ofText h
  have hnamed {pc : Int} {l : Located} (hl : code.fetch pc = some l) :
      ∀ r ∈ l.instr.registers, Reg.Named r := by
    obtain ⟨entry, hexecutes⟩ := hwell.executes_of_fetch hl
    exact fun r hr => (hexecutes.registers r hr).1
  refine ⟨hwell, fun m hm => ?_⟩
  exact {
    zero := hm.reg_zero
    unnamed := fun r hr => hm.reg_of_not_named hnamed hr
    aligned := fun a ha => hm.aligned ha
    stores := fun limit => mem_step_cases code limit m
    halted := fun hhalted limit => by rw [step, if_pos hhalted]
    inside := fun k hrunning hpc hk limit => by
      have hfetch : code.fetch m.pc = some code.instrs[k] := by
        rw [hpc, Code.fetch, if_pos (Int.natCast_nonneg k), Int.toNat_natCast, Array.getElem?_eq_getElem hk]
      rw [step, hrunning, if_neg Bool.false_ne_true, hfetch]
    outside := fun hrunning hpc limit => by
      have hfetch : code.fetch m.pc = none := by
        rw [Code.fetch]
        split
        · exact Array.getElem?_eq_none (by omega)
        · rfl
      rw [step, hrunning, if_neg Bool.false_ne_true, hfetch]
    faults := fun limit e m' => fails_of_step (Code.ne_illegal_of_ofText h)
    divides := fun l rs rt hrunning hfetch hl limit => divided_step hrunning hfetch hl limit }

/-- Divides the least word by -1, stores the quotient, tries to change the zero register and jumps out
of the code. -/
def leastByMinusOne : Text :=
  "main: li $t0 -2147483648\nli $t1 -1\ndiv $t2 $t0 $t1\nsw $t2 -4($sp)\nmove $zero $t2\njr $t2\n"

theorem leastByMinusOne_safe :
    ∃ code, Code.ofText leastByMinusOne = .ok code ∧ Code.WellFormed leastByMinusOne code ∧
      ∃ m, m.halted = true ∧ m.pc = -2147483648 ∧ m.mem.contains 0x7FFFEFF8 = true ∧ Safe code m := by
  obtain ⟨code, hcode, hcheck⟩ : ∃ code, Code.ofText leastByMinusOne = .ok code ∧
      (((start code none {}).run code none 9).2.halted &&
        ((start code none {}).run code none 9).2.pc = -2147483648 &&
        ((start code none {}).run code none 9).2.mem.contains 0x7FFFEFF8) = true :=
    Code.exists_of_passes (by decide +kernel)
  simp only [Bool.and_eq_true, decide_eq_true_eq] at hcheck
  obtain ⟨⟨hhalted, hpc⟩, hstored⟩ := hcheck
  have hattained : Attained code ((start code none {}).run code none 9).2 :=
    (Attained.start none {}).run none 9
  obtain ⟨hwell, hsafe⟩ := assembled_wellFormed_safe hcode
  exact ⟨code, hcode, hwell, _, hhalted, hpc, hstored, hsafe _ hattained⟩

end Machine

end MiniPascal
