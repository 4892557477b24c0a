import MiniPascal.Proofs.Faults
import MiniPascal.Proofs.Slots

/-! The code of operators. Wherever the lines of an operator stand in a text that is assembled, the
machine computes with them what the interpreter computes, touches nothing but the two registers of the
operands and the results of divisions, and fails where the interpreter fails. -/

namespace MiniPascal

open Assembly

namespace Assembly

theorem Line.Clean.row_body {l : Line} (h : l.Clean) (number : Nat) :
    AsmLine.row number l.body = l.toAsm number :=
  (AsmLine.ofText_eq_ok_iff.mp (Line.ofText_body h number)).2.symm

theorem Line.Clean.holdsInstr_body {l : Line} (h : l.Clean) : l.body.holdsInstr = l.isInstr := by
  rw [← AsmLine.isInstr_row 0, h.row_body, h.isInstr_toAsm]

/-- Where a clean line stands in a text, its instruction stands in the code. -/
theorem Line.Clean.fetch {mnemonic : Text} {operands : List Text}
    (h : (Line.instr mnemonic operands).Clean) {i : Instr Text} {j : Instr Int}
    (hi : AsmLine.Decodes mnemonic operands i)
    (hj : ∀ f : Text → Except AssemblyError Int, i.resolve f = .ok j) {text : Text} {code : Code}
    (hcode : Code.ofText text = .ok code) {above below : List Text}
    (hlines : text.lines = above ++ (Line.instr mnemonic operands).body :: below) :
    code.fetch (above.countP Text.holdsInstr : Nat) =
      some ⟨j, (above.length + 1 : Nat), (Line.instr mnemonic operands).text⟩ := by
  obtain ⟨located, hfetch, hassemble⟩ := Code.fetch_of_lines hcode hlines h.holdsInstr_body
  rw [h.row_body, AsmLine.assemble, Line.toAsm, hi, AsmLine.ok_bind, hj, AsmLine.ok_bind] at hassemble
  rw [hfetch, ← Except.ok.inj hassemble]
  rfl

end Assembly

namespace Machine

/-- Nothing has changed but the registers `$v0` and `$t0`, the results of divisions, and how far the
machine has got. -/
structure Untouched (m m' : Machine) : Prop where
  reg : ∀ r, r ≠ Reg.v0 → r ≠ Reg.t0 → m'.reg r = m.reg r
  mem : m'.mem = m.mem
  input : m'.input = m.input
  sink : m'.sink = m.sink
  halted : m'.halted = m.halted

/-- As many steps go through as many instructions. -/
structure Works (code : Code) (limit : Option Nat) (n : Nat) (m m' : Machine) : Prop where
  run : m.stepMany code limit n = (none, m')
  pc : m'.pc = m.pc + n
  steps : m'.steps = m.steps + n
  untouched : Untouched m m'

/-- A machine about to execute some lines of a text, behind the lines `above`, with steps enough. -/
structure Faces (m : Machine) (text : Text) (code : Code) (limit : Option Nat) (above : List Text)
    (ls : List Line) : Prop where
  assembled : Code.ofText text = .ok code
  lines : ∃ below, text.lines = above ++ ls.map Line.body ++ below
  pc : m.pc = (above.countP Text.holdsInstr : Nat)
  running : m.halted = false
  zero : m.reg Reg.zero = 0
  allowed : ∀ n, limit = some n → m.steps + ls.length ≤ n

variable {m m' m'' : Machine} {code : Code} {limit : Option Nat} {n k : Nat} {text : Text}
  {above : List Text} {l : Line} {ls : List Line}

theorem Untouched.trans (h : Untouched m m') (h' : Untouched m' m'') : Untouched m m'' where
  reg r hv ht := (h'.reg r hv ht).trans (h.reg r hv ht)
  mem := h'.mem.trans h.mem
  input := h'.input.trans h.input
  sink := h'.sink.trans h.sink
  halted := h'.halted.trans h.halted

theorem Works.trans (h : Works code limit n m m') (h' : Works code limit k m' m'') :
    Works code limit (n + k) m m'' where
  run := by rw [stepMany_add h.run, h'.run]
  pc := by rw [h'.pc, h.pc, Nat.cast_add, Int.add_assoc]
  steps := by rw [h'.steps, h.steps, Nat.add_assoc]
  untouched := h.untouched.trans h'.untouched

theorem untouched_setReg (m : Machine) {r : Reg} (hr : r = Reg.v0 ∨ r = Reg.t0) (v : Int32) :
    Untouched m (m.setReg r v) where
  reg r' hv ht := m.reg_setReg_of_ne _ _ fun h => hr.elim (fun e => hv (h.trans e)) fun e => ht (h.trans e)
  mem := m.mem_setReg _ _
  input := by unfold setReg; split <;> rfl
  sink := m.sink_setReg _ _
  halted := m.halted_setReg _ _

theorem Faces.step_eq {mnemonic : Text} {operands : List Text}
    (h : m.Faces text code limit above (.instr mnemonic operands :: ls))
    (hclean : (Line.instr mnemonic operands).Clean) {i : Instr Text} {j : Instr Int}
    (hi : AsmLine.Decodes mnemonic operands i)
    (hj : ∀ f : Text → Except AssemblyError Int, i.resolve f = .ok j) :
    m.step code limit =
      m.advance none ⟨j, (above.length + 1 : Nat), (Line.instr mnemonic operands).text⟩ := by
  obtain ⟨below, hlines⟩ := h.lines
  rw [List.map_cons, List.append_assoc, List.cons_append] at hlines
  have hfetch := hclean.fetch hi hj h.assembled hlines
  rw [← h.pc] at hfetch
  rcases step_of_fetch h.running hfetch limit with ⟨n, hlimit, hn, -⟩ | hstep
  · have hallowed := h.allowed n hlimit
    rw [List.length_cons] at hallowed
    omega
  · exact hstep

section Instruction

variable {mnemonic : Text} {operands : List Text} {i : Instr Text} {j : Instr Int}
  (h : m.Faces text code limit above (.instr mnemonic operands :: ls))
  (hclean : (Line.instr mnemonic operands).Clean) (hi : AsmLine.Decodes mnemonic operands i)
  (hj : ∀ f : Text → Except AssemblyError Int, i.resolve f = .ok j)

include h hclean hi hj

/-- An instruction that goes through leads to the lines behind it. -/
theorem Faces.works (hperform : perform { m with steps := m.steps + 1 } j = .ok m')
    (hpc : m'.pc = m.pc + 1) (hsteps : m'.steps = m.steps + 1) (hrest : Untouched m m') :
    Works code limit 1 m m' ∧
      m'.Faces text code limit (above ++ [(Line.instr mnemonic operands).body]) ls := by
  have hstep : m.step code limit = (none, m') :=
    (h.step_eq hclean hi hj).trans (advance_ok hperform)
  have hinstr : (Line.instr mnemonic operands).body.holdsInstr = true := hclean.holdsInstr_body
  have hcount : (above ++ [(Line.instr mnemonic operands).body]).countP Text.holdsInstr =
      above.countP Text.holdsInstr + 1 := by
    rw [List.countP_append, List.countP_singleton, if_pos hinstr]
  obtain ⟨below, hlines⟩ := h.lines
  refine ⟨⟨?_, hpc, hsteps, hrest⟩, h.assembled, ⟨below, ?_⟩, ?_, ?_, ?_, ?_⟩
  · rw [stepMany, hstep]
    rfl
  · rw [hlines, List.map_cons, List.append_assoc, List.append_assoc, List.append_assoc]
    rfl
  · rw [hpc, h.pc, hcount]
    rfl
  · rw [hrest.halted, h.running]
  · rw [hrest.reg _ (by decide) (by decide), h.zero]
  · intro n hn
    have hallowed := h.allowed n hn
    rw [List.length_cons] at hallowed
    omega

/-- An instruction that does nothing but set `$v0` or `$t0`. -/
theorem Faces.sets {rd : Reg} (hrd : rd = Reg.v0 ∨ rd = Reg.t0) {v : Int32}
    (hperform : perform { m with steps := m.steps + 1 } j =
      .ok (setReg { m with steps := m.steps + 1 } rd v).next) :
    ∃ m', Works code limit 1 m m' ∧
      m'.Faces text code limit (above ++ [(Line.instr mnemonic operands).body]) ls ∧
      m'.reg rd = v ∧ ∀ r, r ≠ rd → m'.reg r = m.reg r := by
  have hzero : rd ≠ Reg.zero := by rcases hrd with rfl | rfl <;> decide
  have hset := untouched_setReg { m with steps := m.steps + 1 } hrd v
  obtain ⟨hworks, hfaces⟩ := h.works hclean hi hj hperform (congrArg (· + 1) (pc_setReg _ _ _))
    (by unfold next goto setReg; split <;> rfl)
    ⟨hset.reg, hset.mem, hset.input, hset.sink, hset.halted⟩
  exact ⟨_, hworks, hfaces, reg_setReg_self _ _ _ hzero, fun r hr => reg_setReg_of_ne _ _ _ hr⟩

/-- An instruction that is refused ends the run, and the error names its line. -/
theorem Faces.refuses {cause : FaultCause}
    (hperform : perform { m with steps := m.steps + 1 } j = .error (.fault cause, m.input)) :
    m.stepMany code limit (ls.length + 1) =
      (some (.fault cause (above.length + 1 : Nat) (Line.instr mnemonic operands).text),
        { m with steps := m.steps + 1 }) := by
  have hstep := (h.step_eq hclean hi hj).trans (advance_fault hperform)
  rw [stepMany, hstep]

end Instruction

section Operators

variable {v : Int32} (h : m.Faces text code limit above ls)

include h

theorem Faces.works_alu {mnemonic : Text} {op : Alu} (hls : ls = [.instr mnemonic ["$v0", "$t0", "$v0"]])
    (hclean : (Line.instr mnemonic ["$v0", "$t0", "$v0"]).Clean)
    (hi : AsmLine.Decodes mnemonic ["$v0", "$t0", "$v0"] (.alu op Reg.v0 Reg.t0 (.reg Reg.v0))) :
    ∃ m', Works code limit ls.length m m' ∧ m'.reg Reg.v0 = op.apply (m.reg Reg.t0) (m.reg Reg.v0) := by
  subst hls
  obtain ⟨m', hworks, -, hv, -⟩ := h.sets hclean hi (fun _ => rfl) (.inl rfl) rfl
  exact ⟨m', hworks, hv⟩

/-- An operation on truth values, which are made 0 or 1 first. -/
theorem Faces.works_logic {mnemonic : Text} (op : Alu)
    (hls : ls = [.instr "sne" ["$t0", "$t0", "$zero"], .instr "sne" ["$v0", "$v0", "$zero"],
      .instr mnemonic ["$v0", "$t0", "$v0"]])
    (hclean : (Line.instr mnemonic ["$v0", "$t0", "$v0"]).Clean)
    (hi : AsmLine.Decodes mnemonic ["$v0", "$t0", "$v0"] (.alu op Reg.v0 Reg.t0 (.reg Reg.v0))) :
    ∃ m', Works code limit ls.length m m' ∧ m'.reg Reg.v0 =
      op.apply (Word.ofBool (Word.isTrue (m.reg Reg.t0))) (Word.ofBool (Word.isTrue (m.reg Reg.v0))) := by
  subst hls
  obtain ⟨m₁, hworks₁, hfaces₁, ht, hkept₁⟩ := h.sets (by decide)
    (i := .alu .sne Reg.t0 Reg.t0 (.reg Reg.zero)) (fun _ _ => rfl) (fun _ => rfl) (.inr rfl) rfl
  obtain ⟨m₂, hworks₂, hfaces₂, hv, hkept₂⟩ := hfaces₁.sets (by decide)
    (i := .alu .sne Reg.v0 Reg.v0 (.reg Reg.zero)) (fun _ _ => rfl) (fun _ => rfl) (.inl rfl) rfl
  obtain ⟨m₃, hworks₃, hresult⟩ := hfaces₂.works_alu rfl hclean hi
  have hzero := h.zero
  have hzero₁ := hfaces₁.zero
  refine ⟨m₃, (hworks₁.trans hworks₂).trans hworks₃, hresult.trans ?_⟩
  have htruth : ∀ w : Int32, Alu.apply .sne w 0 = Word.ofBool (Word.isTrue w) := fun _ => rfl
  have hleft : m₂.reg Reg.t0 = Word.ofBool (Word.isTrue (m.reg Reg.t0)) := by
    rw [hkept₂ _ (by decide), ht, ← htruth]
    exact congrArg (Alu.apply .sne (m.reg Reg.t0)) hzero
  have hright : m₂.reg Reg.v0 = Word.ofBool (Word.isTrue (m.reg Reg.v0)) := by
    rw [hv, ← hkept₁ Reg.v0 (by decide), ← htruth]
    exact congrArg (Alu.apply .sne (m₁.reg Reg.v0)) hzero₁
  rw [hleft, hright]

theorem Faces.works_div (hls : ls = [.instr "div" ["$v0", "$t0", "$v0"]]) (hne : m.reg Reg.v0 ≠ 0) :
    ∃ m', Works code limit ls.length m m' ∧ m'.reg Reg.v0 = m.reg Reg.t0 / m.reg Reg.v0 := by
  subst hls
  obtain ⟨m', hworks, -, hv, -⟩ := h.sets (by decide) (i := .div Reg.v0 Reg.t0 Reg.v0)
    (fun _ _ => rfl) (fun _ => rfl) (.inl rfl) (if_neg hne)
  exact ⟨m', hworks, hv⟩

/-- The remainder is left beside the quotient first. -/
theorem Faces.works_mod (hls : ls = [.instr "div" ["$t0", "$v0"], .instr "mfhi" ["$v0"]])
    (hne : m.reg Reg.v0 ≠ 0) :
    ∃ m', Works code limit ls.length m m' ∧ m'.reg Reg.v0 = m.reg Reg.t0 % m.reg Reg.v0 := by
  subst hls
  obtain ⟨hworks₁, hfaces₁⟩ := h.works (by decide) (i := .divmod Reg.t0 Reg.v0) (fun _ _ => rfl)
    (fun _ => rfl) (if_neg hne) rfl rfl ⟨fun _ _ _ => rfl, rfl, rfl, rfl, rfl⟩
  obtain ⟨m', hworks₂, -, hv, -⟩ := hfaces₁.sets (by decide) (i := .mfhi Reg.v0) (fun _ _ => rfl)
    (fun _ => rfl) (.inl rfl) rfl
  exact ⟨m', hworks₁.trans hworks₂, hv⟩

theorem Faces.works_operator {op : Operator} (hls : operatorLines? op = some ls)
    (hv : op.apply (m.reg Reg.t0) (m.reg Reg.v0) = .ok v) :
    ∃ m', Works code limit ls.length m m' ∧ m'.reg Reg.v0 = v := by
  cases op with
  | div =>
    by_cases hzero : m.reg Reg.v0 = 0
    · rw [Operator.apply, if_pos hzero] at hv
      cases hv
    · rw [Operator.apply, if_neg hzero] at hv
      exact Except.ok.inj hv ▸ h.works_div (Option.some.inj hls).symm hzero
  | mod =>
    by_cases hzero : m.reg Reg.v0 = 0
    · rw [Operator.apply, if_pos hzero] at hv
      cases hv
    · rw [Operator.apply, if_neg hzero] at hv
      exact Except.ok.inj hv ▸ h.works_mod (Option.some.inj hls).symm hzero
  | and =>
    have hworks := h.works_logic .and (Option.some.inj hls).symm (by decide) fun _ _ => rfl
    rw [Alu.apply, StackMachine.ofBool_and] at hworks
    exact Except.ok.inj hv ▸ hworks
  | or =>
    have hworks := h.works_logic .or (Option.some.inj hls).symm (by decide) fun _ _ => rfl
    rw [Alu.apply, StackMachine.ofBool_or] at hworks
    exact Except.ok.inj hv ▸ hworks
  | other code => cases hls
  | _ => exact Except.ok.inj hv ▸ h.works_alu (Option.some.inj hls).symm (by decide) fun _ _ => rfl

theorem Faces.refuses_operator {op : Operator} (hls : operatorLines? op = some ls) {e : OperatorError}
    (he : op.apply (m.reg Reg.t0) (m.reg Reg.v0) = .error e) :
    e = .divisionByZero ∧ ∃ l rest, ls = l :: rest ∧ m.stepMany code limit ls.length =
      (some (.fault .divisionByZero (above.length + 1 : Nat) l.text),
        { m with steps := m.steps + 1 }) := by
  cases op with
  | div =>
    by_cases hzero : m.reg Reg.v0 = 0
    · rw [Operator.apply, if_pos hzero] at he
      cases he
      cases hls
      exact ⟨rfl, _, _, rfl, h.refuses (by decide) (i := .div Reg.v0 Reg.t0 Reg.v0) (fun _ _ => rfl)
        (fun _ => rfl) (if_pos hzero)⟩
    · rw [Operator.apply, if_neg hzero] at he
      cases he
  | mod =>
    by_cases hzero : m.reg Reg.v0 = 0
    · rw [Operator.apply, if_pos hzero] at he
      cases he
      cases hls
      exact ⟨rfl, _, _, rfl, h.refuses (by decide) (i := .divmod Reg.t0 Reg.v0) (fun _ _ => rfl)
        (fun _ => rfl) (if_pos hzero)⟩
    · rw [Operator.apply, if_neg hzero] at he
      cases he
  | other code => cases hls
  | _ => cases he

end Operators

theorem operatorLines?_eq_none_iff (op : Operator) (a b : Int32) :
    operatorLines? op = none ↔ op.apply a b = .error .unknown := by
  cases op with
  | div => by_cases hzero : b = 0 <;> simp [operatorLines?, Operator.apply, hzero]
  | mod => by_cases hzero : b = 0 <;> simp [operatorLines?, Operator.apply, hzero]
  | _ => simp [operatorLines?, Operator.apply]

/-- The operators that have lines are those that have values, and their lines agree with their values:
with the left operand in `$t0` and the right one in `$v0` the machine goes through the lines to the
value in `$v0`, or it stops in them with a division by zero, just as there is a value or none. -/
theorem operator_code_agrees (op : Operator) (a b : Int32) :
    (operatorLines? op = none ↔ op.apply a b = .error .unknown) ∧
    ∀ ls, operatorLines? op = some ls → ∀ (m : Machine) text code limit above,
      m.Faces text code limit above ls → m.reg Reg.t0 = a → m.reg Reg.v0 = b →
      (∀ v, op.apply a b = .ok v →
        ∃ m', Works code limit ls.length m m' ∧ m'.reg Reg.v0 = v) ∧
      (∀ e, op.apply a b = .error e → ∃ l rest, ls = l :: rest ∧ m.stepMany code limit ls.length =
        (some (.fault .divisionByZero (above.length + 1 : Nat) l.text),
          { m with steps := m.steps + 1 })) ∧
      ∀ e m', m.stepMany code limit ls.length = (some e, m') →
        op.apply a b = .error .divisionByZero := by
  refine ⟨operatorLines?_eq_none_iff op a b, fun ls hls m text code limit above h ha hb => ?_⟩
  subst ha hb
  refine ⟨fun v hv => h.works_operator hls hv, fun e he => (h.refuses_operator hls he).2,
    fun e m' hrun => ?_⟩
  cases hvalue : op.apply (m.reg Reg.t0) (m.reg Reg.v0) with
  | ok v =>
    obtain ⟨m'', hworks, -⟩ := h.works_operator hls hvalue
    cases hworks.run.symm.trans hrun
  | error e' => rw [(h.refuses_operator hls hvalue).1]

/-- A remainder behind a label, between other lines. -/
def remainderText : Text := "main:\n\tli $t1 7\n\tdiv $t0 $v0\n\tmfhi $v0\n\tjr $ra\n"

/-- A machine in front of the remainder of the least word and the given one. -/
def beforeRemainder (divisor : Int32) : Machine :=
  (setReg { regs := freshRegs, pc := 1 } Reg.t0 (-2147483648)).setReg Reg.v0 divisor

theorem least_mod_minusOne :
    ∃ code m' m'', Code.ofText remainderText = .ok code ∧
      Works code (some 2) 2 (beforeRemainder (-1)) m' ∧ m'.reg Reg.v0 = 0 ∧
      (beforeRemainder 0).stepMany code (some 2) 2 =
        (some (.fault .divisionByZero 3 "div $t0 $v0"), m'') := by
  obtain ⟨code, hcode, -⟩ : ∃ code, Code.ofText remainderText = .ok code ∧ true = true :=
    Code.exists_of_passes (by decide +kernel)
  have hfaces : ∀ divisor, (beforeRemainder divisor).Faces remainderText code (some 2)
      ["main:", "\tli $t1 7"] [.instr "div" ["$t0", "$v0"], .instr "mfhi" ["$v0"]] := by
    intro divisor
    have hcount : List.countP Text.holdsInstr ["main:", "\tli $t1 7"] = 1 := by decide +kernel
    refine ⟨hcode, ⟨["\tjr $ra", []], by decide +kernel⟩, ?_, rfl, rfl, fun n hn => ?_⟩
    · rw [hcount]
      rfl
    · cases hn
      exact Nat.le_refl 2
  obtain ⟨m', hworks, hv⟩ := ((operator_code_agrees .mod (-2147483648) (-1)).2 _ rfl _ _ _ _ _
    (hfaces (-1)) rfl rfl).1 _ rfl
  obtain ⟨l, rest, hls, hfault⟩ := ((operator_code_agrees .mod (-2147483648) 0).2 _ rfl _ _ _ _ _
    (hfaces 0) rfl rfl).2.1 _ rfl
  obtain ⟨rfl, -⟩ := List.cons.inj hls
  exact ⟨code, m', _, hcode, hworks, hv.trans (by decide +kernel), hfault⟩

end Machine

end MiniPascal
