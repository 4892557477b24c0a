import MiniPascal.Proofs.Behaviour

/-! The machine does what the stack machine does. The words of the stack lie below the top of the
stack, each in an address of its own as long as the stack has less than 2 ^ 32 bytes. -/

namespace MiniPascal

/-- Whether a text is assembled, and to code that passes a check. -/
def Code.passes (text : Text) (check : Code → Bool) : Bool :=
  match Code.ofText text with
  | .ok code => check code
  | .error _ => false

theorem Code.exists_of_passes {text : Text} {check : Code → Bool}
    (h : Code.passes text check = true) :
    ∃ code, Code.ofText text = .ok code ∧ check code = true := by
  unfold passes at h
  split at h
  · exact ⟨_, by assumption, h⟩
  · cases h

namespace Machine

section Fields

variable (m : Machine) (r : Reg) (v : Int32)

@[simp] theorem pc_setReg : (m.setReg r v).pc = m.pc := by
  unfold setReg
  split <;> rfl

@[simp] theorem hi_setReg : (m.setReg r v).hi = m.hi := by
  unfold setReg
  split <;> rfl

@[simp] theorem mem_setReg : (m.setReg r v).mem = m.mem := by
  unfold setReg
  split <;> rfl

@[simp] theorem halted_setReg : (m.setReg r v).halted = m.halted := by
  unfold setReg
  split <;> rfl

@[simp] theorem sink_setReg : (m.setReg r v).sink = m.sink := by
  unfold setReg
  split <;> rfl

theorem reg_setReg_self (hr : r ≠ Reg.zero) : (m.setReg r v).reg r = v := by
  rw [reg_setReg, if_pos ⟨rfl, hr⟩]

theorem reg_setReg_of_ne {r' : Reg} (h : r' ≠ r) : (m.setReg r v).reg r' = m.reg r' := by
  rw [reg_setReg, if_neg fun hr => h hr.1]

end Fields

theorem reg_start (code : Code) (input : Option Input) (sink : Sink) (r : Reg) :
    (start code input sink).reg r = if r = Reg.sp then stackTop else 0 := by
  have hfresh : ∀ r : Reg, freshRegs[r] = if r = Reg.sp then stackTop else 0 := by decide
  exact hfresh r

/-- What an instruction that goes through does: it sets a register, stores a word, divides or only goes
on elsewhere, unless it asks for a service. -/
theorem perform_cases {m m' : Machine} {i : Instr Int} (h : m.perform i = .ok m') :
    (∃ r v pc, m' = (m.setReg r v).goto pc) ∨
      (∃ rt offset base, i = .sw rt offset base ∧ isAligned (m.address offset base) = true ∧
        m' = (m.store (m.address offset base) (m.reg rt)).next) ∨
      (∃ lo hi, m' = { m with lo, hi }.next) ∨ (∃ pc, m' = m.goto pc) ∨
      (i = .syscall ∧ m.syscall = .ok m') := by
  have hset : ∀ {r : Reg} {v : Int32}, Except.ok (m.setReg r v).next = (.ok m' : Effect) →
      ∃ r v pc, m' = (m.setReg r v).goto pc := by
    intro r v h
    cases h
    exact ⟨r, v, _, rfl⟩
  cases i <;> rw [perform] at h
  case li rd v => exact .inl (hset h)
  case lw rt offset base =>
    split at h
    · exact .inl (hset h)
    · cases h
  case sw rt offset base =>
    split at h
    · rename_i haligned
      cases h
      exact .inr (.inl ⟨rt, offset, base, rfl, haligned, rfl⟩)
    · cases h
  case move rd rs => exact .inl (hset h)
  case alu op rd rs src => exact .inl (hset h)
  case div rd rs rt =>
    split at h
    · cases h
    · exact .inl (hset h)
  case divmod rs rt =>
    split at h <;> cases h
    exact .inr (.inr (.inl ⟨_, _, rfl⟩))
  case mfhi rd => exact .inl (hset h)
  case mflo rd => exact .inl (hset h)
  case beqz rs target =>
    cases h
    split <;> exact .inr (.inr (.inr (.inl ⟨_, rfl⟩)))
  case bnez rs target =>
    cases h
    split <;> exact .inr (.inr (.inr (.inl ⟨_, rfl⟩)))
  case jump target =>
    cases h
    exact .inr (.inr (.inr (.inl ⟨_, rfl⟩)))
  case jal target =>
    cases h
    exact .inl ⟨_, _, _, rfl⟩
  case jr rs =>
    cases h
    exact .inr (.inr (.inr (.inl ⟨_, rfl⟩)))
  case syscall => exact .inr (.inr (.inr (.inr ⟨rfl, h⟩)))
  case illegal => cases h

section Advance

variable {m m' : Machine} {l : Located}

/-- A limit on steps either stops an instruction or does not matter. -/
theorem advance_cases (m : Machine) (limit : Option Nat) (l : Located) :
    (∃ n, m.advance limit l = (some (.stepLimit n), { m with steps := m.steps + 1 })) ∨
      m.advance limit l = m.advance none l := by
  cases limit with
  | none => exact .inr rfl
  | some n =>
    by_cases hn : n < m.steps + 1
    · exact .inl ⟨n, by rw [advance, Option.filter_some_pos (by simpa using hn)]⟩
    · exact .inr (by rw [advance, Option.filter_some_neg (by simpa using hn), advance, Option.filter_none])

theorem advance_ok (h : perform { m with steps := m.steps + 1 } l.instr = .ok m') :
    m.advance none l = (none, m') := by
  rw [advance, Option.filter_none, h]

theorem advance_fault {cause : FaultCause} {input : Option Input}
    (h : perform { m with steps := m.steps + 1 } l.instr = .error (.fault cause, input)) :
    m.advance none l =
      (some (.fault cause l.line l.text), { m with steps := m.steps + 1, input }) := by
  rw [advance, Option.filter_none, h]

theorem advance_output {reason : Text} {input : Option Input}
    (h : perform { m with steps := m.steps + 1 } l.instr = .error (.output reason, input)) :
    m.advance none l = (some (.output reason), { m with steps := m.steps + 1, input }) := by
  rw [advance, Option.filter_none, h]

theorem run_halted {code : Code} {limit : Option Nat} (h : m.halted = true) (n : Nat) :
    m.run code limit n = (none, m) := by
  cases n with
  | zero => rw [run, if_pos h]
  | succ n => rw [run, if_pos h]

end Advance

/-- The address of a word of the stack, which is `i` words above the stack pointer. -/
def slotAddress (m : Machine) (i : Nat) : UInt32 := m.address (Int32.ofNat (4 * i)) Reg.sp

/-- The bytes of stack in use after `n` steps, above those in use before them: what the stack pointer
has gone down by. -/
def stackUse (code : Code) : Nat → Machine → Int
  | 0, _ => 0
  | n + 1, m =>
    (m.reg Reg.sp - (m.step code none).2.reg Reg.sp).toInt + stackUse code n (m.step code none).2

/-- Whether the machine halts within `n` steps and with less than 2 ^ 32 bytes of stack in use, given
those in use now. -/
def haltsWithin (code : Code) : Nat → Int → Machine → Bool
  | 0, used, m => m.halted && decide (used < 2 ^ 32)
  | n + 1, used, m =>
    decide (used < 2 ^ 32) && haltsWithin code n
      (used + (m.reg Reg.sp - (m.step code none).2.reg Reg.sp).toInt) (m.step code none).2

theorem stackUse_of_halted {code : Code} {m : Machine} (h : m.halted = true) (n : Nat) :
    stackUse code n m = 0 := by
  have hstep : m.step code none = (none, m) := by rw [step, if_pos h]
  induction n with
  | zero => rfl
  | succ n ih =>
    rw [stackUse, hstep]
    dsimp only
    rw [ih, Int32.sub_self]
    rfl

theorem stackUse_lt_of_haltsWithin {code : Code} {n : Nat} {used : Int} {m : Machine}
    (h : haltsWithin code n used m = true) (k : Nat) : used + stackUse code k m < 2 ^ 32 := by
  induction n generalizing used m k with
  | zero =>
    rw [haltsWithin, Bool.and_eq_true, decide_eq_true_eq] at h
    rw [stackUse_of_halted h.1]
    omega
  | succ n ih =>
    rw [haltsWithin, Bool.and_eq_true, decide_eq_true_eq] at h
    cases k with
    | zero =>
      rw [stackUse]
      omega
    | succ k =>
      have hrest := ih h.2 k
      rw [stackUse]
      omega

theorem slotAddress_injective (m : Machine) {i j : Nat} (hi : 4 * i < 2 ^ 32) (hj : 4 * j < 2 ^ 32)
    (h : m.slotAddress i = m.slotAddress j) : i = j := by
  have hoffset : UInt32.ofNat (4 * i) = UInt32.ofNat (4 * j) :=
    UInt32.add_right_inj (m.reg Reg.sp).toUInt32 |>.mp h
  have hnat := congrArg UInt32.toNat hoffset
  rw [UInt32.toNat_ofNat_of_lt' hi, UInt32.toNat_ofNat_of_lt' hj] at hnat
  omega

end Machine

namespace StackMachine

/-- The machine `m` is in the state `s` of the stack machine. -/
structure Views (m : Machine) (s : State) : Prop where
  pc_eq : m.pc = s.pc
  regs : ∀ r, r ≠ Reg.sp → r ≠ Reg.zero → m.reg r = s.regs r
  zero : m.reg Reg.zero = 0
  hi_eq : m.hi = s.hi
  sp_eq : m.reg Reg.sp = Machine.stackTop - Int32.ofNat (4 * s.stack.length)
  words : ∀ (i : Nat) (v : Int32), s.stack[i]? = some (some v) → m.mem[m.slotAddress i]? = some v
  running : m.halted = false

variable {m : Machine} {s t : State} {r : Reg} {v : Int32} {offset : Int32} {i : Nat}

theorem views_start (code : Code) (input : Option Input) (sink : Sink) :
    Views (.start code input sink) (start code) where
  pc_eq := rfl
  regs r hsp _ := by rw [Machine.reg_start, if_neg hsp]; rfl
  zero := by rw [Machine.reg_start]; rfl
  hi_eq := rfl
  sp_eq := by
    rw [Machine.reg_start, if_pos rfl]
    show Machine.stackTop = Machine.stackTop - Int32.ofNat 0
    decide
  words i v hv := by cases hv
  running := rfl

theorem offset_eq (h : offset.toInt = 4 * i) : offset = Int32.ofNat (4 * i) := by
  rw [← Int32.ofInt_toInt offset, h, ← Int32.ofInt_eq_ofNat]
  rfl

namespace Views

theorem goto (h : Views m s) (pc : Int) : Views (m.goto pc) (s.goto pc) :=
  ⟨rfl, h.regs, h.zero, h.hi_eq, h.sp_eq, h.words, h.running⟩

theorem next (h : Views m s) : Views m.next s.next := by
  unfold Machine.next State.next
  rw [h.pc_eq]
  exact h.goto _

theorem get? (h : Views m s) (hv : s.get? r = some v) : m.reg r = v := by
  obtain ⟨hsp, rfl⟩ := State.get?_eq_some_iff.mp hv
  by_cases hzero : r = Reg.zero
  · rw [if_pos hzero, hzero, h.zero]
  · rw [if_neg hzero, h.regs r hsp hzero]

theorem operand? (h : Views m s) {src : Operand} (hv : s.operand? src = some v) :
    m.operand src = v := by
  cases src with
  | reg r => exact h.get? hv
  | imm n => exact Option.some.inj hv

theorem set? (h : Views m s) (ht : s.set? r v = some t) : Views (m.setReg r v) t := by
  obtain ⟨hsp, hzero, rfl⟩ := State.set?_eq_some_iff.mp ht
  have hspne : Reg.sp ≠ r := Ne.symm hsp
  refine ⟨by rw [m.pc_setReg, h.pc_eq], fun r' hsp' hzero' => ?_, ?_, by rw [m.hi_setReg, h.hi_eq], ?_,
    fun i w hw => ?_, by rw [m.halted_setReg, h.running]⟩
  · by_cases hr : r' = r
    · subst hr
      rw [m.reg_setReg_self _ _ hzero]
      exact (Function.update_self r' v s.regs).symm
    · rw [m.reg_setReg_of_ne _ _ hr, h.regs r' hsp' hzero']
      exact (Function.update_of_ne hr v s.regs).symm
  · rw [m.reg_setReg_of_ne _ _ (Ne.symm hzero), h.zero]
  · rw [m.reg_setReg_of_ne _ _ hspne, h.sp_eq]
  · have haddress : (m.setReg r v).slotAddress i = m.slotAddress i := by
      rw [Machine.slotAddress, Machine.address, m.reg_setReg_of_ne _ _ hspne]
      rfl
    rw [haddress, m.mem_setReg]
    exact h.words i w hw

theorem set?_next (h : Views m s) {turn : Turn}
    (hturn : (s.set? r v).map (fun t => Turn.next t.next) = some turn) :
    ∃ t, turn = .next t ∧ t.out = s.out ∧ Views (m.setReg r v).next t := by
  obtain ⟨t, ht, rfl⟩ := Option.map_eq_some_iff.mp hturn
  have hout : t.out = s.out := by rw [(State.set?_eq_some_iff.mp ht).2.2]
  exact ⟨t.next, rfl, hout, (h.set? ht).next⟩

/-- Room for a word at the top. -/
theorem push (h : Views m s) :
    Views (m.setReg Reg.sp (m.reg Reg.sp - 4)) { s with stack := none :: s.stack } := by
  have hsp : (m.setReg Reg.sp (m.reg Reg.sp - 4)).reg Reg.sp = m.reg Reg.sp - 4 :=
    m.reg_setReg_self _ _ (by decide)
  refine ⟨by rw [m.pc_setReg, h.pc_eq], fun r hr hzero => ?_, ?_, by rw [m.hi_setReg, h.hi_eq], ?_,
    fun i w hw => ?_, by rw [m.halted_setReg, h.running]⟩
  · rw [m.reg_setReg_of_ne _ _ hr, h.regs r hr hzero]
  · rw [m.reg_setReg_of_ne _ _ (by decide), h.zero]
  · rw [hsp, h.sp_eq, List.length_cons, Nat.mul_add, Int32.ofNat_add]
    grind
  · cases i with
    | zero => cases hw
    | succ i =>
      have haddress : (m.setReg Reg.sp (m.reg Reg.sp - 4)).slotAddress (i + 1) = m.slotAddress i := by
        rw [Machine.slotAddress, Machine.address, hsp, Nat.mul_add, Int32.ofNat_add]
        exact congrArg Int32.toUInt32 (by grind)
      rw [haddress, m.mem_setReg]
      exact h.words i w hw

/-- The words at the top given up. -/
theorem drop (h : Views m s) {count : Nat} (hcount : count ≤ s.stack.length) :
    Views (m.setReg Reg.sp (m.reg Reg.sp + Int32.ofNat (4 * count)))
      { s with stack := s.stack.drop count } := by
  have hsp : (m.setReg Reg.sp (m.reg Reg.sp + Int32.ofNat (4 * count))).reg Reg.sp =
      m.reg Reg.sp + Int32.ofNat (4 * count) := m.reg_setReg_self _ _ (by decide)
  refine ⟨by rw [m.pc_setReg, h.pc_eq], fun r hr hzero => ?_, ?_, by rw [m.hi_setReg, h.hi_eq], ?_,
    fun i w hw => ?_, by rw [m.halted_setReg, h.running]⟩
  · rw [m.reg_setReg_of_ne _ _ hr, h.regs r hr hzero]
  · rw [m.reg_setReg_of_ne _ _ (by decide), h.zero]
  · have hlen : 4 * s.stack.length = 4 * (s.stack.length - count) + 4 * count := by omega
    rw [hsp, h.sp_eq, List.length_drop, hlen, Int32.ofNat_add]
    grind
  · rw [List.getElem?_drop] at hw
    have haddress : (m.setReg Reg.sp (m.reg Reg.sp + Int32.ofNat (4 * count))).slotAddress i =
        m.slotAddress (count + i) := by
      rw [Machine.slotAddress, Machine.address, hsp, Machine.slotAddress, Nat.mul_add,
        Int32.ofNat_add]
      exact congrArg Int32.toUInt32 (by grind)
    rw [haddress, m.mem_setReg]
    exact h.words (count + i) w hw

theorem store (h : Views m s) (hlen : 4 * s.stack.length < 2 ^ 32) (hi : i < s.stack.length) :
    Views (m.store (m.slotAddress i) v) { s with stack := s.stack.set i (some v) } := by
  refine ⟨h.pc_eq, h.regs, h.zero, h.hi_eq, ?_, fun j w hw => ?_, h.running⟩
  · show m.reg Reg.sp = _
    rw [h.sp_eq, List.length_set]
  · show (m.mem.insert (m.slotAddress i) v)[m.slotAddress j]? = some w
    by_cases hj : j = i
    · subst hj
      have hset : (s.stack.set j (some v))[j]? = some (some v) := List.getElem?_set_self hi
      obtain rfl : v = w := Option.some.inj (Option.some.inj (hset.symm.trans hw))
      exact Std.TreeMap.getElem?_insert_self
    · have hold : s.stack[j]? = some (some w) := (List.getElem?_set_ne (Ne.symm hj)).symm.trans hw
      have hlt := (List.getElem?_eq_some_iff.mp hold).1
      have hne : m.slotAddress i ≠ m.slotAddress j := fun heq =>
        hj (m.slotAddress_injective (by omega) (by omega) heq).symm
      rw [Std.TreeMap.getElem?_insert, if_neg fun hc => hne (Std.compare_eq_iff_eq.mp hc)]
      exact h.words j w hold

/-- Every word of the stack has an aligned address. -/
theorem isAligned (h : Views m s) (i : Nat) : Machine.isAligned (m.slotAddress i) = true := by
  have htop : Machine.stackTop.toUInt32.toNat = 2147479548 := by decide
  have haddress : m.slotAddress i = Machine.stackTop.toUInt32 -
      UInt32.ofNat (4 * s.stack.length) + UInt32.ofNat (4 * i) := by
    rw [Machine.slotAddress, Machine.address, h.sp_eq]
    rfl
  have hnat : (m.slotAddress i % 4).toNat = 0 := by
    rw [haddress, UInt32.toNat_mod, UInt32.toNat_add, UInt32.toNat_sub, htop, UInt32.toNat_ofNat',
      UInt32.toNat_ofNat']
    show _ % 4 = 0
    omega
  rw [Machine.isAligned, beq_iff_eq]
  exact UInt32.toNat_inj.mp hnat

end Views

/-- What an instruction of the machine comes to while the stack machine goes from `s` to `t`. -/
inductive Performed (m : Machine) (s t : State) : Machine.Effect → Prop where
  | silent {m' : Machine} (h : Views m' t) (hsink : m'.sink = m.sink) (hout : t.out = s.out) :
    Performed m s t (.ok m')
  | wrote {m' : Machine} {bytes : List UInt8} (h : Views m' t)
      (hsink : m.sink.write bytes = .ok m'.sink) (hout : t.out = s.out ++ bytes) :
    Performed m s t (.ok m')
  | refused {bytes : List UInt8} {reason : Text} (hsink : m.sink.write bytes = .error reason) :
    Performed m s t (.error (.output reason, m.input))

theorem Performed.of_set? (h : Views m s)
    (ht : (s.set? r v).map (fun t => Turn.next t.next) = some (.next t)) :
    Performed m s t (.ok (m.setReg r v).next) := by
  obtain ⟨t', ht', hout, hviews⟩ := h.set?_next ht
  cases ht'
  exact .silent hviews (m.sink_setReg r v) hout

theorem Performed.emit (h : Views m s) (bytes : List UInt8) :
    Performed m s { s with out := s.out ++ bytes }.next (m.emit bytes) := by
  unfold Machine.emit
  cases hwrite : m.sink.write bytes with
  | ok sink =>
    have hviews : Views { m with sink } { s with out := s.out ++ bytes } :=
      ⟨h.pc_eq, h.regs, h.zero, h.hi_eq, h.sp_eq, h.words, h.running⟩
    exact .wrote hviews.next hwrite rfl
  | error reason => exact .refused hwrite

theorem Performed.moveTop? {op : Alu} {src : Operand} (h : Views m s)
    (ht : s.moveTop? op src = some t) :
    Performed m s t.next
      (.ok (m.setReg Reg.sp (op.apply (m.reg Reg.sp) (m.operand src))).next) := by
  unfold State.moveTop? at ht
  split at ht
  · rename_i n
    split at ht
    · rename_i hn
      cases ht
      subst hn
      exact .silent h.push.next (m.sink_setReg _ _) rfl
    · cases ht
  · rename_i n
    obtain ⟨count, hcount, ht⟩ := Option.bind_eq_some_iff.mp ht
    split at ht
    · rename_i hle
      cases ht
      obtain rfl := offset_eq (State.words?_eq_some_iff.mp hcount)
      exact .silent (h.drop hle).next (m.sink_setReg _ _) rfl
    · cases ht
  · cases ht

theorem Performed.syscall? (h : Views m s) (ht : s.syscall? = some (.next t)) :
    Performed m s t m.syscall := by
  have hv0 : m.reg Reg.v0 = s.regs Reg.v0 := h.regs Reg.v0 (by decide) (by decide)
  have ha0 : m.reg Reg.a0 = s.regs Reg.a0 := h.regs Reg.a0 (by decide) (by decide)
  unfold State.syscall? at ht
  unfold Machine.syscall
  rw [hv0, ha0]
  by_cases hnumber : s.regs Reg.v0 = 1
  · rw [if_pos hnumber] at ht ⊢
    cases ht
    exact .emit h _
  · rw [if_neg hnumber] at ht ⊢
    by_cases hbyte : s.regs Reg.v0 = 11
    · rw [if_pos hbyte] at ht ⊢
      cases ht
      exact .emit h _
    · rw [if_neg hbyte] at ht
      split at ht <;> cases ht

section Access

variable {base rt : Reg} {turn : Turn}

theorem address_eq (h : State.index? offset base = some i) :
    m.address offset base = m.slotAddress i := by
  obtain ⟨rfl, hoffset⟩ := State.index?_eq_some_iff.mp h
  rw [Machine.slotAddress, ← offset_eq hoffset]

/-- A load that is not stuck is one of a word that was stored. -/
theorem State.exists_of_perform?_lw (h : s.perform? (.lw rt offset base) = some turn) :
    ∃ i v, index? offset base = some i ∧ s.stack[i]? = some (some v) ∧
      (s.set? rt v).map (fun t => Turn.next t.next) = some turn := by
  rw [perform?] at h
  obtain ⟨i, hindex, h⟩ := Option.bind_eq_some_iff.mp h
  obtain ⟨v, hv, h⟩ := Option.bind_eq_some_iff.mp h
  exact ⟨i, v, hindex, Option.join_eq_some_iff.mp hv, h⟩

/-- A store that is not stuck is one of a word of the stack. -/
theorem State.exists_of_perform?_sw (h : s.perform? (.sw rt offset base) = some turn) :
    ∃ i v, index? offset base = some i ∧ s.get? rt = some v ∧ i < s.stack.length ∧
      turn = .next { s with stack := s.stack.set i (some v) }.next := by
  rw [perform?] at h
  obtain ⟨i, hindex, h⟩ := Option.bind_eq_some_iff.mp h
  obtain ⟨v, hv, h⟩ := Option.bind_eq_some_iff.mp h
  by_cases hi : i < s.stack.length
  · rw [if_pos hi] at h
    exact ⟨i, v, hindex, hv, hi, (Option.some.inj h).symm⟩
  · rw [if_neg hi] at h
    cases h

end Access

/-- An instruction that the stack machine executes is executed by the machine. -/
theorem Views.performed (h : Views m s) (hlen : 4 * s.stack.length < 2 ^ 32) {i : Instr Int}
    (hi : s.perform? i = some (.next t)) : Performed m s t (m.perform i) := by
  cases i with
  | li rd w => exact .of_set? h hi
  | lw rt offset base =>
    obtain ⟨i, w, hindex, hw, ht⟩ := State.exists_of_perform?_lw hi
    have hload : m.load (m.slotAddress i) = w := by
      rw [Machine.load, Std.TreeMap.getD_eq_getD_getElem?, h.words i w hw, Option.getD_some]
    rw [Machine.perform, address_eq hindex, if_pos (h.isAligned i), hload]
    exact .of_set? h ht
  | sw rt offset base =>
    obtain ⟨i, w, hindex, hw, hlt, ht⟩ := State.exists_of_perform?_sw hi
    cases ht
    rw [Machine.perform, address_eq hindex, if_pos (h.isAligned i), h.get? hw]
    exact .silent (h.store hlen hlt).next rfl rfl
  | move rd rs =>
    rw [State.perform?] at hi
    obtain ⟨w, hw, ht⟩ := Option.bind_eq_some_iff.mp hi
    rw [Machine.perform, h.get? hw]
    exact .of_set? h ht
  | alu op rd rs src =>
    rw [State.perform?] at hi
    by_cases hsp : rd = Reg.sp ∧ rs = Reg.sp
    · rw [if_pos hsp] at hi
      obtain ⟨rfl, rfl⟩ := hsp
      obtain ⟨t', ht', heq⟩ := Option.map_eq_some_iff.mp hi
      cases heq
      exact .moveTop? h ht'
    · rw [if_neg hsp] at hi
      obtain ⟨l, hl, hi⟩ := Option.bind_eq_some_iff.mp hi
      obtain ⟨w, hw, ht⟩ := Option.bind_eq_some_iff.mp hi
      rw [Machine.perform, h.get? hl, h.operand? hw]
      exact .of_set? h ht
  | div rd rs rt =>
    rw [State.perform?] at hi
    obtain ⟨l, hl, hi⟩ := Option.bind_eq_some_iff.mp hi
    obtain ⟨w, hw, hi⟩ := Option.bind_eq_some_iff.mp hi
    rw [Machine.perform, h.get? hl, h.get? hw]
    by_cases hzero : w = 0
    · rw [if_pos hzero] at hi
      cases hi
    · rw [if_neg hzero] at hi ⊢
      exact .of_set? h hi
  | divmod rs rt =>
    rw [State.perform?] at hi
    obtain ⟨l, hl, hi⟩ := Option.bind_eq_some_iff.mp hi
    obtain ⟨w, hw, hi⟩ := Option.bind_eq_some_iff.mp hi
    rw [Machine.perform, h.get? hl, h.get? hw]
    by_cases hzero : w = 0
    · rw [if_pos hzero] at hi
      cases hi
    · rw [if_neg hzero] at hi ⊢
      cases hi
      have hviews : Views { m with lo := l / w, hi := l % w } { s with hi := l % w } :=
        ⟨h.pc_eq, h.regs, h.zero, rfl, h.sp_eq, h.words, h.running⟩
      exact .silent hviews.next rfl rfl
  | mfhi rd =>
    rw [State.perform?, ← h.hi_eq] at hi
    exact .of_set? h hi
  | beqz rs target =>
    rw [State.perform?] at hi
    obtain ⟨w, hw, hi⟩ := Option.bind_eq_some_iff.mp hi
    cases hi
    rw [Machine.perform, h.get? hw]
    by_cases hzero : w = 0
    · rw [if_pos hzero, if_pos hzero]
      exact .silent (h.goto target) rfl rfl
    · rw [if_neg hzero, if_neg hzero]
      exact .silent h.next rfl rfl
  | jump target =>
    cases hi
    exact .silent (h.goto target) rfl rfl
  | jal target =>
    rw [State.perform?, ← h.pc_eq] at hi
    obtain ⟨t', ht', heq⟩ := Option.map_eq_some_iff.mp hi
    cases heq
    have hout : t'.out = s.out := by rw [(State.set?_eq_some_iff.mp ht').2.2]
    exact .silent ((h.set? ht').goto target) (m.sink_setReg _ _) hout
  | jr rs =>
    rw [State.perform?] at hi
    obtain ⟨w, hw, heq⟩ := Option.map_eq_some_iff.mp hi
    cases heq
    rw [Machine.perform, h.get? hw]
    exact .silent (h.goto w.toInt) rfl rfl
  | syscall => exact .syscall? h hi
  | mflo rd => cases hi
  | bnez rs target => cases hi
  | illegal => cases hi

section Step

variable {code : Code} {turn : Turn}

theorem Views.counted (h : Views m s) (steps : Nat) (input : Option Input) :
    Views { m with steps, input } s :=
  ⟨h.pc_eq, h.regs, h.zero, h.hi_eq, h.sp_eq, h.words, h.running⟩

/-- The machine is at the instruction at which the stack machine is. -/
theorem Views.step_eq (h : Views m s) (hstep : step? code s = some turn) (limit : Option Nat) :
    ∃ l, code.fetch m.pc = some l ∧ s.perform? l.instr = some turn ∧
      m.step code limit = m.advance limit l := by
  obtain ⟨l, hl, hperform⟩ := Option.bind_eq_some_iff.mp hstep
  rw [← h.pc_eq] at hl
  refine ⟨l, hl, hperform, ?_⟩
  rw [Machine.step, if_neg (by rw [h.running]; exact Bool.false_ne_true), hl]

theorem Views.perform_exit (h : Views m s) (hv : s.regs Reg.v0 = 10) :
    m.perform .syscall = .ok { m with halted := true }.next := by
  have hv0 : m.reg Reg.v0 = 10 := (h.regs Reg.v0 (by decide) (by decide)).trans hv
  rw [Machine.perform, Machine.syscall, hv0]
  rfl

theorem Views.perform_divisionByZero (h : Views m s) {i : Instr Int} {rs rt : Reg}
    (hi : (∃ rd, i = .div rd rs rt) ∨ i = .divmod rs rt) (hzero : s.get? rt = some 0) :
    m.perform i = m.refuse .divisionByZero := by
  have hrt : m.reg rt = 0 := h.get? hzero
  rcases hi with ⟨rd, rfl⟩ | rfl
  · exact if_pos hrt
  · exact if_pos hrt

/-- The stack pointer goes down as the stack grows. -/
theorem Views.sub_sp {m' : Machine} (h : Views m s) (h' : Views m' t)
    (hchanges : State.Changes s t) :
    (m.reg Reg.sp - m'.reg Reg.sp).toInt = 4 * t.stack.length - 4 * s.stack.length := by
  have hdiff : m.reg Reg.sp - m'.reg Reg.sp =
      Int32.ofInt (4 * t.stack.length - 4 * s.stack.length) := by
    have hofNat : ∀ n : Nat, Int32.ofNat (4 * n) = Int32.ofInt (4 * n) := fun n =>
      Int32.ofInt_eq_ofNat.symm
    rw [h.sp_eq, h'.sp_eq, Int32.ofInt_sub, ← hofNat, ← hofNat]
    grind
  have hlen := hchanges.length_le
  rw [hdiff]
  exact Int32.toInt_ofInt_of_le (by omega) (by omega)

/-- The machine is in a state of the stack machine, has written what it has, and can write on. -/
structure Tracks (m : Machine) (s : State) : Prop where
  views : Views m s
  room : m.sink.room = none
  written : m.sink.written = s.out

theorem write_ok {sink : Sink} (hroom : sink.room = none) (bytes : List UInt8) :
    ∃ sink', sink.write bytes = .ok sink' ∧ sink'.room = none := by
  rw [Sink.write, hroom]
  exact ⟨_, rfl, rfl⟩

namespace Tracks

theorem step_next (h : Tracks m s) (hlen : 4 * s.stack.length < 2 ^ 32)
    (hstep : step? code s = some (.next t)) :
    ∃ m', m.step code none = (none, m') ∧ Tracks m' t := by
  obtain ⟨l, -, hperform, hadvance⟩ := h.views.step_eq hstep none
  have hperformed := (h.views.counted (m.steps + 1) m.input).performed hlen hperform
  rcases hm : Machine.perform { m with steps := m.steps + 1 } l.instr with ⟨refusal⟩ | ⟨m'⟩
  · rw [hm] at hperformed
    cases hperformed with
    | refused hsink =>
      obtain ⟨sink, hwrite, -⟩ := write_ok h.room _
      cases hsink.symm.trans hwrite
  · refine ⟨m', hadvance.trans (Machine.advance_ok hm), ?_⟩
    rw [hm] at hperformed
    cases hperformed with
    | silent hviews hsink hout =>
      have hsame : m'.sink = m.sink := hsink
      exact ⟨hviews, by rw [hsame, h.room], by rw [hsame, h.written, hout]⟩
    | @wrote _ bytes hviews hsink hout =>
      obtain ⟨sink, hwrite, hroom⟩ := write_ok h.room bytes
      obtain rfl : m'.sink = sink := Except.ok.inj (hsink.symm.trans hwrite)
      exact ⟨hviews, hroom, by rw [Sink.written_write hwrite, h.written, hout]⟩

theorem step_exit (h : Tracks m s) (hstep : step? code s = some .exit) :
    ∃ m', m.step code none = (none, m') ∧ m'.halted = true ∧ m'.sink = m.sink := by
  obtain ⟨l, -, hperform, hadvance⟩ := h.views.step_eq hstep none
  obtain ⟨t, ht, -⟩ | ⟨-, hi, hv, -⟩ | ⟨hdivides, -⟩ := State.perform?_cases hperform
  · cases ht
  · have hexit := (h.views.counted (m.steps + 1) m.input).perform_exit hv
    rw [← hi] at hexit
    exact ⟨_, hadvance.trans (Machine.advance_ok hexit), rfl, rfl⟩
  · cases hdivides

theorem step_divisionByZero (h : Tracks m s) (hstep : step? code s = some .divisionByZero) :
    ∃ line text m', m.step code none = (some (.fault .divisionByZero line text), m') ∧
      m'.sink = m.sink := by
  obtain ⟨l, -, hperform, hadvance⟩ := h.views.step_eq hstep none
  obtain ⟨t, ht, -⟩ | ⟨hexit, -⟩ | ⟨-, rs, rt, hi, hzero⟩ := State.perform?_cases hperform
  · cases ht
  · cases hexit
  · have hrefuse := (h.views.counted (m.steps + 1) m.input).perform_divisionByZero hi hzero
    exact ⟨_, _, _, hadvance.trans (Machine.advance_fault hrefuse), rfl⟩

/-- The machine reports what the stack machine reports, as long as the stack is not too large and the
stack machine is not stuck. -/
theorem ofMachine_run (h : Tracks m s)
    (hstack : ∀ j, 4 * (s.stack.length : Int) + Machine.stackUse code j m < 2 ^ 32) (n : Nat)
    (hsafe : (report code n s).outcome ≠ .failed) :
    Report.ofMachine (m.run code none n) = report code n s := by
  have hrunning : ¬ m.halted = true := by rw [h.views.running]; exact Bool.false_ne_true
  induction n generalizing m s with
  | zero => rw [Machine.run, if_neg hrunning, Report.ofMachine, report, h.written]
  | succ n ih =>
    have hlen : 4 * s.stack.length < 2 ^ 32 := by
      have hnow := hstack 0
      rw [Machine.stackUse] at hnow
      omega
    rw [Machine.run, if_neg hrunning, report]
    cases hstep : step? code s with
    | none =>
      rw [report, hstep] at hsafe
      exact absurd rfl hsafe
    | some turn =>
      rw [report, hstep] at hsafe
      cases turn with
      | next t =>
        obtain ⟨m', hm', htracks⟩ := h.step_next hlen hstep
        obtain ⟨l, -, hperform, -⟩ := h.views.step_eq hstep none
        have hsub := h.views.sub_sp htracks.views (State.changes_of_perform? hperform)
        have hstack' : ∀ j, 4 * (t.stack.length : Int) + Machine.stackUse code j m' < 2 ^ 32 := by
          intro j
          have hnext := hstack (j + 1)
          rw [Machine.stackUse, hm'] at hnext
          dsimp only at hnext
          omega
        rw [hm']
        exact ih htracks hstack' hsafe (by rw [htracks.views.running]; exact Bool.false_ne_true)
      | exit =>
        obtain ⟨m', hm', hhalted, hsink⟩ := h.step_exit hstep
        rw [hm']
        show Report.ofMachine (m'.run code none n) = _
        rw [Machine.run_halted hhalted, Report.ofMachine, hsink, h.written]
      | divisionByZero =>
        obtain ⟨line, text, m', hm', hsink⟩ := h.step_divisionByZero hstep
        rw [hm']
        show Report.ofMachine (some (.fault .divisionByZero line text), m') = _
        rw [Report.ofMachine, hsink, h.written]

end Tracks

theorem tracks_start (code : Code) (input : Option Input) :
    Tracks (.start code input {}) (start code) :=
  ⟨views_start code input {}, rfl, rfl⟩

end Step

end StackMachine

namespace Assembly

open StackMachine

/-- On the code of a program the machine does what the stack machine does. -/
theorem ofMachine_run_eq_report {p : Program} {code : Code} (h : p.Builds code)
    (input : Option Input) (hstack : ∀ n, Machine.stackUse code n (.start code input {}) < 2 ^ 32)
    (n : Nat) : Report.ofMachine ((Machine.start code input {}).run code none n) =
      report code n (StackMachine.start code) :=
  (tracks_start code input).ofMachine_run (fun j => by simpa [StackMachine.start] using hstack j) n
    (report_ne_failed h (.refl _) n)

/-- The code of a program behaves as the lexical reading of the program, whatever input either is
given, and it never fails. -/
theorem sameBehaviour_compiled {source : Text} {p : Program} {code : Code}
    (hparse : Program.ofText source = .ok p) (hcompiles : Compiles p)
    (hcode : Code.ofText (generate p).builder.render = .ok code)
    (hsmall : code.instrs.size < 2 ^ 31) (input given : Option Input)
    (hstack : ∀ n, Machine.stackUse code n (.start code input {}) < 2 ^ 32) :
    SameBehaviour (fun n => .ofRun (Lexical.program n p { input := given }))
      (fun n => .ofMachine ((Machine.start code input {}).run code none n)) ∧
    ∀ n, (Report.ofMachine ((Machine.start code input {}).run code none n)).outcome ≠ .failed := by
  have hbuilds := hcompiles.builds hparse hcode hsmall
  have hrun := ofMachine_run_eq_report hbuilds input hstack
  refine ⟨?_, fun n => by rw [hrun n]; exact report_ne_failed hbuilds (.refl _) n⟩
  rw [funext hrun]
  exact sameBehaviour_lexical hbuilds rfl rfl

/-- A program whose loop gives `t` a new word in every round. -/
def roundsSource : Text :=
  "PROCEDURE f(n); f := n - 1;
  BEGIN i := 2; WHILE i DO BEGIN t := t + i; i := f(i); WRITELN(t); END; WRITELN(t); END."

theorem rounds_print_lexically :
    ∃ p code, Program.ofText roundsSource = .ok p ∧ Compiles p ∧
      Code.ofText (generate p).builder.render = .ok code ∧
      (∀ n, Machine.stackUse code n (.start code none {}) < 2 ^ 32) ∧
      ∃ n, Report.ofRun (Lexical.program n p {}) = ⟨.exited, Text.bytes "2\n1\n0\n"⟩ := by
  obtain ⟨p, hparse, hcheck⟩ : ∃ p, Program.ofText roundsSource = .ok p ∧
      ((generate p).error = none && Code.passes (generate p).builder.render fun code =>
        code.instrs.size < 2 ^ 31 && Machine.haltsWithin code 99 0 (.start code none {}) &&
          Report.ofMachine ((Machine.start code none {}).run code none 99) =
            ⟨.exited, Text.bytes "2\n1\n0\n"⟩) = true :=
    Program.exists_of_passes (by decide +kernel)
  rw [Bool.and_eq_true, decide_eq_true_eq] at hcheck
  obtain ⟨code, hcode, hrun⟩ := Code.exists_of_passes hcheck.2
  simp only [Bool.and_eq_true, decide_eq_true_eq] at hrun
  obtain ⟨⟨hsmall, hhalts⟩, hreport⟩ := hrun
  have hstack : ∀ n, Machine.stackUse code n (.start code none {}) < 2 ^ 32 := fun n => by
    simpa using Machine.stackUse_lt_of_haltsWithin hhalts n
  have hsame := sameBehaviour_compiled hparse hcheck.1 hcode hsmall none none hstack
  exact ⟨p, code, hparse, hcheck.1, hcode, hstack, (hsame.1.ends _ (by decide)).mpr ⟨99, hreport⟩⟩

end Assembly

end MiniPascal
