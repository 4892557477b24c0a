import MiniPascal.Proofs.Refinement

/-! Compiled programs never go wrong on the machine. As long as less than 2 ^ 32 bytes of stack are in
use, the machine stays inside the code until it exits, touches the used part of the stack only, and
loads nothing that was not stored. -/

namespace MiniPascal

namespace Machine

/-- The addresses that a step stores a word at. -/
def stores (code : Code) (limit : Option Nat) (m : Machine) : List UInt32 :=
  match (m.step code limit).1, (code.fetch m.pc).map Located.instr with
  | none, some (.sw _ offset base) => [m.address offset base]
  | _, _ => []

/-- The machines that any number of steps lead to from the start of the code, with the bytes of stack
that are in use and the addresses stored at so far. A run goes on as long as the stack is not too
large; the limit on steps need not be the same all the time. -/
inductive Reachable (code : Code) : Machine → Int → List UInt32 → Prop where
  | start (input : Option Input) (sink : Sink) : Reachable code (.start code input sink) 0 []
  | step {m : Machine} {used : Int} {stored : List UInt32} (h : Reachable code m used stored)
      (hused : used < 2 ^ 32) (limit : Option Nat) :
    Reachable code (m.step code limit).2
      (used + (m.reg Reg.sp - (m.step code limit).2.reg Reg.sp).toInt)
      (m.stores code limit ++ stored)

/-- An address of a whole word between the stack pointer and the top of the stack. -/
structure InUse (m : Machine) (used : Int) (a : UInt32) : Prop where
  aligned : a.toNat % 4 = 0
  below : ((a - (m.reg Reg.sp).toUInt32).toNat : Int) + 4 ≤ used

/-- The errors that a step of compiled code may end in. -/
inductive Expected : MachineError → Prop where
  | divisionByZero (line : Int) (text : Text) : Expected (.fault .divisionByZero line text)
  | stepLimit (limit : Nat) : Expected (.stepLimit limit)
  | output (reason : Text) : Expected (.output reason)

/-- What is safe about a machine that has not halted and is about to execute `l`. -/
structure SafeAt (m : Machine) (used : Int) (stored : List UInt32) (l : Located) : Prop where
  top : m.reg Reg.sp + Int32.ofInt used = stackTop
  load : ∀ rt offset base, l.instr = .lw rt offset base →
    m.InUse used (m.address offset base) ∧ m.address offset base ∈ stored ∧
      m.address offset base ∈ m.mem
  store : ∀ rt offset base, l.instr = .sw rt offset base → m.InUse used (m.address offset base)
  exit : l.instr = .syscall → m.reg Reg.v0 = 10 → m.reg Reg.sp = stackTop

section Memory

variable {m m' : Machine}

theorem mem_of_emit {bytes : List UInt8} (h : m.emit bytes = .ok m') : m'.mem = m.mem := by
  unfold emit at h
  split at h
  · cases h
    rfl
  · cases h

theorem mem_of_syscall (h : m.syscall = .ok m') : m'.mem = m.mem := by
  unfold syscall at h
  dsimp only at h
  split at h
  · exact mem_of_emit h
  · split at h
    · exact mem_of_emit h
    · split at h
      · unfold readInt at h
        split at h
        · cases h
        · split at h
          · cases h
            exact mem_setReg _ _ _
          · cases h
      · split at h
        · cases h
          rfl
        · cases h

/-- Only a store changes the memory. -/
theorem mem_of_perform {i : Instr Int} (h : m.perform i = .ok m') :
    (∃ rt offset base, i = .sw rt offset base ∧
      m'.mem = m.mem.insert (m.address offset base) (m.reg rt)) ∨ m'.mem = m.mem := by
  rcases perform_cases h with ⟨r, v, pc, rfl⟩ | ⟨rt, offset, base, rfl, -, rfl⟩ | ⟨lo, hi, rfl⟩ |
    ⟨pc, rfl⟩ | ⟨rfl, hservice⟩
  · exact .inr (mem_setReg m r v)
  · exact .inl ⟨rt, offset, base, rfl, rfl⟩
  · exact .inr rfl
  · exact .inr rfl
  · exact .inr (mem_of_syscall hservice)

/-- An address in memory was there before a step, or is one that the step stores at. -/
theorem mem_step (code : Code) (limit : Option Nat) (m : Machine) {a : UInt32}
    (ha : a ∈ (m.step code limit).2.mem) : a ∈ m.stores code limit ∨ a ∈ m.mem := by
  by_cases hhalted : m.halted = true
  · rw [step, if_pos hhalted] at ha
    exact .inr ha
  · cases hl : code.fetch m.pc with
    | none =>
      rw [step, if_neg hhalted, hl] at ha
      exact .inr ha
    | some l =>
      have hstep : m.step code limit = m.advance limit l := by rw [step, if_neg hhalted, hl]
      rcases m.advance_cases limit l with ⟨n, hlimit⟩ | hnone
      · rw [hstep, hlimit] at ha
        exact .inr ha
      · rcases hm : perform { m with steps := m.steps + 1 } l.instr with ⟨⟨cause | reason, input⟩⟩ | ⟨m'⟩
        · rw [hstep, hnone, advance_fault hm] at ha
          exact .inr ha
        · rw [hstep, hnone, advance_output hm] at ha
          exact .inr ha
        · have hok : m.step code limit = (none, m') := hstep.trans (hnone.trans (advance_ok hm))
          rw [hok] at ha
          rcases mem_of_perform hm with ⟨rt, offset, base, hi, hmem⟩ | hmem
          · have hstores : m.stores code limit = [m.address offset base] := by
              rw [stores, hok, hl, Option.map_some, hi]
            have hinsert : a ∈ m.mem.insert (m.address offset base) (m.reg rt) := hmem ▸ ha
            rw [hstores, List.mem_singleton]
            refine (Std.TreeMap.mem_insert.mp hinsert).imp_left fun heq => ?_
            exact (Std.compare_eq_iff_eq.mp heq).symm
          · exact .inr (hmem ▸ ha)

end Memory

/-- The machine after some steps of a run that is known to halt. -/
theorem Reachable.iterate {code : Code} {m : Machine} {used : Int} {stored : List UInt32}
    (h : Reachable code m used stored) {k n : Nat} (hhalts : haltsWithin code (k + n) used m = true) :
    ∃ used' stored', used' < 2 ^ 32 ∧
      Reachable code ((fun m => (m.step code none).2)^[k] m) used' stored' := by
  induction k generalizing m used stored with
  | zero =>
    refine ⟨used, stored, ?_, h⟩
    have hnow := stackUse_lt_of_haltsWithin hhalts 0
    rw [stackUse] at hnow
    omega
  | succ k ih =>
    rw [Nat.add_right_comm, haltsWithin, Bool.and_eq_true, decide_eq_true_eq] at hhalts
    exact ih (h.step hhalts.1 none) hhalts.2

end Machine

namespace StackMachine

variable {code : Code} {m : Machine} {s t : State} {turn : Turn}

/-- What a step of the machine comes to, given that of the stack machine. -/
inductive Stepped (m : Machine) (s : State) : Turn → Option MachineError × Machine → Prop where
  | moved {t : State} {m' : Machine} (h : Views m' t) : Stepped m s (.next t) (none, m')
  | exited {m' : Machine} (hempty : s.stack = []) (hhalted : m'.halted = true)
      (hsp : m'.reg Reg.sp = m.reg Reg.sp) : Stepped m s .exit (none, m')
  | stopped {turn : Turn} {e : MachineError} {m' : Machine} (he : Machine.Expected e)
      (h : Views m' s) : Stepped m s turn (some e, m')

theorem Views.stepped (h : Views m s) (hlen : 4 * s.stack.length < 2 ^ 32)
    (hstep : step? code s = some turn) (limit : Option Nat) :
    Stepped m s turn (m.step code limit) := by
  obtain ⟨l, -, hperform, hadvance⟩ := h.step_eq hstep limit
  have hcounted := h.counted (m.steps + 1) m.input
  rw [hadvance]
  rcases m.advance_cases limit l with ⟨n, hlimit⟩ | hnone
  · rw [hlimit]
    exact .stopped (.stepLimit n) hcounted
  · rw [hnone]
    rcases State.perform?_cases hperform with ⟨t, rfl, -⟩ | ⟨rfl, hi, hv, hempty⟩ |
      ⟨rfl, rs, rt, hi, hzero⟩
    · have hperformed := hcounted.performed hlen hperform
      rcases hm : Machine.perform { m with steps := m.steps + 1 } l.instr with ⟨refusal⟩ | ⟨m'⟩
      · rw [hm] at hperformed
        cases hperformed with
        | refused hsink =>
          rw [Machine.advance_output hm]
          exact .stopped (.output _) (h.counted _ _)
      · rw [Machine.advance_ok hm]
        rw [hm] at hperformed
        cases hperformed with
        | silent hviews hsink hout => exact .moved hviews
        | wrote hviews hsink hout => exact .moved hviews
    · have hexit := hcounted.perform_exit hv
      rw [← hi] at hexit
      rw [Machine.advance_ok hexit]
      exact .exited hempty rfl rfl
    · have hrefuse := hcounted.perform_divisionByZero hi hzero
      rw [Machine.advance_fault hrefuse]
      exact .stopped (.divisionByZero _ _) (h.counted _ _)

/-- What holds of every reachable machine: it has halted with an empty stack, or it is in a state
that the stack machine comes to. -/
structure Sound (code : Code) (m : Machine) (used : Int) (stored : List UInt32) : Prop where
  place : (m.halted = true ∧ m.reg Reg.sp = Machine.stackTop) ∨
    ∃ k s, Runs code k (start code) s ∧ Views m s ∧ used = 4 * s.stack.length
  memory : ∀ a ∈ m.mem, a ∈ stored

variable {p : Program} {used : Int} {stored : List UInt32}

theorem Sound.step (h : p.Builds code) (hsound : Sound code m used stored) (hused : used < 2 ^ 32)
    (limit : Option Nat) :
    Sound code (m.step code limit).2
      (used + (m.reg Reg.sp - (m.step code limit).2.reg Reg.sp).toInt)
      (m.stores code limit ++ stored) := by
  refine ⟨?_, fun a ha => ?_⟩
  · rcases hsound.place with ⟨hhalted, hsp⟩ | ⟨k, s, hruns, hviews, rfl⟩
    · have hsame : m.step code limit = (none, m) := by rw [Machine.step, if_pos hhalted]
      rw [hsame]
      exact .inl ⟨hhalted, hsp⟩
    · obtain ⟨turn, hturn⟩ := exists_turn h hruns
      have hstepped := hviews.stepped (by omega) hturn limit
      rcases hm : m.step code limit with ⟨error, m'⟩
      rw [hm] at hstepped
      dsimp only
      cases hstepped with
      | moved hviews' =>
        obtain ⟨l, -, hperform, -⟩ := hviews.step_eq hturn limit
        have hsub := hviews.sub_sp hviews' (State.changes_of_perform? hperform)
        exact .inr ⟨k + 1, _, hruns.trans (.single hturn), hviews', by omega⟩
      | exited hempty hhalted hsp =>
        refine .inl ⟨hhalted, ?_⟩
        rw [hsp, hviews.sp_eq, hempty]
        decide
      | stopped he hviews' =>
        have hsub := hviews.sub_sp hviews' (.neither rfl rfl)
        exact .inr ⟨k, s, hruns, hviews', by omega⟩
  · rcases Machine.mem_step code limit m ha with hstores | hmem
    · exact List.mem_append_left _ hstores
    · exact List.mem_append_right _ (hsound.memory a hmem)

theorem Sound.of_reachable (h : p.Builds code) (hreach : Machine.Reachable code m used stored) :
    Sound code m used stored := by
  induction hreach with
  | start input sink =>
    refine ⟨.inr ⟨0, _, .refl _, views_start code input sink, rfl⟩, fun a ha => ?_⟩
    exact absurd ha Std.TreeMap.not_mem_emptyc
  | step hreach hused limit ih => exact ih.step h hused limit

theorem Views.inUse (h : Views m s) (hlen : 4 * s.stack.length < 2 ^ 32) {i : Nat}
    (hi : i < s.stack.length) : m.InUse (4 * s.stack.length) (m.slotAddress i) := by
  have haligned := h.isAligned i
  rw [Machine.isAligned, beq_iff_eq] at haligned
  have hmod := congrArg UInt32.toNat haligned
  rw [UInt32.toNat_mod] at hmod
  have hoffset : m.slotAddress i - (m.reg Reg.sp).toUInt32 = UInt32.ofNat (4 * i) := by
    show (m.reg Reg.sp).toUInt32 + UInt32.ofNat (4 * i) - (m.reg Reg.sp).toUInt32 = _
    grind
  have hlt : 4 * i < 2 ^ 32 := by omega
  refine ⟨hmod, ?_⟩
  rw [hoffset, UInt32.toNat_ofNat_of_lt' hlt]
  omega

theorem Views.top (h : Views m s) :
    m.reg Reg.sp + Int32.ofInt (4 * s.stack.length) = Machine.stackTop := by
  have hofNat : Int32.ofInt (4 * s.stack.length) = Int32.ofNat (4 * s.stack.length) :=
    Int32.ofInt_eq_ofNat
  rw [h.sp_eq, hofNat]
  grind

theorem State.stack_eq_nil_of_exit (hv : s.regs Reg.v0 = 10) (h : s.syscall? = some turn) :
    s.stack = [] := by
  by_contra hne
  have hstuck : s.syscall? = none := by
    rw [syscall?, hv, if_neg (by decide), if_neg (by decide), if_neg fun hexit => hne hexit.2]
  rw [hstuck] at h
  cases h

/-- An instruction at which the stack machine is not stuck is safe. -/
theorem Views.safeAt (h : Views m s) (hlen : 4 * s.stack.length < 2 ^ 32)
    (hmemory : ∀ a ∈ m.mem, a ∈ stored) {l : Located} (hturn : s.perform? l.instr = some turn) :
    m.SafeAt (4 * s.stack.length) stored l := by
  refine ⟨h.top, fun rt offset base hi => ?_, fun rt offset base hi => ?_, fun hi hv => ?_⟩
  · rw [hi] at hturn
    obtain ⟨i, v, hindex, hv, -⟩ := State.exists_of_perform?_lw hturn
    have hlt := (List.getElem?_eq_some_iff.mp hv).1
    have hmem : m.slotAddress i ∈ m.mem :=
      Std.TreeMap.mem_iff_isSome_getElem?.mpr (by rw [h.words i v hv]; rfl)
    rw [address_eq hindex]
    exact ⟨h.inUse hlen hlt, hmemory _ hmem, hmem⟩
  · rw [hi] at hturn
    obtain ⟨i, v, hindex, -, hlt, -⟩ := State.exists_of_perform?_sw hturn
    rw [address_eq hindex]
    exact h.inUse hlen hlt
  · have hv0 : s.regs Reg.v0 = 10 := (h.regs Reg.v0 (by decide) (by decide)).symm.trans hv
    rw [hi, State.perform?] at hturn
    rw [h.sp_eq, State.stack_eq_nil_of_exit hv0 hturn]
    decide

end StackMachine

namespace Assembly

open StackMachine

/-- Whatever a compiled program comes to while its stack is not too large: before its exit it is at an
instruction of the code that is safe to execute, only the exit halts it, with an empty stack, and no
step ends in an error other than division by zero, the step limit or a refused write. -/
theorem compiled_never_goes_wrong {source : Text} {p : Program} {code : Code}
    (hparse : Program.ofText source = .ok p) (hcompiles : Compiles p)
    (hcode : Code.ofText (generate p).builder.render = .ok code)
    (hsmall : code.instrs.size < 2 ^ 31) {m : Machine} {used : Int} {stored : List UInt32}
    (hreach : Machine.Reachable code m used stored) (hused : used < 2 ^ 32) :
    (m.halted = false → ∃ l, code.fetch m.pc = some l ∧ m.SafeAt used stored l ∧
      ∀ limit, (m.step code limit).2.halted = true → l.instr = .syscall ∧ m.reg Reg.v0 = 10) ∧
    (m.halted = true → m.reg Reg.sp = Machine.stackTop) ∧
    ∀ limit e, (m.step code limit).1 = some e → Machine.Expected e := by
  have hbuilds := hcompiles.builds hparse hcode hsmall
  have hsound := Sound.of_reachable hbuilds hreach
  rcases hsound.place with ⟨hhalted, hsp⟩ | ⟨k, s, hruns, hviews, rfl⟩
  · refine ⟨fun hrunning => ?_, fun _ => hsp, fun limit e he => ?_⟩
    · rw [hhalted] at hrunning
      cases hrunning
    · rw [Machine.step, if_pos hhalted] at he
      cases he
  · obtain ⟨turn, hturn⟩ := exists_turn hbuilds hruns
    have hlen : 4 * s.stack.length < 2 ^ 32 := by omega
    refine ⟨fun _ => ?_, fun hhalted => ?_, fun limit e he => ?_⟩
    · obtain ⟨l, hl, hperform, -⟩ := hviews.step_eq hturn none
      refine ⟨l, hl, hviews.safeAt hlen hsound.memory hperform, fun limit hhalts => ?_⟩
      have hstepped := hviews.stepped hlen hturn limit
      rcases hm : m.step code limit with ⟨error, m'⟩
      rw [hm] at hhalts hstepped
      cases hstepped with
      | moved hviews' => exact absurd (hviews'.running.symm.trans hhalts) Bool.false_ne_true
      | stopped _ hviews' => exact absurd (hviews'.running.symm.trans hhalts) Bool.false_ne_true
      | exited _ _ _ =>
        rcases State.perform?_cases hperform with ⟨t, ht, -⟩ | ⟨-, hi, hv, -⟩ | ⟨hdivides, -⟩
        · cases ht
        · exact ⟨hi, (hviews.regs Reg.v0 (by decide) (by decide)).trans hv⟩
        · cases hdivides
    · rw [hviews.running] at hhalted
      cases hhalted
    · have hstepped := hviews.stepped hlen hturn limit
      rcases hm : m.step code limit with ⟨error, m'⟩
      rw [hm] at he hstepped
      cases he
      cases hstepped with
      | stopped hexpected _ => exact hexpected

/-- A program that parks a word and loads it again. -/
def sumSource : Text := "WRITELN(1 + 2);"

theorem sum_loads_stored_word :
    ∃ p code used stored, Program.ofText sumSource = .ok p ∧ Compiles p ∧
      Code.ofText (generate p).builder.render = .ok code ∧ used < 2 ^ 32 ∧
      ∃ m l, Machine.Reachable code m used stored ∧ code.fetch m.pc = some l ∧
        l.instr = .lw Reg.t0 0 Reg.sp ∧ m.InUse used (m.address 0 Reg.sp) ∧
        m.address 0 Reg.sp ∈ stored := by
  obtain ⟨p, hparse, hcheck⟩ : ∃ p, Program.ofText sumSource = .ok p ∧
      ((generate p).error = none && Code.passes (generate p).builder.render fun code =>
        code.instrs.size < 2 ^ 31 && Machine.haltsWithin code (4 + 11) 0 (.start code none {}) &&
          (!((fun m => (m.step code none).2)^[4] (Machine.start code none {})).halted &&
            (code.fetch ((fun m => (m.step code none).2)^[4] (Machine.start code none {})).pc).map
              Located.instr = some (.lw Reg.t0 0 Reg.sp))) = true :=
    Program.exists_of_passes (by decide +kernel)
  rw [Bool.and_eq_true, decide_eq_true_eq] at hcheck
  obtain ⟨code, hcode, hrun⟩ := Code.exists_of_passes hcheck.2
  simp only [Bool.and_eq_true, decide_eq_true_eq, Bool.not_eq_true'] at hrun
  obtain ⟨⟨hsmall, hhalts⟩, hrunning, hinstr⟩ := hrun
  obtain ⟨used, stored, hused, hreach⟩ := (Machine.Reachable.start none {}).iterate hhalts
  have hsafe := compiled_never_goes_wrong hparse hcheck.1 hcode hsmall hreach hused
  obtain ⟨l, hl, hat, -⟩ := hsafe.1 hrunning
  have hlw : l.instr = .lw Reg.t0 0 Reg.sp := by
    rw [hl, Option.map_some] at hinstr
    exact Option.some.inj hinstr
  obtain ⟨hinUse, hstored, -⟩ := hat.load _ _ _ hlw
  exact ⟨p, code, used, stored, hparse, hcheck.1, hcode, hused, _, l, hreach, hl, hlw, hinUse, hstored⟩

end Assembly

end MiniPascal
