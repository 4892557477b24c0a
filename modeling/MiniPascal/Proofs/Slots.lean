import MiniPascal.Proofs.Ledger
import MiniPascal.Proofs.Overdrafts
import MiniPascal.Proofs.Refinement

/-! Slots on the machine. What a ledger holds lies below the place where the stack pointer began, each
word in an address of its own, and every operation of the builder emits code that does to the machine
what it does to the ledger. -/

namespace MiniPascal

namespace Machine

section StepMany

variable {code : Code} {pc n : Nat} {m m' : Machine}

theorem stepMany_add {limit : Option Nat} (h : m.stepMany code limit n = (none, m')) (k : Nat) :
    m.stepMany code limit (n + k) = m'.stepMany code limit k := by
  induction n generalizing m with
  | zero =>
    cases h
    rw [Nat.zero_add]
  | succ n ih =>
    rw [stepMany] at h
    rw [Nat.add_right_comm, stepMany]
    generalize m.step code limit = r at h ⊢
    obtain ⟨_ | e, after⟩ := r
    · exact ih h
    · cases h

theorem stepMany_one {i : Instr Int} (hpc : m.pc = pc) (hrunning : m.halted = false)
    (hi : code.instr? pc = some i) (hperform : perform { m with steps := m.steps + 1 } i = .ok m') :
    m.stepMany code none 1 = (none, m') := by
  obtain ⟨l, hl, rfl⟩ := Option.map_eq_some_iff.mp hi
  have hstep : m.step code none = (none, m') := by
    rw [step, hrunning, if_neg Bool.false_ne_true, hpc, hl]
    exact advance_ok hperform
  rw [stepMany, hstep]
  rfl

end StepMany

/-- The address that is some bytes above the stack pointer. -/
def above (m : Machine) (bytes : Nat) : UInt32 := (m.reg Reg.sp).toUInt32 + UInt32.ofNat bytes

/-- Since the machine was in the state `base`, words were put on its stack and values in its other
registers. What lies up to `height` bytes above the place where the stack began is as it was. -/
structure Stacks (base : Machine) (height : Nat) (values : Reg → Int32) (words : List Int32)
    (m : Machine) : Prop where
  reg_eq : ∀ r, r ≠ Reg.sp → m.reg r = values r
  sp_eq : m.reg Reg.sp = base.reg Reg.sp - Int32.ofNat (4 * words.length)
  load_eq : ∀ i v, words[i]? = some v → m.load (m.slotAddress i) = v
  above_eq : ∀ d ≤ height, m.load (base.above d) = base.load (base.above d)
  running : m.halted = false

section Stacks

variable {base m : Machine} {height i : Nat} {values : Reg → Int32} {words : List Int32} {r : Reg}

theorem stacks_self (height : Nat) (hrunning : m.halted = false) :
    Stacks m height m.reg [] m where
  reg_eq _ _ := rfl
  sp_eq := by
    show m.reg Reg.sp = m.reg Reg.sp - Int32.ofNat 0
    grind
  load_eq _ _ hv := by cases hv
  above_eq _ _ := rfl
  running := hrunning

theorem Stacks.next (h : Stacks base height values words m) : Stacks base height values words m.next :=
  ⟨h.reg_eq, h.sp_eq, h.load_eq, h.above_eq, h.running⟩

theorem Stacks.counted (h : Stacks base height values words m) :
    Stacks base height values words { m with steps := m.steps + 1 } :=
  ⟨h.reg_eq, h.sp_eq, h.load_eq, h.above_eq, h.running⟩

theorem Stacks.slotAddress_eq (h : Stacks base height values words m) (i : Nat) :
    m.slotAddress i = (base.reg Reg.sp).toUInt32 - UInt32.ofNat (4 * words.length) +
      UInt32.ofNat (4 * i) := by
  rw [slotAddress, address, h.sp_eq]
  rfl

theorem Stacks.isAligned (h : Stacks base height values words m)
    (haligned : isAligned (base.reg Reg.sp).toUInt32 = true) (i : Nat) :
    Machine.isAligned (m.slotAddress i) = true := by
  rw [Machine.isAligned, beq_iff_eq, ← UInt32.toNat_inj] at haligned ⊢
  rw [h.slotAddress_eq]
  simp only [UInt32.toNat_mod, UInt32.toNat_add, UInt32.toNat_sub, UInt32.toNat_ofNat'] at haligned ⊢
  generalize (base.reg Reg.sp).toUInt32.toNat = a at haligned ⊢
  change a % 4 = 0 at haligned
  show _ % 4 = 0
  omega

/-- Above the stack lies no slot. -/
theorem Stacks.slotAddress_ne_above (h : Stacks base height values words m)
    (hroom : 4 * words.length + height < 2 ^ 32) (hi : i < words.length) {d : Nat} (hd : d ≤ height) :
    base.above d ≠ m.slotAddress i := by
  intro heq
  rw [h.slotAddress_eq, above, ← UInt32.toNat_inj] at heq
  simp only [UInt32.toNat_add, UInt32.toNat_sub, UInt32.toNat_ofNat'] at heq
  have hbound := (base.reg Reg.sp).toUInt32.toNat_lt
  generalize (base.reg Reg.sp).toUInt32.toNat = a at heq hbound
  omega

theorem Stacks.setReg (h : Stacks base height values words m) (hsp : r ≠ Reg.sp)
    (hzero : r ≠ Reg.zero) (v : Int32) :
    Stacks base height (Function.update values r v) words (m.setReg r v) := by
  have hspeq : (m.setReg r v).reg Reg.sp = m.reg Reg.sp := m.reg_setReg_of_ne _ _ (Ne.symm hsp)
  have hload : ∀ a, (m.setReg r v).load a = m.load a := fun a => by rw [load, m.mem_setReg]; rfl
  have hslot : ∀ i, (m.setReg r v).slotAddress i = m.slotAddress i := fun i => by
    rw [slotAddress, address, hspeq]
    rfl
  refine ⟨fun r' hr' => ?_, by rw [hspeq, h.sp_eq], fun i w hw => ?_, fun d hd => ?_, ?_⟩
  · by_cases heq : r' = r
    · subst heq
      rw [m.reg_setReg_self _ _ hzero, Function.update_self]
    · rw [m.reg_setReg_of_ne _ _ heq, h.reg_eq r' hr', Function.update_of_ne heq]
  · rw [hload, hslot]
    exact h.load_eq i w hw
  · rw [hload]
    exact h.above_eq d hd
  · rw [m.halted_setReg, h.running]

/-- A stack pointer that moves by whole words gives slots to what happens to lie there, or takes slots
away. -/
theorem Stacks.move (h : Stacks base height values words m) {sp : Int32} {words' : List Int32}
    (hsp : sp = base.reg Reg.sp - Int32.ofNat (4 * words'.length))
    (hload : ∀ i v, words'[i]? = some v → m.load (sp + Int32.ofNat (4 * i)).toUInt32 = v) :
    Stacks base height values words' (m.setReg Reg.sp sp) := by
  have hspeq : (m.setReg Reg.sp sp).reg Reg.sp = sp := m.reg_setReg_self _ _ (by decide)
  have hloadeq : ∀ a, (m.setReg Reg.sp sp).load a = m.load a := fun a => by
    rw [load, m.mem_setReg]
    rfl
  refine ⟨fun r hr => ?_, hspeq.trans hsp, fun i w hw => ?_, fun d hd => ?_, ?_⟩
  · rw [m.reg_setReg_of_ne _ _ hr, h.reg_eq r hr]
  · rw [hloadeq, slotAddress, address, hspeq]
    exact hload i w hw
  · rw [hloadeq]
    exact h.above_eq d hd
  · rw [m.halted_setReg, h.running]

theorem Stacks.room (h : Stacks base height values words m) :
    ∃ w, Stacks base height values (w :: words) (m.setReg Reg.sp (m.reg Reg.sp - 4)) := by
  refine ⟨m.load (m.reg Reg.sp - 4).toUInt32, h.move ?_ fun i v hv => ?_⟩
  · rw [h.sp_eq, List.length_cons, Nat.mul_add, Int32.ofNat_add]
    grind
  · cases i with
    | zero =>
      cases hv
      exact congrArg (fun a : Int32 => m.load a.toUInt32) (by grind)
    | succ i =>
      rw [← h.load_eq i v hv, slotAddress, address, Nat.mul_add, Int32.ofNat_add]
      exact congrArg (fun a : Int32 => m.load a.toUInt32) (by grind)

theorem Stacks.drop (h : Stacks base height values words m) {count : Nat}
    (hcount : count ≤ words.length) :
    Stacks base height values (words.drop count)
      (m.setReg Reg.sp (m.reg Reg.sp + Int32.ofNat (4 * count))) := by
  refine h.move ?_ fun i v hv => ?_
  · have hlength : 4 * words.length = 4 * (words.length - count) + 4 * count := by omega
    rw [h.sp_eq, List.length_drop, hlength, Int32.ofNat_add]
    grind
  · rw [List.getElem?_drop] at hv
    rw [← h.load_eq _ v hv, slotAddress, address, Nat.mul_add, Int32.ofNat_add]
    exact congrArg (fun a : Int32 => m.load a.toUInt32) (by grind)

theorem Stacks.store (h : Stacks base height values words m)
    (hroom : 4 * words.length + height < 2 ^ 32) (hi : i < words.length) (v : Int32) :
    Stacks base height values (words.set i v) (m.store (m.slotAddress i) v) := by
  refine ⟨h.reg_eq, by rw [List.length_set]; exact h.sp_eq, fun j w hw => ?_, fun d hd => ?_, h.running⟩
  · show (m.store (m.slotAddress i) v).load (m.slotAddress j) = w
    rw [load_store]
    by_cases hj : j = i
    · subst hj
      rw [if_pos rfl]
      exact Option.some.inj ((List.getElem?_set_self hi).symm.trans hw)
    · rw [List.getElem?_set_ne (Ne.symm hj)] at hw
      have hlt := (List.getElem?_eq_some_iff.mp hw).1
      have hne : m.slotAddress j ≠ m.slotAddress i := fun heq =>
        hj (m.slotAddress_injective (by omega) (by omega) heq)
      rw [if_neg hne]
      exact h.load_eq j w hw
  · rw [load_store, if_neg (h.slotAddress_ne_above hroom hi hd)]
    exact h.above_eq d hd

end Stacks

/-- Some steps lead from a place in the code to the one as many instructions behind it, and leave values
and words as said. -/
def Goes (base : Machine) (height : Nat) (code : Code) (n pc : Nat) (m : Machine)
    (values : Reg → Int32) (words : List Int32) : Prop :=
  ∃ m', m.stepMany code none n = (none, m') ∧ m'.pc = (pc + n : Nat) ∧
    Stacks base height values words m'

section Goes

open Assembly

variable {base m : Machine} {height n k pc : Nat} {code : Code} {values values' : Reg → Int32}
  {words words' : List Int32} {reg : Text} {r : Reg}

theorem Goes.refl (hpc : m.pc = pc) (h : Stacks base height values words m) :
    Goes base height code 0 pc m values words :=
  ⟨m, rfl, hpc, h⟩

theorem Goes.trans (h : Goes base height code n pc m values words)
    (hrest : ∀ m' : Machine, m'.pc = (pc + n : Nat) → Stacks base height values words m' →
      Goes base height code k (pc + n) m' values' words') :
    Goes base height code (n + k) pc m values' words' := by
  obtain ⟨m', hsteps, hpc, hstacks⟩ := h
  obtain ⟨m'', hsteps', hpc', hstacks'⟩ := hrest m' hpc hstacks
  exact ⟨m'', by rw [stepMany_add hsteps, hsteps'], by rw [hpc', Nat.add_assoc], hstacks'⟩

theorem goes_one {i : Instr Int} {m' : Machine} (h : Stacks base height values words m')
    (hpc : m.pc = pc) (hrunning : m.halted = false) (hi : code.instr? pc = some i)
    (hperform : perform { m with steps := m.steps + 1 } i = .ok m'.next) (hplace : m'.pc = m.pc) :
    Goes base height code 1 pc m values words := by
  refine ⟨m'.next, stepMany_one hpc hrunning hi hperform, ?_, h.next⟩
  show m'.pc + 1 = _
  rw [hplace, hpc]
  rfl

variable (hpc : m.pc = pc) (h : Stacks base height values words m)

include hpc h

theorem Stacks.goes_li {v : Int32} (hreg : RegName reg r) (hi : code.instr? pc = some (.li r v)) :
    Goes base height code 1 pc m (Function.update values r v) words :=
  goes_one (h.counted.setReg hreg.ne_sp hreg.ne_zero v) hpc h.running hi rfl (pc_setReg _ _ _)

theorem Stacks.goes_subu
    (hi : code.instr? pc = some (.alu .subu Reg.sp Reg.sp (.imm 4))) :
    ∃ w, Goes base height code 1 pc m values (w :: words) := by
  obtain ⟨w, hroom⟩ := h.counted.room
  exact ⟨w, goes_one hroom hpc h.running hi rfl (pc_setReg _ _ _)⟩

theorem Stacks.goes_addu {offset : Int32} (hoffset : offset.toInt = 4 * n) (hn : n ≤ words.length)
    (hi : code.instr? pc = some (.alu .addu Reg.sp Reg.sp (.imm offset))) :
    Goes base height code 1 pc m values (words.drop n) := by
  obtain rfl := StackMachine.offset_eq hoffset
  exact goes_one (h.counted.drop hn) hpc h.running hi rfl (pc_setReg _ _ _)

variable (haligned : Machine.isAligned (base.reg Reg.sp).toUInt32 = true)

include haligned

theorem Stacks.goes_lw {offset : Int32} {v : Int32} (hreg : RegName reg r)
    (hoffset : offset.toInt = 4 * n) (hv : words[n]? = some v)
    (hi : code.instr? pc = some (.lw r offset Reg.sp)) :
    Goes base height code 1 pc m (Function.update values r v) words := by
  obtain rfl := StackMachine.offset_eq hoffset
  have hload := h.counted.load_eq n v hv
  refine goes_one (h.counted.setReg hreg.ne_sp hreg.ne_zero v) hpc h.running hi ?_ (pc_setReg _ _ _)
  rw [← hload]
  exact if_pos (h.counted.isAligned haligned n)

theorem Stacks.goes_sw {offset : Int32} (hreg : RegName reg r) (hoffset : offset.toInt = 4 * n)
    (hroom : 4 * words.length + height < 2 ^ 32) (hn : n < words.length)
    (hi : code.instr? pc = some (.sw r offset Reg.sp)) :
    Goes base height code 1 pc m values (words.set n (values r)) := by
  obtain rfl := StackMachine.offset_eq hoffset
  refine goes_one (h.counted.store hroom hn (values r)) hpc h.running hi ?_ rfl
  rw [← h.reg_eq r hreg.ne_sp]
  exact if_pos (h.counted.isAligned haligned n)

theorem Stacks.goes_push (hreg : RegName reg r) (hcode : code.Holds pc (pushLines reg))
    (hroom : 4 * (words.length + 1) + height < 2 ^ 32) :
    Goes base height code 2 pc m values (values r :: words) := by
  obtain ⟨hsubu, hsw, -⟩ := hcode
  obtain ⟨w, hfirst⟩ := h.goes_subu hpc (hsubu.instr?_eq fun _ _ => rfl)
  refine hfirst.trans (k := 1) fun m' hpc' h' => ?_
  exact h'.goes_sw (n := 0) hpc' haligned hreg rfl hroom (Nat.succ_pos _)
    (hsw.instr?_eq (decodes_sw_top hreg))

theorem Stacks.goes_pop {v : Int32} {rest : List Int32} (hreg : RegName reg r)
    (hcode : code.Holds pc (popLines reg)) (hwords : words = v :: rest) :
    Goes base height code 2 pc m (Function.update values r v) rest := by
  subst hwords
  obtain ⟨hlw, haddu, -⟩ := hcode
  have hfirst := h.goes_lw (n := 0) hpc haligned hreg rfl rfl (hlw.instr?_eq (decodes_lw_top hreg))
  refine hfirst.trans (k := 1) fun m' hpc' h' => ?_
  exact h'.goes_addu (n := 1) hpc' rfl (Nat.succ_pos _) (haddu.instr?_eq fun _ _ => rfl)

omit haligned

theorem Stacks.goes_free (hcode : code.Holds pc (freeLines n)) (hn : n ≤ words.length) :
    Goes base height code (codeSize (freeLines n)) pc m values (words.drop n) := by
  unfold freeLines at hcode ⊢
  split at hcode
  · rename_i hzero
    rw [if_pos hzero, hzero]
    exact .refl hpc h
  · rename_i hzero
    rw [if_neg hzero]
    obtain ⟨offset, hoffset, hi⟩ := hcode.1.addu_sp
    exact h.goes_addu hpc hoffset hn hi

end Goes

end Machine

namespace Assembly

section Words

variable {x : Text} {stored : Text → Int32} {items : List Item}

/-- The words in the slots, the top first. -/
def slotWords (stored : Text → Int32) : List Item → List Int32
  | [] => []
  | .scope :: items => slotWords stored items
  | .var x :: items => stored x :: slotWords stored items
  | .word v :: items => v :: slotWords stored items

def Ledger.words (s : Ledger) : List Int32 := slotWords s.stored s.items

theorem length_slotWords (stored : Text → Int32) (items : List Item) :
    (slotWords stored items).length = depth items := by
  induction items with
  | nil => rfl
  | cons item items ih => cases item <;> simp [slotWords, depth, ih]

theorem slotWords_place? {i : Nat} (h : place? x items = some i) :
    (slotWords stored items)[i]? = some (stored x) := by
  induction items generalizing i with
  | nil => cases h
  | cons item items ih =>
    cases item with
    | scope => exact ih h
    | word v =>
      obtain ⟨j, hj, rfl⟩ := Option.map_eq_some_iff.mp h
      exact ih hj
    | var y =>
      rw [place?] at h
      split at h
      · rename_i heq
        cases h
        rw [← heq]
        rfl
      · obtain ⟨j, hj, rfl⟩ := Option.map_eq_some_iff.mp h
        exact ih hj

theorem slotWords_update_of_not_mem (hx : .var x ∉ items) (v : Int32) :
    slotWords (Function.update stored x v) items = slotWords stored items := by
  induction items with
  | nil => rfl
  | cons item items ih =>
    rw [List.mem_cons, not_or] at hx
    cases item with
    | scope => exact ih hx.2
    | word w => exact congrArg (w :: ·) (ih hx.2)
    | var y =>
      have hy : y ≠ x := fun heq => hx.1 (heq ▸ rfl)
      rw [slotWords, slotWords, ih hx.2, Function.update_of_ne hy]

/-- A name has one slot, so storing under it changes one word. -/
theorem slotWords_update {i : Nat} (hnodup : (varNames items).Nodup) (h : place? x items = some i)
    (v : Int32) : slotWords (Function.update stored x v) items = (slotWords stored items).set i v := by
  induction items generalizing i with
  | nil => cases h
  | cons item items ih =>
    cases item with
    | scope => exact ih hnodup h
    | word w =>
      obtain ⟨j, hj, rfl⟩ := Option.map_eq_some_iff.mp h
      exact congrArg (w :: ·) (ih hnodup hj)
    | var y =>
      obtain ⟨hfresh, hrest⟩ := List.nodup_cons.mp hnodup
      rw [place?] at h
      split at h
      · rename_i heq
        cases h
        subst heq
        rw [slotWords, Function.update_self,
          slotWords_update_of_not_mem (fun hmem => hfresh (mem_varNames.mpr hmem))]
        rfl
      · rename_i hne
        obtain ⟨j, hj, rfl⟩ := Option.map_eq_some_iff.mp h
        rw [slotWords, Function.update_of_ne hne, ih hrest hj]
        rfl

theorem drop_slotWords_vars (names : List Text) (rest : List Item) :
    (slotWords stored (names.map .var ++ .scope :: rest)).drop names.length =
      slotWords stored rest := by
  induction names with
  | nil => rfl
  | cons x names ih => exact ih

end Words

section Run

open Machine

variable {base m : Machine} {height pc : Nat} {code : Code} {s t : Ledger} {op : Op} {ops : List Op}
  {b : Builder}

/-- The lines of an operation do to the machine what the operation does to the ledger. -/
theorem goes_lines (haligned : isAligned (base.reg Reg.sp).toUInt32 = true) (hpc : m.pc = pc)
    (h : Stacks base height s.regs s.words m) (hnodup : (varNames s.items).Nodup)
    (hroom : 4 * depth s.items + height < 2 ^ 32) (hroom' : 4 * depth t.items + height < 2 ^ 32)
    (hop : s.Step op t) (hcode : code.Holds pc (op.lines s.items)) :
    Goes base height code (codeSize (op.lines s.items)) pc m t.regs t.words := by
  have hlength : s.words.length = depth s.items := length_slotWords _ _
  cases hop with
  | push hreg =>
    have hgoes := h.goes_push hpc haligned hreg hcode (by rw [hlength]; exact hroom')
    exact hgoes
  | @pop _ _ v items hreg hitems =>
    have hwords : s.words = v :: slotWords s.stored items := by rw [Ledger.words, hitems]; rfl
    exact h.goes_pop hpc haligned hreg hcode hwords
  | overwrite hreg hi =>
    rw [Op.lines, hi] at hcode ⊢
    obtain ⟨offset, hoffset, hinstr⟩ := hcode.1.sw_slot hreg
    have hgoes := h.goes_sw hpc haligned hreg hoffset (by rw [hlength]; exact hroom)
      (by rw [hlength]; exact place?_lt hi) hinstr
    rw [Ledger.words, slotWords_update hnodup hi]
    exact hgoes
  | create hreg hi =>
    rw [Op.lines, hi] at hcode ⊢
    have hgoes := h.goes_push hpc haligned hreg hcode (by rw [hlength]; exact hroom')
    simp only [Ledger.words, slotWords, Function.update_self,
      slotWords_update_of_not_mem (place?_eq_none_iff.mp hi)]
    exact hgoes
  | read hreg hi =>
    rw [Op.lines, hi] at hcode ⊢
    obtain ⟨offset, hoffset, hinstr⟩ := hcode.1.lw_slot hreg
    exact h.goes_lw hpc haligned hreg hoffset (slotWords_place? hi) hinstr
  | readNone hreg hi =>
    rw [Op.lines, hi] at hcode ⊢
    exact h.goes_li hpc hreg (hcode.1.instr?_eq (decodes_li_zero hreg))
  | beginScope => exact .refl hpc h
  | @freeScope names rest hfound =>
    rw [Op.lines, hfound, Option.elim_some] at hcode ⊢
    have hitems := unscoped?_eq_some hfound
    have hcount : names.length ≤ s.words.length := by
      rw [hlength, hitems, depth_vars]
      exact Nat.le_add_right _ _
    have hgoes := h.goes_free hpc hcode hcount
    rw [Ledger.words, hitems, drop_slotWords_vars] at hgoes
    exact hgoes

theorem goes_run (haligned : isAligned (base.reg Reg.sp).toUInt32 = true) (hb : b.Tallies s.items)
    (hroom : ∀ n, (b.run (ops.take n)).delta + height < 2 ^ 32) (hops : s.run? ops = some t)
    (hpc : m.pc = pc) (h : Stacks base height s.regs s.words m)
    (hcode : code.Holds pc (s.lines ops)) :
    Goes base height code (codeSize (s.lines ops)) pc m t.regs t.words := by
  induction ops generalizing b s pc m with
  | nil =>
    cases hops
    exact .refl hpc h
  | cons op ops ih =>
    obtain ⟨s', hop, hrest⟩ := Option.bind_eq_some_iff.mp hops
    have hstep := Ledger.step_of_after? hop
    have hb' := (hb.apply hstep).1
    have hhere : b.delta + height < 2 ^ 32 := hroom 0
    have hnext : (op.apply b).delta + height < 2 ^ 32 := hroom 1
    rw [hb.delta] at hhere
    rw [hb'.delta] at hnext
    rw [Ledger.lines_cons hop] at hcode ⊢
    obtain ⟨hfirst, hlater⟩ := Code.holds_append.mp hcode
    rw [codeSize_append]
    refine (goes_lines haligned hpc h hb.nodup (by omega) (by omega) hstep hfirst).trans
      fun m' hpc' h' => ?_
    exact ih hb' (fun n => hroom (n + 1)) hrest hpc' h' hlater

/-- Wherever the lines of operations stand in code, they do to the machine what each of the operations
does to the ledger. -/
theorem refines_of_holds {before after : List Op}
    (hops : (Ledger.start m.reg).run? (before ++ after) = some t)
    (hcode : code.Holds pc ((Ledger.start m.reg).lines (before ++ after))) (hpc : m.pc = pc)
    (hrunning : m.halted = false) (haligned : isAligned (m.reg Reg.sp).toUInt32 = true)
    (hroom : ∀ n, (Builder.opened.run ((before ++ after).take n)).delta < 2 ^ 32) :
    ∃ s m', (Ledger.start m.reg).run? before = some s ∧
      m.stepMany code none (codeSize (Builder.opened.run before).lines.reverse) = (none, m') ∧
      m'.pc = (pc + codeSize (Builder.opened.run before).lines.reverse : Nat) ∧
      (∀ r, r ≠ Reg.sp → m'.reg r = s.regs r) ∧
      m'.reg Reg.sp = m.reg Reg.sp - Int32.ofInt (Builder.opened.run before).delta ∧
      ∀ d : Nat, (∀ n, (Builder.opened.run (before.take n)).delta + d < 2 ^ 32) →
        m'.load (m.above d) = m.load (m.above d) := by
  obtain ⟨s, hbefore, -⟩ := Option.bind_eq_some_iff.mp ((Ledger.run?_append _ _ _).symm.trans hops)
  rw [Ledger.lines_append hbefore] at hcode
  rw [Builder.reverse_lines_opened hbefore]
  have hgoes : ∀ height : Nat, (∀ n, (Builder.opened.run (before.take n)).delta + height < 2 ^ 32) →
      Goes m height code (codeSize ((Ledger.start m.reg).lines before)) pc m s.regs s.words :=
    fun height hheight => goes_run haligned Builder.tallies_opened hheight hbefore hpc
      (stacks_self height hrunning) (Code.holds_append.mp hcode).1
  have hzero : ∀ n, (Builder.opened.run (before.take n)).delta + (0 : Nat) < 2 ^ 32 := by
    intro n
    have hn := hroom (min n before.length)
    rw [List.take_append_of_le_length (Nat.min_le_right _ _), ← List.take_eq_take_min] at hn
    omega
  obtain ⟨m', hsteps, hplace, h⟩ := hgoes 0 hzero
  refine ⟨s, m', hbefore, hsteps, hplace, h.reg_eq, ?_, fun d hd => ?_⟩
  · have hdelta := (Builder.tallies_opened.run hbefore).1.delta
    rw [h.sp_eq, Ledger.words, length_slotWords, hdelta]
    rfl
  · obtain ⟨m'', hsteps', -, h'⟩ := hgoes d hd
    cases hsteps.symm.trans hsteps'
    exact h'.above_eq d le_rfl

/-- The variables of a builder are slots of the stack. Operations that keep to the discipline and store
under no name that breaks its line have a text that is assembled exactly if its offsets and the sizes of
its frames are below 2 ^ 31. Its code leaves the machine, after each of the operations, with the registers
of the ledger: a variable that is read has the value last stored under its name while it is live and is
zero when it is not, and what is popped is what was pushed. The stack pointer is down by the account of the
builder, and what lies above the place where it began is as it was, unless the stack comes round to it. -/
theorem slots_refined (hops : (Ledger.start m.reg).run? ops = some t)
    (hnames : ∀ reg x, .store reg x ∈ ops → .char '\n' ∉ x) :
    ((∃ code, Code.ofText ("main:\n" ++ (Builder.opened.run ops).render) = .ok code) ↔
      ∀ l ∈ (Builder.opened.run ops).lines, l.Fits) ∧
      ∀ code, Code.ofText ("main:\n" ++ (Builder.opened.run ops).render) = .ok code →
        m.pc = code.entry → m.halted = false → isAligned (m.reg Reg.sp).toUInt32 = true →
        (∀ n, (Builder.opened.run (ops.take n)).delta < 2 ^ 32) →
        ∀ before after, ops = before ++ after → ∃ s m',
          (Ledger.start m.reg).run? before = some s ∧
          m.stepMany code none (codeSize (Builder.opened.run before).lines.reverse) = (none, m') ∧
          m'.pc = codeSize (Builder.opened.run before).lines.reverse ∧
          (∀ r, r ≠ Reg.sp → m'.reg r = s.regs r) ∧
          m'.reg Reg.sp = m.reg Reg.sp - Int32.ofInt (Builder.opened.run before).delta ∧
          ∀ d : Nat, (∀ n, (Builder.opened.run (before.take n)).delta + d < 2 ^ 32) →
            m'.load (m.above d) = m.load (m.above d) := by
  refine ⟨?_, fun code hcode hpc hrunning haligned hroom before after heq => ?_⟩
  · rw [exists_code_iff_fits hops hnames, ← Builder.reverse_lines_opened hops]
    simp only [List.mem_reverse]
  · obtain ⟨hentry, hholds⟩ := holds_of_ofText hops hnames hcode
    subst heq
    have hstart : m.pc = (0 : Nat) := hpc.trans hentry
    simpa using refines_of_holds hops hholds hstart hrunning haligned hroom

end Run

/-- While a word is parked, an inner scope makes a variable of its own and changes one of the outer
scope. -/
def nestedOps : List Op :=
  [.store "$v0" "x", .push "$v0", .beginScope, .store "$t0" "y", .store "$t0" "x", .freeScope,
    .pop "$t1", .retrieve "$t2" "x", .retrieve "$t3" "y"]

/-- A machine with 7 in `$v0` and 9 in `$t0`. -/
def primed : Machine where
  regs := (Machine.freshRegs.set Reg.v0 7).set Reg.t0 9
  pc := 0

theorem nested_slots_kept :
    ∃ code m', Code.ofText ("main:\n" ++ (Builder.opened.run nestedOps).render) = .ok code ∧
      primed.stepMany code none 12 = (none, m') ∧ m'.namedReg? "$t1" = some 7 ∧
      m'.namedReg? "$t2" = some 9 ∧ m'.namedReg? "$t3" = some 0 ∧
      m'.reg Reg.sp = Machine.stackTop - 4 ∧ m'.load (primed.above 0) = 0 := by
  obtain ⟨t, hops⟩ : ∃ t, (Ledger.start primed.reg).run? nestedOps = some t :=
    Option.isSome_iff_exists.mp (by decide +kernel)
  have hroom : ∀ n, (Builder.opened.run (nestedOps.take n)).delta < 2 ^ 32 := by
    have hshort : ∀ n ≤ 9, (Builder.opened.run (nestedOps.take n)).delta < 2 ^ 32 := by decide +kernel
    intro n
    rw [List.take_eq_take_min]
    exact hshort _ (Nat.min_le_right _ _)
  have hnames : ∀ reg x, .store reg x ∈ nestedOps → .char '\n' ∉ x := by
    intro reg x hmem
    have hx : x = "x" ∨ x = "y" := by
      simp only [nestedOps, List.mem_cons, Op.store.injEq, reduceCtorEq, List.not_mem_nil] at hmem
      tauto
    rcases hx with rfl | rfl <;> decide
  have hshort : ∀ l ∈ (Builder.opened.run nestedOps).lines, l.isShort = true := by decide +kernel
  obtain ⟨hassembled, hrefined⟩ := slots_refined hops hnames
  obtain ⟨code, hcode⟩ := hassembled.mpr fun l hl => Line.fits_of_isShort (hshort l hl)
  have hentry := (holds_of_ofText hops hnames hcode).1
  obtain ⟨s, m', hs, hsteps, -, hregs, hsp, habove⟩ :=
    hrefined code hcode hentry.symm rfl (by decide +kernel) hroom nestedOps [] (List.append_nil _).symm
  have hsize : codeSize (Builder.opened.run nestedOps).lines.reverse = 12 := by decide +kernel
  have hdelta : (Builder.opened.run nestedOps).delta = 4 := by decide +kernel
  have hvalues : ((Ledger.start primed.reg).run? nestedOps).map
      (fun s => (s.regs 9, s.regs 10, s.regs 11)) = some (7, 9, 0) := by decide +kernel
  rw [hs, Option.map_some, Option.some.injEq, Prod.mk.injEq, Prod.mk.injEq,
    ← hregs 9 (by decide), ← hregs 10 (by decide), ← hregs 11 (by decide)] at hvalues
  obtain ⟨hpopped, hlive, hdead⟩ := hvalues
  rw [hsize] at hsteps
  rw [hdelta] at hsp
  refine ⟨code, m', hcode, hsteps, congrArg some hpopped, congrArg some hlive, congrArg some hdead,
    hsp.trans (by decide +kernel), ?_⟩
  rw [habove 0 fun n => by simpa using hroom n]
  decide +kernel

/-- A name goes on in a line of its own. -/
def brokenOps : List Op := [.store "$v0" "x\naddu $sp $sp 8"]

/-- A register is pushed `count` times. -/
def deepOps (count : Nat) : List Op := List.replicate count (.push "$v0")

/-- A variable is read from under `count` words. -/
def buriedOps (count : Nat) : List Op :=
  .store "$v0" "x" :: (deepOps count ++ [.retrieve "$t2" "x"])

section Buried

variable {s : Ledger} {v : Int32} {items : List Item} {x : Text}

theorem Ledger.run?_deep (s : Ledger) (count : Nat) :
    s.run? (deepOps count) =
      some { s with items := List.replicate count (.word (s.regs Reg.v0)) ++ s.items } := by
  induction count generalizing s with
  | zero => rfl
  | succ count ih =>
    show ({ s with items := .word (s.regs Reg.v0) :: s.items } : Ledger).run? (deepOps count) = _
    rw [ih, List.replicate_succ']
    simp

theorem place?_under (count : Nat) (h : place? x items = some 0) :
    place? x (List.replicate count (.word v) ++ items) = some count := by
  induction count with
  | zero => exact h
  | succ count ih =>
    show (place? x (List.replicate count (.word v) ++ items)).map (· + 1) = _
    rw [ih]
    rfl

theorem depth_under (count : Nat) (v : Int32) (items : List Item) :
    depth (List.replicate count (.word v) ++ items) = count + depth items := by
  induction count with
  | zero => exact (Nat.zero_add _).symm
  | succ count ih =>
    show depth (List.replicate count (.word v) ++ items) + 1 = _
    omega

theorem run?_buried (regs : Reg → Int32) (count : Nat) :
    ((Ledger.start regs).run? (buriedOps count)).isSome = true ∧
      .instr "lw" ["$t2", slot (4 * (count : Nat))] ∈ (Ledger.start regs).lines (buriedOps count) := by
  obtain ⟨s, hstore, hplace⟩ : ∃ s, (Ledger.start regs).after? (.store "$v0" "x") = some s ∧
      place? "x" s.items = some 0 := ⟨_, rfl, rfl⟩
  have hpushes := Ledger.run?_deep s count
  constructor
  · rw [buriedOps, Ledger.run?, hstore, Option.bind_some, Ledger.run?_append, hpushes]
    rfl
  · rw [buriedOps, Ledger.lines_cons hstore, Ledger.lines_append hpushes]
    refine List.mem_append_right _ (List.mem_append_right _ (List.mem_append_left _ ?_))
    rw [Op.lines, place?_under count hplace]
    exact List.mem_singleton_self _

theorem delta_opened_le (ops : List Op) (n : Nat) :
    (Builder.opened.run (ops.take n)).delta ≤ 4 * (volume ops : Int) := by
  have hle := volume_le_of_isPrefix (List.take_prefix n ops)
  have hfirst : volume (.beginScope :: ops.take n) = volume (ops.take n) := Nat.zero_add _
  have hhigh : (Builder.opened.run (ops.take n)).delta ≤ _ :=
    (Builder.spans_start (.beginScope :: ops.take n)).high
  omega

theorem not_assembled_buried (regs : Reg → Int32) {count : Nat} (hfar : 2 ^ 29 ≤ count)
    (hroom : count + 1 < 2 ^ 30) :
    ∃ t, (Ledger.start regs).run? (buriedOps count) = some t ∧
      (∀ n, (Builder.opened.run ((buriedOps count).take n)).delta < 2 ^ 32) ∧
      ¬ ∃ code, Code.ofText ("main:\n" ++ (Builder.opened.run (buriedOps count)).render) = .ok code := by
  obtain ⟨hsome, hmem⟩ := run?_buried regs count
  obtain ⟨t, hops⟩ := Option.isSome_iff_exists.mp hsome
  refine ⟨t, hops, fun n => ?_, fun hcode => ?_⟩
  · have hvolume : volume (buriedOps count) = count + 1 := by
      simp [volume, buriedOps, deepOps, Op.words, List.sum_replicate, Nat.add_comm]
    have hdelta := delta_opened_le (buriedOps count) n
    omega
  · have hnames : ∀ reg x, .store reg x ∈ buriedOps count → .char '\n' ∉ x := by
      intro reg x hstored
      obtain ⟨-, rfl⟩ : reg = "$v0" ∧ x = "x" := by simpa [buriedOps, deepOps] using hstored
      decide
    have hlt := ((exists_code_iff_fits hops hnames).mp hcode _ hmem).slot _ _ _ rfl
    omega

theorem fits_deep (s : Ledger) (count : Nat) : ∀ l ∈ s.lines (deepOps count), l.Fits := by
  have hshort : ∀ l ∈ pushLines "$v0", l.isShort = true := by decide
  induction count generalizing s with
  | zero => exact fun l hl => absurd hl List.not_mem_nil
  | succ count ih =>
    exact List.forall_mem_append.mpr ⟨fun l hl => Line.fits_of_isShort (hshort l hl), ih _⟩

/-- The word that is pushed last lies as far below the beginning of the stack as the account says, around
the end of the memory if need be. -/
theorem load_deep {m : Machine} (hpc : m.pc = 0) (hrunning : m.halted = false)
    (haligned : Machine.isAligned (m.reg Reg.sp).toUInt32 = true) {count : Nat}
    (hroom : 4 * (count + 1) < 2 ^ 32) :
    ∃ t code m', (Ledger.start m.reg).run? (deepOps (count + 1)) = some t ∧
      (∀ n, (Builder.opened.run ((deepOps (count + 1)).take n)).delta < 2 ^ 32) ∧
      Code.ofText ("main:\n" ++ (Builder.opened.run (deepOps (count + 1))).render) = .ok code ∧
      m.stepMany code none (codeSize ((Ledger.start m.reg).lines (deepOps (count + 1)))) = (none, m') ∧
      m'.load ((m.reg Reg.sp).toUInt32 - UInt32.ofNat (4 * (count + 1))) = m.reg Reg.v0 := by
  have hops := Ledger.run?_deep (Ledger.start m.reg) (count + 1)
  have hnames : ∀ reg x, .store reg x ∈ deepOps (count + 1) → .char '\n' ∉ x := by simp [deepOps]
  obtain ⟨code, hcode⟩ := (exists_code_iff_fits hops hnames).mpr (fits_deep _ (count + 1))
  have hvolume : volume (deepOps (count + 1)) = count + 1 := by
    simp [volume, deepOps, Op.words, List.sum_replicate]
  have hdelta : ∀ n, (Builder.opened.run ((deepOps (count + 1)).take n)).delta < 2 ^ 32 := by
    intro n
    have hle := delta_opened_le (deepOps (count + 1)) n
    omega
  have hgoes := goes_run haligned Builder.tallies_opened (fun n => (Int.add_zero _).trans_lt (hdelta n))
    hops hpc (Machine.stacks_self 0 hrunning) (holds_of_ofText hops hnames hcode).2
  obtain ⟨m', hsteps, -, h⟩ := hgoes
  refine ⟨_, code, m', hops, hdelta, hcode, hsteps, ?_⟩
  have haddress := h.slotAddress_eq 0
  rw [Ledger.words, length_slotWords, depth_under] at haddress
  rw [← h.load_eq 0 (m.reg Reg.v0) rfl, haddress]
  exact congrArg m'.load (by simp [depth, Ledger.start])

end Buried

/-- What is asked of names, offsets and depths is needed. The rest of a name that breaks its line is run as
code, and the stack pointer ends above its beginning. An offset of 2 ^ 31 is not assembled, and a stack that
comes round changes what lay above its beginning, although both have fewer than 2 ^ 32 bytes. -/
theorem broken_names_and_deep_stacks_fail :
    (∃ t code m', (Ledger.start primed.reg).run? brokenOps = some t ∧
      (Builder.opened.run brokenOps).delta = 4 ∧
      Code.ofText ("main:\n" ++ (Builder.opened.run brokenOps).render) = .ok code ∧
      primed.stepMany code none code.instrs.size = (none, m') ∧
      m'.reg Reg.sp = Machine.stackTop + 4) ∧
    (∃ t, (Ledger.start primed.reg).run? (buriedOps (2 ^ 29)) = some t ∧
      (∀ n, (Builder.opened.run ((buriedOps (2 ^ 29)).take n)).delta < 2 ^ 32) ∧
      ¬ ∃ code, Code.ofText ("main:\n" ++ (Builder.opened.run (buriedOps (2 ^ 29))).render) =
        .ok code) ∧
    ∃ t code m', (Ledger.start primed.reg).run? (deepOps 536869888) = some t ∧
      (∀ n, (Builder.opened.run ((deepOps 536869888).take n)).delta < 2 ^ 32) ∧
      Code.ofText ("main:\n" ++ (Builder.opened.run (deepOps 536869888)).render) = .ok code ∧
      primed.stepMany code none (codeSize ((Ledger.start primed.reg).lines (deepOps 536869888))) =
        (none, m') ∧
      (primed.reg Reg.sp).toUInt32 < 0xfffffffc ∧ primed.load 0xfffffffc = 0 ∧
      m'.load 0xfffffffc = 7 := by
  refine ⟨?broken, not_assembled_buried primed.reg le_rfl (by decide), ?round⟩
  case broken =>
    obtain ⟨t, hops⟩ : ∃ t, (Ledger.start primed.reg).run? brokenOps = some t :=
      Option.isSome_iff_exists.mp (by decide +kernel)
    have hrun : (Code.ofText ("main:\n" ++ (Builder.opened.run brokenOps).render)).toOption.any
        (fun code => (primed.stepMany code none code.instrs.size).1.isNone &&
          (primed.stepMany code none code.instrs.size).2.reg Reg.sp = Machine.stackTop + 4) = true := by
      decide +kernel
    cases hcode : Code.ofText ("main:\n" ++ (Builder.opened.run brokenOps).render) with
    | error e =>
      rw [hcode] at hrun
      cases hrun
    | ok code =>
      rw [hcode] at hrun
      obtain ⟨hnone, hsp⟩ := Bool.and_eq_true_iff.mp hrun
      exact ⟨t, code, (primed.stepMany code none code.instrs.size).2, hops, by decide +kernel, rfl,
        Prod.ext (Option.isNone_iff_eq_none.mp hnone) rfl, of_decide_eq_true hsp⟩
  case round =>
    obtain ⟨t, code, m', hops, hdelta, hcode, hsteps, hload⟩ :=
      load_deep (m := primed) rfl rfl (by decide +kernel) (by decide : 4 * (536869887 + 1) < 2 ^ 32)
    have haddress : (primed.reg Reg.sp).toUInt32 - UInt32.ofNat (4 * (536869887 + 1)) = 0xfffffffc := by
      decide +kernel
    rw [haddress] at hload
    exact ⟨t, code, m', hops, hdelta, hcode, hsteps, by decide +kernel, by decide +kernel,
      hload.trans (by decide +kernel)⟩

end Assembly

end MiniPascal
