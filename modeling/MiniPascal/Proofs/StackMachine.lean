import Mathlib
import MiniPascal.Machine.Step

/-! A machine whose stack is a list of words, the top first, and has no end. It does what the machine
does as long as the code uses the stack pointer for its stack only, and is stuck where it does not: at
a load of a word that was never stored, outside the stack, or at an exit that leaves words behind. -/

namespace MiniPascal

namespace StackMachine

structure State where
  regs : Reg → Int32
  hi : Int32
  /-- The words in use; one that has not been stored yet has no value. -/
  stack : List (Option Int32)
  pc : Int
  /-- All bytes written. -/
  out : List UInt8

/-- How an instruction ends. -/
inductive Turn where
  | next (s : State)
  | exit
  | divisionByZero

namespace State

/-- A register as an operand; the stack pointer is none. -/
def get? (s : State) (r : Reg) : Option Int32 :=
  if r = Reg.sp then none else if r = Reg.zero then some 0 else some (s.regs r)

def set? (s : State) (r : Reg) (v : Int32) : Option State :=
  if r = Reg.sp ∨ r = Reg.zero then none else some { s with regs := Function.update s.regs r v }

/-- The number of words that an offset from the stack pointer passes over. -/
def words? (offset : Int32) : Option Nat :=
  if 0 ≤ offset.toInt ∧ offset.toInt % 4 = 0 then some (offset.toInt.toNat / 4) else none

/-- The index of the word that a load or store is about. -/
def index? (offset : Int32) (base : Reg) : Option Nat :=
  if base = Reg.sp then words? offset else none

def operand? (s : State) : Operand → Option Int32
  | .reg r => s.get? r
  | .imm n => some n

def goto (s : State) (pc : Int) : State := { s with pc }

def next (s : State) : State := s.goto (s.pc + 1)

/-- Takes room for a word, or gives up words at the top. -/
def moveTop? (s : State) : Alu → Operand → Option State
  | .subu, .imm n => if n = 4 then some { s with stack := none :: s.stack } else none
  | .addu, .imm n => do
    let count ← words? n
    if count ≤ s.stack.length then some { s with stack := s.stack.drop count } else none
  | _, _ => none

def syscall? (s : State) : Option Turn :=
  if s.regs Reg.v0 = 1 then
    some (.next { s with out := s.out ++ (Numeral.ofWord (s.regs Reg.a0)).bytes }.next)
  else if s.regs Reg.v0 = 11 then
    some (.next { s with out := s.out ++ [(s.regs Reg.a0).toUInt32.toUInt8] }.next)
  else if s.regs Reg.v0 = 10 ∧ s.stack = [] then some .exit
  else none

theorem set?_eq_some_iff {s t : State} {r : Reg} {v : Int32} :
    s.set? r v = some t ↔
      r ≠ Reg.sp ∧ r ≠ Reg.zero ∧ t = { s with regs := Function.update s.regs r v } := by
  unfold set?
  by_cases h : r = Reg.sp ∨ r = Reg.zero
  · rw [if_pos h]
    simp only [reduceCtorEq, false_iff, not_and]
    rcases h with h | h
    · exact fun hne => absurd h hne
    · exact fun _ hne => absurd h hne
  · rw [if_neg h, Option.some.injEq, eq_comm]
    rw [not_or] at h
    exact ⟨fun ht => ⟨h.1, h.2, ht⟩, fun ht => ht.2.2⟩

theorem get?_eq_some_iff {s : State} {r : Reg} {v : Int32} :
    s.get? r = some v ↔ r ≠ Reg.sp ∧ v = if r = Reg.zero then 0 else s.regs r := by
  unfold get?
  by_cases hsp : r = Reg.sp
  · simp [hsp]
  · by_cases hzero : r = Reg.zero <;> simp [hsp, hzero, eq_comm]

theorem words?_eq_some_iff {offset : Int32} {i : Nat} :
    words? offset = some i ↔ offset.toInt = 4 * i := by
  unfold words?
  by_cases h : 0 ≤ offset.toInt ∧ offset.toInt % 4 = 0
  · rw [if_pos h, Option.some.injEq]
    omega
  · rw [if_neg h]
    simp only [reduceCtorEq, false_iff]
    omega

theorem index?_eq_some_iff {offset : Int32} {base : Reg} {i : Nat} :
    index? offset base = some i ↔ base = Reg.sp ∧ offset.toInt = 4 * i := by
  unfold index?
  by_cases h : base = Reg.sp
  · rw [if_pos h, words?_eq_some_iff]
    exact ⟨fun ho => ⟨h, ho⟩, fun ho => ho.2⟩
  · rw [if_neg h]
    simp [h]

/-- Executes an instruction, unless the machine is stuck at it. -/
def perform? (s : State) : Instr Int → Option Turn
  | .li rd v => (s.set? rd v).map fun t => .next t.next
  | .lw rt offset base => do
    let i ← index? offset base
    let v ← (s.stack[i]?).join
    (s.set? rt v).map fun t => .next t.next
  | .sw rt offset base => do
    let i ← index? offset base
    let v ← s.get? rt
    if i < s.stack.length then some (.next { s with stack := s.stack.set i (some v) }.next)
    else none
  | .move rd rs => do
    let v ← s.get? rs
    (s.set? rd v).map fun t => .next t.next
  | .alu op rd rs src =>
    if rd = Reg.sp ∧ rs = Reg.sp then (s.moveTop? op src).map fun t => .next t.next
    else do
      let l ← s.get? rs
      let r ← s.operand? src
      (s.set? rd (op.apply l r)).map fun t => .next t.next
  | .div rd rs rt => do
    let l ← s.get? rs
    let r ← s.get? rt
    if r = 0 then some .divisionByZero else (s.set? rd (l / r)).map fun t => .next t.next
  | .divmod rs rt => do
    let l ← s.get? rs
    let r ← s.get? rt
    if r = 0 then some .divisionByZero else some (.next { s with hi := l % r }.next)
  | .mfhi rd => (s.set? rd s.hi).map fun t => .next t.next
  | .beqz rs target => do
    let v ← s.get? rs
    some (.next (if v = 0 then s.goto target else s.next))
  | .jump target => some (.next (s.goto target))
  | .jal target => (s.set? Reg.ra (Int32.ofInt (s.pc + 1))).map fun t => .next (t.goto target)
  | .jr rs => (s.get? rs).map fun v => .next (s.goto v.toInt)
  | .syscall => s.syscall?
  | .mflo _ => none
  | .bnez _ _ => none
  | .illegal => none

end State

/-- One step, unless the machine is stuck. -/
def step? (code : Code) (s : State) : Option Turn :=
  (code.fetch s.pc).bind fun l => s.perform? l.instr

def start (code : Code) : State :=
  { regs := fun _ => 0, hi := 0, stack := [], pc := code.entry, out := [] }

/-- A number of steps from a state to another. -/
inductive Runs (code : Code) : Nat → State → State → Prop where
  | refl (s : State) : Runs code 0 s s
  | head {k : Nat} {s t u : State} (h : step? code s = some (.next t)) (rest : Runs code k t u) :
    Runs code (k + 1) s u

variable {code : Code} {s t u : State} {k j : Nat}

theorem Runs.single (h : step? code s = some (.next t)) : Runs code 1 s t := .head h (.refl t)

theorem Runs.trans (hst : Runs code k s t) (htu : Runs code j t u) : Runs code (k + j) s u := by
  induction hst with
  | refl s => simpa using htu
  | head h rest ih =>
    rw [Nat.add_right_comm]
    exact .head h (ih htu)

theorem Runs.split (h : Runs code (k + j) s u) : ∃ t, Runs code k s t ∧ Runs code j t u := by
  induction k generalizing s with
  | zero => exact ⟨s, .refl s, by simpa using h⟩
  | succ k ih =>
    rw [Nat.add_right_comm] at h
    cases h with
    | head hstep rest =>
      obtain ⟨t, hfirst, hlast⟩ := ih rest
      exact ⟨t, .head hstep hfirst, hlast⟩

theorem Runs.unique (hst : Runs code k s t) (hsu : Runs code k s u) : t = u := by
  induction hst with
  | refl s =>
    cases hsu
    rfl
  | head h rest ih =>
    cases hsu with
    | head h' rest' =>
      obtain rfl : _ = _ := Turn.next.inj (Option.some.inj (h.symm.trans h'))
      exact ih rest'

/-- Of two runs from a state, the longer one goes on where the shorter one ends. -/
theorem Runs.between (hst : Runs code k s t) (hsu : Runs code j s u) (hle : k ≤ j) :
    Runs code (j - k) t u := by
  obtain ⟨i, rfl⟩ := Nat.exists_eq_add_of_le hle
  obtain ⟨t', ht', htu⟩ := hsu.split
  obtain rfl := hst.unique ht'
  rw [Nat.add_sub_cancel_left]
  exact htu

theorem Runs.exists_next (h : Runs code k s t) (hk : 0 < k) :
    ∃ u, step? code s = some (.next u) := by
  cases h with
  | refl s => exact absurd hk (Nat.lt_irrefl 0)
  | head hstep rest => exact ⟨_, hstep⟩

/-- No run is longer than one that ends with the machine at rest. -/
theorem Runs.le_of_ends (hst : Runs code k s t) (hsu : Runs code j s u) {turn : Turn}
    (hturn : step? code u = some turn) (hends : ∀ v, turn ≠ .next v) : k ≤ j := by
  by_contra hlt
  obtain ⟨v, hv⟩ := (hsu.between hst (by omega)).exists_next (by omega)
  exact hends v (Option.some.inj (hturn.symm.trans hv))

namespace State

/-- What an instruction may do to the stack and the output. -/
inductive Changes (s t : State) : Prop where
  | neither (hstack : t.stack = s.stack) (hout : t.out = s.out)
  | word (i : Nat) (v : Option Int32) (hstack : t.stack = s.stack.set i v) (hout : t.out = s.out)
  | room (hstack : t.stack = none :: s.stack) (hout : t.out = s.out)
  | free (n : Nat) (hn : n ≤ s.stack.length) (hsmall : 4 * n < 2 ^ 31)
      (hstack : t.stack = s.stack.drop n) (hout : t.out = s.out)
  | output (bytes : List UInt8) (hstack : t.stack = s.stack) (hout : t.out = s.out ++ bytes)

theorem Changes.goto (h : Changes s t) (pc : Int) : Changes s (t.goto pc) := by
  cases h with
  | neither hstack hout => exact .neither hstack hout
  | word i v hstack hout => exact .word i v hstack hout
  | room hstack hout => exact .room hstack hout
  | free n hn hsmall hstack hout => exact .free n hn hsmall hstack hout
  | output bytes hstack hout => exact .output bytes hstack hout

theorem changes_of_set? {r : Reg} {v : Int32} (h : s.set? r v = some t) : Changes s t := by
  rw [set?_eq_some_iff] at h
  rw [h.2.2]
  exact .neither rfl rfl

theorem changes_of_moveTop? {op : Alu} {src : Operand} (h : s.moveTop? op src = some t) :
    Changes s t := by
  unfold moveTop? at h
  split at h
  · split at h <;> cases h
    exact .room rfl rfl
  · rename_i n
    obtain ⟨count, hcount, h⟩ := Option.bind_eq_some_iff.mp h
    have hn := words?_eq_some_iff.mp hcount
    have hlt : n.toInt < 2 ^ 31 := Int32.toInt_lt n
    split at h <;> cases h
    rename_i hle
    exact .free count hle (by omega) rfl rfl
  · cases h

theorem changes_of_syscall? {turn : Turn} (h : s.syscall? = some turn) :
    (∃ t, turn = .next t ∧ Changes s t) ∨
      (turn = .exit ∧ s.regs Reg.v0 = 10 ∧ s.stack = []) := by
  unfold syscall? at h
  split at h
  · cases h
    exact .inl ⟨_, rfl, .output _ rfl rfl⟩
  · split at h
    · cases h
      exact .inl ⟨_, rfl, .output _ rfl rfl⟩
    · split at h
      · rename_i hexit
        cases h
        exact .inr ⟨rfl, hexit⟩
      · cases h

/-- The ways in which an instruction ends. -/
theorem perform?_cases {i : Instr Int} {turn : Turn} (h : s.perform? i = some turn) :
    (∃ t, turn = .next t ∧ Changes s t) ∨
      (turn = .exit ∧ i = .syscall ∧ s.regs Reg.v0 = 10 ∧ s.stack = []) ∨
      (turn = .divisionByZero ∧ ∃ rs rt, ((∃ rd, i = .div rd rs rt) ∨ i = .divmod rs rt) ∧
        s.get? rt = some 0) := by
  have hset : ∀ {r : Reg} {v : Int32}, (s.set? r v).map (fun t => Turn.next t.next) = some turn →
      ∃ t, turn = .next t ∧ Changes s t := by
    intro r v h
    obtain ⟨t, ht, rfl⟩ := Option.map_eq_some_iff.mp h
    exact ⟨_, rfl, (changes_of_set? ht).goto _⟩
  cases i <;> rw [perform?] at h
  case li rd v => exact .inl (hset h)
  case lw rt offset base =>
    obtain ⟨i, -, h⟩ := Option.bind_eq_some_iff.mp h
    obtain ⟨v, -, h⟩ := Option.bind_eq_some_iff.mp h
    exact .inl (hset h)
  case sw rt offset base =>
    obtain ⟨i, -, h⟩ := Option.bind_eq_some_iff.mp h
    obtain ⟨v, -, h⟩ := Option.bind_eq_some_iff.mp h
    split at h <;> cases h
    exact .inl ⟨_, rfl, .word i (some v) rfl rfl⟩
  case move rd rs =>
    obtain ⟨v, -, h⟩ := Option.bind_eq_some_iff.mp h
    exact .inl (hset h)
  case alu op rd rs src =>
    split at h
    · obtain ⟨t, ht, rfl⟩ := Option.map_eq_some_iff.mp h
      exact .inl ⟨_, rfl, (changes_of_moveTop? ht).goto _⟩
    · obtain ⟨l, -, h⟩ := Option.bind_eq_some_iff.mp h
      obtain ⟨w, -, h⟩ := Option.bind_eq_some_iff.mp h
      exact .inl (hset h)
  case div rd rs rt =>
    obtain ⟨l, -, h⟩ := Option.bind_eq_some_iff.mp h
    obtain ⟨w, hw, h⟩ := Option.bind_eq_some_iff.mp h
    by_cases hzero : w = 0
    · rw [if_pos hzero] at h
      cases h
      exact .inr (.inr ⟨rfl, rs, rt, .inl ⟨rd, rfl⟩, hzero ▸ hw⟩)
    · rw [if_neg hzero] at h
      exact .inl (hset h)
  case divmod rs rt =>
    obtain ⟨l, -, h⟩ := Option.bind_eq_some_iff.mp h
    obtain ⟨w, hw, h⟩ := Option.bind_eq_some_iff.mp h
    by_cases hzero : w = 0
    · rw [if_pos hzero] at h
      cases h
      exact .inr (.inr ⟨rfl, rs, rt, .inr rfl, hzero ▸ hw⟩)
    · rw [if_neg hzero] at h
      cases h
      exact .inl ⟨_, rfl, .neither rfl rfl⟩
  case mfhi rd => exact .inl (hset h)
  case beqz rs target =>
    obtain ⟨v, -, h⟩ := Option.bind_eq_some_iff.mp h
    cases h
    refine .inl ⟨_, rfl, ?_⟩
    split <;> exact .neither rfl rfl
  case jump target =>
    cases h
    exact .inl ⟨_, rfl, .neither rfl rfl⟩
  case jal target =>
    obtain ⟨t, ht, rfl⟩ := Option.map_eq_some_iff.mp h
    exact .inl ⟨_, rfl, (changes_of_set? ht).goto _⟩
  case jr rs =>
    obtain ⟨v, -, rfl⟩ := Option.map_eq_some_iff.mp h
    exact .inl ⟨_, rfl, .neither rfl rfl⟩
  case syscall =>
    rcases changes_of_syscall? h with hnext | ⟨hexit, hrest⟩
    · exact .inl hnext
    · exact .inr (.inl ⟨hexit, rfl, hrest⟩)
  all_goals cases h

theorem changes_of_perform? {i : Instr Int} (h : s.perform? i = some (.next t)) : Changes s t := by
  rcases perform?_cases h with ⟨t', ht', hchanges⟩ | ⟨hexit, -⟩ | ⟨hdivides, -⟩
  · cases ht'
    exact hchanges
  · cases hexit
  · cases hdivides

namespace Changes

/-- Output is only ever added to. -/
theorem prefix_out (h : Changes s t) : s.out <+: t.out := by
  cases h with
  | neither hstack hout => exact hout ▸ List.prefix_refl _
  | word i v hstack hout => exact hout ▸ List.prefix_refl _
  | room hstack hout => exact hout ▸ List.prefix_refl _
  | free n hn hsmall hstack hout => exact hout ▸ List.prefix_refl _
  | output bytes hstack hout => exact hout ▸ List.prefix_append _ _

/-- The stack grows by a word at most, and shrinks by less than 2 ^ 31 bytes. -/
theorem length_le (h : Changes s t) :
    t.stack.length ≤ s.stack.length + 1 ∧ 4 * s.stack.length < 4 * t.stack.length + 2 ^ 31 := by
  cases h with
  | neither hstack hout => rw [hstack]; omega
  | word i v hstack hout => rw [hstack, List.length_set]; omega
  | room hstack hout => rw [hstack, List.length_cons]; omega
  | free n hn hsmall hstack hout => rw [hstack, List.length_drop]; omega
  | output bytes hstack hout => rw [hstack]; omega

end Changes

end State

theorem Runs.prefix_out (h : Runs code k s t) : s.out <+: t.out := by
  induction h with
  | refl s => exact List.prefix_refl _
  | head hstep rest ih =>
    obtain ⟨l, -, hperform⟩ := Option.bind_eq_some_iff.mp hstep
    exact (State.changes_of_perform? hperform).prefix_out.trans ih

end StackMachine

end MiniPascal
