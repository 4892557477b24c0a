import MiniPascal.Proofs.Bookkeeping
import MiniPascal.Proofs.Linking

/-! Variables and parked words on one stack. A ledger says what the operations on a builder mean, without
any offset: which slots are live, what was stored last under each name and what the registers hold. The
account of the builder gives every live variable the place that its slot has on the stack. -/

namespace MiniPascal

namespace Assembly

/-- What lies on the stack, with a mark where a scope begins. -/
inductive Item where
  | scope
  | var (name : Text)
  | word (value : Int32)
  deriving DecidableEq

/-- The items below the innermost scope, if only variables lie above its mark, and their names. -/
def unscoped? : List Item → Option (List Text × List Item)
  | .scope :: items => some ([], items)
  | .var x :: items => (unscoped? items).map fun found => (x :: found.1, found.2)
  | _ => none

/-- The register of a name, the stack pointer and the zero register left out. -/
def valueReg? (name : Text) : Option Reg :=
  (Reg.ofName? name).filter fun r => r ≠ Reg.sp && r ≠ Reg.zero

structure Ledger where
  regs : Reg → Int32
  /-- What was stored last under each name. -/
  stored : Text → Int32
  /-- What is live, the latest first. -/
  items : List Item

namespace Ledger

/-- A scope is open, and nothing is in it. -/
def start (regs : Reg → Int32) : Ledger := ⟨regs, fun _ => 0, [.scope]⟩

/-- What an operation does, if it keeps to the discipline: a word is popped only from the top, a name is
stored only in a scope, and a scope is freed only when no word is parked in it. -/
def after? (s : Ledger) : Op → Option Ledger
  | .push reg => (valueReg? reg).map fun r => { s with items := .word (s.regs r) :: s.items }
  | .pop reg =>
    match s.items with
    | .word v :: items =>
      (valueReg? reg).map fun r => { s with regs := Function.update s.regs r v, items }
    | _ => none
  | .store reg x =>
    if .scope ∈ s.items then
      (valueReg? reg).map fun r =>
        { s with
          stored := Function.update s.stored x (s.regs r)
          items := if .var x ∈ s.items then s.items else .var x :: s.items }
    else none
  | .retrieve reg x =>
    (valueReg? reg).map fun r =>
      { s with regs := Function.update s.regs r (if .var x ∈ s.items then s.stored x else 0) }
  | .beginScope => some { s with items := .scope :: s.items }
  | .freeScope => (unscoped? s.items).map fun found => { s with items := found.2 }
  | _ => none

def run? (s : Ledger) : List Op → Option Ledger
  | [] => some s
  | op :: ops => (s.after? op).bind (run? · ops)

theorem run?_append (s : Ledger) (ops ops' : List Op) :
    s.run? (ops ++ ops') = (s.run? ops).bind (run? · ops') := by
  induction ops generalizing s with
  | nil => rfl
  | cons op ops ih => simp only [List.cons_append, run?, ih, Option.bind_assoc]

end Ledger

section Items

variable {x : Text} {items rest : List Item} {names : List Text}

/-- The number of slots. -/
def depth : List Item → Nat
  | [] => 0
  | .scope :: items => depth items
  | .var _ :: items => depth items + 1
  | .word _ :: items => depth items + 1

/-- The number of slots above that of a variable. -/
def place? (x : Text) : List Item → Option Nat
  | [] => none
  | .scope :: items => place? x items
  | .var y :: items => if y = x then some 0 else (place? x items).map (· + 1)
  | .word _ :: items => (place? x items).map (· + 1)

/-- The variables of each scope. -/
def owned : List Item → List (List Text)
  | [] => []
  | .scope :: items => [] :: owned items
  | .var x :: items => (owned items).modifyHead (x :: ·)
  | .word _ :: items => owned items

def varNames : List Item → List Text
  | [] => []
  | .scope :: items => varNames items
  | .var x :: items => x :: varNames items
  | .word _ :: items => varNames items

theorem mem_varNames : x ∈ varNames items ↔ .var x ∈ items := by
  induction items with
  | nil => simp [varNames]
  | cons item items ih => cases item <;> simp [varNames, ih]

theorem isSome_place? : (place? x items).isSome = true ↔ .var x ∈ items := by
  induction items with
  | nil => simp [place?]
  | cons item items ih =>
    cases item with
    | scope => simpa [place?] using ih
    | word v => simpa [place?] using ih
    | var y =>
      rw [place?]
      by_cases hy : y = x
      · simp [hy]
      · simpa [hy, Ne.symm hy] using ih

theorem place?_eq_none_iff : place? x items = none ↔ .var x ∉ items := by
  rw [← isSome_place?, Option.not_isSome_iff_eq_none]

theorem mem_of_place? {i : Nat} (h : place? x items = some i) : .var x ∈ items :=
  isSome_place?.mp (Option.isSome_of_eq_some h)

theorem place?_lt {i : Nat} (h : place? x items = some i) : i < depth items := by
  induction items generalizing i with
  | nil => cases h
  | cons item items ih =>
    cases item with
    | scope => exact ih h
    | word v =>
      obtain ⟨j, hj, rfl⟩ := Option.map_eq_some_iff.mp h
      exact Nat.succ_lt_succ (ih hj)
    | var y =>
      rw [place?] at h
      split at h
      · cases h
        exact Nat.succ_pos _
      · obtain ⟨j, hj, rfl⟩ := Option.map_eq_some_iff.mp h
        exact Nat.succ_lt_succ (ih hj)

theorem unscoped?_eq_some (h : unscoped? items = some (names, rest)) :
    items = names.map .var ++ .scope :: rest := by
  induction items generalizing names with
  | nil => cases h
  | cons item items ih =>
    cases item with
    | word v => cases h
    | scope =>
      cases h
      rfl
    | var x =>
      obtain ⟨⟨names', rest'⟩, hfound, heq⟩ := Option.map_eq_some_iff.mp h
      cases heq
      rw [ih hfound]
      rfl

theorem depth_vars (names : List Text) (rest : List Item) :
    depth (names.map .var ++ .scope :: rest) = names.length + depth rest := by
  induction names with
  | nil => exact (Nat.zero_add _).symm
  | cons x names ih =>
    rw [List.map_cons, List.cons_append, depth, ih, List.length_cons]
    omega

theorem owned_vars (names : List Text) (rest : List Item) :
    owned (names.map .var ++ .scope :: rest) = names :: owned rest := by
  induction names with
  | nil => rfl
  | cons x names ih =>
    rw [List.map_cons, List.cons_append, owned, ih]
    rfl

theorem owned_ne_nil (h : .scope ∈ items) : owned items ≠ [] := by
  induction items with
  | nil => cases h
  | cons item items ih =>
    cases item with
    | scope => exact List.cons_ne_nil _ _
    | word v => exact ih (by simpa using h)
    | var x =>
      obtain ⟨names, outer, howned⟩ := List.exists_cons_of_ne_nil (ih (by simpa using h))
      rw [owned, howned]
      exact List.cons_ne_nil _ _

theorem varNames_vars (names : List Text) (rest : List Item) :
    varNames (names.map .var ++ .scope :: rest) = names ++ varNames rest := by
  induction names with
  | nil => rfl
  | cons x names ih => rw [List.map_cons, List.cons_append, varNames, ih, List.cons_append]

theorem place?_vars (hx : x ∉ names) (rest : List Item) :
    place? x (names.map .var ++ .scope :: rest) = (place? x rest).map (· + names.length) := by
  induction names with
  | nil => exact Option.map_id'.symm
  | cons y names ih =>
    rw [List.mem_cons, not_or] at hx
    rw [List.map_cons, List.cons_append, place?, if_neg (Ne.symm hx.1), ih hx.2, Option.map_map]
    rfl

/-- The offsets from a stack pointer that lies some words lower. -/
theorem map_add_offset {d d' : Int} {k : Nat} (h : d' = d + 4 * k) (places : Option Nat) :
    (places.map (· + k)).map (fun i : Nat => d' - 4 * i) = places.map fun i : Nat => d - 4 * i := by
  rw [Option.map_map]
  congr 1
  funext i
  simp only [Function.comp]
  omega

end Items

theorem regName_of_valueReg? {name : Text} {r : Reg} (h : valueReg? name = some r) :
    RegName name r := by
  have hwords : ∀ entry ∈ Reg.named, entry.1.IsWord := by decide
  obtain ⟨hname, hvalue⟩ := Option.filter_eq_some_iff.mp h
  simp only [ne_eq, Bool.and_eq_true, decide_eq_true_eq] at hvalue
  exact ⟨hwords _ (Table.mem_of_get? hname), hname, hvalue.1, hvalue.2⟩

/-- All that an operation can do. -/
inductive Ledger.Step (s : Ledger) : Op → Ledger → Prop where
  | push {reg : Text} {r : Reg} (hreg : RegName reg r) :
    Step s (.push reg) { s with items := .word (s.regs r) :: s.items }
  | pop {reg : Text} {r : Reg} {v : Int32} {items : List Item} (hreg : RegName reg r)
    (hitems : s.items = .word v :: items) :
    Step s (.pop reg) { s with regs := Function.update s.regs r v, items }
  | overwrite {reg x : Text} {r : Reg} {i : Nat} (hreg : RegName reg r)
    (hi : place? x s.items = some i) :
    Step s (.store reg x) { s with stored := Function.update s.stored x (s.regs r) }
  | create {reg x : Text} {r : Reg} (hreg : RegName reg r) (hi : place? x s.items = none)
    (hscope : .scope ∈ s.items) :
    Step s (.store reg x)
      { s with stored := Function.update s.stored x (s.regs r), items := .var x :: s.items }
  | read {reg x : Text} {r : Reg} {i : Nat} (hreg : RegName reg r) (hi : place? x s.items = some i) :
    Step s (.retrieve reg x) { s with regs := Function.update s.regs r (s.stored x) }
  | readNone {reg x : Text} {r : Reg} (hreg : RegName reg r) (hi : place? x s.items = none) :
    Step s (.retrieve reg x) { s with regs := Function.update s.regs r 0 }
  | beginScope : Step s .beginScope { s with items := .scope :: s.items }
  | freeScope {names : List Text} {rest : List Item} (hfound : unscoped? s.items = some (names, rest)) :
    Step s .freeScope { s with items := rest }

theorem Ledger.step_of_after? {s t : Ledger} {op : Op} (h : s.after? op = some t) : s.Step op t := by
  cases op with
  | push reg =>
    obtain ⟨r, hr, rfl⟩ := Option.map_eq_some_iff.mp h
    exact .push (regName_of_valueReg? hr)
  | pop reg =>
    rw [after?] at h
    split at h
    · rename_i v items hitems
      obtain ⟨r, hr, rfl⟩ := Option.map_eq_some_iff.mp h
      exact .pop (regName_of_valueReg? hr) hitems
    · cases h
  | store reg x =>
    rw [after?] at h
    split at h
    · rename_i hscope
      obtain ⟨r, hr, rfl⟩ := Option.map_eq_some_iff.mp h
      have hreg := regName_of_valueReg? hr
      cases hi : place? x s.items with
      | some i =>
        rw [if_pos (mem_of_place? hi)]
        exact .overwrite hreg hi
      | none =>
        rw [if_neg (place?_eq_none_iff.mp hi)]
        exact .create hreg hi hscope
    · cases h
  | retrieve reg x =>
    obtain ⟨r, hr, rfl⟩ := Option.map_eq_some_iff.mp h
    have hreg := regName_of_valueReg? hr
    cases hi : place? x s.items with
    | some i =>
      rw [if_pos (mem_of_place? hi)]
      exact .read hreg hi
    | none =>
      rw [if_neg (place?_eq_none_iff.mp hi)]
      exact .readNone hreg hi
  | beginScope =>
    cases h
    exact .beginScope
  | freeScope =>
    obtain ⟨⟨names, rest⟩, hfound, rfl⟩ := Option.map_eq_some_iff.mp h
    exact .freeScope hfound
  | _ => cases h

/-- The lines of an operation, given what is live. -/
def Op.lines (items : List Item) : Op → List Line
  | .push reg => pushLines reg
  | .pop reg => popLines reg
  | .store reg x =>
    match place? x items with
    | some i => [.instr "sw" [reg, slot (4 * (i : Nat))]]
    | none => .comment ("new variable " ++ x) :: pushLines reg
  | .retrieve reg x =>
    match place? x items with
    | some i => [.instr "lw" [reg, slot (4 * (i : Nat))]]
    | none => [.instr "li" [reg, "0"]]
  | .freeScope => freeLines ((unscoped? items).elim 0 fun found => found.1.length)
  | _ => []

/-- The lines of operations in turn. -/
def Ledger.lines (s : Ledger) : List Op → List Line
  | [] => []
  | op :: ops => op.lines s.items ++ (s.after? op).elim [] (lines · ops)

theorem Ledger.lines_cons {s s' : Ledger} {op : Op} (h : s.after? op = some s') (ops : List Op) :
    s.lines (op :: ops) = op.lines s.items ++ s'.lines ops := by
  rw [lines, h]
  rfl

theorem Ledger.lines_append {s t : Ledger} {ops : List Op} (h : s.run? ops = some t)
    (ops' : List Op) : s.lines (ops ++ ops') = s.lines ops ++ t.lines ops' := by
  induction ops generalizing s with
  | nil =>
    cases h
    rfl
  | cons op ops ih =>
    obtain ⟨s', hop, hrest⟩ := Option.bind_eq_some_iff.mp h
    rw [List.cons_append, lines_cons hop, lines_cons hop, ih hrest, List.append_assoc]

namespace Builder

/-- The account fits what is live. -/
structure Tallies (b : Builder) (items : List Item) : Prop where
  delta : b.delta = 4 * depth items
  offsets : ∀ x, b.offsets.get? x = (place? x items).map fun i : Nat => b.delta - 4 * i
  scopes : b.scopes = owned items
  nodup : (varNames items).Nodup

/-- A builder in which one scope was opened. -/
def opened : Builder := beginScope {}

theorem tallies_opened : opened.Tallies [.scope] := ⟨rfl, fun _ => rfl, rfl, List.nodup_nil⟩

section Tallies

variable {b : Builder} {items rest : List Item} {names : List Text}

theorem Tallies.push (h : b.Tallies items) (reg : Text) (v : Int32) :
    (b.push reg).Tallies (.word v :: items) := by
  have hdelta : (b.push reg).delta = b.delta + 4 := rfl
  refine ⟨?_, fun x => ?_, h.scopes, h.nodup⟩
  · rw [hdelta, h.delta, depth]
    omega
  · have hoffsets : (b.push reg).offsets = b.offsets := rfl
    rw [hoffsets, h.offsets, place?, hdelta]
    exact (map_add_offset rfl _).symm

theorem note_eq (b : Builder) (wrong : Bool) (s : Slip) :
    b.note wrong s = { b with slip := (b.note wrong s).slip } := by
  unfold note
  split <;> rfl

theorem Tallies.pop {v : Int32} (h : b.Tallies (.word v :: items)) (reg : Text) :
    (b.pop reg).Tallies items ∧ (b.pop reg).lines = (popLines reg).reverse ++ b.lines := by
  obtain ⟨slip, hpop⟩ : ∃ slip, b.pop reg =
      { b.emitAll (popLines reg) with delta := b.delta - 4, slip } := ⟨_, note_eq _ _ _⟩
  rw [hpop]
  refine ⟨⟨?_, fun x => ?_, h.scopes, h.nodup⟩, rfl⟩
  · show b.delta - 4 = _
    rw [h.delta, depth]
    omega
  · show b.offsets.get? x = (place? x items).map fun i : Nat => b.delta - 4 - 4 * i
    rw [h.offsets, place?]
    exact map_add_offset (Int.sub_add_cancel _ _).symm _

/-- Where the account has a variable, relative to the stack pointer. -/
theorem Tallies.slot_eq (h : b.Tallies items) {x : Text} {i : Nat} (hi : place? x items = some i) :
    ∃ offset, b.offsets.get? x = some offset ∧ slot (b.delta - offset) = slot (4 * i) := by
  refine ⟨b.delta - 4 * i, by rw [h.offsets, hi]; rfl, congrArg slot ?_⟩
  omega

theorem Tallies.overwrite (h : b.Tallies items) {reg x : Text} {i : Nat}
    (hi : place? x items = some i) :
    (b.store reg x).Tallies items ∧
      (b.store reg x).lines = ((Op.store reg x).lines items).reverse ++ b.lines := by
  obtain ⟨offset, hoffset, hslot⟩ := h.slot_eq hi
  have hstore : b.store reg x = b.emit (.instr "sw" [reg, slot (4 * i)]) := by
    rw [Builder.store, hoffset, ← hslot]
  rw [hstore, Op.lines, hi]
  exact ⟨⟨h.delta, h.offsets, h.scopes, h.nodup⟩, rfl⟩

theorem Tallies.create (h : b.Tallies items) {reg x : Text} (hi : place? x items = none)
    (hscope : .scope ∈ items) :
    (b.store reg x).Tallies (.var x :: items) ∧
      (b.store reg x).lines = ((Op.store reg x).lines items).reverse ++ b.lines := by
  have hoffset : b.offsets.get? x = none := by rw [h.offsets, hi]; rfl
  obtain ⟨names, outer, hscopes⟩ : ∃ names outer, b.scopes = names :: outer := by
    rw [h.scopes]
    exact List.exists_cons_of_ne_nil (owned_ne_nil hscope)
  have hstore : b.store reg x =
      { (b.emit (.comment ("new variable " ++ x))).push reg with
        offsets := b.offsets.set x (b.delta + 4), scopes := (x :: names) :: outer } := by
    rw [Builder.store, hoffset, hscopes]
    rfl
  rw [hstore, Op.lines, hi]
  refine ⟨⟨?_, fun y => ?_, ?_, ?_⟩, rfl⟩
  · show b.delta + 4 = _
    rw [h.delta, depth]
    omega
  · show (b.offsets.set x (b.delta + 4)).get? y = (place? y (.var x :: items)).map fun i : Nat =>
      b.delta + 4 - 4 * i
    rw [Table.get?_set, place?, h.offsets]
    by_cases hy : y = x
    · rw [if_pos hy, if_pos hy.symm]
      simp
    · rw [if_neg hy, if_neg (Ne.symm hy)]
      exact (map_add_offset rfl _).symm
  · rw [owned, ← h.scopes, hscopes]
    rfl
  · refine List.nodup_cons.mpr ⟨fun hmem => ?_, h.nodup⟩
    exact place?_eq_none_iff.mp hi (mem_varNames.mp hmem)

theorem Tallies.retrieve (h : b.Tallies items) (reg x : Text) :
    (b.retrieve reg x).Tallies items ∧
      (b.retrieve reg x).lines = ((Op.retrieve reg x).lines items).reverse ++ b.lines := by
  rw [Op.lines]
  cases hi : place? x items with
  | none =>
    have hoffset : b.offsets.get? x = none := by rw [h.offsets, hi]; rfl
    rw [Builder.retrieve, hoffset]
    exact ⟨⟨h.delta, h.offsets, h.scopes, h.nodup⟩, rfl⟩
  | some i =>
    obtain ⟨offset, hoffset, hslot⟩ := h.slot_eq hi
    rw [Builder.retrieve, hoffset]
    dsimp only
    rw [hslot]
    exact ⟨⟨h.delta, h.offsets, h.scopes, h.nodup⟩, rfl⟩

theorem Tallies.beginScope (h : b.Tallies items) : b.beginScope.Tallies (.scope :: items) :=
  ⟨h.delta, h.offsets, congrArg ([] :: ·) h.scopes, h.nodup⟩

/-- With a scope its variables go, and the names are free for slots elsewhere. -/
theorem Tallies.freeScope (h : b.Tallies items) (hitems : unscoped? items = some (names, rest)) :
    b.freeScope.Tallies rest ∧ b.freeScope.lines = (Op.freeScope.lines items).reverse ++ b.lines := by
  obtain rfl := unscoped?_eq_some hitems
  have hscopes : b.scopes = names :: owned rest := by rw [h.scopes, owned_vars]
  have hfree : b.freeScope.delta = b.delta - 4 * names.length ∧
      b.freeScope.offsets = names.foldl Table.erase b.offsets ∧ b.freeScope.scopes = owned rest ∧
      b.freeScope.lines = (freeLines names.length).reverse ++ b.lines := by
    rw [Builder.freeScope, hscopes]
    cases names with
    | nil => exact ⟨(Int.sub_zero _).symm, rfl, rfl, rfl⟩
    | cons x names => exact ⟨rfl, rfl, rfl, rfl⟩
  obtain ⟨hdelta, hoffsets, hfreed, hlines⟩ := hfree
  have hnodup := h.nodup
  rw [varNames_vars, List.nodup_append'] at hnodup
  rw [Op.lines, hitems]
  refine ⟨⟨?_, fun x => ?_, hfreed, hnodup.2.1⟩, hlines⟩
  · rw [hdelta, h.delta, depth_vars]
    push_cast
    omega
  · rw [hoffsets, Table.get?_foldl_erase, hdelta]
    by_cases hx : x ∈ names
    · have hnone : place? x rest = none :=
        place?_eq_none_iff.mpr fun hmem => hnodup.2.2 hx (mem_varNames.mpr hmem)
      rw [if_pos hx, hnone]
      rfl
    · rw [if_neg hx, h.offsets, place?_vars hx]
      exact map_add_offset (Int.sub_add_cancel _ _).symm _

variable {s t : Ledger} {op : Op} {ops : List Op}

theorem Tallies.apply (h : b.Tallies s.items) (hop : s.Step op t) :
    (op.apply b).Tallies t.items ∧ (op.apply b).lines = (op.lines s.items).reverse ++ b.lines := by
  cases hop with
  | @push reg => exact ⟨h.push reg _, rfl⟩
  | @pop reg _ _ _ _ hitems =>
    rw [hitems] at h
    exact h.pop reg
  | overwrite _ hi => exact h.overwrite hi
  | create _ hi hscope => exact h.create hi hscope
  | @read reg x => exact h.retrieve reg x
  | @readNone reg x => exact h.retrieve reg x
  | beginScope => exact ⟨h.beginScope, rfl⟩
  | freeScope hfound => exact h.freeScope hfound

theorem Tallies.run (h : b.Tallies s.items) (hops : s.run? ops = some t) :
    (b.run ops).Tallies t.items ∧ (b.run ops).lines = (s.lines ops).reverse ++ b.lines := by
  induction ops generalizing b s with
  | nil =>
    cases hops
    exact ⟨h, rfl⟩
  | cons op ops ih =>
    obtain ⟨s', hop, hrest⟩ := Option.bind_eq_some_iff.mp hops
    obtain ⟨hnext, hlines⟩ := h.apply (Ledger.step_of_after? hop)
    obtain ⟨htallies, hlater⟩ := ih hnext hrest
    refine ⟨htallies, ?_⟩
    rw [run_cons, hlater, hlines, Ledger.lines_cons hop, List.reverse_append, List.append_assoc]

/-- From a new builder on, the text is that of the operations. -/
theorem reverse_lines_opened {regs : Reg → Int32} (hops : (Ledger.start regs).run? ops = some t) :
    (opened.run ops).lines.reverse = (Ledger.start regs).lines ops := by
  have hempty : opened.lines = [] := rfl
  rw [(Tallies.run tallies_opened hops).2, hempty, List.append_nil, List.reverse_reverse]

end Tallies

end Builder

/-- A line that is about no label, and that the assembler takes exactly if its numbers fit. -/
structure Line.Detached (l : Line) : Prop where
  sound : l.Sound fun _ => False
  defines : l.defines = []
  fits : ∀ mnemonic operands number text i, l = .instr mnemonic operands →
    AsmLine.decode ⟨number, [], mnemonic, operands, text⟩ = .ok i → l.Fits

section Detached

variable {reg x : Text} {r : Reg} {mnemonic : Text} {n : Int}

/-- An operand of few characters is no place in the stack that has an offset. -/
theorem fits_pair {second : Text} (h : second.length ≤ 5) :
    (Line.instr mnemonic [reg, second]).Fits := by
  refine ⟨fun m first n he => ?_, fun n he => ?_⟩
  · obtain ⟨-, heq⟩ := Line.instr.inj he
    obtain ⟨-, rfl, -⟩ : reg = first ∧ second = slot n ∧ True := by simpa using heq
    have hnumber := List.length_pos_iff.mpr (Numeral.ofInt_ne_nil n)
    have hlength : (slot n).length = (Numeral.ofInt n).length + 5 := List.length_append
    omega
  · obtain ⟨-, heq⟩ := Line.instr.inj he
    exact absurd (congrArg List.length heq) (by simp)

theorem detached_pair {second : Text} (hsound : (Line.instr mnemonic [reg, second]).Sound fun _ => False)
    (h : second.length ≤ 5) : (Line.instr mnemonic [reg, second]).Detached :=
  ⟨hsound, rfl, fun _ _ _ _ _ _ _ => fits_pair h⟩

/-- A load or a store has no number but its place, and the assembler takes it only if that fits. -/
theorem detached_slot (hsound : (Line.instr mnemonic [reg, slot n]).Sound fun _ => False)
    (hfits : ∀ {n' number text i},
      AsmLine.decode ⟨number, [], mnemonic, [reg, slot n'], text⟩ = .ok i → -2 ^ 31 ≤ n' ∧ n' < 2 ^ 31) :
    (Line.instr mnemonic [reg, slot n]).Detached := by
  refine ⟨hsound, rfl, fun m ops number text i he hdecode => ⟨fun m' first n' he' => ?_, fun n' he' => ?_⟩⟩
  · obtain ⟨rfl, rfl⟩ := Line.instr.inj he
    obtain ⟨-, heq⟩ := Line.instr.inj he'
    obtain ⟨-, hslot⟩ := List.cons.inj heq
    rw [(List.cons.inj hslot).1] at hdecode
    exact (hfits hdecode).2
  · obtain ⟨-, heq⟩ := Line.instr.inj he'
    exact absurd (congrArg List.length heq) (by simp)

theorem detached_frame {size : Text}
    (hsound : (Line.instr mnemonic ["$sp", "$sp", size]).Sound fun _ => False) :
    (Line.instr mnemonic ["$sp", "$sp", size]).Detached := by
  refine ⟨hsound, rfl, fun m ops number text i he hdecode => ⟨fun m' first n he' => ?_, fun n he' => ?_⟩⟩
  · obtain ⟨-, heq⟩ := Line.instr.inj he'
    exact absurd (congrArg List.length heq) (by simp)
  · obtain ⟨rfl, rfl⟩ := Line.instr.inj (he.symm.trans he')
    exact (AsmLine.fits_of_decode_addu hdecode).2

theorem detached_push (hreg : RegName reg r) : ∀ l ∈ pushLines reg, l.Detached := by
  have hsound : SoundAll (fun _ => False) (pushLines reg) := sound_push hreg
  refine List.forall_mem_cons.mpr ⟨?_, List.forall_mem_singleton.mpr ?_⟩
  · exact detached_frame (hsound _ List.mem_cons_self)
  · exact detached_pair (hsound _ (List.mem_cons_of_mem _ List.mem_cons_self)) (by decide)

theorem detached_pop (hreg : RegName reg r) : ∀ l ∈ popLines reg, l.Detached := by
  have hsound : SoundAll (fun _ => False) (popLines reg) := sound_pop hreg
  refine List.forall_mem_cons.mpr ⟨?_, List.forall_mem_singleton.mpr ?_⟩
  · exact detached_pair (hsound _ List.mem_cons_self) (by decide)
  · exact detached_frame (hsound _ (List.mem_cons_of_mem _ List.mem_cons_self))

theorem detached_free (count : Nat) : ∀ l ∈ freeLines count, l.Detached := by
  have hsound : SoundAll (fun _ => False) (freeLines count) := sound_free count
  unfold freeLines at hsound ⊢
  split
  · simp
  · rw [if_neg (by assumption)] at hsound
    exact List.forall_mem_singleton.mpr (detached_frame (hsound _ List.mem_cons_self))

variable {s t : Ledger} {op : Op} {ops : List Op}

theorem detached_lines (hname : ∀ reg x, op = .store reg x → .char '\n' ∉ x) (hop : s.Step op t) :
    ∀ l ∈ op.lines s.items, l.Detached := by
  cases hop with
  | push hreg => exact detached_push hreg
  | pop hreg => exact detached_pop hreg
  | overwrite hreg hi =>
    rw [Op.lines, hi]
    exact List.forall_mem_singleton.mpr (detached_slot
      (sound_sw_slot hreg (by omega)) (AsmLine.fits_of_decode_sw hreg.reg))
  | @create reg x r hreg hi =>
    rw [Op.lines, hi]
    have hsound : SoundAll (fun _ => False) (storeLines [] reg x) := sound_store hreg [] (hname reg x rfl)
    refine List.forall_mem_cons.mpr ⟨⟨hsound _ List.mem_cons_self, rfl, ?_⟩, detached_push hreg⟩
    intro m ops number text i he
    cases he
  | read hreg hi =>
    rw [Op.lines, hi]
    exact List.forall_mem_singleton.mpr (detached_slot
      (sound_lw_slot hreg (by omega)) (AsmLine.fits_of_decode_lw hreg.reg))
  | readNone hreg hi =>
    rw [Op.lines, hi]
    exact List.forall_mem_singleton.mpr (detached_pair (sound_li_zero hreg) (by decide))
  | beginScope => exact fun l hl => absurd hl List.not_mem_nil
  | freeScope hfound => exact detached_free _

theorem detached_run (hnames : ∀ reg x, .store reg x ∈ ops → .char '\n' ∉ x)
    (hops : s.run? ops = some t) : ∀ l ∈ s.lines ops, l.Detached := by
  induction ops generalizing s with
  | nil => exact fun l hl => absurd hl List.not_mem_nil
  | cons op ops ih =>
    obtain ⟨s', hop, hrest⟩ := Option.bind_eq_some_iff.mp hops
    rw [Ledger.lines_cons hop]
    refine List.forall_mem_append.mpr ⟨detached_lines ?_ (Ledger.step_of_after? hop), ?_⟩
    · exact fun reg x heq => hnames reg x (heq ▸ List.mem_cons_self)
    · exact ih (fun reg x hmem => hnames reg x (List.mem_cons_of_mem _ hmem)) hrest

section Assembled

variable {regs : Reg → Int32}

/-- The label to begin at and the lines of the operations, as the assembler wants them. -/
theorem labelled_lines (hops : (Ledger.start regs).run? ops = some t)
    (hnames : ∀ reg x, .store reg x ∈ ops → .char '\n' ∉ x) :
    "main:\n" ++ (Builder.opened.run ops).render =
        (Line.label "main" :: (Ledger.start regs).lines ops).flatMap Line.render ∧
      SoundAll (fun _ => False) (.label "main" :: (Ledger.start regs).lines ops) ∧
      (Line.label "main" :: (Ledger.start regs).lines ops).flatMap Line.defines = ["main"] := by
  have hdetached := detached_run hnames hops
  have hlabel : AsmLine.isLabel "main" = true := by decide
  refine ⟨?_, .cons ⟨hlabel, fun _ _ he => by cases he⟩ fun l hl => (hdetached l hl).sound, ?_⟩
  · rw [Builder.render, Builder.reverse_lines_opened hops]
    rfl
  · rw [List.flatMap_cons, List.flatMap_eq_nil_iff.mpr fun l hl => (hdetached l hl).defines]
    rfl

/-- Code that was assembled from the text of operations begins with it. -/
theorem holds_of_ofText {code : Code} (hops : (Ledger.start regs).run? ops = some t)
    (hnames : ∀ reg x, .store reg x ∈ ops → .char '\n' ∉ x)
    (hcode : Code.ofText ("main:\n" ++ (Builder.opened.run ops).render) = .ok code) :
    code.entry = 0 ∧ code.Holds 0 ((Ledger.start regs).lines ops) := by
  obtain ⟨hrender, hsound, hdefines⟩ := labelled_lines hops hnames
  rw [hrender] at hcode
  have hassembles := Code.assembles_of_ofText (fun l hl => (hsound l hl).clean)
    (by rw [hdefines]; exact List.nodup_singleton _) hcode
  obtain ⟨hmain, hholds⟩ := hassembles.holds
  obtain ⟨entry, hentry, hstart⟩ := hassembles.entry
  have hzero : entry = 0 := Option.some.inj (hentry.symm.trans hmain)
  exact ⟨by rw [hstart, hzero]; rfl, hholds⟩

/-- Behind a label to begin at, the text of operations is assembled exactly if its numbers fit. -/
theorem exists_code_iff_fits (hops : (Ledger.start regs).run? ops = some t)
    (hnames : ∀ reg x, .store reg x ∈ ops → .char '\n' ∉ x) :
    (∃ code, Code.ofText ("main:\n" ++ (Builder.opened.run ops).render) = .ok code) ↔
      ∀ l ∈ (Ledger.start regs).lines ops, l.Fits := by
  have hdetached := detached_run hnames hops
  have hlabel : ∀ l : Line, (∀ m operands, l ≠ .instr m operands) → l.Fits := fun l hl =>
    ⟨fun m _ _ he => absurd he (hl m _), fun _ he => absurd he (hl _ _)⟩
  constructor
  · rintro ⟨code, hcode⟩ l hl
    obtain ⟨-, hholds⟩ := holds_of_ofText hops hnames hcode
    cases l with
    | instr m operands =>
      obtain ⟨pc, hhas⟩ := hholds.has_of_mem hl
      obtain ⟨number, text, i, hdecode⟩ := hhas.decode_ok
      exact (hdetached _ hl).fits m operands number text i rfl hdecode
    | _ => exact hlabel _ fun _ _ he => by cases he
  · intro hfits
    obtain ⟨hrender, hsound, hdefines⟩ := labelled_lines hops hnames
    rw [hrender]
    refine exists_code_of_sound hsound (by rw [hdefines]; exact List.nodup_singleton _)
      (List.forall_mem_cons.mpr ⟨hlabel _ fun _ _ he => (by cases he), hfits⟩) (fun _ h => h.elim) ?_
    rw [hdefines]
    exact List.mem_singleton_self _

end Assembled

end Detached

end Assembly

end MiniPascal
