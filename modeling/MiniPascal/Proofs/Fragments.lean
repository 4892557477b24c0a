import MiniPascal.Proofs.Decoding
import MiniPascal.Proofs.Frames
import MiniPascal.Proofs.StackMachine

/-! What the fragments of generated code do to the stack machine: pushes and pops, reads and writes of
variables, operators, output and the end of a scope. -/

namespace MiniPascal

theorem Procedure.Named.ra_not_mem_params {p : Procedure} (h : p.Named) :
    Text.ofString "$ra" ∉ p.params.map Variable.name := by
  intro hmem
  obtain ⟨v, hv, hname⟩ := List.mem_map.mp hmem
  exact ne_ra_of_isIdentifier (h.params v hv) hname

namespace StackMachine

open Assembly

variable {code : Code} {pc : Nat} {s t : State} {reg : Text} {r : Reg}

theorem step?_eq {i : Instr Int} (hpc : s.pc = pc) (h : code.instr? pc = some i) :
    step? code s = s.perform? i := by
  obtain ⟨l, hl, rfl⟩ := Option.map_eq_some_iff.mp h
  rw [step?, hpc, hl]
  rfl

theorem runs_one {i : Instr Int} (hpc : s.pc = pc) (h : code.instr? pc = some i)
    (hi : s.perform? i = some (.next t)) : Runs code 1 s t :=
  .single ((step?_eq hpc h).trans hi)

theorem State.set?_of_ne (hsp : r ≠ Reg.sp) (hzero : r ≠ Reg.zero) (v : Int32) :
    s.set? r v = some { s with regs := Function.update s.regs r v } :=
  set?_eq_some_iff.mpr ⟨hsp, hzero, rfl⟩

theorem State.get?_of_ne (hsp : r ≠ Reg.sp) (hzero : r ≠ Reg.zero) :
    s.get? r = some (s.regs r) :=
  get?_eq_some_iff.mpr ⟨hsp, (if_neg hzero).symm⟩

theorem State.perform?_lw {i : Nat} {v : Int32} {offset : Int32} (hsp : r ≠ Reg.sp)
    (hzero : r ≠ Reg.zero) (hoffset : offset.toInt = 4 * i) (hv : s.stack[i]? = some (some v)) :
    s.perform? (.lw r offset Reg.sp) =
      some (.next { s with regs := Function.update s.regs r v, pc := s.pc + 1 }) := by
  have hindex : index? offset Reg.sp = some i := index?_eq_some_iff.mpr ⟨rfl, hoffset⟩
  rw [perform?, hindex]
  show (s.stack[i]?).join.bind _ = _
  rw [hv]
  show (s.set? r v).map _ = _
  rw [set?_of_ne hsp hzero]
  rfl

theorem State.perform?_sw {i : Nat} {offset : Int32} (hsp : r ≠ Reg.sp) (hzero : r ≠ Reg.zero)
    (hoffset : offset.toInt = 4 * i) (hi : i < s.stack.length) :
    s.perform? (.sw r offset Reg.sp) =
      some (.next { s with stack := s.stack.set i (some (s.regs r)), pc := s.pc + 1 }) := by
  have hindex : index? offset Reg.sp = some i := index?_eq_some_iff.mpr ⟨rfl, hoffset⟩
  rw [perform?, hindex]
  show (s.get? r).bind _ = _
  rw [get?_of_ne hsp hzero]
  exact if_pos hi

theorem State.perform?_addu {n : Nat} {offset : Int32} (hoffset : offset.toInt = 4 * n)
    (hn : n ≤ s.stack.length) :
    s.perform? (.alu .addu Reg.sp Reg.sp (.imm offset)) =
      some (.next { s with stack := s.stack.drop n, pc := s.pc + 1 }) := by
  have hwords : words? offset = some n := words?_eq_some_iff.mpr hoffset
  show ((words? offset).bind _).map _ = _
  rw [hwords, Option.bind_some, if_pos hn]
  rfl

theorem State.perform?_jr {v : Int32} (hsp : r ≠ Reg.sp) (hzero : r ≠ Reg.zero)
    (hv : s.regs r = v) : s.perform? (.jr r) = some (.next { s with pc := v.toInt }) := by
  rw [perform?, get?_of_ne hsp hzero, hv]
  rfl

/-- A push puts the register on top. -/
theorem runs_push (hreg : RegName reg r) (h : code.Holds pc (pushLines reg)) (hpc : s.pc = pc) :
    Runs code 2 s { s with stack := some (s.regs r) :: s.stack, pc := (pc + 2 : Nat) } := by
  obtain ⟨hsubu, hsw, -⟩ := h
  have hroom : Runs code 1 s { s with stack := none :: s.stack, pc := s.pc + 1 } :=
    runs_one hpc (hsubu.instr?_eq fun _ _ => rfl) rfl
  have hstore := runs_one (s := { s with stack := none :: s.stack, pc := s.pc + 1 })
    (by rw [hpc]; rfl) (hsw.instr?_eq (decodes_sw_top hreg))
    (State.perform?_sw hreg.ne_sp hreg.ne_zero (i := 0) rfl (Nat.succ_pos _))
  have hboth := hroom.trans hstore
  rw [hpc] at hboth
  exact hboth

/-- A pop takes the top into the register. -/
theorem runs_pop (hreg : RegName reg r) (h : code.Holds pc (popLines reg)) (hpc : s.pc = pc)
    {v : Int32} {rest : List (Option Int32)} (hstack : s.stack = some v :: rest) :
    Runs code 2 s
      { s with regs := Function.update s.regs r v, stack := rest, pc := (pc + 2 : Nat) } := by
  obtain ⟨hlw, haddu, -⟩ := h
  have hload : Runs code 1 s { s with regs := Function.update s.regs r v, pc := s.pc + 1 } :=
    runs_one hpc (hlw.instr?_eq (decodes_lw_top hreg))
      (State.perform?_lw hreg.ne_sp hreg.ne_zero (i := 0) rfl (by rw [hstack]; rfl))
  have hdrop := runs_one (s := { s with regs := Function.update s.regs r v, pc := s.pc + 1 })
    (by rw [hpc]; rfl) (haddu.instr?_eq fun _ _ => rfl)
    (State.perform?_addu (n := 1) rfl (by rw [hstack]; simp))
  have hboth := hload.trans hdrop
  rw [hpc, hstack] at hboth
  exact hboth

theorem runs_li {v : Int32} (hreg : RegName reg r) (h : code.instr? pc = some (.li r v))
    (hpc : s.pc = pc) :
    Runs code 1 s { s with regs := Function.update s.regs r v, pc := (pc + 1 : Nat) } := by
  have hi : s.perform? (.li r v) =
      some (.next { s with regs := Function.update s.regs r v, pc := s.pc + 1 }) := by
    rw [State.perform?, State.set?_of_ne hreg.ne_sp hreg.ne_zero]
    rfl
  rw [hpc] at hi
  exact runs_one hpc h hi

section Words

variable {names : List Text} {words : List Int32} {parked rest : List (Option Int32)} {x : Text}

theorem getElem?_parked {i : Nat} {v : Int32} (hv : words[i]? = some v) :
    (parked ++ (words.map some ++ rest))[parked.length + i]? = some (some v) := by
  have hi := (List.getElem?_eq_some_iff.mp hv).1
  rw [List.getElem?_append_right (Nat.le_add_right _ _), Nat.add_sub_cancel_left,
    List.getElem?_append_left (by simpa using hi), List.getElem?_map, hv]
  rfl

theorem codeSize_retrieve (names : List Text) (count : Nat) (reg x : Text) :
    codeSize [retrieveLine names count reg x] = 1 := by
  unfold retrieveLine
  split <;> rfl

/-- Reading a variable gives its word, or zero if it has none. -/
theorem runs_retrieve (hreg : RegName reg r)
    (h : code.Holds pc [retrieveLine names parked.length reg x]) (hpc : s.pc = pc)
    (hstack : s.stack = parked ++ (words.map some ++ rest)) (hlen : words.length = names.length) :
    Runs code 1 s
      { s with
        regs := Function.update s.regs r ((wordOf names words x).getD 0)
        pc := (pc + 1 : Nat) } := by
  unfold retrieveLine at h
  cases hi : names.idxOf? x with
  | none =>
    rw [hi] at h
    have hnone : wordOf names words x = none := by rw [wordOf, hi]; rfl
    rw [hnone]
    exact runs_li hreg (h.1.instr?_eq (decodes_li_zero hreg)) hpc
  | some i =>
    rw [hi] at h
    have hlt := lt_length_of_idxOf? hi
    have hword : words[i]? = some words[i] := List.getElem?_eq_getElem (by omega)
    have hwordOf : wordOf names words x = some words[i] := by
      rw [wordOf, hi, Option.bind_some, hword]
    obtain ⟨offset, hoffset, hlw⟩ := h.1.lw_slot hreg
    have hload := runs_one (s := s) hpc hlw (State.perform?_lw hreg.ne_sp hreg.ne_zero hoffset
      (by rw [hstack]; exact getElem?_parked hword))
    rw [hpc] at hload
    rw [hwordOf]
    exact hload

/-- Writing a variable stores its word, in a new one if it has none. -/
theorem runs_store (hreg : RegName reg r) (h : code.Holds pc (storeLines names reg x))
    (hpc : s.pc = pc) (hstack : s.stack = words.map some ++ rest)
    (hlen : words.length = names.length) :
    Runs code (codeSize (storeLines names reg x)) s
      { s with
        stack := (storeWords names words x (s.regs r)).map some ++ rest
        pc := (pc + codeSize (storeLines names reg x) : Nat) } := by
  unfold storeLines at h ⊢
  unfold storeWords
  cases hi : names.idxOf? x with
  | none =>
    rw [hi] at h
    have hpush := runs_push hreg (s := s) h hpc
    rw [hstack] at hpush
    exact hpush
  | some i =>
    rw [hi] at h
    have hlt := lt_length_of_idxOf? hi
    obtain ⟨offset, hoffset, hsw⟩ := h.1.sw_slot hreg
    have hstore := runs_one (s := s) hpc hsw (State.perform?_sw hreg.ne_sp hreg.ne_zero hoffset
      (by rw [hstack, List.length_append, List.length_map]; omega))
    have hset : s.stack.set i (some (s.regs r)) = (words.set i (s.regs r)).map some ++ rest := by
      rw [hstack, List.set_append_left _ _ (by rw [List.length_map]; omega), List.map_set]
    rw [hpc, hset] at hstore
    exact hstore

end Words

/-- Freeing words takes them off the stack. -/
theorem runs_free {n : Nat} (h : code.Holds pc (freeLines n)) (hpc : s.pc = pc)
    (hn : n ≤ s.stack.length) :
    Runs code (codeSize (freeLines n)) s
      { s with stack := s.stack.drop n, pc := (pc + codeSize (freeLines n) : Nat) } := by
  unfold freeLines at h ⊢
  by_cases hzero : n = 0
  · subst hzero
    have hsame : { s with stack := s.stack.drop 0, pc := (pc : Int) } = s := by
      rw [← hpc, List.drop_zero]
    have hrefl : Runs code 0 s { s with stack := s.stack.drop 0, pc := (pc : Int) } := by
      rw [hsame]
      exact .refl s
    exact hrefl
  · rw [if_neg hzero] at h ⊢
    obtain ⟨offset, hoffset, haddu⟩ := h.1.addu_sp
    have hdrop := runs_one (s := s) hpc haddu (State.perform?_addu hoffset hn)
    rw [hpc] at hdrop
    exact hdrop

/-- What a run that computes a word in the result register leaves as it was. -/
structure Computes (code : Code) (s : State) (k pc : Nat) (v : Int32) (t : State) : Prop where
  runs : Runs code k s t
  pc_eq : t.pc = pc
  value : t.regs Reg.v0 = v
  stack_eq : t.stack = s.stack
  out_eq : t.out = s.out

section Operators

variable {l w : Int32}

theorem perform?_alu (op : Alu) (rd rs rt : Reg) (hd : rd ≠ Reg.sp ∧ rd ≠ Reg.zero)
    (hs : rs ≠ Reg.sp) (hl : s.get? rs = some l) (hw : s.get? rt = some w) :
    s.perform? (.alu op rd rs (.reg rt)) =
      some (.next { s with regs := Function.update s.regs rd (op.apply l w), pc := s.pc + 1 }) := by
  rw [State.perform?, if_neg fun h => hs h.2, hl]
  show (s.get? rt).bind _ = _
  rw [hw]
  show (s.set? rd _).map _ = _
  rw [State.set?_of_ne hd.1 hd.2]
  rfl

/-- An operation of one instruction. -/
theorem computes_alu {op : Alu} (h : code.instr? pc = some (.alu op Reg.v0 Reg.t0 (.reg Reg.v0)))
    (hpc : s.pc = pc) (hl : s.regs Reg.t0 = l) (hw : s.regs Reg.v0 = w) :
    ∃ t, Computes code s 1 (pc + 1) (op.apply l w) t := by
  subst hl hw
  have hi := perform?_alu (s := s) op Reg.v0 Reg.t0 Reg.v0 (by decide) (by decide) rfl rfl
  refine ⟨_, runs_one hpc h hi, ?_, ?_, rfl, rfl⟩
  · show s.pc + 1 = _
    rw [hpc]
    rfl
  · exact Function.update_self Reg.v0 _ s.regs

theorem ofBool_and (a b : Bool) : Word.ofBool a &&& Word.ofBool b = Word.ofBool (a && b) := by
  cases a <;> cases b <;> rfl

theorem ofBool_or (a b : Bool) : Word.ofBool a ||| Word.ofBool b = Word.ofBool (a || b) := by
  cases a <;> cases b <;> rfl

/-- An operation on truth values, which are made 0 or 1 first. -/
theorem computes_logic {op : Alu}
    (hleft : code.instr? pc = some (.alu .sne Reg.t0 Reg.t0 (.reg Reg.zero)))
    (hright : code.instr? (pc + 1) = some (.alu .sne Reg.v0 Reg.v0 (.reg Reg.zero)))
    (hop : code.instr? (pc + 2) = some (.alu op Reg.v0 Reg.t0 (.reg Reg.v0)))
    (hpc : s.pc = pc) (hl : s.regs Reg.t0 = l) (hw : s.regs Reg.v0 = w) :
    ∃ t, Computes code s 3 (pc + 3)
      (op.apply (Word.ofBool (Word.isTrue l)) (Word.ofBool (Word.isTrue w))) t := by
  subst hl hw
  have hi₁ := perform?_alu (s := s) .sne Reg.t0 Reg.t0 Reg.zero (by decide) (by decide) rfl rfl
  have hrun₁ := runs_one hpc hleft hi₁
  have hi₂ := perform?_alu (s := { s with
    regs := Function.update s.regs Reg.t0 (Alu.apply .sne (s.regs Reg.t0) 0), pc := s.pc + 1 })
    .sne Reg.v0 Reg.v0 Reg.zero (by decide) (by decide) rfl rfl
  have hrun₂ := runs_one (by rw [hpc]; rfl) hright hi₂
  have hlogic := computes_alu (s := { s with
    regs := Function.update (Function.update s.regs Reg.t0 (Alu.apply .sne (s.regs Reg.t0) 0))
      Reg.v0 (Alu.apply .sne (s.regs Reg.v0) 0)
    pc := s.pc + 1 + 1 }) hop (by rw [hpc]; rfl) rfl rfl
  obtain ⟨t, ht⟩ := hlogic
  exact ⟨t, (hrun₁.trans hrun₂).trans ht.runs, ht.pc_eq, ht.value, ht.stack_eq, ht.out_eq⟩

theorem computes_div (h : code.instr? pc = some (.div Reg.v0 Reg.t0 Reg.v0)) (hpc : s.pc = pc)
    (hl : s.regs Reg.t0 = l) (hw : s.regs Reg.v0 = w) (hne : w ≠ 0) :
    ∃ t, Computes code s 1 (pc + 1) (l / w) t := by
  subst hl hw
  have hi : s.perform? (.div Reg.v0 Reg.t0 Reg.v0) = some (.next { s with
      regs := Function.update s.regs Reg.v0 (s.regs Reg.t0 / s.regs Reg.v0), pc := s.pc + 1 }) :=
    if_neg hne
  refine ⟨_, runs_one hpc h hi, ?_, ?_, rfl, rfl⟩
  · show s.pc + 1 = _
    rw [hpc]
    rfl
  · exact Function.update_self Reg.v0 _ s.regs

theorem computes_mod (hdiv : code.instr? pc = some (.divmod Reg.t0 Reg.v0))
    (hmove : code.instr? (pc + 1) = some (.mfhi Reg.v0)) (hpc : s.pc = pc)
    (hl : s.regs Reg.t0 = l) (hw : s.regs Reg.v0 = w) (hne : w ≠ 0) :
    ∃ t, Computes code s 2 (pc + 2) (l % w) t := by
  subst hl hw
  have hi : s.perform? (.divmod Reg.t0 Reg.v0) =
      some (.next { s with hi := s.regs Reg.t0 % s.regs Reg.v0, pc := s.pc + 1 }) := if_neg hne
  have hrun := runs_one hpc hdiv hi
  have hmove' : Runs code 1 { s with hi := s.regs Reg.t0 % s.regs Reg.v0, pc := s.pc + 1 } _ :=
    runs_one (by rw [hpc]; rfl) hmove rfl
  refine ⟨_, hrun.trans hmove', ?_, ?_, rfl, rfl⟩
  · show s.pc + 1 + 1 = _
    rw [hpc]
    rfl
  · exact Function.update_self Reg.v0 _ s.regs

/-- The lines of an operator compute its value. -/
theorem computes_operator {op : Operator} {ls : List Line} (hls : operatorLines? op = some ls)
    (h : code.Holds pc ls) (hpc : s.pc = pc) (hl : s.regs Reg.t0 = l) (hw : s.regs Reg.v0 = w)
    {v : Int32} (hv : op.apply l w = .ok v) :
    ∃ t, Computes code s (codeSize ls) (pc + codeSize ls) v t := by
  cases op with
  | div =>
    cases hls
    by_cases hne : w = 0
    · rw [Operator.apply, if_pos hne] at hv
      cases hv
    · rw [Operator.apply, if_neg hne] at hv
      cases hv
      exact computes_div (h.1.instr?_eq fun _ _ => rfl) hpc hl hw hne
  | mod =>
    cases hls
    by_cases hne : w = 0
    · rw [Operator.apply, if_pos hne] at hv
      cases hv
    · rw [Operator.apply, if_neg hne] at hv
      cases hv
      exact computes_mod (h.1.instr?_eq fun _ _ => rfl) (h.2.1.instr?_eq fun _ _ => rfl) hpc hl hw
        hne
  | and =>
    cases hls
    cases hv
    obtain ⟨hleft, hright, hop, -⟩ := h
    obtain ⟨t, ht⟩ := computes_logic (s := s) (hleft.instr?_eq fun _ _ => rfl)
      (hright.instr?_eq fun _ _ => rfl) (hop.instr?_eq fun _ _ => rfl) hpc hl hw
    rw [Alu.apply, ofBool_and] at ht
    exact ⟨t, ht⟩
  | or =>
    cases hls
    cases hv
    obtain ⟨hleft, hright, hop, -⟩ := h
    obtain ⟨t, ht⟩ := computes_logic (s := s) (hleft.instr?_eq fun _ _ => rfl)
      (hright.instr?_eq fun _ _ => rfl) (hop.instr?_eq fun _ _ => rfl) hpc hl hw
    rw [Alu.apply, ofBool_or] at ht
    exact ⟨t, ht⟩
  | other code => cases hls
  | _ =>
    cases hls
    cases hv
    exact computes_alu (h.1.instr?_eq fun _ _ => rfl) hpc hl hw

/-- An operator without a value is a division by zero, and so its lines begin. -/
theorem divides_operator {op : Operator} {ls : List Line} (hls : operatorLines? op = some ls)
    (h : code.Holds pc ls) (hpc : s.pc = pc) (hw : s.regs Reg.v0 = w) {e : OperatorError}
    (he : op.apply l w = .error e) :
    e = .divisionByZero ∧ step? code s = some .divisionByZero := by
  cases op with
  | div =>
    cases hls
    by_cases hzero : w = 0
    · rw [Operator.apply, if_pos hzero] at he
      cases he
      refine ⟨rfl, (step?_eq hpc (h.1.instr?_eq fun _ _ => rfl)).trans ?_⟩
      exact if_pos (hw.trans hzero)
    · rw [Operator.apply, if_neg hzero] at he
      cases he
  | mod =>
    cases hls
    by_cases hzero : w = 0
    · rw [Operator.apply, if_pos hzero] at he
      cases he
      refine ⟨rfl, (step?_eq hpc (h.1.instr?_eq fun _ _ => rfl)).trans ?_⟩
      exact if_pos (hw.trans hzero)
    · rw [Operator.apply, if_neg hzero] at he
      cases he
  | other code => cases hls
  | _ => cases he

end Operators

/-- The lines that print a value write it and end the line. -/
theorem runs_print (h : code.Holds pc printLines) (hpc : s.pc = pc) :
    ∃ t, Runs code 6 s t ∧ t.pc = (pc + 6 : Nat) ∧ t.stack = s.stack ∧
      t.out = s.out ++ Text.bytes (Numeral.ofWord (s.regs Reg.v0) ++ Text.ofString "\n") := by
  obtain ⟨h₁, h₂, h₃, h₄, h₅, h₆, -⟩ := h
  obtain ⟨regs, hi, stack, pc', out⟩ := s
  cases hpc
  have r₁ : Runs code 1 ⟨regs, hi, stack, pc, out⟩ _ :=
    runs_one rfl (h₁.instr?_eq fun _ _ => rfl) rfl
  have r₂ := r₁.trans (runs_one rfl (h₂.instr?_eq fun _ _ => rfl) rfl)
  have r₃ := r₂.trans (runs_one rfl (h₃.instr?_eq fun _ _ => rfl) rfl)
  have r₄ := r₃.trans (runs_one rfl (h₄.instr?_eq fun _ _ => rfl) rfl)
  have r₅ := r₄.trans (runs_one rfl (h₅.instr?_eq fun _ _ => rfl) rfl)
  have r₆ := r₅.trans (runs_one rfl (h₆.instr?_eq fun _ _ => rfl) rfl)
  refine ⟨_, r₆, rfl, rfl, ?_⟩
  rw [Text.bytes_append, ← List.append_assoc]
  rfl

section Procedures

variable {ret : Int32} {p : Procedure} {rest : List (Option Int32)}

/-- The first lines of a procedure set up its frame above the arguments. -/
theorem runs_entry {args : List Int32} (hn : p.Named) (hlen : args.length = p.params.length)
    (hli : code.Holds pc [.instr "li" ["$v0", "0"]])
    (hown : code.Holds (pc + 1) (storeLines (paramNames p) "$v0" p.name))
    (hret : code.Holds (pc + 1 + codeSize (storeLines (paramNames p) "$v0" p.name))
      (storeLines (bindName (paramNames p) p.name) "$ra" "$ra"))
    (hpc : s.pc = pc) (hra : s.regs Reg.ra = ret) (hstack : s.stack = args.reverse.map some ++ rest) :
    ∃ k t, Runs code k s t ∧
      t.pc = (pc + 1 + codeSize (storeLines (paramNames p) "$v0" p.name) +
        codeSize (storeLines (bindName (paramNames p) p.name) "$ra" "$ra") : Nat) ∧
      t.stack = (entryWords ret p args).map some ++ rest ∧ t.out = s.out := by
  have hargs : args.reverse.length = (paramNames p).length := by
    rw [paramNames, List.length_reverse, List.length_reverse, List.length_map, hlen]
  have hzero := runs_li (s := s) regName_v0 (hli.1.instr?_eq (decodes_li_zero regName_v0)) hpc
  have hslot := hzero.trans (runs_store (s := { s with
    regs := Function.update s.regs Reg.v0 0, pc := (pc + 1 : Nat) }) regName_v0 hown rfl hstack hargs)
  have hboth := hslot.trans (runs_store regName_ra hret rfl rfl (length_storeWords _ _ hargs))
  refine ⟨_, _, hboth, rfl, ?_, rfl⟩
  rw [← entryWords_eq (ne_ra_of_isIdentifier hn.name) hn.ra_not_mem_params, ← hra]
  have hkept : Function.update s.regs Reg.v0 0 Reg.ra = s.regs Reg.ra :=
    Function.update_of_ne (by decide) 0 s.regs
  rw [← hkept]
  rfl

theorem wordOf_ra {names : List Text} {env : Env} {words : List Int32}
    (h : Frame ret [names] env words) (hmem : Text.ofString "$ra" ∈ names) :
    wordOf names words (Text.ofString "$ra") = some ret := by
  obtain ⟨i, hi⟩ : ∃ i, names.idxOf? (Text.ofString "$ra") = some i :=
    Option.ne_none_iff_exists'.mp fun hnone => List.idxOf?_eq_none_iff.mp hnone hmem
  rw [wordOf, hi, Option.bind_some]
  exact h.getElem?_ret (by simpa using getElem?_of_idxOf? hi)

/-- The last lines of a procedure take its value, clear the frame and return. -/
theorem runs_exit {names : List Text} {env : Env} {words : List Int32} {name : Text}
    (hname : name ≠ Text.ofString "$ra") (hmem : Text.ofString "$ra" ∈ names)
    (hvalue : code.Holds pc [retrieveLine names 0 "$v0" name])
    (hret : code.Holds (pc + 1) [retrieveLine names 0 "$ra" "$ra"])
    (hfree : code.Holds (pc + 2) (freeLines names.length))
    (hjr : code.Holds (pc + 2 + codeSize (freeLines names.length)) [.instr "jr" ["$ra"]])
    (hframe : Frame ret [names] env words) (hpc : s.pc = pc)
    (hstack : s.stack = words.map some ++ rest) :
    ∃ k t, Runs code k s t ∧ t.pc = ret.toInt ∧ t.stack = rest ∧ t.out = s.out ∧
      t.regs Reg.v0 = (env.get? name).getD 0 := by
  have hlen : words.length = names.length := by simpa using hframe.length
  have hbare : s.stack = [] ++ (words.map some ++ rest) := hstack
  have hload := runs_retrieve regName_v0 hvalue hpc hbare hlen
  have hboth := hload.trans (runs_retrieve regName_ra hret rfl hbare hlen)
  have hclear := hboth.trans (runs_free hfree rfl (by
    show names.length ≤ s.stack.length
    rw [hstack, List.length_append, List.length_map]
    omega))
  have hret : (wordOf names words (Text.ofString "$ra")).getD 0 = ret := by
    rw [wordOf_ra hframe hmem, Option.getD_some]
  have hresult : (wordOf names words name).getD 0 = (env.get? name).getD 0 := by
    rw [hframe.get? hname, List.flatten_singleton]
  obtain ⟨u, hu, hupc, hustack, huout, huv0, hura⟩ : ∃ u, Runs code _ s u ∧
      u.pc = (pc + 2 + codeSize (freeLines names.length) : Nat) ∧
      u.stack = s.stack.drop names.length ∧ u.out = s.out ∧
      u.regs Reg.v0 = (wordOf names words name).getD 0 ∧
      u.regs Reg.ra = (wordOf names words (Text.ofString "$ra")).getD 0 :=
    ⟨_, hclear, rfl, rfl, rfl, rfl, rfl⟩
  have hjump := runs_one hupc (hjr.1.instr?_eq fun _ _ => rfl)
    (State.perform?_jr (by decide) (by decide) (hura.trans hret))
  refine ⟨_, _, hu.trans hjump, rfl, ?_, huout, huv0.trans hresult⟩
  show u.stack = rest
  rw [hustack, hstack, ← hlen, ← List.length_map some, List.drop_left]

end Procedures

end StackMachine

end MiniPascal
