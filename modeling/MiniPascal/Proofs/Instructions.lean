import MiniPascal.Proofs.Decoding

/-! The instructions that lines of assembly text denote. The assembler decodes a line to an instruction
just when one of the forms below fits its mnemonic and its operands; where the line stands does not
matter. -/

namespace MiniPascal

/-- A memory operand: a base register in parentheses, behind an offset unless that is zero. -/
inductive Addresses : Text → Int32 → Reg → Prop where
  | plain {base : Text} {r : Reg} (hclose : .char ')' ∉ base) (hr : Reg.ofName? base = some r) :
    Addresses (.char '(' :: base ++ [.char ')']) 0 r
  | offset {word base : Text} {n : Int32} {r : Reg} (hne : word ≠ []) (hopen : .char '(' ∉ word)
      (hclose : .char ')' ∉ word ∧ .char ')' ∉ base) (hn : Numeral.readWord? .detected word = some n)
      (hr : Reg.ofName? base = some r) :
    Addresses (word ++ .char '(' :: base ++ [.char ')']) n r

/-- What begins like a register is one, and anything else is a number. -/
inductive Stands : Text → Operand → Prop where
  | reg {word : Text} {r : Reg} (hdollar : word.head? = some (.char '$'))
      (hr : Reg.ofName? word = some r) : Stands word (.reg r)
  | imm {word : Text} {n : Int32} (hdollar : word.head? ≠ some (.char '$'))
      (hn : Numeral.readWord? .detected word = some n) : Stands word (.imm n)

/-- The instruction that a mnemonic and operands denote. -/
inductive Denotes : Text → List Text → Instr Text → Prop where
  | li {a b : Text} {rd : Reg} {n : Int32} (ha : Reg.ofName? a = some rd)
      (hb : Numeral.readWord? .detected b = some n) : Denotes "li" [a, b] (.li rd n)
  | lw {a b : Text} {rt rs : Reg} {n : Int32} (ha : Reg.ofName? a = some rt)
      (hb : Addresses b n rs) : Denotes "lw" [a, b] (.lw rt n rs)
  | sw {a b : Text} {rt rs : Reg} {n : Int32} (ha : Reg.ofName? a = some rt)
      (hb : Addresses b n rs) : Denotes "sw" [a, b] (.sw rt n rs)
  | move {a b : Text} {rd rs : Reg} (ha : Reg.ofName? a = some rd)
      (hb : Reg.ofName? b = some rs) : Denotes "move" [a, b] (.move rd rs)
  | set {m a b c : Text} {op : Alu} {rd rs : Reg} {src : Operand}
      (hm : AsmLine.setOps.get? m = some op) (ha : Reg.ofName? a = some rd)
      (hb : Reg.ofName? b = some rs) (hc : Stands c src) : Denotes m [a, b, c] (.alu op rd rs src)
  | combine {m a b c : Text} {op : Alu} {rd rs rt : Reg}
      (hm : AsmLine.regOps.get? m = some op) (ha : Reg.ofName? a = some rd)
      (hb : Reg.ofName? b = some rs) (hc : Reg.ofName? c = some rt) :
    Denotes m [a, b, c] (.alu op rd rs (.reg rt))
  | div {a b c : Text} {rd rs rt : Reg} (ha : Reg.ofName? a = some rd)
      (hb : Reg.ofName? b = some rs) (hc : Reg.ofName? c = some rt) :
    Denotes "div" [a, b, c] (.div rd rs rt)
  | divmod {a b : Text} {rs rt : Reg} (ha : Reg.ofName? a = some rs)
      (hb : Reg.ofName? b = some rt) : Denotes "div" [a, b] (.divmod rs rt)
  | mfhi {a : Text} {rd : Reg} (ha : Reg.ofName? a = some rd) : Denotes "mfhi" [a] (.mfhi rd)
  | mflo {a : Text} {rd : Reg} (ha : Reg.ofName? a = some rd) : Denotes "mflo" [a] (.mflo rd)
  | beqz {a b : Text} {rs : Reg} (ha : Reg.ofName? a = some rs) : Denotes "beqz" [a, b] (.beqz rs b)
  | bnez {a b : Text} {rs : Reg} (ha : Reg.ofName? a = some rs) : Denotes "bnez" [a, b] (.bnez rs b)
  | jump {a : Text} : Denotes "j" [a] (.jump a)
  | jal {a : Text} : Denotes "jal" [a] (.jal a)
  | jr {a : Text} {rs : Reg} (ha : Reg.ofName? a = some rs) : Denotes "jr" [a] (.jr rs)
  | syscall : Denotes "syscall" [] .syscall

namespace AsmLine

section Parts

variable {α β : Type} {l : AsmLine} {word : Text}

theorem bind_eq_ok_iff {x : Except AssemblyError α} {f : α → Except AssemblyError β} {b : β} :
    (x >>= f) = .ok b ↔ ∃ a, x = .ok a ∧ f a = .ok b := by
  cases x <;> simp [bind, Except.bind]

theorem ok_bind (a : α) (f : α → Except AssemblyError β) : (Except.ok a >>= f) = f a := rfl

theorem map_eq_ok_iff {x : Except AssemblyError α} {f : α → β} {b : β} :
    x.map f = .ok b ↔ ∃ a, x = .ok a ∧ f a = b := by
  cases x <;> simp [Except.map]

theorem reg_eq_ok_iff {r : Reg} : l.reg word = .ok r ↔ Reg.ofName? word = some r := by
  cases hname : Reg.ofName? word <;> simp [reg, hname, fail]

theorem imm_eq_ok_iff {n : Int32} : l.imm word = .ok n ↔ Numeral.readWord? .detected word = some n := by
  cases hword : Numeral.readWord? .detected word <;> simp [imm, hword, fail]

theorem regOrImm_eq_ok_iff {src : Operand} : l.regOrImm word = .ok src ↔ Stands word src := by
  rw [regOrImm]
  by_cases hdollar : word.head? = some (.char '$')
  · rw [if_pos hdollar, map_eq_ok_iff]
    constructor
    · rintro ⟨r, hr, rfl⟩
      exact .reg hdollar (reg_eq_ok_iff.mp hr)
    · rintro (⟨-, hr⟩ | ⟨hne, -⟩)
      · exact ⟨_, reg_eq_ok_iff.mpr hr, rfl⟩
      · exact absurd hdollar hne
  · rw [if_neg hdollar, map_eq_ok_iff]
    constructor
    · rintro ⟨n, hn, rfl⟩
      exact .imm hdollar (imm_eq_ok_iff.mp hn)
    · rintro (⟨heq, -⟩ | ⟨-, hn⟩)
      · exact absurd heq hdollar
      · exact ⟨_, imm_eq_ok_iff.mpr hn, rfl⟩

theorem one_eq_ok {f : Text → Except AssemblyError α} {x : α} (h : l.one f = .ok x) :
    ∃ a, l.operands = [a] ∧ f a = .ok x := by
  rw [one] at h
  split at h
  · rename_i a hops
    exact ⟨a, hops, h⟩
  · cases h

theorem two_eq_ok {f : Text → Text → Except AssemblyError α} {x : α} (h : l.two f = .ok x) :
    ∃ a b, l.operands = [a, b] ∧ f a b = .ok x := by
  rw [two] at h
  split at h
  · rename_i a b hops
    exact ⟨a, b, hops, h⟩
  · cases h

theorem three_eq_ok {f : Text → Text → Text → Except AssemblyError α} {x : α}
    (h : l.three f = .ok x) : ∃ a b c, l.operands = [a, b, c] ∧ f a b c = .ok x := by
  rw [three] at h
  split at h
  · rename_i a b c hops
    exact ⟨a, b, c, hops, h⟩
  · cases h

theorem one_map_reg_eq_ok {f : Reg → α} {x : α} (h : (l.one fun a => (l.reg a).map f) = .ok x) :
    ∃ a r, l.operands = [a] ∧ Reg.ofName? a = some r ∧ x = f r := by
  obtain ⟨a, hops, hmap⟩ := one_eq_ok h
  obtain ⟨r, hr, hx⟩ := map_eq_ok_iff.mp hmap
  exact ⟨a, r, hops, reg_eq_ok_iff.mp hr, hx.symm⟩

theorem two_map_reg_eq_ok {f : Reg → Text → α} {x : α}
    (h : (l.two fun a b => (l.reg a).map (f · b)) = .ok x) :
    ∃ a b r, l.operands = [a, b] ∧ Reg.ofName? a = some r ∧ x = f r b := by
  obtain ⟨a, b, hops, hmap⟩ := two_eq_ok h
  obtain ⟨r, hr, hx⟩ := map_eq_ok_iff.mp hmap
  exact ⟨a, b, r, hops, reg_eq_ok_iff.mp hr, hx.symm⟩

theorem eq_append_of_cut? {c : Char} {t first rest : Text} (h : t.cut? c = some (first, rest)) :
    t = first ++ .char c :: rest ∧ .char c ∉ first := by
  rw [Text.cut?] at h
  split at h
  · cases h
  · rename_i g after hdrop
    simp only [Option.some.injEq, Prod.mk.injEq] at h
    obtain ⟨rfl, rfl⟩ := h
    have hg : g = .char c := by
      have hhead := List.head?_dropWhile_not (fun g => decide (g ≠ .char c)) t
      rw [hdrop] at hhead
      simpa using hhead
    have hmem : .char c ∉ t.before c := by
      intro hm
      simpa using List.mem_takeWhile_imp hm
    have happend := List.takeWhile_append_dropWhile (p := fun g => decide (g ≠ .char c)) (l := t)
    rw [hdrop, hg] at happend
    exact ⟨happend.symm, hmem⟩

theorem mem_eq {offset base : Text} (hopen : .char '(' ∉ offset) (hoffset : .char ')' ∉ offset)
    (hbase : .char ')' ∉ base) :
    l.mem (offset ++ Glyph.char '(' :: base ++ [Glyph.char ')']) =
      if offset = [] then l.reg base >>= fun r => .ok (0, r)
      else l.imm offset >>= fun n => l.reg base >>= fun r => .ok (n, r) := by
  have hcut : Text.cut? '(' (offset ++ Glyph.char '(' :: base ++ [Glyph.char ')']) =
      some (offset, base ++ [Glyph.char ')']) := by
    have hassoc : offset ++ Glyph.char '(' :: base ++ [Glyph.char ')'] =
        offset ++ Glyph.char '(' :: (base ++ [Glyph.char ')']) := by simp
    rw [hassoc, cut?_append_cons hopen]
  have hlast : (offset ++ Glyph.char '(' :: base ++ [Glyph.char ')']).getLast? =
      some (.char ')') :=
    List.getLast?_concat
  simp only [mem, hcut, hlast, List.dropLast_concat]
  rw [if_neg (by simp [hoffset, hbase])]
  rfl

theorem mem_of_addresses {n : Int32} {r : Reg} (h : Addresses word n r) :
    l.mem word = .ok (n, r) := by
  cases h with
  | plain hclose hr =>
    have hnil (c : Char) : Glyph.char c ∉ ([] : Text) := List.not_mem_nil
    have heq := mem_eq (l := l) (hnil '(') (hnil ')') hclose
    rw [List.nil_append] at heq
    rw [heq, if_pos rfl, reg_eq_ok_iff.mpr hr, ok_bind]
  | offset hne hopen hclose hn hr =>
    rw [mem_eq hopen hclose.1 hclose.2, if_neg hne, imm_eq_ok_iff.mpr hn, ok_bind,
      reg_eq_ok_iff.mpr hr, ok_bind]

theorem addresses_of_mem {place : Int32 × Reg} (h : l.mem word = .ok place) :
    Addresses word place.1 place.2 := by
  have hshape : ∃ offset base, word = offset ++ Glyph.char '(' :: base ++ [Glyph.char ')'] ∧
      .char '(' ∉ offset ∧ .char ')' ∉ offset ∧ .char ')' ∉ base := by
    rw [mem] at h
    split at h
    · rename_i offset inner hcut hlast
      obtain ⟨hword, hopen⟩ := eq_append_of_cut? hcut
      have hinner : inner = inner.dropLast ++ [Glyph.char ')'] := by
        rw [hword, List.getLast?_append, List.getLast?_cons] at hlast
        cases hlast' : inner.getLast? with
        | none => simp [hlast'] at hlast
        | some g =>
          rw [hlast'] at hlast
          have hg : g = .char ')' := by simpa using hlast
          obtain ⟨front, rfl⟩ := List.getLast?_eq_some_iff.mp hlast'
          rw [hg, List.dropLast_concat]
      dsimp only at h
      split at h
      · cases h
      · rename_i hclose
        simp only [Bool.or_eq_true, List.contains_iff_mem, not_or] at hclose
        refine ⟨offset, inner.dropLast, ?_, hopen, hclose.1, hclose.2⟩
        rw [hword, List.append_assoc, List.cons_append, ← hinner]
    · cases h
  obtain ⟨offset, base, rfl, hopen, hoffset, hbase⟩ := hshape
  rw [mem_eq hopen hoffset hbase] at h
  by_cases hne : offset = []
  · rw [if_pos hne, bind_eq_ok_iff] at h
    obtain ⟨r, hr, hplace⟩ := h
    cases hplace
    rw [hne]
    exact .plain hbase (reg_eq_ok_iff.mp hr)
  · simp only [if_neg hne, bind_eq_ok_iff] at h
    obtain ⟨n, hn, r, hr, hplace⟩ := h
    cases hplace
    exact .offset hne hopen ⟨hoffset, hbase⟩ (imm_eq_ok_iff.mp hn) (reg_eq_ok_iff.mp hr)

end Parts

/-- The mnemonics that are no operations on two words. -/
def otherMnemonics : List Text :=
  ["li", "lw", "sw", "move", "div", "mfhi", "mflo", "beqz", "bnez", "j", "jal", "jr", "syscall"]

theorem decode_eq_decodeAlu {l : AsmLine} (h : l.mnemonic ∉ otherMnemonics) :
    l.decode = l.decodeAlu := by
  simp only [otherMnemonics, List.mem_cons, not_or] at h
  simp only [decode, h, if_false]

theorem not_mem_of_setOps {m : Text} {op : Alu} (h : setOps.get? m = some op) :
    m ∉ otherMnemonics := by
  have hall : ∀ entry ∈ setOps, entry.1 ∉ otherMnemonics := by decide
  exact hall _ (Table.mem_of_get? h)

theorem not_mem_of_regOps {m : Text} {op : Alu} (h : regOps.get? m = some op) :
    m ∉ otherMnemonics ∧ setOps.get? m = none := by
  have hall : ∀ entry ∈ regOps, entry.1 ∉ otherMnemonics ∧ setOps.get? entry.1 = none := by decide
  exact hall _ (Table.mem_of_get? h)

theorem decode_of_denotes {m : Text} {ops : List Text} {i : Instr Text} (h : Denotes m ops i)
    (number : Nat) (labels : List Text) (text : Text) :
    decode ⟨number, labels, m, ops, text⟩ = .ok i := by
  cases h with
  | set hm ha hb hc =>
    rw [decode_eq_decodeAlu (not_mem_of_setOps hm)]
    simp only [decodeAlu, hm, three, reg_eq_ok_iff.mpr ha, reg_eq_ok_iff.mpr hb,
      regOrImm_eq_ok_iff.mpr hc, ok_bind]
    rfl
  | combine hm ha hb hc =>
    obtain ⟨hother, hset⟩ := not_mem_of_regOps hm
    rw [decode_eq_decodeAlu hother]
    simp only [decodeAlu, hm, hset, three, reg_eq_ok_iff.mpr ha, reg_eq_ok_iff.mpr hb,
      reg_eq_ok_iff.mpr hc, ok_bind]
    rfl
  | li ha hb =>
    simp +decide [decode, two, reg_eq_ok_iff.mpr ha, imm_eq_ok_iff.mpr hb, ok_bind, pure, Except.pure]
  | lw ha hb =>
    simp +decide [decode, two, reg_eq_ok_iff.mpr ha, mem_of_addresses hb, ok_bind, pure, Except.pure]
  | sw ha hb =>
    simp +decide [decode, two, reg_eq_ok_iff.mpr ha, mem_of_addresses hb, ok_bind, pure, Except.pure]
  | move ha hb =>
    simp +decide [decode, two, reg_eq_ok_iff.mpr ha, reg_eq_ok_iff.mpr hb, ok_bind, pure, Except.pure]
  | div ha hb hc =>
    simp +decide [decode, decodeDiv, reg_eq_ok_iff.mpr ha, reg_eq_ok_iff.mpr hb,
      reg_eq_ok_iff.mpr hc, ok_bind, pure, Except.pure]
  | divmod ha hb =>
    simp +decide [decode, decodeDiv, reg_eq_ok_iff.mpr ha, reg_eq_ok_iff.mpr hb, ok_bind, pure, Except.pure]
  | mfhi ha => simp +decide [decode, one, reg_eq_ok_iff.mpr ha, Except.map]
  | mflo ha => simp +decide [decode, one, reg_eq_ok_iff.mpr ha, Except.map]
  | beqz ha => simp +decide [decode, two, reg_eq_ok_iff.mpr ha, Except.map]
  | bnez ha => simp +decide [decode, two, reg_eq_ok_iff.mpr ha, Except.map]
  | jump => rfl
  | jal => rfl
  | jr ha => simp +decide [decode, one, reg_eq_ok_iff.mpr ha, Except.map]
  | syscall => rfl

theorem denotes_of_decodeAlu {l : AsmLine} {i : Instr Text} (h : l.decodeAlu = .ok i) :
    Denotes l.mnemonic l.operands i := by
  rw [decodeAlu] at h
  split at h
  · rename_i op hop
    obtain ⟨a, b, c, hops, h⟩ := three_eq_ok h
    simp only [bind_eq_ok_iff, reg_eq_ok_iff, regOrImm_eq_ok_iff] at h
    obtain ⟨rd, ha, rs, hb, src, hc, hi⟩ := h
    cases hi
    rw [hops]
    exact .set hop ha hb hc
  · rename_i op hset hop
    obtain ⟨a, b, c, hops, h⟩ := three_eq_ok h
    simp only [bind_eq_ok_iff, reg_eq_ok_iff] at h
    obtain ⟨rd, ha, rs, hb, rt, hc, hi⟩ := h
    cases hi
    rw [hops]
    exact .combine hop ha hb hc
  · cases h

theorem denotes_of_decodeDiv {l : AsmLine} {i : Instr Text} (hm : l.mnemonic = "div")
    (h : l.decodeDiv = .ok i) : Denotes l.mnemonic l.operands i := by
  rw [decodeDiv] at h
  split at h
  · rename_i a b hops
    simp only [bind_eq_ok_iff, reg_eq_ok_iff] at h
    obtain ⟨rs, ha, rt, hb, hi⟩ := h
    cases hi
    rw [hm, hops]
    exact .divmod ha hb
  · rename_i a b c hops
    simp only [bind_eq_ok_iff, reg_eq_ok_iff] at h
    obtain ⟨rd, ha, rs, hb, rt, hc, hi⟩ := h
    cases hi
    rw [hm, hops]
    exact .div ha hb hc
  · cases h

theorem denotes_of_decode {l : AsmLine} {i : Instr Text} (h : l.decode = .ok i) :
    Denotes l.mnemonic l.operands i := by
  by_cases hother : l.mnemonic ∈ otherMnemonics
  · obtain ⟨number, labels, mnemonic, operands, text⟩ := l
    simp only [otherMnemonics, List.mem_cons, List.not_mem_nil, or_false] at hother
    rcases hother with rfl | rfl | rfl | rfl | rfl | rfl | rfl | rfl | rfl | rfl | rfl | rfl | rfl
    · obtain ⟨a, b, rfl, h⟩ := two_eq_ok h
      simp only [bind_eq_ok_iff, reg_eq_ok_iff, imm_eq_ok_iff] at h
      obtain ⟨rd, ha, n, hb, hi⟩ := h
      cases hi
      exact .li ha hb
    · obtain ⟨a, b, rfl, h⟩ := two_eq_ok h
      simp only [bind_eq_ok_iff, reg_eq_ok_iff] at h
      obtain ⟨rt, ha, place, hb, hi⟩ := h
      cases hi
      exact .lw ha (addresses_of_mem hb)
    · obtain ⟨a, b, rfl, h⟩ := two_eq_ok h
      simp only [bind_eq_ok_iff, reg_eq_ok_iff] at h
      obtain ⟨rt, ha, place, hb, hi⟩ := h
      cases hi
      exact .sw ha (addresses_of_mem hb)
    · obtain ⟨a, b, rfl, h⟩ := two_eq_ok h
      simp only [bind_eq_ok_iff, reg_eq_ok_iff] at h
      obtain ⟨rd, ha, rs, hb, hi⟩ := h
      cases hi
      exact .move ha hb
    · exact denotes_of_decodeDiv rfl h
    · obtain ⟨a, r, rfl, ha, rfl⟩ := one_map_reg_eq_ok h
      exact .mfhi ha
    · obtain ⟨a, r, rfl, ha, rfl⟩ := one_map_reg_eq_ok h
      exact .mflo ha
    · obtain ⟨a, b, r, rfl, ha, rfl⟩ := two_map_reg_eq_ok h
      exact .beqz ha
    · obtain ⟨a, b, r, rfl, ha, rfl⟩ := two_map_reg_eq_ok h
      exact .bnez ha
    · obtain ⟨a, rfl, hi⟩ := one_eq_ok h
      cases hi
      exact .jump
    · obtain ⟨a, rfl, hi⟩ := one_eq_ok h
      cases hi
      exact .jal
    · obtain ⟨a, r, rfl, ha, rfl⟩ := one_map_reg_eq_ok h
      exact .jr ha
    · cases operands with
      | nil =>
        cases h
        exact .syscall
      | cons a rest => cases h
  · exact denotes_of_decodeAlu (decode_eq_decodeAlu hother ▸ h)

/-- A line decodes to the instruction that it denotes, and to no other. -/
theorem decode_eq_ok_iff {l : AsmLine} {i : Instr Text} :
    l.decode = .ok i ↔ Denotes l.mnemonic l.operands i :=
  ⟨denotes_of_decode, fun h => decode_of_denotes h l.number l.labels l.text⟩

end AsmLine

end MiniPascal
