import MiniPascal.Proofs.Emission
import MiniPascal.Proofs.Identifiers
import MiniPascal.Proofs.Numeral

/-! What the assembler makes of the lines that the generator emits: every line is clean, and an
instruction whose numbers fit a word decodes. -/

namespace MiniPascal

/-- The label that an instruction jumps to. -/
def Instr.target? {α : Type} : Instr α → Option α
  | .beqz _ t => some t
  | .bnez _ t => some t
  | .jump t => some t
  | .jal t => some t
  | _ => none

namespace AsmLine

/-- A mnemonic and operands decode to an instruction, wherever the line stands. -/
def Decodes (mnemonic : Text) (operands : List Text) (i : Instr Text) : Prop :=
  ∀ number text, decode ⟨number, [], mnemonic, operands, text⟩ = .ok i

theorem imm_ofInt (l : AsmLine) {n : Int} (hlo : -2 ^ 31 ≤ n) (hhi : n < 2 ^ 31) :
    l.imm (Numeral.ofInt n) = .ok (Int32.ofInt n) := by
  rw [imm, Numeral.readWord?_ofInt, if_pos ⟨hlo, hhi⟩]

theorem imm_ofInt_of_not (l : AsmLine) {n : Int} (h : ¬ (-2 ^ 31 ≤ n ∧ n < 2 ^ 31)) :
    ∃ e, l.imm (Numeral.ofInt n) = .error e := by
  rw [imm, Numeral.readWord?_ofInt, if_neg h]
  exact ⟨_, rfl⟩

theorem cut?_append_cons {c : Char} {a : Text} (h : .char c ∉ a) (b : Text) :
    Text.cut? c (a ++ .char c :: b) = some (a, b) := by
  have ha : ∀ g ∈ a, decide (g ≠ .char c) = true := by
    intro g hg
    simpa using fun e : g = .char c => h (e ▸ hg)
  rw [Text.cut?, Text.before_append_cons h, List.dropWhile_append_of_pos ha,
    List.dropWhile_cons_of_neg (by simp)]

theorem mem_slot (l : AsmLine) (n : Int) :
    l.mem (Assembly.slot n) = (l.imm (Numeral.ofInt n)).map (·, Reg.sp) := by
  have hdigit : ∀ g ∈ Numeral.ofInt n, g ≠ .char '(' ∧ g ≠ .char ')' := by
    intro g hg
    obtain ⟨c, rfl, hc⟩ := Numeral.mem_ofInt hg
    refine ⟨fun he => ?_, fun he => ?_⟩
    all_goals
      obtain rfl := Glyph.char.inj he
      exact absurd hc (by decide)
  have hopen : .char '(' ∉ Numeral.ofInt n := fun h => (hdigit _ h).1 rfl
  have hclose : (Numeral.ofInt n).contains (.char ')') = false := by
    simpa using fun h => (hdigit _ h).2 rfl
  have hcut : Text.cut? '(' (Assembly.slot n) = some (Numeral.ofInt n, Text.ofString "$sp)") :=
    cut?_append_cons hopen _
  have hlast : (Assembly.slot n).getLast? = some (.char ')') := by
    have hslot : Assembly.slot n = (Numeral.ofInt n ++ Text.ofString "($sp") ++ [.char ')'] := by
      rw [List.append_assoc]
      rfl
    rw [hslot, List.getLast?_concat]
  have hbase : (Text.ofString "$sp)").dropLast.contains (.char ')') = false := by decide
  have hreg : l.reg (Text.ofString "$sp)").dropLast = .ok Reg.sp := rfl
  unfold mem
  rw [hcut, hlast]
  simp only [hclose, hbase, Bool.or_self, Bool.false_eq_true, if_false, Numeral.ofInt_ne_nil, hreg]
  cases l.imm (Numeral.ofInt n) <;> rfl

section Decodes

variable {reg : Text} {r : Reg} {n : Int}

/-- A load or a store between a register and a place. -/
def transfer (l : AsmLine) (make : Reg → Int32 → Reg → Instr Text) (reg place : Text) :
    Except AssemblyError (Instr Text) := do
  let rt ← l.reg reg
  let found ← l.mem place
  return make rt found.1 found.2

theorem transfer_slot (l : AsmLine) (make : Reg → Int32 → Reg → Instr Text)
    (hr : Reg.ofName? reg = some r) (hlo : -2 ^ 31 ≤ n) (hhi : n < 2 ^ 31) :
    l.transfer make reg (Assembly.slot n) = .ok (make r (Int32.ofInt n) Reg.sp) := by
  rw [transfer, mem_slot, imm_ofInt _ hlo hhi, AsmLine.reg, hr]
  rfl

/-- Only a place that fits a word can be loaded from or stored at. -/
theorem fits_of_transfer {l : AsmLine} {make : Reg → Int32 → Reg → Instr Text} {i : Instr Text}
    (hr : Reg.ofName? reg = some r) (h : l.transfer make reg (Assembly.slot n) = .ok i) :
    -2 ^ 31 ≤ n ∧ n < 2 ^ 31 := by
  by_contra hfit
  obtain ⟨e, he⟩ := imm_ofInt_of_not l hfit
  rw [transfer, mem_slot, AsmLine.reg, hr, he] at h
  cases h

theorem decodes_lw_slot (hr : Reg.ofName? reg = some r) (hlo : -2 ^ 31 ≤ n) (hhi : n < 2 ^ 31) :
    Decodes "lw" [reg, Assembly.slot n] (.lw r (Int32.ofInt n) Reg.sp) :=
  fun _ _ => transfer_slot _ .lw hr hlo hhi

theorem decodes_sw_slot (hr : Reg.ofName? reg = some r) (hlo : -2 ^ 31 ≤ n) (hhi : n < 2 ^ 31) :
    Decodes "sw" [reg, Assembly.slot n] (.sw r (Int32.ofInt n) Reg.sp) :=
  fun _ _ => transfer_slot _ .sw hr hlo hhi

theorem decodes_li_word (value : Int32) :
    Decodes "li" ["$v0", Numeral.ofWord value] (.li Reg.v0 value) := by
  intro number text
  show (do
    let rd ← AsmLine.reg _ "$v0"
    let n ← AsmLine.imm _ (Numeral.ofWord value)
    return Instr.li rd n) = _
  rw [imm, Numeral.readWord?_ofWord]
  rfl

theorem regOrImm_ofInt (l : AsmLine) (n : Int) :
    l.regOrImm (Numeral.ofInt n) = (l.imm (Numeral.ofInt n)).map .imm := by
  refine if_neg fun hhead => ?_
  have hmem := List.mem_of_head? hhead
  obtain ⟨c, hg, hc⟩ := Numeral.mem_ofInt hmem
  obtain rfl := Glyph.char.inj hg
  exact absurd hc (by decide)

theorem decodes_addu_sp (hlo : -2 ^ 31 ≤ n) (hhi : n < 2 ^ 31) :
    Decodes "addu" ["$sp", "$sp", Numeral.ofInt n]
      (.alu .addu Reg.sp Reg.sp (.imm (Int32.ofInt n))) := by
  intro number text
  show (do
    let rd ← AsmLine.reg _ "$sp"
    let rs ← AsmLine.reg _ "$sp"
    let src ← AsmLine.regOrImm _ (Numeral.ofInt n)
    return Instr.alu .addu rd rs src) = _
  rw [regOrImm_ofInt, imm_ofInt _ hlo hhi]
  rfl

theorem fits_of_decode_lw {number : Nat} {text : Text} {i : Instr Text}
    (hr : Reg.ofName? reg = some r)
    (h : decode ⟨number, [], "lw", [reg, Assembly.slot n], text⟩ = .ok i) :
    -2 ^ 31 ≤ n ∧ n < 2 ^ 31 := by
  change transfer _ .lw reg _ = _ at h
  exact fits_of_transfer hr h

theorem fits_of_decode_sw {number : Nat} {text : Text} {i : Instr Text}
    (hr : Reg.ofName? reg = some r)
    (h : decode ⟨number, [], "sw", [reg, Assembly.slot n], text⟩ = .ok i) :
    -2 ^ 31 ≤ n ∧ n < 2 ^ 31 := by
  change transfer _ .sw reg _ = _ at h
  exact fits_of_transfer hr h

theorem fits_of_decode_addu {number : Nat} {text : Text} {i : Instr Text}
    (h : decode ⟨number, [], "addu", ["$sp", "$sp", Numeral.ofInt n], text⟩ = .ok i) :
    -2 ^ 31 ≤ n ∧ n < 2 ^ 31 := by
  by_contra hfit
  change (do
    let rd ← AsmLine.reg _ "$sp"
    let rs ← AsmLine.reg _ "$sp"
    let src ← AsmLine.regOrImm _ (Numeral.ofInt n)
    return Instr.alu .addu rd rs src) = _ at h
  rw [regOrImm_ofInt] at h
  obtain ⟨e, he⟩ := imm_ofInt_of_not
    ⟨number, [], "addu", ["$sp", "$sp", Numeral.ofInt n], text⟩ hfit
  rw [he] at h
  cases h

end Decodes

end AsmLine

namespace Assembly

/-- A place in the stack or the size of a frame that a line names is below 2 ^ 31. -/
structure Line.Fits (l : Line) : Prop where
  slot : ∀ mnemonic reg n, l = .instr mnemonic [reg, slot n] → n < 2 ^ 31
  frame : ∀ n, l = .instr "addu" ["$sp", "$sp", Numeral.ofInt n] → n < 2 ^ 31

/-- A line that the assembler takes, if its numbers fit and its label is among `targets`. -/
structure Line.Sound (targets : Text → Prop) (l : Line) : Prop where
  clean : l.Clean
  decodes : ∀ mnemonic operands, l = .instr mnemonic operands → l.Fits →
    ∃ i, AsmLine.Decodes mnemonic operands i ∧ ∀ t, i.target? = some t → targets t

def SoundAll (targets : Text → Prop) (ls : List Line) : Prop := ∀ l ∈ ls, l.Sound targets

section Sound

variable {targets targets' : Text → Prop} {a b : List Line}

theorem SoundAll.append (ha : SoundAll targets a) (hb : SoundAll targets b) :
    SoundAll targets (a ++ b) :=
  List.forall_mem_append.mpr ⟨ha, hb⟩

theorem SoundAll.cons {l : Line} (hl : l.Sound targets) (hb : SoundAll targets b) :
    SoundAll targets (l :: b) :=
  List.forall_mem_cons.mpr ⟨hl, hb⟩

theorem soundAll_nil : SoundAll targets [] := fun _ hl => absurd hl List.not_mem_nil

theorem SoundAll.mono (h : SoundAll targets a) (himp : ∀ t, targets t → targets' t) :
    SoundAll targets' a := by
  refine fun l hl => ⟨(h l hl).clean, fun m ops he hfits => ?_⟩
  obtain ⟨i, hi, ht⟩ := (h l hl).decodes m ops he hfits
  exact ⟨i, hi, fun t htarget => himp t (ht t htarget)⟩

theorem sound_instr {mnemonic : Text} {operands : List Text} {i : Instr Text}
    (hclean : (Line.instr mnemonic operands).Clean) (hi : AsmLine.Decodes mnemonic operands i)
    (ht : ∀ t, i.target? = some t → targets t) : (Line.instr mnemonic operands).Sound targets := by
  refine ⟨hclean, fun m ops he _ => ?_⟩
  obtain ⟨rfl, rfl⟩ := Line.instr.inj he
  exact ⟨i, hi, ht⟩

end Sound

section Words

theorem isPlain_of_isDigit {c : Char} (h : c = '-' ∨ c.isDigit = true) :
    (Glyph.char c).isPlain = true := by
  rcases h with rfl | h
  · decide
  · have hbounds : 48 ≤ c.toNat ∧ c.toNat ≤ 57 := by
      simpa [Char.isDigit, UInt32.le_iff_toNat_le] using h
    refine Glyph.isPlain_char (by omega) (by omega) ⟨?_, ?_, ?_⟩
    all_goals
      rintro rfl
      exact absurd h (by decide)

theorem isWord_ofInt (n : Int) : (Numeral.ofInt n).IsWord := by
  refine ⟨Numeral.ofInt_ne_nil n, fun g hg => ?_⟩
  obtain ⟨c, rfl, hc⟩ := Numeral.mem_ofInt hg
  exact isPlain_of_isDigit hc

theorem isWord_slot (n : Int) : (slot n).IsWord := by
  have hbase : ∀ g ∈ Text.ofString "($sp)", g.isPlain = true := by decide
  refine ⟨List.append_ne_nil_of_left_ne_nil (Numeral.ofInt_ne_nil n) _, ?_⟩
  exact List.forall_mem_append.mpr ⟨(isWord_ofInt n).2, hbase⟩

theorem isLabelPart_of_isDigit {c : Char} (h : c.isDigit = true) :
    AsmLine.isLabelPart (.char c) = true := by
  have hbounds : '0' ≤ c ∧ c ≤ '9' := by
    simpa [Char.isDigit, Char.le_def, UInt32.le_iff_toNat_le] using h
  simp [AsmLine.isLabelPart, hbounds.1, hbounds.2]

theorem isLabel_append {a b : Text} (ha : AsmLine.isLabel a = true)
    (hb : ∀ g ∈ b, AsmLine.isLabelPart g = true) : AsmLine.isLabel (a ++ b) = true := by
  cases a with
  | nil => exact nomatch ha
  | cons g a =>
    simp only [AsmLine.isLabel, Bool.and_eq_true, List.all_eq_true] at ha
    simp only [List.cons_append, AsmLine.isLabel, Bool.and_eq_true, List.all_eq_true]
    exact ⟨ha.1, List.forall_mem_append.mpr ⟨ha.2, hb⟩⟩

theorem isLabel_labelName (k : Nat) : AsmLine.isLabel (labelName k) = true := by
  refine isLabel_append (by decide) fun g hg => ?_
  obtain ⟨c, rfl, hc⟩ := Numeral.isDigit_of_mem_ofNat hg
  exact isLabelPart_of_isDigit hc

theorem isLabelPart_of_isIdentifier {t : Text} (h : t.isIdentifier = true) :
    ∀ g ∈ t, AsmLine.isLabelPart g = true := by
  have hpart : ∀ c, Source.isLetter c = true ∨ Source.isDigit c = true →
      AsmLine.isLabelPart (.char c) = true := by
    intro c hc
    simp only [Source.isLetter, Source.isDigit, Bool.or_eq_true] at hc
    simp only [AsmLine.isLabelPart, AsmLine.isLabelStart, Bool.or_eq_true]
    tauto
  unfold Text.isIdentifier at h
  cases hchars : t.chars with
  | nil =>
    rw [hchars] at h
    cases h
  | cons c cs =>
    simp only [hchars, Bool.and_eq_true, List.all_eq_true, Bool.or_eq_true, decide_eq_true_eq] at h
    obtain ⟨⟨hc, hcs⟩, rfl⟩ := h
    intro g hg
    obtain ⟨d, hd, rfl⟩ := List.mem_map.mp hg
    rcases List.mem_cons.mp hd with rfl | hd
    · exact hpart d (.inl hc)
    · exact hpart d (hcs d hd)

theorem isLabel_procedureLabel {name : Text} (h : name.isIdentifier = true) :
    AsmLine.isLabel (procedureLabel name) = true :=
  isLabel_append (by decide) (isLabelPart_of_isIdentifier h)

theorem newline_not_mem_of_isIdentifier {t : Text} (h : t.isIdentifier = true) :
    .char '\n' ∉ t :=
  fun hmem => absurd (isLabelPart_of_isIdentifier h _ hmem) (by decide)

end Words

instance (mnemonic : Text) (operands : List Text) :
    Decidable (Line.instr mnemonic operands).Clean :=
  inferInstanceAs (Decidable (_ ∧ _))

/-- The name of a register that holds values: neither the stack pointer nor the zero register. -/
structure RegName (name : Text) (r : Reg) : Prop where
  word : name.IsWord
  reg : Reg.ofName? name = some r
  ne_sp : r ≠ Reg.sp
  ne_zero : r ≠ Reg.zero

theorem regName_v0 : RegName "$v0" Reg.v0 := ⟨by decide, rfl, by decide, by decide⟩

theorem regName_t0 : RegName "$t0" Reg.t0 := ⟨by decide, rfl, by decide, by decide⟩

theorem regName_ra : RegName "$ra" Reg.ra := ⟨by decide, rfl, by decide, by decide⟩

section Fragments

variable {targets : Text → Prop} {reg : Text} {r : Reg}

theorem decodes_sw_top (hreg : RegName reg r) : AsmLine.Decodes "sw" [reg, top] (.sw r 0 Reg.sp) := by
  intro number text
  show (do
    let rt ← AsmLine.reg _ reg
    let place ← AsmLine.mem _ top
    return Instr.sw rt place.1 place.2) = _
  rw [AsmLine.reg, hreg.reg]
  rfl

theorem decodes_lw_top (hreg : RegName reg r) : AsmLine.Decodes "lw" [reg, top] (.lw r 0 Reg.sp) := by
  intro number text
  show (do
    let rt ← AsmLine.reg _ reg
    let place ← AsmLine.mem _ top
    return Instr.lw rt place.1 place.2) = _
  rw [AsmLine.reg, hreg.reg]
  rfl

theorem decodes_li_zero (hreg : RegName reg r) : AsmLine.Decodes "li" [reg, "0"] (.li r 0) := by
  intro number text
  show (do
    let rd ← AsmLine.reg _ reg
    let n ← AsmLine.imm _ "0"
    return Instr.li rd n) = _
  rw [AsmLine.reg, hreg.reg]
  rfl

theorem clean_pair {mnemonic first second : Text}
    (hm : mnemonic.IsWord ∧ mnemonic.toLower = mnemonic ∧ mnemonic.head? ≠ some (.char '.'))
    (hfirst : first.IsWord) (hsecond : second.IsWord) :
    (Line.instr mnemonic [first, second]).Clean :=
  ⟨hm.1, hm.2.1, hm.2.2, List.forall_mem_cons.mpr ⟨hfirst, List.forall_mem_singleton.mpr hsecond⟩⟩

theorem sound_plain {mnemonic : Text} {operands : List Text} {i : Instr Text}
    (hi : AsmLine.Decodes mnemonic operands i)
    (hclean : (Line.instr mnemonic operands).Clean := by decide)
    (ht : i.target? = none := by rfl) : (Line.instr mnemonic operands).Sound targets :=
  sound_instr hclean hi fun _ h => nomatch ht.symm.trans h

theorem sound_push (hreg : RegName reg r) : SoundAll targets (pushLines reg) := by
  refine .cons ?_ (.cons ?_ soundAll_nil)
  · exact sound_plain fun _ _ => rfl
  · exact sound_plain (decodes_sw_top hreg) (clean_pair (by decide) hreg.word (by decide))

theorem sound_pop (hreg : RegName reg r) : SoundAll targets (popLines reg) := by
  refine .cons ?_ (.cons ?_ soundAll_nil)
  · exact sound_plain (decodes_lw_top hreg) (clean_pair (by decide) hreg.word (by decide))
  · exact sound_plain fun _ _ => rfl

theorem sound_slot {mnemonic : Text} {n : Int} {i : Instr Text}
    (hclean : (Line.instr mnemonic [reg, slot n]).Clean)
    (hi : n < 2 ^ 31 → AsmLine.Decodes mnemonic [reg, slot n] i)
    (ht : i.target? = none := by rfl) : (Line.instr mnemonic [reg, slot n]).Sound targets := by
  refine ⟨hclean, fun m ops he hfits => ?_⟩
  have hhi := hfits.slot _ _ _ rfl
  obtain ⟨rfl, rfl⟩ := Line.instr.inj he
  exact ⟨i, hi hhi, fun _ h => nomatch ht.symm.trans h⟩

theorem sound_lw_slot (hreg : RegName reg r) {n : Int} (hlo : -2 ^ 31 ≤ n) :
    (Line.instr "lw" [reg, slot n]).Sound targets :=
  sound_slot (clean_pair (by decide) hreg.word (isWord_slot n)) (AsmLine.decodes_lw_slot hreg.reg hlo)

theorem sound_sw_slot (hreg : RegName reg r) {n : Int} (hlo : -2 ^ 31 ≤ n) :
    (Line.instr "sw" [reg, slot n]).Sound targets :=
  sound_slot (clean_pair (by decide) hreg.word (isWord_slot n)) (AsmLine.decodes_sw_slot hreg.reg hlo)

theorem sound_li_zero (hreg : RegName reg r) : (Line.instr "li" [reg, "0"]).Sound targets :=
  sound_plain (decodes_li_zero hreg) (clean_pair (by decide) hreg.word (by decide))

theorem sound_retrieve (hreg : RegName reg r) (names : List Text) (parked : Nat) (name : Text) :
    (retrieveLine names parked reg name).Sound targets := by
  unfold retrieveLine
  cases names.idxOf? name with
  | none => exact sound_li_zero hreg
  | some i => exact sound_lw_slot hreg (by omega)

theorem sound_store (hreg : RegName reg r) (names : List Text) {name : Text}
    (hname : .char '\n' ∉ name) : SoundAll targets (storeLines names reg name) := by
  unfold storeLines
  cases names.idxOf? name with
  | none =>
    refine .cons ⟨?_, fun m ops he _ => nomatch he⟩ (sound_push hreg)
    have hfixed : .char '\n' ∉ Text.ofString "new variable " := by decide
    exact fun hmem => (List.mem_append.mp hmem).elim hfixed hname
  | some i => exact .cons (sound_sw_slot hreg (by omega)) soundAll_nil

theorem sound_free (count : Nat) : SoundAll targets (freeLines count) := by
  unfold freeLines
  split
  · exact soundAll_nil
  · refine .cons ⟨?_, fun m ops he hfits => ?_⟩ soundAll_nil
    · have hword := isWord_ofInt (4 * (count : Int))
      exact ⟨by decide, by decide, by decide, by simpa using ⟨by decide, hword⟩⟩
    · have hhi := hfits.frame _ rfl
      obtain ⟨rfl, rfl⟩ := Line.instr.inj he
      exact ⟨_, AsmLine.decodes_addu_sp (by omega) hhi, fun _ h => nomatch h⟩

theorem sound_operator (op : Operator) : SoundAll targets ((operatorLines? op).getD []) := by
  cases op with
  | mod => exact .cons (sound_plain fun _ _ => rfl) (.cons (sound_plain fun _ _ => rfl) soundAll_nil)
  | and =>
    exact .cons (sound_plain fun _ _ => rfl) (.cons (sound_plain fun _ _ => rfl)
      (.cons (sound_plain fun _ _ => rfl) soundAll_nil))
  | or =>
    exact .cons (sound_plain fun _ _ => rfl) (.cons (sound_plain fun _ _ => rfl)
      (.cons (sound_plain fun _ _ => rfl) soundAll_nil))
  | other code => exact soundAll_nil
  | _ => exact .cons (sound_plain fun _ _ => rfl) soundAll_nil

theorem sound_print : SoundAll targets printLines := by
  unfold printLines
  exact .cons (sound_plain fun _ _ => rfl) (.cons (sound_plain fun _ _ => rfl)
    (.cons (sound_plain fun _ _ => rfl) (.cons (sound_plain fun _ _ => rfl)
    (.cons (sound_plain fun _ _ => rfl) (.cons (sound_plain fun _ _ => rfl) soundAll_nil)))))

end Fragments

/-- The labels that code may name: those numbered from `k` on, `count` of them, and those of the
procedures in `calls`. -/
def Targets (k count : Nat) (calls : List Text) (t : Text) : Prop :=
  (∃ j, k ≤ j ∧ j < k + count ∧ t = labelName j) ∨ ∃ f ∈ calls, t = procedureLabel f

theorem Targets.mono {k k' count count' : Nat} {calls calls' : List Text} (hk : k' ≤ k)
    (hcount : k + count ≤ k' + count') (hcalls : calls ⊆ calls') :
    ∀ t, Targets k count calls t → Targets k' count' calls' t := by
  rintro t (⟨j, hlo, hhi, rfl⟩ | ⟨f, hf, rfl⟩)
  · exact .inl ⟨j, by omega, by omega, rfl⟩
  · exact .inr ⟨f, hcalls hf, rfl⟩

mutual

theorem sound_expr (e : Expr) (hn : e.Named) (k : Nat) (names : List Text) (parked : Nat) :
    SoundAll (Targets k 0 e.calls) (exprLines names parked e) := by
  match e with
  | .literal _ value _ _ =>
    exact .cons (sound_plain (AsmLine.decodes_li_word value)
      (clean_pair (by decide) (by decide) (isWord_ofInt _))) soundAll_nil
  | .var v => exact .cons (sound_retrieve regName_v0 names parked v.name) soundAll_nil
  | .binary _ op left right =>
    refine ((((SoundAll.mono (sound_expr left hn.1 k names parked) ?_).append
      (sound_push regName_v0)).append
      (SoundAll.mono (sound_expr right hn.2 k names (parked + 1)) ?_)).append
      (sound_pop regName_t0)).append (sound_operator op)
    · exact Targets.mono le_rfl le_rfl (List.subset_append_left _ _)
    · exact Targets.mono le_rfl le_rfl (List.subset_append_right _ _)
  | .call _ name args =>
    have hlabel := isLabel_procedureLabel hn.1
    refine .cons ⟨?_, fun m ops he _ => nomatch he⟩ (.append ?_ (.cons ?_ soundAll_nil))
    · have hfixed : .char '\n' ∉ Text.ofString "call " := by decide
      exact fun hmem => (List.mem_append.mp hmem).elim hfixed (newline_not_mem_of_isIdentifier hn.1)
    · refine (sound_arguments args hn.2 k names parked).mono ?_
      exact Targets.mono le_rfl le_rfl (List.subset_cons_self _ _)
    · refine sound_instr (i := .jal (procedureLabel name)) ?_ (fun _ _ => rfl) fun t ht => ?_
      · exact ⟨by decide, by decide, by decide,
          List.forall_mem_singleton.mpr (AsmLine.isLabel.isWord hlabel)⟩
      · exact .inr ⟨name, List.mem_cons_self, (Option.some.inj ht).symm⟩
  | .missing => exact soundAll_nil

theorem sound_arguments (es : List Expr) (hn : Expr.NamedAll es) (k : Nat) (names : List Text)
    (parked : Nat) : SoundAll (Targets k 0 (Expr.callsAll es)) (argumentLines names parked es) := by
  match es with
  | [] => exact soundAll_nil
  | e :: es =>
    refine ((SoundAll.mono (sound_expr e hn.1 k names parked) ?_).append
      (sound_push regName_v0)).append
      (SoundAll.mono (sound_arguments es hn.2 k names (parked + 1)) ?_)
    · exact Targets.mono le_rfl le_rfl (List.subset_append_left _ _)
    · exact Targets.mono le_rfl le_rfl (List.subset_append_right _ _)

end

theorem sound_label {targets : Text → Prop} {name : Text} (h : AsmLine.isLabel name = true) :
    (Line.label name).Sound targets :=
  ⟨h, fun _ _ he _ => nomatch he⟩

theorem sound_marked {targets : Text → Prop} (k : Nat) {remark : Text}
    (hremark : .char '\n' ∉ remark := by decide) :
    (Line.marked (labelName k) remark).Sound targets :=
  ⟨⟨isLabel_labelName k, hremark⟩, fun _ _ he _ => nomatch he⟩

theorem sound_beqz {targets : Text → Prop} (k : Nat) (h : targets (labelName k)) :
    (Line.instr "beqz" ["$v0", labelName k]).Sound targets :=
  sound_instr (i := .beqz Reg.v0 (labelName k))
    (clean_pair (by decide) (by decide) (AsmLine.isLabel.isWord (isLabel_labelName k)))
    (fun _ _ => rfl) fun _ ht => Option.some.inj ht ▸ h

theorem sound_jump {targets : Text → Prop} (k : Nat) (h : targets (labelName k)) :
    (Line.instr "j" [labelName k]).Sound targets :=
  sound_instr (i := .jump (labelName k))
    ⟨by decide, by decide, by decide,
      List.forall_mem_singleton.mpr (AsmLine.isLabel.isWord (isLabel_labelName k))⟩
    (fun _ _ => rfl) fun _ ht => Option.some.inj ht ▸ h

mutual

theorem sound_stmt (s : Stmt) (hn : s.Named) (names : List Text) (k : Nat) :
    SoundAll (Targets k s.labelCount s.calls) (stmtLines names k s) := by
  match s with
  | .assign _ target value =>
    refine (SoundAll.mono (sound_expr value hn.2 k names 0) ?_).append
      (sound_store regName_v0 names (newline_not_mem_of_isIdentifier hn.1))
    exact Targets.mono le_rfl (Nat.le_add_right _ _) (List.Subset.refl _)
  | .block _ body => exact sound_stmts body hn names k
  | .ifThen _ cond body =>
    have hk : ∀ j < 2, Targets k (2 + body.labelCount) (cond.calls ++ body.calls)
        (labelName (k + j)) := fun j hj => .inl ⟨k + j, by omega, by omega, rfl⟩
    refine (((SoundAll.mono (sound_expr cond hn.1 k names 0) ?_).append
      (.cons (sound_beqz k (hk 0 (by omega))) soundAll_nil)).append
      ((SoundAll.mono (sound_stmt body hn.2 names (k + 2)) ?_).append (sound_free _))).append
      (.cons (sound_jump (k + 1) (hk 1 (by omega))) (.cons (sound_label (isLabel_labelName k))
      (.cons (sound_marked (k + 1)) soundAll_nil)))
    · exact Targets.mono le_rfl (Nat.le_add_right _ _) (List.subset_append_left _ _)
    · exact Targets.mono (by omega) (by omega) (List.subset_append_right _ _)
  | .ifElse _ cond body alternative =>
    have hk : ∀ j < 2, Targets k (2 + body.labelCount + alternative.labelCount)
        (cond.calls ++ body.calls ++ alternative.calls) (labelName (k + j)) :=
      fun j hj => .inl ⟨k + j, by omega, by omega, rfl⟩
    refine (((((SoundAll.mono (sound_expr cond hn.1 k names 0) ?_).append
      (.cons (sound_beqz k (hk 0 (by omega))) soundAll_nil)).append
      ((SoundAll.mono (sound_stmt body hn.2.1 names (k + 2)) ?_).append (sound_free _))).append
      (.cons (sound_jump (k + 1) (hk 1 (by omega))) (.cons (sound_label (isLabel_labelName k))
      soundAll_nil))).append
      ((SoundAll.mono (sound_stmt alternative hn.2.2 names (k + 2 + body.labelCount)) ?_).append
      (sound_free _))).append (.cons (sound_marked (k + 1)) soundAll_nil)
    · refine Targets.mono le_rfl (Nat.le_add_right _ _) ?_
      exact fun f hf => List.mem_append_left _ (List.mem_append_left _ hf)
    · refine Targets.mono (by omega) (by omega) ?_
      exact fun f hf => List.mem_append_left _ (List.mem_append_right _ hf)
    · exact Targets.mono (by omega) (by omega) (List.subset_append_right _ _)
  | .loop _ cond body =>
    have hk : ∀ j < 2, Targets k (2 + body.labelCount) (cond.calls ++ body.calls)
        (labelName (k + j)) := fun j hj => .inl ⟨k + j, by omega, by omega, rfl⟩
    refine ((((SoundAll.cons (sound_marked k) soundAll_nil).append
      (SoundAll.mono (sound_expr cond hn.1 k names 0) ?_)).append
      (.cons (sound_beqz (k + 1) (hk 1 (by omega))) soundAll_nil)).append
      ((SoundAll.mono (sound_stmt body hn.2 names (k + 2)) ?_).append (sound_free _))).append
      (.cons (sound_jump k (hk 0 (by omega))) (.cons (sound_marked (k + 1)) soundAll_nil))
    · exact Targets.mono le_rfl (Nat.le_add_right _ _) (List.subset_append_left _ _)
    · exact Targets.mono (by omega) (by omega) (List.subset_append_right _ _)
  | .writeLn _ value =>
    refine (SoundAll.mono (sound_expr value hn k names 0) ?_).append sound_print
    exact Targets.mono le_rfl (Nat.le_add_right _ _) (List.Subset.refl _)
  | .readLn .. => exact soundAll_nil
  | .call token name args =>
    refine SoundAll.mono (sound_expr (.call token name args) hn k names 0) ?_
    exact Targets.mono le_rfl (Nat.le_add_right _ _) (List.Subset.refl _)
  | .declare .. => exact soundAll_nil
  | .missing => exact soundAll_nil

theorem sound_stmts (ss : List Stmt) (hn : Stmt.NamedAll ss) (names : List Text) (k : Nat) :
    SoundAll (Targets k (Stmt.labelCountAll ss) (Stmt.callsAll ss)) (stmtsLines names k ss) := by
  match ss with
  | [] => exact soundAll_nil
  | s :: ss =>
    refine (SoundAll.mono (sound_stmt s hn.1 names k) ?_).append
      (SoundAll.mono (sound_stmts ss hn.2 _ (k + s.labelCount)) ?_)
    · refine Targets.mono le_rfl ?_ (List.subset_append_left _ _)
      simp only [Stmt.labelCountAll]
      omega
    · refine Targets.mono (by omega) ?_ (List.subset_append_right _ _)
      simp only [Stmt.labelCountAll]
      omega

end

theorem sound_procedure (p : Procedure) (hn : p.Named) (k : Nat) :
    SoundAll (Targets k p.body.labelCount p.body.calls) (procedureLines k p) := by
  have hname := newline_not_mem_of_isIdentifier hn.name
  have hentry : (Line.instr "li" ["$v0", "0"]).Sound (Targets k p.body.labelCount p.body.calls) :=
    sound_plain fun _ _ => rfl
  have hreturn : (Line.instr "jr" ["$ra"]).Sound (Targets k p.body.labelCount p.body.calls) :=
    sound_plain fun _ _ => rfl
  unfold procedureLines
  exact ((((((SoundAll.cons (sound_label (isLabel_procedureLabel hn.name))
    (.cons hentry soundAll_nil)).append (sound_store regName_v0 _ hname)).append
    (sound_store regName_ra _ (by decide))).append (sound_stmt p.body hn.body _ k)).append
    (.cons (sound_retrieve regName_v0 _ _ _) (.cons (sound_retrieve regName_ra _ _ _)
    soundAll_nil))).append (sound_free _)).append (.cons hreturn soundAll_nil)

theorem sound_procedures (ds : List Declaration) (hn : ∀ d ∈ ds, d.procedure.Named) (k : Nat) :
    SoundAll (Targets k (ds.map fun d => d.procedure.body.labelCount).sum
      (ds.flatMap fun d => d.procedure.body.calls)) (proceduresLines k ds) := by
  induction ds generalizing k with
  | nil => exact soundAll_nil
  | cons d ds ih =>
    obtain ⟨hd, hds⟩ := List.forall_mem_cons.mp hn
    refine (SoundAll.mono (sound_procedure d.procedure hd k) ?_).append
      (SoundAll.mono (ih hds (k + d.procedure.body.labelCount)) ?_)
    · refine Targets.mono le_rfl ?_ (by simp)
      simp only [List.map_cons, List.sum_cons]
      omega
    · refine Targets.mono (by omega) ?_ (by simp)
      simp only [List.map_cons, List.sum_cons]
      omega

theorem sound_main (body : Option Stmt) (hn : ∀ s, body = some s → s.Named) :
    SoundAll (Targets 0 (body.elim 0 Stmt.labelCount) (body.elim [] Stmt.calls))
      (mainLines body) := by
  have hhead : SoundAll (Targets 0 (body.elim 0 Stmt.labelCount) (body.elim [] Stmt.calls))
      [.plain ".text", .plain ".globl main", .label "main"] :=
    .cons ⟨.inl rfl, fun _ _ he _ => nomatch he⟩ (.cons ⟨.inr rfl, fun _ _ he _ => nomatch he⟩
      (.cons (sound_label (by decide)) soundAll_nil))
  have hscope : SoundAll (Targets 0 (body.elim 0 Stmt.labelCount) (body.elim [] Stmt.calls))
      (body.elim [] (scopeLines [] 0)) := by
    cases body with
    | none => exact soundAll_nil
    | some s => exact (sound_stmt s (hn s rfl) [] 0).append (sound_free _)
  exact (hhead.append hscope).append
    (.cons (sound_plain fun _ _ => rfl) (.cons (sound_plain fun _ _ => rfl) soundAll_nil))

/-- Every line of a program is one that the assembler takes. -/
theorem sound_program (p : Program) (hn : p.Named) :
    SoundAll (Targets 0 p.labelCount p.calls) (programLines p) := by
  refine (SoundAll.mono (sound_main p.main hn.main) ?_).append
    (SoundAll.mono (sound_procedures p.declarations hn.declarations _) ?_)
  · exact Targets.mono le_rfl (by simp [Program.labelCount]) (List.subset_append_left _ _)
  · exact Targets.mono (Nat.zero_le _) (by simp [Program.labelCount])
      (List.subset_append_right _ _)

end Assembly

namespace Code

variable {code : Code} {pc : Nat} {mnemonic : Text} {operands : List Text}

theorem Has.resolves (h : code.Has pc mnemonic operands) {i : Instr Text}
    (hi : AsmLine.Decodes mnemonic operands i) :
    ∃ (l : AsmLine) (j : Instr Int),
      i.resolve (l.target code.labels) = .ok j ∧ code.instr? pc = some j := by
  obtain ⟨number, text, located, hfetch, hassemble⟩ := h
  refine ⟨⟨number, [], mnemonic, operands, text⟩, ?_⟩
  rw [AsmLine.assemble, hi number text] at hassemble
  change (do
    let instr ← i.resolve (AsmLine.target _ code.labels)
    return Located.mk instr number text) = _ at hassemble
  cases hj : i.resolve (AsmLine.target ⟨number, [], mnemonic, operands, text⟩ code.labels) with
  | error e =>
    rw [hj] at hassemble
    exact nomatch hassemble
  | ok j =>
    rw [hj] at hassemble
    obtain rfl := Except.ok.inj hassemble
    exact ⟨j, rfl, by rw [instr?, hfetch]; rfl⟩

/-- A line without a label means the same instruction wherever it stands. -/
theorem Has.instr?_eq (h : code.Has pc mnemonic operands) {i : Instr Text} {j : Instr Int}
    (hi : AsmLine.Decodes mnemonic operands i)
    (hj : ∀ f : Text → Except AssemblyError Int, i.resolve f = .ok j := by exact fun _ => rfl) :
    code.instr? pc = some j := by
  obtain ⟨l, j', hj', hat⟩ := h.resolves hi
  rw [hj] at hj'
  rw [hat, Except.ok.inj hj']

theorem exists_of_target_map {l : AsmLine} {labels : Table Nat} {t : Text}
    {g : Int → Instr Int} {j : Instr Int} (h : (l.target labels t).map g = .ok j) :
    ∃ n : Nat, labels.get? t = some n ∧ j = g n := by
  unfold AsmLine.target at h
  cases hn : labels.get? t with
  | none =>
    rw [hn] at h
    exact nomatch h
  | some n =>
    rw [hn] at h
    exact ⟨n, rfl, (Except.ok.inj h).symm⟩

theorem Has.jal {t : Text} (h : code.Has pc "jal" [t]) :
    ∃ n : Nat, code.labels.get? t = some n ∧ code.instr? pc = some (.jal n) := by
  obtain ⟨l, j, hj, hat⟩ := h.resolves (i := .jal t) fun _ _ => rfl
  obtain ⟨n, hn, rfl⟩ := exists_of_target_map hj
  exact ⟨n, hn, hat⟩

theorem Has.jump {t : Text} (h : code.Has pc "j" [t]) :
    ∃ n : Nat, code.labels.get? t = some n ∧ code.instr? pc = some (.jump n) := by
  obtain ⟨l, j, hj, hat⟩ := h.resolves (i := .jump t) fun _ _ => rfl
  obtain ⟨n, hn, rfl⟩ := exists_of_target_map hj
  exact ⟨n, hn, hat⟩

theorem Has.beqz {t : Text} (h : code.Has pc "beqz" ["$v0", t]) :
    ∃ n : Nat, code.labels.get? t = some n ∧ code.instr? pc = some (.beqz Reg.v0 n) := by
  obtain ⟨l, j, hj, hat⟩ := h.resolves (i := .beqz Reg.v0 t) fun _ _ => rfl
  obtain ⟨n, hn, rfl⟩ := exists_of_target_map hj
  exact ⟨n, hn, hat⟩

theorem Has.decode_ok (h : code.Has pc mnemonic operands) :
    ∃ number text i, AsmLine.decode ⟨number, [], mnemonic, operands, text⟩ = .ok i := by
  obtain ⟨number, text, located, -, hassemble⟩ := h
  refine ⟨number, text, ?_⟩
  unfold AsmLine.assemble at hassemble
  cases hdecode : AsmLine.decode ⟨number, [], mnemonic, operands, text⟩ with
  | error e =>
    rw [hdecode] at hassemble
    cases hassemble
  | ok i => exact ⟨i, rfl⟩

section Offsets

variable {reg : Text} {r : Reg} {n : Nat}

/-- An offset that was assembled is the one that was meant. -/
theorem Has.lw_slot (hreg : Assembly.RegName reg r)
    (h : code.Has pc "lw" [reg, Assembly.slot (4 * n)]) :
    ∃ offset : Int32, offset.toInt = 4 * n ∧ code.instr? pc = some (.lw r offset Reg.sp) := by
  obtain ⟨number, text, i, hdecode⟩ := h.decode_ok
  obtain ⟨hlo, hhi⟩ := AsmLine.fits_of_decode_lw hreg.reg hdecode
  exact ⟨Int32.ofInt (4 * n), Int32.toInt_ofInt_of_le hlo hhi,
    h.instr?_eq (AsmLine.decodes_lw_slot hreg.reg hlo hhi)⟩

theorem Has.sw_slot (hreg : Assembly.RegName reg r)
    (h : code.Has pc "sw" [reg, Assembly.slot (4 * n)]) :
    ∃ offset : Int32, offset.toInt = 4 * n ∧ code.instr? pc = some (.sw r offset Reg.sp) := by
  obtain ⟨number, text, i, hdecode⟩ := h.decode_ok
  obtain ⟨hlo, hhi⟩ := AsmLine.fits_of_decode_sw hreg.reg hdecode
  exact ⟨Int32.ofInt (4 * n), Int32.toInt_ofInt_of_le hlo hhi,
    h.instr?_eq (AsmLine.decodes_sw_slot hreg.reg hlo hhi)⟩

theorem Has.addu_sp (h : code.Has pc "addu" ["$sp", "$sp", Numeral.ofInt (4 * n)]) :
    ∃ offset : Int32, offset.toInt = 4 * n ∧
      code.instr? pc = some (.alu .addu Reg.sp Reg.sp (.imm offset)) := by
  obtain ⟨number, text, i, hdecode⟩ := h.decode_ok
  obtain ⟨hlo, hhi⟩ := AsmLine.fits_of_decode_addu hdecode
  exact ⟨Int32.ofInt (4 * n), Int32.toInt_ofInt_of_le hlo hhi,
    h.instr?_eq (AsmLine.decodes_addu_sp hlo hhi)⟩

end Offsets

theorem Holds.has_of_mem {ls : List Assembly.Line} (h : code.Holds pc ls)
    (hmem : .instr mnemonic operands ∈ ls) : ∃ at', code.Has at' mnemonic operands := by
  obtain ⟨before, after, rfl⟩ := List.append_of_mem hmem
  exact ⟨_, (holds_append.mp h).2.1⟩

end Code

end MiniPascal
