import MiniPascal.Proofs.Instructions
import MiniPascal.Proofs.Rows

/-! What the two passes of the assembler make of a text. The first pass counts the lines that hold an
instruction and gives every label the number of those in front of it; the second makes one instruction
of each such line. -/

namespace MiniPascal

namespace Text

/-- A line whose labels are labels, and that holds an instruction or a known directive or nothing. -/
structure Accepted (raw : Text) : Prop where
  labels : ∀ name ∈ raw.labelNames, AsmLine.isLabel name = true
  directive : raw.holdsInstr = false → raw.words = [] ∨ ∃ w ws, raw.words = w :: ws ∧
    (w.toLower = ".text" ∨ w.toLower = ".globl" ∧ ws.length = 1)

end Text

namespace AsmLine

theorem checkDirective_row_eq_ok_iff {number : Nat} {raw : Text} :
    (row number raw).checkDirective = .ok () ↔ raw.words = [] ∨ ∃ w ws, raw.words = w :: ws ∧
      (w.toLower = ".text" ∨ w.toLower = ".globl" ∧ ws.length = 1) := by
  have hother : Text.ofString ".globl" ≠ Text.ofString ".text" := by decide
  have hglobl : Text.ofString ".globl" ≠ [] := by decide
  cases hwords : raw.words with
  | nil => simp [checkDirective, row, hwords, Text.toLower_eq_nil_iff]
  | cons w ws =>
    have hne : w ≠ [] := ne_nil_of_mem_fields (hwords ▸ List.mem_cons_self)
    by_cases htext : w.toLower = Text.ofString ".text"
    · simp [checkDirective, row, hwords, htext]
    · by_cases hglob : w.toLower = Text.ofString ".globl"
      · by_cases hlen : ws.length = 1
        · simp [checkDirective, row, hwords, hglob, hlen, hother, hglobl]
        · simp [checkDirective, row, hwords, hglob, hlen, hother, hglobl, fail]
      · simp [checkDirective, row, hwords, htext, hglob, Text.toLower_eq_nil_iff, hne, fail]

end AsmLine

namespace Code

/-- The labels of some lines, in front of which `index` instructions stand, with their places. -/
def labelTable (index : Nat) : List Text → Table Nat
  | [] => []
  | raw :: raws =>
    raw.labelNames.map (·, index) ++ labelTable (if raw.holdsInstr then index + 1 else index) raws

/-- The lines that hold an instruction, taken apart. -/
def instrRows (number : Nat) (raws : List Text) : List AsmLine :=
  ((raws.zipIdx number).filter (·.1.holdsInstr)).map fun entry => AsmLine.row entry.2 entry.1

theorem instrRows_cons (number : Nat) (raw : Text) (raws : List Text) :
    instrRows number (raw :: raws) =
      (if raw.holdsInstr then [AsmLine.row number raw] else []) ++ instrRows (number + 1) raws := by
  by_cases hi : raw.holdsInstr = true <;> simp [instrRows, hi]

theorem names_labelTable (index : Nat) (raws : List Text) :
    (labelTable index raws).names = raws.flatMap Text.labelNames := by
  induction raws generalizing index with
  | nil => rfl
  | cons raw raws ih =>
    simp only [Table.names] at ih
    simp [labelTable, Table.names, ih, Function.comp_def]

theorem placeLabels_eq_ok_iff {l : AsmLine} {index : Nat} {names : List Text}
    {labels table : Table Nat} :
    placeLabels l index names labels = .ok table ↔
      (∀ name ∈ names, name ∉ labels.names) ∧ names.Nodup ∧
        table = labels ++ names.map (·, index) := by
  induction names generalizing labels with
  | nil => simp [placeLabels, eq_comm]
  | cons name names ih =>
    by_cases hmem : name ∈ labels.names
    · have hcontains := Table.contains_iff.mpr hmem
      simp [placeLabels, hcontains, AsmLine.fail, hmem]
    · have hcontains := Table.contains_eq_false_iff.mpr hmem
      have hset := Table.set_of_get?_eq_none (Table.get?_eq_none_iff.mpr hmem) index
      have hnames : (labels ++ [(name, index)]).names = labels.names ++ [name] := by
        simp [Table.names]
      simp only [placeLabels, hcontains, Bool.false_eq_true, if_false, hset, ih, hnames,
        List.mem_append, List.mem_singleton, List.forall_mem_cons, List.nodup_cons, List.map_cons,
        List.append_assoc, List.singleton_append, not_or]
      constructor
      · rintro ⟨hfresh, hnodup, rfl⟩
        exact ⟨⟨hmem, fun n hn => (hfresh n hn).1⟩, ⟨fun hn => (hfresh name hn).2 rfl, hnodup⟩, rfl⟩
      · rintro ⟨⟨-, hfresh⟩, ⟨hname, hnodup⟩, rfl⟩
        exact ⟨fun n hn => ⟨hfresh n hn, fun he => hname (he ▸ hn)⟩, hnodup, rfl⟩

theorem Layout.add_eq_ok_iff {found more : Layout} {number : Nat} {raw : Text} :
    found.add number raw = .ok more ↔
      raw.Accepted ∧ (∀ name ∈ raw.labelNames, name ∉ found.labels.names) ∧ raw.labelNames.Nodup ∧
        more = { instrs := found.instrs ++ (instrRows number [raw]).toArray
                 labels := found.labels ++ labelTable found.instrs.size [raw] } := by
  have htable : labelTable found.instrs.size [raw] = raw.labelNames.map (·, found.instrs.size) := by
    simp [labelTable]
  rw [add, AsmLine.bind_eq_ok_iff]
  simp only [AsmLine.ofText_eq_ok_iff, AsmLine.bind_eq_ok_iff, placeLabels_eq_ok_iff]
  constructor
  · rintro ⟨l, ⟨hlabels, rfl⟩, table, ⟨hfresh, hnodup, rfl⟩, hrest⟩
    rw [AsmLine.isInstr_row] at hrest
    by_cases hi : raw.holdsInstr = true
    · rw [if_pos hi] at hrest
      cases hrest
      refine ⟨⟨hlabels, fun h => ?_⟩, hfresh, hnodup, ?_⟩
      · rw [hi] at h
        cases h
      · simp [instrRows, hi, htable, AsmLine.row]
    · rw [if_neg hi, AsmLine.bind_eq_ok_iff] at hrest
      obtain ⟨_, hdirective, hmore⟩ := hrest
      cases hmore
      refine ⟨⟨hlabels, fun _ => ?_⟩, hfresh, hnodup, ?_⟩
      · exact AsmLine.checkDirective_row_eq_ok_iff.mp hdirective
      · simp [instrRows, hi, htable, AsmLine.row]
  · rintro ⟨haccepted, hfresh, hnodup, rfl⟩
    refine ⟨_, ⟨haccepted.labels, rfl⟩, _, ⟨hfresh, hnodup, rfl⟩, ?_⟩
    rw [AsmLine.isInstr_row]
    by_cases hi : raw.holdsInstr = true
    · rw [if_pos hi]
      simp [instrRows, hi, htable, AsmLine.row, pure, Except.pure]
    · have hdirective : (AsmLine.row number raw).checkDirective = .ok () :=
        AsmLine.checkDirective_row_eq_ok_iff.mpr (haccepted.directive (by simpa using hi))
      rw [if_neg hi, hdirective]
      simp [instrRows, hi, htable, AsmLine.row, pure, Except.pure, bind, Except.bind]

/-- The first pass succeeds on lines that it accepts and whose labels are new and all different. -/
theorem Layout.addAll_eq_ok_iff {found layout : Layout} {number : Nat} {raws : List Text} :
    found.addAll number raws = .ok layout ↔
      (∀ raw ∈ raws, raw.Accepted) ∧
        (∀ name ∈ raws.flatMap Text.labelNames, name ∉ found.labels.names) ∧
        (raws.flatMap Text.labelNames).Nodup ∧
        layout = { instrs := found.instrs ++ (instrRows number raws).toArray
                   labels := found.labels ++ labelTable found.instrs.size raws } := by
  induction raws generalizing found number with
  | nil => simp [addAll, instrRows, labelTable, eq_comm]
  | cons raw raws ih =>
    have hstep : found.addAll number (raw :: raws) = .ok layout ↔
        ∃ more, found.add number raw = .ok more ∧ more.addAll (number + 1) raws = .ok layout := by
      rw [addAll]
      cases found.add number raw <;> simp
    have hnames : (found.labels ++ labelTable found.instrs.size [raw]).names =
        found.labels.names ++ raw.labelNames := by
      simp [labelTable, Table.names, Function.comp_def]
    have hinstrs : found.instrs ++ (instrRows number [raw]).toArray ++
        (instrRows (number + 1) raws).toArray =
          found.instrs ++ (instrRows number (raw :: raws)).toArray := by
      rw [instrRows_cons number raw raws, instrRows_cons number raw []]
      simp [instrRows]
    have hlabels : found.labels ++ labelTable found.instrs.size [raw] ++
        labelTable (found.instrs ++ (instrRows number [raw]).toArray).size raws =
          found.labels ++ labelTable found.instrs.size (raw :: raws) := by
      by_cases hi : raw.holdsInstr = true <;> simp [labelTable, instrRows, hi]
    simp only [hstep, add_eq_ok_iff, ih]
    constructor
    · rintro ⟨more, ⟨hraw, hfresh, hnodup, rfl⟩, hraws, hfreshes, hnodups, rfl⟩
      simp only [hnames, List.mem_append, not_or] at hfreshes
      refine ⟨?_, ?_, ?_, ?_⟩
      · simpa using ⟨hraw, hraws⟩
      · intro name hname
        rcases List.mem_append.mp (List.flatMap_cons ▸ hname) with hname | hname
        · exact hfresh name hname
        · exact (hfreshes name hname).1
      · rw [List.flatMap_cons, List.nodup_append]
        exact ⟨hnodup, hnodups, fun a ha b hb he => (hfreshes b hb).2 (he ▸ ha)⟩
      · rw [hinstrs, hlabels]
    · rintro ⟨hraws, hfresh, hnodup, rfl⟩
      rw [List.flatMap_cons] at hfresh hnodup
      have hsplit := List.nodup_append.mp hnodup
      refine ⟨_, ⟨hraws raw (by simp), fun name hname => hfresh name (by simp [hname]), hsplit.1, rfl⟩,
        fun r hr => hraws r (by simp [hr]), ?_, hsplit.2.1, ?_⟩
      · intro name hname
        simp only [hnames, List.mem_append, not_or]
        exact ⟨hfresh name (List.mem_append_right _ hname),
          fun hraw => hsplit.2.2 name hraw name hname rfl⟩
      · rw [hinstrs, hlabels]

/-- A text is assembled if its lines are accepted, its labels are all different, each line that holds
an instruction can be decoded, and one label is `main`. -/
theorem ofText_eq_ok_iff {text : Text} {code : Code} :
    ofText text = .ok code ↔
      (∀ raw ∈ text.lines, raw.Accepted) ∧ (text.lines.flatMap Text.labelNames).Nodup ∧
        code.labels = labelTable 0 text.lines ∧
        List.Forall₂ (fun entry i => (AsmLine.row entry.2 entry.1).assemble code.labels = .ok i)
          ((text.lines.zipIdx 1).filter (·.1.holdsInstr)) code.instrs.toList ∧
        ∃ entry : Nat, code.labels.get? "main" = some entry ∧ code.entry = entry := by
  have hassemble : ∀ labels made, assembleLines labels #[] (instrRows 1 text.lines) = .ok made ↔
      List.Forall₂ (fun entry i => (AsmLine.row entry.2 entry.1).assemble labels = .ok i)
        ((text.lines.zipIdx 1).filter (·.1.holdsInstr)) made.toList := by
    intro labels made
    have hrows : (instrRows 1 text.lines).mapM (·.assemble labels) = .ok made.toList ↔
        List.Forall₂ (fun entry i => (AsmLine.row entry.2 entry.1).assemble labels = .ok i)
          ((text.lines.zipIdx 1).filter (·.1.holdsInstr)) made.toList := by
      rw [mapM_eq_ok_iff, instrRows, List.forall₂_map_left_iff]
    rw [assembleLines_eq, ← hrows]
    cases (instrRows 1 text.lines).mapM (·.assemble labels) with
    | error e => simp
    | ok rows => simp [← Array.toList_inj]
  have hfirst : ∀ layout, Layout.addAll {} 1 text.lines = .ok layout ↔
      (∀ raw ∈ text.lines, raw.Accepted) ∧ (text.lines.flatMap Text.labelNames).Nodup ∧
        layout = { instrs := (instrRows 1 text.lines).toArray, labels := labelTable 0 text.lines } := by
    intro layout
    rw [Layout.addAll_eq_ok_iff]
    simp [Table.names]
  rw [ofText, AsmLine.bind_eq_ok_iff]
  simp only [AsmLine.bind_eq_ok_iff, hfirst]
  constructor
  · rintro ⟨layout, ⟨haccepted, hnodup, rfl⟩, made, hmade, hentry⟩
    rw [hassemble] at hmade
    dsimp only at hentry
    split at hentry
    · cases hentry
    · rename_i entry hmain
      cases hentry
      exact ⟨haccepted, hnodup, rfl, hmade, entry, hmain, rfl⟩
  · rintro ⟨haccepted, hnodup, hlabels, hmade, entry, hmain, hentry⟩
    refine ⟨_, ⟨haccepted, hnodup, rfl⟩, code.instrs, ?_, ?_⟩
    · rw [hassemble, ← hlabels]
      exact hmade
    · rw [hlabels] at hmain
      dsimp only
      rw [hmain]
      obtain ⟨instrs, labels, start⟩ := code
      cases hlabels
      cases hentry
      rfl

end Code

namespace Instr

/-- The registers that an instruction names. -/
def registers {α : Type} : Instr α → List Reg
  | li rd _ => [rd]
  | lw rt _ base => [rt, base]
  | sw rt _ base => [rt, base]
  | move rd rs => [rd, rs]
  | alu _ rd rs (.reg rt) => [rd, rs, rt]
  | alu _ rd rs (.imm _) => [rd, rs]
  | div rd rs rt => [rd, rs, rt]
  | divmod rs rt => [rs, rt]
  | mfhi rd => [rd]
  | mflo rd => [rd]
  | beqz rs _ => [rs]
  | bnez rs _ => [rs]
  | jr rs => [rs]
  | _ => []

def mapTarget {α β : Type} (g : α → β) : Instr α → Instr β
  | li rd v => li rd v
  | lw rt offset base => lw rt offset base
  | sw rt offset base => sw rt offset base
  | move rd rs => move rd rs
  | alu op rd rs src => alu op rd rs src
  | div rd rs rt => div rd rs rt
  | divmod rs rt => divmod rs rt
  | mfhi rd => mfhi rd
  | mflo rd => mflo rd
  | beqz rs t => beqz rs (g t)
  | bnez rs t => bnez rs (g t)
  | jump t => jump (g t)
  | jal t => jal (g t)
  | jr rs => jr rs
  | syscall => syscall
  | illegal => illegal

section Resolve

variable {α β : Type}

@[simp] theorem registers_mapTarget (g : α → β) (i : Instr α) :
    (i.mapTarget g).registers = i.registers := by
  cases i with
  | alu op rd rs src => cases src <;> rfl
  | _ => rfl

@[simp] theorem target?_mapTarget (g : α → β) (i : Instr α) :
    (i.mapTarget g).target? = i.target?.map g := by
  cases i <;> rfl

theorem mapTarget_eq_illegal_iff {g : α → β} {i : Instr α} :
    i.mapTarget g = .illegal ↔ i = .illegal := by
  cases i <;> simp [mapTarget]

/-- To resolve an instruction is to replace its target. -/
theorem resolve_eq_ok_iff {f : Text → Except AssemblyError Int} {i : Instr Text} {j : Instr Int} :
    i.resolve f = .ok j ↔
      ∃ g : Text → Int, (∀ t, i.target? = some t → f t = .ok (g t)) ∧ j = i.mapTarget g := by
  have htarget : ∀ (t : Text) (make : Int → Instr Int), (f t).map make = .ok j ↔
      ∃ g : Text → Int, (∀ t', some t = some t' → f t' = .ok (g t')) ∧ j = make (g t) := by
    intro t make
    rw [AsmLine.map_eq_ok_iff]
    constructor
    · rintro ⟨n, hn, rfl⟩
      refine ⟨fun _ => n, fun t' ht => ?_, rfl⟩
      cases ht
      exact hn
    · rintro ⟨g, hg, rfl⟩
      exact ⟨g t, hg t rfl, rfl⟩
  have hplain : ∀ i' : Instr Int, Except.ok i' = (.ok j : Except AssemblyError (Instr Int)) ↔
      ∃ g : Text → Int, (∀ t, none = some t → f t = .ok (g t)) ∧ j = i' := by
    intro i'
    constructor
    · intro h
      exact ⟨fun _ => 0, fun t ht => absurd ht (by simp), (Except.ok.inj h).symm⟩
    · rintro ⟨-, -, rfl⟩
      rfl
  cases i with
  | beqz rs t => exact htarget t (beqz rs)
  | bnez rs t => exact htarget t (bnez rs)
  | jump t => exact htarget t jump
  | jal t => exact htarget t jal
  | _ => exact hplain _

end Resolve

end Instr

/-- A register that has a name. -/
def Reg.Named (r : Reg) : Prop := ∃ name, Reg.ofName? name = some r

namespace Denotes

variable {m : Text} {ops : List Text} {i : Instr Text}

theorem ne_illegal (h : Denotes m ops i) : i ≠ .illegal := by
  cases h <;> simp

theorem getLast?_of_target (h : Denotes m ops i) {name : Text} (ht : i.target? = some name) :
    ops.getLast? = some name := by
  cases h <;> simp_all [Instr.target?]

theorem named_registers (h : Denotes m ops i) : ∀ r ∈ i.registers, Reg.Named r := by
  have hnamed : ∀ {word : Text} {r : Reg}, Reg.ofName? word = some r → Reg.Named r :=
    fun hr => ⟨_, hr⟩
  have hbase : ∀ {word : Text} {n : Int32} {base : Reg}, Addresses word n base → Reg.Named base := by
    intro word n base h
    cases h with
    | plain _ hr => exact hnamed hr
    | offset _ _ _ _ hr => exact hnamed hr
  cases h with
  | li ha hb => simp [Instr.registers, hnamed ha]
  | lw ha hb => simp [Instr.registers, hnamed ha, hbase hb]
  | sw ha hb => simp [Instr.registers, hnamed ha, hbase hb]
  | move ha hb => simp [Instr.registers, hnamed ha, hnamed hb]
  | set hm ha hb hc =>
    cases hc with
    | reg _ hr => simp [Instr.registers, hnamed ha, hnamed hb, hnamed hr]
    | imm => simp [Instr.registers, hnamed ha, hnamed hb]
  | combine hm ha hb hc => simp [Instr.registers, hnamed ha, hnamed hb, hnamed hc]
  | div ha hb hc => simp [Instr.registers, hnamed ha, hnamed hb, hnamed hc]
  | divmod ha hb => simp [Instr.registers, hnamed ha, hnamed hb]
  | mfhi ha => simp [Instr.registers, hnamed ha]
  | mflo ha => simp [Instr.registers, hnamed ha]
  | beqz ha => simp [Instr.registers, hnamed ha]
  | bnez ha => simp [Instr.registers, hnamed ha]
  | jr ha => simp [Instr.registers, hnamed ha]
  | jump => simp [Instr.registers]
  | jal => simp [Instr.registers]
  | syscall => simp [Instr.registers]

end Denotes

namespace Text

/-- A line that holds the instruction `i`, if labels have the given places. -/
inductive Reads (labels : Table Nat) (raw : Text) : Instr Int → Prop where
  | mk {w : Text} {ws : List Text} {symbolic : Instr Text} {place : Text → Int}
      (hwords : raw.words = w :: ws) (hdenotes : Denotes w.toLower ws symbolic)
      (hplace : ∀ name, symbolic.target? = some name →
        ∃ n : Nat, labels.get? name = some n ∧ place name = n) :
    Reads labels raw (symbolic.mapTarget place)

section Reads

variable {labels : Table Nat} {raw : Text} {i : Instr Int}

theorem Reads.ne_illegal (h : raw.Reads labels i) : i ≠ .illegal := by
  obtain ⟨-, hdenotes, -⟩ := h
  exact fun hi => hdenotes.ne_illegal (Instr.mapTarget_eq_illegal_iff.mp hi)

theorem Reads.named_registers (h : raw.Reads labels i) : ∀ r ∈ i.registers, Reg.Named r := by
  obtain ⟨-, hdenotes, -⟩ := h
  rw [Instr.registers_mapTarget]
  exact hdenotes.named_registers

/-- A target is the place of the label that the line ends with. -/
theorem Reads.target (h : raw.Reads labels i) {t : Int} (ht : i.target? = some t) :
    ∃ (name : Text) (n : Nat),
      raw.words.getLast? = some name ∧ labels.get? name = some n ∧ t = n := by
  obtain ⟨hwords, hdenotes, hplace⟩ := h
  rw [Instr.target?_mapTarget, Option.map_eq_some_iff] at ht
  obtain ⟨name, hname, rfl⟩ := ht
  obtain ⟨n, hn, heq⟩ := hplace name hname
  have hlast := hdenotes.getLast?_of_target hname
  refine ⟨name, n, ?_, hn, heq⟩
  rw [hwords, List.getLast?_cons, hlast]
  rfl

end Reads

theorem exists_words_of_holdsInstr {raw : Text} (h : raw.holdsInstr = true) :
    ∃ w ws, raw.words = w :: ws := by
  apply List.exists_cons_of_ne_nil
  intro hnil
  have hhead := AsmLine.head?_fields (behindLabels (raw.before '#'))
  rw [words] at hnil
  rw [hnil] at hhead
  simp [holdsInstr, ← hhead] at h

end Text

theorem AsmLine.target_eq_ok_iff {l : AsmLine} {labels : Table Nat} {name : Text} {t : Int} :
    l.target labels name = .ok t ↔ ∃ n : Nat, labels.get? name = some n ∧ t = n := by
  cases hname : labels.get? name <;> simp [target, hname, fail, eq_comm]

theorem AsmLine.assemble_row_eq_ok_iff {number : Nat} {raw : Text} (hraw : raw.holdsInstr = true)
    {labels : Table Nat} {i : Located} :
    (row number raw).assemble labels = .ok i ↔
      raw.Reads labels i.instr ∧ i.line = number ∧ i.text = (raw.before '#').trim := by
  obtain ⟨w, ws, hwords⟩ := Text.exists_words_of_holdsInstr hraw
  have hmnemonic : (row number raw).mnemonic = w.toLower := by simp [row, hwords]
  have hoperands : (row number raw).operands = ws := by simp [row, hwords]
  simp only [assemble, bind_eq_ok_iff, decode_eq_ok_iff, hmnemonic, hoperands,
    Instr.resolve_eq_ok_iff, target_eq_ok_iff]
  constructor
  · rintro ⟨symbolic, hdenotes, _, ⟨place, hplace, rfl⟩, hi⟩
    cases hi
    exact ⟨.mk hwords hdenotes hplace, rfl, rfl⟩
  · rintro ⟨hreads, hline, htext⟩
    obtain ⟨instr, line, text⟩ := i
    cases hline
    cases htext
    cases hreads with
    | mk hwords' hdenotes hplace =>
      obtain ⟨rfl, rfl⟩ := List.cons.inj (hwords.symm.trans hwords')
      exact ⟨_, hdenotes, _, ⟨_, hplace, rfl⟩, rfl⟩

theorem Table.get?_eq_some_iff_mem {α : Type} {t : Table α} (h : t.names.Nodup) {name : Text} {v : α} :
    t.get? name = some v ↔ (name, v) ∈ t := by
  refine ⟨mem_of_get?, fun hmem => ?_⟩
  induction t with
  | nil => cases hmem
  | cons entry t ih =>
    obtain ⟨other, w⟩ := entry
    have hnodup : other ∉ names t ∧ (names t).Nodup := by simpa [names] using h
    rw [get?_cons]
    rcases List.mem_cons.mp hmem with heq | hrest
    · cases heq
      rw [if_pos rfl]
    · have hne : name ≠ other := by
        rintro rfl
        exact hnodup.1 (List.mem_map.mpr ⟨(name, v), hrest, rfl⟩)
      rw [if_neg hne, ih hnodup.2 hrest]

namespace Code

/-- A label's place is the number of instructions in front of the line that defines it. -/
theorem mem_labelTable_iff {index : Nat} {raws : List Text} {name : Text} {n : Nat} :
    (name, n) ∈ labelTable index raws ↔
      ∃ before raw after, raws = before ++ raw :: after ∧ name ∈ raw.labelNames ∧
        n = index + before.countP Text.holdsInstr := by
  induction raws generalizing index with
  | nil => simp [labelTable]
  | cons first raws ih =>
    have hnext : ∀ before : List Text,
        (if first.holdsInstr then index + 1 else index) + before.countP Text.holdsInstr =
          index + (first :: before).countP Text.holdsInstr := by
      intro before
      by_cases hi : first.holdsInstr = true
      · simp only [hi, if_true, List.countP_cons_of_pos]
        omega
      · simp [hi]
    rw [labelTable, List.mem_append, ih]
    constructor
    · rintro (hmem | ⟨before, raw, after, rfl, hname, rfl⟩)
      · obtain ⟨name', hname, heq⟩ := List.mem_map.mp hmem
        cases heq
        exact ⟨[], first, raws, rfl, hname, rfl⟩
      · exact ⟨first :: before, raw, after, rfl, hname, hnext before⟩
    · rintro ⟨before, raw, after, hraws, hname, rfl⟩
      cases before with
      | nil =>
        cases hraws
        exact .inl (List.mem_map.mpr ⟨name, hname, rfl⟩)
      | cons first' before =>
        cases hraws
        exact .inr ⟨before, raw, after, rfl, hname, (hnext before).symm⟩

/-- The instruction `i` is the one that line `entry.1` holds, with the number `entry.2`. -/
structure Executes (code : Code) (entry : Text × Nat) (i : Located) : Prop where
  line : i.line = entry.2
  text : i.text = (entry.1.before '#').trim
  reads : entry.1.Reads code.labels i.instr
  target : ∀ t, i.instr.target? = some t → ∃ (name : Text) (n : Nat),
    entry.1.words.getLast? = some name ∧ code.labels.get? name = some n ∧ t = n ∧
      n ≤ code.instrs.size
  registers : ∀ r ∈ i.instr.registers, Reg.Named r ∧ (r : Nat) < 32

/-- Code that says what a text says. -/
structure WellFormed (text : Text) (code : Code) : Prop where
  instrs : List.Forall₂ code.Executes ((text.lines.zipIdx 1).filter (·.1.holdsInstr))
    code.instrs.toList
  labels : ∀ (name : Text) (place : Nat), code.labels.get? name = some place ↔
    ∃ before raw after, text.lines = before ++ raw :: after ∧ name ∈ raw.labelNames ∧
      place = before.countP Text.holdsInstr
  entry : ∃ entry : Nat, code.labels.get? "main" = some entry ∧ code.entry = entry

theorem exists_of_forall₂ {α β : Type} {R : α → β → Prop} {as : List α} {bs : List β}
    (h : List.Forall₂ R as bs) {b : β} (hb : b ∈ bs) : ∃ a ∈ as, R a b := by
  induction h with
  | nil => cases hb
  | cons hab _ ih =>
    rcases List.mem_cons.mp hb with rfl | hb
    · exact ⟨_, by simp, hab⟩
    · obtain ⟨a, ha, hr⟩ := ih hb
      exact ⟨a, by simp [ha], hr⟩

theorem executes_of_assemble {code : Code} {entry : Text × Nat} {i : Located}
    (hbound : ∀ {name : Text} {n : Nat}, code.labels.get? name = some n → n ≤ code.instrs.size)
    (hraw : entry.1.holdsInstr = true)
    (h : (AsmLine.row entry.2 entry.1).assemble code.labels = .ok i) : code.Executes entry i := by
  obtain ⟨hreads, hline, htext⟩ := (AsmLine.assemble_row_eq_ok_iff hraw).mp h
  refine ⟨hline, htext, hreads, fun t ht => ?_, fun r hr => ⟨hreads.named_registers r hr, r.isLt⟩⟩
  obtain ⟨name, n, hlast, hn, heq⟩ := hreads.target ht
  exact ⟨name, n, hlast, hn, heq, hbound hn⟩

theorem length_filter_zipIdx (raws : List Text) (number : Nat) :
    ((raws.zipIdx number).filter (·.1.holdsInstr)).length = raws.countP Text.holdsInstr := by
  induction raws generalizing number with
  | nil => rfl
  | cons raw raws ih => by_cases hi : raw.holdsInstr = true <;> simp [hi, ih]

theorem wellFormed_of_ofText {text : Text} {code : Code} (h : ofText text = .ok code) :
    WellFormed text code := by
  obtain ⟨haccepted, hnodup, hlabels, hinstrs, hentry⟩ := ofText_eq_ok_iff.mp h
  have hplaces : ∀ (name : Text) (place : Nat), code.labels.get? name = some place ↔
      ∃ before raw after, text.lines = before ++ raw :: after ∧ name ∈ raw.labelNames ∧
        place = before.countP Text.holdsInstr := by
    intro name place
    rw [hlabels, Table.get?_eq_some_iff_mem (names_labelTable 0 text.lines ▸ hnodup),
      mem_labelTable_iff]
    simp only [Nat.zero_add]
  have hsize : code.instrs.size = text.lines.countP Text.holdsInstr := by
    rw [← length_filter_zipIdx text.lines 1, hinstrs.length_eq, Array.length_toList]
  have hbound : ∀ {name : Text} {n : Nat}, code.labels.get? name = some n →
      n ≤ code.instrs.size := by
    intro name n hn
    obtain ⟨before, raw, after, hsplit, -, rfl⟩ := (hplaces name n).mp hn
    rw [hsize, hsplit, List.countP_append]
    omega
  have hexecutes : List.Forall₂ code.Executes ((text.lines.zipIdx 1).filter (·.1.holdsInstr))
      code.instrs.toList := by
    have hraws : ∀ entry ∈ (text.lines.zipIdx 1).filter (·.1.holdsInstr), entry.1.holdsInstr = true :=
      fun entry hentry => (List.mem_filter.mp hentry).2
    exact ((List.forall₂_and_left _ _).mpr ⟨hraws, hinstrs⟩).imp fun entry i ⟨hraw, hi⟩ =>
      executes_of_assemble hbound hraw hi
  exact ⟨hexecutes, hplaces, hentry⟩

theorem WellFormed.executes_of_fetch {text : Text} {code : Code} (h : WellFormed text code) {pc : Int}
    {i : Located} (hi : code.fetch pc = some i) : ∃ entry, code.Executes entry i := by
  have hmem : i ∈ code.instrs.toList := by
    rw [fetch] at hi
    split at hi
    · exact Array.mem_toList_iff.mpr (Array.mem_of_getElem? hi)
    · cases hi
  obtain ⟨entry, -, hexecutes⟩ := exists_of_forall₂ h.instrs hmem
  exact ⟨entry, hexecutes⟩

theorem ne_illegal_of_ofText {text : Text} {code : Code} (h : ofText text = .ok code) {pc : Int}
    {i : Located} (hi : code.fetch pc = some i) : i.instr ≠ .illegal := by
  obtain ⟨entry, hexecutes⟩ := (wellFormed_of_ofText h).executes_of_fetch hi
  exact hexecutes.reads.ne_illegal

/-- The line behind some lines that hold `k` instructions has the index `k` among the instructions. -/
theorem getElem?_filter_zipIdx (above below : List Text) {raw : Text} (hraw : raw.holdsInstr = true)
    (number : Nat) :
    (((above ++ raw :: below).zipIdx number).filter (·.1.holdsInstr))[above.countP Text.holdsInstr]? =
      some (raw, number + above.length) := by
  rw [List.zipIdx_append, List.filter_append, ← length_filter_zipIdx above number,
    List.getElem?_append_right le_rfl, Nat.sub_self, List.zipIdx_cons,
    List.filter_cons_of_pos (by exact hraw)]
  rfl

theorem fetch_of_lines {text : Text} {code : Code} (h : ofText text = .ok code)
    {above below : List Text} {raw : Text} (hlines : text.lines = above ++ raw :: below)
    (hraw : raw.holdsInstr = true) :
    ∃ i, code.fetch (above.countP Text.holdsInstr : Nat) = some i ∧
      (AsmLine.row (above.length + 1) raw).assemble code.labels = .ok i := by
  obtain ⟨-, -, -, hinstrs, -⟩ := ofText_eq_ok_iff.mp h
  have hentry := getElem?_filter_zipIdx above below hraw 1
  rw [← hlines] at hentry
  obtain ⟨hlength, hget⟩ := List.forall₂_iff_get.mp hinstrs
  obtain ⟨hlt, hentry⟩ := List.getElem?_eq_some_iff.mp hentry
  have hi := hget _ hlt (hlength ▸ hlt)
  rw [List.get_eq_getElem, hentry, Nat.add_comm] at hi
  refine ⟨_, ?_, hi⟩
  rw [fetch_natCast, List.get_eq_getElem, Array.getElem_toList]
  exact Array.getElem?_eq_getElem _

end Code

end MiniPascal
