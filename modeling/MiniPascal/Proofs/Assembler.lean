import MiniPascal.Proofs.Lines

/-! The code that clean lines assemble to. Its instructions are those of the lines, in order, and a
label stands for the number of instructions before it. -/

namespace MiniPascal

namespace Table

variable {α : Type}

theorem set_of_get?_eq_none {t : Table α} {name : Text} (h : t.get? name = none) (v : α) :
    t.set name v = t ++ [(name, v)] := by
  induction t with
  | nil => rfl
  | cons entry rest ih =>
    obtain ⟨other, w⟩ := entry
    rw [get?_cons] at h
    by_cases he : name = other
    · simp [he] at h
    · rw [if_neg he] at h
      rw [set, if_neg (Ne.symm he), ih h, List.cons_append]

theorem get?_eq_none_iff {t : Table α} {name : Text} : t.get? name = none ↔ name ∉ t.names := by
  induction t with
  | nil => simp [names]
  | cons entry rest ih =>
    obtain ⟨other, w⟩ := entry
    rw [get?_cons]
    by_cases he : name = other
    · simp [he, names]
    · rw [if_neg he, ih]
      simp [names, he]

theorem contains_eq_false_iff {t : Table α} {name : Text} :
    t.contains name = false ↔ name ∉ t.names := by
  rw [← get?_eq_none_iff, contains, Option.isSome_eq_false_iff, Option.isNone_iff_eq_none]

theorem contains_iff {t : Table α} {name : Text} : t.contains name = true ↔ name ∈ t.names := by
  rw [← Bool.not_eq_false, contains_eq_false_iff, not_not]

theorem mem_of_get? {t : Table α} {name : Text} {v : α}
    (h : t.get? name = some v) : (name, v) ∈ t := by
  induction t with
  | nil => cases h
  | cons entry t ih =>
    obtain ⟨other, w⟩ := entry
    rw [get?_cons] at h
    by_cases hname : name = other
    · rw [if_pos hname] at h
      cases h
      exact hname ▸ List.mem_cons_self
    · rw [if_neg hname] at h
      exact List.mem_cons_of_mem _ (ih h)

theorem get?_append (s t : Table α) (name : Text) :
    get? (s ++ t) name = (s.get? name).or (t.get? name) := by
  induction s with
  | nil => rfl
  | cons entry rest ih =>
    obtain ⟨other, w⟩ := entry
    rw [List.cons_append, get?_cons, get?_cons, ih]
    split <;> simp

end Table

namespace Assembly

namespace Line

/-- The labels that a line defines. -/
def defines : Line → List Text
  | label name => [name]
  | marked name _ => [name]
  | _ => []

def isInstr : Line → Bool
  | instr .. => true
  | _ => false

@[simp] theorem labels_toAsm (number : Nat) (l : Line) : (l.toAsm number).labels = l.defines := by
  cases l <;> rfl

theorem Clean.isInstr_toAsm {l : Line} (h : l.Clean) (number : Nat) :
    (l.toAsm number).isInstr = l.isInstr := by
  cases l with
  | instr mnemonic operands =>
    have hm : mnemonic ≠ [] := h.1.1
    simp [AsmLine.isInstr, toAsm, isInstr, hm, h.2.2.1]
  | plain t => rcases h with rfl | rfl <;> rfl
  | _ => rfl

theorem Clean.checkDirective_toAsm {l : Line} (h : l.Clean) (hi : l.isInstr = false) (number : Nat) :
    (l.toAsm number).checkDirective = .ok () := by
  cases l with
  | instr mnemonic operands => cases hi
  | plain t => rcases h with rfl | rfl <;> rfl
  | _ => rfl

end Line

/-- The number of instructions in some lines. -/
def codeSize (ls : List Line) : Nat := ls.countP Line.isInstr

@[simp] theorem codeSize_nil : codeSize [] = 0 := rfl

@[simp] theorem codeSize_append (a b : List Line) : codeSize (a ++ b) = codeSize a + codeSize b :=
  List.countP_append

@[simp] theorem codeSize_instr (m : Text) (ops : List Text) (ls : List Line) :
    codeSize (.instr m ops :: ls) = codeSize ls + 1 := List.countP_cons_of_pos rfl

@[simp] theorem codeSize_label (name : Text) (ls : List Line) :
    codeSize (.label name :: ls) = codeSize ls := List.countP_cons_of_neg Bool.false_ne_true

@[simp] theorem codeSize_marked (name remark : Text) (ls : List Line) :
    codeSize (.marked name remark :: ls) = codeSize ls := List.countP_cons_of_neg Bool.false_ne_true

@[simp] theorem codeSize_comment (remark : Text) (ls : List Line) :
    codeSize (.comment remark :: ls) = codeSize ls := List.countP_cons_of_neg Bool.false_ne_true

@[simp] theorem codeSize_plain (t : Text) (ls : List Line) :
    codeSize (.plain t :: ls) = codeSize ls := List.countP_cons_of_neg Bool.false_ne_true

/-- The instruction lines among some lines that are numbered from `number` on. -/
def instrLines (number : Nat) : List Line → List AsmLine
  | [] => []
  | l :: ls =>
    if l.isInstr then l.toAsm number :: instrLines (number + 1) ls else instrLines (number + 1) ls

/-- The labels of some lines, in front of which `index` instructions stand, with their places. -/
def labelPlaces (index : Nat) : List Line → Table Nat
  | [] => []
  | l :: ls =>
    l.defines.map (·, index) ++ labelPlaces (if l.isInstr then index + 1 else index) ls

theorem names_labelPlaces (index : Nat) (ls : List Line) :
    (labelPlaces index ls).names = ls.flatMap Line.defines := by
  induction ls generalizing index with
  | nil => rfl
  | cons l ls ih =>
    simp only [Table.names] at ih
    simp [labelPlaces, Table.names, ih, Function.comp_def]

theorem instrLines_getElem? (number : Nat) (before : List Line) {l : Line} (hl : l.isInstr = true)
    (after : List Line) :
    (instrLines number (before ++ l :: after))[codeSize before]? =
      some (l.toAsm (number + before.length)) := by
  induction before generalizing number with
  | nil => simp [instrLines, hl]
  | cons k before ih =>
    have hn : number + 1 + before.length = number + (k :: before).length := by
      simp only [List.length_cons]
      omega
    by_cases hk : k.isInstr = true
    · have hs : codeSize (k :: before) = codeSize before + 1 := by simp [codeSize, hk]
      rw [List.cons_append, instrLines, if_pos hk, hs, List.getElem?_cons_succ, ih, hn]
    · have hs : codeSize (k :: before) = codeSize before := by simp [codeSize, hk]
      rw [List.cons_append, instrLines, if_neg hk, hs, ih, hn]

theorem length_instrLines (number : Nat) (ls : List Line) :
    (instrLines number ls).length = codeSize ls := by
  induction ls generalizing number with
  | nil => rfl
  | cons l ls ih => by_cases hl : l.isInstr = true <;> simp [instrLines, hl, ih, codeSize]

theorem labelPlaces_get? (index : Nat) (before : List Line) {l : Line} {name : Text}
    (hl : name ∈ l.defines) (after : List Line)
    (hn : ((before ++ l :: after).flatMap Line.defines).Nodup) :
    (labelPlaces index (before ++ l :: after)).get? name = some (index + codeSize before) := by
  induction before generalizing index with
  | nil =>
    have hd : l.defines = [name] := by
      cases l <;> simp_all [Line.defines]
    simp [labelPlaces, hd, Table.get?_cons]
  | cons k before ih =>
    have hnk : name ∉ k.defines := by
      intro hk
      rw [List.cons_append, List.flatMap_cons] at hn
      refine List.disjoint_of_nodup_append hn hk ?_
      simp only [List.flatMap_append, List.flatMap_cons, List.mem_append]
      exact .inr (.inl hl)
    have hk : Table.get? (k.defines.map (·, index)) name = none := by
      rw [Table.get?_eq_none_iff]
      simpa [Table.names, Function.comp_def] using hnk
    have hrest : ((before ++ l :: after).flatMap Line.defines).Nodup := by
      rw [List.cons_append, List.flatMap_cons] at hn
      exact (List.nodup_append.mp hn).2.1
    rw [List.cons_append, labelPlaces, Table.get?_append, hk, Option.none_or, ih _ hrest]
    by_cases hi : k.isInstr = true
    · simp [codeSize, hi]
      omega
    · simp [codeSize, hi]

end Assembly

open Assembly

namespace Code

theorem Layout.add_body {l : Line} (h : l.Clean) (found : Layout) (number : Nat)
    (hf : ∀ name ∈ l.defines, name ∉ found.labels.names) :
    found.add number l.body = .ok
      { instrs := if l.isInstr then found.instrs.push (l.toAsm number) else found.instrs
        labels := found.labels ++ l.defines.map (·, found.instrs.size) } := by
  have hp : placeLabels (l.toAsm number) found.instrs.size l.defines found.labels =
      .ok (found.labels ++ l.defines.map (·, found.instrs.size)) := by
    have hone : ∀ name, name ∉ found.labels.names →
        placeLabels (l.toAsm number) found.instrs.size [name] found.labels =
          .ok (found.labels ++ [(name, found.instrs.size)]) := by
      intro name hname
      rw [placeLabels, Table.contains_eq_false_iff.mpr hname, if_neg (by simp), placeLabels,
        Table.set_of_get?_eq_none (Table.get?_eq_none_iff.mpr hname)]
    cases l with
    | label name => exact hone name (hf name (by simp [Line.defines]))
    | marked name remark => exact hone name (hf name (by simp [Line.defines]))
    | instr => simp [Line.defines, placeLabels]
    | comment => simp [Line.defines, placeLabels]
    | plain => simp [Line.defines, placeLabels]
  simp only [add, Line.ofText_body h, bind, Except.bind, Line.labels_toAsm, hp,
    h.isInstr_toAsm number]
  cases hi : l.isInstr with
  | true => rfl
  | false =>
    simp only [Bool.false_eq_true, if_false, h.checkDirective_toAsm hi number]
    rfl

/-- The first pass over the text of clean lines, and over the empty line behind its last line feed,
finds their instructions and labels. -/
theorem Layout.addAll_body {ls : List Line} (hc : ∀ l ∈ ls, l.Clean) (found : Layout) (number : Nat)
    (hn : (found.labels.names ++ ls.flatMap Line.defines).Nodup) :
    found.addAll number (ls.map Line.body ++ [[]]) = .ok
      { instrs := found.instrs ++ (instrLines number ls).toArray
        labels := found.labels ++ labelPlaces found.instrs.size ls } := by
  induction ls generalizing found number with
  | nil =>
    have he : found.add number [] = .ok found := rfl
    simp [addAll, he, instrLines, labelPlaces]
  | cons l ls ih =>
    have hf : ∀ name ∈ l.defines, name ∉ found.labels.names := by
      intro name hl hm
      exact List.disjoint_of_nodup_append hn hm (by simp [hl])
    rw [List.map_cons, List.cons_append, addAll, add_body (hc l (by simp)) found number hf]
    have hnames : (found.labels ++ l.defines.map (·, found.instrs.size)).names =
        found.labels.names ++ l.defines := by
      simp [Table.names, Function.comp_def]
    simp only
    rw [ih (fun k hk => hc k (by simp [hk]))]
    · cases hi : l.isInstr <;> simp [instrLines, labelPlaces, hi]
    · rw [hnames, List.append_assoc, ← List.flatMap_cons]
      exact hn

theorem lines_render {ls : List Line} (hc : ∀ l ∈ ls, l.Clean) :
    Text.lines (ls.flatMap Line.render) = ls.map Line.body ++ [[]] := by
  induction ls with
  | nil => rfl
  | cons l ls ih =>
    have hl := (hc l (by simp)).newline_not_mem
    rw [List.flatMap_cons, Line.render_eq, List.append_assoc, List.singleton_append, Text.lines,
      List.splitOn_append_cons_self_of_not_mem hl, List.map_cons, List.cons_append]
    exact congrArg _ (ih fun k hk => hc k (by simp [hk]))

theorem assembleLines_eq (labels : Table Nat) (done : Array Located) (ls : List AsmLine) :
    assembleLines labels done ls =
      match ls.mapM (·.assemble labels) with
      | .ok made => .ok (done ++ made.toArray)
      | .error e => .error e := by
  induction ls generalizing done with
  | nil => simp [assembleLines, pure, Except.pure]
  | cons l ls ih =>
    rw [assembleLines, List.mapM_cons]
    cases h : l.assemble labels with
    | error e => rfl
    | ok located =>
      simp only [ih]
      cases ls.mapM (·.assemble labels) with
      | error e => rfl
      | ok made => simp [bind, Except.bind, pure, Except.pure]

/-- The code of clean lines whose labels are all different. -/
theorem ofText_render {ls : List Line} (hc : ∀ l ∈ ls, l.Clean)
    (hn : (ls.flatMap Line.defines).Nodup) :
    ofText (ls.flatMap Line.render) =
      match (instrLines 1 ls).mapM (·.assemble (labelPlaces 0 ls)) with
      | .error e => .error e
      | .ok made =>
        match (labelPlaces 0 ls).get? "main" with
        | none => .error .noMain
        | some entry => .ok { instrs := made.toArray, labels := labelPlaces 0 ls, entry } := by
  rw [ofText, lines_render hc, Layout.addAll_body hc {} 1 (by simpa [Table.names] using hn)]
  simp only [bind, Except.bind, Array.empty_append, List.nil_append,
    assembleLines_eq, List.size_toArray, List.length_nil]
  cases (instrLines 1 ls).mapM (·.assemble (labelPlaces 0 ls)) with
  | error e => rfl
  | ok made => rfl

/-- The instruction at an index. -/
def instr? (code : Code) (pc : Nat) : Option (Instr Int) := (code.fetch pc).map Located.instr

/-- At an index stands the instruction that a mnemonic and operands assemble to. -/
def Has (code : Code) (pc : Nat) (mnemonic : Text) (operands : List Text) : Prop :=
  ∃ number text located, code.fetch pc = some located ∧
    AsmLine.assemble code.labels ⟨number, [], mnemonic, operands, text⟩ = .ok located

/-- The code holds some lines from an index on: their instructions stand there, and their labels
have the places that they have among them. -/
def Holds (code : Code) : Nat → List Line → Prop
  | _, [] => True
  | pc, .instr mnemonic operands :: ls => code.Has pc mnemonic operands ∧ code.Holds (pc + 1) ls
  | pc, .label name :: ls => code.labels.get? name = some pc ∧ code.Holds pc ls
  | pc, .marked name _ :: ls => code.labels.get? name = some pc ∧ code.Holds pc ls
  | pc, .comment _ :: ls => code.Holds pc ls
  | pc, .plain _ :: ls => code.Holds pc ls

theorem holds_append {code : Code} {pc : Nat} {a b : List Line} :
    code.Holds pc (a ++ b) ↔ code.Holds pc a ∧ code.Holds (pc + codeSize a) b := by
  induction a generalizing pc with
  | nil => simp [Holds]
  | cons l a ih =>
    cases l with
    | instr m ops =>
      simp only [List.cons_append, Holds, ih, codeSize_instr, and_assoc, Nat.add_assoc,
        Nat.add_comm 1]
    | _ => simp [Holds, ih, and_assoc]

theorem fetch_natCast (code : Code) (pc : Nat) : code.fetch pc = code.instrs[pc]? := by
  simp [fetch]

theorem mapM_eq_ok_iff {α β ε : Type} {f : α → Except ε β} {as : List α} {bs : List β} :
    as.mapM f = .ok bs ↔ List.Forall₂ (fun a b => f a = .ok b) as bs := by
  induction as generalizing bs with
  | nil => cases bs <;> simp [pure, Except.pure]
  | cons a as ih =>
    rw [List.mapM_cons]
    cases ha : f a with
    | error e => cases bs <;> simp [bind, Except.bind, ha]
    | ok b =>
      cases has : as.mapM f with
      | error e => cases bs <;> simp [bind, Except.bind, ha, has, ← ih]
      | ok rest => cases bs <;> simp [bind, Except.bind, pure, Except.pure, ha, has, ← ih]

theorem mapM_getElem? {ls : List AsmLine} {labels : Table Nat} {made : List Located}
    (h : ls.mapM (·.assemble labels) = .ok made) {i : Nat} {l : AsmLine} (hl : ls[i]? = some l) :
    ∃ located, made[i]? = some located ∧ l.assemble labels = .ok located := by
  obtain ⟨hlength, hall⟩ := List.forall₂_iff_get.mp (mapM_eq_ok_iff.mp h)
  obtain ⟨hi, rfl⟩ := List.getElem?_eq_some_iff.mp hl
  have hmade : i < made.length := hlength ▸ hi
  exact ⟨made.get ⟨i, hmade⟩, List.getElem?_eq_getElem hmade, hall i hi hmade⟩

/-- Code that was assembled from clean lines with different labels. -/
structure Assembles (ls : List Line) (code : Code) : Prop where
  holds : code.Holds 0 ls
  labels : code.labels = labelPlaces 0 ls
  size : code.instrs.size = codeSize ls
  entry : ∃ entry, code.labels.get? "main" = some entry ∧ code.entry = entry

theorem assembles_of_ofText {ls : List Line} {code : Code} (hc : ∀ l ∈ ls, l.Clean)
    (hn : (ls.flatMap Line.defines).Nodup) (h : ofText (ls.flatMap Line.render) = .ok code) :
    Assembles ls code := by
  rw [ofText_render hc hn] at h
  split at h
  · cases h
  rename_i made hmade
  split at h
  · cases h
  rename_i entry hentry
  cases h
  refine ⟨?_, rfl, by simp [← (mapM_eq_ok_iff.mp hmade).length_eq, length_instrLines], entry, hentry, rfl⟩
  have key : ∀ after before, ls = before ++ after →
      Holds ⟨made.toArray, labelPlaces 0 ls, entry⟩ (codeSize before) after := by
    intro after
    induction after with
    | nil => exact fun _ _ => trivial
    | cons l after ih =>
      intro before hls
      have hrest := ih (before ++ [l]) (by simp [hls])
      have hplace : ∀ name ∈ l.defines,
          (labelPlaces 0 ls).get? name = some (codeSize before) := by
        intro name hname
        have := labelPlaces_get? 0 before hname after (hls ▸ hn)
        rwa [← hls, Nat.zero_add] at this
      rw [codeSize_append] at hrest
      cases l with
      | instr m ops =>
        have hl := instrLines_getElem? 1 before (l := .instr m ops) rfl after
        rw [← hls] at hl
        obtain ⟨located, hloc, hasm⟩ := mapM_getElem? hmade hl
        exact ⟨⟨_, _, located, by simpa [fetch_natCast] using hloc, hasm⟩, hrest⟩
      | label name => exact ⟨hplace name (by simp [Line.defines]), hrest⟩
      | marked name remark => exact ⟨hplace name (by simp [Line.defines]), hrest⟩
      | comment remark => exact hrest
      | plain t => exact hrest
  exact key ls [] rfl

end Code

end MiniPascal
