import MiniPascal.Proofs.AssembledCode

/-! The layout of an assembly text does not matter. The assembler sees a sequence of labels and
statements; blanks, commas, comments, the case of mnemonics and the distribution over lines change
nothing in it. -/

namespace MiniPascal

/-- What the assembler sees in a text, one after the other. -/
inductive Part where
  | label (name : Text)
  | statement (mnemonic : Text) (operands : List Text)

namespace Part

def isInstr : Part → Bool
  | label _ => false
  | statement m _ => m.head? ≠ some (.char '.')

def name? : Part → Option Text
  | label name => some name
  | statement _ _ => none

/-- A part that is in order by itself. -/
def Accepted : Part → Prop
  | label name => AsmLine.isLabel name = true
  | statement m operands =>
    m.head? = some (.char '.') → m = ".text" ∨ m = ".globl" ∧ operands.length = 1

/-- A statement that is the instruction `i`, if labels have the given places. -/
inductive Reads (labels : Table Nat) : Part → Instr Int → Prop where
  | mk {m : Text} {operands : List Text} {symbolic : Instr Text} {place : Text → Int}
      (hdenotes : Denotes m operands symbolic)
      (hplace : ∀ name, symbolic.target? = some name →
        ∃ n : Nat, labels.get? name = some n ∧ place name = n) :
    Reads labels (.statement m operands) (symbolic.mapTarget place)

/-- The labels among some parts, in front of which `index` instructions stand, with their places. -/
def table (index : Nat) : List Part → Table Nat
  | [] => []
  | label name :: parts => (name, index) :: table index parts
  | statement m operands :: parts =>
    table (if (statement m operands).isInstr then index + 1 else index) parts

theorem table_labels_append (index : Nat) (names : List Text) (parts : List Part) :
    table index (names.map label ++ parts) = names.map (·, index) ++ table index parts := by
  induction names with
  | nil => rfl
  | cons name names ih => simp [table, ih]

end Part

namespace Text

def parts (raw : Text) : List Part :=
  raw.labelNames.map .label ++ raw.words.head?.toList.map fun w => .statement w.toLower raw.words.tail

section Parts

variable {raw : Text} {w : Text} {ws : List Text}

theorem parts_of_nil (h : raw.words = []) : raw.parts = raw.labelNames.map .label := by
  simp [parts, h]

theorem parts_of_cons (h : raw.words = w :: ws) :
    raw.parts = raw.labelNames.map .label ++ [.statement w.toLower ws] := by
  simp [parts, h]

theorem holdsInstr_of_nil (h : raw.words = []) : raw.holdsInstr = false := by
  rw [← AsmLine.isInstr_row 0 raw]
  simp [AsmLine.isInstr, AsmLine.row, h, toLower_eq_nil_iff]

theorem holdsInstr_of_cons (h : raw.words = w :: ws) :
    raw.holdsInstr = (Part.statement w.toLower ws).isInstr := by
  have hne : w ≠ [] := AsmLine.ne_nil_of_mem_fields (h ▸ List.mem_cons_self)
  rw [← AsmLine.isInstr_row 0 raw]
  simp [AsmLine.isInstr, AsmLine.row, Part.isInstr, h, toLower_eq_nil_iff, hne]

theorem accepted_iff : raw.Accepted ↔ ∀ p ∈ raw.parts, p.Accepted := by
  cases hwords : raw.words with
  | nil =>
    rw [parts_of_nil hwords]
    refine ⟨fun h => ?_, fun h => ⟨?_, fun _ => .inl hwords⟩⟩
    · simpa [Part.Accepted] using h.labels
    · simpa [Part.Accepted] using h
  | cons w ws =>
    have hinstr := holdsInstr_of_cons hwords
    rw [parts_of_cons hwords]
    refine ⟨fun h p hp => ?_, fun h => ⟨fun name hname => ?_, fun hi => .inr ⟨w, ws, hwords, ?_⟩⟩⟩
    · rcases List.mem_append.mp hp with hp | hp
      · obtain ⟨name, hname, rfl⟩ := List.mem_map.mp hp
        exact h.labels name hname
      · rw [List.mem_singleton.mp hp]
        intro hperiod
        have hi : raw.holdsInstr = false := by simp [hinstr, Part.isInstr, hperiod]
        rcases h.directive hi with hnil | ⟨w', ws', hwords', hdirective⟩
        · cases hwords.symm.trans hnil
        · obtain ⟨rfl, rfl⟩ := List.cons.inj (hwords.symm.trans hwords')
          exact hdirective
    · exact h (.label name) (List.mem_append_left _ (List.mem_map_of_mem hname))
    · have hstatement := h (.statement w.toLower ws) (by simp)
      exact hstatement (by simpa [hinstr, Part.isInstr] using hi)

theorem reads_iff (hwords : raw.words = w :: ws) {labels : Table Nat} {i : Instr Int} :
    raw.Reads labels i ↔ Part.Reads labels (.statement w.toLower ws) i := by
  constructor
  · rintro ⟨hwords', hdenotes, hplace⟩
    obtain ⟨rfl, rfl⟩ := List.cons.inj (hwords.symm.trans hwords')
    exact .mk hdenotes hplace
  · rintro ⟨hdenotes, hplace⟩
    exact .mk hwords hdenotes hplace

end Parts

end Text

namespace Code

theorem names_parts (raws : List Text) :
    (raws.flatMap Text.parts).filterMap Part.name? = raws.flatMap Text.labelNames := by
  have hlabels (names : List Text) : (names.map Part.label).filterMap Part.name? = names := by
    induction names with
    | nil => rfl
    | cons name names ih => simp [Part.name?, ih]
  induction raws with
  | nil => rfl
  | cons raw raws ih =>
    cases hwords : raw.words with
    | nil => simp [ih, Text.parts_of_nil hwords, hlabels]
    | cons w ws =>
      have hstatement : (Part.statement w.toLower ws).name? = none := rfl
      simp [ih, Text.parts_of_cons hwords, hlabels, List.filterMap_cons_none hstatement]

theorem labelTable_eq (index : Nat) (raws : List Text) :
    labelTable index raws = Part.table index (raws.flatMap Text.parts) := by
  induction raws generalizing index with
  | nil => rfl
  | cons raw raws ih =>
    rw [labelTable, List.flatMap_cons, ih]
    cases hwords : raw.words with
    | nil =>
      rw [Text.parts_of_nil hwords, Part.table_labels_append, Text.holdsInstr_of_nil hwords]
      rfl
    | cons w ws =>
      rw [Text.parts_of_cons hwords, List.append_assoc, Part.table_labels_append,
        Text.holdsInstr_of_cons hwords]
      rfl

theorem forall₂_reads_iff {labels : Table Nat} {raws : List Text} {is : List (Instr Int)} :
    List.Forall₂ (Text.Reads labels) (raws.filter Text.holdsInstr) is ↔
      List.Forall₂ (Part.Reads labels) ((raws.flatMap Text.parts).filter Part.isInstr) is := by
  have hlabels (names : List Text) : (names.map Part.label).filter Part.isInstr = [] := by
    simp [Part.isInstr]
  induction raws generalizing is with
  | nil => simp
  | cons raw raws ih =>
    cases hwords : raw.words with
    | nil =>
      have hi := Text.holdsInstr_of_nil hwords
      simp [hi, ih, Text.parts_of_nil hwords, hlabels]
    | cons w ws =>
      have hi := Text.holdsInstr_of_cons hwords
      by_cases hstatement : (Part.statement w.toLower ws).isInstr = true
      · simp [hi, hstatement, ih, Text.parts_of_cons hwords, hlabels, List.forall₂_cons_left_iff,
          Text.reads_iff hwords]
      · simp [hi, hstatement, ih, Text.parts_of_cons hwords, hlabels]

theorem exists_made_iff {labels : Table Nat} {number : Nat} {raws : List Text} {is : List (Instr Int)} :
    (∃ made : List Located,
      List.Forall₂ (fun entry i => (AsmLine.row entry.2 entry.1).assemble labels = .ok i)
        ((raws.zipIdx number).filter (·.1.holdsInstr)) made ∧ made.map Located.instr = is) ↔
      List.Forall₂ (Text.Reads labels) (raws.filter Text.holdsInstr) is := by
  induction raws generalizing number is with
  | nil => simp [eq_comm]
  | cons raw raws ih =>
    by_cases hi : raw.holdsInstr = true
    · rw [List.zipIdx_cons, List.filter_cons_of_pos (a := (raw, number)) hi, List.filter_cons_of_pos hi]
      constructor
      · rintro ⟨made, hmade, rfl⟩
        obtain ⟨i, rest, hraw, hrest, rfl⟩ := List.forall₂_cons_left_iff.mp hmade
        exact .cons ((AsmLine.assemble_row_eq_ok_iff hi).mp hraw).1 (ih.mp ⟨rest, hrest, rfl⟩)
      · intro h
        obtain ⟨i, rest, hreads, hrest, rfl⟩ := List.forall₂_cons_left_iff.mp h
        obtain ⟨made, hmade, rfl⟩ := ih.mpr hrest
        exact ⟨⟨i, number, (raw.before '#').trim⟩ :: made,
          .cons ((AsmLine.assemble_row_eq_ok_iff hi).mpr ⟨hreads, rfl, rfl⟩) hmade, rfl⟩
    · rw [List.zipIdx_cons, List.filter_cons_of_neg (a := (raw, number)) hi, List.filter_cons_of_neg hi]
      exact ih

/-- Parts that form code with the given labels, entry and instructions. -/
structure Formed (parts : List Part) (labels : Table Nat) (entry : Int) (instrs : List (Instr Int)) :
    Prop where
  accepted : ∀ p ∈ parts, p.Accepted
  nodup : (parts.filterMap Part.name?).Nodup
  places : labels = Part.table 0 parts
  reads : List.Forall₂ (Part.Reads labels) (parts.filter Part.isInstr) instrs
  main : ∃ n : Nat, labels.get? "main" = some n ∧ entry = n

/-- The code that a text is assembled to depends on its parts only, but for the lines and texts that
are kept with the instructions. -/
theorem exists_ofText_iff {text : Text} {labels : Table Nat} {entry : Int} {is : List (Instr Int)} :
    (∃ code, ofText text = .ok code ∧ code.labels = labels ∧ code.entry = entry ∧
      code.instrs.toList.map Located.instr = is) ↔
      Formed (text.lines.flatMap Text.parts) labels entry is := by
  have haccepted : (∀ raw ∈ text.lines, raw.Accepted) ↔
      ∀ p ∈ text.lines.flatMap Text.parts, p.Accepted := by
    simp only [Text.accepted_iff, List.mem_flatMap]
    exact ⟨fun h p ⟨raw, hraw, hp⟩ => h raw hraw p hp, fun h raw hraw p hp => h p ⟨raw, hraw, hp⟩⟩
  constructor
  · rintro ⟨code, hcode, rfl, rfl, rfl⟩
    obtain ⟨hrows, hnodup, hlabels, hmade, hentry⟩ := ofText_eq_ok_iff.mp hcode
    refine ⟨haccepted.mp hrows, ?_, ?_, ?_, hentry⟩
    · rwa [names_parts]
    · rw [hlabels, labelTable_eq]
    · exact forall₂_reads_iff.mp (exists_made_iff.mp ⟨_, hmade, rfl⟩)
  · rintro ⟨hparts, hnodup, hlabels, hreads, hentry⟩
    obtain ⟨made, hmade, hmap⟩ := exists_made_iff.mpr (forall₂_reads_iff.mpr hreads)
    refine ⟨⟨made.toArray, labels, entry⟩, ofText_eq_ok_iff.mpr ⟨?_, ?_, ?_, hmade, hentry⟩,
      rfl, rfl, hmap⟩
    · exact haccepted.mpr hparts
    · rwa [← names_parts]
    · rw [hlabels, labelTable_eq]

end Code

namespace Glyph

/-- A glyph and another that differs from it in the case of an ASCII letter at most. -/
inductive SameCase : Glyph → Glyph → Prop where
  | refl (g : Glyph) : SameCase g g
  | letter {c c' : Char} (hc : c.isAlpha = true) (hc' : c' = c.toLower ∨ c' = c.toUpper) :
    SameCase (.char c) (.char c')

/-- What holds of all ASCII letters, as a check of the ASCII characters shows. -/
theorem of_isAlpha {P : Char → Prop} (hP : ∀ n < 128, (Char.ofNat n).isAlpha = true → P (Char.ofNat n))
    {c : Char} (hc : c.isAlpha = true) : P c := by
  have hval : c.val.toNat = c.toNat := rfl
  have hn : c.toNat < 128 := by
    simp only [Char.isAlpha, Char.isUpper, Char.isLower, Bool.or_eq_true, Bool.and_eq_true,
      decide_eq_true_eq, ge_iff_le, UInt32.le_iff_toNat_le, hval] at hc
    have hbounds : 'Z'.val.toNat = 90 ∧ 'z'.val.toNat = 122 := by decide
    omega
  have h := hP c.toNat hn
  rw [Char.ofNat_toNat] at h
  exact h hc

theorem SameCase.lowerChar_eq {g g' : Glyph} (h : SameCase g g') :
    lowerChar g.toChar = lowerChar g'.toChar := by
  cases h with
  | refl => rfl
  | letter hc hc' =>
    have hboth := of_isAlpha (P := fun c => lowerChar c = lowerChar c.toLower ∧
      lowerChar c = lowerChar c.toUpper) (by decide) hc
    rcases hc' with rfl | rfl
    · exact hboth.1
    · exact hboth.2

theorem SameCase.isPlain {g g' : Glyph} (h : SameCase g g') (hg : g.isPlain = true) :
    g'.isPlain = true := by
  cases h with
  | refl => exact hg
  | letter hc hc' =>
    have hboth := of_isAlpha (P := fun c => (char c.toLower).isPlain = true ∧
      (char c.toUpper).isPlain = true) (by decide) hc
    rcases hc' with rfl | rfl
    · exact hboth.1
    · exact hboth.2

end Glyph

namespace Text

/-- Some lines of a text laid out in another way. -/
inductive Edit : List Text → List Text → Prop where
  | blankLine (raw : Text) (hblank : ∀ g ∈ raw.before '#', g.isBlank = true) : Edit [] [raw]
  | comment (raw rest : Text) : Edit [raw] [raw ++ Glyph.char '#' :: rest]
  | separator (x s s' y : Text) (hx : Glyph.char '#' ∉ x) (hy : Glyph.char ':' ∉ y.before '#')
      (hne : s ≠ [] ∧ s' ≠ []) (hs : ∀ g ∈ s ++ s', AsmLine.isSeparator g = true) :
    Edit [x ++ s ++ y] [x ++ s' ++ y]
  | blanks (a a' b b' raw : Text) (ha : ∀ g ∈ a ++ a', g.isBlank = true)
      (hb : ∀ g ∈ b ++ b', g.isBlank = true) : Edit [a ++ raw ++ b] [a' ++ raw ++ b']
  | mnemonic (x m m' y : Text) (hx : Glyph.char '#' ∉ x)
      (hfirst : ∀ g ∈ x.behindLabels, AsmLine.isSeparator g = true) (hm : m.IsWord)
      (hy : Glyph.char ':' ∉ y.before '#')
      (hend : ∀ g, (y.before '#').head? = some g → AsmLine.isSeparator g = true)
      (hcase : List.Forall₂ Glyph.SameCase m m') : Edit [x ++ m ++ y] [x ++ m' ++ y]
  | label (p q : Text) (hp : Glyph.char ':' ∉ p ∧ Glyph.char '#' ∉ p) :
    Edit [p ++ Glyph.char ':' :: q] [p ++ [Glyph.char ':'], q]

theorem toLower_eq_of_sameCase {m m' : Text} (h : List.Forall₂ Glyph.SameCase m m') :
    m.toLower = m'.toLower := by
  induction h with
  | nil => rfl
  | @cons g g' m m' hg _ ih =>
    have hcons (g : Glyph) (m : Text) : toLower (g :: m) = .char (lowerChar g.toChar) :: toLower m := rfl
    rw [hcons, hcons, hg.lowerChar_eq, ih]

theorem IsWord.of_sameCase {m m' : Text} (h : List.Forall₂ Glyph.SameCase m m') (hm : m.IsWord) :
    m'.IsWord := by
  refine ⟨fun hnil => hm.1 ?_, fun g' hg' => ?_⟩
  · cases hnil
    exact List.forall₂_nil_right_iff.mp h
  · obtain ⟨g, hg, hsame⟩ := Code.exists_of_forall₂ h hg'
    exact hsame.isPlain (hm.2 g hg)

section Before

variable {c : Char} {x y : Text}

theorem before_append_of_mem (h : .char c ∈ x) (y : Text) : (x ++ y).before c = x.before c := by
  obtain ⟨p, q, rfl, hp⟩ := List.eq_append_cons_of_mem h
  rw [List.append_assoc, List.cons_append, before_append_cons hp, before_append_cons hp]

theorem before_append_of_not_mem (h : .char c ∉ x) (y : Text) : (x ++ y).before c = x ++ y.before c := by
  have hx : ∀ g ∈ x, decide (g ≠ .char c) = true := by
    intro g hg
    simpa using fun e : g = .char c => h (e ▸ hg)
  exact List.takeWhile_append_of_pos hx

end Before

section Behind

variable {w : Text}

theorem labelsBefore_append_of_not_mem (hw : .char ':' ∉ w) (x : Text) :
    labelsBefore (x ++ w) = labelsBefore x := by
  induction x using colon_induction with
  | plain x hx => rw [labelsBefore_of_not_mem hx, labelsBefore_of_not_mem (by simp [hx, hw])]
  | colon p q hp ih =>
    rw [List.append_assoc, List.cons_append, labelsBefore_append_cons hp, labelsBefore_append_cons hp, ih]

theorem behindLabels_append_of_not_mem (hw : .char ':' ∉ w) (x : Text) :
    behindLabels (x ++ w) = behindLabels x ++ w := by
  induction x using colon_induction with
  | plain x hx => rw [behindLabels_of_not_mem hx, behindLabels_of_not_mem (by simp [hx, hw])]
  | colon p q hp ih =>
    rw [List.append_assoc, List.cons_append, behindLabels_append_cons, behindLabels_append_cons, ih]

end Behind

theorem parts_congr {raw raw' : Text} (hlabels : raw.labelNames = raw'.labelNames)
    (hwords : raw.words = raw'.words) : raw.parts = raw'.parts := by
  rw [parts, parts, hlabels, hwords]

theorem parts_blankLine {raw : Text} (hblank : ∀ g ∈ raw.before '#', g.isBlank = true) :
    raw.parts = [] := by
  have hcolon := colon_not_mem_blanks hblank
  have hwords : raw.words = [] := by
    have hfields := AsmLine.fields_append_blanks hblank []
    rwa [words, behindLabels_of_not_mem hcolon]
  have hlabels : raw.labelNames = [] := labelsBefore_of_not_mem hcolon
  rw [parts_of_nil hwords, hlabels]
  rfl

theorem parts_comment (raw rest : Text) : (raw ++ Glyph.char '#' :: rest).parts = raw.parts := by
  have hbefore : (raw ++ Glyph.char '#' :: rest).before '#' = raw.before '#' := by
    by_cases hmem : .char '#' ∈ raw
    · rw [before_append_of_mem hmem]
    · rw [before_append_cons hmem, before_of_not_mem hmem]
  exact parts_congr (by rw [labelNames, hbefore, labelNames]) (by rw [words, hbefore, words])

theorem parts_blanks {a b : Text} (raw : Text) (ha : ∀ g ∈ a, g.isBlank = true)
    (hb : ∀ g ∈ b, g.isBlank = true) : (a ++ raw ++ b).parts = raw.parts := by
  have hash (t : Text) (ht : ∀ g ∈ t, g.isBlank = true) : .char '#' ∉ t :=
    fun hm => absurd (ht _ hm) (by decide)
  have hbefore : ∃ b' : Text, (∀ g ∈ b', g.isBlank = true) ∧
      (a ++ raw ++ b).before '#' = a ++ (raw.before '#' ++ b') := by
    rw [List.append_assoc, before_append_of_not_mem (hash a ha)]
    by_cases hmem : .char '#' ∈ raw
    · exact ⟨[], by simp, by rw [before_append_of_mem hmem, List.append_nil]⟩
    · refine ⟨b, hb, ?_⟩
      rw [before_append_of_not_mem hmem, before_of_not_mem (hash b hb), before_of_not_mem hmem]
  obtain ⟨b', hb', hbefore⟩ := hbefore
  refine parts_congr ?_ ?_
  · rw [labelNames, hbefore, labelsBefore_blanks_append ha, labelsBefore_append_blanks hb', labelNames]
  · rw [words, hbefore, fields_behindLabels_blanks_append ha, fields_behindLabels_append_blanks hb', words]

section Behind

variable {x w y : Text}

theorem before_append_append (hx : Glyph.char '#' ∉ x) (hw : Glyph.char '#' ∉ w) (y : Text) :
    (x ++ w ++ y).before '#' = x ++ (w ++ y.before '#') := by
  have hxw : Glyph.char '#' ∉ x ++ w := by simp [hx, hw]
  rw [before_append_of_not_mem hxw, List.append_assoc]

theorem words_separator {s : Text} (hx : Glyph.char '#' ∉ x) (hy : Glyph.char ':' ∉ y.before '#')
    (hne : s ≠ []) (hs : ∀ g ∈ s, AsmLine.isSeparator g = true) :
    (x ++ s ++ y).labelNames = labelsBefore x ∧
      (x ++ s ++ y).words = AsmLine.fields x.behindLabels ++ AsmLine.fields (y.before '#') := by
  have hash : Glyph.char '#' ∉ s := fun hm => absurd (hs _ hm) (by decide)
  have hcolon : Glyph.char ':' ∉ s := fun hm => absurd (hs _ hm) (by decide)
  have hrest : Glyph.char ':' ∉ s ++ y.before '#' := by simp [hcolon, hy]
  rw [labelNames, words, before_append_append hx hash, labelsBefore_append_of_not_mem hrest,
    behindLabels_append_of_not_mem hrest, ← List.append_assoc, AsmLine.fields_append_separators hne hs]
  exact ⟨rfl, rfl⟩

theorem parts_mnemonic {m : Text} (hx : Glyph.char '#' ∉ x)
    (hfirst : ∀ g ∈ x.behindLabels, AsmLine.isSeparator g = true) (hm : m.IsWord)
    (hy : Glyph.char ':' ∉ y.before '#')
    (hend : ∀ g, (y.before '#').head? = some g → AsmLine.isSeparator g = true) :
    (x ++ m ++ y).parts =
      (labelsBefore x).map .label ++ [.statement m.toLower (AsmLine.fields (y.before '#'))] := by
  have hash : Glyph.char '#' ∉ m := fun hmem => Glyph.ne_hash_of_isPlain (hm.2 _ hmem) rfl
  have hcolon : Glyph.char ':' ∉ m := fun hmem => Glyph.ne_colon_of_isPlain (hm.2 _ hmem) rfl
  have hrest : Glyph.char ':' ∉ m ++ y.before '#' := by simp [hcolon, hy]
  have hlabels : (x ++ m ++ y).labelNames = labelsBefore x := by
    rw [labelNames, before_append_append hx hash, labelsBefore_append_of_not_mem hrest]
  have hwords : (x ++ m ++ y).words = m :: AsmLine.fields (y.before '#') := by
    rw [words, before_append_append hx hash, behindLabels_append_of_not_mem hrest,
      AsmLine.fields_separators_append hfirst]
    exact AsmLine.fields_word_append hm.1 (fun g hg => Glyph.not_separator_of_isPlain (hm.2 g hg)) hend
  rw [parts_of_cons hwords, hlabels]

theorem parts_label {p : Text} (hcolon : Glyph.char ':' ∉ p) (hash : Glyph.char '#' ∉ p) (q : Text) :
    (p ++ Glyph.char ':' :: q).parts = .label p.trim :: q.parts := by
  have hbefore : (p ++ Glyph.char ':' :: q).before '#' = p ++ Glyph.char ':' :: q.before '#' := by
    have hp : Glyph.char '#' ∉ p ++ [Glyph.char ':'] := by simp [hash]
    have happend := before_append_of_not_mem hp q
    simpa using happend
  have hlabels : (p ++ Glyph.char ':' :: q).labelNames = p.trim :: q.labelNames := by
    rw [labelNames, hbefore, labelsBefore_append_cons hcolon, labelNames]
  have hwords : (p ++ Glyph.char ':' :: q).words = q.words := by
    rw [words, hbefore, behindLabels_append_cons, words]
  rw [parts, hlabels, hwords, parts]
  rfl

end Behind

theorem Edit.parts_eq {rows rows' : List Text} (h : Edit rows rows') :
    rows.flatMap parts = rows'.flatMap parts := by
  have hone {raw raw' : Text} (h : raw.parts = raw'.parts) : [raw].flatMap parts = [raw'].flatMap parts := by
    rw [List.flatMap_singleton, List.flatMap_singleton, h]
  cases h with
  | blankLine raw hblank => simp [parts_blankLine hblank]
  | comment raw rest => exact hone (parts_comment raw rest).symm
  | separator x s s' y hx hy hne hs =>
    rw [List.forall_mem_append] at hs
    obtain ⟨hlabels, hwords⟩ := words_separator hx hy hne.1 hs.1
    obtain ⟨hlabels', hwords'⟩ := words_separator hx hy hne.2 hs.2
    exact hone (parts_congr (hlabels.trans hlabels'.symm) (hwords.trans hwords'.symm))
  | blanks a a' b b' raw ha hb =>
    rw [List.forall_mem_append] at ha hb
    exact hone ((parts_blanks raw ha.1 hb.1).trans (parts_blanks raw ha.2 hb.2).symm)
  | mnemonic x m m' y hx hfirst hm hy hend hcase =>
    have hold := parts_mnemonic hx hfirst hm hy hend
    have hnew := parts_mnemonic hx hfirst (hm.of_sameCase hcase) hy hend
    rw [← toLower_eq_of_sameCase hcase] at hnew
    exact hone (hold.trans hnew.symm)
  | label p q hp =>
    have hold := parts_label hp.1 hp.2 q
    have halone := parts_label hp.1 hp.2 []
    have hnil : parts [] = [] := parts_blankLine (by simp [before])
    simp [hold, halone, hnil]

/-- A text some lines of which are laid out in another way. -/
def Relaid (text text' : Text) : Prop :=
  ∃ front rows rows' back, Edit rows rows' ∧ text.lines = front ++ rows ++ back ∧
    text'.lines = front ++ rows' ++ back

theorem parts_eq_of_relaid {text text' : Text} (h : Relation.EqvGen Relaid text text') :
    text.lines.flatMap parts = text'.lines.flatMap parts := by
  induction h with
  | rel text text' h =>
    obtain ⟨front, rows, rows', back, hedit, hlines, hlines'⟩ := h
    simp only [hlines, hlines', List.flatMap_append, hedit.parts_eq]
  | refl => rfl
  | symm _ _ _ ih => exact ih.symm
  | trans _ _ _ _ _ ih ih' => exact ih.trans ih'

end Text

namespace Code

/-- Texts with the same parts are both assembled or both refused, and to the same code. -/
theorem exists_ofText_of_parts {text text' : Text}
    (hparts : text.lines.flatMap Text.parts = text'.lines.flatMap Text.parts) {code : Code}
    (h : ofText text = .ok code) :
    ∃ code', ofText text' = .ok code' ∧ code'.labels = code.labels ∧ code'.entry = code.entry ∧
      code'.instrs.map Located.instr = code.instrs.map Located.instr := by
  have hformed := exists_ofText_iff.mp ⟨code, h, rfl, rfl, rfl⟩
  rw [hparts] at hformed
  obtain ⟨code', h', hlabels, hentry, hinstrs⟩ := exists_ofText_iff.mpr hformed
  refine ⟨code', h', hlabels, hentry, ?_⟩
  rw [← Array.toList_inj, Array.toList_map, Array.toList_map, hinstrs]

theorem layout_irrelevant {text text' : Text} (h : Relation.EqvGen Text.Relaid text text') :
    ((∃ code, ofText text = .ok code) ↔ ∃ code', ofText text' = .ok code') ∧
    ∀ code code', ofText text = .ok code → ofText text' = .ok code' →
      code'.labels = code.labels ∧ code'.entry = code.entry ∧
        code'.instrs.map Located.instr = code.instrs.map Located.instr := by
  have hparts := Text.parts_eq_of_relaid h
  refine ⟨⟨fun ⟨code, hcode⟩ => ?_, fun ⟨code', hcode'⟩ => ?_⟩, fun code code' hcode hcode' => ?_⟩
  · obtain ⟨code', hcode', -⟩ := exists_ofText_of_parts hparts hcode
    exact ⟨code', hcode'⟩
  · obtain ⟨code, hcode, -⟩ := exists_ofText_of_parts hparts.symm hcode'
    exact ⟨code, hcode⟩
  · obtain ⟨code'', hcode'', hsame⟩ := exists_ofText_of_parts hparts hcode
    cases hcode'.symm.trans hcode''
    exact hsame

/-- One instruction on one line, and the same laid out on three. -/
def sumOnOneLine : Text := "main: addu $t0 $t1 $t2"

def sumOnThreeLines : Text := "# of two\nmain:\n\tADDU $t0, $t1 $t2#words"

theorem sum_relaid :
    Relation.EqvGen Text.Relaid sumOnOneLine sumOnThreeLines ∧
      ∃ code code', ofText sumOnOneLine = .ok code ∧ ofText sumOnThreeLines = .ok code' ∧
        code'.labels = code.labels ∧ code'.entry = code.entry ∧
        code'.instrs.map Located.instr = code.instrs.map Located.instr := by
  have hlabel : Text.Relaid sumOnOneLine "main:\n addu $t0 $t1 $t2" :=
    ⟨[], _, _, [], .label "main" " addu $t0 $t1 $t2" (by decide), by decide +kernel, by decide +kernel⟩
  have hblanks : Text.Relaid "main:\n addu $t0 $t1 $t2" "main:\n\taddu $t0 $t1 $t2" :=
    ⟨["main:"], _, _, [], .blanks " " "\t" [] [] "addu $t0 $t1 $t2" (by decide) (by decide),
      by decide +kernel, by decide +kernel⟩
  have hcase : List.Forall₂ Glyph.SameCase (Text.ofChars ['a', 'd', 'd', 'u'])
      (Text.ofChars ['A', 'D', 'D', 'U']) :=
    .cons (.letter rfl (.inr rfl)) (.cons (.letter rfl (.inr rfl))
      (.cons (.letter rfl (.inr rfl)) (.cons (.letter rfl (.inr rfl)) .nil)))
  have hmnemonic : Text.Relaid "main:\n\taddu $t0 $t1 $t2" "main:\n\tADDU $t0 $t1 $t2" :=
    ⟨["main:"], _, _, [], .mnemonic "\t" _ _ " $t0 $t1 $t2" (by decide) (by decide) (by decide) (by decide)
      (by decide) hcase, by decide +kernel, by decide +kernel⟩
  have hseparator : Text.Relaid "main:\n\tADDU $t0 $t1 $t2" "main:\n\tADDU $t0, $t1 $t2" :=
    ⟨["main:"], _, _, [], .separator "\tADDU $t0" " " ", " "$t1 $t2" (by decide) (by decide) (by decide)
      (by decide), by decide +kernel, by decide +kernel⟩
  have hcomment : Text.Relaid "main:\n\tADDU $t0, $t1 $t2" "main:\n\tADDU $t0, $t1 $t2#words" :=
    ⟨["main:"], _, _, [], .comment "\tADDU $t0, $t1 $t2" "words", by decide +kernel, by decide +kernel⟩
  have hline : Text.Relaid "main:\n\tADDU $t0, $t1 $t2#words" sumOnThreeLines :=
    ⟨[], _, _, ["main:", "\tADDU $t0, $t1 $t2#words"], .blankLine "# of two" (by decide), by decide +kernel,
      by decide +kernel⟩
  have hrelaid : Relation.EqvGen Text.Relaid sumOnOneLine sumOnThreeLines :=
    .trans _ _ _ (.rel _ _ hlabel) <| .trans _ _ _ (.rel _ _ hblanks) <|
      .trans _ _ _ (.rel _ _ hmnemonic) <| .trans _ _ _ (.rel _ _ hseparator) <|
      .trans _ _ _ (.rel _ _ hcomment) (.rel _ _ hline)
  obtain ⟨hiff, hsame⟩ := layout_irrelevant hrelaid
  have hok : (ofText sumOnOneLine).isOk = true := by decide +kernel
  cases hcode : ofText sumOnOneLine with
  | error e =>
    rw [hcode] at hok
    cases hok
  | ok code =>
    obtain ⟨code', hcode'⟩ := hiff.mp ⟨code, hcode⟩
    exact ⟨hrelaid, code, code', rfl, hcode', hsame code code' hcode hcode'⟩

end Code

end MiniPascal
